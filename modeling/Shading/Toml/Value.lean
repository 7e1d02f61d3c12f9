/-! # Configuration values

A configuration file is a tree of tables.  A table can be opened by a header, be implied by the
header of a table below it, come about by dotted keys, or be written inline; this decides what may
still be added to it. -/

namespace Shading.Toml

/-- How a table came about. -/
inductive Form where
  | header
  /-- Implied by the header of a table below it. -/
  | implied
  | dotted
  | inline
deriving DecidableEq, Repr, Inhabited

/-- A value. -/
inductive Item where
  | text (value : String)
  | flag (value : Bool)
  | number
  /-- A date, a time or both. -/
  | moment (written : String)
  | array (items : List Item)
  | table (form : Form) (entries : List (String × Item))
  /-- An array of tables, each opened by a header. -/
  | tables (elements : List (List (String × Item)))
deriving Inhabited

/-- The entries of a table, in the order in which they were written. -/
abbrev Entries := List (String × Item)

/-- Changes what stands under a key, which may be nothing.  A new key goes to the end. -/
def change (key : String) (f : Option Item → Option Item) : Entries → Option Entries
  | [] => (f none).map fun item => [(key, item)]
  | (other, item) :: rest =>
    if other = key then (f (some item)).map fun new => (key, new) :: rest
    else (change key f rest).map ((other, item) :: ·)

/-- What happens to a table: its form and entries before and after. -/
abbrev TableChange := Form → Entries → Option (Form × Entries)

/-- Changes the table at a path.  Tables that are missing on the way come about, by dotted keys or
by implication.  Dotted keys do not lead into a table opened by a header, and nothing leads into a
value. -/
def changeAt (dotted : Bool) (f : TableChange) : List String → TableChange
  | [], form, entries => f form entries
  | key :: path, form, entries => do
    let inner : Form → Entries → Option Item := fun form entries => do
      let (form, entries) ← changeAt dotted f path form entries
      return Item.table form entries
    let changed ← change key (fun item? =>
      match item? with
      | none => inner (if dotted then .dotted else .implied) []
      | some (.table .inline _) => none
      | some (.table .header entries) => if dotted then none else inner .header entries
      | some (.table form entries) => inner form entries
      | some (.tables elements) => do
        let last ← elements.getLast?
        let (_, entries) ← changeAt dotted f path .header last
        return .tables (elements.dropLast ++ [entries])
      | some _ => none) entries
    return (form, changed)

/-- Sets a key that has no value.  A dotted key sets it only in a table made by dotted keys. -/
def assign (dotted : Bool) (key : String) (value : Item) : TableChange := fun form entries => do
  if (form == .dotted) != dotted then none
  else
    let changed ← change key (fun item? => if item?.isSome then none else some value) entries
    return (form, changed)

/-- Sets the value of a dotted key, seen from a table. -/
def assignPath (path : List String) (value : Item) : TableChange := fun form entries => do
  let key ← path.getLast?
  let before := path.dropLast
  changeAt true (assign (!before.isEmpty) key value) before form entries

/-- Opens a table by its header.  It may have been implied, but not made in any other way. -/
def openTable (path : List String) (root : Entries) : Option Entries := do
  let key ← path.getLast?
  let opened := changeAt false (fun form entries => do
    let changed ← change key (fun item? =>
      match item? with
      | none => some (.table .header [])
      | some (.table .implied entries) => some (.table .header entries)
      | some _ => none) entries
    return (form, changed)) path.dropLast
  return (← opened .header root).2

/-- Adds an element to an array of tables by its header. -/
def openElement (path : List String) (root : Entries) : Option Entries := do
  let key ← path.getLast?
  let opened := changeAt false (fun form entries => do
    let changed ← change key (fun item? =>
      match item? with
      | none => some (.tables [[]])
      | some (.tables elements) => some (.tables (elements ++ [[]]))
      | some _ => none) entries
    return (form, changed)) path.dropLast
  return (← opened .header root).2

/-- Sets the value of a dotted key under a header. -/
def assignUnder (header path : List String) (value : Item) (root : Entries) : Option Entries := do
  let changed ← changeAt false (assignPath path value) header .header root
  return changed.2

end Shading.Toml

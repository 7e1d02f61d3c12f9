import Shading.Toml.Moment
import Shading.Toml.Value

/-! # Configuration files

A file is read line by line: a header, a key with its value, or nothing, and after it a comment. -/

namespace Shading.Toml

def blanks : Take Unit := fun cs => some ((), cs.dropWhile isBlank)

/-- The given characters stand first. -/
def exactly (expected : List Char) : Take Unit := fun cs =>
  if expected.isPrefixOf cs then some ((), cs.drop expected.length) else none

/-- The first character, which stays. -/
def peek : Take (Option Char) := fun cs => some (cs.head?, cs)

/-! ### Keys -/

def isKeyChar (c : Char) : Bool := c.isAlphanum || c = '-' || c = '_'

/-- A key without dots. -/
def plainKey : Take String := fun cs =>
  match cs with
  | '"' :: rest => (basicText rest).map fun (text, rest) => (String.ofList text, rest)
  | '\'' :: rest => (literalText rest).map fun (text, rest) => (String.ofList text, rest)
  | _ =>
    let word := cs.takeWhile isKeyChar
    if word.isEmpty then none else some (String.ofList word, cs.dropWhile isKeyChar)

/-- Keys with dots between them, up to a number of keys. -/
def keys : Nat → Take (List String)
  | 0 => failure
  | limit + 1 => do
    blanks
    let first ← plainKey
    blanks
    if (← peek) = some '.' then
      exactly ['.']
      return first :: (← keys limit)
    else return [first]

/-- How deep arrays and inline tables may be nested, and how many keys a dotted key may have. -/
def levelLimit : Nat := 79

def dottedKey : Take (List String) := keys levelLimit

/-- A dotted key, an equals sign and a value. -/
def assignment (value : Take Item) : Take (List String × Item) := do
  let path ← dottedKey
  exactly ['=']
  blanks
  return (path, ← value)

/-! ### Comments and line ends -/

/-- A comment, if there is one. -/
def comment : Take Unit := fun cs =>
  match cs with
  | '#' :: rest => some ((), rest.dropWhile isTextChar)
  | _ => some ((), cs)

/-- What may follow on a line, and its end. -/
def lineEnd : Take Unit := do
  blanks
  comment
  fun cs => if cs.isEmpty then some ((), []) else (afterLineEnd? cs).map fun rest => ((), rest)

/-- Blanks, comments and line ends, as far as the fuel goes. -/
def gap : Nat → Take Unit
  | 0 => pure ()
  | fuel + 1 => do
    blanks
    match ← peek with
    | some '#' | some '\n' | some '\r' =>
      lineEnd
      gap fuel
    | _ => pure ()

/-- All blanks, comments and line ends that stand first. -/
def gaps : Take Unit := fun cs => gap (cs.length + 1) cs

/-! ### Values -/

/-- The items of an array and its closing bracket. -/
def arrayItems (item : Take Item) : Nat → Take (List Item)
  | 0 => failure
  | fuel + 1 => do
    gaps
    if (← peek) = some ']' then
      exactly [']']
      return []
    let first ← item
    gaps
    if (← peek) = some ',' then
      exactly [',']
      return first :: (← arrayItems item fuel)
    else
      exactly [']']
      return [first]

/-- The assignments in an inline table and its closing brace. -/
def tableItems (item : Take Item) : Nat → Take (List (List String × Item))
  | 0 => failure
  | fuel + 1 => do
    let first ← assignment item
    blanks
    if (← peek) = some ',' then
      exactly [',']
      return first :: (← tableItems item fuel)
    else
      exactly ['}']
      return [first]

/-- The inline table with the given assignments. -/
def inlineTable (assignments : List (List String × Item)) : Option Item := do
  let (_, entries) ← assignments.foldlM
    (fun (form, entries) (path, value) => assignPath path value form entries) (Form.inline, [])
  return .table .inline entries

/-- A value without others in it. -/
def plainValue : Take Item := do
  match ← peek with
  | some '"' | some '\'' => return .text (← quoted)
  | some 't' =>
    exactly "true".toList
    return .flag true
  | some 'f' =>
    exactly "false".toList
    return .flag false
  | _ => (do return .moment (← moment)) <|> (do number; return .number)

/-- A value, with arrays and inline tables in it up to a number of levels. -/
def value : Nat → Take Item
  | 0 => plainValue
  | levels + 1 => do
    match ← peek with
    | some '[' =>
      exactly ['[']
      return .array (← fun cs => arrayItems (value levels) (cs.length + 1) cs)
    | some '{' =>
      exactly ['{']
      blanks
      if (← peek) = some '}' then
        exactly ['}']
        return .table .inline []
      let items ← fun cs => tableItems (value levels) (cs.length + 1) cs
      inlineTable items
    | _ => plainValue

/-! ### Documents -/

/-- A document while it is read: the tables so far, and the header of the current one. -/
structure Document where
  entries : Entries := []
  header : List String := []
deriving Inhabited

/-- One line, which is not empty. -/
def line (d : Document) : Take Document := do
  match ← peek with
  | some '#' | some '\n' | some '\r' =>
    lineEnd
    return d
  | some '[' =>
    exactly ['[']
    if (← peek) = some '[' then
      exactly ['[']
      let path ← dottedKey
      exactly [']', ']']
      lineEnd
      return ⟨← openElement path d.entries, path⟩
    else
      let path ← dottedKey
      exactly [']']
      lineEnd
      return ⟨← openTable path d.entries, path⟩
  | _ =>
    let (path, item) ← assignment (value levelLimit)
    lineEnd
    return { d with entries := ← assignUnder d.header path item d.entries }

/-- All lines, at most as many as the fuel. -/
def lines : Nat → Document → Take Document
  | 0, d => return d
  | fuel + 1, d => do
    blanks
    if (← peek).isNone then return d
    lines fuel (← line d)

/-- The tables of a configuration file; `none` if it is not well formed. -/
def parse (text : String) : Option Entries := do
  let cs := match text.toList with
    | '\uFEFF' :: rest => rest
    | cs => cs
  let (document, _) ← lines (cs.length + 1) {} cs
  return document.entries

end Shading.Toml

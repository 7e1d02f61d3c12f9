import Shading.Config.Report
import Shading.Spirv.Module
import Shading.Toml.Document

/-! # Configuration

A project can keep its settings in a configuration file:

    [preprocessor]
    include_paths = ["shaders/common"]

    [macros]
    LIGHTING = "lighting.fsl"

    [il]
    strict = false

    [spirv]
    version = "1.3"
    emit_names = true

Everything may be left out, but nothing else may be there.  The tables other than `macros` can also
be written as arrays of their values, in this order. -/

namespace Shading

/-- The settings in a configuration file. -/
structure Config where
  /-- Where includes are looked for, seen from the file. -/
  includePaths : List String := []
  macros : List (String × String) := []
  strict : Bool := false
  version? : Option String := none
  emitNames : Bool := false
deriving DecidableEq, Repr, Inhabited

/-! ### Versions -/

/-- The character has the Unicode property `White_Space`. -/
def Text.isBlank (c : Char) : Bool :=
  let n := c.toNat
  (0x09 ≤ n && n ≤ 0x0d) || n = 0x20 || n = 0x85 || n = 0xa0 || n = 0x1680 ||
    (0x2000 ≤ n && n ≤ 0x200a) || n = 0x2028 || n = 0x2029 || n = 0x202f || n = 0x205f || n = 0x3000

/-- The characters without the blanks at both ends. -/
def Text.trimBlanks (cs : List Char) : List Char :=
  ((cs.dropWhile isBlank).reverse.dropWhile isBlank).reverse

/-- A number below 256 in decimal digits; a plus sign may precede them. -/
def byteOfDigits? (cs : List Char) : Option UInt8 :=
  let digits := if cs.head? = some '+' then cs.drop 1 else cs
  let value := Toml.decimal digits
  if !digits.isEmpty && digits.all Toml.isDigit && value < 256 then some value.toUInt8 else none

/-- A version written as two numbers with a dot between them. -/
def Spirv.FormatVersion.parse? (text : String) : Option Spirv.FormatVersion := do
  let cs := Text.trimBlanks text.toList
  match cs.dropWhile (· ≠ '.') with
  | [] => none
  | _ :: minor => return ⟨← byteOfDigits? (cs.takeWhile (· ≠ '.')), ← byteOfDigits? minor⟩

namespace Config

open Toml (Item Entries)

/-! ### From tables to settings -/

def text? : Item → Option String
  | .text value => some value
  | _ => none

def flag? : Item → Option Bool
  | .flag value => some value
  | _ => none

def texts? : Item → Option (List String)
  | .array items => items.mapM text?
  | _ => none

/-- The key under which a date or time stands when it is taken for a table. -/
def momentKey : String := "$__toml_private_datetime"

/-- A table of texts. -/
def textTable? : Item → Option (List (String × String))
  | .table _ entries => entries.mapM fun (key, item) => do return (key, ← text? item)
  | .moment written => some [(momentKey, written)]
  | _ => none

/-- The values of the given keys.  In a table no other keys may be there; in an array the values
stand in the order of the keys, and those after them are ignored. -/
def fields? (keys : List String) : Item → Option (List (Option Item))
  | .table _ entries =>
    if entries.all fun (key, _) => keys.contains key then
      some (keys.map fun key => entries.lookup key)
    else none
  | .array items => some ((List.range keys.length).map (items[·]?))
  | .tables elements =>
    some ((List.range keys.length).map fun i => elements[i]?.map (.table .header))
  | _ => none

/-- The value of a field, or what it is without one. -/
def field? {α : Type} (read : Item → Option α) (absent : α) : Option Item → Option α
  | none => some absent
  | some item => read item

/-- The settings in the tables of a file. -/
def ofEntries? (entries : Entries) : Option Config := do
  let tables ← fields? ["preprocessor", "macros", "il", "spirv"] (.table .header entries)
  let part := fun i => (tables[i]?.join).getD (.table .header [])
  match ← fields? ["include_paths"] (part 0), ← textTable? (part 1), ← fields? ["strict"] (part 2),
    ← fields? ["version", "emit_names"] (part 3) with
  | [includePaths], macros, [strict], [version, emitNames] =>
    return {
      includePaths := ← field? texts? [] includePaths
      macros
      strict := ← field? flag? false strict
      version? := ← field? (fun item => (text? item).map some) none version
      emitNames := ← field? flag? false emitNames }
  | _, _, _, _ => none

/-! ### Files -/

/-- The name of a configuration file. -/
def fileName : String := "fil.toml"

/-- Reads a configuration file. -/
def load (fs : FileSystem) (path : String) : Except Report Config := do
  match fs.readText path with
  | .error cause => throw (.unreadableConfig path cause)
  | .ok text =>
    match (Toml.parse text).bind ofEntries? with
    | none => throw (.malformedConfig path)
    | some config =>
      match config.version? with
      | none => return config
      | some version =>
        if (Spirv.FormatVersion.parse? version).isSome then return config
        else throw (.badVersion version path)

/-- Reads the configuration file of a directory, if it has one.  The first part of the result is its
path. -/
def find (fs : FileSystem) (directory : String) : Except Report (Option (String × Config)) := do
  let path := Path.join directory fileName
  match fs.isThere path with
  | .error cause => throw (.unreachableConfig path cause)
  | .ok false => return none
  | .ok true => return some (path, ← load fs path)

end Config

end Shading

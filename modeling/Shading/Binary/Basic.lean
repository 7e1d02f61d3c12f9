import Shading.Basic
import Shading.Binary.Instruction

/-! # Binaries

A `Binary` is the flat form of a program: entrypoints and functions whose names and bodies are
ranges of one table of bytes and one array of code words.  A binary is built by adding records; each
addition puts its name and body at the ends of the two tables, so earlier ranges keep their meaning.
-/

namespace Shading.Binary

/-- A stretch of a table: where it begins and how long it is. -/
structure Range where
  offset : UInt64
  length : UInt64
deriving DecidableEq, Repr, Inhabited

namespace Range

/-- The first place and the place past the last, if both can be counted in 64 bits. -/
def bounds? (r : Range) : Option (Nat × Nat) :=
  let stop := r.offset.toNat + r.length.toNat
  if stop < UInt64.size then some (r.offset.toNat, stop) else none

/-- The part of a table that a range covers; `none` if it does not lie within the table. -/
def slice? {α : Type} (r : Range) (table : List α) : Option (List α) :=
  if r.offset.toNat + r.length.toNat ≤ table.length then
    some ((table.drop r.offset.toNat).take r.length.toNat)
  else none

end Range

/-- The pipeline stage that an entrypoint belongs to. -/
inductive EntrypointKind where
  | vertex
  | tessellationControl
  | tessellationEvaluation
  | geometry
  | fragment
  | compute
deriving DecidableEq, Repr, Inhabited

namespace EntrypointKind

instance : Named EntrypointKind where
  all := [.vertex, .tessellationControl, .tessellationEvaluation, .geometry, .fragment, .compute]
  name
    | .vertex => "Vertex"
    | .tessellationControl => "TessellationControl"
    | .tessellationEvaluation => "TessellationEvaluation"
    | .geometry => "Geometry"
    | .fragment => "Fragment"
    | .compute => "Compute"

def number : EntrypointKind → UInt32
  | .vertex => 0
  | .tessellationControl => 1
  | .tessellationEvaluation => 2
  | .geometry => 3
  | .fragment => 4
  | .compute => 5

def ofNumber? (n : UInt32) : Option EntrypointKind := Named.all.find? fun k => k.number == n

end EntrypointKind

/-- How a parameter is passed. -/
inductive Qualifier where
  | none
  | input
  | output
  | both
deriving DecidableEq, Repr, Inhabited

namespace Qualifier

instance : Named Qualifier where
  all := [.none, .input, .output, .both]
  name
    | .none => "None"
    | .input => "In"
    | .output => "Out"
    | .both => "InOut"

def number : Qualifier → UInt32
  | .none => 0
  | .input => 1
  | .output => 2
  | .both => 3

def ofNumber? (n : UInt32) : Option Qualifier := Named.all.find? fun q => q.number == n

end Qualifier

/-- The types that need no definition. -/
inductive BuiltinType where
  | void
  | bool
  | int
  | uint
  | float
  | vec2
  | vec3
  | vec4
  | mat4
deriving DecidableEq, Repr, Inhabited

namespace BuiltinType

instance : Named BuiltinType where
  all := [.void, .bool, .int, .uint, .float, .vec2, .vec3, .vec4, .mat4]
  name
    | .void => "Void"
    | .bool => "Bool"
    | .int => "Int"
    | .uint => "Uint"
    | .float => "Float"
    | .vec2 => "Vec2"
    | .vec3 => "Vec3"
    | .vec4 => "Vec4"
    | .mat4 => "Mat4"

/-- The number of components of a vector type. -/
def vectorSize? : BuiltinType → Option UInt32
  | .vec2 => some 2
  | .vec3 => some 3
  | .vec4 => some 4
  | _ => none

end BuiltinType

/-- A type by its number. -/
structure TypeId where
  number : UInt64
deriving DecidableEq, Repr, Inhabited

namespace TypeId

/-- The builtin type with this number; all other numbers are undefined. -/
def builtin? (t : TypeId) : Option BuiltinType := Named.all[t.number.toNat]?

def display (t : TypeId) : String :=
  match t.builtin? with
  | some type => Named.name type
  | none => s!"type#{t.number}"

end TypeId

/-- A parameter of a function, or an input or output of an entrypoint. -/
structure Parameter where
  type : TypeId
  qualifiers : List Qualifier
deriving DecidableEq, Repr, Inhabited

/-- Where a pipeline stage begins. -/
structure Entrypoint where
  kind : EntrypointKind
  code : Range
  name : Range
  inputs : List Parameter
  outputs : List Parameter
deriving DecidableEq, Repr, Inhabited

/-- A function that bodies can call. -/
structure Function where
  code : Range
  name : Range
  returnType : TypeId
  parameters : List Parameter
deriving DecidableEq, Repr, Inhabited

end Binary

/-- A program in flat form. -/
structure Binary where
  entrypoints : List Binary.Entrypoint := []
  functions : List Binary.Function := []
  /-- The bytes of all names. -/
  strings : List UInt8 := []
  /-- The words of all bodies. -/
  code : List UInt32 := []
deriving DecidableEq, Repr, Inhabited

namespace Binary

/-- The bytes of a name. -/
def nameBytes? (b : Binary) (range : Range) : Option (List UInt8) := range.slice? b.strings

/-- A name, if its range lies in the table and its bytes are UTF-8. -/
def name? (b : Binary) (range : Range) : Option String := (b.nameBytes? range).bind Text.ofUtf8?

/-- The words of a body. -/
def words? (b : Binary) (range : Range) : Option (List UInt32) := range.slice? b.code

/-! ### Building -/

/-- Puts a name at the end of the string table. -/
def addName (b : Binary) (name : String) : Binary × Range :=
  let bytes := Text.utf8Bytes name
  ({ b with strings := b.strings ++ bytes }, ⟨b.strings.length.toUInt64, bytes.length.toUInt64⟩)

/-- Puts words at the end of the code. -/
def addCode (b : Binary) (words : List UInt32) : Binary × Range :=
  ({ b with code := b.code ++ words }, ⟨b.code.length.toUInt64, words.length.toUInt64⟩)

/-- Adds a function; the result's second part is its number. -/
def addFunction (b : Binary) (name : String) (returnType : TypeId) (parameters : List Parameter)
    (body : List UInt32) : Binary × Nat :=
  let (named, nameRange) := b.addName name
  let (coded, codeRange) := named.addCode body
  ({ coded with functions := coded.functions ++ [⟨codeRange, nameRange, returnType, parameters⟩] },
    b.functions.length)

/-- Adds an entrypoint. -/
def addEntrypoint (b : Binary) (kind : EntrypointKind) (name : String)
    (inputs outputs : List Parameter) (body : List UInt32) : Binary :=
  let (named, nameRange) := b.addName name
  let (coded, codeRange) := named.addCode body
  { coded with
    entrypoints := coded.entrypoints ++ [⟨kind, codeRange, nameRange, inputs, outputs⟩] }

end Binary

end Shading

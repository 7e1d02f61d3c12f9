import Shading.Basic
import Shading.Binary.Basic

/-! # The stored form of a binary

    magic, version
    count of entrypoints, then for each: kind, filler, code, name, inputs, outputs
    count of functions, then for each: code, name, return type, parameters
    count of string bytes, the bytes, filler
    count of types, which is zero
    count of code words, the words, filler

    a range is an offset and a length
    parameters are a count, then for each: type, count of qualifiers, filler, qualifiers, filler

`layout` lists the fields of a binary in this order and `encode` writes them out.  Filler is zero
bytes up to the next multiple of eight, so that every 64-bit field begins at such a multiple. -/

namespace Shading.Binary

/-- A field of the stored form. -/
inductive Field where
  /-- A 32-bit number. -/
  | word (w : UInt32)
  /-- A 64-bit number. -/
  | long (w : UInt64)
  | bytes (data : List UInt8)
  /-- Zero bytes whose only use is to fill up. -/
  | filler (count : Nat)
deriving DecidableEq, Repr, Inhabited

/-- The bytes of a field. -/
def Field.stored : Field → List UInt8
  | .word w => Word.bytes32 w
  | .long w => Word.bytes64 w
  | .bytes data => data
  | .filler count => List.replicate count 0

/-- How many bytes are missing to a multiple of eight. -/
def fillTo8 (count : Nat) : Nat := (8 - count % 8) % 8

/-- The first word of every binary. -/
def magic : UInt32 := 0x46494c00

namespace Layout

def count (n : Nat) : Field := .long n.toUInt64

def range (r : Range) : List Field := [.long r.offset, .long r.length]

/-- The number of qualifiers as a word. -/
def qualifierCount (qualifiers : List Qualifier) : UInt32 :=
  (min qualifiers.length (UInt32.size - 1)).toUInt32

def parameter (p : Parameter) : List Field :=
  [.long p.type.number, .word (qualifierCount p.qualifiers), .filler 4] ++
    p.qualifiers.map (fun q => .word q.number) ++ [.filler (fillTo8 (4 * p.qualifiers.length))]

def parameters (ps : List Parameter) : List Field := count ps.length :: ps.flatMap parameter

def entrypoint (e : Entrypoint) : List Field :=
  [.word e.kind.number, .filler 4] ++ range e.code ++ range e.name ++ parameters e.inputs ++
    parameters e.outputs

def function (f : Function) : List Field :=
  range f.code ++ range f.name ++ [.long f.returnType.number] ++ parameters f.parameters

def strings (data : List UInt8) : List Field :=
  [count data.length, .bytes data, .filler (fillTo8 data.length)]

def code (words : List UInt32) : List Field :=
  count words.length :: words.map .word ++ [.filler (fillTo8 (4 * words.length))]

end Layout

/-- The fields of a binary, in order. -/
def layout (b : Binary) : List Field :=
  [.word magic, .word Version.current.toWord] ++
    Layout.count b.entrypoints.length :: b.entrypoints.flatMap Layout.entrypoint ++
    Layout.count b.functions.length :: b.functions.flatMap Layout.function ++
    Layout.strings b.strings ++ [Layout.count 0] ++ Layout.code b.code

/-- The stored form of a binary. -/
def encode (b : Binary) : List UInt8 := b.layout.flatMap Field.stored

end Shading.Binary

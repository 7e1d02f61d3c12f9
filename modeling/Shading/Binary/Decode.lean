import Shading.Binary.Layout

/-! # Reading the stored form

Reading goes from front to back and stops at the first fault.  A count is refused at once if the
bytes that are left cannot hold that many items, so the work is bounded by the length of the input.
The readers of the parts serve any way to take bytes (`Feed`).

`read` gives the binary and the bytes after it.  `decodeStrict` refuses bytes after the end;
`decodeLenient` ignores them, and takes anything unreadable for the empty binary. -/

namespace Shading.Binary

/-- What is left to read, and how much was read before it. -/
structure Unread where
  position : Nat
  bytes : List UInt8
deriving DecidableEq, Repr, Inhabited

/-- A reader of part of the stored form. -/
abbrev Decoder := StateT Unread (Except Fault)

namespace Decoder

/-- Reads a number of bytes. -/
def take (count : Nat) : Decoder (List UInt8) := fun u =>
  if count ≤ u.bytes.length then
    .ok (u.bytes.take count, ⟨u.position + count, u.bytes.drop count⟩)
  else .error (.truncated u.position)

/-- Reads a 32-bit number. -/
def word : Decoder UInt32 := fun u =>
  match u.bytes with
  | a :: b :: c :: d :: rest => .ok (Word.ofBytes32 a b c d, ⟨u.position + 4, rest⟩)
  | _ => .error (.truncated u.position)

/-- Reads a 64-bit number. -/
def long : Decoder UInt64 := fun u =>
  match u.bytes with
  | a :: b :: c :: d :: e :: f :: g :: h :: rest =>
    .ok (Word.ofHalves (Word.ofBytes32 a b c d) (Word.ofBytes32 e f g h), ⟨u.position + 8, rest⟩)
  | _ => .error (.truncated u.position)

end Decoder

/-- Readers that take bytes from the front of those left. -/
class Feed (m : Type → Type) where
  take : Nat → m (List UInt8)
  word : m UInt32
  long : m UInt64

instance : Feed Decoder where
  take := Decoder.take
  word := Decoder.word
  long := Decoder.long

namespace Decoder

variable {m : Type → Type} [Monad m] [MonadStateOf Unread m] [MonadExceptOf Fault m] [Feed m]

/-- Passes over filler up to a multiple of eight. -/
def align : m Unit := do
  let _ ← Feed.take (fillTo8 (← get).position)

/-- Refuses a number of items that cannot fit into the bytes left, at the place where the number
stands. -/
def checkRoom (place count size : Nat) : m Unit := do
  if count * size ≤ (← get).bytes.length then return () else throw (.truncated place)

/-- Reads how many items of at least `size` bytes follow. -/
def count (size : Nat) : m Nat := do
  let place := (← get).position
  let n ← Feed.long
  checkRoom place n.toNat size
  return n.toNat

/-- Reads a number of items one after the other. -/
def times {α : Type} (item : m α) : Nat → m (List α)
  | 0 => return []
  | n + 1 => do
    let first ← item
    let rest ← times item n
    return first :: rest

def range : m Range := do
  let offset ← Feed.long
  let length ← Feed.long
  return ⟨offset, length⟩

def qualifier : m Qualifier := do
  let value ← Feed.word
  match Qualifier.ofNumber? value with
  | some q => return q
  | none => throw (.badQualifier value)

def parameter : m Parameter := do
  let number ← Feed.long
  let place := (← get).position
  let n ← Feed.word
  checkRoom place n.toNat 4
  let _ ← Feed.word
  let qualifiers ← times qualifier n.toNat
  align
  return ⟨⟨number⟩, qualifiers⟩

/-- The bytes of a parameter without qualifiers. -/
def parameterSize : Nat := 16

def parameters : m (List Parameter) := do times parameter (← count parameterSize)

def entrypoint : m Entrypoint := do
  let value ← Feed.word
  match EntrypointKind.ofNumber? value with
  | none => throw (.badEntrypointKind value)
  | some kind =>
    let _ ← Feed.word
    let code ← range
    let name ← range
    let inputs ← parameters
    let outputs ← parameters
    return ⟨kind, code, name, inputs, outputs⟩

/-- The bytes of an entrypoint without inputs and outputs. -/
def entrypointSize : Nat := 56

def function : m Function := do
  let code ← range
  let name ← range
  let number ← Feed.long
  let parameters ← parameters
  return ⟨code, name, ⟨number⟩, parameters⟩

/-- The bytes of a function without parameters. -/
def functionSize : Nat := 48

def strings : m (List UInt8) := do
  let data ← Feed.take (← count 1)
  align
  return data

def code : m (List UInt32) := do
  let words ← times Feed.word (← count 4)
  align
  return words

/-- Everything after magic and version. -/
def contents : m Binary := do
  let entrypoints ← count entrypointSize >>= times entrypoint
  let functions ← count functionSize >>= times function
  let strings ← strings
  let types ← Feed.long
  if types ≠ 0 then throw (.reservedTypes types)
  let code ← code
  return { entrypoints, functions, strings, code }

def binary : m Binary := do
  let found ← Feed.word
  if found ≠ magic then throw (.badMagic found)
  let version := Version.ofWord (← Feed.word)
  if version.major ≠ Version.readableMajor then throw (.unsupportedVersion version)
  contents

end Decoder

/-- Reads a binary from the front of some bytes; the second part is what follows it. -/
def read (bytes : List UInt8) : Except Fault (Binary × List UInt8) := do
  let (binary, unread) ← (Decoder.binary : Decoder Binary).run ⟨0, bytes⟩
  return (binary, unread.bytes)

/-- The binary with exactly these bytes as its stored form. -/
def decodeStrict (bytes : List UInt8) : Except Fault Binary := do
  let (binary, rest) ← read bytes
  if rest.isEmpty then return binary else throw (.trailingBytes rest.length)

/-- The binary at the front of some bytes, or the empty one. -/
def decodeLenient (bytes : List UInt8) : Binary :=
  match read bytes with
  | .ok (binary, _) => binary
  | .error _ => {}

/-- How bytes that are not a proper binary are taken. -/
inductive Strictness where
  | lenient
  | strict
deriving DecidableEq, Repr, Inhabited

instance : Named Strictness where
  all := [.lenient, .strict]
  name
    | .lenient => "Lenient"
    | .strict => "Strict"

/-- Reads bytes with the given strictness. -/
def decode (strictness : Strictness) (bytes : List UInt8) : Except Fault Binary :=
  match strictness with
  | .lenient => .ok (decodeLenient bytes)
  | .strict => decodeStrict bytes

end Shading.Binary

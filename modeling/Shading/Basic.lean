/-! # Named values, ordered lists and bytes -/

/-! ### Types with finitely many named values

Token classes, node kinds, opcodes and the enumerations of the output format are closed lists of
values, each with a fixed name.  `Named` gives the list and the names; `Named.ofName?` reads a name
back. -/

namespace Shading

/-- A type whose values are listed in a fixed order, each with a name of its own. -/
class Named (α : Type) where
  /-- Every value, in order. -/
  all : List α
  /-- The name of a value. -/
  name : α → String

/-- The value with the given name. -/
def Named.ofName? {α : Type} [Named α] (text : String) : Option α :=
  (Named.all (α := α)).find? fun value => Named.name value == text

end Shading

/-! ### Ordered lists without repetition -/

namespace Shading.Ordered

/-- Puts a value into its place in an ordered list, unless it is there. -/
def insert {α : Type} (before : α → α → Bool) (a : α) : List α → List α
  | [] => [a]
  | b :: rest =>
    if before a b then a :: b :: rest
    else if before b a then b :: insert before a rest
    else b :: rest

/-- Puts several values into their places. -/
def insertAll {α : Type} (before : α → α → Bool) (items list : List α) : List α :=
  items.foldl (fun list a => insert before a list) list

end Shading.Ordered

/-! ### Words as bytes

Words of 32 and 64 bits are stored with the least significant byte first. -/

namespace Shading.Word

/-- The four bytes of a word, least significant first. -/
def bytes32 (w : UInt32) : List UInt8 :=
  [w.toUInt8, (w >>> 8).toUInt8, (w >>> 16).toUInt8, (w >>> 24).toUInt8]

/-- The word with the given bytes, least significant first. -/
def ofBytes32 (a b c d : UInt8) : UInt32 :=
  a.toUInt32 ||| b.toUInt32 <<< 8 ||| c.toUInt32 <<< 16 ||| d.toUInt32 <<< 24

/-- The eight bytes of a long word, least significant first. -/
def bytes64 (w : UInt64) : List UInt8 := bytes32 w.toUInt32 ++ bytes32 (w >>> 32).toUInt32

/-- The long word with the given halves. -/
def ofHalves (low high : UInt32) : UInt64 := low.toUInt64 ||| high.toUInt64 <<< 32

/-- The bytes of a list of words, one word after the other. -/
def listBytes (words : List UInt32) : List UInt8 := words.flatMap bytes32

end Shading.Word

/-! ### Text as bytes

Names are stored in binaries, and files on disk, as UTF-8. -/

namespace Shading.Text

/-- The UTF-8 bytes of a text. -/
def utf8Bytes (text : String) : List UInt8 := text.toUTF8.data.toList

/-- The text with these UTF-8 bytes; `none` if they are not UTF-8. -/
def ofUtf8? (bytes : List UInt8) : Option String := String.fromUTF8? ⟨bytes.toArray⟩

/-- The part of a text between two offsets; `none` if there is no such part or one of the offsets lies
within a character. -/
def slice? (text : String) (start stop : Nat) : Option String :=
  if h : start ≤ stop ∧ String.Pos.Raw.IsValid text ⟨start⟩ ∧ String.Pos.Raw.IsValid text ⟨stop⟩ then
    some (String.extract (s := text) ⟨⟨start⟩, h.2.1⟩ ⟨⟨stop⟩, h.2.2⟩)
  else none

end Shading.Text

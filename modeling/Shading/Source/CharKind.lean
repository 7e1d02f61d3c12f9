import Shading.Basic

/-! # Kinds of characters

The scanner sees a character through its kind.  Only ASCII characters have a kind of their own;
control characters and everything outside ASCII are `unknown`.  Since each byte of a character
outside ASCII is itself outside ASCII, a byte and a character are classified by the same rule on
their number. -/

namespace Shading

/-- What a character is to the scanner. -/
inductive CharKind where
  /-- A control character or anything outside ASCII. -/
  | unknown
  /-- A space, tab, carriage return, vertical tab or form feed. -/
  | blank
  | newline
  /-- A letter or an underscore. -/
  | letter
  | digit
  /-- Any other ASCII punctuation. -/
  | symbol
deriving DecidableEq, Repr, Inhabited

namespace CharKind

/-- The kind of the character or byte with this number. -/
def ofCode (code : Nat) : CharKind :=
  if code = 0x0a then .newline
  else if code = 0x20 ∨ code = 0x09 ∨ code = 0x0b ∨ code = 0x0c ∨ code = 0x0d then .blank
  else if 0x30 ≤ code ∧ code ≤ 0x39 then .digit
  else if 0x41 ≤ code ∧ code ≤ 0x5a ∨ 0x61 ≤ code ∧ code ≤ 0x7a ∨ code = 0x5f then .letter
  else if 0x21 ≤ code ∧ code ≤ 0x7e then .symbol
  else .unknown

/-- The kind of a character. -/
def ofChar (c : Char) : CharKind := ofCode c.toNat

/-- The kind of a byte of text. -/
def ofByte (byte : UInt8) : CharKind := ofCode byte.toNat

instance : Named CharKind where
  all := [.unknown, .blank, .newline, .letter, .digit, .symbol]
  name
    | .unknown => "Unknown"
    | .blank => "Whitespace"
    | .newline => "Newline"
    | .letter => "NonDigit"
    | .digit => "Digit"
    | .symbol => "Symbol"

end CharKind

end Shading

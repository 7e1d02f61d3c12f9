import Shading.Toml.Quoted

/-! # Numbers

A number is a word of letters, digits and signs.  Only its being a number matters, not its value,
but it has to be small enough to be kept. -/

namespace Shading.Toml

def isDigit (c : Char) : Bool := 48 ≤ c.toNat && c.toNat ≤ 57

/-- The number with the given decimal digits. -/
def decimal (digits : List Char) : Nat := digits.foldl (fun n c => 10 * n + (c.toNat - 48)) 0

/-- Digits, with single underscores between them. -/
def isDigits (digit : Char → Bool) : List Char → Bool
  | [] => false
  | [c] => digit c
  | c :: '_' :: rest => digit c && isDigits digit rest
  | c :: rest => digit c && isDigits digit rest

/-- A number without a needless zero in front. -/
def isWhole (cs : List Char) : Bool :=
  isDigits isDigit cs && (cs.length = 1 || cs.head? != some '0')

def withoutSign : List Char → List Char
  | '+' :: rest => rest
  | '-' :: rest => rest
  | cs => cs

/-- The value of digits in a base. -/
def valueIn (base : Nat) (cs : List Char) : Nat :=
  (cs.filterMap hexDigit?).foldl (fun n d => base * n + d) 0

/-- Integers are below this number, and not below its negative. -/
def integerLimit : Nat := 0x8000000000000000

/-- An integer of 64 bits. -/
def isInteger : List Char → Bool
  | '0' :: 'x' :: rest =>
    isDigits (fun c => (hexDigit? c).isSome) rest && valueIn 16 rest < integerLimit
  | '0' :: 'o' :: rest =>
    isDigits (fun c => isDigit c && c.toNat < 56) rest && valueIn 8 rest < integerLimit
  | '0' :: 'b' :: rest =>
    isDigits (fun c => c = '0' || c = '1') rest && valueIn 2 rest < integerLimit
  | cs =>
    let limit := if cs.head? = some '-' then integerLimit else integerLimit - 1
    isWhole (withoutSign cs) && valueIn 10 (withoutSign cs) ≤ limit

/-! ### Fractions and exponents -/

/-- A number written as digits and a power of ten to multiply them by. -/
structure Scaled where
  digits : Nat
  power : Int
deriving DecidableEq, Repr, Inhabited

namespace Scaled

/-- The least number that does not round to a finite number of 64 bits: it lies halfway between the
largest of those and the power of two after it. -/
def finiteLimit : Nat := 0x3fffffffffffff <<< 970

/-- How many decimal digits `finiteLimit` has. -/
def finiteDigits : Nat := 309

/-- The number rounds to a finite number of 64 bits.  Numbers with more digits before the point than
`finiteLimit` do not, and those with fewer do. -/
def isFinite (s : Scaled) : Bool :=
  let places : Int := (Nat.toDigits 10 s.digits).length + s.power
  if s.digits = 0 || places < finiteDigits then true
  else if finiteDigits < places then false
  else s.digits * Nat.pow 10 s.power.toNat < finiteLimit * Nat.pow 10 (-s.power).toNat

end Scaled

/-- The value of an exponent, which may be absent. -/
def exponent? : List Char → Option Int
  | [] => some 0
  | c :: rest =>
    let value : Int := valueIn 10 (withoutSign rest)
    if (c = 'e' || c = 'E') && isDigits isDigit (withoutSign rest) then
      some (if rest.head? = some '-' then -value else value)
    else none

/-- A number with a fraction, an exponent or both, without its sign. -/
def scaled? (cs : List Char) : Option Scaled :=
  let isInner := fun c => isDigit c || c = '_'
  let whole := cs.takeWhile isInner
  match cs.dropWhile isInner with
  | [] => none
  | '.' :: rest => do
    let part := rest.takeWhile isInner
    let power ← exponent? (rest.dropWhile isInner)
    if isWhole whole && isDigits isDigit part then
      some ⟨valueIn 10 (whole ++ part), power - (part.filter isDigit).length⟩
    else none
  | rest => do
    let power ← exponent? rest
    if isWhole whole then some ⟨valueIn 10 whole, power⟩ else none

/-- A number that is not an integer.  One above zero must be small enough to be kept, unless it is
written as infinity; one below zero may be of any size. -/
def isFloat (cs : List Char) : Bool :=
  let body := withoutSign cs
  match scaled? body with
  | some s => cs.head? = some '-' || s.isFinite
  | none => body = "inf".toList || body = "nan".toList

def isWordChar (c : Char) : Bool :=
  c.isAlphanum || c = '+' || c = '-' || c = '_' || c = '.' || c = ':'

/-- A number. -/
def number : Take Unit := fun cs =>
  let word := cs.takeWhile isWordChar
  if isInteger word || isFloat word then some ((), cs.dropWhile isWordChar) else none

end Shading.Toml

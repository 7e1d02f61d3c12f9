import Shading.Toml.Number

/-! # Dates and times

A date or time is kept as it is written, but in one form: with `T` between date and time, at most
nine digits of a second, and no superfluous zeros among them. -/

namespace Shading.Toml

def isLeapYear (year : Nat) : Bool := year % 4 = 0 && (year % 100 ≠ 0 || year % 400 = 0)

def daysIn (year month : Nat) : Nat :=
  if month = 2 then (if isLeapYear year then 29 else 28)
  else if month = 4 || month = 6 || month = 9 || month = 11 then 30
  else 31

/-- A date that stands first, as it is written. -/
def date : Take (List Char)
  | a :: b :: c :: d :: '-' :: e :: f :: '-' :: g :: h :: rest =>
    let year := decimal [a, b, c, d]
    let month := decimal [e, f]
    let day := decimal [g, h]
    if [a, b, c, d, e, f, g, h].all isDigit && 1 ≤ month && month ≤ 12 && 1 ≤ day &&
        day ≤ daysIn year month then
      some ([a, b, c, d, '-', e, f, '-', g, h], rest)
    else none
  | _ => none

/-- The part of a second that stands first, without superfluous digits. -/
def fraction : Take (List Char)
  | '.' :: rest =>
    let digits := rest.takeWhile isDigit
    let kept := ((digits.take 9).reverse.dropWhile (· = '0')).reverse
    if digits.isEmpty then none
    else some (if kept.isEmpty then [] else '.' :: kept, rest.dropWhile isDigit)
  | rest => some ([], rest)

/-- A time of day that stands first. -/
def time : Take (List Char)
  | a :: b :: ':' :: c :: d :: ':' :: e :: f :: rest => do
    if [a, b, c, d, e, f].all isDigit && decimal [a, b] ≤ 23 && decimal [c, d] ≤ 59 &&
        decimal [e, f] ≤ 60 then
      let (part, rest) ← fraction rest
      return ([a, b, ':', c, d, ':', e, f] ++ part, rest)
    else none
  | _ => none

/-- The hours and minutes after the sign of an offset. -/
def signedOffset (sign : Char) : Take (List Char)
  | a :: b :: ':' :: c :: d :: rest =>
    if [a, b, c, d].all isDigit && decimal [a, b] ≤ 23 && decimal [c, d] ≤ 59 then
      let shown := if decimal [a, b, c, d] = 0 then '+' else sign
      some ([shown, a, b, ':', c, d], rest)
    else none
  | _ => none

/-- The offset from universal time that stands first, if there is one. -/
def offset : Take (List Char)
  | 'Z' :: rest => some (['Z'], rest)
  | 'z' :: rest => some (['Z'], rest)
  | '+' :: rest => signedOffset '+' rest
  | '-' :: rest => signedOffset '-' rest
  | rest => some ([], rest)

/-- A time of day with its offset after a date. -/
def timeAfterDate : Take (List Char) := do
  let written ← time
  return 'T' :: written ++ (← offset)

/-- A date, a time, or both with an offset. -/
def moment : Take String := fun cs =>
  match date cs with
  | none => (time cs).map fun (written, rest) => (String.ofList written, rest)
  | some (day, rest) =>
    let timed := match rest with
      | c :: rest => if c = 'T' || c = 't' || c = ' ' then timeAfterDate rest else none
      | [] => none
    match timed with
    | some (written, rest) => some (String.ofList (day ++ written), rest)
    | none => some (String.ofList day, rest)

end Shading.Toml

/-! # Quoted text

Text stands between double quotes, with escapes, or between single quotes, as it is.  Between triple
quotes it may go over several lines; a line end right after the opening quotes does not count, and
one or two quotes may stand anywhere in it, also before the closing quotes. -/

namespace Shading.Toml

/-- A reader of characters: what was read, and the characters after it. -/
abbrev Take := StateT (List Char) Option

def isBlank (c : Char) : Bool := c = ' ' || c = '\t'

/-- A character that may stand in text: a tab, or any but the control characters. -/
def isTextChar (c : Char) : Bool := c = '\t' || (0x20 ≤ c.toNat && c.toNat ≠ 0x7f)

/-- The characters after a line end that stands first. -/
def afterLineEnd? : List Char → Option (List Char)
  | '\n' :: rest => some rest
  | '\r' :: '\n' :: rest => some rest
  | _ => none

def hexDigit? (c : Char) : Option Nat :=
  let n := c.toNat
  if 48 ≤ n ∧ n ≤ 57 then some (n - 48)
  else if 97 ≤ n ∧ n ≤ 102 then some (n - 87)
  else if 65 ≤ n ∧ n ≤ 70 then some (n - 55)
  else none

/-- The character with the given number, in hexadecimal digits. -/
def scalar? (digits : List Char) : Option Char := do
  let values ← digits.mapM hexDigit?
  let n := values.foldl (fun n d => 16 * n + d) 0
  if n.isValidChar then some (Char.ofNat n) else none

/-- The character for which a backslash and one more character stand. -/
def escaped? : Char → Option Char
  | 'b' => some '\x08'
  | 't' => some '\t'
  | 'n' => some '\n'
  | 'f' => some '\x0c'
  | 'r' => some '\r'
  | '"' => some '"'
  | '\\' => some '\\'
  | _ => none

/-- Text in double quotes, after the opening quote. -/
def basicText : List Char → Option (List Char × List Char)
  | [] => none
  | '"' :: rest => some ([], rest)
  | '\\' :: 'u' :: a :: b :: c :: d :: rest => do
    let first ← scalar? [a, b, c, d]
    let (text, rest) ← basicText rest
    return (first :: text, rest)
  | '\\' :: 'U' :: a :: b :: c :: d :: e :: f :: g :: h :: rest => do
    let first ← scalar? [a, b, c, d, e, f, g, h]
    let (text, rest) ← basicText rest
    return (first :: text, rest)
  | '\\' :: c :: rest => do
    let first ← escaped? c
    let (text, rest) ← basicText rest
    return (first :: text, rest)
  | c :: rest =>
    if isTextChar c && c ≠ '\\' then do
      let (text, rest) ← basicText rest
      return (c :: text, rest)
    else none

/-- Text in single quotes, after the opening quote. -/
def literalText : List Char → Option (List Char × List Char)
  | [] => none
  | '\'' :: rest => some ([], rest)
  | c :: rest =>
    if isTextChar c then do
      let (text, rest) ← literalText rest
      return (c :: text, rest)
    else none

/-- Text in triple double quotes, after the opening quotes.  A backslash at the end of a line takes
away the line end and all blanks and line ends after it; meanwhile `skipping` is set. -/
def basicLines (skipping : Bool) : List Char → Option (List Char × List Char)
  | [] => none
  | '"' :: '"' :: '"' :: '"' :: '"' :: rest => some (['"', '"'], rest)
  | '"' :: '"' :: '"' :: '"' :: rest => some (['"'], rest)
  | '"' :: '"' :: '"' :: rest => some ([], rest)
  | '\r' :: '\n' :: rest => do
    let (text, rest) ← basicLines skipping rest
    return (if skipping then text else '\n' :: text, rest)
  | '\\' :: 'u' :: a :: b :: c :: d :: rest => do
    let first ← scalar? [a, b, c, d]
    let (text, rest) ← basicLines false rest
    return (first :: text, rest)
  | '\\' :: 'U' :: a :: b :: c :: d :: e :: f :: g :: h :: rest => do
    let first ← scalar? [a, b, c, d, e, f, g, h]
    let (text, rest) ← basicLines false rest
    return (first :: text, rest)
  | '\\' :: c :: rest =>
    if (afterLineEnd? ((c :: rest).dropWhile isBlank)).isSome then basicLines true (c :: rest)
    else do
      let first ← escaped? c
      let (text, rest) ← basicLines false rest
      return (first :: text, rest)
  | c :: rest =>
    if skipping && (isBlank c || c = '\n') then basicLines true rest
    else if (isTextChar c && c ≠ '\\') || c = '\n' then do
      let (text, rest) ← basicLines false rest
      return (c :: text, rest)
    else none

/-- Text in triple single quotes, after the opening quotes. -/
def literalLines : List Char → Option (List Char × List Char)
  | [] => none
  | '\'' :: '\'' :: '\'' :: '\'' :: '\'' :: rest => some (['\'', '\''], rest)
  | '\'' :: '\'' :: '\'' :: '\'' :: rest => some (['\''], rest)
  | '\'' :: '\'' :: '\'' :: rest => some ([], rest)
  | '\r' :: '\n' :: rest => do
    let (text, rest) ← literalLines rest
    return ('\n' :: text, rest)
  | c :: rest =>
    if isTextChar c || c = '\n' then do
      let (text, rest) ← literalLines rest
      return (c :: text, rest)
    else none

/-- The characters without a line end that stands first. -/
def skipLineEnd (cs : List Char) : List Char := (afterLineEnd? cs).getD cs

/-- Quoted text of any kind. -/
def quoted : Take String := fun cs =>
  let read := match cs with
    | '"' :: '"' :: '"' :: rest => basicLines false (skipLineEnd rest)
    | '\'' :: '\'' :: '\'' :: rest => literalLines (skipLineEnd rest)
    | '"' :: rest => basicText rest
    | '\'' :: rest => literalText rest
    | _ => none
  read.map fun (text, rest) => (String.ofList text, rest)

end Shading.Toml

import Mathlib.Computability.Language
import Shading.Source.Point
import Shading.Token.Basic

/-! # The lexical grammar

Tokens of each class are the words of a language over characters (`words`), given by the usual regular
definitions.  Two things depend on the surroundings: a directive begins in the first column only, and a
block comment that is not closed ends with the text.  `Lexes` is reading from left to right with the
longest match: at each place the token is the longest word that any class has there.

Nothing here knows of the automaton. -/

namespace Shading.Lexicon

open Computability

/-! ### Characters -/

def isLetter (c : Char) : Bool := c.isAlpha || c == '_'

def isWordChar (c : Char) : Bool := isLetter c || c.isDigit

def isHexDigit (c : Char) : Bool := c.isDigit || "abcdefABCDEF".toList.contains c

def isBlank (c : Char) : Bool := " \t\n\r\x0b\x0c".toList.contains c

/-- A control character that is no blank, or anything outside ASCII. -/
def isForeign (c : Char) : Bool := (c.toNat < 0x20 || 0x7f ≤ c.toNat) && !isBlank c

/-- A visible ASCII character that belongs to no word and is not the quote. -/
def isPunctuation (c : Char) : Bool :=
  0x21 ≤ c.toNat && c.toNat ≤ 0x7e && !isWordChar c && c != '"'

/-! ### Languages -/

/-- The words of one character with a property. -/
def one (p : Char → Bool) : Language Char := {w | ∃ c, p c = true ∧ w = [c]}

/-- The words all of whose characters have a property. -/
def many (p : Char → Bool) : Language Char := (one p)∗

/-- The language of a single word. -/
def literally (text : String) : Language Char := {text.toList}

def digits : Language Char := many Char.isDigit

/-- A single digit and a letter that gives the radix, then digits. -/
def radixInteger (letter : Char) : Language Char := one Char.isDigit * one (· == letter) * digits

def hexInteger : Language Char := one Char.isDigit * one (· == 'x') * many isHexDigit

/-- What ends a block comment. -/
def blockClose : List Char := "*/".toList

/-- From the opening of a comment to where it is first closed.  The star of the opening cannot
also be the one of the closing. -/
def closedComment : Language Char :=
  {w | ∃ inner, w = "/*".toList ++ (inner ++ blockClose) ∧ ¬ blockClose <:+: inner ++ ['*']}

/-- A comment that is not closed. -/
def openComment : Language Char := {w | ∃ inner, w = "/*".toList ++ inner ∧ ¬ blockClose <:+: inner}

/-- The words of each class, wherever they stand.  Strings are found by their quotes. -/
def words : TokenClass → Language Char
  | .unknown => one isForeign * many isForeign
  | .identifier => one isLetter * many isWordChar
  | .string => 0
  | .integer => one Char.isDigit * digits
  | .binaryInteger => radixInteger 'b'
  | .octalInteger => radixInteger 'o'
  | .decimalInteger => radixInteger 'd'
  | .hexInteger => hexInteger
  | .float =>
    one Char.isDigit * digits * one (".eE".toList.contains ·) *
      many fun c => c.isDigit || "eEhHdDfF".toList.contains c
  | .hexFloat =>
    hexInteger * one (".pP".toList.contains ·) *
      many fun c => isHexDigit c || "hHpP".toList.contains c
  | .symbol => one isPunctuation
  | .directive => literally "#" * many (· != '\n')
  | .comment => literally "//" * many (· != '\n')
  | .blockComment => closedComment

/-- What may stand between quotes: a backslash goes with the character after it. -/
def stringBody : Language Char :=
  (one (fun c => c != '"' && c != '\\') + literally "\\" * one fun _ => true)∗

/-! ### Longest match -/

/-- A word of the class may stand at a column before the rest of the text. -/
def Matches (column : Nat) (kind : TokenClass) (word rest : List Char) : Prop :=
  match kind with
  | .directive => column = 0 ∧ word ∈ words .directive
  | .symbol => word ∈ words .symbol ∧ ¬ (column = 0 ∧ word = ['#'])
  | .blockComment => word ∈ closedComment ∨ word ∈ openComment ∧ rest = []
  | kind => word ∈ words kind

/-- A match, and no match of any class at the same place is longer. -/
def Longest (column : Nat) (kind : TokenClass) (word rest : List Char) : Prop :=
  Matches column kind word rest ∧
    ∀ kind' word' rest', word' ++ rest' = word ++ rest → Matches column kind' word' rest' →
      word'.length ≤ word.length

/-- The point after the characters at `p`. -/
def advance (p : Point) (cs : List Char) : Point := cs.foldl Point.after p

/-- The token for what stands between quotes, if anything does. -/
def stringToken (body : List Char) : List (TokenClass × List Char) :=
  if body = [] then [] else [(.string, body)]

/-- Reading characters from a point on gives these classes and texts. -/
inductive Lexes : Point → List Char → List (TokenClass × List Char) → Prop
  | done (p : Point) : Lexes p [] []
  | blank {p : Point} {c : Char} {cs : List Char} {tokens : List (TokenClass × List Char)}
      (hc : isBlank c = true) (after : Lexes (p.after c) cs tokens) : Lexes p (c :: cs) tokens
  | token {p : Point} {kind : TokenClass} {word rest : List Char}
      {tokens : List (TokenClass × List Char)} (hword : Longest p.column kind word rest)
      (after : Lexes (advance p word) rest tokens) : Lexes p (word ++ rest) ((kind, word) :: tokens)
  /-- A string up to the first quote that no backslash precedes. -/
  | string {p : Point} {body rest : List Char} {tokens : List (TokenClass × List Char)}
      (hbody : body ∈ stringBody) (after : Lexes (advance p ('"' :: body ++ ['"'])) rest tokens) :
      Lexes p ('"' :: body ++ '"' :: rest) (stringToken body ++ tokens)
  /-- A string that is not closed ends with the text, perhaps after a backslash. -/
  | openString {p : Point} {body : List Char}
      (hbody : body ∈ stringBody ∨ body ∈ stringBody * literally "\\") :
      Lexes p ('"' :: body) (stringToken body)

/-! ### Membership -/

@[simp] theorem mem_one_mul {p : Char → Bool} {l : Language Char} {w : List Char} :
    w ∈ one p * l ↔ ∃ c v, w = c :: v ∧ p c = true ∧ v ∈ l := by
  rw [Language.mem_mul]
  constructor
  · rintro ⟨_, ⟨c, hc, rfl⟩, v, hv, rfl⟩
    exact ⟨c, v, rfl, hc, hv⟩
  · rintro ⟨c, v, rfl, hc, hv⟩
    exact ⟨[c], ⟨c, hc, rfl⟩, v, hv, rfl⟩

@[simp] theorem cons_mem_one_mul {p : Char → Bool} {l : Language Char} {c : Char} {v : List Char} :
    c :: v ∈ one p * l ↔ p c = true ∧ v ∈ l := by
  rw [mem_one_mul]
  constructor
  · rintro ⟨d, u, h, hd, hu⟩
    obtain ⟨rfl, rfl⟩ := List.cons.inj h
    exact ⟨hd, hu⟩
  · rintro ⟨hc, hv⟩
    exact ⟨c, v, rfl, hc, hv⟩

@[simp] theorem mem_literally {text : String} {w : List Char} :
    w ∈ literally text ↔ w = text.toList := Iff.rfl

@[simp] theorem mem_literally_mul {text : String} {l : Language Char} {w : List Char} :
    w ∈ literally text * l ↔ ∃ v, w = text.toList ++ v ∧ v ∈ l := by
  rw [Language.mem_mul]
  constructor
  · rintro ⟨_, rfl, v, hv, rfl⟩
    exact ⟨v, rfl, hv⟩
  · rintro ⟨v, rfl, hv⟩
    exact ⟨_, rfl, v, hv, rfl⟩

@[simp] theorem mem_many {p : Char → Bool} {w : List Char} : w ∈ many p ↔ ∀ c ∈ w, p c = true := by
  rw [many, Language.mem_kstar]
  constructor
  · rintro ⟨parts, rfl, hparts⟩ c hc
    obtain ⟨part, hpart, hc⟩ := List.mem_flatten.mp hc
    obtain ⟨d, hd, rfl⟩ := hparts part hpart
    rwa [List.mem_singleton.mp hc]
  · intro hw
    refine ⟨w.map fun c => [c], ?_, ?_⟩
    · rw [← List.flatMap_def, List.flatMap_singleton']
    · intro part hpart
      obtain ⟨c, hc, rfl⟩ := List.mem_map.mp hpart
      exact ⟨c, hw c hc, rfl⟩

/-- The characters of a loop come one by one before what follows it. -/
theorem mem_many_mul {p : Char → Bool} {l : Language Char} {w : List Char} :
    w ∈ many p * l ↔ w ∈ l ∨ w ∈ one p * (many p * l) := by
  have hloop : many p * l = l + one p * (many p * l) := by
    rw [← mul_assoc, ← one_add_mul, many, Language.one_add_self_mul_kstar_eq_kstar]
  rw [← Language.mem_add, ← hloop]

/-- A string body is empty, or goes on after a plain character or after a backslash and the
character that goes with it. -/
theorem mem_stringBody_mul {l : Language Char} {w : List Char} :
    w ∈ stringBody * l ↔ w ∈ l ∨
      (∃ c v, w = c :: v ∧ (c ≠ '"' ∧ c ≠ '\\') ∧ v ∈ stringBody * l) ∨
      (∃ d v, w = '\\' :: d :: v ∧ v ∈ stringBody * l) := by
  have hloop : stringBody * l = l + (one (fun c => c != '"' && c != '\\') * (stringBody * l) +
      literally "\\" * ((one fun _ => true) * (stringBody * l))) := by
    rw [← mul_assoc (literally _), ← add_mul, ← mul_assoc, ← one_add_mul, stringBody,
      Language.one_add_self_mul_kstar_eq_kstar]
  rw [hloop, Language.mem_add, Language.mem_add, ← hloop, mem_one_mul, mem_literally_mul]
  simp only [mem_one_mul, bne_iff_ne, ne_eq, Bool.and_eq_true, true_and]
  refine or_congr Iff.rfl (or_congr Iff.rfl ?_)
  constructor
  · rintro ⟨_, rfl, d, v, rfl, hv⟩
    exact ⟨d, v, rfl, hv⟩
  · rintro ⟨d, v, rfl, hv⟩
    exact ⟨d :: v, rfl, d, v, rfl, hv⟩

end Shading.Lexicon

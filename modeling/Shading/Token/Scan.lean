import Shading.Basic
import Shading.Source.CharKind
import Shading.Token.Basic

/-! # Scanning text into tokens

The scanner is a finite automaton.  In each state a character either belongs to the token being read
(`Move.grow`) or begins a new one (`Move.fresh`).  A token that ends is handed out if its state has a
class and the class is wanted; blanks, line breaks and the quotes around strings belong to states
without a class, so they are passed over.

The automaton runs over the bytes of the text (`transition`).  A `Scanner` keeps the offset where the
token being read began, and cuts the token out of the text when it ends.  The quote that closes a
string is looked at twice: it ends the string, and only then is it passed.

`Token.scan` is the whole scan. -/

namespace Shading

/-- What the scanner is reading. -/
inductive ScanState where
  /-- Between tokens. -/
  | blank
  /-- Between tokens at the start of a line, where a number sign opens a directive. -/
  | lineStart
  | unknown
  | identifier
  /-- One digit, which a radix letter may follow. -/
  | firstDigit
  | integer
  | binaryInteger
  | octalInteger
  | decimalInteger
  | hexInteger
  | float
  | hexFloat
  /-- The quote that opens a string. -/
  | openQuote
  | string
  /-- In a string, after a backslash. -/
  | escape
  | directive
  | symbol
  /-- A slash, which another slash or a star turns into a comment. -/
  | slash
  | comment
  | blockComment
  /-- In a block comment, after a star. -/
  | blockStar
  /-- The whole of a block comment has been read. -/
  | blockEnd
deriving DecidableEq, Repr, Inhabited

/-- What the next character does to the token being read. -/
inductive Move where
  /-- The character belongs to the token. -/
  | grow (state : ScanState)
  /-- The token ended before the character, which begins another. -/
  | fresh (state : ScanState)
deriving DecidableEq, Repr, Inhabited

namespace ScanState

/-- The class of the token that a state reads; `none` between tokens and on a quote. -/
def tokenClass? : ScanState → Option TokenClass
  | .blank | .lineStart | .openQuote => none
  | .unknown => some .unknown
  | .identifier => some .identifier
  | .firstDigit | .integer => some .integer
  | .binaryInteger => some .binaryInteger
  | .octalInteger => some .octalInteger
  | .decimalInteger => some .decimalInteger
  | .hexInteger => some .hexInteger
  | .float => some .float
  | .hexFloat => some .hexFloat
  | .string | .escape => some .string
  | .directive => some .directive
  | .symbol | .slash => some .symbol
  | .comment => some .comment
  | .blockComment | .blockStar | .blockEnd => some .blockComment

end ScanState

namespace Scan

/-- An ASCII digit. -/
def isDigit (c : Char) : Bool := CharKind.ofChar c == .digit

/-- A character that continues an identifier. -/
def isWordChar (c : Char) : Bool := CharKind.ofChar c == .letter || isDigit c

/-- A hexadecimal digit of either case. -/
def isHexDigit (c : Char) : Bool := isDigit c || "abcdefABCDEF".toList.contains c

/-- A character that continues a floating-point number: digits, exponents and suffixes. -/
def isFloatChar (c : Char) : Bool := isDigit c || "eEhHdDfF".toList.contains c

/-- A character that continues a hexadecimal floating-point number. -/
def isHexFloatChar (c : Char) : Bool := isHexDigit c || "hHpP".toList.contains c

/-- The character turns an integer into a floating-point number. -/
def startsFraction (c : Char) : Bool := c == '.' || c == 'e' || c == 'E'

/-- The character turns a hexadecimal integer into a floating-point number. -/
def startsHexFraction (c : Char) : Bool := c == '.' || c == 'p' || c == 'P'

/-- The state that a character opens when it begins a token. -/
def opening (lineStart : Bool) (c : Char) : ScanState :=
  match CharKind.ofChar c with
  | .unknown => .unknown
  | .blank => .blank
  | .newline => .lineStart
  | .digit => .firstDigit
  | .letter => .identifier
  | .symbol =>
    if c = '"' then .openQuote
    else if c = '/' then .slash
    else if c = '#' ∧ lineStart then .directive
    else .symbol

/-- Stays with the token if the condition holds and begins another one otherwise. -/
def growIf (condition : Bool) (state : ScanState) (c : Char) : Move :=
  if condition then .grow state else .fresh (opening false c)

/-- The automaton. -/
def step (state : ScanState) (c : Char) : Move :=
  match state with
  | .blank | .symbol | .blockEnd => .fresh (opening false c)
  | .lineStart => .fresh (opening true c)
  | .unknown => growIf (CharKind.ofChar c == .unknown) .unknown c
  | .identifier => growIf (isWordChar c) .identifier c
  | .firstDigit =>
    if isDigit c then .grow .integer
    else if c = 'b' then .grow .binaryInteger
    else if c = 'o' then .grow .octalInteger
    else if c = 'd' then .grow .decimalInteger
    else if c = 'x' then .grow .hexInteger
    else growIf (startsFraction c) .float c
  | .integer => if isDigit c then .grow .integer else growIf (startsFraction c) .float c
  | .binaryInteger => growIf (isDigit c) .binaryInteger c
  | .octalInteger => growIf (isDigit c) .octalInteger c
  | .decimalInteger => growIf (isDigit c) .decimalInteger c
  | .hexInteger =>
    if isHexDigit c then .grow .hexInteger else growIf (startsHexFraction c) .hexFloat c
  | .float => growIf (isFloatChar c) .float c
  | .hexFloat => growIf (isHexFloatChar c) .hexFloat c
  | .openQuote =>
    if c = '"' then .fresh .blank
    else if c = '\\' then .fresh .escape
    else .fresh .string
  | .string =>
    if c = '"' then .fresh .blank
    else if c = '\\' then .grow .escape
    else .grow .string
  | .escape => .grow .string
  | .directive => if c = '\n' then .fresh .lineStart else .grow .directive
  | .slash =>
    if c = '/' then .grow .comment
    else if c = '*' then .grow .blockComment
    else .fresh (opening false c)
  | .comment => if c = '\n' then .fresh .lineStart else .grow .comment
  | .blockComment => if c = '*' then .grow .blockStar else .grow .blockComment
  | .blockStar =>
    if c = '/' then .grow .blockEnd
    else if c = '*' then .grow .blockStar
    else .grow .blockComment

/-! ### Bytes -/

/-- What the scanner is doing at the next byte. -/
inductive Mode where
  | reading (state : ScanState)
  /-- The byte is the quote that ended a string, and is looked at again. -/
  | closing
deriving DecidableEq, Repr, Inhabited

/-- The class of the token being read; `none` between tokens and on a quote. -/
def Mode.tokenClass? : Mode → Option TokenClass
  | .reading state => state.tokenClass?
  | .closing => none

/-- What the next byte does to the scanner. -/
structure Transition where
  next : Mode
  /-- The byte is passed. -/
  steps : Bool
  /-- The token being read ends before the byte. -/
  ends : Bool
deriving DecidableEq, Repr, Inhabited

/-- The double quote. -/
def quoteByte : UInt8 := 0x22

/-- The automaton over bytes.  A byte counts as the character with its number, so each byte of a
longer character is unknown, as the character is. -/
def transition : Mode → UInt8 → Transition
  | .reading state, byte =>
    if state = .string ∧ byte = quoteByte then ⟨.closing, false, true⟩
    else
      match step state (.ofUInt8 byte) with
      | .grow next => ⟨.reading next, true, false⟩
      | .fresh next => ⟨.reading next, true, true⟩
  | .closing, byte =>
    if byte = quoteByte then ⟨.reading .blank, true, false⟩
    else ⟨.reading (opening false (.ofUInt8 byte)), true, true⟩

/-- A scan under way. -/
structure Scanner where
  /-- The offset of the next byte. -/
  pos : Nat
  /-- Where the next byte stands. -/
  point : Point
  /-- Where the byte passed last stands. -/
  last : Point
  /-- The offset of the first byte of the token being read. -/
  tokenStart : Nat
  /-- Where that byte stands. -/
  tokenPoint : Point
  mode : Mode
deriving DecidableEq, Repr, Inhabited

namespace Scanner

variable (text : String) (keep : ClassSet)

/-- The token that ends before the next byte, if it has bytes and a wanted class. -/
def ended (s : Scanner) : List Token :=
  match s.mode.tokenClass? with
  | some kind =>
    if s.tokenStart ≠ s.pos ∧ keep.contains kind then
      [⟨kind, ⟨s.tokenPoint, s.last⟩, (Text.slice? text s.tokenStart s.pos).getD ""⟩]
    else []
  | none => []

/-- The next token begins at the next byte. -/
def restart (s : Scanner) : Scanner := { s with tokenStart := s.pos, tokenPoint := s.point }

/-- Goes on to the byte after this one. -/
def pass (s : Scanner) (byte : UInt8) : Scanner :=
  { s with last := s.point, point := s.point.advance byte, pos := s.pos + 1 }

/-- One transition, with the token that it ends. -/
def turn (s : Scanner) (byte : UInt8) : List Token × Scanner :=
  let t := transition s.mode byte
  let restarted := if t.ends then s.restart else s
  let moved := { restarted with mode := t.next }
  (if t.ends then s.ended text keep else [], if t.steps then moved.pass byte else moved)

/-- The tokens from here to the end of the text.  A byte that its first transition does not pass is
passed by the second. -/
def run : List UInt8 → Scanner → List Token
  | [], s => s.ended text keep
  | byte :: rest, s =>
    let (tokens, next) := s.turn text keep byte
    if (transition s.mode byte).steps then tokens ++ run rest next
    else
      let (others, next) := next.turn text keep byte
      tokens ++ others ++ run rest next

end Scanner

end Scan

/-- The tokens of a text whose first byte stands at `start`.  A number sign opens a directive only in
the first column, so it matters whether `start` is at the start of a line. -/
def Token.scan (text : String) (start : Point) (keep : ClassSet) : List Token :=
  let state := if start.column = 0 then ScanState.lineStart else .blank
  Scan.Scanner.run text keep (Text.utf8Bytes text) ⟨0, start, start, 0, start, .reading state⟩

end Shading

import Shading.Basic
import Shading.Source.Point
import Shading.Text.Quoted

/-! # Tokens

Every token has one of fourteen classes.  A `ClassSet` selects the classes that a scan hands out. -/

namespace Shading

/-- The class of a token. -/
inductive TokenClass where
  /-- Characters that no rule covers: control characters and anything outside ASCII. -/
  | unknown
  | identifier
  /-- The contents of a quoted string, without the quotes. -/
  | string
  | integer
  | binaryInteger
  | octalInteger
  | decimalInteger
  | hexInteger
  | float
  | hexFloat
  /-- A single punctuation character. -/
  | symbol
  /-- A line that starts with a number sign in its first column. -/
  | directive
  /-- From two slashes to the end of the line. -/
  | comment
  /-- From a slash and a star to a star and a slash. -/
  | blockComment
deriving DecidableEq, Repr, Inhabited

namespace TokenClass

instance : Named TokenClass where
  all := [.unknown, .identifier, .string, .integer, .binaryInteger, .octalInteger, .decimalInteger,
    .hexInteger, .float, .hexFloat, .symbol, .directive, .comment, .blockComment]
  name
    | .unknown => "Unknown"
    | .identifier => "Identifier"
    | .string => "String"
    | .integer => "Integer"
    | .binaryInteger => "BinaryInteger"
    | .octalInteger => "OctalInteger"
    | .decimalInteger => "DecimalInteger"
    | .hexInteger => "HexInteger"
    | .float => "Float"
    | .hexFloat => "HexFloat"
    | .symbol => "Symbol"
    | .directive => "Preprocessor"
    | .comment => "Comment"
    | .blockComment => "MultilineComment"

/-- The place of the class in the list of all classes. -/
def number (c : TokenClass) : Nat := (Named.all (α := TokenClass)).idxOf c

/-- The five integer classes. -/
def isInteger : TokenClass → Bool
  | .integer | .binaryInteger | .octalInteger | .decimalInteger | .hexInteger => true
  | _ => false

/-- The two floating-point classes. -/
def isFloat : TokenClass → Bool
  | .float | .hexFloat => true
  | _ => false

/-- The two comment classes. -/
def isComment : TokenClass → Bool
  | .comment | .blockComment => true
  | _ => false

end TokenClass

/-- A set of token classes. -/
structure ClassSet where
  /-- Whether a class is a member. -/
  contains : TokenClass → Bool

namespace ClassSet

def empty : ClassSet := ⟨fun _ => false⟩

def all : ClassSet := ⟨fun _ => true⟩

def insert (set : ClassSet) (c : TokenClass) : ClassSet :=
  ⟨fun d => d == c || set.contains d⟩

def erase (set : ClassSet) (c : TokenClass) : ClassSet :=
  ⟨fun d => !(d == c) && set.contains d⟩

def ofList (classes : List TokenClass) : ClassSet := classes.foldl insert empty

/-- The members, in the order of all classes. -/
def members (set : ClassSet) : List TokenClass := Named.all.filter set.contains

/-- Every class but the two comment classes. -/
def withoutComments : ClassSet := (all.erase .comment).erase .blockComment

/-- The classes handed out by a scan that keeps comments or leaves them out. -/
def scanned (comments : Bool) : ClassSet := if comments then all else withoutComments

end ClassSet

/-- A piece of source text with its class and its place. -/
structure Token where
  kind : TokenClass
  span : Span
  text : String
deriving DecidableEq, Repr, Inhabited

namespace Token

/-- An identifier with this spelling. -/
def isWord (t : Token) (word : String) : Bool := t.kind == .identifier && t.text == word

/-- The one-character symbol `c`. -/
def isSymbol (t : Token) (c : Char) : Bool := t.kind == .symbol && t.text.toList == [c]

/-- Line and column counted from one, the class, and the text in quotes. -/
def display (t : Token) : String :=
  let line := following t.span.start.line
  let column := following t.span.start.column
  s!"{line}:{column} {Named.name t.kind} {Text.quote t.text}"

end Token

end Shading

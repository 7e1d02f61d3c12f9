import Shading.Parser.Productions
import Shading.Include.Expansion
import Shading.Lower.Program

/-! # Stages of a compilation

Each stage runs to its end and reports every problem it finds.  What it made is used only if it
reported no error.  `frontEnd` runs the stages from text to tree and stops after the first that
reported an error. -/

namespace Shading

/-- A step on the way from text to output. -/
inductive Stage where
  | tokenize
  | preprocess
  | parse
  | transpile
deriving DecidableEq, Repr, Inhabited

namespace Stage

instance : Named Stage where
  all := [.tokenize, .preprocess, .parse, .transpile]
  name
    | .tokenize => "Tokenize"
    | .preprocess => "Preprocess"
    | .parse => "Parse"
    | .transpile => "Transpile"

/-- What the stage is doing. -/
def activity : Stage → String
  | .tokenize => "tokenizing"
  | .preprocess => "preprocessing"
  | .parse => "parsing"
  | .transpile => "transpiling"

/-- The exit code of a run in which the stage failed. -/
def exitCode : Stage → Nat
  | .tokenize => 2
  | .preprocess => 3
  | .parse => 4
  | .transpile => 5

end Stage

/-- What a stage made, and what it reported. -/
structure Staged (α : Type) where
  value : α
  messages : List Message

namespace Staged

/-- The stage reported an error. -/
def errored {α : Type} (s : Staged α) : Bool := s.messages.any Message.isError

/-- The value if the stage reported no error. -/
def result {α : Type} (s : Staged α) (stage : Stage) : Except Stage α :=
  if s.errored then .error stage else .ok s.value

end Staged

/-- The error about characters that no rule covers. -/
def unexpectedCharacters (t : Token) : Message :=
  Message.error t.span ("Unexpected characters \"" ++ t.text ++ "\"")

/-- The tokens of a file. -/
def tokenizeFile (sources : SourceMap) (file : Nat) (comments : Bool) : Staged (List Token) :=
  let text := (sources.text? file).getD ""
  let tokens := Token.scan text (Point.fileStart file) (ClassSet.scanned comments)
  ⟨tokens, (tokens.filter fun t => t.kind == .unknown).map unexpectedCharacters⟩

/-- The tokens of a file with its includes expanded, and the source files with the included ones.
Comments of included files are left out. -/
def expandFile (reader : Reader) (macros : MacroTable) (sources : SourceMap) (file : Nat)
    (tokens : List Token) : Staged (List Token) × SourceMap :=
  let setting := ⟨reader, macros, ClassSet.withoutComments⟩
  let (expanded, progress) := (Include.expandRoot setting file tokens).run { sources }
  (⟨expanded, progress.messages⟩, progress.sources)

/-- The tree of a token list. -/
def parseTokens (tokens : List Token) : Staged Node :=
  let (tree, messages) := parse tokens
  ⟨tree, messages⟩

/-- The words of the module of a binary.  The messages are about the start of the file. -/
def transpileBinary (options : Lower.Options) (file : Nat) (b : Binary) : Staged (List UInt32) :=
  let (words, problems) := Lower.lower options b
  ⟨words, problems.map fun p => p.toMessage (Span.single (Point.fileStart file))⟩

/-- What became of a file: its tree or the stage that failed, all messages, and the source files. -/
structure FrontEnd where
  result : Except Stage Node
  messages : List Message
  sources : SourceMap

/-- Takes a file from text to tree, as far as the stages report no error. -/
def frontEnd (reader : Reader) (macros : MacroTable) (comments : Bool) (sources : SourceMap)
    (file : Nat) : FrontEnd :=
  let scanned := tokenizeFile sources file comments
  match scanned.result .tokenize with
  | .error stage => ⟨.error stage, scanned.messages, sources⟩
  | .ok tokens =>
    let (expanded, sources) := expandFile reader macros sources file tokens
    match expanded.result .preprocess with
    | .error stage => ⟨.error stage, scanned.messages ++ expanded.messages, sources⟩
    | .ok tokens =>
      let parsed := parseTokens tokens
      ⟨parsed.result .parse, scanned.messages ++ expanded.messages ++ parsed.messages, sources⟩

end Shading

import Shading.Message.Basic
import Shading.Tree.Node

/-! # Productions

A `Production` reads tokens from the front of a list and gives back a result, the tokens that are
left and the messages it reports.  Besides the tokens it knows the span just past the last token of
the whole input, where problems at the end of input are reported.

Repetition goes through `repeatWhile`, which allows one turn more than there are tokens: a turn that
goes on has read a token, so the allowance is never what ends it. -/

namespace Shading.Grammar

/-- What is missing or wrong in a program text. -/
inductive Problem where
  | expectedDeclaration
  | expectedIdentifier
  | expectedParameter
  | expectedTypeName
  | expectedStatement
  | expectedExpression
  | expectedSymbol (c : Char)
  | tooDeep
deriving DecidableEq, Repr, Inhabited

def Problem.text : Problem → String
  | .expectedDeclaration => "Expected function declaration"
  | .expectedIdentifier => "Expected identifier"
  | .expectedParameter => "Expected parameter"
  | .expectedTypeName => "Expected type name"
  | .expectedStatement => "Expected statement"
  | .expectedExpression => "Expected expression"
  | .expectedSymbol c => "Expected '" ++ c.toString ++ "'"
  | .tooDeep => "Nesting is too deep"

/-- What a production gives back. -/
structure Step (α : Type) where
  result : α
  /-- The tokens that are left. -/
  rest : List Token
  /-- The messages reported, in order. -/
  messages : List Message
deriving Repr

/-- A production: it is given the span just past the whole input and the tokens at hand. -/
def Production (α : Type) : Type := Span → List Token → Step α

namespace Production

protected def pure {α : Type} (a : α) : Production α := fun _ tokens => ⟨a, tokens, []⟩

protected def bind {α β : Type} (p : Production α) (f : α → Production β) : Production β :=
  fun past tokens =>
    let first := p past tokens
    let second := f first.result past first.rest
    ⟨second.result, second.rest, first.messages ++ second.messages⟩

instance : Monad Production where
  pure := Production.pure
  bind := Production.bind

/-! ### Looking at tokens -/

/-- The next token. -/
def peek : Production (Option Token) := fun _ tokens => ⟨tokens.head?, tokens, []⟩

/-- All tokens that are left. -/
def tokensLeft : Production (List Token) := fun _ tokens => ⟨tokens, tokens, []⟩

/-- The next token satisfies a condition. -/
def isNext (condition : Token → Bool) : Production Bool := do return (← peek).any condition

def atSymbol (c : Char) : Production Bool := isNext fun t => t.isSymbol c

def atWord (word : String) : Production Bool := isNext fun t => t.isWord word

/-- The next token; at the end of input an empty token just past it. -/
def here : Production Token := fun past tokens =>
  ⟨tokens.head?.getD ⟨.unknown, past, ""⟩, tokens, []⟩

/-! ### Reading tokens -/

/-- Goes on with what a function leaves of the tokens. -/
def leave (rest : List Token → List Token) : Production Unit :=
  fun _ tokens => ⟨(), rest tokens, []⟩

/-- Passes over tokens. -/
def skip (count : Nat) : Production Unit := leave fun tokens => tokens.drop count

/-- Reads the next token. -/
def take : Production Token := do
  let token ← here
  skip 1
  return token

/-- Reads the next token if it satisfies a condition. -/
def takeIf (condition : Token → Bool) : Production (Option Token) := do
  if ← isNext condition then return some (← take) else return none

/-- Reads a symbol if it is next, and says whether it was. -/
def accept (c : Char) : Production Bool := do return (← takeIf fun t => t.isSymbol c).isSome

/-! ### Problems -/

/-- Reports an error at the next token, or just past the input. -/
def report (problem : Problem) : Production Unit := do
  let token ← here
  fun _ tokens => ⟨(), tokens, [Message.error token.span problem.text]⟩

/-- Reads a symbol, or reports that it is missing. -/
def expect (c : Char) : Production Unit := do
  unless ← accept c do report (.expectedSymbol c)

/-- The stand-in for something that should start at the next token. -/
def standIn : Production Node := do return Node.leaf .unknown (← here)

/-! ### Choice and repetition -/

/-- Gives the tokens back if nothing was found; what was reported stays reported. -/
def rewinding {α : Type} (p : Production (Option α)) : Production (Option α) := fun past tokens =>
  let step := p past tokens
  match step.result with
  | some _ => step
  | none => { step with rest := tokens }

/-- Counts a result as nothing if it took no token. -/
def progressing {α : Type} (p : Production (Option α)) : Production (Option α) := fun past tokens =>
  let step := p past tokens
  if step.rest.length < tokens.length then step else { step with result := none }

/-- How a repetition goes on. -/
inductive Turn (α : Type) where
  | again (state : α)
  | done (state : α)

/-- Takes turns until one is done, but no more than `limit`. -/
def repeatUpTo {α : Type} (turn : α → Production (Turn α)) : (limit : Nat) → α → Production α
  | 0, state => pure state
  | limit + 1, state => do
    match ← turn state with
    | .again next => repeatUpTo turn limit next
    | .done last => return last

/-- Takes turns until one is done. -/
def repeatWhile {α : Type} (turn : α → Production (Turn α)) (state : α) : Production α :=
  fun past tokens => repeatUpTo turn (tokens.length + 1) state past tokens

end Production

end Shading.Grammar

import Shading.Grammar.Expression

/-! # Parsing at positions

A parser looks at the tokens from a position on and counts how many of them it uses.  Its state is the
messages reported so far and a counter of how deeply it is nested.

A run without a result (`none`) is one that does not end or is stopped.  It does not end if something is
repeated without passing a token.  It is stopped where its stack has no room for another call.  A parser
that checks offsets is stopped where one is counted past the last; otherwise offsets go round to zero.  A
parser that checks levels is stopped where a level of nesting is left that was not entered; otherwise the
counter stays at zero. -/

namespace Shading.Parser

open Grammar Production

/-- What is parsed, and the parser that does it. -/
structure Input where
  tokens : Array Token
  /-- How many calls for something nested have room within each other. -/
  stack : Nat := nestingLimit + 1
  checksOffsets : Bool := false
  checksLevels : Bool := false

/-- The state of a parser. -/
structure State where
  /-- The counter of nesting. -/
  nesting : Nat := 0
  /-- The highest that the counter has been. -/
  highest : Nat := 0
  messages : Array Message := #[]

/-- A run of a parser. -/
abbrev Run (α : Type) : Type := StateT State Option α

/-- What was found at a position. -/
structure Parsed where
  /-- The number of tokens used. -/
  consumed : Nat
  node : Node

/-- What can be nested in something like itself, from a position on. -/
structure Nested where
  expression : Nat → Run (Option Parsed)
  /-- What a sign applies to. -/
  operand : Nat → Run (Option Parsed)
  /-- A list of initialisers, with its opening brace at the position. -/
  list : Nat → Run Parsed
  /-- A block, with its opening brace at the position. -/
  block : Nat → Run Parsed

/-- What was found, which counts only if it took a token. -/
def counted (found : Option Parsed) : Option Parsed := found.filter (0 < ·.consumed)

/-- The number of tokens that a function passes over. -/
def skipped (after : List Token → List Token) (tokens : List Token) : Nat :=
  tokens.length - (after tokens).length

namespace Input

variable (input : Input)

/-! ### Looking at tokens -/

def token? (pos : Nat) : Option Token := input.tokens[pos]?

/-- The tokens from a position on. -/
def rest (pos : Nat) : List Token := input.tokens.toList.drop pos

def isSymbol (pos : Nat) (c : Char) : Bool := (input.token? pos).any fun t => t.isSymbol c

def isWord (pos : Nat) (word : String) : Bool := (input.token? pos).any fun t => t.isWord word

/-- The span just past the last token. -/
def endSpan : Span := ((input.tokens.back?).map fun t => Span.single t.span.last.nextColumn).getD .origin

def spanAt (pos : Nat) : Span := ((input.token? pos).map Token.span).getD input.endSpan

/-- The token at a position; at the end of input an empty token just past it. -/
def tokenAt (pos : Nat) : Token := (input.token? pos).getD ⟨.unknown, input.endSpan, ""⟩

/-- The stand-in for something that should start at a position. -/
def unknown (pos : Nat) : Node := .leaf .unknown (input.tokenAt pos)

/-! ### Operators -/

/-- The offset after another one. -/
def indexAfter (index : Nat) : Run Nat :=
  if input.checksOffsets ∧ index + 1 = UInt32.size then failure else pure (following index)

/-- The tokens at a position and after it are symbols, and nothing stands between them. -/
def symbolsAdjacent (pos : Nat) : Run Bool :=
  match input.token? pos, input.token? (pos + 1) with
  | some first, some second => do
    if first.kind = .symbol ∧ second.kind = .symbol ∧
        first.span.last.file = second.span.start.file then
      return (← input.indexAfter first.span.last.index) = second.span.start.index
    else return false
  | _, _ => return false

/-- The operator at a position: its text, and how many tokens it takes. -/
def operatorAt (pos : Nat) : Run (Option (String × Nat)) := do
  match (input.token? pos).filter (·.kind = .symbol) with
  | none => return none
  | some first =>
    if ← input.symbolsAdjacent pos then
      if let some second := input.token? (pos + 1) then
        let joined := first.text ++ second.text
        if joinedOperators.contains joined then return some (joined, 2)
    return some (first.text, 1)

/-- Tokens that stand side by side as one. -/
def joinedToken (pos width : Nat) : Token :=
  let first := input.tokenAt pos
  if width ≤ 1 then first
  else
    let more := (input.rest (pos + 1)).take (width - 1)
    ⟨first.kind, first.span.merge (input.tokenAt (pos + width - 1)).span,
      more.foldl (fun text t => text ++ t.text) first.text⟩

/-! ### Problems -/

/-- Reports an error at a position. -/
def report (pos : Nat) (problem : Problem) : Run Unit :=
  modify fun s =>
    { s with messages := s.messages.push (Message.error (input.spanAt pos) problem.text) }

/-- The number of tokens of a symbol that is due, which is reported if it is missing. -/
def expectSymbol (pos : Nat) (c : Char) : Run Nat := do
  if input.isSymbol pos c then return 1
  input.report pos (.expectedSymbol c)
  return 0

/-- Enters a level of nesting, unless it would be one too many. -/
def enterNesting (pos : Nat) : Run Bool := do
  let s ← get
  if nestingLimit ≤ s.nesting then
    input.report pos .tooDeep
    return false
  set { s with nesting := s.nesting + 1, highest := max s.highest (s.nesting + 1) }
  return true

/-- Leaves a level of nesting. -/
def leaveNesting : Run Unit := do
  let s ← get
  if input.checksLevels ∧ s.nesting = 0 then failure
  set { s with nesting := s.nesting - 1 }

/-! ### Repeating -/

/-- Takes turns from a position on until one is the last.  A turn that goes on has to pass tokens that
are there: where none is passed, the same turn would be taken for ever. -/
def repeated {σ : Type} (turn : Nat → σ → Run (Turn (Nat × σ))) (pos : Nat) (state : σ) :
    Run (Nat × σ) := do
  match ← turn pos state with
  | .again (next, state) =>
    if _h : pos < next ∧ next ≤ input.tokens.size then repeated turn next state else failure
  | .done found => return found
termination_by input.tokens.size - pos

/-! ### Going on after a problem -/

/-- The number of tokens of the bracketed group at a position. -/
def groupLength (pos : Nat) : Nat := skipped (afterGroup 0) (input.rest pos)

/-- The number of tokens before the end of an expression. -/
def expressionLength (pos : Nat) : Nat := skipped (afterExpression 0) (input.rest pos)

/-- The number of tokens before a closing bracket, or before a brace or semicolon. -/
def recoveryLength (pos : Nat) (closer : Char) : Nat := skipped (fromCloser closer 0) (input.rest pos)

/-- The number of tokens of a statement that cannot be read, at least one. -/
def statementRecoveryLength (pos : Nat) : Nat :=
  match input.rest pos with
  | [] => 1
  | t :: rest =>
    if t.isSymbol ';' then 1 else skipped (afterStatement (if isOpener t then 1 else 0)) rest + 1

/-- The number of tokens of a declaration that cannot be read, at least one. -/
def declarationRecoveryLength (pos : Nat) : Nat := max (skipped (afterDeclaration 0) (input.rest pos)) 1

end Input

end Shading.Parser

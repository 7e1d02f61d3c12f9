import Shading.Grammar.Block

/-! # Whole program texts

    unit       := function*
    function   := attributes? qualifier* typename identifier parameters ( block | ';' )
    attributes := '[' '[' attribute ( ',' attribute )* ']' ']'
    parameters := '(' ( parameter ( ',' parameter )* )? ')'

There is always a tree; what could not be read is reported and skipped. -/

namespace Shading.Grammar

open Production

/-- Reads the closing brackets of an attribute list, two at most.  What stands before one is
skipped, and reported unless something already was. -/
def closeAttributes : (brackets : Nat) → (reported : Bool) → Production Unit
  | 0, _ => pure ()
  | brackets + 1, reported => do
    if ← accept ']' then closeAttributes brackets reported
    else
      unless reported do report (.expectedSymbol ']')
      skipToCloser ']'
      if ← atSymbol ']' then closeAttributes brackets true

/-- The tokens start with two opening square brackets, which are given as one token. -/
def attributeOpening? : List Token → Option Token
  | first :: second :: _ =>
    if first.isSymbol '[' && second.isSymbol '[' then some (joinTokens first second) else none
  | _ => none

/-- A parameter: qualifiers, a type name and a name. -/
def parameter : Production (Option Node) := rewinding do
  let qualifiers ← typeQualifiers
  match ← typename with
  | none => return none
  | some type =>
    match ← identifier with
    | none => return none
    | some name => return some (.mk .parameter name.token (qualifiers ++ [type, name]))

/-- Parameters in parentheses, with the opening one next. -/
def parameterList : Production Node := listed .parameterList .expectedParameter parameter

namespace Nest

/-- An attribute: a name that may have arguments. -/
def attributeItem (g : Nest) : Production (Option Node) := do
  match ← identifier with
  | none => return none
  | some name =>
    let arguments ← if ← atSymbol '(' then
        do pure [← argumentList g.expression]
      else pure []
    return some (.mk .attr name.token arguments)

/-- A list of attributes. -/
def attributeList (g : Nest) : Production (Option Node) := do
  match attributeOpening? (← tokensLeft) with
  | none => return none
  | some token =>
    skip 2
    let items ← separated g.attributeItem
    unless items.complete do report .expectedIdentifier
    closeAttributes 2 (!items.complete)
    return some (.mk .attributeList token items.nodes)

/-- The body of a function, or the semicolon in its place. -/
def functionBody (g : Nest) : Production (List Node) := do
  if ← atSymbol '{' then return [← g.block]
  expect ';'
  return []

/-- A function declaration.  It is one as soon as a type name, a name and an opening parenthesis
have been read. -/
def functionDeclaration (g : Nest) : Production (Option Node) := rewinding do
  let attributes ← g.attributeList
  let qualifiers ← typeQualifiers
  match ← typename with
  | none => return none
  | some type =>
    match ← identifier with
    | none => return none
    | some name =>
      if !(← atSymbol '(') then return none
      let parameters ← parameterList
      let body ← g.functionBody
      let children := attributes.toList ++ qualifiers ++ [type, name, parameters] ++ body
      return some (.mk .functionDeclaration name.token children)

/-- Reads one declaration, or finds the end of input. -/
def nextDeclaration (g : Nest) (nodes : List Node) : Production (Turn (List Node)) := do
  if (← peek).isNone then return .done nodes
  match ← g.functionDeclaration with
  | some node => return .again (nodes ++ [node])
  | none =>
    report .expectedDeclaration
    leave (afterDeclaration 0)
    return .again nodes

/-- A whole program text. -/
def programUnit (g : Nest) : Production Node := do
  let token := (← peek).getD ⟨.unknown, Span.origin, ""⟩
  let nodes ← repeatWhile g.nextDeclaration []
  return .mk .programUnit token nodes

end Nest

/-! ### With all of the nesting left -/

def attributeItem : Production (Option Node) := (Nest.ofUnits nestingLimit).attributeItem

def attributeList : Production (Option Node) := (Nest.ofUnits nestingLimit).attributeList

def functionBody : Production (List Node) := (Nest.ofUnits nestingLimit).functionBody

def functionDeclaration : Production (Option Node) := (Nest.ofUnits nestingLimit).functionDeclaration

def nextDeclaration : List Node → Production (Turn (List Node)) :=
  (Nest.ofUnits nestingLimit).nextDeclaration

def programUnit : Production Node := (Nest.ofUnits nestingLimit).programUnit

/-- The span just past the last token. -/
def pastEnd (tokens : List Token) : Span :=
  match tokens.getLast? with
  | some t => Span.single t.span.last.nextColumn
  | none => Span.origin

end Shading.Grammar

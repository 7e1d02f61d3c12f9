import Shading.Grammar.Expression

/-! # Blocks of statements

A statement is a lone semicolon, a block, a return, a variable declaration or an expression with a
semicolon.  A declaration and an expression can begin alike, so a declaration is tried first; it is
one as soon as a type qualifier, or a type name and a name, have been read.

What spends nesting is reached through a `Nest`, so the productions here are the same at every depth. -/

namespace Shading.Grammar

open Production

/-- The productions that spend nesting, for what is written inside a function or an attribute. -/
structure Nest where
  expression : Production (Option Node)
  /-- A list of initialisers, with its opening brace next. -/
  list : Production Node
  /-- A block, with its opening brace next. -/
  block : Production Node

/-- Gives up a declaration: skips to its end, past a semicolon, and leaves a stand-in at its first
token. -/
def abandon (start : Token) : Production Node := do
  leave (afterExpression 0)
  let _ ← accept ';'
  return Node.leaf .unknown start

namespace Nest

/-- The initialiser after an equals sign. -/
def initialiser (g : Nest) : Production Node := do
  if ← atSymbol '{' then g.list
  else
    match ← g.expression with
    | some node => return node
    | none =>
      report .expectedExpression
      let node ← standIn
      leave (afterExpression 0)
      return node

/-- An equals sign and an initialiser, if there is an equals sign. -/
def initialValue (g : Nest) : Production (List Node) := do
  if ← accept '=' then return [← g.initialiser] else return []

/-- A variable declaration.  Once there is a qualifier it cannot be anything else. -/
def variableDeclaration (g : Nest) : Production (Option Node) := rewinding do
  let start ← here
  let qualifiers ← typeQualifiers
  match ← typename with
  | none =>
    if qualifiers.isEmpty then return none
    report .expectedTypeName
    return some (← abandon start)
  | some type =>
    match ← identifier with
    | none =>
      if qualifiers.isEmpty then return none
      report .expectedIdentifier
      return some (← abandon start)
    | some name =>
      let value ← g.initialValue
      expect ';'
      return some (.mk .variableDeclaration name.token (qualifiers ++ [type, name] ++ value))

/-- A return statement, with its word next. -/
def returnStatement (g : Nest) : Production Node := do
  let token ← take
  let value ← if ← atSymbol ';' then pure none else g.expression
  expect ';'
  return .mk .returnStatement token value.toList

/-- An expression with a semicolon. -/
def expressionStatement (g : Nest) : Production (Option Node) := do
  let token ← here
  match ← g.expression with
  | none => return none
  | some node =>
    expect ';'
    return some (.mk .expressionStatement token [node])

/-- A statement. -/
def statement (g : Nest) : Production (Option Node) := do
  if let some token ← takeIf fun t => t.isSymbol ';' then
    return some (Node.leaf .emptyStatement token)
  if ← atSymbol '{' then return some (← g.block)
  if ← atWord "return" then return some (← g.returnStatement)
  if let some node ← g.variableDeclaration then return some node
  g.expressionStatement

end Nest

/-- Reads one statement of a block, or its end. -/
def nextStatement (statement : Production (Option Node)) (nodes : List Node) :
    Production (Turn (List Node)) := do
  if ← accept '}' then return .done nodes
  if (← peek).isNone then
    report (.expectedSymbol '}')
    return .done nodes
  match ← progressing statement with
  | some node => return .again (nodes ++ [node])
  | none =>
    report .expectedStatement
    leave (afterStatement 0)
    return .again nodes

/-- Statements in braces, with the opening one next. -/
def Nest.statements (g : Nest) : Production Node := do
  let token ← take
  let nodes ← repeatWhile (nextStatement g.statement) []
  return .mk .compoundStatement token nodes

/-- A block of statements in braces, with the opening one next and `units` units of nesting left. -/
def block : (units : Nat) → Production Node
  | 0 => tooDeep (afterGroup 0)
  | units + 1 => Nest.statements ⟨expression units, bracedList units, block units⟩

/-! ### With `units` units of nesting left -/

def Nest.ofUnits (units : Nat) : Nest :=
  ⟨Grammar.expression units, bracedList units, Grammar.block units⟩

def initialiser (units : Nat) : Production Node := (Nest.ofUnits units).initialiser

def initialValue (units : Nat) : Production (List Node) := (Nest.ofUnits units).initialValue

def variableDeclaration (units : Nat) : Production (Option Node) :=
  (Nest.ofUnits units).variableDeclaration

def returnStatement (units : Nat) : Production Node := (Nest.ofUnits units).returnStatement

def expressionStatement (units : Nat) : Production (Option Node) :=
  (Nest.ofUnits units).expressionStatement

/-- A statement.  `block` reads a block, with its opening brace next. -/
def statement (block : Production Node) (units : Nat) : Production (Option Node) :=
  Nest.statement ⟨expression units, bracedList units, block⟩

end Shading.Grammar

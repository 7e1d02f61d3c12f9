import Shading.Parser.Basic

/-! # The productions of a parser

Each production is given the position where it starts.  It finds nothing, or a node and the number of
tokens used for it.  The grammar is the one of `Grammar.Expression`, `Grammar.Block` and `Grammar.Unit`.

A production that repeats something has a function for one turn of the repetition, which says at which
position to go on.  What can be nested in something like itself is called through `Nested`, with less room
on the stack, so the recursion of the productions is recursion on this room (`Input.nested`). -/

namespace Shading.Parser

open Grammar Production

namespace Input

/-! ### Names and types -/

def identifier (input : Input) (start : Nat) : Option Parsed :=
  ((input.token? start).filter isName).map fun t => ⟨1, .leaf .identifier t⟩

def literal (input : Input) (start : Nat) : Option Parsed :=
  (input.token? start).bind fun t => (literalKind? t).map fun kind => ⟨1, .leaf kind t⟩

def typeQualifier (input : Input) (start : Nat) : Option Parsed :=
  ((input.token? start).filter isQualifier).map fun t => ⟨1, .leaf .typeQualifier t⟩

def qualifierTurn (input : Input) (pos : Nat) (nodes : List Node) : Run (Turn (Nat × List Node)) := do
  match input.typeQualifier pos with
  | some found => return .again (pos + found.consumed, nodes ++ [found.node])
  | none => return .done (pos, nodes)

/-- Type qualifiers, as many as there are, and the number of tokens used for them. -/
def typeQualifiers (input : Input) (start : Nat) : Run (Nat × List Node) := do
  let (pos, nodes) ← input.repeated input.qualifierTurn start []
  return (pos - start, nodes)

/-- What an item of a list means for the list: a comma after it calls for another one. -/
def nextItem (input : Input) (pos : Nat) (items : Items) : Option Parsed → Turn (Nat × Items)
  | none => .done (pos, { items with complete := false })
  | some item =>
    let pos := pos + item.consumed
    let items := { items with nodes := items.nodes ++ [item.node] }
    if input.isSymbol pos ',' then .again (pos + 1, items) else .done (pos, items)

/-- The turn that reads an item of a list. -/
def itemTurn (input : Input) (item : Nat → Run (Option Parsed)) (pos : Nat) (items : Items) :
    Run (Turn (Nat × Items)) := do
  return input.nextItem pos items (← item pos)

/-- Type arguments, with the opening bracket next: the number of tokens and the types. -/
def typeArguments (input : Input) (item : Nat → Run (Option Parsed)) (start : Nat) :
    Run (Option (Nat × List Node)) := do
  let (pos, items) ← input.repeated (input.itemTurn item) (start + 1) {}
  if items.complete ∧ input.isSymbol pos '>' then return some (pos + 1 - start, items.nodes)
  return none

/-- A type name within `depth` others. -/
def typenameNested (input : Input) (start depth : Nat) : Run (Option Parsed) := do
  match input.identifier start with
  | none => return none
  | some name =>
    if _h : depth < nestingLimit ∧ input.isSymbol (start + 1) '<' then
      let item := fun pos => input.typenameNested pos (depth + 1)
      if let some (consumed, nodes) ← input.typeArguments item (start + 1) then
        return some ⟨1 + consumed, .mk .typename name.node.token nodes⟩
    return some ⟨1, .leaf .typename name.node.token⟩
termination_by nestingLimit - depth

def typename (input : Input) (start : Nat) : Run (Option Parsed) := input.typenameNested start 0

/-! ### Parts of lists and brackets -/

/-- Ends a bracketed list whose items end at `pos`, and says where the list ends. -/
def closeList (input : Input) (closer : Char) (missing : Problem) (pos : Nat) (complete : Bool) :
    Run Nat := do
  if !complete then input.report pos missing
  else if !input.isSymbol pos closer then input.report pos (.expectedSymbol closer)
  let failed := !complete || !input.isSymbol pos closer
  let pos := if failed then pos + input.recoveryLength pos closer else pos
  return if input.isSymbol pos closer then pos + 1 else pos

/-- A bracketed list that begins at `start`, from its items and where they end. -/
def endList (input : Input) (closer : Char) (kind : NodeKind) (missing : Problem) (start : Nat)
    (found : Nat × Items) : Run Parsed := do
  let last ← input.closeList closer missing found.1 found.2.complete
  return ⟨last - start, .mk kind (input.tokenAt start) found.2.nodes⟩

/-- A list in parentheses, with the opening one at `start`. -/
def listed (input : Input) (kind : NodeKind) (missing : Problem) (item : Nat → Run (Option Parsed))
    (start : Nat) : Run Parsed := do
  let found ←
    if input.isSymbol (start + 1) ')' then pure (start + 1, {})
    else input.repeated (input.itemTurn item) (start + 1) {}
  input.endList ')' kind missing start found

/-- What was found at a position, or a stand-in if an expression is missing there. -/
def orMissing (input : Input) (pos : Nat) : Option Parsed → Run (Nat × Node)
  | some found => return (pos + found.consumed, found.node)
  | none => do
    input.report pos .expectedExpression
    return (pos, input.unknown pos)

/-- The end of an expression between brackets that starts at `pos`, with the node for it. -/
def closeBracket (input : Input) (closer : Char) (missing : Node) (pos : Nat) :
    Option Parsed → Run (Nat × Node)
  | some found => do
    let pos := pos + found.consumed
    if input.isSymbol pos closer then return (pos + 1, found.node)
    input.report pos (.expectedSymbol closer)
    let pos := pos + input.recoveryLength pos closer
    return (if input.isSymbol pos closer then pos + 1 else pos, found.node)
  | none => do
    input.report pos .expectedExpression
    let pos := pos + input.recoveryLength pos closer
    return (if input.isSymbol pos closer then pos + 1 else pos, missing)

/-! ### Expressions -/

def argumentList (input : Input) (inner : Nested) (start : Nat) : Run Parsed :=
  input.listed .argumentList .expectedExpression inner.expression start

def primary (input : Input) (inner : Nested) (start : Nat) : Run (Option Parsed) := do
  match input.literal start, input.identifier start with
  | some found, _ => return some found
  | none, some found => return some found
  | none, none =>
    if !input.isSymbol start '(' then return none
    let found ← inner.expression (start + 1)
    let (last, node) ← input.closeBracket ')' (input.unknown start) (start + 1) found
    return some ⟨last - start, node⟩

def suffixTurn (input : Input) (inner : Nested) (pos : Nat) (node : Node) :
    Run (Turn (Nat × Node)) := do
  let token := input.tokenAt pos
  if input.isSymbol pos '(' then
    let arguments ← input.argumentList inner pos
    return .again (pos + arguments.consumed, .mk .callExpression token [node, arguments.node])
  else if input.isSymbol pos '.' then
    match input.identifier (pos + 1) with
    | some member =>
      return .again (pos + 1 + member.consumed, .mk .memberExpression token [node, member.node])
    | none =>
      input.report (pos + 1) .expectedIdentifier
      return .done (pos + 1, .mk .memberExpression token [node, input.unknown (pos + 1)])
  else if input.isSymbol pos '[' then
    let found ← inner.expression (pos + 1)
    let (last, index) ← input.closeBracket ']' (input.unknown (pos + 1)) (pos + 1) found
    return .again (last, .mk .indexExpression token [node, index])
  else return .done (pos, node)

def suffixed (input : Input) (inner : Nested) (start : Nat) : Run (Option Parsed) := do
  match ← input.primary inner start with
  | none => return none
  | some found =>
    let (pos, node) ← input.repeated (input.suffixTurn inner) (start + found.consumed) found.node
    return some ⟨pos - start, node⟩

def isSignAt (input : Input) (pos : Nat) : Bool := (input.token? pos).any isSign

def unary (input : Input) (inner : Nested) (start : Nat) : Run (Option Parsed) := do
  if !input.isSignAt start then input.suffixed inner start
  else if !(← input.enterNesting start) then
    return some ⟨input.expressionLength start, input.unknown start⟩
  else
    let (last, operand) ← input.orMissing (start + 1) (← inner.operand (start + 1))
    input.leaveNesting
    return some ⟨last - start, .mk .unaryExpression (input.tokenAt start) [operand]⟩

/-- `right p` reads a right side of operators tighter than `p`. -/
def binaryTurn (input : Input) (right : Nat → Nat → Run (Option Parsed)) (least pos : Nat) (node : Node) :
    Run (Turn (Nat × Node)) := do
  match ← input.operatorAt pos with
  | none => return .done (pos, node)
  | some (text, width) =>
    match precedence? text with
    | none => return .done (pos, node)
    | some precedence =>
      if precedence < least then return .done (pos, node)
      let (last, other) ← input.orMissing (pos + width) (← right precedence (pos + width))
      return .again (last, .mk .binaryExpression (input.joinedToken pos width) [node, other])

/-- Operators that bind at least as tightly as `least`.  There is room for `room` right sides within each
other. -/
def binary (input : Input) (inner : Nested) : (room least start : Nat) → Run (Option Parsed)
  | 0, _, _ => failure
  | room + 1, least, start => do
    match ← input.unary inner start with
    | none => return none
    | some left =>
      let right := fun precedence => input.binary inner room (precedence + 1)
      let (pos, node) ← input.repeated (input.binaryTurn right least) (start + left.consumed) left.node
      return some ⟨pos - start, node⟩

def assignment (input : Input) (inner : Nested) (start : Nat) : Run (Option Parsed) := do
  match ← input.binary inner (precedenceLevels + 1) 1 start with
  | none => return none
  | some target =>
    let pos := start + target.consumed
    if (← input.operatorAt pos) = some ("=", 1) then
      let (last, value) ← input.orMissing (pos + 1) (← inner.expression (pos + 1))
      return some ⟨last - start, .mk .assignmentExpression (input.tokenAt pos) [target.node, value]⟩
    return some target

def expression (input : Input) (inner : Nested) (start : Nat) : Run (Option Parsed) := do
  if !(← input.enterNesting start) then
    return some ⟨input.expressionLength start, input.unknown start⟩
  let found ← input.assignment inner start
  input.leaveNesting
  return found

def initialiserTurn (input : Input) (inner : Nested) (pos : Nat) (items : Items) :
    Run (Turn (Nat × Items)) := do
  if input.isSymbol pos '}' then return .done (pos, items)
  else if input.isSymbol pos '{' then
    return input.nextItem pos items (some (← inner.list pos))
  else return input.nextItem pos items (← inner.expression pos)

/-- A list of initialisers, with its opening brace at `start`. -/
def bracedList (input : Input) (inner : Nested) (start : Nat) : Run Parsed := do
  if !(← input.enterNesting start) then return ⟨input.groupLength start, input.unknown start⟩
  let items ← input.repeated (input.initialiserTurn inner) (start + 1) {}
  let found ← input.endList '}' .bracedInitList .expectedExpression start items
  input.leaveNesting
  return found

/-! ### Statements -/

/-- A return statement, with its word at `start`. -/
def returnStatement (input : Input) (inner : Nested) (start : Nat) : Run Parsed := do
  let value ← if input.isSymbol (start + 1) ';' then pure none else inner.expression (start + 1)
  let pos := start + 1 + (value.map Parsed.consumed).getD 0
  let semicolon ← input.expectSymbol pos ';'
  let children := (value.map Parsed.node).toList
  return ⟨pos + semicolon - start, .mk .returnStatement (input.tokenAt start) children⟩

/-- Passes over the rest, from `pos` on, of a declaration that is given up. -/
def abandonedDeclaration (input : Input) (start pos : Nat) : Parsed :=
  let last := pos + input.expressionLength pos
  ⟨(if input.isSymbol last ';' then last + 1 else last) - start, input.unknown start⟩

/-- An equals sign and what a variable is set to, if there is an equals sign at `pos`: where it ends,
and its node. -/
def initialValue (input : Input) (inner : Nested) (pos : Nat) : Run (Nat × List Node) := do
  if !input.isSymbol pos '=' then return (pos, [])
  let pos := pos + 1
  if input.isSymbol pos '{' then
    let found ← inner.list pos
    return (pos + found.consumed, [found.node])
  match ← inner.expression pos with
  | some found => return (pos + found.consumed, [found.node])
  | none =>
    input.report pos .expectedExpression
    return (pos + input.expressionLength pos, [input.unknown pos])

/-- A local variable.  Without qualifiers it is one only once its name has been seen. -/
def variableDeclaration (input : Input) (inner : Nested) (start : Nat) : Run (Option Parsed) := do
  let (used, qualifiers) ← input.typeQualifiers start
  let pos := start + used
  match ← input.typename pos with
  | none =>
    if used = 0 then return none
    input.report pos .expectedTypeName
    return some (input.abandonedDeclaration start pos)
  | some type =>
    let pos := pos + type.consumed
    match input.identifier pos with
    | none =>
      if used = 0 then return none
      input.report pos .expectedIdentifier
      return some (input.abandonedDeclaration start pos)
    | some name =>
      let (pos, value) ← input.initialValue inner (pos + name.consumed)
      let semicolon ← input.expectSymbol pos ';'
      let children := qualifiers ++ [type.node, name.node] ++ value
      return some ⟨pos + semicolon - start, .mk .variableDeclaration name.node.token children⟩

def expressionStatement (input : Input) (inner : Nested) (start : Nat) : Run (Option Parsed) := do
  match ← inner.expression start with
  | none => return none
  | some found =>
    let pos := start + found.consumed
    let semicolon ← input.expectSymbol pos ';'
    return some
      ⟨pos + semicolon - start, .mk .expressionStatement (input.tokenAt start) [found.node]⟩

def statement (input : Input) (inner : Nested) (start : Nat) : Run (Option Parsed) := do
  if input.isSymbol start ';' then return some ⟨1, .leaf .emptyStatement (input.tokenAt start)⟩
  if input.isSymbol start '{' then return some (← inner.block start)
  if input.isWord start "return" then return some (← input.returnStatement inner start)
  match ← input.variableDeclaration inner start with
  | some found => return some found
  | none => input.expressionStatement inner start

def statementTurn (input : Input) (inner : Nested) (pos : Nat) (nodes : List Node) :
    Run (Turn (Nat × List Node)) := do
  if input.isSymbol pos '}' then return .done (pos + 1, nodes)
  else if (input.token? pos).isNone then
    input.report pos (.expectedSymbol '}')
    return .done (pos, nodes)
  else
    match counted (← input.statement inner pos) with
    | some found => return .again (pos + found.consumed, nodes ++ [found.node])
    | none =>
      input.report pos .expectedStatement
      return .again (pos + input.statementRecoveryLength pos, nodes)

/-- A block, with its opening brace at `start`. -/
def compoundStatement (input : Input) (inner : Nested) (start : Nat) : Run Parsed := do
  if !(← input.enterNesting start) then return ⟨input.groupLength start, input.unknown start⟩
  let (pos, nodes) ← input.repeated (input.statementTurn inner) (start + 1) []
  input.leaveNesting
  return ⟨pos - start, .mk .compoundStatement (input.tokenAt start) nodes⟩

/-- The productions for what is nested, if there is so much room on the stack. -/
def nested (input : Input) : (room : Nat) → Nested
  | 0 => ⟨fun _ => failure, fun _ => failure, fun _ => failure, fun _ => failure⟩
  | room + 1 =>
    let inner := input.nested room
    ⟨input.expression inner, input.unary inner, input.bracedList inner, input.compoundStatement inner⟩

/-! ### Declarations -/

/-- A name that may have arguments. -/
def attributeItem (input : Input) (inner : Nested) (start : Nat) : Run (Option Parsed) := do
  match input.identifier start with
  | none => return none
  | some name =>
    let pos := start + name.consumed
    if input.isSymbol pos '(' then
      let arguments ← input.argumentList inner pos
      return some
        ⟨name.consumed + arguments.consumed, .mk .attr name.node.token [arguments.node]⟩
    return some ⟨name.consumed, .mk .attr name.node.token []⟩

/-- The closing brackets of an attribute list, `brackets` at most, from `pos` on: where they end.
What stands before one is passed over, and reported unless something already was. -/
def closeAttributes (input : Input) : (brackets pos : Nat) → (failed : Bool) → Run Nat
  | 0, pos, _ => return pos
  | brackets + 1, pos, failed => do
    if input.isSymbol pos ']' then input.closeAttributes brackets (pos + 1) failed
    else
      unless failed do input.report pos (.expectedSymbol ']')
      let pos := pos + input.recoveryLength pos ']'
      if input.isSymbol pos ']' then input.closeAttributes brackets pos true else return pos

def attributeList (input : Input) (inner : Nested) (start : Nat) : Run (Option Parsed) := do
  if !(input.isSymbol start '[' && input.isSymbol (start + 1) '[') then return none
  let (pos, items) ← input.repeated (input.itemTurn (input.attributeItem inner)) (start + 2) {}
  unless items.complete do input.report pos .expectedIdentifier
  let last ← input.closeAttributes 2 pos (!items.complete)
  return some ⟨last - start, .mk .attributeList (input.joinedToken start 2) items.nodes⟩

def parameter (input : Input) (start : Nat) : Run (Option Parsed) := do
  let (used, qualifiers) ← input.typeQualifiers start
  let pos := start + used
  match ← input.typename pos with
  | none => return none
  | some type =>
    let pos := pos + type.consumed
    match input.identifier pos with
    | none => return none
    | some name =>
      let children := qualifiers ++ [type.node, name.node]
      return some ⟨pos + name.consumed - start, .mk .parameter name.node.token children⟩

def parameterList (input : Input) (start : Nat) : Run Parsed :=
  input.listed .parameterList .expectedParameter input.parameter start

/-- The body of a function, or the semicolon in its place: where it ends, and its node. -/
def functionBody (input : Input) (inner : Nested) (pos : Nat) : Run (Nat × List Node) := do
  if input.isSymbol pos '{' then
    let body ← inner.block pos
    return (pos + body.consumed, [body.node])
  return (pos + (← input.expectSymbol pos ';'), [])

def functionDeclaration (input : Input) (inner : Nested) (start : Nat) : Run (Option Parsed) := do
  let attributes ← input.attributeList inner start
  let pos := start + (attributes.map Parsed.consumed).getD 0
  let (used, qualifiers) ← input.typeQualifiers pos
  let pos := pos + used
  match ← input.typename pos with
  | none => return none
  | some type =>
    let pos := pos + type.consumed
    match input.identifier pos with
    | none => return none
    | some name =>
      if !input.isSymbol (pos + 1) '(' then return none
      let parameters ← input.parameterList (pos + 1)
      let (last, body) ← input.functionBody inner (pos + 1 + parameters.consumed)
      let children := (attributes.map Parsed.node).toList ++ qualifiers ++
        [type.node, name.node, parameters.node] ++ body
      return some ⟨last - start, .mk .functionDeclaration name.node.token children⟩

def declarationTurn (input : Input) (inner : Nested) (pos : Nat) (nodes : List Node) :
    Run (Turn (Nat × List Node)) := do
  if (input.token? pos).isNone then return .done (pos, nodes)
  match counted (← input.functionDeclaration inner pos) with
  | some found => return .again (pos + found.consumed, nodes ++ [found.node])
  | none =>
    input.report pos .expectedDeclaration
    return .again (pos + input.declarationRecoveryLength pos, nodes)

/-- A whole program text. -/
def programUnit (input : Input) : Run Node := do
  let (_, nodes) ← input.repeated (input.declarationTurn (input.nested input.stack)) 0 []
  return .mk .programUnit ((input.token? 0).getD ⟨.unknown, Span.origin, ""⟩) nodes

end Input

end Parser

/-- The tree of a token list, and the messages about what could not be read.  A run always comes to its
end. -/
def parse (tokens : List Token) : Node × List Message :=
  match Parser.Input.programUnit { tokens := tokens.toArray } {} with
  | some (node, s) => (node, s.messages.toList)
  | none => (default, [])

end Shading

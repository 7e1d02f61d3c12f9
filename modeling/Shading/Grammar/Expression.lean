import Shading.Grammar.Name
import Shading.Grammar.Operator

/-! # Expressions

    expression := assignment
    assignment := binary ( '=' assignment )?
    binary     := unary ( operator unary )*
    unary      := ( '-' | '+' | '!' ) unary | suffixed
    suffixed   := primary ( arguments | '.' identifier | '[' expression ']' )*
    primary    := literal | identifier | '(' expression ')'

Operators of two characters are two adjacent symbol tokens.  Parentheses have no node of their own.

Every expression and every sign spends one unit of nesting.  `level n` holds the productions for `n`
units left, so the recursion of the grammar is recursion on `n`. -/

namespace Shading.Grammar

open Production

/-! ### Leaves -/

/-- The kind of literal that a token is. -/
def literalKind? (t : Token) : Option NodeKind :=
  if t.kind.isInteger then some .integerLiteral
  else if t.kind.isFloat then some .floatLiteral
  else if t.kind = .string then some .stringLiteral
  else if t.isWord "true" ∨ t.isWord "false" then some .boolLiteral
  else none

def literal : Production (Option Node) := do
  match (← peek).bind literalKind? with
  | none => return none
  | some kind => return some (Node.leaf kind (← take))

/-! ### Productions over a nested expression -/

/-- What a production finds, or a stand-in if an expression is missing. -/
def orMissing (p : Production (Option Node)) : Production Node := do
  match ← p with
  | some node => return node
  | none =>
    report .expectedExpression
    standIn

/-- Arguments in parentheses, with the opening one next. -/
def argumentList (expression : Production (Option Node)) : Production Node :=
  listed .argumentList .expectedExpression expression

/-- An expression between brackets, after the opening one, up to and with the closing one.
`missing` gives the node if there is no expression. -/
def bracketed (closer : Char) (expression : Production (Option Node)) (missing : Production Node) :
    Production Node := do
  let node ← match ← expression with
    | some node => do
      unless ← atSymbol closer do
        report (.expectedSymbol closer)
        skipToCloser closer
      pure node
    | none => do
      report .expectedExpression
      let node ← missing
      skipToCloser closer
      pure node
  let _ ← accept closer
  return node

/-- A literal, a name or an expression in parentheses. -/
def primary (expression : Production (Option Node)) : Production (Option Node) := do
  if let some node ← literal then return some node
  if let some node ← identifier then return some node
  match ← takeIf fun t => t.isSymbol '(' with
  | none => return none
  | some token =>
    let missing := pure (Node.leaf .unknown token)
    return some (← bracketed ')' expression missing)

/-- Applies one call, member access or index to what was read so far. -/
def suffix (expression : Production (Option Node)) (node : Node) : Production (Turn Node) := do
  if ← atSymbol '(' then
    let token ← here
    let arguments ← argumentList expression
    return .again (.mk .callExpression token [node, arguments])
  if let some token ← takeIf fun t => t.isSymbol '.' then
    match ← identifier with
    | some member => return .again (.mk .memberExpression token [node, member])
    | none =>
      report .expectedIdentifier
      let member ← standIn
      return .done (.mk .memberExpression token [node, member])
  if let some token ← takeIf fun t => t.isSymbol '[' then
    let index ← bracketed ']' expression standIn
    return .again (.mk .indexExpression token [node, index])
  return .done node

/-- A primary expression with its calls, member accesses and indices. -/
def suffixed (expression : Production (Option Node)) : Production (Option Node) := do
  match ← primary expression with
  | none => return none
  | some node => return some (← repeatWhile (suffix expression) node)

/-- The token is a sign: minus, plus or exclamation mark. -/
def isSign (t : Token) : Bool := t.isSymbol '-' || t.isSymbol '+' || t.isSymbol '!'

/-- An expression with signs before it.  `operand` reads what a sign applies to; there is none when
no nesting is left. -/
def unary (operand : Option (Production (Option Node))) (expression : Production (Option Node)) :
    Production (Option Node) := do
  if !(← isNext isSign) then suffixed expression
  else
    match operand with
    | none => return some (← tooDeep (afterExpression 0))
    | some operand =>
      let token ← take
      let node ← orMissing operand
      return some (.mk .unaryExpression token [node])

/-- Extends an expression by one operator and its right side, if an operator of at least the given
precedence follows.  `right p` reads a right side of operators tighter than `p`. -/
def extendBinary (right : Nat → Production (Option Node)) (least : Nat) (node : Node) :
    Production (Turn Node) := do
  match binaryOperator? least (← tokensLeft) with
  | none => return .done node
  | some (token, width, precedence) =>
    skip width
    let other ← orMissing (right precedence)
    return .again (.mk .binaryExpression token [node, other])

/-- Operators of precedence `least` and tighter, grouped to the left.  `levels` bounds how many
times a right side can have operators of its own: each has only tighter ones. -/
def binary (operand : Production (Option Node)) : (levels least : Nat) → Production (Option Node)
  | 0, _ => operand
  | levels + 1, least => do
    match ← operand with
    | none => return none
    | some node =>
      let right := fun precedence => binary operand levels (precedence + 1)
      return some (← repeatWhile (extendBinary right least) node)

/-- A binary expression, or an assignment to it. -/
def assignment (operand expression : Production (Option Node)) : Production (Option Node) := do
  match ← binary operand precedenceLevels 1 with
  | none => return none
  | some target =>
    match operator? (← tokensLeft) with
    | some (token, _) =>
      if token.text = "=" then
        skip 1
        let value ← orMissing expression
        return some (.mk .assignmentExpression token [target, value])
      else return some target
    | none => return some target

/-! ### Nesting -/

/-- The productions that spend nesting, for some number of units left. -/
structure Level where
  expression : Production (Option Node)
  unary : Production (Option Node)

/-- The productions with `units` units of nesting left. -/
def level : (units : Nat) → Level
  | 0 =>
    let expression : Production (Option Node) := do return some (← tooDeep (afterExpression 0))
    ⟨expression, unary none expression⟩
  | units + 1 =>
    let inner := level units
    let expression := assignment inner.unary inner.expression
    ⟨expression, unary (some inner.unary) expression⟩

/-- An expression, with `units` units of nesting left. -/
def expression (units : Nat) : Production (Option Node) := (level units).expression

/-- An item of a braced list: another list, or an expression. -/
def bracedItem (list : Production Node) (expression : Production (Option Node)) :
    Production (Option Node) := do
  if ← atSymbol '{' then return some (← list) else expression

/-- Reads one item of a braced list, and a comma if one follows, unless the list ends. -/
def nextBraced (item : Production (Option Node)) (items : Items) : Production (Turn Items) := do
  if ← atSymbol '}' then return .done items else nextItem item items

/-- A list of initialisers in braces, with the opening one next. -/
def bracedList : (units : Nat) → Production Node
  | 0 => tooDeep (afterGroup 0)
  | units + 1 => do
    let token ← take
    let item := bracedItem (bracedList units) (expression units)
    let items ← repeatWhile (nextBraced item) {}
    closeList '}' .expectedExpression items.complete
    return .mk .bracedInitList token items.nodes

end Shading.Grammar

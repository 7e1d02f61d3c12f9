import Shading.Token.Basic

/-! # Syntax trees

A node has a kind, the token it comes from and its children in source order.  `Node.preorder` lists
a node and everything below it; the queries on trees are stated through it or by recursion on the
children. -/

namespace Shading

/-- The production that a node belongs to. -/
inductive NodeKind where
  | programUnit
  | functionDeclaration
  | attributeList
  | attr
  | typeQualifier
  | typename
  | identifier
  | parameterList
  | parameter
  | argumentList
  | bracedInitList
  | integerLiteral
  | floatLiteral
  | boolLiteral
  | stringLiteral
  | emptyStatement
  | compoundStatement
  | returnStatement
  | expressionStatement
  | variableDeclaration
  | binaryExpression
  | unaryExpression
  | assignmentExpression
  | callExpression
  | memberExpression
  | indexExpression
  /-- What stands in for something that could not be read. -/
  | unknown
deriving DecidableEq, Repr, Inhabited

namespace NodeKind

instance : Named NodeKind where
  all := [.programUnit, .functionDeclaration, .attributeList, .attr, .typeQualifier, .typename,
    .identifier, .parameterList, .parameter, .argumentList, .bracedInitList, .integerLiteral,
    .floatLiteral, .boolLiteral, .stringLiteral, .emptyStatement, .compoundStatement,
    .returnStatement, .expressionStatement, .variableDeclaration, .binaryExpression,
    .unaryExpression, .assignmentExpression, .callExpression, .memberExpression, .indexExpression,
    .unknown]
  name
    | .programUnit => "TranslationUnit"
    | .functionDeclaration => "FunctionDeclaration"
    | .attributeList => "AttributeList"
    | .attr => "Attribute"
    | .typeQualifier => "TypeQualifier"
    | .typename => "Typename"
    | .identifier => "Identifier"
    | .parameterList => "ParameterList"
    | .parameter => "Parameter"
    | .argumentList => "ArgumentList"
    | .bracedInitList => "BracedInitList"
    | .integerLiteral => "IntegerLiteral"
    | .floatLiteral => "FloatLiteral"
    | .boolLiteral => "BoolLiteral"
    | .stringLiteral => "StringLiteral"
    | .emptyStatement => "EmptyStatement"
    | .compoundStatement => "CompoundStatement"
    | .returnStatement => "ReturnStatement"
    | .expressionStatement => "ExpressionStatement"
    | .variableDeclaration => "VariableDeclaration"
    | .binaryExpression => "BinaryExpression"
    | .unaryExpression => "UnaryExpression"
    | .assignmentExpression => "AssignmentExpression"
    | .callExpression => "CallExpression"
    | .memberExpression => "MemberExpression"
    | .indexExpression => "IndexExpression"
    | .unknown => "Unknown"

/-- The four kinds of literal. -/
def isLiteral : NodeKind → Bool
  | .integerLiteral | .floatLiteral | .boolLiteral | .stringLiteral => true
  | _ => false

end NodeKind

/-- A node of a syntax tree. -/
inductive Node where
  | mk (kind : NodeKind) (token : Token) (children : List Node)
deriving Repr, Inhabited

namespace Node

def kind : Node → NodeKind
  | mk kind _ _ => kind

/-- The token that the node comes from. -/
def token : Node → Token
  | mk _ token _ => token

def children : Node → List Node
  | mk _ _ children => children

/-- A node without children. -/
def leaf (kind : NodeKind) (token : Token) : Node := mk kind token []

/-- The span of the node's own token. -/
def span (n : Node) : Span := n.token.span

mutual

/-- The node and everything below it, parents before children, each with its depth. -/
def preorderAt (depth : Nat) : Node → List (Nat × Node)
  | mk kind token children => (depth, mk kind token children) :: preorderAll (depth + 1) children

/-- The nodes of several trees at the same depth, tree after tree. -/
def preorderAll (depth : Nat) : List Node → List (Nat × Node)
  | [] => []
  | n :: rest => preorderAt depth n ++ preorderAll depth rest

end

/-- The node and everything below it with depths, the node itself at depth zero. -/
def preorder (n : Node) : List (Nat × Node) := preorderAt 0 n

mutual

/-- The span of the node's token and of everything below it. -/
def fullSpan : Node → Span
  | mk _ token children => coverAll token.span children

/-- A span widened to cover the given trees. -/
def coverAll (span : Span) : List Node → Span
  | [] => span
  | n :: rest => coverAll (span.merge (fullSpan n)) rest

end

mutual

/-- The node or something below it could not be read. -/
def hasErrors : Node → Bool
  | mk kind _ children => kind == .unknown || anyErrors children

/-- One of the trees holds something that could not be read. -/
def anyErrors : List Node → Bool
  | [] => false
  | n :: rest => hasErrors n || anyErrors rest

end

/-- The first child of a kind. -/
def child? (n : Node) (kind : NodeKind) : Option Node := n.children.find? fun c => c.kind == kind

/-- The children of a kind. -/
def childrenOf (n : Node) (kind : NodeKind) : List Node :=
  n.children.filter fun c => c.kind == kind

/-- The node reached by choosing a child by number at each step. -/
def descend? : Node → List Nat → Option Node
  | n, [] => some n
  | n, i :: path => do descend? (← n.children[i]?) path

/-- Kind, text in quotes, and line and column counted from one. -/
def display (n : Node) : String :=
  let start := n.token.span.start
  s!"{Named.name n.kind} {Text.quote n.token.text} @{following start.line}:{following start.column}"

/-- One line for each node, indented by two blanks for each level. -/
def outline (n : Node) : String :=
  let lines := n.preorder.map fun (depth, m) =>
    String.ofList (List.replicate (2 * depth) ' ') ++ m.display ++ "\n"
  String.join lines

end Node

end Shading

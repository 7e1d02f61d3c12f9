import Shading.Grammar.Operator
import Shading.Grammar.Name

/-! # The rules of the grammar

Each relation below is one nonterminal: `IsExpression used node` says that the tokens `used`, all of
them and in this order, are derived as an expression whose tree is `node`.  The rules know nothing of
how tokens are read: there is no lookahead, no limit on nesting and no recovery.

    unit       := function*
    function   := attributes? qualifier* typename name parameters ( block | ';' )
    attributes := '[' '[' attribute ( ',' attribute )* ']' ']'
    attribute  := name arguments?
    parameters := '(' ( parameter ( ',' parameter )* )? ')'
    parameter  := qualifier* typename name
    typename   := name ( '<' typename ( ',' typename )* '>' )?
    block      := '{' statement* '}'
    statement  := ';' | block | 'return' expression? ';' | variable | expression ';'
    variable   := qualifier* typename name ( '=' ( braced | expression ) )? ';'
    braced     := '{' ( item ( ',' item )* ','? )? '}'      item := braced | expression
    expression := binary 1 | binary 1 '=' expression
    binary k   := binary k (operator k) (binary k+1) | binary k+1,   for k from 1 to 6
    binary 7   := unary
    unary      := ( '-' | '+' | '!' ) unary | suffixed
    suffixed   := primary | suffixed arguments | suffixed '.' name | suffixed '[' expression ']'
    primary    := literal | name | '(' expression ')'
    arguments  := '(' ( expression ( ',' expression )* )? ')' -/

namespace Shading.Grammar

/-! ### Tokens and lists -/

/-- An identifier that is no keyword. -/
def IsName (t : Token) : Prop := t.kind = .identifier ∧ t.text ∉ keywords

/-- One of the words that qualify a type. -/
def IsQualifier (t : Token) : Prop := t.kind = .identifier ∧ t.text ∈ qualifiers

/-- The token is a literal of the given kind. -/
inductive IsLiteral (t : Token) : NodeKind → Prop
  | integer (h : t.kind.isInteger = true) : IsLiteral t .integerLiteral
  | float (h : t.kind.isFloat = true) : IsLiteral t .floatLiteral
  | string (h : t.kind = .string) : IsLiteral t .stringLiteral
  | bool (h : t.kind = .identifier) (ht : t.text = "true" ∨ t.text = "false") :
      IsLiteral t .boolLiteral

/-- One phrase after another. -/
inductive Sequence (P : List Token → Node → Prop) : List Token → List Node → Prop
  | nil : Sequence P [] []
  | cons {used more : List Token} {node : Node} {nodes : List Node} (h : P used node)
      (hmore : Sequence P more nodes) : Sequence P (used ++ more) (node :: nodes)

/-- One phrase or more, with commas between them. -/
inductive Separated (P : List Token → Node → Prop) : List Token → List Node → Prop
  | one {used : List Token} {node : Node} (h : P used node) : Separated P used [node]
  | cons {used more : List Token} {comma : Token} {node : Node} {nodes : List Node} (h : P used node)
      (hcomma : comma.isSymbol ',' = true) (hmore : Separated P more nodes) :
      Separated P (used ++ comma :: more) (node :: nodes)

/-- A list between round brackets, which may be empty. -/
inductive Enclosed (P : List Token → Node → Prop) (kind : NodeKind) : List Token → Node → Prop
  | empty {opening closing : Token} (ho : opening.isSymbol '(' = true)
      (hc : closing.isSymbol ')' = true) : Enclosed P kind [opening, closing] (.mk kind opening [])
  | list {opening closing : Token} {used : List Token} {nodes : List Node}
      (ho : opening.isSymbol '(' = true) (h : Separated P used nodes)
      (hc : closing.isSymbol ')' = true) :
      Enclosed P kind (opening :: used ++ [closing]) (.mk kind opening nodes)

/-- A type name, with or without arguments. -/
inductive IsTypename : List Token → Node → Prop
  | bare {name : Token} (h : IsName name) : IsTypename [name] (.mk .typename name [])
  | generic {name opening closing : Token} {used : List Token} {nodes : List Node} (h : IsName name)
      (ho : opening.isSymbol '<' = true) (hargs : Separated IsTypename used nodes)
      (hc : closing.isSymbol '>' = true) :
      IsTypename (name :: opening :: used ++ [closing]) (.mk .typename name nodes)

/-! ### Operators -/

/-- The binary operators of each stratum, the loosest in the first. -/
def operatorsAt : Nat → List String
  | 1 => ["||"]
  | 2 => ["&&"]
  | 3 => ["==", "!="]
  | 4 => ["<", ">", "<=", ">="]
  | 5 => ["+", "-"]
  | 6 => ["*", "/", "%"]
  | _ => []

/-- The second token stands right behind the first, in the same file. -/
def SideBySide (first second : Token) : Prop :=
  first.span.last.file = second.span.start.file ∧ first.span.last.index + 1 = second.span.start.index

variable (beside : Token → Token → Prop)

/-- The tokens are an operator of stratum `k`: a symbol, or two symbols with nothing between them. -/
inductive IsOperator (k : Nat) : List Token → Token → Prop
  | single {t : Token} {c : Char} (h : t.isSymbol c = true)
      (hk : String.ofList [c] ∈ operatorsAt k) : IsOperator k [t] t
  | joined {first second : Token} {c d : Char} (hfirst : first.isSymbol c = true)
      (hsecond : second.isSymbol d = true) (hbeside : beside first second)
      (hk : String.ofList [c, d] ∈ operatorsAt k) :
      IsOperator k [first, second] (joinTokens first second)

/-! ### Expressions -/

mutual

inductive IsExpression : List Token → Node → Prop
  | binary {used : List Token} {node : Node} (h : IsBinary 1 used node) : IsExpression used node
  | assignment {left right : List Token} {equals : Token} {target value : Node}
      (htarget : IsBinary 1 left target) (hequals : equals.isSymbol '=' = true)
      (hvalue : IsExpression right value) :
      IsExpression (left ++ equals :: right) (.mk .assignmentExpression equals [target, value])

/-- Expressions with operators of stratum `k` and tighter ones, grouped to the left. -/
inductive IsBinary : Nat → List Token → Node → Prop
  | unary {used : List Token} {node : Node} (h : IsUnary used node) : IsBinary 7 used node
  | tighter {k : Nat} {used : List Token} {node : Node} (h : IsBinary (k + 1) used node) :
      IsBinary k used node
  | operator {k : Nat} {left joint right : List Token} {token : Token} {a b : Node}
      (ha : IsBinary k left a) (hoperator : IsOperator beside k joint token)
      (hb : IsBinary (k + 1) right b) :
      IsBinary k (left ++ joint ++ right) (.mk .binaryExpression token [a, b])

inductive IsUnary : List Token → Node → Prop
  | sign {t : Token} {used : List Token} {node : Node}
      (ht : t.isSymbol '-' = true ∨ t.isSymbol '+' = true ∨ t.isSymbol '!' = true)
      (h : IsUnary used node) : IsUnary (t :: used) (.mk .unaryExpression t [node])
  | suffixed {used : List Token} {node : Node} (h : IsSuffixed used node) : IsUnary used node

inductive IsSuffixed : List Token → Node → Prop
  | primary {used : List Token} {node : Node} (h : IsPrimary used node) : IsSuffixed used node
  | call {used : List Token} {opening : Token} {listed : List Token} {callee arguments : Node}
      (h : IsSuffixed used callee)
      (hargs : Enclosed IsExpression .argumentList (opening :: listed) arguments) :
      IsSuffixed (used ++ opening :: listed) (.mk .callExpression opening [callee, arguments])
  | member {used : List Token} {dot name : Token} {object : Node} (h : IsSuffixed used object)
      (hdot : dot.isSymbol '.' = true) (hname : IsName name) :
      IsSuffixed (used ++ [dot, name]) (.mk .memberExpression dot [object, .leaf .identifier name])
  | index {used inner : List Token} {opening closing : Token} {object index : Node}
      (h : IsSuffixed used object) (ho : opening.isSymbol '[' = true) (hindex : IsExpression inner index)
      (hc : closing.isSymbol ']' = true) :
      IsSuffixed (used ++ opening :: inner ++ [closing])
        (.mk .indexExpression opening [object, index])

inductive IsPrimary : List Token → Node → Prop
  | literal {t : Token} {kind : NodeKind} (h : IsLiteral t kind) : IsPrimary [t] (.leaf kind t)
  | name {t : Token} (h : IsName t) : IsPrimary [t] (.leaf .identifier t)
  | parentheses {opening closing : Token} {used : List Token} {node : Node}
      (ho : opening.isSymbol '(' = true) (h : IsExpression used node)
      (hc : closing.isSymbol ')' = true) : IsPrimary (opening :: used ++ [closing]) node

end

/-! ### Statements -/

mutual

/-- A list of initialisers in braces; a comma may follow the last one. -/
inductive IsBraced : List Token → Node → Prop
  | empty {opening closing : Token} (ho : opening.isSymbol '{' = true)
      (hc : closing.isSymbol '}' = true) :
      IsBraced [opening, closing] (.mk .bracedInitList opening [])
  | list {opening closing : Token} {used : List Token} {nodes : List Node}
      (ho : opening.isSymbol '{' = true) (h : Separated IsInitialiser used nodes)
      (hc : closing.isSymbol '}' = true) :
      IsBraced (opening :: used ++ [closing]) (.mk .bracedInitList opening nodes)
  | trailing {opening comma closing : Token} {used : List Token} {nodes : List Node}
      (ho : opening.isSymbol '{' = true) (h : Separated IsInitialiser used nodes)
      (hcomma : comma.isSymbol ',' = true) (hc : closing.isSymbol '}' = true) :
      IsBraced (opening :: used ++ [comma, closing]) (.mk .bracedInitList opening nodes)

inductive IsInitialiser : List Token → Node → Prop
  | braced {used : List Token} {node : Node} (h : IsBraced used node) : IsInitialiser used node
  | expression {used : List Token} {node : Node} (h : IsExpression beside used node) :
      IsInitialiser used node

end

/-- Qualifiers, a type name and a name, which parameters, variables and functions begin with. -/
inductive IsTyped : List Token → Token → List Node → Prop
  | mk {words used : List Token} {type : Node} {name : Token} (hwords : ∀ t ∈ words, IsQualifier t)
      (htype : IsTypename used type) (hname : IsName name) :
      IsTyped (words ++ used ++ [name]) name
        (words.map (.leaf .typeQualifier) ++ [type, .leaf .identifier name])

inductive IsVariable : List Token → Node → Prop
  | plain {used : List Token} {name ending : Token} {nodes : List Node} (h : IsTyped used name nodes)
      (hending : ending.isSymbol ';' = true) :
      IsVariable (used ++ [ending]) (.mk .variableDeclaration name nodes)
  | initialised {used value : List Token} {name equals ending : Token} {nodes : List Node}
      {initial : Node} (h : IsTyped used name nodes) (hequals : equals.isSymbol '=' = true)
      (hvalue : IsInitialiser beside value initial) (hending : ending.isSymbol ';' = true) :
      IsVariable (used ++ equals :: value ++ [ending])
        (.mk .variableDeclaration name (nodes ++ [initial]))

mutual

inductive IsStatement : List Token → Node → Prop
  | empty {t : Token} (h : t.isSymbol ';' = true) : IsStatement [t] (.leaf .emptyStatement t)
  | block {used : List Token} {node : Node} (h : IsBlock used node) : IsStatement used node
  | returnNothing {word ending : Token} (hword : word.isWord "return" = true)
      (hending : ending.isSymbol ';' = true) :
      IsStatement [word, ending] (.mk .returnStatement word [])
  | returnValue {word ending : Token} {used : List Token} {node : Node}
      (hword : word.isWord "return" = true) (h : IsExpression beside used node)
      (hending : ending.isSymbol ';' = true) :
      IsStatement (word :: used ++ [ending]) (.mk .returnStatement word [node])
  | variable {used : List Token} {node : Node} (h : IsVariable beside used node) : IsStatement used node
  | expression {t ending : Token} {used : List Token} {node : Node} (h : IsExpression beside (t :: used) node)
      (hending : ending.isSymbol ';' = true) :
      IsStatement (t :: used ++ [ending]) (.mk .expressionStatement t [node])

inductive IsBlock : List Token → Node → Prop
  | mk {opening closing : Token} {used : List Token} {nodes : List Node}
      (ho : opening.isSymbol '{' = true) (h : Sequence IsStatement used nodes)
      (hc : closing.isSymbol '}' = true) :
      IsBlock (opening :: used ++ [closing]) (.mk .compoundStatement opening nodes)

end

/-! ### Declarations -/

inductive IsAttribute : List Token → Node → Prop
  | bare {name : Token} (h : IsName name) : IsAttribute [name] (.mk .attr name [])
  | applied {name : Token} {used : List Token} {arguments : Node} (h : IsName name)
      (hargs : Enclosed (IsExpression beside) .argumentList used arguments) :
      IsAttribute (name :: used) (.mk .attr name [arguments])

inductive IsAttributes : List Token → Node → Prop
  | mk {first second last final : Token} {used : List Token} {nodes : List Node}
      (hfirst : first.isSymbol '[' = true) (hsecond : second.isSymbol '[' = true)
      (h : Separated (IsAttribute beside) used nodes) (hlast : last.isSymbol ']' = true)
      (hfinal : final.isSymbol ']' = true) :
      IsAttributes (first :: second :: used ++ [last, final])
        (.mk .attributeList (joinTokens first second) nodes)

inductive IsParameter : List Token → Node → Prop
  | mk {used : List Token} {name : Token} {nodes : List Node} (h : IsTyped used name nodes) :
      IsParameter used (.mk .parameter name nodes)

/-- The body of a function, or the semicolon in its place. -/
inductive IsBody : List Token → List Node → Prop
  | block {used : List Token} {node : Node} (h : IsBlock beside used node) : IsBody used [node]
  | none {ending : Token} (h : ending.isSymbol ';' = true) : IsBody [ending] []

/-- An attribute list that may be absent. -/
inductive IsOptionalAttributes : List Token → List Node → Prop
  | some {used : List Token} {node : Node} (h : IsAttributes beside used node) :
      IsOptionalAttributes used [node]
  | none : IsOptionalAttributes [] []

inductive IsFunction : List Token → Node → Prop
  | mk {attributed typed listed bodied : List Token} {attributes nodes body : List Node}
      {parameters : Node} {name : Token} (hattributes : IsOptionalAttributes beside attributed attributes)
      (htyped : IsTyped typed name nodes)
      (hparameters : Enclosed IsParameter .parameterList listed parameters)
      (hbody : IsBody beside bodied body) :
      IsFunction (attributed ++ typed ++ listed ++ bodied)
        (.mk .functionDeclaration name (attributes ++ nodes ++ [parameters] ++ body))

/-- A whole program text. -/
inductive IsUnit : List Token → Node → Prop
  | mk {used : List Token} {nodes : List Node} (h : Sequence (IsFunction beside) used nodes) :
      IsUnit used (.mk .programUnit (used.head?.getD ⟨.unknown, Span.origin, ""⟩) nodes)

end Shading.Grammar

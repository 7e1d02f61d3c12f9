import Shading.Grammar.Name
import Shading.Grammar.Operator

/-! # Program texts as syntax, and how they are written

The types below hold exactly the program texts of the grammar: names are no keywords, a list of
attributes is written only if it has members, and operators are those of the language.  Each has its
`lexemes`, what is written for it in source order; its `shape`, the tree it should be read as; and its
`nesting`, how deeply productions nest when it is read.

An operand that is itself a unary, binary or assignment expression is written in parentheses. -/

namespace Shading

/-! ### Lexemes and shapes -/

/-- What is written of a token: its class, its text, and whether it makes up one operator with the
token after it. -/
structure Lexeme where
  kind : TokenClass
  text : String
  joined : Bool := false
deriving DecidableEq, Repr, Inhabited

namespace Lexeme

/-- A symbol that stands for itself. -/
def symbol (c : Char) : Lexeme := { kind := .symbol, text := String.ofList [c] }

/-- A symbol that makes up an operator with the next one. -/
def joining (c : Char) : Lexeme := { kind := .symbol, text := String.ofList [c], joined := true }

def word (text : String) : Lexeme := { kind := .identifier, text := text }

/-- Lexemes of several things with commas between them. -/
def commaSeparated : List (List Lexeme) → List Lexeme
  | [] => []
  | [last] => last
  | first :: second :: rest => first ++ symbol ',' :: commaSeparated (second :: rest)

/-- Lexemes between two symbols. -/
def enclosed (opening closing : Char) (inner : List Lexeme) : List Lexeme :=
  symbol opening :: inner ++ [symbol closing]

/-- The text of the first lexeme. -/
def headText (lexemes : List Lexeme) : String := (lexemes.head?.map Lexeme.text).getD ""

end Lexeme

/-- A tree without places: kinds, texts and children. -/
inductive Shape where
  | mk (kind : NodeKind) (text : String) (children : List Shape)
deriving Repr, Inhabited

def Shape.leaf (kind : NodeKind) (text : String) : Shape := mk kind text []

mutual

/-- The tree without the places of its tokens. -/
def Node.shape : Node → Shape
  | .mk kind token children => .mk kind token.text (Node.shapes children)

def Node.shapes : List Node → List Shape
  | [] => []
  | node :: rest => node.shape :: Node.shapes rest

end

theorem Node.shapes_eq_map : ∀ nodes : List Node, Node.shapes nodes = nodes.map Node.shape
  | [] => rfl
  | node :: rest => congrArg (node.shape :: ·) (Node.shapes_eq_map rest)

@[simp] theorem Node.shape_mk (kind : NodeKind) (token : Token) (children : List Node) :
    (Node.mk kind token children).shape = .mk kind token.text (children.map Node.shape) := by
  rw [Node.shape, Node.shapes_eq_map]

@[simp] theorem Node.shape_leaf (kind : NodeKind) (token : Token) :
    (Node.leaf kind token).shape = .leaf kind token.text := rfl

namespace Syntax

open Lexeme

/-! ### Words -/

/-- A name. -/
structure Name where
  text : String
  notKeyword : text ∉ Grammar.keywords
deriving Repr

/-- A word that qualifies a type. -/
structure Qualifier where
  text : String
  isQualifier : text ∈ Grammar.qualifiers
deriving Repr

def Qualifier.shape (q : Qualifier) : Shape := .leaf .typeQualifier q.text

/-- A literal; integers and floating-point numbers come in several classes. -/
inductive Literal where
  | integer (kind : TokenClass) (text : String) (h : kind.isInteger = true)
  | float (kind : TokenClass) (text : String) (h : kind.isFloat = true)
  | string (text : String)
  | bool (value : Bool)

namespace Literal

def lexeme : Literal → Lexeme
  | .integer kind text _ => { kind := kind, text := text }
  | .float kind text _ => { kind := kind, text := text }
  | .string text => { kind := .string, text := text }
  | .bool value => word (if value then "true" else "false")

def shape (l : Literal) : Shape :=
  match l with
  | .integer _ text _ => .leaf .integerLiteral text
  | .float _ text _ => .leaf .floatLiteral text
  | .string text => .leaf .stringLiteral text
  | .bool _ => .leaf .boolLiteral l.lexeme.text

end Literal

/-- A sign before an expression. -/
inductive Sign where
  | minus
  | plus
  | not

def Sign.char : Sign → Char
  | .minus => '-'
  | .plus => '+'
  | .not => '!'

/-- A binary operator. -/
inductive Operator where
  | or | and | eq | ne | lt | gt | le | ge | add | sub | mul | div | rem

namespace Operator

/-- The one or two characters of the operator. -/
def spelling : Operator → Char × Option Char
  | .or => ('|', some '|')
  | .and => ('&', some '&')
  | .eq => ('=', some '=')
  | .ne => ('!', some '=')
  | .lt => ('<', none)
  | .gt => ('>', none)
  | .le => ('<', some '=')
  | .ge => ('>', some '=')
  | .add => ('+', none)
  | .sub => ('-', none)
  | .mul => ('*', none)
  | .div => ('/', none)
  | .rem => ('%', none)

def lexemes (op : Operator) : List Lexeme :=
  match op.spelling with
  | (c, none) => [symbol c]
  | (c, some d) => [joining c, symbol d]

def text (op : Operator) : String :=
  match op.spelling with
  | (c, none) => String.ofList [c]
  | (c, some d) => String.ofList [c, d]

/-- How tightly the operator binds, from one for the loosest. -/
def precedence : Operator → Nat
  | .or => 1
  | .and => 2
  | .eq | .ne => 3
  | .lt | .gt | .le | .ge => 4
  | .add | .sub => 5
  | .mul | .div | .rem => 6

theorem one_le_precedence (op : Operator) : 1 ≤ op.precedence := by cases op <;> decide

theorem precedence_le_levels (op : Operator) : op.precedence ≤ Grammar.precedenceLevels := by
  cases op <;> decide

end Operator

/-! ### Type names -/

inductive Typename where
  | mk (name : Name) (arguments : List Typename)

namespace Typename

mutual

def lexemes : Typename → List Lexeme
  | .mk name [] => [word name.text]
  | .mk name (first :: rest) =>
    word name.text :: enclosed '<' '>' (commaSeparated (lexemesAll (first :: rest)))

def lexemesAll : List Typename → List (List Lexeme)
  | [] => []
  | type :: rest => type.lexemes :: lexemesAll rest

end

mutual

def shape : Typename → Shape
  | .mk name arguments => .mk .typename name.text (shapeAll arguments)

def shapeAll : List Typename → List Shape
  | [] => []
  | type :: rest => type.shape :: shapeAll rest

end

mutual

/-- How deeply type arguments nest. -/
def depth : Typename → Nat
  | .mk _ arguments => depthAll arguments

/-- One more than the deepest of several type names; zero if there is none. -/
def depthAll : List Typename → Nat
  | [] => 0
  | type :: rest => max (type.depth + 1) (depthAll rest)

end

@[simp] theorem lexemesAll_eq_map : ∀ types : List Typename, lexemesAll types = types.map lexemes
  | [] => rfl
  | type :: rest => congrArg (type.lexemes :: ·) (lexemesAll_eq_map rest)

@[simp] theorem shapeAll_eq_map : ∀ types : List Typename, shapeAll types = types.map shape
  | [] => rfl
  | type :: rest => congrArg (type.shape :: ·) (shapeAll_eq_map rest)

/-- What is written for type arguments: nothing if there are none. -/
def argumentLexemes : List Typename → List Lexeme
  | [] => []
  | first :: rest => enclosed '<' '>' (commaSeparated ((first :: rest).map lexemes))

theorem lexemes_mk (name : Name) (arguments : List Typename) :
    (mk name arguments).lexemes = word name.text :: argumentLexemes arguments := by
  cases arguments with
  | nil => rfl
  | cons first rest => simp [lexemes, argumentLexemes]

theorem depth_lt_depthAll : ∀ {types : List Typename} {type : Typename}, type ∈ types →
    type.depth < depthAll types
  | _ :: _, _, .head _ => Nat.le_max_left _ _
  | _ :: _, _, .tail _ h => Nat.lt_of_lt_of_le (depth_lt_depthAll h) (Nat.le_max_right _ _)

end Typename

/-! ### Expressions -/

inductive Expression where
  | literal (value : Literal)
  | name (spelling : Name)
  | call (callee : Expression) (arguments : List Expression)
  | member (object : Expression) (field : Name)
  | index (object place : Expression)
  | unary (sign : Sign) (operand : Expression)
  | binary (op : Operator) (left right : Expression)
  | assignment (target value : Expression)

namespace Expression

/-- The expression is written in parentheses where it is an operand. -/
def isCompound : Expression → Bool
  | .unary _ _ | .binary _ _ _ | .assignment _ _ => true
  | _ => false

/-- What is written for an operand with the given lexemes. -/
def wrap (compound : Bool) (lexemes : List Lexeme) : List Lexeme :=
  if compound then enclosed '(' ')' lexemes else lexemes

mutual

def lexemes : Expression → List Lexeme
  | .literal value => [value.lexeme]
  | .name spelling => [word spelling.text]
  | .call callee arguments =>
    wrap callee.isCompound callee.lexemes ++
      enclosed '(' ')' (commaSeparated (lexemesAll arguments))
  | .member object field =>
    wrap object.isCompound object.lexemes ++ [symbol '.', word field.text]
  | .index object place =>
    wrap object.isCompound object.lexemes ++ enclosed '[' ']' place.lexemes
  | .unary sign operand => symbol sign.char :: wrap operand.isCompound operand.lexemes
  | .binary op left right =>
    wrap left.isCompound left.lexemes ++ (op.lexemes ++ wrap right.isCompound right.lexemes)
  | .assignment target value =>
    wrap target.isCompound target.lexemes ++
      symbol '=' :: wrap value.isCompound value.lexemes

def lexemesAll : List Expression → List (List Lexeme)
  | [] => []
  | e :: rest => e.lexemes :: lexemesAll rest

end

/-- What is written for the expression as an operand. -/
def operandLexemes (e : Expression) : List Lexeme := wrap e.isCompound e.lexemes

mutual

def shape : Expression → Shape
  | .literal value => value.shape
  | .name spelling => .leaf .identifier spelling.text
  | .call callee arguments =>
    .mk .callExpression "(" [callee.shape, .mk .argumentList "(" (shapeAll arguments)]
  | .member object field =>
    .mk .memberExpression "." [object.shape, .leaf .identifier field.text]
  | .index object place => .mk .indexExpression "[" [object.shape, place.shape]
  | .unary sign operand => .mk .unaryExpression (String.ofList [sign.char]) [operand.shape]
  | .binary op left right => .mk .binaryExpression op.text [left.shape, right.shape]
  | .assignment target value => .mk .assignmentExpression "=" [target.shape, value.shape]

def shapeAll : List Expression → List Shape
  | [] => []
  | e :: rest => e.shape :: shapeAll rest

end

/-- Parentheses around an operand nest it one deeper. -/
def wrapNesting (compound : Bool) (nesting : Nat) : Nat := if compound then nesting + 1 else nesting

mutual

/-- How deeply expressions, in parentheses or not, and signs nest within an expression. -/
def nesting : Expression → Nat
  | .literal _ => 0
  | .name _ => 0
  | .call callee arguments =>
    max (wrapNesting callee.isCompound callee.nesting) (nestingAll arguments)
  | .member object _ => wrapNesting object.isCompound object.nesting
  | .index object place =>
    max (wrapNesting object.isCompound object.nesting) (place.nesting + 1)
  | .unary _ operand => wrapNesting operand.isCompound operand.nesting + 1
  | .binary _ left right =>
    max (wrapNesting left.isCompound left.nesting) (wrapNesting right.isCompound right.nesting)
  | .assignment target value =>
    max (wrapNesting target.isCompound target.nesting)
      (wrapNesting value.isCompound value.nesting + 1)

/-- One more than the deepest nesting within several expressions; zero if there is none. -/
def nestingAll : List Expression → Nat
  | [] => 0
  | e :: rest => max (e.nesting + 1) (nestingAll rest)

end

def operandNesting (e : Expression) : Nat := wrapNesting e.isCompound e.nesting

@[simp] theorem lexemesAll_eq_map : ∀ es : List Expression, lexemesAll es = es.map lexemes
  | [] => rfl
  | e :: rest => congrArg (e.lexemes :: ·) (lexemesAll_eq_map rest)

@[simp] theorem shapeAll_eq_map : ∀ es : List Expression, shapeAll es = es.map shape
  | [] => rfl
  | e :: rest => congrArg (e.shape :: ·) (shapeAll_eq_map rest)

theorem nesting_lt_nestingAll : ∀ {es : List Expression} {e : Expression}, e ∈ es →
    e.nesting < nestingAll es
  | _ :: _, _, .head _ => Nat.le_max_left _ _
  | _ :: _, _, .tail _ h => Nat.lt_of_lt_of_le (nesting_lt_nestingAll h) (Nat.le_max_right _ _)

end Expression

/-! ### Statements -/

inductive Initialiser where
  | expression (e : Expression)
  | braced (items : List Initialiser)

namespace Initialiser

mutual

def lexemes : Initialiser → List Lexeme
  | .expression e => e.lexemes
  | .braced items => enclosed '{' '}' (commaSeparated (lexemesAll items))

def lexemesAll : List Initialiser → List (List Lexeme)
  | [] => []
  | item :: rest => item.lexemes :: lexemesAll rest

end

mutual

def shape : Initialiser → Shape
  | .expression e => e.shape
  | .braced items => .mk .bracedInitList "\x7b" (shapeAll items)

def shapeAll : List Initialiser → List Shape
  | [] => []
  | item :: rest => item.shape :: shapeAll rest

end

mutual

/-- How deeply braced lists and expressions nest. -/
def nesting : Initialiser → Nat
  | .expression e => e.nesting + 1
  | .braced items => nestingAll items + 1

def nestingAll : List Initialiser → Nat
  | [] => 0
  | item :: rest => max item.nesting (nestingAll rest)

end

@[simp] theorem lexemesAll_eq_map : ∀ items : List Initialiser, lexemesAll items = items.map lexemes
  | [] => rfl
  | item :: rest => congrArg (item.lexemes :: ·) (lexemesAll_eq_map rest)

@[simp] theorem shapeAll_eq_map : ∀ items : List Initialiser, shapeAll items = items.map shape
  | [] => rfl
  | item :: rest => congrArg (item.shape :: ·) (shapeAll_eq_map rest)

theorem nesting_le_nestingAll : ∀ {items : List Initialiser} {item : Initialiser}, item ∈ items →
    item.nesting ≤ nestingAll items
  | _ :: _, _, .head _ => Nat.le_max_left _ _
  | _ :: _, _, .tail _ h => Nat.le_trans (nesting_le_nestingAll h) (Nat.le_max_right _ _)

end Initialiser

/-- Qualifiers, a type name and a name, which parameters, variables and functions begin with. -/
structure Typed where
  qualifiers : List Qualifier
  type : Typename
  name : Name

namespace Typed

def lexemes (d : Typed) : List Lexeme :=
  d.qualifiers.map (fun q => word q.text) ++ (d.type.lexemes ++ [word d.name.text])

def shapes (d : Typed) : List Shape :=
  d.qualifiers.map Qualifier.shape ++ [d.type.shape, .leaf .identifier d.name.text]

end Typed

inductive Statement where
  | empty
  | block (statements : List Statement)
  | ret (value : Option Expression)
  | declaration (declared : Typed) (value : Option Initialiser)
  | expression (e : Expression)

namespace Statement

mutual

def lexemes : Statement → List Lexeme
  | .empty => [symbol ';']
  | .block statements => enclosed '{' '}' (lexemesAll statements)
  | .ret none => [word "return", symbol ';']
  | .ret (some e) => word "return" :: e.lexemes ++ [symbol ';']
  | .declaration declared none => declared.lexemes ++ [symbol ';']
  | .declaration declared (some value) =>
    declared.lexemes ++ symbol '=' :: value.lexemes ++ [symbol ';']
  | .expression e => e.lexemes ++ [symbol ';']

/-- Statements are written one after another. -/
def lexemesAll : List Statement → List Lexeme
  | [] => []
  | s :: rest => s.lexemes ++ lexemesAll rest

end

mutual

def shape : Statement → Shape
  | .empty => .leaf .emptyStatement ";"
  | .block statements => .mk .compoundStatement "\x7b" (shapeAll statements)
  | .ret value => .mk .returnStatement "return" (value.toList.map Expression.shape)
  | .declaration declared value =>
    .mk .variableDeclaration declared.name.text
      (declared.shapes ++ value.toList.map Initialiser.shape)
  | .expression e => .mk .expressionStatement (headText e.lexemes) [e.shape]

def shapeAll : List Statement → List Shape
  | [] => []
  | s :: rest => s.shape :: shapeAll rest

end

mutual

/-- How deeply blocks, braced lists and expressions nest. -/
def nesting : Statement → Nat
  | .empty => 0
  | .block statements => nestingAll statements + 1
  | .ret none => 0
  | .ret (some e) => e.nesting + 1
  | .declaration _ none => 0
  | .declaration _ (some value) => value.nesting
  | .expression e => e.nesting + 1

def nestingAll : List Statement → Nat
  | [] => 0
  | s :: rest => max s.nesting (nestingAll rest)

end

mutual

/-- How deeply the type arguments of its variables nest. -/
def typeDepth : Statement → Nat
  | .block statements => typeDepthAll statements
  | .declaration declared _ => declared.type.depth
  | _ => 0

def typeDepthAll : List Statement → Nat
  | [] => 0
  | s :: rest => max s.typeDepth (typeDepthAll rest)

end

@[simp] theorem shapeAll_eq_map : ∀ statements : List Statement,
    shapeAll statements = statements.map shape
  | [] => rfl
  | s :: rest => congrArg (s.shape :: ·) (shapeAll_eq_map rest)

@[simp] theorem lexemesAll_eq_flatMap : ∀ statements : List Statement,
    lexemesAll statements = statements.flatMap lexemes
  | [] => rfl
  | s :: rest => congrArg (s.lexemes ++ ·) (lexemesAll_eq_flatMap rest)

/-- What is written for the value that a variable may have. -/
def valueLexemes : Option Initialiser → List Lexeme
  | none => []
  | some value => symbol '=' :: value.lexemes

theorem lexemes_declaration (declared : Typed) (value? : Option Initialiser) :
    (declaration declared value?).lexemes =
      (declared.lexemes ++ valueLexemes value?) ++ [symbol ';'] := by
  cases value? <;> simp [lexemes, valueLexemes]

theorem lexemes_ret (value? : Option Expression) :
    ∃ more, (ret value?).lexemes = word "return" :: more := by
  cases value? <;> exact ⟨_, rfl⟩

theorem lexemes_ne_nil (s : Statement) : s.lexemes ≠ [] := by
  cases s with
  | empty => exact List.cons_ne_nil _ _
  | block statements => exact List.cons_ne_nil _ _
  | ret value? =>
      obtain ⟨more, h⟩ := lexemes_ret value?
      rw [h]
      exact List.cons_ne_nil _ _
  | declaration declared value? =>
      rw [lexemes_declaration]
      exact List.append_ne_nil_of_right_ne_nil _ (List.cons_ne_nil _ _)
  | expression e => exact List.append_ne_nil_of_right_ne_nil _ (List.cons_ne_nil _ _)

theorem nesting_le_nestingAll : ∀ {statements : List Statement} {s : Statement}, s ∈ statements →
    s.nesting ≤ nestingAll statements
  | _ :: _, _, .head _ => Nat.le_max_left _ _
  | _ :: _, _, .tail _ h => Nat.le_trans (nesting_le_nestingAll h) (Nat.le_max_right _ _)

theorem typeDepth_le_typeDepthAll : ∀ {statements : List Statement} {s : Statement},
    s ∈ statements → s.typeDepth ≤ typeDepthAll statements
  | _ :: _, _, .head _ => Nat.le_max_left _ _
  | _ :: _, _, .tail _ h => Nat.le_trans (typeDepth_le_typeDepthAll h) (Nat.le_max_right _ _)

end Statement

/-! ### Declarations -/

structure Attribute where
  name : Name
  arguments : Option (List Expression)

namespace Attribute

def lexemes (a : Attribute) : List Lexeme :=
  match a.arguments with
  | none => [word a.name.text]
  | some arguments =>
    word a.name.text :: enclosed '(' ')' (commaSeparated (arguments.map Expression.lexemes))

def shape (a : Attribute) : Shape :=
  .mk .attr a.name.text
    (a.arguments.toList.map fun arguments =>
      .mk .argumentList "(" (arguments.map Expression.shape))

def nesting (a : Attribute) : Nat := (a.arguments.map Expression.nestingAll).getD 0

end Attribute

/-- A function.  Its attributes are written as a list unless there are none. -/
structure Function where
  attributes : List Attribute
  declared : Typed
  parameters : List Typed
  body : Option (List Statement)

namespace Function

def attributeLexemes (f : Function) : List Lexeme :=
  if f.attributes.isEmpty then []
  else symbol '[' :: enclosed '[' ']' (commaSeparated (f.attributes.map Attribute.lexemes)) ++
    [symbol ']']

def bodyLexemes (f : Function) : List Lexeme :=
  match f.body with
  | none => [symbol ';']
  | some statements => (Statement.block statements).lexemes

def lexemes (f : Function) : List Lexeme :=
  f.attributeLexemes ++ (f.declared.lexemes ++
    (enclosed '(' ')' (commaSeparated (f.parameters.map Typed.lexemes)) ++ f.bodyLexemes))

def attributeShapes (f : Function) : List Shape :=
  if f.attributes.isEmpty then []
  else [.mk .attributeList "[[" (f.attributes.map Attribute.shape)]

def parameterShape (d : Typed) : Shape := .mk .parameter d.name.text d.shapes

def shape (f : Function) : Shape :=
  .mk .functionDeclaration f.declared.name.text
    (f.attributeShapes ++ f.declared.shapes ++
      [.mk .parameterList "(" (f.parameters.map parameterShape)] ++
      f.body.toList.map fun statements => (Statement.block statements).shape)

/-- Nothing in the function nests more deeply than can be read. -/
structure Fits (f : Function) : Prop where
  attributes : ∀ a ∈ f.attributes, a.nesting ≤ Grammar.nestingLimit
  type : f.declared.type.depth ≤ Grammar.nestingLimit
  parameters : ∀ d ∈ f.parameters, d.type.depth ≤ Grammar.nestingLimit
  nesting : ∀ statements ∈ f.body, (Statement.block statements).nesting ≤ Grammar.nestingLimit
  typeDepth : ∀ statements ∈ f.body, Statement.typeDepthAll statements ≤ Grammar.nestingLimit

instance (f : Function) : Decidable f.Fits :=
  decidable_of_iff ((∀ a ∈ f.attributes, a.nesting ≤ Grammar.nestingLimit) ∧
      f.declared.type.depth ≤ Grammar.nestingLimit ∧
      (∀ d ∈ f.parameters, d.type.depth ≤ Grammar.nestingLimit) ∧
      (∀ statements ∈ f.body, (Statement.block statements).nesting ≤ Grammar.nestingLimit) ∧
      ∀ statements ∈ f.body, Statement.typeDepthAll statements ≤ Grammar.nestingLimit)
    ⟨fun ⟨ha, ht, hp, hn, hd⟩ => ⟨ha, ht, hp, hn, hd⟩,
      fun ⟨ha, ht, hp, hn, hd⟩ => ⟨ha, ht, hp, hn, hd⟩⟩

end Function

/-- A whole program text. -/
structure Program where
  functions : List Function

namespace Program

def lexemes (p : Program) : List Lexeme := p.functions.flatMap Function.lexemes

def shape (p : Program) : Shape :=
  .mk .programUnit (headText p.lexemes) (p.functions.map Function.shape)

/-- Nothing in the program text nests more deeply than can be read. -/
def Fits (p : Program) : Prop := ∀ f ∈ p.functions, f.Fits

instance (p : Program) : Decidable p.Fits :=
  inferInstanceAs (Decidable (∀ f ∈ p.functions, f.Fits))

end Program

end Syntax

end Shading

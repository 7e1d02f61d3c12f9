import Mathlib.Data.List.Basic
import Shading.Tree.Node

/-! # What stands below each kind of node

The kind of a node fixes how its children are laid out.  `NodeKind.places` gives the layout place by
place: which kinds may stand there, and whether there is one child, at most one or any number.  A
reader of the tree may rely on it whatever the program text was, since what could not be read leaves
a stand-in in its place or nothing at all. -/

namespace Shading

/-! ### Layouts -/

/-- A place for children, with the kinds that may stand in it. -/
inductive Place where
  /-- Exactly one child. -/
  | one (kinds : List NodeKind)
  /-- At most one child. -/
  | optional (kinds : List NodeKind)
  /-- Any number of children. -/
  | many (kinds : List NodeKind)
deriving DecidableEq, Repr

namespace NodeKind

/-- What may stand where an expression is due. -/
def expressions : List NodeKind :=
  [.integerLiteral, .floatLiteral, .boolLiteral, .stringLiteral, .identifier, .binaryExpression,
    .unaryExpression, .assignmentExpression, .callExpression, .memberExpression, .indexExpression,
    .unknown]

/-- What may stand where an initialiser is due. -/
def initialisers : List NodeKind := .bracedInitList :: expressions

/-- What may stand where a statement is due. -/
def statements : List NodeKind :=
  [.emptyStatement, .compoundStatement, .returnStatement, .expressionStatement,
    .variableDeclaration, .unknown]

/-- The places for children below a node, in order. -/
def places : NodeKind → List Place
  | .programUnit => [.many [.functionDeclaration]]
  | .functionDeclaration =>
    [.optional [.attributeList], .many [.typeQualifier], .one [.typename], .one [.identifier],
      .one [.parameterList], .optional [.compoundStatement]]
  | .attributeList => [.many [.attr]]
  | .attr => [.optional [.argumentList]]
  | .parameterList => [.many [.parameter]]
  | .parameter => [.many [.typeQualifier], .one [.typename], .one [.identifier]]
  | .typename => [.many [.typename]]
  | .argumentList => [.many expressions]
  | .bracedInitList => [.many initialisers]
  | .compoundStatement => [.many statements]
  | .returnStatement => [.optional expressions]
  | .expressionStatement => [.one expressions]
  | .variableDeclaration =>
    [.many [.typeQualifier], .one [.typename], .one [.identifier], .optional initialisers]
  | .binaryExpression | .assignmentExpression | .indexExpression =>
    [.one expressions, .one expressions]
  | .unaryExpression => [.one expressions]
  | .callExpression => [.one expressions, .one [.argumentList]]
  | .memberExpression => [.one expressions, .one [.identifier, .unknown]]
  | .integerLiteral | .floatLiteral | .boolLiteral | .stringLiteral | .identifier | .typeQualifier
  | .emptyStatement | .unknown => []

end NodeKind

/-- Children of the given kinds fill the places, from left to right. -/
inductive Fills : List Place → List NodeKind → Prop
  | nil : Fills [] []
  | one {kinds places kind rest} (hkind : kind ∈ kinds) (h : Fills places rest) :
      Fills (.one kinds :: places) (kind :: rest)
  | absent {kinds places rest} (h : Fills places rest) : Fills (.optional kinds :: places) rest
  | present {kinds places kind rest} (hkind : kind ∈ kinds) (h : Fills places rest) :
      Fills (.optional kinds :: places) (kind :: rest)
  | noMore {kinds places rest} (h : Fills places rest) : Fills (.many kinds :: places) rest
  | another {kinds places kind rest} (hkind : kind ∈ kinds) (h : Fills (.many kinds :: places) rest) :
      Fills (.many kinds :: places) (kind :: rest)

/-- Places side by side are filled by children side by side. -/
theorem Fills.append {left right : List Place} {first second : List NodeKind}
    (hleft : Fills left first) (hright : Fills right second) :
    Fills (left ++ right) (first ++ second) := by
  induction hleft with
  | nil => exact hright
  | one hkind _ ih => exact .one hkind ih
  | absent _ ih => exact .absent ih
  | present hkind _ ih => exact .present hkind ih
  | noMore _ ih => exact .noMore ih
  | another hkind _ ih => exact .another hkind ih

theorem Fills.many {kinds all : List NodeKind} (h : ∀ kind ∈ all, kind ∈ kinds) :
    Fills [.many kinds] all := by
  induction all with
  | nil => exact .noMore .nil
  | cons kind rest ih =>
      obtain ⟨hkind, hrest⟩ := List.forall_mem_cons.mp h
      exact .another hkind (ih hrest)

theorem Fills.mem_many {kinds all : List NodeKind} (h : Fills [.many kinds] all) :
    ∀ kind ∈ all, kind ∈ kinds := by
  generalize hplaces : [Place.many kinds] = places at h
  induction h with
  | nil => simp
  | one => cases hplaces
  | absent => cases hplaces
  | present => cases hplaces
  | noMore h =>
      cases hplaces
      cases h
      simp
  | another hkind _ ih =>
      cases hplaces
      exact List.forall_mem_cons.mpr ⟨hkind, ih rfl⟩

namespace Node

/-- The children of the node, and of every node below it, fill the places for them. -/
def WellBuilt (n : Node) : Prop :=
  ∀ entry ∈ n.preorder, Fills entry.2.kind.places (entry.2.children.map kind)

mutual

/-- The depth that nodes are listed with does not matter for what holds of all of them. -/
theorem wellBuilt_preorderAt (depth : Nat) (n : Node) :
    (∀ entry ∈ n.preorderAt depth, Fills entry.2.kind.places (entry.2.children.map kind)) ↔
      n.WellBuilt := by
  cases n with
  | mk kind token children =>
      have hchildren := wellBuilt_preorderAll (depth + 1) children
      have hchildren' := wellBuilt_preorderAll 1 children
      simp only [WellBuilt, preorder, preorderAt, List.forall_mem_cons, Nat.zero_add]
      rw [hchildren, hchildren']

theorem wellBuilt_preorderAll (depth : Nat) (nodes : List Node) :
    (∀ entry ∈ preorderAll depth nodes,
        Fills entry.2.kind.places (entry.2.children.map kind)) ↔
      ∀ n ∈ nodes, n.WellBuilt := by
  cases nodes with
  | nil => simp [preorderAll]
  | cons n rest =>
      rw [preorderAll, List.forall_mem_append, wellBuilt_preorderAt, wellBuilt_preorderAll,
        List.forall_mem_cons]

end

theorem wellBuilt_mk {kind : NodeKind} {token : Token} {children : List Node} :
    (mk kind token children).WellBuilt ↔
      Fills kind.places (children.map Node.kind) ∧ ∀ n ∈ children, n.WellBuilt := by
  rw [WellBuilt, preorder, preorderAt, List.forall_mem_cons, wellBuilt_preorderAll]
  rfl

end Node

end Shading

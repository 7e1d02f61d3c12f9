import Mathlib.Data.List.Infix
import Shading.Proofs.Grammar.Syntax

/-! # Measures of trees

How high a tree is (`Node.height`), how deep it nests if the steps from an operator, a call, a member
access or an index to what it is applied to do not count (`Node.nesting`), and how many of its nodes stand
in for something that could not be read (`Node.standIns`). -/

namespace Shading

/-! ### Measures of trees -/

/-- Nodes that are made in a loop, around what was read before. -/
def NodeKind.isChain : NodeKind → Bool
  | .binaryExpression | .callExpression | .memberExpression | .indexExpression => true
  | _ => false

namespace Node

mutual

/-- The number of steps down to the deepest node. -/
def height : Node → Nat
  | mk _ _ children => heightAll children

/-- One more than the greatest height of several trees; zero if there is none. -/
def heightAll : List Node → Nat
  | [] => 0
  | n :: rest => max (height n + 1) (heightAll rest)

end

mutual

/-- The greatest number of steps down a tree, where a step from a chain to its first child does not
count. -/
def nesting : Node → Nat
  | mk _ _ [] => 0
  | mk kind _ (first :: rest) =>
    max (if kind.isChain then nesting first else nesting first + 1) (nestingAll rest)

/-- One more than the greatest nesting of several trees; zero if there is none. -/
def nestingAll : List Node → Nat
  | [] => 0
  | n :: rest => max (nesting n + 1) (nestingAll rest)

end

theorem heightAll_le {nodes : List Node} {bound : Nat} :
    heightAll nodes ≤ bound ↔ ∀ n ∈ nodes, n.height + 1 ≤ bound := by
  induction nodes with
  | nil => simp [heightAll]
  | cons n rest ih => rw [heightAll, Nat.max_le, ih, List.forall_mem_cons]

theorem nestingAll_le {nodes : List Node} {bound : Nat} :
    nestingAll nodes ≤ bound ↔ ∀ n ∈ nodes, n.nesting + 1 ≤ bound := by
  induction nodes with
  | nil => simp [nestingAll]
  | cons n rest ih => rw [nestingAll, Nat.max_le, ih, List.forall_mem_cons]

@[simp] theorem height_mk (kind : NodeKind) (token : Token) (children : List Node) :
    (mk kind token children).height = heightAll children := by
  rw [height]

/-- A node nests at most one deeper than its children. -/
theorem nesting_mk_le (kind : NodeKind) (token : Token) (children : List Node) :
    (mk kind token children).nesting ≤ nestingAll children := by
  cases children with
  | nil => simp [nesting]
  | cons first rest =>
      rw [nesting, nestingAll]
      split <;> omega

mutual

/-- No node is listed deeper than the tree is high. -/
theorem depth_le_preorderAt (depth : Nat) (n : Node) :
    ∀ entry ∈ n.preorderAt depth, entry.1 ≤ depth + n.height := by
  cases n with
  | mk kind token children =>
      have hchildren := depth_le_preorderAll (depth + 1) children
      rw [preorderAt, List.forall_mem_cons, height_mk]
      refine ⟨Nat.le_add_right _ _, fun entry hentry => ?_⟩
      have hentry := hchildren entry hentry
      omega

theorem depth_le_preorderAll (depth : Nat) (nodes : List Node) :
    ∀ entry ∈ preorderAll depth nodes, entry.1 + 1 ≤ depth + heightAll nodes := by
  cases nodes with
  | nil => simp [preorderAll]
  | cons n rest =>
      have hfirst := depth_le_preorderAt depth n
      have hrest := depth_le_preorderAll depth rest
      rw [preorderAll, List.forall_mem_append, heightAll]
      refine ⟨fun entry hentry => ?_, fun entry hentry => ?_⟩
      · have hentry := hfirst entry hentry
        omega
      · have hentry := hrest entry hentry
        omega

end

mutual

/-- Some node is listed as deep as the tree is high. -/
theorem exists_preorderAt (depth : Nat) (n : Node) :
    ∃ entry ∈ n.preorderAt depth, entry.1 = depth + n.height := by
  cases n with
  | mk kind token children =>
      rw [preorderAt, height_mk]
      by_cases hempty : children = []
      · exact ⟨_, List.mem_cons_self, by rw [hempty]; rfl⟩
      · obtain ⟨entry, hentry, hdepth⟩ := exists_preorderAll (depth + 1) children hempty
        exact ⟨entry, List.mem_cons_of_mem _ hentry, by omega⟩

theorem exists_preorderAll (depth : Nat) (nodes : List Node) (h : nodes ≠ []) :
    ∃ entry ∈ preorderAll depth nodes, entry.1 + 1 = depth + heightAll nodes := by
  cases nodes with
  | nil => exact absurd rfl h
  | cons n rest =>
      obtain ⟨entry, hentry, hdepth⟩ := exists_preorderAt depth n
      rw [preorderAll, heightAll]
      rcases Nat.le_total (heightAll rest) (n.height + 1) with hle | hle
      · exact ⟨entry, List.mem_append_left _ hentry, by omega⟩
      · have hrest : rest ≠ [] := by
          rintro rfl
          simp [heightAll] at hle
        obtain ⟨entry', hentry', hdepth'⟩ := exists_preorderAll depth rest hrest
        exact ⟨entry', List.mem_append_right _ hentry', by omega⟩

end

end Node

mutual

/-- The number of steps down a tree without places. -/
def Shape.height : Shape → Nat
  | .mk _ _ children => Shape.heightAll children

def Shape.heightAll : List Shape → Nat
  | [] => 0
  | s :: rest => max (Shape.height s + 1) (Shape.heightAll rest)

end

theorem Shape.height_lt_heightAll : ∀ {shapes : List Shape} {s : Shape}, s ∈ shapes →
    s.height < Shape.heightAll shapes
  | _ :: _, _, .head _ => Nat.le_max_left _ _
  | _ :: _, _, .tail _ h => Nat.lt_of_lt_of_le (height_lt_heightAll h) (Nat.le_max_right _ _)

mutual

/-- A tree is as high as what is left of it without places. -/
theorem Node.height_shape (n : Node) : n.shape.height = n.height := by
  cases n with
  | mk kind token children =>
      rw [Node.shape, Shape.height, Node.height, Node.heightAll_shapes children]

theorem Node.heightAll_shapes (nodes : List Node) :
    Shape.heightAll (Node.shapes nodes) = Node.heightAll nodes := by
  cases nodes with
  | nil => rfl
  | cons n rest =>
      rw [Node.shapes, Shape.heightAll, Node.heightAll, Node.height_shape n,
        Node.heightAll_shapes rest]

end

/-! ### Stand-ins -/

namespace Node

/-- How many nodes of the tree stand in for something that could not be read. -/
def standIns (n : Node) : Nat := n.preorder.countP fun entry => entry.2.kind == .unknown

/-- How many nodes of several trees are stand-ins. -/
def standInsAll (nodes : List Node) : Nat :=
  (nodes.flatMap preorder).countP fun entry => entry.2.kind == .unknown

@[simp] theorem standInsAll_nil : standInsAll [] = 0 := rfl

@[simp] theorem standInsAll_cons (n : Node) (nodes : List Node) :
    standInsAll (n :: nodes) = n.standIns + standInsAll nodes := by
  rw [standInsAll, List.flatMap_cons, List.countP_append, standIns, standInsAll]

@[simp] theorem standInsAll_append (left right : List Node) :
    standInsAll (left ++ right) = standInsAll left + standInsAll right := by
  rw [standInsAll, List.flatMap_append, List.countP_append, standInsAll, standInsAll]

mutual

/-- The depth that nodes are listed with does not matter for counting them. -/
theorem countP_preorderAt (depth : Nat) (n : Node) :
    (n.preorderAt depth).countP (fun entry => entry.2.kind == .unknown) = n.standIns := by
  cases n with
  | mk kind token children =>
      have hchildren := countP_preorderAll (depth + 1) children
      have hchildren' := countP_preorderAll 1 children
      simp only [standIns, preorder, preorderAt, List.countP_cons, Nat.zero_add]
      rw [hchildren, hchildren']

theorem countP_preorderAll (depth : Nat) (nodes : List Node) :
    (preorderAll depth nodes).countP (fun entry => entry.2.kind == .unknown) =
      standInsAll nodes := by
  cases nodes with
  | nil => rfl
  | cons n rest =>
      rw [preorderAll, List.countP_append, countP_preorderAt, countP_preorderAll, standInsAll_cons]

end

@[simp] theorem standIns_mk (kind : NodeKind) (token : Token) (children : List Node) :
    (mk kind token children).standIns =
      (if kind = .unknown then 1 else 0) + standInsAll children := by
  rw [standIns, preorder, preorderAt, List.countP_cons, countP_preorderAll, Nat.add_comm]
  simp [Node.kind]

@[simp] theorem standIns_leaf (kind : NodeKind) (token : Token) :
    (leaf kind token).standIns = if kind = .unknown then 1 else 0 := by
  simp [leaf]

@[simp] theorem standInsAll_map_typeQualifier (tokens : List Token) :
    standInsAll (tokens.map (leaf .typeQualifier)) = 0 := by
  induction tokens with
  | nil => rfl
  | cons t rest ih => simp [ih]

end Node

end Shading

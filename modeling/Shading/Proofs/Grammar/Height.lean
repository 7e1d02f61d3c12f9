import Shading.Proofs.Grammar.Building
import Shading.Proofs.Grammar.RoundTrip

/-! # How high trees are

The limit of nesting bounds the recursion of productions, and with it the part of a tree that grows by
recursion.  Operators, calls, member accesses and indices are applied one after another in a loop: each
puts what was read so far below itself as its first child, so a tree can be as high as a text is long
(`height_unbounded`).

So there are two bounds.  The steps down a tree that do not go to the first child of such a node are at
most 581 (`Node.nesting`).  All steps together are at most as many as there are tokens, since every node
takes a token of its own, but for stand-ins and statements (`parse_height`). -/

namespace Shading

open Syntax Grammar

/-- The expression `list.next.next` and so on, with `n` member accesses. -/
def memberChain : Nat → Expression
  | 0 => .name ⟨"list", by decide⟩
  | n + 1 => .member (memberChain n) ⟨"next", by decide⟩

theorem nesting_memberChain : ∀ n, (memberChain n).nesting = 0
  | 0 => rfl
  | n + 1 => by
      have hsimple : (memberChain n).isCompound = false := by cases n <;> rfl
      rw [memberChain, Expression.nesting, hsimple]
      exact nesting_memberChain n

theorem le_height_memberChain : ∀ n, n ≤ (memberChain n).shape.height
  | 0 => Nat.zero_le _
  | n + 1 => by
      rw [memberChain, Expression.shape, Shape.height]
      exact Nat.lt_of_le_of_lt (le_height_memberChain n)
        (Shape.height_lt_heightAll List.mem_cons_self)

/-- A function that returns a chain of member accesses. -/
def chainProgram (n : Nat) : Program :=
  ⟨[{ attributes := [], declared := ⟨[], .mk ⟨"List", by decide⟩ [], ⟨"last", by decide⟩⟩,
      parameters := [], body := some [.ret (some (memberChain n))] }]⟩

theorem chainProgram_fits (n : Nat) : (chainProgram n).Fits := by
  intro f hf
  obtain rfl := List.mem_singleton.mp hf
  refine ⟨by simp, Nat.zero_le _, by simp, ?_, ?_⟩
  · rintro _ ⟨⟩
    simp [Statement.nesting, Statement.nestingAll, nesting_memberChain, nestingLimit]
  · rintro _ ⟨⟩
    exact Nat.zero_le _

theorem le_height_chainProgram (n : Nat) : n ≤ (chainProgram n).shape.height := by
  have hchain := le_height_memberChain n
  simp [chainProgram, Program.shape, Function.shape, Statement.shape, Shape.height, Shape.heightAll,
    Typed.shapes, Function.attributeShapes]
  omega

/-- A chain of member accesses has a node for each of them on the way to its end. -/
theorem exists_depth_chainProgram (n : Nat) :
    ∃ entry ∈ (parse (Lexeme.layout 0 (chainProgram n).lexemes)).1.preorder, n ≤ entry.1 := by
  let p := chainProgram n
  obtain ⟨node, hreads, hshape⟩ := programUnit_written p (chainProgram_fits n)
    (pastEnd (Lexeme.layout 0 p.lexemes)) (Lexeme.ofTokens_layout 0 p.wellJoined)
  obtain ⟨entry, hentry, hdepth⟩ := Node.exists_preorderAt 0 node
  have hheight : n ≤ node.height := by
    rw [← Node.height_shape, hshape]
    exact le_height_chainProgram n
  rw [Parser.parse_of_reads hreads]
  exact ⟨entry, hentry, by omega⟩

/-- There is no bound on the depth of trees that holds for all tokens. -/
theorem height_unbounded :
    ¬ ∃ bound, ∀ tokens, ∀ entry ∈ (parse tokens).1.preorder, entry.1 ≤ bound := by
  rintro ⟨bound, hbound⟩
  obtain ⟨entry, hentry, hdepth⟩ := exists_depth_chainProgram (bound + 1)
  have hle := hbound _ entry hentry
  omega

/-- **How high trees are.**  Not counting steps from an operator, a call, a member access or an index to
what it is applied to, a tree is never higher than 581.  With those steps no node is deeper than there are
tokens, and a chain of `n` member accesses gives a node at depth `n` or more. -/
theorem parse_height (tokens : List Token) :
    (parse tokens).1.nesting ≤ 581 ∧
      (∀ entry ∈ (parse tokens).1.preorder, entry.1 ≤ tokens.length) ∧
      ∀ n, ∃ entry ∈ (parse (Lexeme.layout 0 (chainProgram n).lexemes)).1.preorder, n ≤ entry.1 := by
  have hbuilt := isBuilt_parse tokens
  refine ⟨hbuilt.nesting, fun entry hentry => ?_, exists_depth_chainProgram⟩
  have hdepth := Node.depth_le_preorderAt 0 _ entry hentry
  have hheight := hbuilt.height
  omega

end Shading

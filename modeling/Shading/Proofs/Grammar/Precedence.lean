import Shading.Proofs.Grammar.RoundTrip

/-! # Precedence and associativity

A tree of binary operators over names and literals is written with parentheses only where they are
needed: around a left operand that binds more loosely than the operator it belongs to, and around a
right operand that does not bind more tightly.  Written as the value that a function returns, it is
read back as the tree, however long its chains of operators are (`parse_operators`).

The loop that reads operators never reads a left operand for itself: it goes on from what it has read
so far (`Climbs`).  So the induction on trees is about what the loop goes on from (`Readable`). -/

namespace Shading

/-! ### Trees of operators -/

namespace Syntax

open Lexeme

/-- Binary operators over names and literals. -/
inductive OperatorTree where
  | literal (value : Literal)
  | name (spelling : Name)
  | binary (op : Operator) (left right : OperatorTree)

namespace OperatorTree

/-- How tightly the tree binds: as its operator does, and more tightly than any if it has none. -/
def precedence : OperatorTree → Nat
  | .binary op _ _ => op.precedence
  | _ => Grammar.precedenceLevels + 1

def lexemes : OperatorTree → List Lexeme
  | .literal value => [value.lexeme]
  | .name spelling => [word spelling.text]
  | .binary op left right =>
    Expression.wrap (left.precedence < op.precedence) left.lexemes ++
      (op.lexemes ++ Expression.wrap (right.precedence ≤ op.precedence) right.lexemes)

def shape : OperatorTree → Shape
  | .literal value => value.shape
  | .name spelling => .leaf .identifier spelling.text
  | .binary op left right => .mk .binaryExpression op.text [left.shape, right.shape]

/-- How deeply the parentheses nest that the tree is written with. -/
def parentheses : OperatorTree → Nat
  | .binary op left right =>
    max (Expression.wrapNesting (left.precedence < op.precedence) left.parentheses)
      (Expression.wrapNesting (right.precedence ≤ op.precedence) right.parentheses)
  | _ => 0

theorem one_le_precedence : ∀ tree : OperatorTree, 1 ≤ tree.precedence
  | .literal _ => Nat.le_add_left 1 _
  | .name _ => Nat.le_add_left 1 _
  | .binary op _ _ => op.one_le_precedence

theorem wellJoined : ∀ tree : OperatorTree, WellJoined tree.lexemes
  | .literal value => value.wellJoined
  | .name _ => .single rfl
  | .binary op left right =>
      (Expression.wellJoined_wrap left.wellJoined).append
        (op.wellJoined.append (Expression.wellJoined_wrap right.wellJoined))

end OperatorTree

/-- What is written for a function without parameters that returns a value. -/
def returning (type name : Name) (value : List Lexeme) : List Lexeme :=
  [word type.text, word name.text, symbol '(', symbol ')', symbol '{', word "return"] ++ value ++
    [symbol ';', symbol '}']

/-- The tree of a program text that is such a function. -/
def returningShape (type name : Name) (value : Shape) : Shape :=
  .mk .programUnit type.text [.mk .functionDeclaration name.text
    [.leaf .typename type.text, .leaf .identifier name.text, .leaf .parameterList "(",
      .mk .compoundStatement "\x7b" [.mk .returnStatement "return" [value]]]]

end Syntax

namespace Grammar

open Production Lexeme Syntax

variable {tokens : List Token} {written : List Lexeme} {s : Shape}

/-! ### Reading a tree -/

theorem accepts_literal (value : Literal) (units : Nat) :
    Accepts (level units).unary [value.lexeme] EndsOperand (Found value.shape) :=
  (stems_literal value).accepts_level (startsOperand_literal value)

theorem accepts_name (spelling : Name) (units : Nat) :
    Accepts (level units).unary [word spelling.text] EndsOperand
      (Found (.leaf .identifier spelling.text)) :=
  (stems_name spelling).accepts_level (headsOperand (.name spelling)).starts

/-- With enough units of nesting left for its parentheses, a tree is read by every loop that reads its
operator. -/
def Readable (tree : OperatorTree) : Prop :=
  ∀ units levels least, tree.parentheses ≤ units → least ≤ tree.precedence →
    precedenceLevels ≤ levels + least →
    Climbs (level units).unary levels least tree.lexemes (tree.precedence + 1) tree.shape

namespace Readable

variable {tree : OperatorTree} {units levels least p : Nat}

/-- A tree is an expression. -/
theorem expression (h : Readable tree) (hunits : tree.parentheses ≤ units) :
    Accepts (level (units + 1)).expression tree.lexemes Ends (Found tree.shape) := by
  have hclimbs := h units 5 1 hunits tree.one_le_precedence (by decide)
  exact ((hclimbs.accepts (Nat.le_add_left 1 _)).mono fun _ hmore => hmore.endsBinary 1).assignment

/-- A tree in parentheses is an operand. -/
theorem operand (h : Readable tree) (hunits : tree.parentheses + 1 ≤ units) :
    Accepts (level units).unary (enclosed '(' ')' tree.lexemes) EndsOperand (Found tree.shape) := by
  obtain ⟨inner, rfl⟩ := Nat.exists_eq_add_of_le' (Nat.le_trans (Nat.le_add_left 1 _) hunits)
  exact (stems_parentheses (h.expression (Nat.le_of_succ_le_succ hunits))).accepts_level rfl

/-- A left operand is in parentheses if it binds more loosely than the operator. -/
theorem left (h : Readable tree)
    (hunits : Expression.wrapNesting (tree.precedence < p) tree.parentheses ≤ units)
    (hleast : least ≤ p) (hlevels : precedenceLevels ≤ levels + least) :
    Climbs (level units).unary levels least
      (Expression.wrap (tree.precedence < p) tree.lexemes) (p + 1) tree.shape := by
  by_cases hloose : tree.precedence < p
  · simp only [Expression.wrap, Expression.wrapNesting, hloose, decide_true, if_true] at hunits ⊢
    exact climbs_operand (h.operand hunits)
  · simp only [Expression.wrap, Expression.wrapNesting, hloose, decide_false, Bool.false_eq_true,
      if_false] at hunits ⊢
    exact (h units levels least hunits (by omega) hlevels).mono (by omega)

/-- A right operand is in parentheses unless it binds more tightly than the operator. -/
theorem right (h : Readable tree)
    (hunits : Expression.wrapNesting (tree.precedence ≤ p) tree.parentheses ≤ units)
    (hlevels : precedenceLevels ≤ levels + p) :
    Accepts (binary (level units).unary levels (p + 1))
      (Expression.wrap (tree.precedence ≤ p) tree.lexemes) (EndsBinary (p + 1))
      (Found tree.shape) := by
  by_cases hloose : tree.precedence ≤ p
  · simp only [Expression.wrap, Expression.wrapNesting, hloose, decide_true, if_true] at hunits ⊢
    exact accepts_binary_operand (h.operand hunits) _ _
  · simp only [Expression.wrap, Expression.wrapNesting, hloose, decide_false, Bool.false_eq_true,
      if_false] at hunits ⊢
    cases levels with
    | succ levels => exact (h units levels (p + 1) hunits (by omega) (by omega)).accepts (by omega)
    | zero =>
        -- no operator binds more tightly than the one before, so the operand has none
        cases tree with
        | literal value => exact accepts_binary_operand (accepts_literal value units) _ _
        | name spelling => exact accepts_binary_operand (accepts_name spelling units) _ _
        | binary op left right =>
            have hle : op.precedence ≤ p :=
              Nat.le_trans op.precedence_le_levels (by rwa [Nat.zero_add] at hlevels)
            exact absurd hle hloose

end Readable

theorem readable : ∀ tree : OperatorTree, Readable tree
  | .literal value => fun units _ _ _ _ _ => climbs_operand (accepts_literal value units)
  | .name spelling => fun units _ _ _ _ _ => climbs_operand (accepts_name spelling units)
  | .binary op left right => by
      intro units levels least hunits hleast hlevels
      have hleast : least ≤ op.precedence := hleast
      simp only [OperatorTree.parentheses, Nat.max_le] at hunits
      exact ((readable left).left hunits.1 hleast hlevels).operator op hleast
        ((readable right).right hunits.2 (by omega))

/-- A tree begins with a name, a literal or an opening parenthesis. -/
theorem begins_tree : ∀ tree : OperatorTree, begins startsExpression tree.lexemes = true
  | .literal value => begins_startsExpression (.literal value)
  | .name spelling => begins_startsExpression (.name spelling)
  | .binary op left right => by
      rw [OperatorTree.lexemes]
      by_cases hloose : left.precedence < op.precedence
      · simp only [Expression.wrap, hloose, decide_true, if_true, enclosed_append]
        rfl
      · simp only [Expression.wrap, hloose, decide_false, Bool.false_eq_true, if_false]
        exact begins_append (fun _ ht => ht) (begins_tree left) _

/-! ### Reading the value that a function returns -/

/-- A block with one statement, which returns a value. -/
theorem accepts_returning {units : Nat} (hvalue : Accepts (expression units) written Ends (Found s))
    (hstart : begins startsExpression written = true) :
    Accepts (block (units + 1))
      ([symbol '{', word "return"] ++ written ++ [symbol ';', symbol '}']) (fun _ => True)
      (fun node =>
        node.shape = .mk .compoundStatement "\x7b" [.mk .returnStatement "return" [s]]) := by
  intro past tokens more hw _
  simp only [List.append_assoc, List.cons_append, List.nil_append] at hw
  obtain ⟨opening, inner, rfl, _, hopeningText, hinner⟩ := exists_symbol hw
  obtain ⟨t, mid, rfl, hkind, htext, hmid⟩ := exists_word hinner
  obtain ⟨_, rest, hreads, hrestAll, node, rfl, hshape⟩ :=
    hvalue past mid _ hmid (ends_symbol (by decide) _)
  obtain ⟨ending, left, rfl, hending, _, hleft⟩ := exists_symbol hrestAll
  obtain ⟨closing, rest, rfl, hclosing, _, hrest⟩ := exists_symbol hleft
  have hsemicolon : mid.head?.any (fun t => t.isSymbol ';') = false :=
    head?_any_isSymbol hmid
      (begins_append (fun _ ht => isSymbol_of_startsExpression ht (by decide)) hstart _)
  have hword : t.isWord "return" = true := by simp [Token.isWord, hkind, htext]
  have hstatement : (statement (block units) units).Reads past (t :: mid)
      (some (.mk .returnStatement t [node])) (closing :: rest) := by
    refine reads_statement_some.mpr (.inr (.inr (.inl ⟨hword, ?_⟩)))
    exact reads_returnStatement.mpr
      ⟨some node, ending, .inr ⟨hsemicolon, hreads⟩, hending, rfl⟩
  have hbrace : (t :: mid).head?.any (fun t => t.isSymbol '}') = false := head?_any_isSymbol hinner rfl
  have hlt : (closing :: rest).length < (t :: mid).length := by
    have hlength := length_eq_add hmid hrestAll
    simp only [List.length_cons] at hlength ⊢
    omega
  have hturns : Turns (nextStatement (statement (block units) units)) past [] (t :: mid)
      [.mk .returnStatement t [node]] rest :=
    .again (reads_nextStatement_again.mpr ⟨hbrace, _, hstatement, hlt, rfl⟩) hlt
      (.done (reads_nextStatement_done.mpr ⟨⟨closing, hclosing, rfl⟩, rfl⟩))
  refine ⟨_, rest, reads_block_succ.mpr ⟨_, hturns.reads, rfl⟩, hrest, ?_⟩
  simp only [Node.shape_mk, List.map_cons, List.map_nil, hopeningText, htext, hshape]

theorem accepts_returningFunction (type name : Name)
    (hvalue : Accepts (expression (nestingLimit - 1)) written Ends (Found s))
    (hstart : begins startsExpression written = true) :
    Accepts functionDeclaration (returning type name written) (fun _ => True)
      (Found (.mk .functionDeclaration name.text
        [.leaf .typename type.text, .leaf .identifier name.text, .leaf .parameterList "(",
          .mk .compoundStatement "\x7b" [.mk .returnStatement "return" [s]]])) := by
  have hbody : Accepts functionBody
      ([symbol '{', word "return"] ++ written ++ [symbol ';', symbol '}']) (fun _ => True)
      (fun nodes => nodes.map Node.shape =
        [.mk .compoundStatement "\x7b" [.mk .returnStatement "return" [s]]]) := by
    intro past tokens more hw _
    obtain ⟨node, rest, hreads, hrest, hshape⟩ :=
      accepts_returning hvalue hstart past tokens more hw trivial
    have hbrace : tokens.head?.any (fun t => t.isSymbol '{') = true := head?_any_isSymbol hw rfl
    refine ⟨[node], rest, reads_functionBody.mpr (.inl ⟨hbrace, node, hreads, rfl⟩), hrest, ?_⟩
    simp only [List.map_cons, List.map_nil, hshape]
  exact accepts_declaration ⟨[], ⟨[], .mk type [], name⟩, [], none⟩
    (fun _ ha => absurd ha List.not_mem_nil) (Nat.zero_le _) (fun _ hd => absurd hd List.not_mem_nil) hbody

/-- A program text of one declaration. -/
theorem programUnit_alone (h : Accepts functionDeclaration written (fun _ => True) (Found s))
    (hne : written ≠ []) (past : Span) (hw : ofTokens tokens = written) :
    ∃ node, programUnit.Reads past tokens node [] ∧
      node.shape = .mk .programUnit (headText written) [s] := by
  obtain ⟨_, rest, hreads, hrest, node, rfl, hshape⟩ :=
    h past tokens [] (hw.trans (List.append_nil _).symm) trivial
  obtain rfl := ofTokens_eq_nil.mp hrest
  have htokens : tokens ≠ [] := fun hnil => hne (hw.symm.trans (ofTokens_eq_nil.mpr hnil))
  have hturns : Turns nextDeclaration past [] tokens [node] [] :=
    .again (reads_nextDeclaration_again.mpr ⟨htokens, node, hreads, rfl⟩)
      (List.length_pos_iff.mpr htokens) (.done (reads_nextDeclaration_done.mpr ⟨rfl, rfl, rfl⟩))
  refine ⟨_, reads_programUnit.mpr ⟨_, hturns.reads, rfl⟩, ?_⟩
  have hfirst : (tokens.head?.getD ⟨.unknown, Span.origin, ""⟩).text = headText written := by
    rw [← hw]
    cases tokens <;> rfl
  rw [Node.shape_mk, hfirst, List.map_cons, hshape, List.map_nil]

end Grammar

open Grammar Lexeme Syntax

/-- **Precedence and associativity.**  A function that returns a tree of operators can be written as
tokens, with only the parentheses that the tree needs and as many operators as it has, and from any
tokens it is so written with it is read without a message as that function and that tree, as long as
the parentheses leave two units of nesting, for the block and for the value. -/
theorem parse_operators (type name : Name) (tree : OperatorTree)
    (hnesting : tree.parentheses + 2 ≤ nestingLimit) :
    (∃ tokens, ofTokens tokens = returning type name tree.lexemes) ∧
      ∀ tokens, ofTokens tokens = returning type name tree.lexemes →
        (parse tokens).2 = [] ∧ (parse tokens).1.shape = returningShape type name tree.shape := by
  have hjoined : WellJoined (returning type name tree.lexemes) :=
    WellJoined.append (.append (.cons rfl (.cons rfl (.cons rfl (.cons rfl (.cons rfl (.single rfl))))))
      tree.wellJoined) (.cons rfl (.single rfl))
  have hvalue : Accepts (expression (nestingLimit - 1)) tree.lexemes Ends (Found tree.shape) :=
    (readable tree).expression (Nat.le_of_add_le_add_right hnesting)
  refine ⟨⟨_, ofTokens_layout 0 hjoined⟩, fun tokens hw => ?_⟩
  obtain ⟨node, hreads, hshape⟩ :=
    programUnit_alone (accepts_returningFunction type name hvalue (begins_tree tree))
      (List.cons_ne_nil _ _) (pastEnd tokens) hw
  rw [Parser.parse_of_reads hreads]
  exact ⟨rfl, hshape⟩

/-- The tree of `w - (x - y) * 2.0 <= z && (z || w) == x - y - z`. -/
def climbingSample : OperatorTree :=
  let w : OperatorTree := .name ⟨"w", by decide⟩
  let x : OperatorTree := .name ⟨"x", by decide⟩
  let y : OperatorTree := .name ⟨"y", by decide⟩
  let z : OperatorTree := .name ⟨"z", by decide⟩
  let two : OperatorTree := .literal (.float .float "2.0" rfl)
  .binary .and (.binary .le (.binary .sub w (.binary .mul (.binary .sub x y) two)) z)
    (.binary .eq (.binary .or z w) (.binary .sub (.binary .sub x y) z))

theorem parse_operators_climbingSample :
    let written := returning ⟨"T", by decide⟩ ⟨"f", by decide⟩ climbingSample.lexemes
    climbingSample.parentheses + 2 ≤ nestingLimit ∧ ofTokens (layout 0 written) = written ∧
      (parse (layout 0 written)).2 = [] ∧
      (parse (layout 0 written)).1.shape =
        returningShape ⟨"T", by decide⟩ ⟨"f", by decide⟩ climbingSample.shape := by
  have hnesting : climbingSample.parentheses + 2 ≤ nestingLimit := by decide
  have hwritten : ofTokens (layout 0 (returning ⟨"T", by decide⟩ ⟨"f", by decide⟩ climbingSample.lexemes)) =
      returning ⟨"T", by decide⟩ ⟨"f", by decide⟩ climbingSample.lexemes := by decide +kernel
  exact ⟨hnesting, hwritten, (parse_operators _ _ climbingSample hnesting).2 _ hwritten⟩

end Shading

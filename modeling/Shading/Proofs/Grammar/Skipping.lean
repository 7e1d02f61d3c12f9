import Shading.Proofs.Grammar.Building

/-! # What is skipped with a declaration

A declaration that cannot be read is skipped up to the first semicolon outside braces, or past the brace
that closes the outermost one.  Reading and skipping agree: where a function can be read without a
problem, skipping from its first token ends where reading ends (`afterDeclaration_of_reads`).

For that, what a production reads has to be passed over without a stop (`Passes`), which is a way through
the tokens.  Expressions, types and lists have neither braces nor semicolons, so they are passed over
wherever they stand.  Statements have both, and are passed over where a brace is open, which for the body
of a function is its own. -/

namespace Shading.Grammar

open Production

/-! ### Passing over tokens -/

/-- With at least `least` braces open, skipping from the one place comes to the other. -/
def Passes (least : Nat) (tokens rest : List Token) : Prop :=
  ∀ depth, least ≤ depth → afterDeclaration depth tokens = afterDeclaration depth rest

variable {past : Span} {tokens mid rest : List Token} {opening closing : Token}

instance (least : Nat) : Crossing (Passes least) where
  refl _ _ _ := rfl
  trans h h' depth hdepth := (h depth hdepth).trans (h' depth hdepth)
  plain h rest depth _ := by simp [afterDeclaration, h _]

theorem afterDeclaration_opening (h : opening.isSymbol '{' = true) (depth : Nat) (rest : List Token) :
    afterDeclaration depth (opening :: rest) = afterDeclaration (depth + 1) rest := by
  simp [afterDeclaration, h]

theorem afterDeclaration_closing (h : closing.isSymbol '}' = true) (depth : Nat) (rest : List Token) :
    afterDeclaration depth (closing :: rest) =
      if depth ≤ 1 then rest else afterDeclaration (depth - 1) rest := by
  simp [afterDeclaration, isSymbol_eq h]

/-- Within braces, what stands in further braces is passed over with them. -/
instance : Bridging (Passes 1) where
  semicolon h rest depth hdepth := by
    have hne : depth ≠ 0 := Nat.pos_iff_ne_zero.mp hdepth
    simp [afterDeclaration, isSymbol_eq h, hne]
  braces hopening hclosing h depth hdepth := by
    rw [afterDeclaration_opening hopening, h _ (Nat.le_add_left 1 depth),
      afterDeclaration_closing hclosing, if_neg (by omega), Nat.add_sub_cancel]

/-- Outside braces, skipping ends with the braces. -/
theorem afterDeclaration_braces (hopening : opening.isSymbol '{' = true)
    (hclosing : closing.isSymbol '}' = true) (h : Passes 1 mid (closing :: rest)) :
    afterDeclaration 0 (opening :: mid) = rest := by
  rw [afterDeclaration_opening hopening, h _ (Nat.le_refl 1), afterDeclaration_closing hclosing,
    if_pos (Nat.le_refl 1)]

/-! ### Declarations -/

/-- The body of a function ends where skipping ends. -/
theorem afterDeclaration_functionBody {nodes : List Node}
    (hreads : functionBody.Reads past tokens nodes rest) : afterDeclaration 0 tokens = rest := by
  rcases reads_functionBody.mp hreads with ⟨hopening, body, hbody, -⟩ | ⟨ending, hending, rfl, -⟩
  · obtain ⟨opening, mid, rfl, hopening⟩ := head?_any_eq_true.mp hopening
    have hstatement : Anchored (Passes 1) AnyPlace
        (statement (block (nestingLimit - 1)) (nestingLimit - 1)) := anchored_statement _
    obtain ⟨closing, hclosing, hpass⟩ := way_of_block hstatement hbody
    exact afterDeclaration_braces hopening hclosing hpass
  · simp [afterDeclaration, isSymbol_eq hending]

/-- **A function that can be read is skipped as a whole.** -/
theorem afterDeclaration_of_reads {node : Node}
    (hreads : functionDeclaration.Reads past tokens (some node) rest) :
    afterDeclaration 0 tokens = rest := by
  obtain ⟨attributes?, mid, qualifiers, left, type, opened, name, parameters, bodied, body, hattributes,
    hqualifiers, htype, hname, hopening, hparameters, hbody, -⟩ :=
    reads_functionDeclaration_some.mp hreads
  have hround : Takeable (Passes 0) AnyPlace opened := (takes_symbol (by decide)).takeable hopening
  have hfront : Passes 0 tokens left :=
    Crossing.trans ((finds_attributeList (P := AnyPlace) past _).way hattributes)
      ((meets_typeQualifiers (P := AnyPlace) past _).way hqualifiers)
  have hnamed : Passes 0 left opened :=
    Crossing.trans ((meets_typename (P := AnyPlace) past _).way htype)
      (Crossing.plain (plain_of_isName hname) _)
  have hlisted : Passes 0 opened bodied := (meets_parameterList past hround).way hparameters
  calc afterDeclaration 0 tokens
    _ = afterDeclaration 0 left := hfront 0 (Nat.le_refl 0)
    _ = afterDeclaration 0 opened := hnamed 0 (Nat.le_refl 0)
    _ = afterDeclaration 0 bodied := hlisted 0 (Nat.le_refl 0)
    _ = rest := afterDeclaration_functionBody hbody

end Shading.Grammar

import Shading.Proofs.Grammar.Lexemes

/-! # Laying out what is written

Lexemes can be laid out as tokens, provided that symbols are joined only where they spell an operator
(`ofTokens_layout`).  What is written for a program text is of this kind (`Program.wellJoined`). -/

namespace Shading.Lexeme

open Grammar

/-- Two lexemes make up one operator. -/
def spellOperator (first second : Lexeme) : Bool :=
  first.kind == .symbol && second.kind == .symbol &&
    joinedOperators.contains (first.text ++ second.text)

/-- Symbols are joined only where they spell an operator. -/
def WellJoined : List Lexeme → Prop
  | [] => True
  | l :: more => (l.joined = true → more.head?.any (spellOperator l) = true) ∧ WellJoined more

/-- Tokens for lexemes, from an offset on: those that are joined side by side, and all others
apart. -/
def layout : Nat → List Lexeme → List Token
  | _, [] => []
  | offset, l :: more =>
    ⟨l.kind, Span.single ⟨0, offset, 0, offset⟩, l.text⟩ ::
      layout (if l.joined then following offset else following (following offset)) more

/-- Of two tokens laid out one after the other, the first is joined to the second if it should be. -/
theorem joins_layout (l m : Lexeme) (offset : Nat) :
    joins ⟨l.kind, Span.single ⟨0, offset, 0, offset⟩, l.text⟩
      ⟨m.kind, Span.single ⟨0, if l.joined then following offset else following (following offset), 0,
        if l.joined then following offset else following (following offset)⟩, m.text⟩ =
      (spellOperator l m && l.joined) := by
  have hapart : following offset ≠ following (following offset) := by
    simp only [following, UInt32.size]
    omega
  cases hjoined : l.joined <;>
    simp [joins, spellOperator, adjacent, Span.single, Bool.and_assoc, hapart]

theorem ofTokens_layout : ∀ (offset : Nat) {lexemes : List Lexeme}, WellJoined lexemes →
    ofTokens (layout offset lexemes) = lexemes
  | _, [], _ => rfl
  | offset, l :: more, ⟨hl, hmore⟩ => by
      have hhead : (layout (if l.joined then following offset else following (following offset)) more).head?.any
          (joins ⟨l.kind, Span.single ⟨0, offset, 0, offset⟩, l.text⟩) = l.joined := by
        cases more with
        | nil =>
            have halone : l.joined ≠ true := fun hjoined => Bool.noConfusion (hl hjoined)
            exact (eq_false_of_ne_true halone).symm
        | cons m more =>
            refine (joins_layout l m offset).trans ?_
            cases hjoined : l.joined with
            | false => exact Bool.and_false _
            | true =>
                have hspell : spellOperator l m = true := hl hjoined
                rw [hspell, Bool.true_and]
      rw [layout, ofTokens, hhead, ofTokens_layout _ hmore]

theorem WellJoined.append : ∀ {first second : List Lexeme}, WellJoined first → WellJoined second →
    WellJoined (first ++ second)
  | [], _, _, hsecond => hsecond
  | [_], _, ⟨hl, _⟩, hsecond => ⟨fun hjoined => Bool.noConfusion (hl hjoined), hsecond⟩
  | _ :: _ :: _, _, ⟨hl, hmore⟩, hsecond => ⟨hl, WellJoined.append hmore hsecond⟩

theorem WellJoined.cons {l : Lexeme} {more : List Lexeme} (hl : l.joined = false)
    (hmore : WellJoined more) : WellJoined (l :: more) :=
  ⟨fun hjoined => Bool.noConfusion (hl.symm.trans hjoined), hmore⟩

theorem WellJoined.single {l : Lexeme} (hl : l.joined = false) : WellJoined [l] := .cons hl trivial

theorem WellJoined.enclosed {opening closing : Char} {inner : List Lexeme} (h : WellJoined inner) :
    WellJoined (enclosed opening closing inner) :=
  .cons rfl (h.append (.single rfl))

theorem WellJoined.commaSeparated : ∀ {pieces : List (List Lexeme)},
    (∀ piece ∈ pieces, WellJoined piece) → WellJoined (commaSeparated pieces)
  | [], _ => trivial
  | [last], h => h last (List.mem_singleton_self last)
  | first :: _ :: _, h =>
      (h first List.mem_cons_self).append (.cons rfl (WellJoined.commaSeparated fun piece hpiece =>
        h piece (List.mem_cons_of_mem first hpiece)))

end Shading.Lexeme

/-! ### What is written for a program text -/

namespace Shading.Syntax

open Lexeme

theorem Operator.wellJoined (op : Operator) : WellJoined op.lexemes := by
  cases op <;> exact ⟨by decide, by simp [WellJoined, symbol]⟩

mutual

theorem Typename.wellJoined : ∀ type : Typename, WellJoined type.lexemes
  | .mk _ [] => .single rfl
  | .mk name (first :: rest) => by
      rw [lexemes, lexemesAll_eq_map]
      exact .cons rfl (.enclosed (.commaSeparated (wellJoinedAll (first :: rest))))

theorem Typename.wellJoinedAll : ∀ types : List Typename,
    ∀ piece ∈ types.map Typename.lexemes, WellJoined piece
  | type :: _, _, .head _ => type.wellJoined
  | _ :: rest, piece, .tail _ h => Typename.wellJoinedAll rest piece h

end

theorem Expression.wellJoined_wrap {compound : Bool} {lexemes : List Lexeme}
    (h : WellJoined lexemes) : WellJoined (wrap compound lexemes) := by
  cases compound with
  | false => exact h
  | true => exact h.enclosed

theorem Literal.wellJoined (value : Literal) : WellJoined [value.lexeme] := by
  cases value <;> exact .single rfl

mutual

theorem Expression.wellJoined : ∀ e : Expression, WellJoined e.lexemes
  | .literal value => value.wellJoined
  | .name _ => .single rfl
  | .call callee arguments => by
      rw [lexemes, lexemesAll_eq_map]
      exact (wellJoined_wrap callee.wellJoined).append
        (.enclosed (.commaSeparated (wellJoinedAll arguments)))
  | .member object _ => (wellJoined_wrap object.wellJoined).append (.cons rfl (.single rfl))
  | .index object place => (wellJoined_wrap object.wellJoined).append (.enclosed place.wellJoined)
  | .unary _ operand => .cons rfl (wellJoined_wrap operand.wellJoined)
  | .binary op left right =>
      (wellJoined_wrap left.wellJoined).append (op.wellJoined.append (wellJoined_wrap right.wellJoined))
  | .assignment target value =>
      (wellJoined_wrap target.wellJoined).append (.cons rfl (wellJoined_wrap value.wellJoined))

theorem Expression.wellJoinedAll : ∀ es : List Expression,
    ∀ piece ∈ es.map Expression.lexemes, WellJoined piece
  | e :: _, _, .head _ => e.wellJoined
  | _ :: rest, piece, .tail _ h => Expression.wellJoinedAll rest piece h

end

mutual

theorem Initialiser.wellJoined : ∀ item : Initialiser, WellJoined item.lexemes
  | .expression e => e.wellJoined
  | .braced items => by
      rw [lexemes, lexemesAll_eq_map]
      exact .enclosed (.commaSeparated (wellJoinedAll items))

theorem Initialiser.wellJoinedAll : ∀ items : List Initialiser,
    ∀ piece ∈ items.map Initialiser.lexemes, WellJoined piece
  | item :: _, _, .head _ => item.wellJoined
  | _ :: rest, piece, .tail _ h => Initialiser.wellJoinedAll rest piece h

end

theorem Typed.wellJoined (d : Typed) : WellJoined d.lexemes := by
  refine WellJoined.append ?_ (d.type.wellJoined.append (.single rfl))
  induction d.qualifiers with
  | nil => trivial
  | cons q qualifiers ih => exact .cons rfl ih

mutual

theorem Statement.wellJoined : ∀ s : Statement, WellJoined s.lexemes
  | .empty => .single rfl
  | .block statements => .enclosed (wellJoinedAll statements)
  | .ret none => .cons rfl (.single rfl)
  | .ret (some e) => .cons rfl (e.wellJoined.append (.single rfl))
  | .declaration d none => d.wellJoined.append (.single rfl)
  | .declaration d (some value) =>
      (d.wellJoined.append (.cons rfl value.wellJoined)).append (.single rfl)
  | .expression e => e.wellJoined.append (.single rfl)

theorem Statement.wellJoinedAll : ∀ statements : List Statement, WellJoined (lexemesAll statements)
  | [] => trivial
  | s :: rest => s.wellJoined.append (wellJoinedAll rest)

end

theorem Attribute.wellJoined (a : Attribute) : WellJoined a.lexemes := by
  obtain ⟨name, arguments?⟩ := a
  cases arguments? with
  | none => exact .single rfl
  | some arguments =>
      exact .cons rfl (.enclosed (.commaSeparated (Expression.wellJoinedAll arguments)))

theorem Function.wellJoined (f : Function) : WellJoined f.lexemes := by
  have hattributes : WellJoined f.attributeLexemes := by
    unfold attributeLexemes
    split
    · trivial
    · refine WellJoined.append (.cons rfl (.enclosed (.commaSeparated ?_))) (.single rfl)
      exact List.forall_mem_map.mpr fun a _ => a.wellJoined
  have hparameters : WellJoined (enclosed '(' ')' (commaSeparated (f.parameters.map Typed.lexemes))) :=
    .enclosed (.commaSeparated (List.forall_mem_map.mpr fun d _ => d.wellJoined))
  have hbody : WellJoined f.bodyLexemes := by
    unfold bodyLexemes
    split
    · exact .single rfl
    · exact Statement.wellJoined _
  exact hattributes.append (f.declared.wellJoined.append (hparameters.append hbody))

theorem Program.wellJoined (p : Program) : WellJoined p.lexemes := by
  obtain ⟨functions⟩ := p
  unfold lexemes
  induction functions with
  | nil => trivial
  | cons f functions ih => exact f.wellJoined.append ih

end Shading.Syntax

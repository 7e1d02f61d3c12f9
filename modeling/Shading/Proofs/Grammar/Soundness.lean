import Shading.Proofs.Grammar.Rules
import Shading.Proofs.Parser.Agreement

/-! # What is read without a problem is derived

If `parse` reports nothing, the tokens it was given are a program text by the rules of the grammar,
and the tree it returns is the tree of that derivation (`parse_sound`).  For each production the proof
says what its result derives from the tokens it took (`Derives`).  Productions with nesting left are
dealt with by induction on what is left; a production without any reports a problem. -/

namespace Shading.Grammar

open Production

variable {past : Span} {tokens rest : List Token} {beside : Token → Token → Prop}

/-- Every symbol token is a single character, as scanning makes them, and symbols that are taken to stand
side by side do so. -/
structure Legible (beside : Token → Token → Prop) (tokens : List Token) : Prop where
  single : ∀ t ∈ tokens, t.kind = .symbol → t.text.length = 1
  joins : ∀ first second, [first, second] <:+: tokens → first.kind = .symbol → second.kind = .symbol →
    adjacent first second = true → beside first second

theorem Legible.right {used : List Token} (h : Legible beside (used ++ rest)) : Legible beside rest :=
  ⟨fun t ht => h.single t (List.mem_append_right used ht), fun first second hjoint =>
    h.joins first second (hjoint.trans (List.suffix_append used rest).isInfix)⟩

theorem Legible.tail {t : Token} (h : Legible beside (t :: rest)) : Legible beside rest :=
  @Legible.right rest beside [t] h

/-- What the production finds derives from the tokens it takes, of which there is at least one. -/
def Derives (beside : Token → Token → Prop) (p : Production (Option Node))
    (P : List Token → Node → Prop) : Prop :=
  ∀ {past : Span} {tokens rest : List Token} {node : Node}, Legible beside tokens →
    p.Reads past tokens (some node) rest → ∃ used, used ≠ [] ∧ tokens = used ++ rest ∧ P used node

/-- What is left after some tokens. -/
theorem Legible.after {used : List Token} (h : Legible beside (used ++ rest))
    (hused : used ≠ []) : Legible beside rest ∧ rest.length < (used ++ rest).length := by
  have hlength := List.length_pos_iff.mpr hused
  rw [List.length_append]
  exact ⟨h.right, by omega⟩

theorem Derives.after {p : Production (Option Node)} {P : List Token → Node → Prop}
    (hp : Derives beside p P) {node : Node} (hs : Legible beside tokens)
    (h : p.Reads past tokens (some node) rest) : Legible beside rest ∧ rest.length < tokens.length := by
  obtain ⟨used, hused, rfl, _⟩ := hp hs h
  exact hs.after hused

/-! ### Lists -/

theorem nextItem_after {item : Production (Option Node)} {P : List Token → Node → Prop}
    (hitem : Derives beside item P) {items next : Items} (hs : Legible beside tokens)
    (h : (nextItem item items).Reads past tokens (.again next) rest) :
    Legible beside rest ∧ rest.length < tokens.length := by
  obtain ⟨node, comma, hnode, _, _⟩ := reads_nextItem_again.mp h
  obtain ⟨hs', hlt⟩ := hitem.after hs hnode
  rw [List.length_cons] at hlt
  exact ⟨hs'.tail, by omega⟩

theorem separated_turns_sound {item : Production (Option Node)} {P : List Token → Node → Prop}
    (hitem : Derives beside item P) {items last : Items}
    (h : Turns (nextItem item) past items tokens last rest) (hs : Legible beside tokens)
    (hcomplete : last.complete = true) :
    ∃ used nodes, used ≠ [] ∧ tokens = used ++ rest ∧ last.nodes = items.nodes ++ nodes ∧
      Separated P used nodes := by
  induction h with
  | done hturn =>
      rcases reads_nextItem_done.mp hturn with ⟨_, rfl⟩ | ⟨node, hnode, _, rfl⟩
      · cases hcomplete
      · obtain ⟨used, hused, htokens, hderived⟩ := hitem hs hnode
        exact ⟨used, [node], hused, htokens, rfl, .one hderived⟩
  | again hturn _ _ ih =>
      obtain ⟨node, comma, hnode, hcomma, rfl⟩ := reads_nextItem_again.mp hturn
      obtain ⟨used, hused, rfl, hderived⟩ := hitem hs hnode
      obtain ⟨more, nodes, _, rfl, hnodes, hmore⟩ := ih hs.right.tail hcomplete
      refine ⟨used ++ comma :: more, node :: nodes, by simp, by simp, ?_, .cons hderived hcomma hmore⟩
      rw [hnodes]
      simp

/-- Items with commas between them are derived as such. -/
theorem separated_sound {item : Production (Option Node)} {P : List Token → Node → Prop}
    (hitem : Derives beside item P) {items : Items} (hs : Legible beside tokens)
    (h : (separated item).Reads past tokens items rest) (hcomplete : items.complete = true) :
    ∃ used, used ≠ [] ∧ tokens = used ++ rest ∧ Separated P used items.nodes := by
  have hturns := Turns.of_reads (fun _ _ _ _ hs hagain => nextItem_after hitem hs hagain) hs h
  obtain ⟨used, nodes, hused, htokens, hnodes, hseparated⟩ :=
    separated_turns_sound hitem hturns hs hcomplete
  have hall : items.nodes = nodes := hnodes
  rw [hall]
  exact ⟨used, hused, htokens, hseparated⟩

/-- A list between round brackets is derived as such: `h` is what its production reads. -/
theorem enclosed_sound {item : Production (Option Node)} {P : List Token → Node → Prop}
    (hitem : Derives beside item P) {kind : NodeKind} {opening : Token} {node : Node}
    (ho : opening.isSymbol '(' = true) (hs : Legible beside tokens)
    (h : (∃ closing, closing.isSymbol ')' = true ∧ tokens = closing :: rest ∧
        Node.mk kind opening [] = node) ∨
      (tokens.head?.any (fun t => t.isSymbol ')') = false ∧
        ∃ items closing, (separated item).Reads past tokens items (closing :: rest) ∧
          items.complete = true ∧ closing.isSymbol ')' = true ∧
          Node.mk kind opening items.nodes = node)) :
    ∃ listed, tokens = listed ++ rest ∧ Enclosed P kind (opening :: listed) node := by
  rcases h with ⟨closing, hc, rfl, rfl⟩ | ⟨_, items, closing, hitems, hcomplete, hc, rfl⟩
  · exact ⟨[closing], rfl, .empty ho hc⟩
  · obtain ⟨used, _, rfl, hused⟩ := separated_sound hitem hs hitems hcomplete
    exact ⟨used ++ [closing], by simp, .list ho hused hc⟩

/-! ### Names and types -/

theorem isName_iff {t : Token} : isName t = true ↔ IsName t := by
  simp [isName, IsName]

theorem isQualifier_iff {t : Token} : isQualifier t = true ↔ IsQualifier t := by
  simp [isQualifier, IsQualifier]

theorem isLiteral_of_literalKind? {t : Token} {kind : NodeKind} (h : literalKind? t = some kind) :
    IsLiteral t kind := by
  have hbool : t.isWord "true" = true ∨ t.isWord "false" = true → IsLiteral t .boolLiteral := by
    simp only [Token.isWord, Bool.and_eq_true, beq_iff_eq]
    rintro (⟨hkind, htext⟩ | ⟨hkind, htext⟩)
    · exact .bool hkind (.inl htext)
    · exact .bool hkind (.inr htext)
  simp only [literalKind?] at h
  split at h
  case isTrue hinteger => exact Option.some.inj h ▸ .integer hinteger
  case isFalse =>
    split at h
    case isTrue hfloat => exact Option.some.inj h ▸ .float hfloat
    case isFalse =>
      split at h
      case isTrue hstring => exact Option.some.inj h ▸ .string hstring
      case isFalse =>
        split at h
        case isTrue hword => exact Option.some.inj h ▸ hbool hword
        case isFalse => cases h

theorem typenameWithin_sound (levels : Nat) : Derives beside (typenameWithin levels) IsTypename := by
  induction levels with
  | zero =>
      intro past tokens rest node _ h
      obtain ⟨name, hname, rfl, rfl⟩ := reads_typenameWithin_zero.mp h
      exact ⟨[name], by simp, rfl, .bare (isName_iff.mp hname)⟩
  | succ levels ih =>
      intro past tokens rest node hs h
      obtain ⟨name, mid, arguments, hname, rfl, harguments, rfl⟩ := reads_typenameWithin_succ.mp h
      cases arguments with
      | none =>
          obtain ⟨rfl, _⟩ := reads_typeArguments_none.mp harguments
          exact ⟨[name], by simp, rfl, .bare (isName_iff.mp hname)⟩
      | some nodes =>
          obtain ⟨opening, inner, items, closing, ho, rfl, hitems, hcomplete, hc, rfl⟩ :=
            reads_typeArguments_some.mp harguments
          obtain ⟨used, _, rfl, hused⟩ := separated_sound ih hs.tail.tail hitems hcomplete
          exact ⟨name :: opening :: used ++ [closing], by simp, by simp,
            .generic (isName_iff.mp hname) ho hused hc⟩

/-- Qualifiers, a type name and a name. -/
theorem typed_sound {qualifiers : List Node} {left : List Token} {type : Node} {name : Token}
    (hs : Legible beside tokens) (hq : typeQualifiers.Reads past tokens qualifiers left)
    (ht : typename.Reads past left (some type) (name :: rest)) (hname : isName name = true) :
    ∃ used, used ≠ [] ∧ tokens = used ++ rest ∧
      IsTyped used name (qualifiers ++ [type, Node.leaf .identifier name]) := by
  obtain ⟨words, rfl, hwords, _, rfl⟩ := reads_typeQualifiers.mp hq
  obtain ⟨used, _, rfl, hused⟩ := typenameWithin_sound nestingLimit hs.right ht
  exact ⟨words ++ used ++ [name], by simp, by simp,
    .mk (fun t hw => isQualifier_iff.mp (hwords t hw)) hused (isName_iff.mp hname)⟩

/-! ### Expressions -/

section expressions

variable {e operand : Production (Option Node)}

theorem primary_sound (he : Derives beside e (IsExpression beside)) :
    Derives beside (primary e) (IsPrimary beside) := by
  intro past tokens rest node hs h
  rcases reads_primary_some.mp h with ⟨t, kind, hkind, rfl, rfl⟩ | ⟨t, hname, rfl, rfl⟩ |
    ⟨opening, mid, closing, ho, rfl, hinner, hc⟩
  · exact ⟨[t], by simp, rfl, .literal (isLiteral_of_literalKind? hkind)⟩
  · exact ⟨[t], by simp, rfl, .name (isName_iff.mp hname)⟩
  · obtain ⟨used, _, rfl, hused⟩ := he hs.tail hinner
    exact ⟨opening :: used ++ [closing], by simp, by simp, .parentheses ho hused hc⟩

/-- What one suffix does to a suffixed expression. -/
theorem suffix_sound (he : Derives beside e (IsExpression beside)) {node next : Node} (hs : Legible beside tokens)
    (h : (suffix e node).Reads past tokens (.again next) rest) :
    ∃ used, used ≠ [] ∧ tokens = used ++ rest ∧
      ∀ before, IsSuffixed beside before node → IsSuffixed beside (before ++ used) next := by
  cases tokens with
  | nil => simp [suffix, Option.exists] at h
  | cons t tokens =>
      rcases reads_suffix_again.mp h with ⟨ho, arguments, harguments, rfl⟩ |
        ⟨hdot, name, hname, rfl, rfl⟩ | ⟨ho, index, closing, hindex, hc, rfl⟩
      · obtain ⟨listed, rfl, hlisted⟩ := enclosed_sound he ho hs.tail (reads_listed.mp harguments)
        exact ⟨t :: listed, by simp, rfl, fun before hbefore => .call hbefore hlisted⟩
      · exact ⟨[t, name], by simp, rfl,
          fun before hbefore => .member hbefore hdot (isName_iff.mp hname)⟩
      · obtain ⟨used, _, rfl, hused⟩ := he hs.tail hindex
        refine ⟨t :: used ++ [closing], by simp, by simp, fun before hbefore => ?_⟩
        have hrule := IsSuffixed.index hbefore ho hused hc
        simpa using hrule

theorem suffix_turns_sound (he : Derives beside e (IsExpression beside)) {node last : Node}
    (h : Turns (suffix e) past node tokens last rest) (hs : Legible beside tokens) :
    ∃ used, tokens = used ++ rest ∧
      ∀ before, IsSuffixed beside before node → IsSuffixed beside (before ++ used) last := by
  induction h with
  | done hturn =>
      obtain ⟨_, _, _, rfl, rfl⟩ := reads_suffix_done.mp hturn
      exact ⟨[], rfl, fun before hbefore => by simpa using hbefore⟩
  | again hturn _ _ ih =>
      obtain ⟨used, _, rfl, hused⟩ := suffix_sound he hs hturn
      obtain ⟨more, rfl, hmore⟩ := ih hs.right
      refine ⟨used ++ more, by simp, fun before hbefore => ?_⟩
      rw [← List.append_assoc]
      exact hmore _ (hused before hbefore)

theorem suffixed_sound (he : Derives beside e (IsExpression beside)) :
    Derives beside (suffixed e) (IsSuffixed beside) := by
  intro past tokens rest node hs h
  obtain ⟨base, mid, hbase, hsuffixes⟩ := reads_suffixed_some.mp h
  obtain ⟨used, hused, rfl, hderived⟩ := primary_sound he hs hbase
  have hturn : ∀ state tokens next mid, Legible beside tokens →
      (suffix e state).Reads past tokens (.again next) mid →
      Legible beside mid ∧ mid.length < tokens.length := by
    intro state tokens next mid hs hagain
    obtain ⟨taken, htaken, rfl, _⟩ := suffix_sound he hs hagain
    exact hs.after htaken
  obtain ⟨more, rfl, hmore⟩ :=
    suffix_turns_sound he (Turns.of_reads hturn hs.right hsuffixes) hs.right
  exact ⟨used ++ more, by simp [hused], by simp, hmore _ (.primary hderived)⟩

theorem isSign_iff {t : Token} : isSign t = true ↔
    t.isSymbol '-' = true ∨ t.isSymbol '+' = true ∨ t.isSymbol '!' = true := by
  simp [isSign, or_assoc]

theorem unary_sound {operand? : Option (Production (Option Node))}
    (hoperand : ∀ p, operand? = some p → Derives beside p (IsUnary beside))
    (he : Derives beside e (IsExpression beside)) :
    Derives beside (unary operand? e) (IsUnary beside) := by
  intro past tokens rest node hs h
  rcases reads_unary.mp h with ⟨_, hsuffixed⟩ | ⟨p, t, tail, inner, hp, hsign, rfl, hinner, hnode⟩
  · obtain ⟨used, hused, htokens, hderived⟩ := suffixed_sound he hs hsuffixed
    exact ⟨used, hused, htokens, .suffixed hderived⟩
  · obtain ⟨used, _, rfl, hderived⟩ := hoperand p hp hs.tail hinner
    obtain rfl := Option.some.inj hnode
    exact ⟨t :: used, by simp, rfl, .sign (isSign_iff.mp hsign) hderived⟩

/-! ### Operators -/

theorem mem_operatorsAt_of_precedence? {text : String} {k : Nat} (h : precedence? text = some k) :
    text ∈ operatorsAt k ∧ k ≤ 6 := by
  unfold precedence? at h
  split at h <;> first | (cases h; done) | (obtain rfl := Option.some.inj h; simp [operatorsAt])

/-- A symbol that is one character. -/
theorem Legible.exists_isSymbol {t : Token} (hs : Legible beside (t :: rest))
    (h : t.kind = .symbol) : ∃ c, t.isSymbol c = true ∧ t.text = String.ofList [c] := by
  have hlength := hs.single t List.mem_cons_self h
  rw [← String.length_toList] at hlength
  obtain ⟨c, hc⟩ := List.length_eq_one_iff.mp hlength
  refine ⟨c, by simp [Token.isSymbol, h, hc], ?_⟩
  rw [← hc, String.ofList_toList]

/-- An operator that is looser than `least` is the only one that can follow where none of `least`
does. -/
theorem le_of_binaryOperator?_none {q least : Nat} {token : Token} {width k : Nat}
    (hnone : binaryOperator? (q + 1) tokens = none)
    (h : binaryOperator? least tokens = some (token, width, k)) : k ≤ q := by
  obtain ⟨hoperator, hprecedence, _⟩ := binaryOperator?_eq_some.mp h
  refine Nat.le_of_not_lt fun hlt => ?_
  have hsome : binaryOperator? (q + 1) tokens = some (token, width, k) :=
    binaryOperator?_eq_some.mpr ⟨hoperator, hprecedence, by omega⟩
  rw [hnone] at hsome
  cases hsome

theorem operator_sound {least : Nat} {token : Token} {width k : Nat} (hs : Legible beside tokens)
    (h : binaryOperator? least tokens = some (token, width, k)) :
    ∃ joint, joint ≠ [] ∧ tokens = joint ++ tokens.drop width ∧ IsOperator beside k joint token ∧
      least ≤ k ∧ k ≤ 6 := by
  obtain ⟨hoperator, hprecedence, hleast⟩ := binaryOperator?_eq_some.mp h
  obtain ⟨hmem, hk⟩ := mem_operatorsAt_of_precedence? hprecedence
  rcases operator?_eq_some hoperator with ⟨tail, rfl, rfl, hkind⟩ |
    ⟨first, second, tail, rfl, rfl, hfirst, hsecond, hadjacent, _, rfl⟩
  · obtain ⟨c, hc, htext⟩ := hs.exists_isSymbol hkind
    rw [htext] at hmem
    exact ⟨[token], by simp, rfl, .single hc hmem, hleast, hk⟩
  · obtain ⟨c, hc, hctext⟩ := hs.exists_isSymbol hfirst
    obtain ⟨d, hd, hdtext⟩ := hs.tail.exists_isSymbol hsecond
    have htext : (joinTokens first second).text = String.ofList [c, d] := by
      show first.text ++ second.text = _
      rw [hctext, hdtext, ← String.ofList_append]
      rfl
    rw [htext] at hmem
    have hbeside := hs.joins first second (List.prefix_append [first, second] tail).isInfix hfirst hsecond
      hadjacent
    exact ⟨[first, second], by simp, rfl, .joined hc hd hbeside hmem, hleast, hk⟩

theorem IsBinary.loosen {used : List Token} {node : Node} {k : Nat} :
    ∀ {n : Nat}, IsBinary beside (k + n) used node → IsBinary beside k used node
  | 0, h => h
  | _ + 1, h => IsBinary.loosen (.tighter h)

/-- What is of a stratum is of every looser one. -/
theorem IsBinary.loosen_of_le {used : List Token} {node : Node} {k q : Nat}
    (h : IsBinary beside q used node) (hk : k ≤ q) : IsBinary beside k used node := by
  obtain ⟨n, rfl⟩ := Nat.exists_eq_add_of_le hk
  exact h.loosen

/-- What the production finds is of stratum `k`, and no operator of that stratum or a tighter one
follows it. -/
def DerivesStratum (beside : Token → Token → Prop) (p : Production (Option Node)) (k : Nat) : Prop :=
  ∀ {past : Span} {tokens rest : List Token} {node : Node}, Legible beside tokens →
    p.Reads past tokens (some node) rest →
    ∃ used, used ≠ [] ∧ tokens = used ++ rest ∧ IsBinary beside k used node ∧
      binaryOperator? k rest = none

section climbing

variable {right : Nat → Production (Option Node)} {least : Nat}

/-- One operator and its right side: the operator is no tighter than what was read before it. -/
theorem extendBinary_sound (hright : ∀ k, least ≤ k → k ≤ 6 → DerivesStratum beside (right k) (k + 1))
    {node next : Node} (hs : Legible beside tokens)
    (h : (extendBinary right least node).Reads past tokens (.again next) rest) :
    ∃ k used, least ≤ k ∧ used ≠ [] ∧ tokens = used ++ rest ∧ binaryOperator? (k + 1) rest = none ∧
      (∀ q, binaryOperator? (q + 1) tokens = none → k ≤ q) ∧
      ∀ before, IsBinary beside k before node → IsBinary beside k (before ++ used) next := by
  obtain ⟨token, width, k, other, hoperator, hother, rfl⟩ := reads_extendBinary_again.mp h
  obtain ⟨joint, hjoint, htokens, hderived, hleast, hk⟩ := operator_sound hs hoperator
  rw [htokens] at hs
  obtain ⟨used, _, hdrop, hused, hstop⟩ := hright k hleast hk hs.right hother
  refine ⟨k, joint ++ used, hleast, by simp [hjoint], ?_, hstop, ?_, ?_⟩
  · rw [htokens, hdrop, List.append_assoc]
  · exact fun q hnone => le_of_binaryOperator?_none hnone hoperator
  · intro before hbefore
    rw [← List.append_assoc]
    exact .operator hbefore hderived hused

theorem extendBinary_turns_sound
    (hright : ∀ k, least ≤ k → k ≤ 6 → DerivesStratum beside (right k) (k + 1)) {node last : Node}
    (h : Turns (extendBinary right least) past node tokens last rest) (hs : Legible beside tokens) :
    ∀ {q : Nat} {before : List Token}, least ≤ q → IsBinary beside q before node →
      binaryOperator? (q + 1) tokens = none →
      ∃ used, tokens = used ++ rest ∧ IsBinary beside least (before ++ used) last ∧
        binaryOperator? least rest = none := by
  induction h with
  | done hturn =>
      obtain ⟨hstop, rfl, rfl⟩ := reads_extendBinary_done.mp hturn
      intro q before hq hbefore _
      refine ⟨[], rfl, ?_, hstop⟩
      rw [List.append_nil]
      exact hbefore.loosen_of_le hq
  | again hturn _ _ ih =>
      intro q before _ hbefore hnone
      obtain ⟨k, used, hk, _, rfl, hstop, hle, hnext⟩ := extendBinary_sound hright hs hturn
      have hextended := hnext before (hbefore.loosen_of_le (hle q hnone))
      obtain ⟨more, rfl, hmore, hend⟩ := ih hs.right hk hextended hstop
      refine ⟨used ++ more, (List.append_assoc _ _ _).symm, ?_, hend⟩
      rw [← List.append_assoc]
      exact hmore

end climbing

/-- No operator binds more tightly than those of the sixth stratum. -/
theorem binaryOperator?_eq_none {least : Nat} (hleast : 7 ≤ least) (tokens : List Token) :
    binaryOperator? least tokens = none := by
  cases hoperator : binaryOperator? least tokens with
  | none => rfl
  | some found =>
      obtain ⟨token, width, k⟩ := found
      obtain ⟨_, hprecedence, hle⟩ := binaryOperator?_eq_some.mp hoperator
      have hk := (mem_operatorsAt_of_precedence? hprecedence).2
      omega

/-- **Precedence climbing.**  An expression read with operators of precedence `least` and tighter is
of stratum `least`. -/
theorem binary_sound (hoperand : Derives beside operand (IsUnary beside)) :
    ∀ (levels : Nat) {least : Nat}, 7 ≤ levels + least → least ≤ 7 →
      DerivesStratum beside (binary operand levels least) least := by
  intro levels
  induction levels with
  | zero =>
      intro least hlevels hleast past tokens rest node hs h
      obtain rfl : least = 7 := by omega
      obtain ⟨used, hused, htokens, hderived⟩ := hoperand hs h
      exact ⟨used, hused, htokens, .unary hderived, binaryOperator?_eq_none (Nat.le_refl 7) rest⟩
  | succ levels ih =>
      intro least hlevels hleast past tokens rest node hs h
      have hright : ∀ k, least ≤ k → k ≤ 6 →
          DerivesStratum beside (binary operand levels (k + 1)) (k + 1) :=
        fun k hk hk6 => ih (by omega) (by omega)
      have hturn : ∀ state tokens next mid, Legible beside tokens →
          (extendBinary (fun k => binary operand levels (k + 1)) least state).Reads past tokens
            (.again next) mid → Legible beside mid ∧ mid.length < tokens.length := by
        intro state tokens next mid hs hagain
        obtain ⟨k, used, _, hused, rfl, _⟩ := extendBinary_sound hright hs hagain
        exact hs.after hused
      obtain ⟨first, mid, hfirst, hloop⟩ := reads_binary_succ_some.mp h
      obtain ⟨used, hused, rfl, hderived⟩ := hoperand hs hfirst
      have hstop : binaryOperator? (7 + 1) mid = none := binaryOperator?_eq_none (by decide) mid
      obtain ⟨more, rfl, hmore, hend⟩ := extendBinary_turns_sound hright
        (Turns.of_reads hturn hs.right hloop) hs.right hleast (.unary hderived) hstop
      exact ⟨used ++ more, by simp [hused], (List.append_assoc _ _ _).symm, hmore, hend⟩

theorem assignment_sound (hoperand : Derives beside operand (IsUnary beside))
    (he : Derives beside e (IsExpression beside)) :
    Derives beside (assignment operand e) (IsExpression beside) := by
  intro past tokens rest node hs h
  obtain ⟨target, mid, htarget, hvalue⟩ := reads_assignment_some.mp h
  obtain ⟨left, hleft, rfl, hderived, _⟩ :=
    binary_sound hoperand precedenceLevels (by decide) (by decide) hs htarget
  rcases hvalue with ⟨token, width, value, hoperator, htext, hvalue, rfl⟩ | ⟨_, rfl, rfl⟩
  · obtain ⟨hequals, hmid⟩ := equals_sound hoperator htext
    have hs' := hs.right
    rw [hmid] at hs'
    obtain ⟨right, _, hdrop, hright⟩ := he hs'.tail hvalue
    refine ⟨left ++ token :: right, by simp, ?_, .assignment hderived hequals hright⟩
    rw [hmid, hdrop]
    simp
  · exact ⟨left, hleft, rfl, .binary hderived⟩

/-- Expressions, with any amount of nesting left. -/
theorem level_sound (units : Nat) :
    Derives beside (level units).expression (IsExpression beside) ∧
      Derives beside (level units).unary (IsUnary beside) := by
  induction units with
  | zero =>
      have he : Derives beside (level 0).expression (IsExpression beside) := by
        intro past tokens rest node _ h
        simp [level] at h
      have hunary : Derives beside (unary none (level 0).expression) (IsUnary beside) :=
        unary_sound (fun p hp => by cases hp) he
      exact ⟨he, hunary⟩
  | succ units ih =>
      have he : Derives beside (level (units + 1)).expression (IsExpression beside) :=
        assignment_sound ih.2 ih.1
      have hunary : Derives beside (unary (some (level units).unary) (level (units + 1)).expression)
          (IsUnary beside) :=
        unary_sound (fun p hp => Option.some.inj hp ▸ ih.2) he
      exact ⟨he, hunary⟩

theorem expression_sound (units : Nat) : Derives beside (expression units) (IsExpression beside) :=
  (level_sound units).1

end expressions

/-- A missing expression takes no tokens. -/
theorem reads_unary_none {operand? : Option (Production (Option Node))} {e : Production (Option Node)}
    (h : (unary operand? e).Reads past tokens none rest) : rest = tokens := by
  rcases reads_unary.mp h with ⟨_, hsuffixed⟩ | ⟨_, _, _, _, _, _, _, _, hnode⟩
  · exact reads_primary_none (reads_suffixed_none.mp hsuffixed)
  · cases hnode

theorem reads_expression_none {units : Nat} (h : (expression units).Reads past tokens none rest) :
    rest = tokens := by
  cases units with
  | zero => simp [expression, level] at h
  | succ units =>
      have hunary := reads_assignment_none.mp h
      obtain ⟨operand?, hlevel⟩ := level_unary units
      rw [hlevel] at hunary
      exact reads_unary_none hunary

/-! ### Statements -/

/-- What the production reads from an opening bracket on derives from the tokens it takes. -/
def DerivesFrom (beside : Token → Token → Prop) (c : Char) (p : Production Node)
    (P : List Token → Node → Prop) : Prop :=
  ∀ {past : Span} {opening : Token} {tokens rest : List Token} {node : Node},
    opening.isSymbol c = true → Legible beside tokens → p.Reads past (opening :: tokens) node rest →
    ∃ listed, tokens = listed ++ rest ∧ P (opening :: listed) node

theorem DerivesFrom.derives {c : Char} {p : Production Node} {P : List Token → Node → Prop}
    (hp : DerivesFrom beside c p P) {node : Node} (hs : Legible beside tokens)
    (hc : tokens.head?.any (fun t => t.isSymbol c) = true) (h : p.Reads past tokens node rest) :
    ∃ used, used ≠ [] ∧ tokens = used ++ rest ∧ P used node := by
  obtain ⟨opening, tail, rfl, ho⟩ := head?_any_eq_true.mp hc
  obtain ⟨listed, rfl, hlisted⟩ := hp ho hs.tail h
  exact ⟨opening :: listed, by simp, rfl, hlisted⟩

/-- Items of a braced list up to its end. -/
inductive BracedItems (beside : Token → Token → Prop) : List Token → List Node → Prop
  | nil : BracedItems beside [] []
  | separated {used : List Token} {nodes : List Node} (h : Separated (IsInitialiser beside) used nodes) :
      BracedItems beside used nodes
  | trailing {used : List Token} {comma : Token} {nodes : List Node}
      (h : Separated (IsInitialiser beside) used nodes) (hcomma : comma.isSymbol ',' = true) :
      BracedItems beside (used ++ [comma]) nodes

theorem BracedItems.cons {used more : List Token} {comma : Token} {node : Node} {nodes : List Node}
    (h : IsInitialiser beside used node) (hcomma : comma.isSymbol ',' = true)
    (hmore : BracedItems beside more nodes) : BracedItems beside (used ++ comma :: more) (node :: nodes) := by
  cases hmore with
  | nil => exact .trailing (.one h) hcomma
  | separated hmore => exact .separated (.cons h hcomma hmore)
  | trailing hmore hlast =>
      rw [← List.cons_append, ← List.append_assoc]
      exact .trailing (.cons h hcomma hmore) hlast

theorem BracedItems.isBraced {used : List Token} {nodes : List Node} (h : BracedItems beside used nodes)
    {opening closing : Token} (ho : opening.isSymbol '{' = true) (hc : closing.isSymbol '}' = true) :
    IsBraced beside (opening :: used ++ [closing]) (.mk .bracedInitList opening nodes) := by
  cases h with
  | nil => exact .empty ho hc
  | separated h => exact .list ho h hc
  | trailing h hcomma =>
      have hbraced := IsBraced.trailing ho h hcomma hc
      simpa using hbraced

theorem braced_turns_sound {item : Production (Option Node)} (hitem : Derives beside item (IsInitialiser beside))
    {items last : Items} (h : Turns (nextBraced item) past items tokens last rest)
    (hs : Legible beside tokens) (hcomplete : last.complete = true) :
    ∃ used nodes, tokens = used ++ rest ∧ last.nodes = items.nodes ++ nodes ∧
      BracedItems beside used nodes := by
  induction h with
  | done hturn =>
      rcases reads_nextBraced.mp hturn with ⟨_, hdone, rfl⟩ | ⟨_, hturn⟩
      · cases hdone
        exact ⟨[], [], rfl, (List.append_nil _).symm, .nil⟩
      · rcases reads_nextItem_done.mp hturn with ⟨_, rfl⟩ | ⟨node, hnode, _, rfl⟩
        · cases hcomplete
        · obtain ⟨used, _, htokens, hderived⟩ := hitem hs hnode
          exact ⟨used, [node], htokens, rfl, .separated (.one hderived)⟩
  | again hturn _ _ ih =>
      rcases reads_nextBraced.mp hturn with ⟨_, hdone, _⟩ | ⟨_, hturn⟩
      · cases hdone
      · obtain ⟨node, comma, hnode, hcomma, rfl⟩ := reads_nextItem_again.mp hturn
        obtain ⟨used, _, rfl, hderived⟩ := hitem hs hnode
        obtain ⟨more, nodes, rfl, hnodes, hmore⟩ := ih hs.right.tail hcomplete
        refine ⟨used ++ comma :: more, node :: nodes, by simp, ?_, .cons hderived hcomma hmore⟩
        rw [hnodes]
        simp

theorem bracedItem_sound {list : Production Node} (hlist : DerivesFrom beside '{' list (IsBraced beside))
    (units : Nat) :
    Derives beside (bracedItem list (expression units)) (IsInitialiser beside) := by
  intro past tokens rest node hs h
  rcases reads_bracedItem_some.mp h with ⟨ho, hnode⟩ | ⟨_, hnode⟩
  · obtain ⟨used, hused, htokens, hderived⟩ := hlist.derives hs ho hnode
    exact ⟨used, hused, htokens, .braced hderived⟩
  · obtain ⟨used, hused, htokens, hderived⟩ := expression_sound units hs hnode
    exact ⟨used, hused, htokens, .expression hderived⟩

theorem bracedList_sound (units : Nat) : DerivesFrom beside '{' (bracedList units) (IsBraced beside) := by
  induction units with
  | zero =>
      intro past opening tokens rest node _ _ h
      exact absurd h not_reads_tooDeep
  | succ units ih =>
      intro past opening tokens rest node ho hs h
      have hitem : Derives beside (bracedItem (bracedList units) (expression units)) (IsInitialiser beside) :=
        bracedItem_sound ih units
      have hturn : ∀ state tokens next mid, Legible beside tokens →
          (nextBraced (bracedItem (bracedList units) (expression units)) state).Reads past tokens
            (.again next) mid → Legible beside mid ∧ mid.length < tokens.length := by
        intro state tokens next mid hs hagain
        rcases reads_nextBraced.mp hagain with ⟨_, hdone, _⟩ | ⟨_, hagain⟩
        · cases hdone
        · exact nextItem_after hitem hs hagain
      obtain ⟨items, closing, hitems, hcomplete, hc, rfl⟩ := reads_bracedList_succ.mp h
      obtain ⟨used, nodes, rfl, hnodes, hderived⟩ :=
        braced_turns_sound hitem (Turns.of_reads hturn hs hitems) hs hcomplete
      have hall : items.nodes = nodes := hnodes
      rw [hall]
      exact ⟨used ++ [closing], by simp, hderived.isBraced ho hc⟩

theorem initialiser_sound {units : Nat} {node : Node} (hs : Legible beside tokens)
    (h : (initialiser units).Reads past tokens node rest) :
    ∃ used, tokens = used ++ rest ∧ IsInitialiser beside used node := by
  rcases reads_initialiser.mp h with ⟨ho, hnode⟩ | ⟨_, hnode⟩
  · obtain ⟨used, _, htokens, hderived⟩ := DerivesFrom.derives (bracedList_sound units) hs ho hnode
    exact ⟨used, htokens, .braced hderived⟩
  · obtain ⟨used, _, htokens, hderived⟩ := expression_sound units hs hnode
    exact ⟨used, htokens, .expression hderived⟩

theorem variableDeclaration_sound (units : Nat) :
    Derives beside (variableDeclaration units) (IsVariable beside) := by
  intro past tokens rest node hs h
  obtain ⟨qualifiers, left, type, mid, name, value, ending, hq, ht, hname, hvalue, hending, rfl⟩ :=
    reads_variableDeclaration_some.mp h
  obtain ⟨used, hused, rfl, htyped⟩ := typed_sound hs hq ht hname
  rcases reads_initialValue.mp hvalue with
    ⟨_, rfl, rfl⟩ | ⟨equals, tail, initial, hequals, rfl, hinitial, rfl⟩
  · rw [List.append_nil]
    exact ⟨used ++ [ending], by simp, by simp, .plain htyped hending⟩
  · obtain ⟨taken, rfl, hderived⟩ := initialiser_sound hs.right.tail hinitial
    exact ⟨used ++ equals :: taken ++ [ending], by simp, by simp,
      .initialised htyped hequals hderived hending⟩

theorem returnStatement_sound {units : Nat} {word : Token} {node : Node}
    (hword : word.isWord "return" = true) (hs : Legible beside tokens)
    (h : (returnStatement units).Reads past (word :: tokens) node rest) :
    ∃ used, tokens = used ++ rest ∧ IsStatement beside (word :: used) node := by
  obtain ⟨value?, ending, hvalue, hending, rfl⟩ := reads_returnStatement.mp h
  rcases hvalue with ⟨_, rfl, rfl⟩ | ⟨hnext, hvalue⟩
  · exact ⟨[ending], rfl, .returnNothing hword hending⟩
  · cases value? with
    | none =>
        -- nothing was read, so the semicolon would have been seen
        obtain rfl := reads_expression_none hvalue
        simp [hending] at hnext
    | some value =>
        obtain ⟨used, _, rfl, hderived⟩ := expression_sound units hs hvalue
        exact ⟨used ++ [ending], by simp, .returnValue hword hderived hending⟩

theorem expressionStatement_sound (units : Nat) :
    Derives beside (expressionStatement units) (IsStatement beside) := by
  intro past tokens rest node hs h
  obtain ⟨inner, ending, hinner, hending, rfl⟩ := reads_expressionStatement_some.mp h
  obtain ⟨used, hused, rfl, hderived⟩ := expression_sound units hs hinner
  cases used with
  | nil => exact absurd rfl hused
  | cons t used => exact ⟨t :: used ++ [ending], by simp, by simp, .expression hderived hending⟩

theorem statement_sound {block : Production Node} (hblock : DerivesFrom beside '{' block (IsBlock beside))
    (units : Nat) {node : Node} (hs : Legible beside tokens) (hlt : rest.length < tokens.length)
    (h : (statement block units).Reads past tokens (some node) rest) :
    ∃ used, tokens = used ++ rest ∧ IsStatement beside used node := by
  cases tokens with
  | nil => exact absurd hlt (Nat.not_lt_zero _)
  | cons t tokens =>
      rcases reads_statement_some.mp h with ⟨ht, rfl, rfl⟩ | ⟨ht, hnode⟩ | ⟨ht, hnode⟩ |
        ⟨_, _, _, hnode | ⟨mid, hnone, hnode⟩⟩
      · exact ⟨[t], rfl, .empty ht⟩
      · obtain ⟨listed, rfl, hderived⟩ := hblock ht hs.tail hnode
        exact ⟨t :: listed, rfl, .block hderived⟩
      · obtain ⟨used, rfl, hderived⟩ := returnStatement_sound ht hs.tail hnode
        exact ⟨t :: used, rfl, hderived⟩
      · obtain ⟨used, _, htokens, hderived⟩ := variableDeclaration_sound units hs hnode
        exact ⟨used, htokens, .variable hderived⟩
      · obtain ⟨rfl, _⟩ := reads_variableDeclaration_none.mp hnone
        obtain ⟨used, _, htokens, hderived⟩ := expressionStatement_sound units hs hnode
        exact ⟨used, htokens, hderived⟩

theorem statements_turns_sound {block : Production Node} (hblock : DerivesFrom beside '{' block (IsBlock beside))
    {units : Nat} {nodes last : List Node}
    (h : Turns (nextStatement (statement block units)) past nodes tokens last rest)
    (hs : Legible beside tokens) :
    ∃ used closing more, tokens = used ++ closing :: rest ∧ closing.isSymbol '}' = true ∧
      last = nodes ++ more ∧ Sequence (IsStatement beside) used more := by
  induction h with
  | done hturn =>
      obtain ⟨⟨closing, hc, rfl⟩, rfl⟩ := reads_nextStatement_done.mp hturn
      exact ⟨[], closing, [], rfl, hc, (List.append_nil _).symm, .nil⟩
  | again hturn _ _ ih =>
      obtain ⟨_, node, hnode, hlt, rfl⟩ := reads_nextStatement_again.mp hturn
      obtain ⟨used, rfl, hderived⟩ := statement_sound hblock units hs hlt hnode
      obtain ⟨more, closing, nodes, rfl, hc, rfl, hmore⟩ := ih hs.right
      exact ⟨used ++ more, closing, node :: nodes, by simp, hc, by simp, .cons hderived hmore⟩

theorem block_sound (units : Nat) : DerivesFrom beside '{' (block units) (IsBlock beside) := by
  induction units with
  | zero =>
      intro past opening tokens rest node _ _ h
      exact absurd h not_reads_tooDeep
  | succ units ih =>
      intro past opening tokens rest node ho hs h
      have hturn : ∀ state tokens next mid, Legible beside tokens →
          (nextStatement (statement (block units) units) state).Reads past tokens (.again next) mid →
          Legible beside mid ∧ mid.length < tokens.length := by
        intro state tokens next mid hs hagain
        obtain ⟨_, node, hnode, hlt, _⟩ := reads_nextStatement_again.mp hagain
        obtain ⟨used, rfl, _⟩ := statement_sound ih units hs hlt hnode
        exact ⟨hs.right, hlt⟩
      obtain ⟨nodes, hnodes, rfl⟩ := reads_block_succ.mp h
      obtain ⟨used, closing, more, rfl, hc, hmore, hderived⟩ :=
        statements_turns_sound ih (Turns.of_reads hturn hs hnodes) hs
      have hall : nodes = more := hmore
      rw [hall]
      exact ⟨used ++ [closing], by simp, .mk ho hderived hc⟩

/-! ### Declarations -/

theorem argumentList_sound {e : Production (Option Node)} (he : Derives beside e (IsExpression beside)) :
    DerivesFrom beside '(' (argumentList e) (Enclosed (IsExpression beside) .argumentList) :=
  fun ho hs h => enclosed_sound he ho hs (reads_listed.mp h)

theorem attributeItem_sound : Derives beside attributeItem (IsAttribute beside) := by
  intro past tokens rest node hs h
  obtain ⟨name, mid, hname, rfl, hrest⟩ := reads_attributeItem_some.mp h
  rcases hrest with ⟨_, rfl, rfl⟩ | ⟨ho, arguments, harguments, rfl⟩
  · exact ⟨[name], by simp, rfl, .bare (isName_iff.mp hname)⟩
  · obtain ⟨used, _, rfl, hderived⟩ :=
      DerivesFrom.derives (argumentList_sound (expression_sound nestingLimit)) hs.tail ho harguments
    exact ⟨name :: used, by simp, rfl, .applied (isName_iff.mp hname) hderived⟩

theorem attributeList_sound {node? : Option Node} (hs : Legible beside tokens)
    (h : attributeList.Reads past tokens node? rest) :
    ∃ used, tokens = used ++ rest ∧ IsOptionalAttributes beside used node?.toList := by
  cases node? with
  | none =>
      obtain ⟨_, rfl⟩ := reads_attributeList_none.mp h
      exact ⟨[], rfl, .none⟩
  | some node =>
      obtain ⟨token, items, last, final, hopening, hitems, hcomplete, hlast, hfinal, rfl⟩ :=
        reads_attributeList_some.mp h
      obtain ⟨first, second, mid, hfirst, hsecond, rfl, rfl⟩ := attributeOpening?_eq_some.mp hopening
      obtain ⟨used, _, hmid, hderived⟩ :=
        separated_sound attributeItem_sound hs.tail.tail hitems hcomplete
      have hmid : mid = used ++ last :: final :: rest := hmid
      subst hmid
      exact ⟨first :: second :: used ++ [last, final], by simp,
        .some (.mk hfirst hsecond hderived hlast hfinal)⟩

theorem parameter_sound : Derives beside parameter IsParameter := by
  intro past tokens rest node hs h
  obtain ⟨qualifiers, left, type, name, hq, ht, hname, rfl⟩ := reads_parameter_some.mp h
  obtain ⟨used, hused, htokens, htyped⟩ := typed_sound hs hq ht hname
  exact ⟨used, hused, htokens, .mk htyped⟩

theorem parameterList_sound : DerivesFrom beside '(' parameterList (Enclosed IsParameter .parameterList) :=
  fun ho hs h => enclosed_sound parameter_sound ho hs (reads_listed.mp h)

theorem functionBody_sound {nodes : List Node} (hs : Legible beside tokens)
    (h : functionBody.Reads past tokens nodes rest) :
    ∃ used, tokens = used ++ rest ∧ IsBody beside used nodes := by
  rcases reads_functionBody.mp h with ⟨ho, body, hbody, rfl⟩ | ⟨ending, hending, rfl, rfl⟩
  · obtain ⟨used, _, htokens, hderived⟩ := DerivesFrom.derives (block_sound nestingLimit) hs ho hbody
    exact ⟨used, htokens, .block hderived⟩
  · exact ⟨[ending], rfl, .none hending⟩

theorem functionDeclaration_sound : Derives beside functionDeclaration (IsFunction beside) := by
  intro past tokens rest node hs h
  obtain ⟨attributes?, mid, qualifiers, left, type, opened, name, parameters, bodied, body,
    hattributes, hq, ht, hname, ho, hparameters, hbody, rfl⟩ := reads_functionDeclaration_some.mp h
  obtain ⟨attributed, rfl, hattributed⟩ := attributeList_sound hs hattributes
  obtain ⟨typed, htyped, rfl, hderived⟩ := typed_sound hs.right hq ht hname
  obtain ⟨listed, _, rfl, hlisted⟩ :=
    DerivesFrom.derives parameterList_sound hs.right.right ho hparameters
  obtain ⟨used, rfl, hused⟩ := functionBody_sound hs.right.right.right hbody
  refine ⟨attributed ++ typed ++ listed ++ used, by simp [htyped], by simp, ?_⟩
  have hfunction := IsFunction.mk hattributed hderived hlisted hused
  simpa using hfunction

theorem declarations_turns_sound {nodes last : List Node}
    (h : Turns nextDeclaration past nodes tokens last rest) (hs : Legible beside tokens) :
    ∃ more, last = nodes ++ more ∧ Sequence (IsFunction beside) tokens more := by
  induction h with
  | done hturn =>
      obtain ⟨rfl, _, rfl⟩ := reads_nextDeclaration_done.mp hturn
      exact ⟨[], (List.append_nil _).symm, .nil⟩
  | again hturn _ _ ih =>
      obtain ⟨_, node, hnode, rfl⟩ := reads_nextDeclaration_again.mp hturn
      obtain ⟨used, _, rfl, hderived⟩ := functionDeclaration_sound hs hnode
      obtain ⟨more, rfl, hmore⟩ := ih hs.right
      exact ⟨node :: more, by simp, .cons hderived hmore⟩

theorem programUnit_sound {node : Node} (hs : Legible beside tokens)
    (h : programUnit.Reads past tokens node rest) : IsUnit beside tokens node := by
  have hturn : ∀ state tokens next mid, Legible beside tokens →
      (nextDeclaration state).Reads past tokens (.again next) mid →
      Legible beside mid ∧ mid.length < tokens.length := by
    intro state tokens next mid hs hagain
    obtain ⟨_, node, hnode, _⟩ := reads_nextDeclaration_again.mp hagain
    exact Derives.after functionDeclaration_sound hs hnode
  obtain ⟨nodes, hnodes, rfl⟩ := reads_programUnit.mp h
  obtain ⟨more, hmore, hderived⟩ := declarations_turns_sound (Turns.of_reads hturn hs hnodes) hs
  have hall : nodes = more := hmore
  rw [hall]
  exact .mk hderived

end Shading.Grammar

namespace Shading

open Grammar

/-- The second token is taken to stand right behind the first only because offsets start over: the first
ends at the last offset that there is. -/
def StartsOver (first second : Token) : Prop :=
  adjacent first second = true ∧ UInt32.size ≤ first.span.last.index + 1

theorem sideBySide_of_adjacent {first second : Token} (h : adjacent first second = true)
    (hoffset : ¬ StartsOver first second) : SideBySide first second := by
  have hindex : first.span.last.index + 1 < UInt32.size := Nat.lt_of_not_le fun hle => hoffset ⟨h, hle⟩
  simp only [adjacent, Bool.and_eq_true, beq_iff_eq, following, Nat.mod_eq_of_lt hindex] at h
  exact h

/-- **Soundness of parsing.**  If nothing is reported, all the tokens in their order are derived as a
program text, and the tree of the derivation is the one returned.  Offsets have 32 bits, so in general the
symbols of an operator stand side by side up to that.  They do stand side by side if there are no two
symbols between which offsets start over. -/
theorem parse_sound (tokens : List Token)
    (hsymbols : ∀ t ∈ tokens, t.kind = .symbol → t.text.length = 1)
    (hclean : (parse tokens).2 = []) :
    IsUnit (fun first second => adjacent first second = true) tokens (parse tokens).1 ∧
      ((∀ first second, [first, second] <:+: tokens → first.kind = .symbol → second.kind = .symbol →
        ¬ StartsOver first second) → IsUnit SideBySide tokens (parse tokens).1) := by
  rw [Parser.parse_eq] at hclean ⊢
  have hreads := Production.reads_of_messages_eq_nil hclean
  constructor
  · exact programUnit_sound ⟨hsymbols, fun _ _ _ _ _ h => h⟩ hreads
  · intro hoffsets
    exact programUnit_sound ⟨hsymbols, fun first second hjoint hfirst hsecond h =>
      sideBySide_of_adjacent h (hoffsets first second hjoint hfirst hsecond)⟩ hreads

/-- Tokens of one line, each given by its column, its class and its text. -/
def lineTokens (pieces : List (Nat × TokenClass × String)) : List Token :=
  pieces.map fun (column, kind, text) =>
    let last := column + text.length - 1
    ⟨kind, ⟨⟨0, column, 0, column⟩, ⟨0, last, 0, last⟩⟩, text⟩

/-- The tokens of `f g(in t<u>x){a=-b<=c.d[1];}`. -/
def comparingSample : List Token :=
  lineTokens [(0, .identifier, "f"), (2, .identifier, "g"), (3, .symbol, "("),
    (4, .identifier, "in"), (7, .identifier, "t"), (8, .symbol, "<"), (9, .identifier, "u"),
    (10, .symbol, ">"), (11, .identifier, "x"), (12, .symbol, ")"), (13, .symbol, "\x7b"),
    (14, .identifier, "a"), (15, .symbol, "="), (16, .symbol, "-"), (17, .identifier, "b"),
    (18, .symbol, "<"), (19, .symbol, "="), (20, .identifier, "c"), (21, .symbol, "."),
    (22, .identifier, "d"), (23, .symbol, "["), (24, .integer, "1"), (25, .symbol, "]"),
    (26, .symbol, ";"), (27, .symbol, "\x7d")]

theorem parse_sound_comparingSample :
    (parse comparingSample).2 = [] ∧ IsUnit SideBySide comparingSample (parse comparingSample).1 := by
  have hclean : (parse comparingSample).2 = [] := by
    rw [Parser.parse_eq]
    decide +kernel
  have hoffsets : ∀ t ∈ comparingSample, t.span.last.index + 1 < UInt32.size := by decide +kernel
  refine ⟨hclean, (parse_sound comparingSample (by decide +kernel) hclean).2 ?_⟩
  intro first second hjoint _ _ hover
  exact Nat.not_le_of_lt (hoffsets first (hjoint.subset List.mem_cons_self)) hover.2

/-! ### Where offsets start over -/

/-- The operator of a binary expression stands among its tokens. -/
theorem Grammar.IsExpression.exists_operator {beside : Token → Token → Prop} {used : List Token}
    {node : Node} (h : IsExpression beside used node) : ∀ token a b,
    node = .mk .binaryExpression token [a, b] → ∃ k joint, joint <:+: used ∧
      IsOperator beside k joint token := by
  let P (used : List Token) (node : Node) : Prop := ∀ token a b,
    node = .mk .binaryExpression token [a, b] → ∃ k joint, joint <:+: used ∧
      IsOperator beside k joint token
  have hleaf : ∀ kind t, P [t] (.leaf kind t) := fun _ _ _ _ _ h => by simp [Node.leaf] at h
  have hother : ∀ {used kind token children}, kind ≠ .binaryExpression → P used (.mk kind token children) :=
    fun hkind _ _ _ h => absurd (Node.mk.inj h).1 hkind
  -- the only node with an operator is made by its rule; parentheses pass it on
  refine @IsExpression.rec beside (fun used node _ => P used node) (fun _ used node _ => P used node)
    (fun used node _ => P used node) (fun used node _ => P used node) (fun used node _ => P used node)
    (fun _ _ _ => True) (fun _ _ _ => True) (fun _ h => h) (fun _ _ _ _ _ => hother (by decide))
    (fun _ h => h) (fun _ h => h) ?_ (fun _ _ _ => hother (by decide)) (fun _ h => h) (fun _ h => h)
    (fun _ _ _ _ => hother (by decide)) (fun _ _ _ _ => hother (by decide))
    (fun _ _ _ _ _ _ => hother (by decide)) (fun _ => hleaf _ _) (fun _ => hleaf _ _) ?_
    (fun _ _ => trivial) (fun _ _ _ _ => trivial) (fun _ _ => trivial) (fun _ _ _ _ _ => trivial)
    used node h
  · rintro k left joint right token a b - hoperator - - - _ _ _ ⟨⟩
    exact ⟨k, joint, ⟨left, right, rfl⟩, hoperator⟩
  · intro opening closing used node _ _ _ ih token a b hnode
    obtain ⟨k, joint, hjoint, hoperator⟩ := ih token a b hnode
    exact ⟨k, joint, hjoint.trans ⟨[opening], [closing], rfl⟩, hoperator⟩

/-- A block at the end of a function is derived from some of its tokens. -/
theorem Grammar.IsFunction.exists_block {beside : Token → Token → Prop} {used : List Token} {name : Token}
    {front : List Node} {block : Node}
    (h : IsFunction beside used (.mk .functionDeclaration name (front ++ [block])))
    (hkind : block.kind = .compoundStatement) :
    ∃ bodied, bodied <:+: used ∧ IsBlock beside bodied block := by
  generalize hchildren : front ++ [block] = children at h
  cases h with
  | @mk attributed typed listed bodied _ _ _ _ _ _ _ hparameters hbody =>
      cases hbody with
      | block hblock =>
          obtain rfl := (List.append_singleton_inj.mp hchildren).2
          exact ⟨bodied, (List.suffix_append _ bodied).isInfix, hblock⟩
      | none =>
          -- without a body the parameters stand last
          rw [List.append_nil] at hchildren
          obtain rfl := (List.append_singleton_inj.mp hchildren).2
          cases hparameters <;> cases hkind

/-- The operator of the only statement of the only function stands among the tokens. -/
theorem Grammar.IsUnit.exists_operator {beside : Token → Token → Prop} {used : List Token}
    {t name brace start token : Token} {front : List Node} {a b : Node}
    (h : IsUnit beside used (.mk .programUnit t [.mk .functionDeclaration name (front ++
      [.mk .compoundStatement brace [.mk .expressionStatement start [.mk .binaryExpression token [a, b]]]])])) :
    ∃ k joint, joint <:+: used ∧ IsOperator beside k joint token := by
  obtain ⟨_ | @⟨function, others, _, _, hfunction, _⟩⟩ := h
  obtain ⟨bodied, hbodied, hblock⟩ := hfunction.exists_block rfl
  obtain @⟨_, closing, _, _, _, _ | @⟨statement, more, _, _, hstatement, _⟩, _⟩ := hblock
  have hinner : statement <:+: function ++ others :=
    ((List.prefix_append statement more).isInfix.trans ⟨[brace], [closing], rfl⟩).trans
      (hbodied.trans (List.prefix_append function others).isInfix)
  cases hstatement with
  | block h => cases h
  | «variable» h => cases h
  | @expression _ ending tokens _ h _ =>
      obtain ⟨k, joint, hjoint, hoperator⟩ := h.exists_operator token a b rfl
      exact ⟨k, joint, (hjoint.trans (List.prefix_append _ [ending]).isInfix).trans hinner, hoperator⟩

/-- The tokens of `void f(){x==y;}`, where the first equals sign ends at the last offset and the second
starts at the first one. -/
def startingOverSample : List Token :=
  lineTokens [(0, .identifier, "void"), (5, .identifier, "f"), (6, .symbol, "("), (7, .symbol, ")"),
    (8, .symbol, "\x7b"), (9, .identifier, "x"), (4294967295, .symbol, "="), (0, .symbol, "="),
    (20, .identifier, "y"), (21, .symbol, ";"), (22, .symbol, "\x7d")]

/-- Nothing is reported about two equals signs that do not stand side by side. -/
theorem startingOverSample_accepted :
    (∀ t ∈ startingOverSample, t.kind = .symbol → t.text.length = 1) ∧
      (parse startingOverSample).2 = [] ∧
      ¬ IsUnit SideBySide startingOverSample (parse startingOverSample).1 := by
  rw [Parser.parse_eq]
  refine ⟨by decide +kernel, by decide +kernel, fun h => ?_⟩
  obtain ⟨t, name, front, brace, start, token, a, b, htree, htext⟩ : ∃ t name front brace start token a b,
      (programUnit (pastEnd startingOverSample) startingOverSample).result =
        .mk .programUnit t [.mk .functionDeclaration name (front ++ [.mk .compoundStatement brace
          [.mk .expressionStatement start [.mk .binaryExpression token [a, b]]]])] ∧ token.text = "==" :=
    ⟨_, _, [_, _, _], _, _, _, _, _, rfl, rfl⟩
  rw [htree] at h
  obtain ⟨k, joint, hjoint, hoperator⟩ := h.exists_operator
  cases hoperator with
  | single hsymbol _ =>
      simp only [Token.isSymbol, Bool.and_eq_true, beq_iff_eq, htext] at hsymbol
      exact absurd hsymbol.2 (by simp)
  | @joined first second _ _ _ _ hbeside _ =>
      have hapart : ∀ first ∈ startingOverSample, ∀ second ∈ startingOverSample,
          first.text ++ second.text = "==" → first.span.last.index + 1 ≠ second.span.start.index := by
        decide +kernel
      exact hapart first (hjoint.subset (by simp)) second (hjoint.subset (by simp)) htext hbeside.2

end Shading

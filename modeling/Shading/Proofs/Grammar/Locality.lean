import Shading.Proofs.Grammar.Building

/-! # Reading does not depend on what comes later

Productions look ahead: an operator may be two tokens wide, and type arguments are tried before they
are given up for a comparison.  But no production looks past a semicolon or a closing brace that it
does not take.  So once the tokens left by a reading are `Closed`, that is, end in such a token, it
does not matter what follows them: the same reading is made when more tokens come after (`Local`).  A
block, and with it a function declaration, takes a token of that sort last, so nothing at all matters
after it (`Seals`, `functionDeclaration_append`). -/

namespace Shading.Grammar

/-- The token ends a statement or a block. -/
def isStop (t : Token) : Bool := t.isSymbol ';' || t.isSymbol '}'

/-- The last token ends a statement or a block. -/
def Closed (tokens : List Token) : Prop := ∃ front stop, tokens = front ++ [stop] ∧ isStop stop = true

/-- Nothing is left, or what is left is closed. -/
def Sealed (tokens : List Token) : Prop := tokens = [] ∨ Closed tokens

variable {tokens rest : List Token}

theorem isStop_of_isSymbol {t : Token} {c : Char} (h : t.isSymbol c = true) :
    isStop t = (c == ';' || c == '}') := by
  rw [isStop, isSymbol_eq h, isSymbol_eq h]

theorem exists_isSymbol_of_isStop {t : Token} (h : isStop t = true) :
    ∃ c, (c = ';' ∨ c = '}') ∧ t.isSymbol c = true := by
  rcases Bool.or_eq_true_iff.mp h with h | h
  · exact ⟨';', .inl rfl, h⟩
  · exact ⟨'}', .inr rfl, h⟩

theorem isStop_of_plain {t : Token} (h : Plain t) : isStop t = false := by
  rw [isStop, h ';' (by decide), h '}' (by decide)]
  rfl

namespace Closed

theorem ne_nil (h : Closed tokens) : tokens ≠ [] := by
  obtain ⟨front, stop, rfl, _⟩ := h
  simp

theorem of_suffix (h : Closed rest) (hsuffix : rest <:+ tokens) : Closed tokens := by
  obtain ⟨used, rfl⟩ := hsuffix
  obtain ⟨front, stop, rfl, hstop⟩ := h
  exact ⟨used ++ front, stop, (List.append_assoc ..).symm, hstop⟩

/-- A token that ends neither a statement nor a block is not the last. -/
theorem tail {t : Token} (h : Closed (t :: rest)) (ht : isStop t = false) : Closed rest := by
  obtain ⟨front, stop, heq, hstop⟩ := h
  cases front with
  | nil =>
      obtain ⟨rfl, _⟩ := List.cons.inj heq
      rw [hstop] at ht
      cases ht
  | cons first front => exact ⟨front, stop, (List.cons.inj heq).2, hstop⟩

theorem drop_append {count : Nat} (h : Closed (tokens.drop count)) (more : List Token) :
    (tokens ++ more).drop count = tokens.drop count ++ more := by
  have hlt : count < tokens.length := by
    have hne := h.ne_nil
    rw [ne_eq, List.drop_eq_nil_iff] at hne
    omega
  exact List.drop_append_of_le_length hlt.le

theorem head?_append (h : Closed tokens) (more : List Token) :
    (tokens ++ more).head? = tokens.head? := by
  cases tokens with
  | nil => exact absurd rfl h.ne_nil
  | cons t tail => rfl

end Closed

/-- A token that ends a statement or a block closes what it follows. -/
theorem Sealed.cons {t : Token} (h : Sealed rest) (ht : isStop t = true) : Closed (t :: rest) := by
  rcases h with rfl | h
  · exact ⟨[], t, rfl, ht⟩
  · exact h.of_suffix (List.suffix_cons t rest)

/-- The last token of closed tokens is spared. -/
def Spares (tokens rest : List Token) : Prop := Closed tokens → Closed rest

instance : Crossing Spares where
  refl _ := id
  trans h h' := h' ∘ h
  plain h _ hclosed := hclosed.tail (isStop_of_plain h)

namespace Production

variable {α β : Type}

/-- What the production leaves is a last part of the tokens, and if that is closed, the production reads
the same when more tokens follow. -/
def Local (p : Production α) : Prop :=
  ∀ ⦃past tokens a rest⦄, p.Reads past tokens a rest → rest <:+ tokens ∧
    (Closed rest → ∀ past' more, p.Reads past' (tokens ++ more) a (rest ++ more))

/-- The production takes a token last that ends a statement or a block, so that it reads the same
whatever follows. -/
def Seals (p : Production α) : Prop :=
  ∀ ⦃past tokens a rest⦄, p.Reads past tokens a rest → rest <:+ tokens ∧
    (Sealed rest → Closed tokens ∧
      ∀ past' more, p.Reads past' (tokens ++ more) a (rest ++ more))

section combinators

variable {p q : Production α} {f : α → Production β}

theorem Local.bind (hp : Local p) (hf : ∀ a, Local (f a)) : Local (p >>= f) := by
  intro past tokens b rest h
  obtain ⟨a, mid, hfirst, hsecond⟩ := reads_bind.mp h
  obtain ⟨hmid, hfirst⟩ := hp hfirst
  obtain ⟨hrest, hsecond⟩ := hf a hsecond
  refine ⟨hrest.trans hmid, fun hclosed past' more => ?_⟩
  have hmore := hfirst (hclosed.of_suffix hrest) past' more
  exact reads_bind.mpr ⟨a, mid ++ more, hmore, hsecond hclosed past' more⟩

/-- A step that may find nothing. -/
theorem Local.maybe {p : Production (Option α)} {f : Option α → Production β} (hp : Local p)
    (hnone : Local (f none)) (hsome : ∀ a, Local (f (some a))) : Local (p >>= f) :=
  hp.bind (Option.rec hnone hsome)

/-- Only the last step has to take the token that ends all. -/
theorem Local.seals (hp : Local p) (hf : ∀ a, Seals (f a)) : Seals (p >>= f) := by
  intro past tokens b rest h
  obtain ⟨a, mid, hfirst, hsecond⟩ := reads_bind.mp h
  obtain ⟨hmid, hfirst⟩ := hp hfirst
  obtain ⟨hrest, hsecond⟩ := hf a hsecond
  refine ⟨hrest.trans hmid, fun hsealed => ?_⟩
  obtain ⟨hclosed, hsecond⟩ := hsecond hsealed
  refine ⟨hclosed.of_suffix hmid, fun past' more => ?_⟩
  exact reads_bind.mpr ⟨a, mid ++ more, hfirst hclosed past' more, hsecond past' more⟩

theorem Seals.toLocal (hp : Seals p) : Local p := by
  intro past tokens a rest h
  obtain ⟨hrest, hsealed⟩ := hp h
  exact ⟨hrest, fun hclosed => (hsealed (.inr hclosed)).2⟩

theorem local_pure (a : α) : Local (pure a : Production α) := by
  intro past tokens b rest h
  obtain ⟨rfl, rfl⟩ := reads_pure.mp h
  exact ⟨List.suffix_rfl, fun _ _ _ => reads_pure.mpr ⟨rfl, rfl⟩⟩

/-- A last step that gives back a value. -/
theorem Local.value (hp : Local p) (g : α → β) : Local (do return g (← p)) :=
  hp.bind fun _ => local_pure _

theorem Seals.value (hp : Seals p) (g : α → β) : Seals (do return g (← p)) := by
  intro past tokens b rest h
  obtain ⟨a, mid, hfirst, hlast⟩ := reads_bind.mp h
  obtain ⟨rfl, rfl⟩ := reads_pure.mp hlast
  obtain ⟨hrest, hsealed⟩ := hp hfirst
  refine ⟨hrest, fun h => ⟨(hsealed h).1, fun past' more => ?_⟩⟩
  exact reads_bind.mpr ⟨a, _, (hsealed h).2 past' more, reads_pure.mpr ⟨rfl, rfl⟩⟩

theorem local_ite {c : Prop} [Decidable c] (hp : Local p) (hq : Local q) :
    Local (if c then p else q) := by
  split
  · exact hp
  · exact hq

theorem seals_ite {c : Prop} [Decidable c] (hp : Seals p) (hq : Seals q) :
    Seals (if c then p else q) := by
  split
  · exact hp
  · exact hq

/-- After a report nothing is read. -/
theorem local_report {problem : Problem} {f : Unit → Production β} :
    Local (report problem >>= f) := by
  intro past tokens b rest h
  obtain ⟨_, _, hreport, _⟩ := reads_bind.mp h
  exact absurd hreport not_reads_report

/-- Nothing is found again if the search for it does not come to the last token. -/
theorem Local.rewinding {p : Production (Option α)} (hp : Local p)
    (hspares : Anchored Spares AnyPlace p) : Local (rewinding p) := by
  intro past tokens a? rest h
  cases a? with
  | some a =>
      have h := reads_rewinding_some.mp h
      exact ⟨(hp h).1, fun hclosed past' more =>
        reads_rewinding_some.mpr ((hp h).2 hclosed past' more)⟩
  | none =>
      obtain ⟨rfl, mid, h⟩ := reads_rewinding_none.mp h
      refine ⟨List.suffix_rfl, fun hclosed past' more => ?_⟩
      -- what the search leaves is not given back, but it has to be closed all the same
      have hmore := (hp h).2 ((hspares past _).way h hclosed) past' more
      exact reads_rewinding_none.mpr ⟨rfl, _, hmore⟩

end combinators

/-! ### Repetition -/

section repetition

variable {turn : α → Production (Turn α)}

/-- Every turn that goes on takes a token. -/
def GoesOn (turn : α → Production (Turn α)) : Prop :=
  ∀ ⦃state past tokens next rest⦄, (turn state).Reads past tokens (.again next) rest →
    rest.length < tokens.length

theorem GoesOn.turns (hgoes : GoesOn turn) {past : Span} {state last : α}
    (h : (repeatWhile turn state).Reads past tokens last rest) :
    Turns turn past state tokens last rest :=
  Turns.of_reads (I := fun _ => True) (fun _ _ _ _ _ hagain => ⟨trivial, hgoes hagain⟩) trivial h

theorem Turns.append (hturn : ∀ state, Local (turn state)) {past : Span} {state last : α}
    (h : Turns turn past state tokens last rest) :
    rest <:+ tokens ∧ (Closed rest → ∀ past' more,
      Turns turn past' state (tokens ++ more) last (rest ++ more)) := by
  induction h with
  | done h =>
      obtain ⟨hrest, h⟩ := hturn _ h
      exact ⟨hrest, fun hclosed past' more => .done (h hclosed past' more)⟩
  | again h hlt _ ih =>
      obtain ⟨hmid, h⟩ := hturn _ h
      obtain ⟨hrest, hturns⟩ := ih
      refine ⟨hrest.trans hmid, fun hclosed past' more => ?_⟩
      refine .again (h (hclosed.of_suffix hrest) past' more) ?_ (hturns hclosed past' more)
      simpa using hlt

theorem local_repeatWhile (hgoes : GoesOn turn) (hturn : ∀ state, Local (turn state)) (state : α) :
    Local (repeatWhile turn state) := by
  intro past tokens last rest h
  obtain ⟨hrest, hturns⟩ := (hgoes.turns h).append hturn
  exact ⟨hrest, fun hclosed past' more => (hturns hclosed past' more).reads⟩

end repetition

/-! ### Looking at tokens and reading them -/

theorem local_peek : Local peek := by
  intro past tokens t? rest h
  obtain ⟨rfl, rfl⟩ := reads_peek.mp h
  exact ⟨List.suffix_rfl, fun hclosed _ more => reads_peek.mpr ⟨hclosed.head?_append more, rfl⟩⟩

theorem local_here : Local here := by
  intro past tokens t rest h
  obtain ⟨rfl, rfl⟩ := reads_here.mp h
  refine ⟨List.suffix_rfl, fun hclosed past' more => reads_here.mpr ⟨?_, rfl⟩⟩
  cases rest with
  | nil => exact absurd rfl hclosed.ne_nil
  | cons t tail => rfl

theorem local_isNext (condition : Token → Bool) : Local (isNext condition) := local_peek.value _

theorem local_atSymbol (c : Char) : Local (atSymbol c) := local_isNext _

/-- Looking at all tokens does no harm if more of them after a closed list make no difference. -/
theorem local_tokensLeft {f : List Token → Production β} (hf : ∀ tokens, Local (f tokens))
    (hsame : ∀ tokens more, Closed tokens → f (tokens ++ more) = f tokens) :
    Local (tokensLeft >>= f) := by
  intro past tokens b rest h
  obtain ⟨_, _, hleft, h⟩ := reads_bind.mp h
  obtain ⟨rfl, rfl⟩ := reads_tokensLeft.mp hleft
  obtain ⟨hrest, h⟩ := hf _ h
  refine ⟨hrest, fun hclosed past' more => ?_⟩
  refine reads_bind.mpr ⟨_, _, reads_tokensLeft.mpr ⟨rfl, rfl⟩, ?_⟩
  rw [hsame _ more (hclosed.of_suffix hrest)]
  exact h hclosed past' more

theorem local_skip (count : Nat) : Local (skip count) := by
  intro past tokens u rest h
  obtain rfl := reads_skip.mp h
  exact ⟨List.drop_suffix _ _, fun hclosed _ more => reads_skip.mpr (hclosed.drop_append more).symm⟩

theorem local_take : Local take := local_here.bind fun _ => (local_skip 1).bind fun _ => local_pure _

theorem local_takeIf (condition : Token → Bool) : Local (takeIf condition) :=
  (local_isNext condition).bind fun _ => local_ite (local_take.value _) (local_pure _)

theorem local_accept (c : Char) : Local (accept c) := (local_takeIf _).value _

theorem local_expect (c : Char) : Local (expect c) := by
  intro past tokens u rest h
  obtain ⟨t, ht, rfl⟩ := reads_expect.mp h
  exact ⟨List.suffix_cons t rest, fun _ _ _ => reads_expect.mpr ⟨t, ht, rfl⟩⟩

theorem seals_expect : Seals (expect ';') := by
  intro past tokens u rest h
  obtain ⟨t, ht, rfl⟩ := reads_expect.mp h
  have hstop : isStop t = true := isStop_of_isSymbol ht
  exact ⟨List.suffix_cons t rest, fun hsealed =>
    ⟨hsealed.cons hstop, fun _ _ => reads_expect.mpr ⟨t, ht, rfl⟩⟩⟩

end Production

open Production

variable {e : Production (Option Node)}

/-! ### Names and lists -/

theorem local_closeList (closer : Char) (missing : Problem) (complete : Bool) :
    Local (closeList closer missing complete) := by
  intro past tokens u rest h
  obtain ⟨hcomplete, t, ht, rfl⟩ := reads_closeList.mp h
  exact ⟨List.suffix_cons t rest, fun _ _ _ => reads_closeList.mpr ⟨hcomplete, t, ht, rfl⟩⟩

theorem local_nextItem (he : Local e) (items : Items) : Local (nextItem e items) :=
  he.maybe (local_pure _) fun _ => (local_accept ',').bind fun _ =>
    local_ite (local_pure _) (local_pure _)

theorem goesOn_nextItem (he : Local e) : GoesOn (nextItem e) := by
  intro items past tokens next rest h
  obtain ⟨node, comma, hnode, _⟩ := reads_nextItem_again.mp h
  have hlength := (he hnode).1.length_le
  rw [List.length_cons] at hlength
  omega

theorem local_separated (he : Local e) : Local (separated e) :=
  local_repeatWhile (goesOn_nextItem he) (local_nextItem he) {}

theorem local_identifier : Local identifier := (local_takeIf _).value _

/-- Qualifiers come to an end before the last of closed tokens. -/
theorem takeWhile_isQualifier_append (h : Closed tokens) (more : List Token) :
    (tokens ++ more).takeWhile isQualifier = tokens.takeWhile isQualifier := by
  obtain ⟨front, stop, rfl, hstop⟩ := h
  obtain ⟨c, _, hc⟩ := exists_isSymbol_of_isStop hstop
  have hstop : isQualifier stop = false := isQualifier_of_isSymbol hc
  induction front with
  | nil => simp [hstop]
  | cons t front ih =>
      rw [List.cons_append, List.cons_append, List.takeWhile_cons, List.takeWhile_cons, ih]

theorem local_typeQualifiers : Local typeQualifiers := by
  refine local_tokensLeft (fun tokens => (local_skip _).bind fun _ => local_pure _) ?_
  intro tokens more hclosed
  simp only [takeWhile_isQualifier_append hclosed more]

theorem local_typeArguments (he : Local e) {bound : Nat}
    (hspares : Finds Spares AnyPlace [.typename] bound 0 e) : Local (typeArguments e) := by
  refine Local.rewinding ?_ fun _ _ => ?_
  · refine (local_accept '<').bind fun _ => local_ite (local_pure _) ?_
    refine (local_separated he).bind fun items => local_ite (local_pure _) ?_
    exact (local_accept '>').bind fun _ => local_ite (local_pure _) (local_pure _)
  · refine .free (anchored_accept (takes_symbol (by decide))) fun _ _ => meets_ite (meets_pure trivial) ?_
    refine .free (fun past mid => (meets_separated hspares past mid).forget) fun _ _ =>
      meets_ite (meets_pure trivial) ?_
    exact .free (anchored_accept (takes_symbol (by decide))) fun _ _ =>
      meets_ite (meets_pure trivial) (meets_pure trivial)

theorem local_typenameWithin (levels : Nat) : Local (typenameWithin levels) := by
  induction levels with
  | zero => exact (local_takeIf _).value _
  | succ levels ih =>
      have hspares : Finds Spares AnyPlace [.typename] levels 0 (typenameWithin levels) :=
        fun past tokens => (meets_typenameWithin levels past tokens).mono fun _ _ _ h n hn => (h n hn).2
      exact (local_takeIf _).maybe (local_pure _) fun _ => (local_typeArguments ih hspares).value _

theorem local_typename : Local typename := local_typenameWithin _

theorem spares_typeQualifiers : Anchored Spares AnyPlace typeQualifiers :=
  fun past tokens => (meets_typeQualifiers past tokens).forget

theorem spares_typename : Anchored Spares AnyPlace typename :=
  fun past tokens => (meets_typename past tokens).forget

/-! ### Expressions -/

theorem local_literal : Local literal := by
  refine local_peek.bind fun next => ?_
  cases next.bind literalKind? with
  | none => exact local_pure _
  | some kind => exact local_take.value _

theorem local_orMissing (he : Local e) : Local (orMissing e) := he.maybe local_report local_pure

/-- A list of items in parentheses, with the opening one next. -/
theorem local_listed (he : Local e) (missing : Problem) (make : Token → Items → Node) :
    Local (do
      let token ← take
      let items ← if ← atSymbol ')' then pure {} else separated e
      closeList ')' missing items.complete
      return make token items) := by
  have hend : ∀ token items, Local (do
      closeList ')' missing (Items.complete items)
      return make token items) := fun _ _ => (local_closeList _ _ _).value _
  refine local_take.bind fun token => (local_atSymbol _).bind fun _ => local_ite ?_ ?_
  · exact (local_pure _).bind (hend token)
  · exact (local_separated he).bind (hend token)

theorem local_argumentList (he : Local e) : Local (argumentList e) := local_listed he _ _

theorem local_bracketed {closer : Char} {missing : Production Node} (he : Local e) :
    Local (bracketed closer e missing) := by
  intro past tokens node rest h
  obtain ⟨closing, hinner, hc⟩ := reads_bracketed.mp h
  obtain ⟨hrest, hinner⟩ := he hinner
  have hclosing := List.suffix_cons closing rest
  exact ⟨hclosing.trans hrest, fun hclosed past' more =>
    reads_bracketed.mpr ⟨closing, hinner (hclosed.of_suffix hclosing) past' more, hc⟩⟩

theorem local_primary (he : Local e) : Local (primary e) := by
  refine local_literal.maybe ?_ fun _ => local_pure _
  refine local_identifier.maybe ?_ fun _ => local_pure _
  exact (local_takeIf _).maybe (local_pure _) fun _ => (local_bracketed he).value _

theorem local_suffix (he : Local e) (node : Node) : Local (suffix e node) := by
  refine (local_atSymbol '(').bind fun _ => local_ite ?_ ((local_takeIf _).maybe ?_ fun dot => ?_)
  · exact local_here.bind fun _ => (local_argumentList he).value _
  · exact (local_takeIf _).maybe (local_pure _) fun _ => (local_bracketed he).value _
  · exact local_identifier.maybe local_report fun _ => local_pure _

theorem goesOn_suffix (he : Local e) : GoesOn (suffix e) := by
  intro node past tokens next rest h
  cases tokens with
  | nil => simp [suffix, Option.exists] at h
  | cons t tokens =>
      rcases reads_suffix_again.mp h with ⟨_, arguments, h, _⟩ | ⟨_, name, _, rfl, _⟩ |
        ⟨_, index, closing, h, _⟩
      · rcases reads_listed.mp h with ⟨closing, _, rfl, _⟩ | ⟨_, items, closing, h, _⟩
        · simp only [List.length_cons]
          omega
        · have hlength := (local_separated he h).1.length_le
          simp only [List.length_cons] at hlength ⊢
          omega
      · simp only [List.length_cons]
        omega
      · have hlength := (he h).1.length_le
        simp only [List.length_cons] at hlength ⊢
        omega

/-- Something that is found and then extended turn by turn. -/
theorem Production.Local.extended {turn : Node → Production (Turn Node)} (he : Local e)
    (hgoes : GoesOn turn) (hturn : ∀ node, Local (turn node)) :
    Local do
      match ← e with
      | none => return none
      | some node => return some (← repeatWhile turn node) :=
  he.maybe (local_pure _) fun node => (local_repeatWhile hgoes hturn node).value _

theorem local_suffixed (he : Local e) : Local (suffixed e) :=
  (local_primary he).extended (goesOn_suffix he) (local_suffix he)

theorem local_tooDeep (rest : List Token → List Token) : Local (tooDeep rest) := local_report

theorem local_unary {operand? : Option (Production (Option Node))}
    (hoperand : ∀ operand ∈ operand?, Local operand) (he : Local e) : Local (unary operand? e) := by
  refine (local_isNext isSign).bind fun _ => local_ite (local_suffixed he) ?_
  cases operand? with
  | none => exact (local_tooDeep _).value _
  | some operand =>
      exact local_take.bind fun _ => (local_orMissing (hoperand operand rfl)).value _

/-- No operator of two symbols begins with a token that ends a statement or a block. -/
theorem append_notMem_joinedOperators {t : Token} (h : isStop t = true) (text : String) :
    t.text ++ text ∉ joinedOperators := by
  intro hmem
  have hheads : ∀ op ∈ joinedOperators, op.toList.head? ≠ some ';' ∧ op.toList.head? ≠ some '}' := by
    decide
  obtain ⟨c, hc, ht⟩ := exists_isSymbol_of_isStop h
  simp only [Token.isSymbol, Bool.and_eq_true, beq_iff_eq] at ht
  have hhead := hheads _ hmem
  rw [String.toList_append, ht.2] at hhead
  rcases hc with rfl | rfl
  · exact hhead.1 rfl
  · exact hhead.2 rfl

theorem operator?_append (h : Closed tokens) (more : List Token) :
    operator? (tokens ++ more) = operator? tokens := by
  obtain ⟨front, stop, rfl, hstop⟩ := h
  match front, more with
  | first :: second :: front, _ => rfl
  | [first], _ => rfl
  | [], [] => rfl
  | [], next :: more =>
      obtain ⟨c, _, hc⟩ := exists_isSymbol_of_isStop hstop
      simp [operator?, kind_of_isSymbol hc, append_notMem_joinedOperators hstop]

theorem binaryOperator?_append (h : Closed tokens) (least : Nat) (more : List Token) :
    binaryOperator? least (tokens ++ more) = binaryOperator? least tokens := by
  rw [binaryOperator?, operator?_append h more, binaryOperator?]

theorem local_extendBinary {right : Nat → Production (Option Node)}
    (hright : ∀ precedence, Local (right precedence)) (least : Nat) (node : Node) :
    Local (extendBinary right least node) := by
  refine local_tokensLeft (fun tokens => ?_) fun tokens more hclosed => ?_
  · cases binaryOperator? least tokens with
    | none => exact local_pure _
    | some operator => exact (local_skip _).bind fun _ => (local_orMissing (hright _)).value _
  · simp only [binaryOperator?_append hclosed]

theorem operator?_takes {token : Token} {width : Nat} (h : operator? tokens = some (token, width)) :
    (tokens.drop width).length < tokens.length := by
  unfold operator? at h
  grind

theorem goesOn_extendBinary {right : Nat → Production (Option Node)}
    (hright : ∀ precedence, Local (right precedence)) (least : Nat) :
    GoesOn (extendBinary right least) := by
  intro node past tokens next rest h
  obtain ⟨token, width, precedence, other, hoperator, hother, _⟩ := reads_extendBinary_again.mp h
  have hlt := operator?_takes (binaryOperator?_eq_some.mp hoperator).1
  have hlength := (hright precedence hother).1.length_le
  omega

theorem local_binary {operand : Production (Option Node)} (hoperand : Local operand)
    (levels least : Nat) : Local (binary operand levels least) := by
  induction levels generalizing least with
  | zero => exact hoperand
  | succ levels ih =>
      have hright : ∀ precedence, Local (binary operand levels (precedence + 1)) :=
        fun precedence => ih (precedence + 1)
      exact hoperand.extended (goesOn_extendBinary hright least) (local_extendBinary hright least)

theorem local_assignment {operand : Production (Option Node)} (hoperand : Local operand)
    (he : Local e) : Local (assignment operand e) := by
  refine (local_binary hoperand _ _).maybe (local_pure _) fun target => ?_
  refine local_tokensLeft (fun tokens => ?_) fun tokens more hclosed => ?_
  · cases operator? tokens with
    | none => exact local_pure _
    | some operator =>
        refine local_ite ?_ (local_pure _)
        exact (local_skip 1).bind fun _ => (local_orMissing he).value _
  · simp only [operator?_append hclosed]

theorem local_level (units : Nat) :
    Local (level units).expression ∧ Local (level units).unary := by
  induction units with
  | zero =>
      have he := (local_tooDeep (afterExpression 0)).value some
      have hunary : Local (unary none _) := local_unary (by simp) he
      exact ⟨he, hunary⟩
  | succ units ih =>
      have he := local_assignment ih.2 ih.1
      have hunary : Local (unary (some _) _) := local_unary (by simpa using ih.2) he
      exact ⟨he, hunary⟩

theorem local_expression (units : Nat) : Local (expression units) := (local_level units).1

theorem local_bracedList (units : Nat) : Local (bracedList units) := by
  induction units with
  | zero => exact local_tooDeep _
  | succ units ih =>
      have hitem : Local (bracedItem (bracedList units) (expression units)) :=
        (local_atSymbol _).bind fun _ => local_ite (ih.value _) (local_expression units)
      have hnext : ∀ items, Local (nextBraced _ items) := fun items =>
        (local_atSymbol _).bind fun _ => local_ite (local_pure _) (local_nextItem hitem items)
      have hgoes : GoesOn (nextBraced (bracedItem (bracedList units) (expression units))) := by
        intro items past tokens next rest h
        rcases reads_nextBraced.mp h with ⟨_, hdone, _⟩ | ⟨_, h⟩
        · cases hdone
        · exact goesOn_nextItem hitem h
      exact local_take.bind fun _ => (local_repeatWhile hgoes hnext {}).bind fun _ =>
        (local_closeList _ _ _).value _

/-! ### Statements -/

theorem local_initialiser (units : Nat) : Local (initialiser units) :=
  (local_atSymbol _).bind fun _ => local_ite (local_bracedList units)
    ((local_expression units).maybe local_report local_pure)

theorem local_initialValue (units : Nat) : Local (initialValue units) :=
  (local_accept '=').bind fun _ => local_ite ((local_initialiser units).value _) (local_pure _)

theorem local_variableDeclaration (units : Nat) : Local (variableDeclaration units) := by
  intro past tokens node? rest h
  cases node? with
  | some node =>
      obtain ⟨qualifiers, left, type, mid, name, value, ending, hq, ht, hname, hvalue, hending, rfl⟩ :=
        reads_variableDeclaration_some.mp h
      obtain ⟨hleft, hq⟩ := local_typeQualifiers hq
      obtain ⟨hmid, ht⟩ := local_typename ht
      obtain ⟨hrest, hvalue⟩ := local_initialValue units hvalue
      have hname' := List.suffix_cons name mid
      have hending' := List.suffix_cons ending rest
      have hafter : rest <:+ name :: mid := (hending'.trans hrest).trans hname'
      refine ⟨(hafter.trans hmid).trans hleft, fun hclosed past' more => ?_⟩
      have hnamed := hclosed.of_suffix hafter
      refine reads_variableDeclaration_some.mpr ⟨qualifiers, left ++ more, type, mid ++ more, name,
        value, ending, hq (hnamed.of_suffix hmid) past' more, ht hnamed past' more, hname,
        hvalue (hclosed.of_suffix hending') past' more, hending, rfl⟩
  | none =>
      obtain ⟨rfl, left, hq, h⟩ := reads_variableDeclaration_none.mp h
      refine ⟨List.suffix_rfl, fun hclosed past' more => ?_⟩
      -- the attempt comes to nothing before the last token, so it does again
      have hleft := (spares_typeQualifiers past _).way hq hclosed
      refine reads_variableDeclaration_none.mpr
        ⟨rfl, left ++ more, (local_typeQualifiers hq).2 hleft past' more, ?_⟩
      rcases h with ⟨mid, ht⟩ | ⟨type, mid, ht, hnone⟩
      · exact .inl ⟨_, (local_typename ht).2 ((spares_typename past _).way ht hleft) past' more⟩
      · have hmid := (spares_typename past _).way ht hleft
        refine .inr ⟨type, _, (local_typename ht).2 hmid past' more, ?_⟩
        rwa [hmid.head?_append more]

theorem local_returnStatement (units : Nat) : Local (returnStatement units) := by
  have hend : ∀ (token : Token) (value? : Option Node), Local do
      expect ';'
      return Node.mk .returnStatement token value?.toList :=
    fun _ _ => (local_expect ';').value _
  exact local_take.bind fun token => (local_atSymbol ';').bind fun _ => local_ite
    ((local_pure _).bind (hend token)) ((local_expression units).bind (hend token))

theorem local_expressionStatement (units : Nat) : Local (expressionStatement units) :=
  local_here.bind fun _ => (local_expression units).maybe (local_pure _) fun _ =>
    (local_expect ';').value _

theorem local_statement {block : Production Node} (hblock : Local block) (units : Nat) :
    Local (statement block units) := by
  refine (local_takeIf _).maybe ?_ fun _ => local_pure _
  refine (local_atSymbol _).bind fun _ => local_ite (hblock.value _) ?_
  refine (local_isNext _).bind fun _ => local_ite ((local_returnStatement units).value _) ?_
  exact (local_variableDeclaration units).maybe (local_expressionStatement units) fun _ => local_pure _

/-- The statements of a block end with its brace. -/
theorem turns_nextStatement_append (he : Local e) {past : Span} {nodes last : List Node}
    (h : Turns (nextStatement e) past nodes tokens last rest) :
    rest <:+ tokens ∧ (Sealed rest → Closed tokens ∧ ∀ past' more,
      Turns (nextStatement e) past' nodes (tokens ++ more) last (rest ++ more)) := by
  induction h with
  | done h =>
      obtain ⟨⟨closing, hc, rfl⟩, rfl⟩ := reads_nextStatement_done.mp h
      refine ⟨List.suffix_cons _ _, fun hsealed => ⟨hsealed.cons (isStop_of_isSymbol hc), ?_⟩⟩
      exact fun _ more => .done (reads_nextStatement_done.mpr ⟨⟨closing, hc, rfl⟩, rfl⟩)
  | again h hlt _ ih =>
      obtain ⟨hbrace, node, hnode, _, rfl⟩ := reads_nextStatement_again.mp h
      obtain ⟨hmid, hnode⟩ := he hnode
      obtain ⟨hrest, ih⟩ := ih
      refine ⟨hrest.trans hmid, fun hsealed => ?_⟩
      -- the turns that follow come to the brace, so what the statement leaves is closed
      obtain ⟨hclosed, hturns⟩ := ih hsealed
      have htokens := hclosed.of_suffix hmid
      refine ⟨htokens, fun past' more => .again ?_ (by simpa using hlt) (hturns past' more)⟩
      refine reads_nextStatement_again.mpr ⟨?_, node, hnode hclosed past' more, by simpa using hlt, rfl⟩
      rwa [htokens.head?_append more]

theorem seals_block (units : Nat) : Seals (block units) := by
  induction units with
  | zero => exact fun _ _ _ _ h => absurd h not_reads_tooDeep
  | succ units ih =>
      refine local_take.seals fun token => Seals.value ?_ _
      intro past tokens nodes rest h
      have hgoes : GoesOn (nextStatement (statement (block units) units)) := by
        intro nodes past tokens next rest h
        obtain ⟨_, _, _, hlt, _⟩ := reads_nextStatement_again.mp h
        exact hlt
      obtain ⟨hrest, hturns⟩ :=
        turns_nextStatement_append (local_statement ih.toLocal units) (hgoes.turns h)
      exact ⟨hrest, fun hsealed =>
        ⟨(hturns hsealed).1, fun past' more => ((hturns hsealed).2 past' more).reads⟩⟩

/-! ### Declarations -/

theorem local_attributeItem : Local attributeItem := by
  have harguments := local_argumentList (local_expression nestingLimit)
  exact local_identifier.maybe (local_pure _) fun _ => (local_atSymbol _).bind fun _ => local_ite
    (harguments.bind fun _ => (local_pure _).value _) ((local_pure _).value _)

theorem attributeOpening?_append (h : Closed tokens) (more : List Token) :
    attributeOpening? (tokens ++ more) = attributeOpening? tokens := by
  obtain ⟨front, stop, rfl, hstop⟩ := h
  match front with
  | first :: second :: front => rfl
  | [first] => rfl
  | [] =>
      obtain ⟨c, hc, hstop⟩ := exists_isSymbol_of_isStop hstop
      have hbracket : stop.isSymbol '[' = false := by
        rcases hc with rfl | rfl <;> exact isSymbol_eq hstop _
      cases more with
      | nil => rfl
      | cons next more => simp [attributeOpening?, hbracket]

theorem local_attributeList : Local attributeList := by
  intro past tokens node? rest h
  cases node? with
  | none =>
      obtain ⟨hnone, rfl⟩ := reads_attributeList_none.mp h
      refine ⟨List.suffix_rfl, fun hclosed past' more => reads_attributeList_none.mpr ⟨?_, rfl⟩⟩
      rwa [attributeOpening?_append hclosed more]
  | some node =>
      obtain ⟨token, items, last, final, hopening, hitems, hcomplete, hlast, hfinal, rfl⟩ :=
        reads_attributeList_some.mp h
      obtain ⟨hmid, hitems⟩ := local_separated local_attributeItem hitems
      have hends : rest <:+ last :: final :: rest := ⟨[last, final], rfl⟩
      refine ⟨(hends.trans hmid).trans (List.drop_suffix _ _), fun hclosed past' more => ?_⟩
      have hlists := hclosed.of_suffix (hends.trans hmid)
      have htokens := hlists.of_suffix (List.drop_suffix 2 tokens)
      refine reads_attributeList_some.mpr ⟨token, items, last, final, ?_, ?_, hcomplete, hlast,
        hfinal, rfl⟩
      · rwa [attributeOpening?_append htokens more]
      · rw [hlists.drop_append more]
        exact hitems (hclosed.of_suffix hends) past' more

theorem local_parameter : Local parameter := by
  refine Local.rewinding ?_ fun _ _ => ?_
  · exact local_typeQualifiers.bind fun _ => local_typename.maybe (local_pure _) fun _ =>
      local_identifier.maybe (local_pure _) fun _ => local_pure _
  · refine .free spares_typeQualifiers fun _ _ => .free spares_typename fun type? _ => ?_
    cases type? with
    | none => exact meets_pure trivial
    | some type => exact meets_identifier (meets_pure trivial) fun _ _ _ => meets_pure trivial

theorem local_parameterList : Local parameterList := local_listed local_parameter _ _

theorem seals_functionBody : Seals functionBody :=
  (local_atSymbol _).seals fun _ => seals_ite ((seals_block nestingLimit).value _)
    (seals_expect.value _)

/-- A function declaration that is read without a problem is read the same whatever follows. -/
theorem functionDeclaration_append {past : Span} {node : Node}
    (h : functionDeclaration.Reads past tokens (some node) rest) (hsealed : Sealed rest) :
    Closed tokens ∧ ∀ past' more,
      functionDeclaration.Reads past' (tokens ++ more) (some node) (rest ++ more) := by
  obtain ⟨attributes?, mid, qualifiers, left, type, opened, name, parameters, bodied, body, hattributes,
    hqualifiers, htype, hname, hopening, hparameters, hbody, rfl⟩ :=
    reads_functionDeclaration_some.mp h
  -- from the body backwards, what each part leaves is closed
  obtain ⟨hbodied, hbody⟩ := (seals_functionBody hbody).2 hsealed
  obtain ⟨hsuffix, hparameters⟩ := local_parameterList hparameters
  have hopened := hbodied.of_suffix hsuffix
  have hnamed := hopened.of_suffix (List.suffix_cons name opened)
  obtain ⟨hsuffix, htype⟩ := local_typename htype
  have hleft := hnamed.of_suffix hsuffix
  obtain ⟨hsuffix, hqualifiers⟩ := local_typeQualifiers hqualifiers
  have hmid := hleft.of_suffix hsuffix
  obtain ⟨hsuffix, hattributes⟩ := local_attributeList hattributes
  refine ⟨hmid.of_suffix hsuffix, fun past' more => reads_functionDeclaration_some.mpr ?_⟩
  refine ⟨attributes?, mid ++ more, qualifiers, left ++ more, type, opened ++ more, name, parameters,
    bodied ++ more, body, hattributes hmid past' more, hqualifiers hleft past' more,
    htype hnamed past' more, hname, ?_, hparameters hbodied past' more, hbody past' more, rfl⟩
  rwa [hopened.head?_append more]

end Shading.Grammar

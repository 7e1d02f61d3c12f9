import Mathlib.Data.List.Infix
import Shading.Grammar.Unit
import Shading.Parser.Productions

/-! # Runs at positions and productions on lists

A run of a parser at a position does what a production does with the tokens from there on: it comes to its
end, it finds the same, the tokens that the production leaves are those from where the run stops, and the
same is reported.  Besides, it stops within the tokens, the counter of nesting is afterwards what it was
before, and it has not been above the limit.

`Follows` says that, and is carried through sequences, choices and repetitions. -/

/-! ### Passing over tokens -/

namespace Shading.Grammar

theorem afterGroup_suffix (depth : Nat) (tokens : List Token) : afterGroup depth tokens <:+ tokens := by
  fun_induction afterGroup depth tokens <;> simp_all [List.suffix_cons_iff]

theorem afterExpression_suffix (depth : Nat) (tokens : List Token) :
    afterExpression depth tokens <:+ tokens := by
  fun_induction afterExpression depth tokens <;> simp_all [List.suffix_cons_iff]

theorem fromCloser_suffix (closer : Char) (depth : Nat) (tokens : List Token) :
    fromCloser closer depth tokens <:+ tokens := by
  fun_induction fromCloser closer depth tokens <;> simp_all [List.suffix_cons_iff]

theorem afterStatement_suffix (depth : Nat) (tokens : List Token) :
    afterStatement depth tokens <:+ tokens := by
  fun_induction afterStatement depth tokens <;> simp_all [List.suffix_cons_iff]

theorem afterDeclaration_suffix (depth : Nat) (tokens : List Token) :
    afterDeclaration depth tokens <:+ tokens := by
  fun_induction afterDeclaration depth tokens <;> simp_all [List.suffix_cons_iff]

/-- At least one token is skipped with a statement that cannot be read. -/
theorem afterStatement_cons_suffix {t : Token} {rest : List Token} (ht : t.isSymbol '}' = false) :
    afterStatement 0 (t :: rest) <:+ rest := by
  rw [afterStatement]
  simp only [ht, true_and, Bool.false_eq_true, if_false]
  split
  · exact List.suffix_rfl
  · split
    · exact afterStatement_suffix _ _
    · split <;> exact afterStatement_suffix _ _

/-- At least one token is skipped with a declaration that cannot be read. -/
theorem afterDeclaration_cons_suffix (depth : Nat) (t : Token) (tokens : List Token) :
    afterDeclaration depth (t :: tokens) <:+ tokens := by
  rw [afterDeclaration]
  split
  · exact afterDeclaration_suffix _ _
  · split
    · split
      · exact List.suffix_rfl
      · exact afterDeclaration_suffix _ _
    · split
      · exact List.suffix_rfl
      · exact afterDeclaration_suffix _ _

end Shading.Grammar

namespace Shading.Parser

open Grammar Production

/-! ### The tokens from a position on -/

namespace Input

variable {input : Input} {pos : Nat} {t : Token} {c : Char}

@[simp] theorem drop_rest (pos count : Nat) : (input.rest pos).drop count = input.rest (pos + count) := by
  simp [rest]

@[simp] theorem head?_rest (pos : Nat) : (input.rest pos).head? = input.token? pos := by
  simp [rest, token?]

@[simp] theorem length_rest (pos : Nat) : (input.rest pos).length = input.tokens.size - pos := by
  simp [rest]

theorem lt_of_token? (h : input.token? pos = some t) : pos < input.tokens.size :=
  (Array.getElem?_eq_some_iff.mp h).1

theorem rest_eq_cons (h : input.token? pos = some t) : input.rest pos = t :: input.rest (pos + 1) := by
  obtain ⟨hpos, rfl⟩ := Array.getElem?_eq_some_iff.mp h
  rw [rest, List.drop_eq_getElem_cons (by simpa using hpos)]
  rfl

theorem token?_of_rest {more : List Token} (h : input.rest pos = t :: more) :
    input.token? pos = some t ∧ more = input.rest (pos + 1) := by
  have htoken : input.token? pos = some t := by rw [← head?_rest, h, List.head?_cons]
  exact ⟨htoken, (List.cons.inj (h.symm.trans (rest_eq_cons htoken))).2⟩

theorem rest_eq_nil : input.rest pos = [] ↔ input.token? pos = none := by
  rw [← head?_rest, List.head?_eq_none_iff]

theorem tokenAt_eq (h : input.token? pos = some t) : input.tokenAt pos = t := by
  rw [tokenAt, h, Option.getD_some]

theorem exists_token_of_any {condition : Token → Bool} (h : (input.token? pos).any condition = true) :
    input.token? pos = some (input.tokenAt pos) ∧ condition (input.tokenAt pos) = true := by
  cases ht : input.token? pos with
  | none =>
      rw [ht] at h
      cases h
  | some t =>
      rw [ht] at h
      rw [tokenAt_eq ht]
      exact ⟨rfl, h⟩

theorem lt_of_any {condition : Token → Bool} (h : (input.token? pos).any condition = true) :
    pos < input.tokens.size :=
  lt_of_token? (exists_token_of_any h).1

theorem lt_of_isSymbol (h : input.isSymbol pos c = true) : pos < input.tokens.size :=
  lt_of_any h

theorem spanAt_eq (pos : Nat) : input.spanAt pos = (input.tokenAt pos).span := by
  unfold spanAt tokenAt
  cases input.token? pos <;> rfl

/-- What is left after tokens are passed over. -/
theorem rest_skipped {after : List Token → List Token} (h : after (input.rest pos) <:+ input.rest pos) :
    input.rest (pos + skipped after (input.rest pos)) = after (input.rest pos) := by
  rw [← drop_rest, skipped]
  exact (List.suffix_iff_eq_drop.mp h).symm

theorem skipped_le (after : List Token → List Token) (h : pos ≤ input.tokens.size) :
    pos + skipped after (input.rest pos) ≤ input.tokens.size := by
  rw [skipped, length_rest]
  omega

/-- Where offsets are checked, no symbol that ends at the last offset is followed by a symbol of its
file. -/
def OffsetsFit (input : Input) : Prop :=
  input.checksOffsets = true → ∀ pos first second, input.token? pos = some first →
    input.token? (pos + 1) = some second → first.kind = .symbol → second.kind = .symbol →
      first.span.last.file = second.span.start.file → first.span.last.index + 1 ≠ UInt32.size

end Input

/-- A production after one that reports nothing. -/
theorem bind_silent {α β : Type} {p : Production α} {g : α → Production β} {past : Span} {a : α}
    {tokens rest : List Token} (hp : p past tokens = ⟨a, rest, []⟩) :
    (p >>= g) past tokens = g a past rest := by
  show Production.bind p g past tokens = _
  rw [Production.bind, hp, List.nil_append]

/-! ### Runs that do what a production does -/

variable {α β γ δ : Type} {input : Input} {units left after low start : Nat}

/-- From the position `start`, with `units` units of nesting left, the run does what the production does.
It does not stop before the position `low`, and there are `left` units left afterwards.  `view` reads the
position where the run stops, and what it finds, from its result. -/
def Follows (input : Input) (units left low start : Nat) (run : Run α) (production : Production β)
    (view : α → Nat × β) (post : α → Prop) : Prop :=
  ∀ s : State, s.nesting + units = nestingLimit → s.highest ≤ nestingLimit →
    ∃ a nesting highest messages,
      run s = some (a, ⟨nesting, highest, s.messages ++ messages.toArray⟩) ∧
      production input.endSpan (input.rest start) = ⟨(view a).2, input.rest (view a).1, messages⟩ ∧
      nesting + left = nestingLimit ∧ highest ≤ nestingLimit ∧
      low ≤ (view a).1 ∧ (view a).1 ≤ input.tokens.size ∧ post a

/-- A run does all that a production does. -/
def Mirrors (input : Input) (units start : Nat) (run : Run α) (production : Production β)
    (view : α → Nat × β) (post : α → Prop) : Prop :=
  Follows input units units start start run production view post

section Rules

variable {x y : Run α} {f : α → Run γ} {p q : Production β} {g : β → Production δ} {view : α → Nat × β}
  {view' : γ → Nat × δ} {post : α → Prop} {post' : γ → Prop}

theorem Follows.lower {mid : Nat} (h : Follows input units left mid start x p view post)
    (hlow : low ≤ mid) : Follows input units left low start x p view post := by
  intro s hnesting hhighest
  obtain ⟨a, nesting, highest, messages, hx, hp, hleft, hle, hmid, hrest⟩ := h s hnesting hhighest
  exact ⟨a, nesting, highest, messages, hx, hp, hleft, hle, Nat.le_trans hlow hmid, hrest⟩

theorem follows_pure {a : α} {b : β} (hview : view a = (start, b)) (hlow : low ≤ start)
    (hstart : start ≤ input.tokens.size) (ha : post a) :
    Follows input units units low start (pure a) (pure b) view post := by
  intro s hnesting hhighest
  refine ⟨a, s.nesting, s.highest, [], by show some (a, s) = _; simp, ?_, hnesting, hhighest, ?_, ?_, ha⟩
  · rw [hview]
    rfl
  · rw [hview]
    exact hlow
  · rw [hview]
    exact hstart

theorem Follows.bind {mid : Nat} (hx : Follows input units left mid start x p view post)
    (hf : ∀ a, mid ≤ (view a).1 → (view a).1 ≤ input.tokens.size → post a →
      Follows input left after low (view a).1 (f a) (g (view a).2) view' post') :
    Follows input units after low start (x >>= f) (p >>= g) view' post' := by
  intro s hnesting hhighest
  obtain ⟨a, nesting, highest, messages, hrun, hp, hleft, hle, hstart, hlast, ha⟩ :=
    hx s hnesting hhighest
  obtain ⟨c, nesting', highest', more, hrun', hg, hrest⟩ :=
    hf a hstart hlast ha ⟨nesting, highest, s.messages ++ messages.toArray⟩ hleft hle
  refine ⟨c, nesting', highest', messages ++ more, ?_, ?_, hrest⟩
  · show (x s).bind (fun r => f r.1 r.2) = _
    rw [hrun, Option.bind_some, hrun']
    simp
  · show Production.bind p g _ _ = _
    rw [Production.bind, hp, hg]

/-- The production reads something in silence while the run does nothing. -/
theorem Follows.read {b : β} {mid : Nat} {x : Run γ}
    (hp : p input.endSpan (input.rest start) = ⟨b, input.rest mid, []⟩)
    (h : Follows input units left low mid x (g b) view' post') :
    Follows input units left low start x (p >>= g) view' post' := by
  intro s hnesting hhighest
  obtain ⟨c, nesting, highest, messages, hx, hg, hrest⟩ := h s hnesting hhighest
  exact ⟨c, nesting, highest, messages, hx, (bind_silent hp).trans hg, hrest⟩

/-- The run finds something out, or counts, while the production does nothing. -/
theorem Follows.look {a : α} {q : Production δ}
    (hx : ∀ s : State, s.nesting + units = nestingLimit → s.highest ≤ nestingLimit →
      ∃ nesting highest, x s = some (a, ⟨nesting, highest, s.messages⟩) ∧
        nesting + left = nestingLimit ∧ highest ≤ nestingLimit)
    (h : Follows input left after low start (f a) q view' post') :
    Follows input units after low start (x >>= f) q view' post' := by
  intro s hnesting hhighest
  obtain ⟨nesting, highest, hrun, hleft, hle⟩ := hx s hnesting hhighest
  obtain ⟨c, nesting', highest', messages, hf, hrest⟩ := h ⟨nesting, highest, s.messages⟩ hleft hle
  refine ⟨c, nesting', highest', messages, ?_, hrest⟩
  show (x s).bind (fun r => f r.1 r.2) = _
  rw [hrun, Option.bind_some, hf]

theorem Follows.find {a : α} {q : Production δ} (hx : ∀ s, x s = some (a, s))
    (h : Follows input units left low start (f a) q view' post') :
    Follows input units left low start (x >>= f) q view' post' :=
  Follows.look (fun s hnesting hhighest => ⟨s.nesting, s.highest, hx s, hnesting, hhighest⟩) h

/-- The run gives its result in another form. -/
theorem Follows.pack {f : α → γ} {view' : γ → Nat × β} {mid : Nat}
    (h : Follows input units left mid start x p view post)
    (hf : ∀ a, mid ≤ (view a).1 → (view a).1 ≤ input.tokens.size → post a →
      view' (f a) = view a ∧ low ≤ (view a).1 ∧ post' (f a)) :
    Follows input units left low start (x >>= fun a => pure (f a)) p view' post' := by
  intro s hnesting hhighest
  obtain ⟨a, nesting, highest, messages, hx, hp, hleft, hle, hstart, hlast, ha⟩ := h s hnesting hhighest
  obtain ⟨hview, hlow, hpost⟩ := hf a hstart hlast ha
  rw [← hview] at hp hlow hlast
  refine ⟨f a, nesting, highest, messages, ?_, hp, hleft, hle, hlow, hlast, hpost⟩
  show (x s).bind (fun r => some (f r.1, r.2)) = _
  rw [hx, Option.bind_some]

theorem Follows.ite {c : Prop} [Decidable c]
    (hthen : c → Follows input units left low start x p view post)
    (helse : ¬ c → Follows input units left low start y q view post) :
    Follows input units left low start (if c then x else y) (if c then p else q) view post := by
  by_cases h : c
  · rw [if_pos h, if_pos h]
    exact hthen h
  · rw [if_neg h, if_neg h]
    exact helse h

end Rules

/-! ### What the results stand for -/

/-- What was found from a position on. -/
def foundAt (start : Nat) : Option Parsed → Nat × Option Node
  | some found => (start + found.consumed, some found.node)
  | none => (start, none)

def parsedAt (start : Nat) (found : Parsed) : Nat × Node := (start + found.consumed, found.node)

/-- How a repetition goes on, and from where. -/
def turnAt {σ : Type} : Turn (Nat × σ) → Nat × Turn σ
  | .again (pos, state) => (pos, .again state)
  | .done (pos, state) => (pos, .done state)

/-- A repetition that goes on has passed a position. -/
def Advances {σ : Type} (start : Nat) : Turn (Nat × σ) → Prop
  | .again (pos, _) => start < pos
  | .done _ => True

/-- What is found takes a token. -/
def TakesToken : Option Parsed → Prop
  | some found => 0 < found.consumed
  | none => True

/-- Whatever is found. -/
def anything {α : Type} (_ : α) : Prop := True

/-! ### Repetitions -/

/-- Goes on as a turn says. -/
def continued {σ : Type} (loop : Nat → σ → Run (Nat × σ)) : Turn (Nat × σ) → Run (Nat × σ)
  | .again (pos, state) => loop pos state
  | .done found => pure found

/-- Goes on as a turn says that was taken at `pos`, if it has passed tokens that are there. -/
def advancing {σ : Type} (input : Input) (pos : Nat) (loop : Nat → σ → Run (Nat × σ)) :
    Turn (Nat × σ) → Run (Nat × σ)
  | .again (next, state) => if pos < next ∧ next ≤ input.tokens.size then loop next state else failure
  | .done found => pure found

theorem repeated_eq {σ : Type} (turn : Nat → σ → Run (Turn (Nat × σ))) (pos : Nat) (state : σ) :
    input.repeated turn pos state =
      turn pos state >>= advancing input pos (input.repeated turn) := by
  rw [Input.repeated]
  exact bind_congr fun turned => by cases turned <;> rfl

section

variable {σ : Type} {turn : Nat → σ → Run (Turn (Nat × σ))} {q : σ → Production (Turn σ)}
  (hturn : ∀ pos state, pos ≤ input.tokens.size →
    Mirrors input units pos (turn pos state) (q state) turnAt (Advances pos))
include hturn

/-- Turns that are those of a production do, repeated, what the repetition of the production does. -/
theorem mirrors_repeated (pos : Nat) (state : σ) (hpos : pos ≤ input.tokens.size) :
    Mirrors input units pos (input.repeated turn pos state) (repeatWhile q state) id anything := by
  -- a turn that goes on leaves fewer tokens, so there are turns enough for those that are left
  have h : ∀ limit pos state, pos ≤ input.tokens.size → input.tokens.size < limit + pos →
      Mirrors input units pos (input.repeated turn pos state) (repeatUpTo q limit state) id anything := by
    intro limit
    induction limit with
    | zero =>
        intro pos state hpos hlimit
        omega
    | succ limit ih =>
        intro pos state hpos hlimit
        rw [repeated_eq, repeatUpTo]
        refine (hturn pos state hpos).bind fun turned hstart hlast hnext => ?_
        cases turned with
        | done last => exact follows_pure rfl hstart hlast trivial
        | again next =>
            have hadvance : pos < next.1 := hnext
            rw [advancing, if_pos ⟨hadvance, hlast⟩]
            exact (ih next.1 next.2 hlast (by omega)).lower hstart
  have hlength : repeatWhile q state input.endSpan (input.rest pos) =
      repeatUpTo q (input.tokens.size - pos + 1) state input.endSpan (input.rest pos) := by
    rw [repeatWhile, Input.length_rest]
  intro s hnesting hhighest
  rw [hlength]
  exact h _ pos state hpos (by omega) s hnesting hhighest

/-- Such turns are taken one after the other. -/
theorem repeated_eq_continued {pos : Nat} (state : σ) (hpos : pos ≤ input.tokens.size) {s : State}
    (hnesting : s.nesting + units = nestingLimit) (hhighest : s.highest ≤ nestingLimit) :
    input.repeated turn pos state s = (turn pos state >>= continued (input.repeated turn)) s := by
  obtain ⟨turned, nesting, highest, messages, hrun, -, -, -, -, hlast, hnext⟩ :=
    hturn pos state hpos s hnesting hhighest
  rw [repeated_eq]
  show (turn pos state s).bind _ = (turn pos state s).bind _
  rw [hrun, Option.bind_some, Option.bind_some]
  cases turned with
  | done last => rfl
  | again next =>
      have hadvance : pos < next.1 := hnext
      show advancing input pos (input.repeated turn) (.again next) _ = _
      rw [advancing, if_pos ⟨hadvance, hlast⟩]
      rfl

end

/-! ### Reading tokens -/

theorem here_rest : here input.endSpan (input.rest start) = ⟨input.tokenAt start, input.rest start, []⟩ := by
  rw [here, Input.head?_rest]
  rfl

theorem peek_rest : peek input.endSpan (input.rest start) = ⟨input.token? start, input.rest start, []⟩ := by
  rw [peek, Input.head?_rest]

theorem isNext_rest (condition : Token → Bool) : isNext condition input.endSpan (input.rest start) =
    ⟨(input.token? start).any condition, input.rest start, []⟩ := by
  rw [isNext, bind_silent peek_rest]
  rfl

theorem atSymbol_rest (c : Char) : atSymbol c input.endSpan (input.rest start) =
    ⟨input.isSymbol start c, input.rest start, []⟩ :=
  isNext_rest _

theorem leave_rest {after : List Token → List Token} (h : ∀ tokens, after tokens <:+ tokens) :
    leave after input.endSpan (input.rest start) =
      ⟨(), input.rest (start + skipped after (input.rest start)), []⟩ := by
  rw [leave, Input.rest_skipped (h _)]

theorem skip_rest (count : Nat) : skip count input.endSpan (input.rest start) =
    ⟨(), input.rest (start + count), []⟩ := by
  rw [skip, leave, Input.drop_rest]

theorem take_rest : take input.endSpan (input.rest start) =
    ⟨input.tokenAt start, input.rest (start + 1), []⟩ := by
  rw [take, bind_silent here_rest, bind_silent (skip_rest 1)]
  rfl

theorem takeIf_of_any {condition : Token → Bool} (h : (input.token? start).any condition = true) :
    takeIf condition input.endSpan (input.rest start) =
      ⟨some (input.tokenAt start), input.rest (start + 1), []⟩ := by
  rw [takeIf, bind_silent (isNext_rest condition), if_pos h]
  exact bind_silent take_rest

theorem takeIf_of_not_any {condition : Token → Bool} (h : ¬ (input.token? start).any condition = true) :
    takeIf condition input.endSpan (input.rest start) = ⟨none, input.rest start, []⟩ := by
  rw [takeIf, bind_silent (isNext_rest condition), if_neg h]
  rfl

theorem accept_of_isSymbol {c : Char} (h : input.isSymbol start c = true) :
    accept c input.endSpan (input.rest start) = ⟨true, input.rest (start + 1), []⟩ :=
  bind_silent (takeIf_of_any h)

theorem accept_of_not_isSymbol {c : Char} (h : ¬ input.isSymbol start c = true) :
    accept c input.endSpan (input.rest start) = ⟨false, input.rest start, []⟩ :=
  bind_silent (takeIf_of_not_any h)

/-! ### Problems and nesting -/

theorem mirrors_report (problem : Problem) (hstart : start ≤ input.tokens.size) :
    Mirrors input units start (input.report start problem) (report problem)
      (fun u => (start, u)) anything := by
  intro s hnesting hhighest
  refine ⟨(), s.nesting, s.highest, [Message.error (input.spanAt start) problem.text], ?_, ?_, hnesting,
    hhighest, Nat.le_refl _, hstart, trivial⟩
  · simp [Input.report, modify, modifyGet, MonadStateOf.modifyGet, StateT.modifyGet, pure]
  · rw [Input.spanAt_eq]
    exact bind_silent here_rest

theorem mirrors_expectSymbol (c : Char) (hstart : start ≤ input.tokens.size) :
    Mirrors input units start (input.expectSymbol start c) (expect c)
      (fun count => (start + count, ())) anything := by
  unfold Input.expectSymbol expect
  by_cases h : input.isSymbol start c = true
  · rw [if_pos h]
    exact Follows.read (accept_of_isSymbol h)
      (follows_pure rfl (Nat.le_add_right _ _) (Input.lt_of_isSymbol h) trivial)
  · rw [if_neg h]
    exact Follows.read (accept_of_not_isSymbol h)
      ((mirrors_report _ hstart).pack fun _ hle _ _ => ⟨rfl, hle, trivial⟩)

/-- A level of nesting is entered, with units left. -/
theorem Follows.enter {f : Bool → Run γ} {q : Production δ} {view : γ → Nat × δ} {post : γ → Prop}
    (h : Follows input units left low start (f true) q view post) :
    Follows input (units + 1) left low start (input.enterNesting start >>= f) q view post := by
  refine Follows.look (fun s hnesting hhighest => ?_) h
  refine ⟨s.nesting + 1, max s.highest (s.nesting + 1), ?_, by omega, by omega⟩
  have hlimit : ¬ nestingLimit ≤ s.nesting := by omega
  show (if nestingLimit ≤ s.nesting then _ else _ : Run Bool) s = _
  rw [if_neg hlimit]
  rfl

/-- The level of nesting is left again. -/
theorem Follows.exit {f : Unit → Run γ} {q : Production δ} {view : γ → Nat × δ} {post : γ → Prop}
    (hunits : units < nestingLimit)
    (h : Follows input (units + 1) left low start (f ()) q view post) :
    Follows input units left low start (input.leaveNesting >>= f) q view post := by
  refine Follows.look (fun s hnesting hhighest => ?_) h
  refine ⟨s.nesting - 1, s.highest, ?_, by omega, hhighest⟩
  have hentered : ¬ (input.checksLevels = true ∧ s.nesting = 0) := by omega
  show (if input.checksLevels = true ∧ s.nesting = 0 then _ else _ : Run Unit) s = _
  rw [if_neg hentered]
  rfl

/-- Without units left no level can be entered. -/
theorem mirrors_enterNesting (hstart : start ≤ input.tokens.size) :
    Mirrors input 0 start (input.enterNesting start) (report .tooDeep) (fun _ => (start, ()))
      (fun entered => entered = false) := by
  intro s hnesting hhighest
  obtain ⟨_, nesting, highest, messages, hrun, hreport, hleft, hle, hlow, hlast, _⟩ :=
    mirrors_report .tooDeep hstart s hnesting hhighest
  refine ⟨false, nesting, highest, messages, ?_, hreport, hleft, hle, hlow, hlast, rfl⟩
  have hlimit : nestingLimit ≤ s.nesting := by omega
  show (if nestingLimit ≤ s.nesting then _ else _ : Run Bool) s = _
  rw [if_pos hlimit]
  show (input.report start .tooDeep s).bind (fun r => some (false, r.2)) = _
  rw [hrun, Option.bind_some]

/-- What is nested too deeply is passed over. -/
theorem mirrors_tooDeep {after : List Token → List Token} (hafter : ∀ tokens, after tokens <:+ tokens)
    (hstart : start ≤ input.tokens.size) :
    Mirrors input 0 start (input.enterNesting start) (tooDeep after)
      (fun _ => (start + skipped after (input.rest start), input.unknown start))
      (fun entered => entered = false) := by
  rw [← bind_pure (input.enterNesting start)]
  refine (mirrors_enterNesting hstart).bind fun entered _ _ hentered => ?_
  refine Follows.read (bind_silent here_rest) (Follows.read (leave_rest hafter) ?_)
  exact follows_pure rfl (Nat.le_add_right _ _) (Input.skipped_le after hstart) hentered

/-! ### Going back -/

/-- Goes back to given tokens if nothing was found. -/
def rewindTo (tokens : List Token) (p : Production (Option α)) : Production (Option α) :=
  fun past left =>
    let step := p past left
    match step.result with
    | some _ => step
    | none => { step with rest := tokens }

theorem rewindTo_bind (tokens : List Token) (p : Production α) (g : α → Production (Option β)) :
    rewindTo tokens (p >>= g) = p >>= fun a => rewindTo tokens (g a) := by
  funext past left
  show rewindTo tokens (Production.bind p g) past left = Production.bind p _ past left
  unfold rewindTo Production.bind
  dsimp only
  obtain ⟨result, rest, messages⟩ := g (p past left).result past (p past left).rest
  cases result <;> rfl

@[simp] theorem rewindTo_some (tokens : List Token) (a : α) :
    rewindTo tokens (pure (some a)) = pure (some a) := rfl

theorem rewindTo_ite {c : Prop} [Decidable c] (tokens : List Token) (p q : Production (Option α)) :
    rewindTo tokens (if c then p else q) = if c then rewindTo tokens p else rewindTo tokens q := by
  split <;> rfl

/-- Nothing was found, so the production is back at the start. -/
theorem follows_rewound {mid : Nat} {a : α} {view : α → Nat × Option β} {post : α → Prop}
    (hview : view a = (start, none)) (hlow : low ≤ start) (hstart : start ≤ input.tokens.size)
    (ha : post a) :
    Follows input units units low mid (pure a) (rewindTo (input.rest start) (pure none)) view post := by
  intro s hnesting hhighest
  refine ⟨a, s.nesting, s.highest, [], by show some (a, s) = _; simp, ?_, hnesting, hhighest, ?_, ?_, ha⟩
  · rw [hview]
    rfl
  · rw [hview]
    exact hlow
  · rw [hview]
    exact hstart

end Shading.Parser

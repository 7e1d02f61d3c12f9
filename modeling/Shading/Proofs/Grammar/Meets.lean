import Shading.Proofs.Grammar.Places
import Shading.Proofs.Parser.Agreement

/-! # An account of what a production does

`p.Meets W P past tokens R` follows the production `p` with an account of where it goes and what it uses
up.  If it reports nothing, there is a way of the sort `W` from the tokens to what it leaves.  From one of
the places `P` it comes to another one, and every message is an error at one of them.  And it pays for its
result: `R` holds of the result for some number of tokens that were taken and some number of errors that
were reported.

Each combinator has one rule.  Only a report changes what there is to show: after it the way no longer
matters, so tokens may be skipped. -/

namespace Shading

namespace Grammar

/-- The span of the next token; at the end of input the span just past it. -/
def anchor (past : Span) (tokens : List Token) : Span := (tokens.head?.map (·.span)).getD past

namespace Production

variable {α β : Type} {past : Span} {tokens : List Token} {W : List Token → List Token → Prop}
  {P : List Token → Prop}

/-- The step ends at one of the places, and each of its messages is an error at one of them. -/
def Within (P : List Token → Prop) (past : Span) (step : Step α) : Prop :=
  P step.rest ∧ ∀ m ∈ step.messages, ∃ left problem, P left ∧
    m = Message.error (anchor past left) (Problem.text problem)

/-- The production goes a way of the sort `W` if it reports nothing, it keeps to the places `P`, and its
result is paid for by tokens taken and errors reported. -/
structure Meets (W : List Token → List Token → Prop) (P : List Token → Prop) (p : Production α)
    (past : Span) (tokens : List Token) (R : α → Nat → Nat → Prop) : Prop where
  crosses : (p past tokens).messages = [] → W tokens (p past tokens).rest
  within : P tokens → Within P past (p past tokens)
  paid : ∃ used errors, (p past tokens).rest.length + used ≤ tokens.length ∧
    errors ≤ (p past tokens).messages.length ∧ R (p past tokens).result used errors

/-- The state of a repetition has the property. -/
@[simp] def TurnHolds (P : α → Prop) : Turn α → Prop
  | .again state => P state
  | .done state => P state

/-- Nothing needs to be known about the result. -/
def Anchored (W : List Token → List Token → Prop) (P : List Token → Prop) (p : Production α) : Prop :=
  ∀ past tokens, p.Meets W P past tokens fun _ _ _ => True

theorem Within.append {step : Step α} {step' : Step β} (h : Within P past step) (h' : Within P past step') :
    Within P past { step' with messages := step.messages ++ step'.messages } :=
  ⟨h'.1, fun m hm => (List.mem_append.mp hm).elim (h.2 m) (h'.2 m)⟩

namespace Meets

variable {p : Production α} {f : α → Production β} {R R' : α → Nat → Nat → Prop}
  {S : β → Nat → Nat → Prop}

/-- What is read without a problem lies on a way. -/
theorem way {a : α} {rest : List Token} (hp : p.Meets W P past tokens R)
    (h : p.Reads past tokens a rest) : W tokens rest := by
  have hcrosses := hp.crosses (congrArg Step.messages h)
  rwa [h] at hcrosses

/-- Without regard to the way. -/
theorem anyWay (hp : p.Meets W P past tokens R) : p.Meets AnyWay P past tokens R :=
  ⟨fun _ => trivial, hp.within, hp.paid⟩

theorem suffix (hp : p.Meets W (LastPart tokens) past tokens R) : (p past tokens).rest <:+ tokens :=
  (hp.within List.suffix_rfl).1

theorem length_le (hp : p.Meets W P past tokens R) : (p past tokens).rest.length ≤ tokens.length := by
  obtain ⟨used, errors, hused, -⟩ := hp.paid
  omega

theorem mono (hp : p.Meets W P past tokens R) (h : ∀ a used errors, R a used errors → R' a used errors) :
    p.Meets W P past tokens R' := by
  obtain ⟨used, errors, hused, herrors, hR⟩ := hp.paid
  exact ⟨hp.crosses, hp.within, used, errors, hused, herrors, h _ _ _ hR⟩

theorem forget (hp : p.Meets W P past tokens R) : p.Meets W P past tokens fun _ _ _ => True :=
  hp.mono fun _ _ _ _ => trivial

/-- A production that begins with an opening brace stays among the places if it stays among any that are
left by nothing. -/
theorem of_brace [hP : Enclosure P] (hnext : tokens.head?.any (fun t => t.isSymbol '{') = true)
    (h : ∀ Q [Hereditary Q], p.Meets W Q past tokens R) : p.Meets W P past tokens R := by
  obtain ⟨t, rest, rfl, ht⟩ := head?_any_eq_true.mp hnext
  rcases hP.braces with hnone | hall
  · refine { h AnyPlace with within := fun hplace => ?_ }
    rw [hnone t rest hplace] at ht
    cases ht
  · exact h P

variable [hW : Crossing W]

/-- A sequence pays for its result with what its steps use up. -/
theorem sequence (hp : p.Meets W P past tokens R)
    (hf : ∀ used errors, R (p past tokens).result used errors →
      (f (p past tokens).result).Meets W P past (p past tokens).rest fun b used' errors' =>
        S b (used + used') (errors + errors')) :
    (p >>= f).Meets W P past tokens S := by
  obtain ⟨used, errors, hused, herrors, hR⟩ := hp.paid
  have hsecond := hf used errors hR
  obtain ⟨used', errors', hused', herrors', hS⟩ := hsecond.paid
  refine ⟨fun hsilent => ?_, fun hplace => ?_, used + used', errors + errors', ?_, ?_, hS⟩
  · obtain ⟨hfirst, hmore⟩ := List.append_eq_nil_iff.mp hsilent
    exact hW.trans (hp.crosses hfirst) (hsecond.crosses hmore)
  · exact (hp.within hplace).append (hsecond.within (hp.within hplace).1)
  · show (f _ past _).rest.length + _ ≤ _
    omega
  · show _ ≤ (_ ++ _ : List Message).length
    rw [List.length_append]
    omega

theorem bind (hp : p.Meets W P past tokens R)
    (hf : ∀ a mid used errors, R a used errors →
      (f a).Meets W P past mid fun b used' errors' => S b (used + used') (errors + errors')) :
    (p >>= f).Meets W P past tokens S :=
  hp.sequence fun used errors => hf _ _ used errors

/-- A step that costs nothing and of whose result nothing needs to be known. -/
theorem free (hp : Anchored W P p) (hf : ∀ a mid, (f a).Meets W P past mid S) :
    (p >>= f).Meets W P past tokens S := by
  have hstep := hp past tokens
  have hpaid : p.Meets W P past tokens fun _ used errors => used = 0 ∧ errors = 0 :=
    ⟨hstep.crosses, hstep.within, 0, 0, hstep.length_le, Nat.zero_le _, rfl, rfl⟩
  refine hpaid.bind fun a mid used errors hzero => ?_
  obtain ⟨rfl, rfl⟩ := hzero
  simpa using hf a mid

theorem rewinding {p : Production (Option α)} {R : Option α → Nat → Nat → Prop}
    (hp : p.Meets W P past tokens R) (hnone : R none 0 0) : (rewinding p).Meets W P past tokens R := by
  cases hresult : (p past tokens).result with
  | some a =>
      have hstep : Production.rewinding p past tokens = p past tokens := by
        simp [Production.rewinding, hresult]
      exact ⟨hstep ▸ hp.crosses, hstep ▸ hp.within, hstep ▸ hp.paid⟩
  | none =>
      have hstep : Production.rewinding p past tokens = { p past tokens with rest := tokens } := by
        simp [Production.rewinding, hresult]
      rw [← hresult] at hnone
      refine ⟨fun _ => hstep ▸ hW.refl tokens, fun hplace => ?_, 0, 0, by simp [hstep], Nat.zero_le _,
        hstep ▸ hnone⟩
      exact hstep ▸ ⟨hplace, (hp.within hplace).2⟩

omit hW in
theorem progressing {p : Production (Option α)} {R : Option α → Nat → Nat → Prop}
    (hp : p.Meets W P past tokens R) (hnone : R none 0 0) : (progressing p).Meets W P past tokens R := by
  by_cases hlt : (p past tokens).rest.length < tokens.length
  · have hstep : Production.progressing p past tokens = p past tokens := by
      simp [Production.progressing, hlt]
    exact ⟨hstep ▸ hp.crosses, hstep ▸ hp.within, hstep ▸ hp.paid⟩
  · have hstep : Production.progressing p past tokens = { p past tokens with result := none } := by
      simp [Production.progressing, hlt]
    exact ⟨hstep ▸ hp.crosses, hstep ▸ hp.within, 0, 0, by simpa [hstep] using hp.length_le,
      Nat.zero_le _, hstep ▸ hnone⟩

end Meets

section Rules

variable [hW : Crossing W] {p q : Production α} {f : α → Production β} {R : α → Nat → Nat → Prop}
  {S : β → Nat → Nat → Prop}

theorem meets_pure {a : α} (h : R a 0 0) : (pure a : Production α).Meets W P past tokens R :=
  ⟨fun _ => hW.refl tokens, fun hplace => ⟨hplace, by simp [pure, Production.pure]⟩, 0, 0, Nat.le_refl _,
    Nat.le_refl _, h⟩

omit hW in
theorem meets_cases {c : Prop} [Decidable c] (hp : c → p.Meets W P past tokens R)
    (hq : ¬ c → q.Meets W P past tokens R) : (if c then p else q).Meets W P past tokens R := by
  split
  · exact hp ‹_›
  · exact hq ‹_›

omit hW in
theorem meets_ite {c : Prop} [Decidable c] (hp : p.Meets W P past tokens R)
    (hq : q.Meets W P past tokens R) : (if c then p else q).Meets W P past tokens R :=
  meets_cases (fun _ => hp) fun _ => hq

/-- A step that reports nothing and takes at least `count` tokens. -/
theorem meets_silent {a : α} {mid : List Token} {count : Nat} (hp : p past tokens = ⟨a, mid, []⟩)
    (hmid : Leads W P tokens mid) (hcount : mid.length + count ≤ tokens.length)
    (h : (f a).Meets W P past mid fun b used errors => S b (count + used) errors) :
    (p >>= f).Meets W P past tokens S := by
  have heq : (p >>= f) past tokens = f a past mid := Parser.bind_silent hp
  obtain ⟨hcrosses, hwithin, used, errors, hused, herrors, hS⟩ := h
  refine ⟨fun hsilent => ?_, fun hplace => heq ▸ hwithin (hmid.stays hplace), count + used, errors, ?_,
    heq ▸ herrors, heq ▸ hS⟩
  · rw [heq] at hsilent ⊢
    exact hW.trans hmid.crosses (hcrosses hsilent)
  · rw [heq]
    omega

/-- A step that looks at the tokens only. -/
theorem meets_look {a : α} (hp : p past tokens = ⟨a, tokens, []⟩) (h : (f a).Meets W P past tokens S) :
    (p >>= f).Meets W P past tokens S :=
  meets_silent hp (.refl tokens) (Nat.le_refl _) (h.mono fun b used errors hS => by rwa [Nat.zero_add])

/-- A choice by the next token. -/
theorem meets_if {condition : Token → Bool}
    (hp : tokens.head?.any condition = true → p.Meets W P past tokens R) (hq : q.Meets W P past tokens R) :
    (do if ← isNext condition then p else q).Meets W P past tokens R := by
  refine meets_look (reads_isNext.mpr ⟨rfl, rfl⟩) ?_
  cases hnext : tokens.head?.any condition with
  | false => exact hq
  | true => exact hp hnext

theorem meets_unless {condition : Token → Bool} (hq : q.Meets W P past tokens R)
    (hp : tokens.head?.any condition = true → p.Meets W P past tokens R) :
    (do if !(← isNext condition) then q else p).Meets W P past tokens R := by
  refine meets_look (reads_isNext.mpr ⟨rfl, rfl⟩) ?_
  cases hnext : tokens.head?.any condition with
  | false => exact hq
  | true => exact hp hnext

omit hW in
/-- The one place where messages come from.  After one there is no way without a problem any more. -/
theorem meets_report (problem : Problem) {f : Unit → Production β}
    (h : (f ()).Meets AnyWay P past tokens fun b used errors => S b used (1 + errors)) :
    (report problem >>= f).Meets W P past tokens S := by
  have hreport : (report problem).Meets AnyWay P past tokens fun _ used errors =>
      used = 0 ∧ errors = 1 := by
    refine ⟨fun _ => trivial, fun hplace => ⟨hplace, fun m hm => ⟨tokens, problem, hplace, ?_⟩⟩, 0, 1,
      Nat.le_refl _, Nat.le_refl _, rfl, rfl⟩
    rw [List.mem_singleton.mp hm]
    cases tokens <;> rfl
  have hall : (report problem >>= f).Meets AnyWay P past tokens S := by
    refine hreport.sequence fun used errors hpaid => ?_
    obtain ⟨rfl, rfl⟩ := hpaid
    exact Meets.mono (p := f ()) h fun b used errors hS => by rwa [Nat.zero_add]
  exact { hall with crosses := fun hsilent => nomatch hsilent }

theorem meets_take {f : Token → Production β} (hnext : Takeable W P tokens)
    (h : ∀ t mid, (f t).Meets W P past mid fun b used errors => S b (1 + used) errors) :
    (take >>= f).Meets W P past tokens S := by
  obtain ⟨t, rest, rfl, hleads⟩ := hnext
  exact meets_silent rfl hleads (Nat.le_refl _) (h t rest)

/-- A step that takes the next token if the condition holds of it. -/
theorem meets_takeIf {condition : Token → Bool} {f : Option Token → Production β}
    (hcondition : Takes W P condition) (hnone : (f none).Meets W P past tokens S)
    (hsome : ∀ t mid, (f (some t)).Meets W P past mid fun b used errors => S b (1 + used) errors) :
    (takeIf condition >>= f).Meets W P past tokens S := by
  cases h : tokens.head?.any condition with
  | false => exact meets_look (reads_takeIf_none.mpr ⟨h, rfl⟩) hnone
  | true =>
      obtain ⟨t, rest, rfl, ht⟩ := head?_any_eq_true.mp h
      exact meets_silent (reads_takeIf_some.mpr ⟨ht, rfl⟩) (hcondition t rest ht) (Nat.le_refl _)
        (hsome t rest)

theorem meets_skip {f : Unit → Production β} {count : Nat} (hcount : 0 < count) (hne : tokens ≠ [])
    (hleads : Leads W P tokens (tokens.drop count))
    (h : (f ()).Meets W P past (tokens.drop count) fun b used errors => S b (1 + used) errors) :
    (skip count >>= f).Meets W P past tokens S := by
  have hlength := List.length_pos_iff.mpr hne
  exact meets_silent rfl hleads (by rw [List.length_drop]; omega) h

/-- A repetition keeps what every turn keeps. -/
theorem meets_repeatWhile {turn : α → Production (Turn α)} {I : α → Nat → Nat → Prop}
    (hturn : ∀ state used errors mid, I state used errors → (turn state).Meets W P past mid
      fun turned used' errors' => TurnHolds (fun state => I state (used + used') (errors + errors')) turned)
    {state : α} (h : I state 0 0) : (repeatWhile turn state).Meets W P past tokens I := by
  have hup : ∀ (limit : Nat) (state : α) (used errors : Nat) (mid : List Token), I state used errors →
      (repeatUpTo turn limit state).Meets W P past mid
        fun state used' errors' => I state (used + used') (errors + errors') := by
    intro limit
    induction limit with
    | zero => exact fun state used errors mid h => meets_pure h
    | succ limit ih =>
        intro state used errors mid h
        refine (hturn state used errors mid h).bind fun turned rest used' errors' hturned => ?_
        simp only [← Nat.add_assoc]
        cases turned with
        | again next => exact ih next _ _ rest hturned
        | done last => exact meets_pure hturned
  have hall := hup (tokens.length + 1) state 0 0 tokens h
  simp only [Nat.zero_add] at hall
  exact ⟨hall.crosses, hall.within, hall.paid⟩

end Rules

/-! ### Steps of whose result nothing needs to be known -/

section Anchored

variable [Crossing W]

theorem anchored_takeIf {condition : Token → Bool} (h : Takes W P condition) :
    Anchored W P (takeIf condition) := fun past tokens => by
  rw [← bind_pure (takeIf condition)]
  exact meets_takeIf h (meets_pure trivial) fun _ _ => meets_pure trivial

theorem anchored_accept {c : Char} (h : Takes W P fun t => t.isSymbol c) : Anchored W P (accept c) :=
  fun _ _ => .free (anchored_takeIf h) fun _ _ => meets_pure trivial

omit [Crossing W] in
theorem anchored_report (problem : Problem) : Anchored W P (report problem) := fun past tokens => by
  rw [← bind_pure (report problem)]
  exact meets_report problem (meets_pure trivial)

theorem anchored_expect {c : Char} (h : Takes W P fun t => t.isSymbol c) : Anchored W P (expect c) :=
  fun _ _ => .free (anchored_accept h) fun _ mid => meets_ite (meets_pure trivial) (anchored_report _ _ mid)

theorem anchored_leave {rest : List Token → List Token} (h : ∀ tokens, Leads W P tokens (rest tokens)) :
    Anchored W P (leave rest) := fun past tokens => by
  rw [← bind_pure (leave rest)]
  have hcount : (rest tokens).length + 0 ≤ tokens.length := (h tokens).suffix.length_le
  exact meets_silent rfl (h tokens) hcount (meets_pure trivial)

variable [Enclosure P]

omit [Crossing W] in
theorem anchored_skipToCloser (closer : Char) : Anchored AnyWay P (skipToCloser closer) :=
  anchored_leave (leads_skip (tracks_fromCloser closer))

theorem anchored_closeList {closer : Char} (hcloser : Takes W P fun t => t.isSymbol closer)
    (missing : Problem) (complete : Bool) : Anchored W P (closeList closer missing complete) := by
  intro past tokens
  have hend : ∀ mid, Meets W P (do let _ ← accept closer) past mid fun _ _ _ => True :=
    fun _ => .free (anchored_accept hcloser) fun _ _ => meets_pure trivial
  refine meets_ite ?_ (meets_look rfl (meets_ite ?_ (hend _)))
  all_goals exact meets_report _ (.free (anchored_skipToCloser closer) fun _ mid => (hend mid).anyWay)

/-- A bracket that is missing has been reported, or is reported now. -/
theorem anchored_closeAttributes (brackets : Nat) :
    Anchored W P (closeAttributes brackets false) ∧ Anchored AnyWay P (closeAttributes brackets true) := by
  induction brackets with
  | zero => exact ⟨fun _ _ => meets_pure trivial, fun _ _ => meets_pure trivial⟩
  | succ brackets ih =>
      obtain ⟨hunreported, hreported⟩ := ih
      have hskip : ∀ past mid, Meets AnyWay P (do
          skipToCloser ']'
          if ← atSymbol ']' then closeAttributes brackets true) past mid fun _ _ _ => True :=
        fun _ _ => .free (anchored_skipToCloser _) fun _ _ =>
          meets_look rfl (meets_ite (hreported _ _) (meets_pure trivial))
      constructor <;> intro past tokens
      · refine .free (anchored_accept (takes_symbol (by decide))) fun _ mid => ?_
        exact meets_ite (hunreported _ _) (meets_report _ (hskip past mid))
      · refine .free (anchored_accept (takes_symbol (by decide))) fun _ mid => ?_
        exact meets_ite (hreported _ _) (hskip past mid)

end Anchored

end Production

end Grammar

end Shading

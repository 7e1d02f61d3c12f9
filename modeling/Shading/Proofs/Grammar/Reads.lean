import Mathlib.Tactic.Simproc.ExistsAndEq
import Shading.Grammar.Unit

/-! # Reading without a problem

`p.Reads past tokens a rest` says that the production `p` reads `a` from the front of `tokens`, leaves
`rest` and reports nothing.  Each combinator has one lemma that says exactly when it reads: a sequence
reads what its parts read one after another, a report reads nothing, and a repetition reads turn by
turn (`Turns`) as long as every turn that goes on takes a token. -/

namespace Shading.Grammar

namespace Production

variable {α β : Type} {past : Span} {tokens rest : List Token}

instance : LawfulMonad Production :=
  LawfulMonad.mk' Production
    (fun p => by
      funext past tokens
      show Production.bind p _ past tokens = _
      simp [Production.bind, Production.pure])
    (fun _ _ => rfl)
    (fun p f g => by
      funext past tokens
      show Production.bind (Production.bind p f) g past tokens =
        Production.bind p (fun a => Production.bind (f a) g) past tokens
      simp [Production.bind])

/-- The production reads `a`, leaves `rest` and reports nothing. -/
def Reads (p : Production α) (past : Span) (tokens : List Token) (a : α) (rest : List Token) :
    Prop :=
  p past tokens = ⟨a, rest, []⟩

theorem reads_of_messages_eq_nil {p : Production α} (h : (p past tokens).messages = []) :
    p.Reads past tokens (p past tokens).result (p past tokens).rest := by
  unfold Reads
  rw [← h]

@[simp] theorem reads_pure {a b : α} :
    (pure a : Production α).Reads past tokens b rest ↔ a = b ∧ rest = tokens := by
  show Production.pure a past tokens = _ ↔ _
  simp [Production.pure, eq_comm]

@[simp] theorem reads_ite {c : Prop} [Decidable c] {p q : Production α} {a : α} :
    (if c then p else q).Reads past tokens a rest ↔
      (c ∧ p.Reads past tokens a rest) ∨ (¬ c ∧ q.Reads past tokens a rest) := by
  split <;> simp [*]

@[simp] theorem reads_bind {p : Production α} {f : α → Production β} {b : β} :
    (p >>= f).Reads past tokens b rest ↔
      ∃ a mid, p.Reads past tokens a mid ∧ (f a).Reads past mid b rest := by
  show Production.bind p f past tokens = _ ↔ _
  unfold Production.bind Reads
  constructor
  · intro h
    injection h with hresult hrest hmessages
    obtain ⟨hfirst, hsecond⟩ := List.append_eq_nil_iff.mp hmessages
    refine ⟨(p past tokens).result, (p past tokens).rest, ?_, ?_⟩
    · rw [← hfirst]
    · rw [← hresult, ← hrest, ← hsecond]
  · rintro ⟨a, mid, hp, hf⟩
    simp only [hp, hf, List.append_nil]

@[simp] theorem reads_map {p : Production α} {f : α → β} {b : β} :
    (f <$> p).Reads past tokens b rest ↔ ∃ a, p.Reads past tokens a rest ∧ f a = b := by
  rw [← bind_pure_comp, reads_bind]
  simp only [reads_pure]
  constructor
  · rintro ⟨a, mid, h, hb, rfl⟩
    exact ⟨a, h, hb⟩
  · rintro ⟨a, h, hb⟩
    exact ⟨a, rest, h, hb, rfl⟩

/-! ### Looking at tokens and reading them -/

@[simp] theorem reads_peek {t? : Option Token} :
    peek.Reads past tokens t? rest ↔ tokens.head? = t? ∧ rest = tokens := by
  simp [Reads, peek, eq_comm]

@[simp] theorem reads_tokensLeft {all : List Token} :
    tokensLeft.Reads past tokens all rest ↔ tokens = all ∧ rest = tokens := by
  simp [Reads, tokensLeft, eq_comm]

@[simp] theorem reads_isNext {condition : Token → Bool} {b : Bool} :
    (isNext condition).Reads past tokens b rest ↔
      tokens.head?.any condition = b ∧ rest = tokens := by
  simp [isNext, and_comm]

@[simp] theorem reads_atSymbol {c : Char} {b : Bool} :
    (atSymbol c).Reads past tokens b rest ↔
      tokens.head?.any (fun t => t.isSymbol c) = b ∧ rest = tokens :=
  reads_isNext

@[simp] theorem reads_atWord {word : String} {b : Bool} :
    (atWord word).Reads past tokens b rest ↔
      tokens.head?.any (fun t => t.isWord word) = b ∧ rest = tokens :=
  reads_isNext

@[simp] theorem reads_leave {f : List Token → List Token} {u : Unit} :
    (leave f).Reads past tokens u rest ↔ rest = f tokens := by
  simp [Reads, leave, eq_comm]

@[simp] theorem reads_skip {count : Nat} {u : Unit} :
    (skip count).Reads past tokens u rest ↔ rest = tokens.drop count :=
  reads_leave

@[simp] theorem reads_here {t : Token} :
    here.Reads past tokens t rest ↔
      tokens.head?.getD ⟨.unknown, past, ""⟩ = t ∧ rest = tokens := by
  simp [Reads, here, eq_comm]

@[simp] theorem reads_take {t next : Token} :
    take.Reads past (next :: tokens) t rest ↔ next = t ∧ rest = tokens := by
  simp [take, and_comm]

/-- The next token has the property if there is a next token and it does. -/
theorem head?_any_eq_true {condition : Token → Bool} :
    tokens.head?.any condition = true ↔ ∃ t tail, tokens = t :: tail ∧ condition t = true := by
  cases tokens <;> simp

@[simp] theorem reads_takeIf_some {condition : Token → Bool} {t : Token} :
    (takeIf condition).Reads past tokens (some t) rest ↔
      condition t = true ∧ tokens = t :: rest := by
  unfold takeIf
  cases tokens with
  | nil => simp
  | cons next tail =>
      cases h : condition next with
      | false =>
          have hne : condition t = true → next = t → ¬ tail = rest := by grind
          simpa [h] using hne
      | true =>
          have hiff : next = t ∧ rest = tail ↔ condition t = true ∧ next = t ∧ tail = rest := by grind
          simpa [h] using hiff

@[simp] theorem reads_takeIf_none {condition : Token → Bool} :
    (takeIf condition).Reads past tokens none rest ↔
      tokens.head?.any condition = false ∧ rest = tokens := by
  unfold takeIf
  cases tokens with
  | nil => simp
  | cons next tail => cases h : condition next <;> simp [h]

@[simp] theorem reads_accept_true {c : Char} :
    (accept c).Reads past tokens true rest ↔ ∃ t, t.isSymbol c = true ∧ tokens = t :: rest := by
  simp [accept, Option.exists]

@[simp] theorem reads_accept_false {c : Char} :
    (accept c).Reads past tokens false rest ↔
      tokens.head?.any (fun t => t.isSymbol c) = false ∧ rest = tokens := by
  simp [accept]

/-! ### Problems -/

@[simp] theorem not_reads_report {problem : Problem} {u : Unit} :
    ¬ (report problem).Reads past tokens u rest := by
  intro h
  obtain ⟨token, mid, _, hreport⟩ := reads_bind.mp h
  simp [Reads] at hreport

@[simp] theorem reads_expect {c : Char} {u : Unit} :
    (expect c).Reads past tokens u rest ↔ ∃ t, t.isSymbol c = true ∧ tokens = t :: rest := by
  unfold expect
  simp

@[simp] theorem not_reads_tooDeep {f : List Token → List Token} {node : Node} :
    ¬ (tooDeep f).Reads past tokens node rest := by
  simp [tooDeep]

/-! ### Choice and repetition -/

@[simp] theorem reads_rewinding_some {p : Production (Option α)} {a : α} :
    (rewinding p).Reads past tokens (some a) rest ↔ p.Reads past tokens (some a) rest := by
  unfold rewinding Reads
  cases hp : p past tokens with
  | mk result left messages => cases result <;> simp [hp]

@[simp] theorem reads_rewinding_none {p : Production (Option α)} :
    (rewinding p).Reads past tokens none rest ↔
      rest = tokens ∧ ∃ mid, p.Reads past tokens none mid := by
  unfold rewinding Reads
  cases hp : p past tokens with
  | mk result left messages => cases result <;> simp [hp, eq_comm]

/-- Something that is found counts if it took a token. -/
theorem reads_progressing {p : Production (Option α)} {a : α} :
    (progressing p).Reads past tokens (some a) rest ↔
      p.Reads past tokens (some a) rest ∧ rest.length < tokens.length := by
  unfold progressing Reads
  cases hp : p past tokens with
  | mk result left messages =>
      by_cases h : left.length < tokens.length
      · simp only [hp, h, if_true, Step.mk.injEq]
        constructor
        · rintro ⟨rfl, rfl, rfl⟩
          exact ⟨⟨rfl, rfl, rfl⟩, h⟩
        · exact And.left
      · simp only [hp, h, if_false, Step.mk.injEq, reduceCtorEq, false_and, false_iff]
        rintro ⟨⟨_, rfl, _⟩, hlt⟩
        exact h hlt

/-- Turns taken one after another, each of which reports nothing and takes a token unless it is the
last. -/
inductive Turns (turn : α → Production (Turn α)) (past : Span) :
    α → List Token → α → List Token → Prop
  | done {state last : α} {tokens rest : List Token}
      (h : (turn state).Reads past tokens (.done last) rest) : Turns turn past state tokens last rest
  | again {state next last : α} {tokens mid rest : List Token}
      (h : (turn state).Reads past tokens (.again next) mid) (hlt : mid.length < tokens.length)
      (hnext : Turns turn past next mid last rest) : Turns turn past state tokens last rest

theorem reads_repeatUpTo_succ {turn : α → Production (Turn α)} {limit : Nat} {state last : α} :
    (repeatUpTo turn (limit + 1) state).Reads past tokens last rest ↔
      (turn state).Reads past tokens (.done last) rest ∨
        ∃ next mid, (turn state).Reads past tokens (.again next) mid ∧
          (repeatUpTo turn limit next).Reads past mid last rest := by
  rw [repeatUpTo, reads_bind]
  constructor
  · rintro ⟨turned, mid, hturn, hrest⟩
    cases turned with
    | again next => exact .inr ⟨next, mid, hturn, hrest⟩
    | done final =>
        obtain ⟨rfl, rfl⟩ := reads_pure.mp hrest
        exact .inl hturn
  · rintro (hturn | ⟨next, mid, hturn, hrest⟩)
    · exact ⟨_, _, hturn, reads_pure.mpr ⟨rfl, rfl⟩⟩
    · exact ⟨_, _, hturn, hrest⟩

theorem Turns.reads_repeatUpTo {turn : α → Production (Turn α)} {state last : α}
    (h : Turns turn past state tokens last rest) :
    ∀ {limit : Nat}, tokens.length < limit →
      (repeatUpTo turn limit state).Reads past tokens last rest := by
  induction h with
  | done hturn =>
      intro limit hlimit
      obtain ⟨n, rfl⟩ := Nat.exists_eq_add_of_lt hlimit
      exact reads_repeatUpTo_succ.mpr (.inl hturn)
  | again hturn hlt _ ih =>
      intro limit hlimit
      obtain ⟨n, rfl⟩ := Nat.exists_eq_add_of_lt hlimit
      exact reads_repeatUpTo_succ.mpr (.inr ⟨_, _, hturn, ih (by omega)⟩)

/-- A repetition reads what its turns read. -/
theorem Turns.reads {turn : α → Production (Turn α)} {state last : α}
    (h : Turns turn past state tokens last rest) :
    (repeatWhile turn state).Reads past tokens last rest :=
  h.reads_repeatUpTo (Nat.lt_succ_self _)

/-- A repetition takes turns if those that go on take tokens, where `I` is what is known of the
tokens at every turn. -/
theorem Turns.of_reads {turn : α → Production (Turn α)} {I : List Token → Prop}
    (hturn : ∀ state tokens next mid, I tokens → (turn state).Reads past tokens (.again next) mid →
      I mid ∧ mid.length < tokens.length)
    {state last : α} (hI : I tokens)
    (h : (repeatWhile turn state).Reads past tokens last rest) :
    Turns turn past state tokens last rest := by
  have hup : ∀ (limit : Nat) (state : α) (tokens : List Token), I tokens → tokens.length < limit →
      (repeatUpTo turn limit state).Reads past tokens last rest →
      Turns turn past state tokens last rest := by
    intro limit
    induction limit with
    | zero => exact fun _ _ _ hlt => absurd hlt (Nat.not_lt_zero _)
    | succ limit ih =>
        intro state tokens hI hlt h
        rcases reads_repeatUpTo_succ.mp h with hdone | ⟨next, mid, hagain, hrest⟩
        · exact .done hdone
        · obtain ⟨hmid, hshort⟩ := hturn state tokens next mid hI hagain
          exact .again hagain hshort (ih next mid hmid (by omega) hrest)
  exact hup (tokens.length + 1) state tokens hI (Nat.lt_succ_self _) h

end Production

end Shading.Grammar

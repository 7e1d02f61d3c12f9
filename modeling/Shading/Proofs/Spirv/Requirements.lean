import Mathlib.Logic.Relation
import Mathlib.Data.String.Basic
import Shading.Spirv.Code

/-! # What requirements cover

A capability implies the ones that a chain of single implications leads to (`implies_iff_chain`), so
implication is reflexive and transitive.  A `CapabilitySet` drops a member only for one that implies
it, hence an insertion satisfies one capability more and loses none (`satisfies_insert`), whatever it
prunes.

`Requirements.Canonical` is what every step keeps: the capabilities are in order and none implies
another, and the extensions are in order.  Where a capability is declared along with its extensions, one
that is satisfied has them enabled, whether it was declared itself or came with another (`Sound`).  A
value is covered as soon as it has been required, and stays so in all `Requirements` that reach further
(`Enumerant.CoveredBy.mono`). -/

namespace Shading

/-! ### Ordered lists -/

namespace Ordered

/-- An order in which only equal values tie. -/
structure Strict {α : Type} (before : α → α → Bool) : Prop where
  trans : ∀ {a b c}, before a b = true → before b c = true → before a c = true
  tie : ∀ {a b}, before a b = false → before b a = false → a = b

variable {α : Type} {before : α → α → Bool}

theorem mem_insert (strict : Strict before) {a b : α} :
    ∀ {l : List α}, b ∈ insert before a l ↔ b = a ∨ b ∈ l
  | [] => by simp [insert]
  | c :: l => by
      unfold insert
      cases hac : before a c with
      | true => exact List.mem_cons
      | false =>
          cases hca : before c a with
          | true =>
              show b ∈ c :: insert before a l ↔ _
              rw [List.mem_cons, mem_insert strict, List.mem_cons]
              exact or_left_comm
          | false =>
              show b ∈ c :: l ↔ _
              rw [strict.tie hac hca, List.mem_cons]
              exact ⟨Or.inr, fun h => h.elim Or.inl id⟩

theorem pairwise_insert (strict : Strict before) (a : α) :
    ∀ {l : List α}, l.Pairwise (fun x y => before x y = true) →
      (insert before a l).Pairwise fun x y => before x y = true
  | [], _ => List.pairwise_singleton _ a
  | c :: l, h => by
      obtain ⟨hc, hl⟩ := List.pairwise_cons.mp h
      unfold insert
      cases hac : before a c with
      | true =>
          refine List.pairwise_cons.mpr ⟨?_, h⟩
          intro b hb
          rcases List.mem_cons.mp hb with rfl | hb
          · exact hac
          · exact strict.trans hac (hc b hb)
      | false =>
          cases hca : before c a with
          | true =>
              refine List.pairwise_cons.mpr ⟨?_, pairwise_insert strict a hl⟩
              intro b hb
              rcases (mem_insert strict).mp hb with rfl | hb
              · exact hca
              · exact hc b hb
          | false => exact h

theorem mem_insertAll (strict : Strict before) {b : α} :
    ∀ {items l : List α}, b ∈ insertAll before items l ↔ b ∈ items ∨ b ∈ l
  | [], l => by simp [insertAll]
  | a :: items, l => by
      have hrest : b ∈ insertAll before items (insert before a l) ↔ b ∈ items ∨ b = a ∨ b ∈ l := by
        rw [mem_insertAll strict, mem_insert strict]
      rw [List.mem_cons, or_assoc, or_left_comm]
      exact hrest

theorem pairwise_insertAll (strict : Strict before) :
    ∀ (items : List α) {l : List α}, l.Pairwise (fun x y => before x y = true) →
      (insertAll before items l).Pairwise fun x y => before x y = true
  | [], _, h => h
  | a :: items, _, h => pairwise_insertAll strict items (pairwise_insert strict a h)

/-- Texts in the order of their characters. -/
theorem strict_text : Strict fun a b : String => decide (a < b) where
  trans hab hbc := by
    simp only [decide_eq_true_eq] at hab hbc ⊢
    exact lt_trans hab hbc
  tie hab hba := by
    simp only [decide_eq_false_iff_not, not_lt] at hab hba
    exact le_antisymm hba hab

end Ordered

namespace Spirv

namespace Capability

/-! ### Implication -/

/-- One capability comes with another in one step. -/
def Adds (c d : Capability) : Prop := d ∈ c.implied

theorem chain_of_mem_impliedWithin {d : Capability} :
    ∀ {n : Nat} {c : Capability}, d ∈ impliedWithin n c → Relation.ReflTransGen Adds c d
  | 0, c, h => by
      rw [impliedWithin, List.mem_singleton] at h
      rw [h]
  | n + 1, c, h => by
      rw [impliedWithin, List.mem_cons, List.mem_flatMap] at h
      rcases h with rfl | ⟨e, he, hd⟩
      · exact Relation.ReflTransGen.refl
      · exact Relation.ReflTransGen.head he (chain_of_mem_impliedWithin hd)

/-- Three steps are enough: a further one leads nowhere new. -/
theorem closure_closed (c : Capability) : ∀ d ∈ c.closure, ∀ e ∈ d.implied, e ∈ c.closure := by
  cases c <;> decide

/-- A capability implies those that a chain of steps leads to. -/
theorem implies_iff_chain {c d : Capability} :
    c.implies d = true ↔ Relation.ReflTransGen Adds c d := by
  rw [implies, List.contains_iff_mem]
  constructor
  · exact chain_of_mem_impliedWithin
  · intro h
    induction h with
    | refl => exact List.mem_cons_self
    | tail _ hstep ih => exact closure_closed c _ ih _ hstep

theorem implies_refl (c : Capability) : c.implies c = true :=
  implies_iff_chain.mpr Relation.ReflTransGen.refl

theorem implies_trans {a b c : Capability} (hab : a.implies b = true) (hbc : b.implies c = true) :
    a.implies c = true :=
  implies_iff_chain.mpr ((implies_iff_chain.mp hab).trans (implies_iff_chain.mp hbc))

/-- The extensions of a capability are those of all that it implies. -/
theorem mem_allExtensions {c : Capability} {e : String} :
    e ∈ c.allExtensions ↔ ∃ d, c.implies d = true ∧ e ∈ d.extensions := by
  rw [allExtensions, Ordered.mem_insertAll Ordered.strict_text, List.mem_flatMap]
  simp [implies]

/-- A capability is known by its number. -/
theorem number_injective : Function.Injective number := by
  have hfind : ∀ c : Capability, Named.all.find? (fun d => d.number == c.number) = some c := by
    intro c
    cases c <;> rfl
  intro c d h
  have hsame := hfind c
  rw [h, hfind d] at hsame
  exact (Option.some.inj hsame).symm

theorem strict_number : Ordered.Strict fun c d : Capability => decide (c.number < d.number) where
  trans hab hbc := by
    simp only [decide_eq_true_eq] at hab hbc ⊢
    exact UInt32.lt_trans hab hbc
  tie hab hba := by
    simp only [decide_eq_false_iff_not, UInt32.not_lt] at hab hba
    exact number_injective (UInt32.le_antisymm hba hab)

end Capability

namespace CapabilitySet

/-! ### Sets of capabilities -/

theorem satisfies_iff {s : CapabilitySet} {d : Capability} :
    s.satisfies d = true ↔ ∃ c ∈ s.members, c.implies d = true :=
  List.any_eq_true

theorem satisfies_of_implies {s : CapabilitySet} {c d : Capability} (hc : s.satisfies c = true)
    (h : c.implies d = true) : s.satisfies d = true := by
  obtain ⟨b, hb, hbc⟩ := satisfies_iff.mp hc
  exact satisfies_iff.mpr ⟨b, hb, Capability.implies_trans hbc h⟩

/-- The members after an insertion that is not superfluous. -/
theorem mem_insert {s : CapabilitySet} {c d : Capability} (h : s.satisfies c = false) :
    d ∈ (s.insert c).members ↔ d = c ∨ d ∈ s.members ∧ c.implies d = false := by
  have hset : (s.insert c).members = Ordered.insert (fun a b => decide (a.number < b.number)) c
      (s.members.filter fun d => !c.implies d) := by
    simp [insert, h]
  rw [hset, Ordered.mem_insert Capability.strict_number, List.mem_filter, Bool.not_eq_true']

/-- An insertion satisfies what the new capability implies and loses nothing, although members may
be dropped for it. -/
theorem satisfies_insert {s : CapabilitySet} {c d : Capability} :
    (s.insert c).satisfies d = true ↔ c.implies d = true ∨ s.satisfies d = true := by
  cases h : s.satisfies c with
  | true =>
      have hsame : s.insert c = s := by simp [insert, h]
      rw [hsame]
      exact ⟨Or.inr, fun hd => hd.elim (satisfies_of_implies h) id⟩
  | false =>
      simp only [satisfies_iff, mem_insert h]
      constructor
      · rintro ⟨b, rfl | ⟨hb, _⟩, hbd⟩
        · exact Or.inl hbd
        · exact Or.inr ⟨b, hb, hbd⟩
      · rintro (hcd | ⟨b, hb, hbd⟩)
        · exact ⟨c, Or.inl rfl, hcd⟩
        · -- a member that was dropped is replaced in what it satisfied
          cases hcb : c.implies b with
          | true => exact ⟨c, Or.inl rfl, Capability.implies_trans hcb hbd⟩
          | false => exact ⟨b, Or.inr ⟨hb, hcb⟩, hbd⟩

theorem satisfies_foldl_insert {d : Capability} :
    ∀ {cs : List Capability} {s : CapabilitySet},
      (cs.foldl insert s).satisfies d = true ↔
        s.satisfies d = true ∨ ∃ c ∈ cs, c.implies d = true
  | [], s => by simp
  | c :: cs, s => by
      rw [List.foldl_cons, satisfies_foldl_insert, satisfies_insert, List.exists_mem_cons_iff]
      exact or_assoc.trans or_left_comm

/-- The members are in the order of their numbers, and none implies another. -/
structure Minimal (s : CapabilitySet) : Prop where
  ascending : s.members.Pairwise fun c d => c.number < d.number
  distinct : ∀ c ∈ s.members, ∀ d ∈ s.members, c.implies d = true → c = d

theorem minimal_empty : Minimal {} where
  ascending := List.Pairwise.nil
  distinct _ hc := by cases hc

theorem Minimal.insert {s : CapabilitySet} (h : s.Minimal) (c : Capability) :
    (s.insert c).Minimal := by
  cases hc : s.satisfies c with
  | true =>
      have hsame : s.insert c = s := by simp [CapabilitySet.insert, hc]
      rw [hsame]
      exact h
  | false =>
      have hfree : ∀ d ∈ s.members, d.implies c = false := by
        intro d hd
        by_contra hdc
        rw [Bool.not_eq_false] at hdc
        rw [satisfies_iff.mpr ⟨d, hd, hdc⟩] at hc
        cases hc
      constructor
      -- dropping members keeps the order of the others
      · have hkept : (s.members.filter fun d => !c.implies d).Pairwise
            fun a b => decide (a.number < b.number) = true := by
          simpa using h.ascending.filter _
        have hput := Ordered.pairwise_insert Capability.strict_number c hkept
        simpa [CapabilitySet.insert, hc] using hput
      · intro a ha b hb hab
        rw [mem_insert hc] at ha hb
        rcases ha with rfl | ⟨ha, _⟩ <;> rcases hb with rfl | ⟨hb, hcb⟩
        · rfl
        · rw [hab] at hcb
          cases hcb
        · rw [hfree a ha] at hab
          cases hab
        · exact h.distinct a ha b hb hab

theorem Minimal.foldl_insert :
    ∀ (cs : List Capability) {s : CapabilitySet}, s.Minimal → (cs.foldl .insert s).Minimal
  | [], _, h => h
  | c :: cs, _, h => foldl_insert cs (h.insert c)

/-- An alternative is declared only if none is satisfied, and then it is the first. -/
theorem of_missing? {s : CapabilitySet} {alternatives : List Capability} {c : Capability}
    (h : s.missing? alternatives = some c) :
    alternatives.head? = some c ∧ ∀ a ∈ alternatives, s.satisfies a = false := by
  unfold missing? at h
  split at h
  case isTrue => cases h
  case isFalse hnone =>
    refine ⟨h, ?_⟩
    intro a ha
    rw [Bool.not_eq_true, List.any_eq_false] at hnone
    exact Bool.eq_false_of_not_eq_true (hnone a ha)

end CapabilitySet

namespace Requirements

/-! ### Requirements -/

theorem mem_addExtensions {r : Requirements} {names : List String} {e : String} :
    e ∈ (r.addExtensions names).extensions ↔ e ∈ names ∨ e ∈ r.extensions :=
  Ordered.mem_insertAll Ordered.strict_text

/-- No capability implies another, and both lists are in order. -/
structure Canonical (r : Requirements) : Prop where
  minimal : r.capabilities.Minimal
  ordered : r.extensions.Pairwise (· < ·)

theorem canonical_empty : Canonical {} where
  minimal := CapabilitySet.minimal_empty
  ordered := List.Pairwise.nil

namespace Canonical

variable {r : Requirements}

protected theorem addExtensions (h : r.Canonical) (names : List String) :
    (r.addExtensions names).Canonical where
  minimal := h.minimal
  ordered := by
    have hput := Ordered.pairwise_insertAll Ordered.strict_text names
      (h.ordered.imp fun hab => decide_eq_true hab)
    exact hput.imp fun hab => of_decide_eq_true hab

protected theorem insert (h : r.Canonical) (c : Capability) :
    Canonical { r with capabilities := r.capabilities.insert c } :=
  ⟨h.minimal.insert c, h.ordered⟩

protected theorem requireAny (h : r.Canonical) (alternatives : List Capability) :
    (r.requireAny alternatives).Canonical := by
  unfold Requirements.requireAny
  cases r.capabilities.missing? alternatives with
  | none => exact h
  | some c => exact (h.insert c).addExtensions c.allExtensions

protected theorem merge (h : r.Canonical) (other : Requirements) : (r.merge other).Canonical := by
  apply Canonical.addExtensions
  exact ⟨h.minimal.foldl_insert other.capabilities.members, h.ordered⟩

end Canonical

/-- What is satisfied can be declared: its extensions are enabled. -/
structure Sound (r : Requirements) : Prop extends Canonical r where
  enabled : ∀ c, r.capabilities.satisfies c = true → ∀ e ∈ c.extensions, e ∈ r.extensions

/-- All that is satisfied and enabled here is so there. -/
structure Within (r other : Requirements) : Prop where
  satisfies : ∀ c, r.capabilities.satisfies c = true → other.capabilities.satisfies c = true
  extensions : ∀ e ∈ r.extensions, e ∈ other.extensions

theorem Within.refl (r : Requirements) : r.Within r := ⟨fun _ h => h, fun _ h => h⟩

theorem Within.trans {a b c : Requirements} (hab : a.Within b) (hbc : b.Within c) : a.Within c :=
  ⟨fun d h => hbc.satisfies d (hab.satisfies d h), fun e h => hbc.extensions e (hab.extensions e h)⟩

theorem sound_empty : Sound {} where
  toCanonical := canonical_empty
  enabled _ h := by cases h

theorem within_addExtensions (r : Requirements) (names : List String) :
    r.Within (r.addExtensions names) :=
  ⟨fun _ h => h, fun _ h => mem_addExtensions.mpr (Or.inr h)⟩

/-- Extensions may be enabled ahead of the capabilities that need them. -/
theorem Canonical.sound_addExtensions {r : Requirements} (h : r.Canonical) {names : List String}
    (enabled : ∀ c, r.capabilities.satisfies c = true → ∀ e ∈ c.extensions,
      e ∈ names ∨ e ∈ r.extensions) : (r.addExtensions names).Sound where
  toCanonical := h.addExtensions names
  enabled c hc e he := mem_addExtensions.mpr (enabled c hc e he)

theorem Sound.addExtensions {r : Requirements} (h : r.Sound) (names : List String) :
    (r.addExtensions names).Sound :=
  h.sound_addExtensions fun c hc e he => Or.inr (h.enabled c hc e he)

theorem Sound.requireAny {r : Requirements} (h : r.Sound) (alternatives : List Capability) :
    (r.requireAny alternatives).Sound := by
  unfold Requirements.requireAny
  cases r.capabilities.missing? alternatives with
  | none => exact h
  | some c =>
      -- the capability is declared together with the extensions of all that it implies
      refine (h.insert c).sound_addExtensions ?_
      intro d hd e he
      rcases CapabilitySet.satisfies_insert.mp hd with hcd | hd
      · exact Or.inl (Capability.mem_allExtensions.mpr ⟨d, hcd, he⟩)
      · exact Or.inr (h.enabled d hd e he)

theorem within_requireAny (r : Requirements) (alternatives : List Capability) :
    r.Within (r.requireAny alternatives) := by
  unfold requireAny
  cases r.capabilities.missing? alternatives with
  | none => exact Within.refl r
  | some c =>
      refine Within.trans ⟨?_, ?_⟩ (within_addExtensions _ _)
      · intro d hd
        exact CapabilitySet.satisfies_insert.mpr (Or.inr hd)
      · exact fun _ he => he

/-- One of the alternatives is satisfied from then on. -/
theorem exists_satisfies_requireAny (r : Requirements) {alternatives : List Capability}
    (h : alternatives ≠ []) :
    ∃ c ∈ alternatives, (r.requireAny alternatives).capabilities.satisfies c = true := by
  unfold requireAny CapabilitySet.missing?
  cases hany : alternatives.any r.capabilities.satisfies with
  | true => exact List.any_eq_true.mp hany
  | false =>
      cases alternatives with
      | nil => exact absurd rfl h
      | cons c rest =>
          refine ⟨c, List.mem_cons_self, ?_⟩
          exact CapabilitySet.satisfies_insert.mpr (Or.inl c.implies_refl)

/-! ### Merging -/

theorem satisfies_merge {r other : Requirements} {d : Capability} :
    (r.merge other).capabilities.satisfies d = true ↔
      r.capabilities.satisfies d = true ∨ other.capabilities.satisfies d = true := by
  rw [CapabilitySet.satisfies_iff (s := other.capabilities)]
  exact CapabilitySet.satisfies_foldl_insert

theorem within_merge_left (r other : Requirements) : r.Within (r.merge other) where
  satisfies _ h := satisfies_merge.mpr (Or.inl h)
  extensions _ h := mem_addExtensions.mpr (Or.inr h)

theorem within_merge_right (r other : Requirements) : other.Within (r.merge other) where
  satisfies _ h := satisfies_merge.mpr (Or.inr h)
  extensions _ h := mem_addExtensions.mpr (Or.inl h)

/-- No extension is lost when a capability of one side is absorbed by one of the other: what either
side satisfies, it has enabled itself. -/
theorem Sound.merge {r other : Requirements} (h : r.Sound) (hother : other.Sound) :
    (r.merge other).Sound := by
  have hmerged : Canonical { r with
      capabilities := other.capabilities.members.foldl .insert r.capabilities } :=
    ⟨h.minimal.foldl_insert _, h.ordered⟩
  refine hmerged.sound_addExtensions ?_
  intro c hc e he
  rcases satisfies_merge.mp hc with hc | hc
  · exact Or.inr (h.enabled c hc e he)
  · exact Or.inl (hother.enabled c hc e he)

end Requirements

/-! ### Values that are required -/

namespace Enumerant

variable {v : Enumerant} {r other : Requirements}

/-- One of the alternative capabilities is satisfied, if there are any, and all extensions are
enabled. -/
structure CoveredBy (v : Enumerant) (r : Requirements) : Prop where
  capability : v.capabilities ≠ [] → ∃ c ∈ v.capabilities, r.capabilities.satisfies c = true
  extensions : ∀ e ∈ v.extensions, e ∈ r.extensions

/-- What is covered stays covered: a satisfied alternative may be absorbed, but not lost. -/
theorem CoveredBy.mono (h : v.CoveredBy r) (hr : r.Within other) : v.CoveredBy other where
  capability hne := by
    obtain ⟨c, hc, hsat⟩ := h.capability hne
    exact ⟨c, hc, hr.satisfies c hsat⟩
  extensions e he := hr.extensions e (h.extensions e he)

theorem coveredBy_require (v : Enumerant) (r : Requirements) : v.CoveredBy (v.require r) where
  capability := r.exists_satisfies_requireAny
  extensions _ he := Requirements.mem_addExtensions.mpr (Or.inl he)

theorem sound_require (h : r.Sound) (v : Enumerant) : (v.require r).Sound :=
  (h.requireAny v.capabilities).addExtensions v.extensions

theorem within_require (r : Requirements) (v : Enumerant) : r.Within (v.require r) :=
  (r.within_requireAny v.capabilities).trans (Requirements.within_addExtensions _ _)

end Enumerant

end Spirv

end Shading

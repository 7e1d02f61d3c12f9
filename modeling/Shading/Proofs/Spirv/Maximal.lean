import Mathlib.Data.List.Sort
import Mathlib.Order.Minimal
import Shading.Proofs.Spirv.Requirements

/-! # Sets of maximal capabilities

No two capabilities imply each other, so implication is a partial order, in which a capability lies
below those that imply it.  A set whose members do not imply each other is known by what it satisfies
(`CapabilitySet.Minimal.ext`), and its members are the maximal ones among any capabilities that imply
the same as it satisfies (`CapabilitySet.Minimal.mem_iff_maximal`).

Requirements are collected by `Demand`s.  Each is described by the capabilities that it gives, whatever
is dropped for them or not taken up, so that what a whole collection holds follows from all that was
given (`collect_maximal`).  For the same reason the order of insertions and of mergers does not
matter. -/

namespace Shading

/-- A list in which every item comes before all that follow it is known by its members. -/
theorem Ordered.eq_of_mem_iff {α : Type} {r : α → α → Prop} (hasymm : ∀ a b, r a b → ¬r b a)
    {l l' : List α} (h : l.Pairwise r) (h' : l'.Pairwise r) (hmem : ∀ a, a ∈ l ↔ a ∈ l') : l = l' := by
  have : Std.Irrefl r := ⟨fun a ha => hasymm a a ha ha⟩
  have : Std.Antisymm r := ⟨fun a b hab hba => absurd hba (hasymm a b hab)⟩
  exact h.eq_of_mem_iff h' hmem

namespace Spirv

/-! ### The order of implication -/

namespace Capability

/-- There is no circle of implications. -/
theorem implies_antisymm {c d : Capability} (hcd : c.implies d = true) (hdc : d.implies c = true) :
    c = d := by
  have hcircle : ∀ c : Capability, ∀ d ∈ c.closure, c ∈ d.closure → c = d := by
    intro c
    cases c <;> decide
  unfold implies at hcd hdc
  rw [List.contains_iff_mem] at hcd hdc
  exact hcircle c d hcd hdc

/-- A capability lies below those that imply it. -/
instance : PartialOrder Capability where
  le c d := d.implies c = true
  le_refl := implies_refl
  le_trans _ _ _ hcd hde := implies_trans hde hcd
  le_antisymm _ _ hcd hdc := implies_antisymm hdc hcd

instance : DecidableLE Capability := fun c d => inferInstanceAs (Decidable (d.implies c = true))

end Capability

/-! ### Sets -/

namespace CapabilitySet

/-- The set satisfies exactly what the capabilities with `P` imply. -/
def Covers (s : CapabilitySet) (P : Capability → Prop) : Prop :=
  ∀ d, s.satisfies d = true ↔ ∃ c, P c ∧ c.implies d = true

theorem covers_members (s : CapabilitySet) : s.Covers (· ∈ s.members) := fun _ => satisfies_iff

/-- Where members do not imply each other, they are the maximal capabilities of all that the set
stands for. -/
theorem Minimal.mem_iff_maximal {s : CapabilitySet} {P : Capability → Prop} (h : s.Minimal)
    (hs : s.Covers P) {c : Capability} : c ∈ s.members ↔ Maximal P c := by
  have hmember : ∀ m ∈ s.members, Maximal P m := by
    intro m hm
    -- what implies a member is implied by a member, and that can only be the same
    have hsame : ∀ e, P e → m ≤ e → e = m := by
      intro e he hme
      obtain ⟨m', hm', himplies⟩ := satisfies_iff.mp ((hs e).mpr ⟨e, he, e.implies_refl⟩)
      obtain rfl := h.distinct m' hm' m hm (Capability.implies_trans himplies hme)
      exact le_antisymm himplies hme
    obtain ⟨e, he, hem⟩ := (hs m).mp (satisfies_iff.mpr ⟨m, hm, m.implies_refl⟩)
    obtain rfl := hsame e he hem
    exact ⟨he, fun e' he' hle => (hsame e' he' hle).le⟩
  refine ⟨hmember c, ?_⟩
  intro hc
  obtain ⟨m, hm, himplies⟩ := satisfies_iff.mp ((hs c).mpr ⟨c, hc.prop, c.implies_refl⟩)
  rwa [hc.eq_of_le (hmember m hm).prop himplies]

/-- Such a set is known by what it satisfies. -/
theorem Minimal.ext {s t : CapabilitySet} (hs : s.Minimal) (ht : t.Minimal)
    (h : ∀ d, s.satisfies d = true ↔ t.satisfies d = true) : s = t := by
  have hcovers : s.Covers (· ∈ t.members) := fun d => (h d).trans satisfies_iff
  have hmembers : s.members = t.members := by
    apply Ordered.eq_of_mem_iff _ hs.ascending ht.ascending
    · intro c
      rw [hs.mem_iff_maximal hcovers, ht.mem_iff_maximal t.covers_members]
    · exact fun _ _ => UInt32.lt_asymm
  cases s
  exact congrArg CapabilitySet.mk hmembers

/-- Neither the order nor the repetition of insertions matters. -/
theorem Minimal.foldl_insert_congr {s : CapabilitySet} (h : s.Minimal) {cs cs' : List Capability}
    (hmem : ∀ c, c ∈ cs ↔ c ∈ cs') : cs.foldl .insert s = cs'.foldl .insert s := by
  apply (h.foldl_insert cs).ext (h.foldl_insert cs')
  intro d
  simp only [satisfies_foldl_insert, hmem]

/-- A requirement satisfies besides what the alternative implies that is declared for it, if any. -/
theorem satisfies_requireAny {s : CapabilitySet} {alternatives : List Capability} {d : Capability} :
    (s.requireAny alternatives).satisfies d = true ↔
      s.satisfies d = true ∨ ∃ c ∈ s.missing? alternatives, c.implies d = true := by
  unfold requireAny
  cases s.missing? alternatives with
  | none => simp
  | some c => simp [satisfies_insert, or_comm]

end CapabilitySet

/-! ### Requirements -/

namespace Requirements

theorem capabilities_requireAny (r : Requirements) (alternatives : List Capability) :
    (r.requireAny alternatives).capabilities = r.capabilities.requireAny alternatives := by
  unfold requireAny CapabilitySet.requireAny
  cases r.capabilities.missing? alternatives <;> rfl

namespace Canonical

variable {r other third : Requirements}

theorem ext (h : r.Canonical) (h' : other.Canonical)
    (hsatisfies : ∀ d, r.capabilities.satisfies d = true ↔ other.capabilities.satisfies d = true)
    (hextensions : ∀ e, e ∈ r.extensions ↔ e ∈ other.extensions) : r = other := by
  have hcapabilities := h.minimal.ext h'.minimal hsatisfies
  have hnames := Ordered.eq_of_mem_iff (fun _ _ => lt_asymm) h.ordered h'.ordered hextensions
  cases r
  cases other
  exact congr (congrArg Requirements.mk hcapabilities) hnames

theorem mem_merge {e : String} :
    e ∈ (r.merge other).extensions ↔ e ∈ other.extensions ∨ e ∈ r.extensions :=
  mem_addExtensions

theorem merge_comm (h : r.Canonical) (h' : other.Canonical) : r.merge other = other.merge r := by
  apply (h.merge other).ext (h'.merge r)
  · intro d
    rw [satisfies_merge, satisfies_merge, or_comm]
  · intro e
    rw [mem_merge, mem_merge, or_comm]

theorem merge_assoc (h : r.Canonical) :
    (r.merge other).merge third = r.merge (other.merge third) := by
  apply ((h.merge other).merge third).ext (h.merge _)
  · intro d
    simp only [satisfies_merge, or_assoc]
  · intro e
    simp only [mem_merge, or_assoc]

theorem merge_self (h : r.Canonical) : r.merge r = r := by
  apply (h.merge r).ext h
  · intro d
    rw [satisfies_merge, or_self]
  · intro e
    rw [mem_merge, or_self]

end Canonical

end Requirements

/-! ### Collecting requirements -/

/-- A step in collecting requirements. -/
inductive Demand where
  /-- Declares a capability. -/
  | insert (c : Capability)
  /-- Makes sure of one of some alternatives. -/
  | requireAny (alternatives : List Capability)
  /-- Enables extensions. -/
  | addExtensions (names : List String)
  /-- Takes over all that another part requires. -/
  | merge (other : Requirements)

namespace Demand

/-- Takes one step. -/
def apply (r : Requirements) : Demand → Requirements
  | insert c => { r with capabilities := r.capabilities.insert c }
  | requireAny alternatives => r.requireAny alternatives
  | addExtensions names => r.addExtensions names
  | merge other => r.merge other

/-- The capabilities that a step gives to requirements: the one inserted, the one that is declared
among alternatives if none of them is satisfied, or those merged in. -/
def given (r : Requirements) : Demand → List Capability
  | insert c => [c]
  | requireAny alternatives => (r.capabilities.missing? alternatives).toList
  | addExtensions _ => []
  | merge other => other.capabilities.members

theorem canonical_apply {r : Requirements} (h : r.Canonical) (demand : Demand) :
    (demand.apply r).Canonical := by
  cases demand with
  | insert c => exact h.insert c
  | requireAny alternatives => exact h.requireAny alternatives
  | addExtensions names => exact h.addExtensions names
  | merge other => exact h.merge other

/-- What is satisfied after a step is what was satisfied and what the given capabilities imply. -/
theorem satisfies_apply {r : Requirements} (demand : Demand) {d : Capability} :
    (demand.apply r).capabilities.satisfies d = true ↔
      r.capabilities.satisfies d = true ∨ ∃ c ∈ demand.given r, c.implies d = true := by
  cases demand with
  | insert c =>
      simp only [apply, given, CapabilitySet.satisfies_insert, List.mem_singleton, exists_eq_left]
      exact or_comm
  | requireAny alternatives =>
      simp only [apply, given, Requirements.capabilities_requireAny,
        CapabilitySet.satisfies_requireAny, Option.mem_toList, Option.mem_def]
  | addExtensions names => simp [apply, given, Requirements.addExtensions]
  | merge other =>
      simp only [apply, given, Requirements.satisfies_merge, ← CapabilitySet.satisfies_iff]

end Demand

/-- What is required in the end. -/
def collect (r : Requirements) (demands : List Demand) : Requirements := demands.foldl Demand.apply r

/-- All capabilities that are given on the way. -/
def givenBy (r : Requirements) : List Demand → List Capability
  | [] => []
  | demand :: rest => demand.given r ++ givenBy (demand.apply r) rest

theorem canonical_collect {r : Requirements} (h : r.Canonical) (demands : List Demand) :
    (collect r demands).Canonical := by
  induction demands generalizing r with
  | nil => exact h
  | cons demand rest ih => exact ih (demand.canonical_apply h)

theorem satisfies_collect {r : Requirements} (demands : List Demand) {d : Capability} :
    (collect r demands).capabilities.satisfies d = true ↔
      r.capabilities.satisfies d = true ∨ ∃ c ∈ givenBy r demands, c.implies d = true := by
  induction demands generalizing r with
  | nil => simp [collect, givenBy]
  | cons demand rest ih =>
      show (collect (demand.apply r) rest).capabilities.satisfies d = true ↔ _
      rw [ih, demand.satisfies_apply]
      simp only [givenBy, List.mem_append, or_and_right, exists_or, or_assoc]

/-- Nothing is satisfied but what was given. -/
theorem covers_collect (demands : List Demand) :
    (collect {} demands).capabilities.Covers (· ∈ givenBy {} demands) := by
  intro d
  rw [satisfies_collect]
  exact or_iff_right Bool.false_ne_true

/-- **Capability sets hold the maximal requirements.**  Whatever is demanded, the capabilities collected
are in order, and they are the maximal ones of all that were inserted, merged in or declared for
alternatives; so none implies another, and what they satisfy is what any of those implies.  Further
insertions come to the same in any order and with any repetitions.  To merge what is collected so is
commutative, associative and idempotent. -/
theorem collect_maximal (demands others more : List Demand) :
    let r := collect {} demands
    let r' := collect {} others
    let r'' := collect {} more
    r.capabilities.members.Pairwise (fun c d => c.number < d.number) ∧
      (∀ c, c ∈ r.capabilities.members ↔ Maximal (· ∈ givenBy {} demands) c) ∧
      (∀ c ∈ r.capabilities.members, ∀ d ∈ r.capabilities.members, c.implies d = true → c = d) ∧
      (∀ d, r.capabilities.satisfies d = true ↔
        ∃ c ∈ givenBy {} demands, c.implies d = true) ∧
      (∀ cs cs' : List Capability, (∀ c, c ∈ cs ↔ c ∈ cs') →
        cs.foldl .insert r.capabilities = cs'.foldl .insert r.capabilities ∧
          CapabilitySet.ofList cs = CapabilitySet.ofList cs') ∧
      r.merge r' = r'.merge r ∧ (r.merge r').merge r'' = r.merge (r'.merge r'') ∧ r.merge r = r := by
  intro r r' r''
  have h : r.Canonical := canonical_collect Requirements.canonical_empty demands
  have h' : r'.Canonical := canonical_collect Requirements.canonical_empty others
  refine ⟨h.minimal.ascending, ?_, h.minimal.distinct, covers_collect demands, ?_, h.merge_comm h',
    h.merge_assoc, h.merge_self⟩
  · intro c
    exact h.minimal.mem_iff_maximal (covers_collect demands)
  · intro cs cs' hmem
    exact ⟨h.minimal.foldl_insert_congr hmem, CapabilitySet.minimal_empty.foldl_insert_congr hmem⟩

/-- `Geometry` is declared for alternatives and absorbs `Matrix`, which was there before; `Shader` and
`Int64` add nothing. -/
def absorbingSample : List Demand :=
  [.insert .matrix, .requireAny [.geometry, .tessellation], .requireAny [.tessellation, .geometry],
    .merge ⟨⟨[.shader, .int64Atomics]⟩, []⟩, .insert .int64]

theorem collect_maximal_absorbingSample :
    givenBy {} absorbingSample = [.matrix, .geometry, .shader, .int64Atomics, .int64] ∧
      (collect {} absorbingSample).capabilities.members = [.geometry, .int64Atomics] ∧
      Maximal (· ∈ givenBy {} absorbingSample) .int64Atomics ∧
      (collect {} absorbingSample).capabilities.satisfies .matrix = true ∧
      CapabilitySet.ofList [.int64, .geometry, .shader] =
        CapabilitySet.ofList [.shader, .geometry, .shader, .int64] := by
  have hgiven : givenBy {} absorbingSample = [.matrix, .geometry, .shader, .int64Atomics, .int64] := by
    decide
  have hmembers : (collect {} absorbingSample).capabilities.members = [.geometry, .int64Atomics] := by
    decide
  obtain ⟨_, hmaximal, _, hsatisfies, horder, _⟩ := collect_maximal absorbingSample [] []
  refine ⟨hgiven, hmembers, (hmaximal _).mp ?_, (hsatisfies _).mpr ⟨.matrix, ?_, rfl⟩, ?_⟩
  · rw [hmembers]
    decide
  · rw [hgiven]
    decide
  · apply (horder _ _ _).2
    intro c
    simp only [List.mem_cons, List.not_mem_nil, or_false]
    tauto

end Spirv

end Shading

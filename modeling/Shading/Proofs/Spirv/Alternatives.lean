import Shading.Proofs.Spirv.Maximal
import Shading.Proofs.Spirv.Preamble

/-! # Alternatives and what is declared for them

The values of an instruction are required one after the other.  Alternatives are settled as they come:
where none is satisfied yet, the first is declared, and this is never taken back.  Later declarations
may satisfy another alternative and leave the first without use (`geometry_dispensable`).

A choice is the only way to come to a capability without use.  One that was declared where there was
nothing to choose is needed in the end, and one that was chosen is needed exactly if some alternatives
have no other to serve them (`indispensable_iff`). -/

namespace Shading.Spirv

/-! ### Requiring values -/

/-- The code that pushes make. -/
def Code.pushed (is : List Instruction) : Code := is.foldl (fun c i => c.push i.op i.operands) {}

/-- The values of the instructions that can be written, in the order in which they are required. -/
def demanded (is : List Instruction) : List Enumerant :=
  (is.filter Instruction.isWritable).flatMap Instruction.entries

theorem Code.requirements_foldl_push (is : List Instruction) (c : Code) :
    (is.foldl (fun c i => c.push i.op i.operands) c).requirements =
      (demanded is).foldl Enumerant.require c.requirements := by
  induction is generalizing c with
  | nil => rfl
  | cons i is ih =>
      rw [List.foldl_cons, ih]
      by_cases hw : i.isWritable = true
      · have hpush : (c.push i.op i.operands).requirements = i.require c.requirements := by
          simp [Code.push, hw]
        have hdemanded : demanded (i :: is) = i.entries ++ demanded is := by simp [demanded, hw]
        rw [hpush, hdemanded, List.foldl_append, Instruction.require_eq]
      · have hpush : c.push i.op i.operands = c := by simp [Code.push, hw]
        have hdemanded : demanded (i :: is) = demanded is := by simp [demanded, hw]
        rw [hpush, hdemanded]

theorem Code.requirements_pushed (is : List Instruction) :
    (Code.pushed is).requirements = (demanded is).foldl Enumerant.require {} :=
  Code.requirements_foldl_push is {}

theorem Enumerant.capabilities_foldl_require (vs : List Enumerant) (r : Requirements) :
    (vs.foldl Enumerant.require r).capabilities =
      (vs.map Enumerant.capabilities).foldl CapabilitySet.requireAny r.capabilities := by
  induction vs generalizing r with
  | nil => rfl
  | cons v vs ih =>
      have hv : (v.require r).capabilities = r.capabilities.requireAny v.capabilities :=
        r.capabilities_requireAny v.capabilities
      rw [List.foldl_cons, ih, List.map_cons, List.foldl_cons, hv]

/-! ### Choices -/

namespace CapabilitySet

/-- Members were there before or are declared for the alternatives. -/
theorem mem_requireAny {s : CapabilitySet} {alternatives : List Capability} {c : Capability}
    (h : c ∈ (s.requireAny alternatives).members) :
    c ∈ s.members ∨ s.missing? alternatives = some c := by
  unfold requireAny at h
  cases hmissing : s.missing? alternatives with
  | none =>
      rw [hmissing] at h
      exact Or.inl h
  | some d =>
      rw [hmissing] at h
      obtain ⟨hhead, hnone⟩ := of_missing? hmissing
      rcases (mem_insert (hnone d (List.mem_of_head? hhead))).mp h with rfl | ⟨hc, _⟩
      · exact Or.inr rfl
      · exact Or.inl hc

/-- The capability that is declared for alternatives, unless there is no other among them. -/
def choice (s : CapabilitySet) (alternatives : List Capability) : Option Capability :=
  (s.missing? alternatives).filter fun c => alternatives.any (· != c)

/-- The choices that are made when lists of alternatives are required one after the other. -/
def choices (s : CapabilitySet) : List (List Capability) → List Capability
  | [] => []
  | alternatives :: lists =>
    (s.choice alternatives).toList ++ (s.requireAny alternatives).choices lists

/-- Where nothing was chosen, all alternatives are the same. -/
theorem choice_or_only {s : CapabilitySet} {alternatives : List Capability} {c : Capability}
    (h : s.missing? alternatives = some c) :
    s.choice alternatives = some c ∨ ∀ a ∈ alternatives, a = c := by
  unfold choice
  rw [h, Option.filter_some]
  split
  case isTrue => exact Or.inl rfl
  case isFalse hno =>
    right
    intro a ha
    by_contra hne
    exact hno (List.any_eq_true.mpr ⟨a, ha, bne_iff_ne.mpr hne⟩)

/-- A new member was chosen, or declared where there was nothing to choose. -/
theorem mem_foldl_requireAny {c : Capability} {lists : List (List Capability)} {s : CapabilitySet}
    (h : c ∈ (lists.foldl requireAny s).members) :
    c ∈ s.members ∨ c ∈ s.choices lists ∨
      ∃ alternatives ∈ lists, alternatives ≠ [] ∧ ∀ a ∈ alternatives, a = c := by
  induction lists generalizing s with
  | nil => exact Or.inl h
  | cons alternatives lists ih =>
      rcases ih h with hmem | hchosen | ⟨only, honly, hsame⟩
      · rcases mem_requireAny hmem with hmem | hmissing
        · exact Or.inl hmem
        · rcases choice_or_only hmissing with hchoice | hsame
          · exact Or.inr (Or.inl (List.mem_append_left _ (by simp [hchoice])))
          · have hne := List.ne_nil_of_mem (List.mem_of_head? (of_missing? hmissing).1)
            exact Or.inr (Or.inr ⟨alternatives, List.mem_cons_self, hne, hsame⟩)
      · exact Or.inr (Or.inl (List.mem_append_right _ hchosen))
      · exact Or.inr (Or.inr ⟨only, List.mem_cons_of_mem _ honly, hsame⟩)

end CapabilitySet

/-- Values that leave no choice have one alternative at most. -/
def Enumerant.Definite (v : Enumerant) : Prop := v.capabilities.length ≤ 1

instance (v : Enumerant) : Decidable v.Definite := Nat.decLe _ _

theorem Enumerant.Definite.eq {v : Enumerant} (h : v.Definite) {a c : Capability}
    (ha : a ∈ v.capabilities) (hc : c ∈ v.capabilities) : a = c := by
  obtain ⟨i, hi, rfl⟩ := List.getElem_of_mem ha
  obtain ⟨j, hj, rfl⟩ := List.getElem_of_mem hc
  unfold Definite at h
  obtain rfl : i = j := by omega
  rfl

/-! ### Capabilities that can be taken away -/

/-- The capability implies one of the alternatives. -/
def Capability.Serves (c : Capability) (alternatives : List Capability) : Prop :=
  ∃ a ∈ alternatives, c.implies a = true

instance (c : Capability) (alternatives : List Capability) : Decidable (c.Serves alternatives) :=
  inferInstanceAs (Decidable (∃ a ∈ alternatives, c.implies a = true))

/-- Without the capability, the others still imply an alternative of each list that is not empty. -/
def Dispensable (members : List Capability) (lists : List (List Capability)) (m : Capability) : Prop :=
  ∀ alternatives ∈ lists, alternatives ≠ [] → ∃ d ∈ members, d ≠ m ∧ d.Serves alternatives

instance (members : List Capability) (lists : List (List Capability)) (m : Capability) :
    Decidable (Dispensable members lists m) :=
  inferInstanceAs (Decidable (∀ alternatives ∈ lists, alternatives ≠ [] →
    ∃ d ∈ members, d ≠ m ∧ d.Serves alternatives))

/-- `Triangles` asks for `Geometry` or `Tessellation` before an entry point asks for the latter. -/
def trianglesSample : List Instruction :=
  [⟨.executionMode, [.id ⟨1⟩, .enumerant (.of ExecutionMode.triangles)]⟩,
    ⟨.entryPoint,
      [.enumerant (.of ExecutionModel.tessellationEvaluation), .id ⟨1⟩, .text "main"]⟩]

/-- `Geometry` is declared first and stays, although nothing needs it in the end. -/
theorem geometry_dispensable :
    let members := (Code.pushed trianglesSample).requirements.capabilities.members
    members = [.geometry, .tessellation] ∧
      Dispensable members ((demanded trianglesSample).map Enumerant.capabilities) .geometry := by
  decide +kernel

theorem canonical_foldl_require {r : Requirements} (h : r.Canonical) (vs : List Enumerant) :
    (vs.foldl Enumerant.require r).Canonical := by
  induction vs generalizing r with
  | nil => exact h
  | cons v vs ih => exact ih ((h.requireAny v.capabilities).addExtensions v.extensions)

/-- All that was demanded is served. -/
theorem exists_serves {is : List Instruction} {alternatives : List Capability}
    (h : alternatives ∈ (demanded is).map Enumerant.capabilities) (hne : alternatives ≠ []) :
    ∃ d ∈ (Code.pushed is).requirements.capabilities.members, d.Serves alternatives := by
  obtain ⟨v, hv, rfl⟩ := List.mem_map.mp h
  rw [Code.requirements_pushed]
  obtain ⟨c, hc, hsatisfied⟩ := (Enumerant.coveredBy_foldl_require {} hv).capability hne
  obtain ⟨d, hd, himplies⟩ := CapabilitySet.satisfies_iff.mp hsatisfied
  exact ⟨d, hd, c, hc, himplies⟩

/-- **What is declared is needed, up to choices.**  Whatever is pushed, with operands chosen from the
enumerations or not, a capability that is required can be taken away, such that the others still imply
an alternative of each list, only if it was once chosen, that is declared as the first of several
alternatives none of which was satisfied, and if now each list that it serves is served by another. -/
theorem indispensable_iff (is : List Instruction) :
    let members := (Code.pushed is).requirements.capabilities.members
    let lists := (demanded is).map Enumerant.capabilities
    ∀ m ∈ members, (¬Dispensable members lists m ↔
      (m ∈ CapabilitySet.choices {} lists →
        ∃ alternatives ∈ lists, m.Serves alternatives ∧ ∀ d ∈ members, d.Serves alternatives → d = m)) := by
  intro members lists m hm
  constructor
  · intro hneeded _
    by_contra hshared
    refine hneeded fun alternatives hmem hne => ?_
    obtain ⟨d, hd, hserves⟩ := exists_serves hmem hne
    by_cases hother : d = m
    · subst hother
      by_contra halone
      refine hshared ⟨alternatives, hmem, hserves, fun e he heserves => ?_⟩
      by_contra hne
      exact halone ⟨e, he, hne, heserves⟩
    · exact ⟨d, hd, hother, hserves⟩
  · intro halone hspare
    have hdeclared : m ∈ (lists.foldl CapabilitySet.requireAny {}).members := by
      rw [← Enumerant.capabilities_foldl_require (demanded is) {}, ← Code.requirements_pushed]
      exact hm
    rcases CapabilitySet.mem_foldl_requireAny hdeclared with hno | hchosen | ⟨only, honly, hne, hsame⟩
    · cases hno
    · obtain ⟨alternatives, hmem, ⟨a, ha, _⟩, hall⟩ := halone hchosen
      obtain ⟨d, hd, hother, hserves⟩ := hspare alternatives hmem (List.ne_nil_of_mem ha)
      exact hother (hall d hd hserves)
    · -- it was the only alternative, so another one that serves would imply it
      obtain ⟨d, hd, hother, a, ha, himplies⟩ := hspare only honly hne
      rw [hsame a ha] at himplies
      have hcanonical : (Code.pushed is).requirements.Canonical := by
        rw [Code.requirements_pushed]
        exact canonical_foldl_require Requirements.canonical_empty _
      exact hother (hcanonical.minimal.distinct d hd m hm himplies)

/-- A chosen `Geometry` that is of use: nothing else serves the second mode, which is first satisfied by
the choice made for the first. -/
def pipelineSample : List Instruction :=
  [⟨.entryPoint, [.enumerant (.of ExecutionModel.tessellationControl), .id ⟨2⟩, .text "t"]⟩,
    ⟨.executionMode, [.id ⟨1⟩, .enumerant ⟨0, [.geometry, .kernel], []⟩]⟩,
    ⟨.executionMode, [.id ⟨1⟩, .enumerant (.of ExecutionMode.invocations)]⟩]

theorem indispensable_iff_samples :
    ((let members := (Code.pushed pipelineSample).requirements.capabilities.members
      let lists := (demanded pipelineSample).map Enumerant.capabilities
      members = [.geometry, .tessellation] ∧ CapabilitySet.choices {} lists = [.geometry] ∧
        ¬Dispensable members lists .geometry ∧ ¬Dispensable members lists .tessellation) ∧
      let members := (Code.pushed trianglesSample).requirements.capabilities.members
      let lists := (demanded trianglesSample).map Enumerant.capabilities
      CapabilitySet.choices {} lists = [.geometry] ∧ ¬Dispensable members lists .tessellation) := by
  refine ⟨⟨by decide +kernel, by decide +kernel, ?_, ?_⟩, by decide +kernel, ?_⟩
  · exact (indispensable_iff pipelineSample .geometry (by decide +kernel)).mpr (by decide +kernel)
  · exact (indispensable_iff pipelineSample .tessellation (by decide +kernel)).mpr (by decide +kernel)
  · exact (indispensable_iff trianglesSample .tessellation (by decide +kernel)).mpr
      (by decide +kernel)

end Shading.Spirv

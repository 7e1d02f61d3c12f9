import Shading.Proofs.Spirv.Framing

/-! # Ids that instructions define and use

An instruction that computes or declares something has a result id, always among its first two
operands; all other ids in it are uses.  Ids are in order in a module (`Module.IdsInOrder`) if each is
defined once and globals come after what they use.  The declarations that open a module have no ids. -/

namespace Shading.Spirv

/-- Which operand is the result id: the first, or the second after the type of the result. -/
def Op.resultPlace? : Op → Option Nat
  | .string | .extInstImport | .typeVoid | .typeBool | .typeInt | .typeFloat | .typeVector
  | .typeMatrix | .typeArray | .typeRuntimeArray | .typeStruct | .typePointer | .typeFunction
  | .label => some 0
  | .extInst | .constantTrue | .constantFalse | .constant | .constantComposite | .constantNull
  | .function | .functionParameter | .functionCall | .var | .load | .accessChain
  | .compositeConstruct | .compositeExtract => some 1
  | .nop | .source | .name | .memberName | .extension | .memoryModel | .entryPoint
  | .executionMode | .capability | .functionEnd | .store | .decorate | .memberDecorate | .branch
  | .kill | .ret | .returnValue | .unreachable => none

namespace Instruction

/-- The id that the instruction defines. -/
def result? (i : Instruction) : Option Id :=
  match i.op.resultPlace? with
  | none => none
  | some place =>
    match i.operands[place]? with
    | some (.id x) => some x
    | _ => none

/-- The ids that the instruction refers to. -/
def uses (i : Instruction) : List Id :=
  match i.op.resultPlace? with
  | none => i.operands.flatMap Operand.idsOf
  | some place => (i.operands.eraseIdx place).flatMap Operand.idsOf

/-- Where there is a result, every id in the operands is the result or a use. -/
theorem eq_result_or_mem_uses {i : Instruction} {o : Operand} {x y : Id} (hr : i.result? = some y)
    (ho : o ∈ i.operands) (hx : x ∈ o.idsOf) : x = y ∨ x ∈ i.uses := by
  unfold result? at hr
  unfold uses
  cases hplace : i.op.resultPlace? with
  | none => rw [hplace] at hr; cases hr
  | some place =>
      obtain ⟨k, hk⟩ := List.mem_iff_getElem?.mp ho
      by_cases h : k = place
      · -- the operand is the one with the result
        left
        rw [h] at hk
        simp only [hplace, hk] at hr
        cases o with
        | id z =>
            have hz : x = z := by simpa [Operand.idsOf] using hx
            rw [hz]
            exact Option.some.inj hr
        | _ => cases hr
      · right
        exact List.mem_flatMap.mpr ⟨o, List.mem_eraseIdx_iff_getElem?.mpr ⟨k, h, hk⟩, hx⟩

theorem mem_of_mem_uses (i : Instruction) {x : Id} (hx : x ∈ i.uses) :
    x ∈ i.operands.flatMap Operand.idsOf := by
  unfold uses at hx
  split at hx
  · exact hx
  · obtain ⟨o, ho, hx⟩ := List.mem_flatMap.mp hx
    exact List.mem_flatMap.mpr ⟨o, List.mem_of_mem_eraseIdx ho, hx⟩

/-- An instruction without null ids can be written if it is not too long. -/
theorem isWritable_iff_of_ids {i : Instruction}
    (hids : ∀ x ∈ i.operands.flatMap Operand.idsOf, x.isNull = false) :
    i.isWritable = true ↔ i.wordCount < UInt16.size := by
  have hnull : i.operands.any Operand.hasNullId = false := by
    rw [List.any_eq_false]
    intro o ho
    rw [Bool.not_eq_true, Operand.hasNullId, List.any_eq_false]
    intro x hx
    rw [Bool.not_eq_true]
    exact hids x (List.mem_flatMap.mpr ⟨o, ho, hx⟩)
  rw [isWritable, hnull, Bool.not_false, Bool.true_and, decide_eq_true_eq]

end Instruction

/-! ### Modules -/

/-- The instructions of all sections. -/
def Module.pushed (m : Module) : List Instruction := m.sections.flatMap fun c => c.instructions.toList

/-- All instructions of a module: its declarations, then its sections. -/
def Module.instructions (m : Module) : List Instruction :=
  m.preamble.instructions.toList ++ m.pushed

theorem Module.code_setCode (m : Module) (s t : Section) (c : Code) :
    (m.setCode s c).code t = if t = s then c else m.code t := by
  cases s <;> cases t <;> rfl

@[simp] theorem Module.issued_setCode (m : Module) (s : Section) (c : Code) :
    (m.setCode s c).issued = m.issued := by
  cases s <;> rfl

@[simp] theorem Module.issued_push (m : Module) (s : Section) (op : Op) (operands : List Operand) :
    (m.push s op operands).issued = m.issued := m.issued_setCode s _

theorem Module.code_push (m : Module) (s t : Section) (op : Op) (operands : List Operand) :
    (m.push s op operands).code t = if t = s then (m.code t).push op operands else m.code t := by
  unfold push
  rw [code_setCode]
  split
  case isTrue h => rw [h]
  case isFalse => rfl

/-- The six sections by name. -/
theorem Module.sections_eq (m : Module) :
    m.sections = (Named.all (α := Section)).map m.code := rfl

/-! ### Uses of earlier definitions -/

/-- Every id that an instruction uses is defined by an instruction before it. -/
def UsesEarlier (is : List Instruction) : Prop :=
  ∀ before i after, is = before ++ i :: after →
    ∀ x ∈ i.uses, x ∈ before.filterMap Instruction.result?

theorem usesEarlier_nil : UsesEarlier [] := by
  intro before i after h
  cases before <;> cases h

theorem UsesEarlier.append {is : List Instruction} {i : Instruction} (h : UsesEarlier is)
    (hi : ∀ x ∈ i.uses, x ∈ is.filterMap Instruction.result?) : UsesEarlier (is ++ [i]) := by
  intro before j after heq x hx
  rcases List.eq_nil_or_concat after with rfl | ⟨front, last, rfl⟩
  · obtain ⟨rfl, hlast⟩ := List.append_inj' heq rfl
    obtain rfl : i = j := List.head_eq_of_cons_eq hlast
    exact hi x hx
  · rw [List.concat_eq_append, ← List.cons_append, ← List.append_assoc] at heq
    obtain ⟨rfl, _⟩ := List.append_inj' heq rfl
    exact h before j front rfl x hx

/-- The ids of a module are in order: they fill the range below its bound, each is defined once, all
that are used are defined, and globals use only globals before them. -/
structure Module.IdsInOrder (m : Module) : Prop where
  inRange : ∀ i ∈ m.instructions, ∀ x, i.result? = some x →
    1 ≤ x.number.toNat ∧ x.number.toNat ≤ m.bound.toNat - 1
  once : (m.instructions.filterMap Instruction.result?).Nodup
  defined : ∀ i ∈ m.instructions, ∀ x ∈ i.uses, ∃ j ∈ m.instructions, j.result? = some x
  globals : UsesEarlier m.globals.instructions.toList
  count : m.bound.toNat - 1 = (m.instructions.filterMap Instruction.result?).length

/-! ### Declarations before the sections -/

/-- An instruction that can be written and has no ids. -/
def Instruction.IsPlain (i : Instruction) : Prop :=
  i.isWritable = true ∧ i.result? = none ∧ i.uses = []

theorem Code.forall_foldl_push {α : Type} {P : Instruction → Prop} {op : Op}
    {operands : α → List Operand}
    (h : ∀ a, Instruction.isWritable ⟨op, operands a⟩ = true → P ⟨op, operands a⟩) :
    ∀ (xs : List α) (c : Code), (∀ i ∈ c.instructions.toList, P i) →
      ∀ i ∈ (xs.foldl (fun c a => c.push op (operands a)) c).instructions.toList, P i
  | [], _, hc => hc
  | a :: xs, _, hc => forall_foldl_push h xs _ (forall_push hc (h a))

theorem Module.memoryModel_isPlain : ∀ i ∈ memoryModel.instructions.toList, i.IsPlain := by
  refine Code.forall_push ?_ fun hw => ⟨hw, rfl, rfl⟩
  intro i hi
  cases hi

/-- The declarations that open a module neither define nor use ids. -/
theorem Module.preamble_isPlain (m : Module) :
    ∀ i ∈ m.preamble.instructions.toList, i.IsPlain := by
  have hdeclared : ∀ i ∈ (m.requirements.capabilities.members.foldl
      (fun code c => code.push .capability [.capability c]) ({} : Code)).instructions.toList,
      i.IsPlain := by
    refine Code.forall_foldl_push (fun c hw => ⟨hw, rfl, rfl⟩) _ _ ?_
    intro i hi
    cases hi
  intro i hi
  rw [preamble, Code.append, Array.toList_append] at hi
  rcases List.mem_append.mp hi with hi | hi
  · exact Code.forall_foldl_push (fun name hw => ⟨hw, rfl, rfl⟩) _ _ hdeclared i hi
  · exact memoryModel_isPlain i hi

theorem Module.mem_instructions {m : Module} {i : Instruction} :
    i ∈ m.instructions ↔
      i ∈ m.preamble.instructions.toList ∨ ∃ s, i ∈ (m.code s).instructions.toList := by
  have hcode : (∃ s, i ∈ (m.code s).instructions.toList) ↔
      ∃ c ∈ m.sections, i ∈ c.instructions.toList := by
    constructor
    · rintro ⟨s, hs⟩
      refine ⟨m.code s, ?_, hs⟩
      cases s <;> simp [sections, code]
    · rintro ⟨c, hc, hi⟩
      rw [sections_eq] at hc
      obtain ⟨s, _, rfl⟩ := List.mem_map.mp hc
      exact ⟨s, hi⟩
  rw [instructions, pushed, List.mem_append, List.mem_flatMap, hcode]

/-- The results of a module are those of its sections. -/
theorem Module.filterMap_result_instructions (m : Module) :
    m.instructions.filterMap Instruction.result? = m.pushed.filterMap Instruction.result? := by
  have hpreamble : m.preamble.instructions.toList.filterMap Instruction.result? = [] :=
    List.filterMap_eq_nil_iff.mpr fun i hi => (m.preamble_isPlain i hi).2.1
  rw [instructions, List.filterMap_append, hpreamble, List.nil_append]

/-- The words of a module are its header and the words of its instructions. -/
theorem Module.assemble_eq (m : Module) :
    m.assemble = m.header ++ m.instructions.flatMap Instruction.words := by
  rw [assemble, instructions, pushed, List.flatMap_append, List.flatMap_assoc, List.append_assoc]
  rfl

end Shading.Spirv

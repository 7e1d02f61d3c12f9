import Shading.Binary.Validity
import Shading.Proofs.Lists

/-! # What a body does

A body runs its instructions in order up to the first that ends it.  All that it does meanwhile is to
call functions (`calls`), and then it returns or discards (`ending?`).  In a valid binary every body
is read to its end without a fault and calls only functions that are there. -/

namespace Shading.Binary

/-- The instruction ends a body. -/
def Opcode.isEnd : Opcode → Bool
  | .ret | .discard => true
  | .nop | .call => false

/-- The number of the function that an instruction calls. -/
def Instruction.callee? (i : Instruction) : Option Nat :=
  if i.opcode = .call then i.operands.head?.map UInt32.toNat else none

/-- The instructions before the first that ends the body. -/
def reached (is : List Instruction) : List Instruction := is.takeWhile fun i => !i.opcode.isEnd

/-- The numbers of the functions that a body calls, in order. -/
def calls (is : List Instruction) : List Nat := (reached is).filterMap Instruction.callee?

/-- What ends a body; one that does not end by itself has none. -/
def ending? (is : List Instruction) : Option Opcode := (is.map Instruction.opcode).find? Opcode.isEnd

/-- How a body ends in any case: one that does not end by itself returns. -/
def ending (is : List Instruction) : Opcode := (ending? is).getD .ret

/-- The instructions after the first that ends the body. -/
def unreached (is : List Instruction) : List Instruction :=
  (is.dropWhile fun i => !i.opcode.isEnd).tail

/-- The function with a number takes no parameters. -/
def takesNothing (b : Binary) (n : Nat) : Bool := (b.functions[n]?).any fun f => f.parameters.isEmpty

/-- The code range holds exactly these instructions. -/
def HasBody (b : Binary) (range : Range) (is : List Instruction) : Prop :=
  ∃ words, b.words? range = some words ∧ readInstructions words = ⟨is, none⟩

/-- The instructions in a code range; where there is no code, there are none. -/
def body (b : Binary) (range : Range) : List Instruction :=
  (readInstructions ((b.words? range).getD [])).instructions

/-- All bodies: those of the functions, then those of the entrypoints. -/
def bodies (b : Binary) : List (List Instruction) :=
  b.functions.map (fun f => b.body f.code) ++ b.entrypoints.map fun e => b.body e.code

/-! ### Step by step -/

section

variable {i : Instruction} (rest : List Instruction)

theorem calls_end (h : i.opcode.isEnd = true) : calls (i :: rest) = [] := by
  simp [calls, reached, h]

theorem calls_cons (h : i.opcode.isEnd = false) :
    calls (i :: rest) = i.callee?.toList ++ calls rest := by
  unfold calls reached
  rw [List.takeWhile_cons_of_pos (by rw [h]; rfl), List.filterMap_cons]
  cases i.callee? <;> rfl

theorem ending?_end (h : i.opcode.isEnd = true) : ending? (i :: rest) = some i.opcode := by
  simp [ending?, h]

theorem ending?_cons (h : i.opcode.isEnd = false) : ending? (i :: rest) = ending? rest := by
  simp [ending?, h]

theorem ending_end (h : i.opcode.isEnd = true) : ending (i :: rest) = i.opcode := by
  rw [ending, ending?_end rest h, Option.getD_some]

theorem ending_cons (h : i.opcode.isEnd = false) : ending (i :: rest) = ending rest := by
  rw [ending, ending?_cons rest h, ending]

theorem unreached_end (h : i.opcode.isEnd = true) : unreached (i :: rest) = rest := by
  simp [unreached, h]

theorem unreached_cons (h : i.opcode.isEnd = false) : unreached (i :: rest) = unreached rest := by
  simp [unreached, h]

end

theorem ending_eq_ret_or_discard (is : List Instruction) :
    ending is = .ret ∨ ending is = .discard := by
  unfold ending
  cases h : ending? is with
  | none => exact Or.inl rfl
  | some opcode =>
      have hend := List.find?_some h
      cases opcode with
      | ret => exact Or.inl rfl
      | discard => exact Or.inr rfl
      | nop => cases hend
      | call => cases hend

/-! ### Instructions that were read -/

/-- An instruction that was read has the operands that its opcode asks for. -/
theorem length_operands (words : List UInt32) :
    ∀ i ∈ (readInstructions words).instructions, i.operands.length = i.opcode.operandCount := by
  suffices h : ∀ offset, ∀ i ∈ (readInstructionsAt offset words).instructions,
      i.operands.length = i.opcode.operandCount from h 0
  intro offset
  fun_induction readInstructionsAt offset words with
  | case1 => simp
  | case2 => simp
  | case3 offset header rest opcode hopcode count hcount reading ih =>
      intro i hi
      rcases List.mem_cons.mp hi with rfl | hi
      · exact List.length_take_of_le hcount.2
      · exact ih i hi
  | case4 => simp

theorem callee?_of_length {i : Instruction} (h : i.operands.length = i.opcode.operandCount)
    (hcall : i.opcode = .call) : i.callee? = some (i.operands.headD 0).toNat := by
  rw [Instruction.callee?, if_pos hcall]
  rw [hcall] at h
  obtain ⟨n, hn⟩ := List.length_eq_one_iff.mp h
  rw [hn]
  rfl

/-! ### Valid binaries -/

theorem lt_of_checkCall {functions n : Nat} {i : Instruction} (h : checkCall functions i = .ok ())
    (hn : i.callee? = some n) : n < functions := by
  unfold Instruction.callee? at hn
  split at hn
  case isTrue hcall =>
    obtain ⟨index, hindex, rfl⟩ := Option.map_eq_some_iff.mp hn
    obtain ⟨more, hoperands⟩ := List.head?_eq_some_iff.mp hindex
    unfold checkCall at h
    rw [hcall, hoperands] at h
    simp only at h
    split at h
    case isTrue hlt => exact hlt
    case isFalse => cases h
  case isFalse => cases hn

/-- A body that resolves is read without a fault, and all that it calls is there. -/
theorem hasBody_of_checkBody {b : Binary} {range : Range} (h : b.checkBody range = .ok ()) :
    ∃ is, HasBody b range is ∧ ∀ n ∈ calls is, n < b.functions.length := by
  unfold checkBody at h
  cases hwords : b.words? range with
  | none =>
      rw [hwords] at h
      cases h
  | some words =>
      rw [hwords] at h
      obtain ⟨_, hcalls, hfault⟩ := bind_eq_ok.mp h
      refine ⟨(readInstructions words).instructions, ⟨words, hwords, ?_⟩, ?_⟩
      · have hnone : (readInstructions words).fault? = none := by
          cases hcase : (readInstructions words).fault? with
          | none => rfl
          | some fault =>
              rw [hcase] at hfault
              cases hfault
        rw [← hnone]
      · intro n hn
        obtain ⟨i, hi, hcallee⟩ := List.mem_filterMap.mp hn
        have hmem := (List.takeWhile_sublist _).subset hi
        exact lt_of_checkCall (forM_eq_ok.mp hcalls i hmem) hcallee

theorem checkBody_of_validate {b : Binary} (h : b.validate = .ok ()) :
    (∀ e ∈ b.entrypoints, b.checkBody e.code = .ok ()) ∧
      ∀ f ∈ b.functions, b.checkBody f.code = .ok () ∧ checkType f.returnType = .ok () := by
  obtain ⟨_, hentrypoints, hfunctions⟩ := bind_eq_ok.mp h
  refine ⟨?_, ?_⟩
  · intro e he
    obtain ⟨_, _, hinputs⟩ := bind_eq_ok.mp (forM_eq_ok.mp hentrypoints e he)
    obtain ⟨_, _, houtputs⟩ := bind_eq_ok.mp hinputs
    obtain ⟨_, _, hbody⟩ := bind_eq_ok.mp houtputs
    exact hbody
  · intro f hf
    obtain ⟨_, _, htype⟩ := bind_eq_ok.mp (forM_eq_ok.mp hfunctions f hf)
    obtain ⟨_, hreturn, hparameters⟩ := bind_eq_ok.mp htype
    obtain ⟨_, _, hbody⟩ := bind_eq_ok.mp hparameters
    exact ⟨hbody, hreturn⟩

theorem builtin?_of_checkType {type : TypeId} (h : checkType type = .ok ()) :
    ∃ builtin, type.builtin? = some builtin := by
  unfold checkType at h
  cases htype : type.builtin? with
  | some builtin => exact ⟨builtin, rfl⟩
  | none =>
      rw [htype] at h
      cases h

end Shading.Binary

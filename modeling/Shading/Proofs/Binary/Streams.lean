import Mathlib.Logic.Function.Iterate
import Shading.Binary.Instruction
import Shading.Proofs.Spirv.Framing

/-! # Instructions and the words they are stored in

`written` puts instructions one after the other, and `readInstructions` reads words.  Every list of
words is what was written for some instructions and then a rest, which is empty or where reading is
`Stuck` (`exists_written`).  Reading goes through what was written, instruction by instruction
(`readInstructionsAt_written`), and no word of it is a matter of choice (`eq_instructionWords`), so
lists of instructions and words that can be read correspond one to one (`streams_correspond`).

Words may also be read on demand.  A `Cursor` keeps the place of the next header and whether it came
upon a fault; what is pulled from it one after the other is the whole reading (`pulled_eq`). -/

namespace Shading.Binary

/-! ### Writing -/

/-- What an instruction is apart from its place. -/
abbrev Unplaced := Opcode × List UInt32

/-- The operands are as many as the opcode takes. -/
def Unplaced.Fits (i : Unplaced) : Prop := i.2.length = i.1.operandCount

instance (i : Unplaced) : Decidable i.Fits := inferInstanceAs (Decidable (_ = _))

def Instruction.unplaced (i : Instruction) : Unplaced := (i.opcode, i.operands)

/-- The words of instructions that are pushed one after the other, from none on. -/
def written (is : List Unplaced) : List UInt32 := is.flatMap fun i => instructionWords i.1 i.2

/-- Instructions that are written from a given offset on, each with its place. -/
def placed (offset : Nat) : List Unplaced → List Instruction
  | [] => []
  | i :: rest => ⟨offset, i.1, i.2⟩ :: placed (offset + (i.2.length + 1)) rest

theorem written_cons (i : Unplaced) (rest : List Unplaced) :
    written (i :: rest) = instructionWords i.1 i.2 ++ written rest := List.flatMap_cons

theorem written_append (is more : List Unplaced) :
    written (is ++ more) = written is ++ written more := List.flatMap_append

theorem length_instructionWords (opcode : Opcode) (operands : List UInt32) :
    (instructionWords opcode operands).length = operands.length + 1 := rfl

theorem map_unplaced_placed (offset : Nat) (is : List Unplaced) :
    (placed offset is).map Instruction.unplaced = is := by
  induction is generalizing offset with
  | nil => rfl
  | cons i rest ih => simp [placed, Instruction.unplaced, ih]

/-- The offset of an instruction is the number of words before it. -/
theorem getElem?_placed (offset : Nat) (is : List Unplaced) (n : Nat) :
    (placed offset is)[n]? =
      (is[n]?).map fun i => ⟨offset + (written (is.take n)).length, i.1, i.2⟩ := by
  induction is generalizing offset n with
  | nil => simp [placed]
  | cons i rest ih =>
      cases n with
      | zero => simp [placed, written]
      | succ n =>
          have hlength : offset + (written ((i :: rest).take (n + 1))).length =
              offset + (i.2.length + 1) + (written (rest.take n)).length := by
            rw [List.take_succ_cons, written_cons, List.length_append, length_instructionWords]
            omega
          rw [placed, List.getElem?_cons_succ, List.getElem?_cons_succ, ih, hlength]

/-! ### Headers -/

theorem Opcode.number_lt (op : Opcode) : op.number.toNat < 65536 := by
  cases op <;> decide

theorem Opcode.operandCount_le (op : Opcode) : op.operandCount ≤ 1 := by
  cases op <;> decide

theorem Opcode.ofNumber?_number (op : Opcode) : ofNumber? op.number = some op := by
  cases op <;> decide

theorem Opcode.number_of_ofNumber? {n : UInt32} {op : Opcode} (h : ofNumber? n = some op) :
    op.number = n := by
  simpa using List.find?_some h

/-- The opcode of a header is its lower half. -/
theorem toNat_lower (header : UInt32) : (header &&& 0xffff).toNat = header.toNat % 65536 := by
  rw [UInt32.toNat_and]
  exact Nat.and_two_pow_sub_one_eq_mod header.toNat 16

/-- The word count of a header is its upper half. -/
theorem toNat_upper (header : UInt32) : (header >>> 16).toNat = header.toNat / 65536 := by
  have h16 : (16 : UInt32).toNat % 32 = 16 := rfl
  rw [UInt32.toNat_shiftRight, h16, Nat.shiftRight_eq_div_pow]

/-- The number in the lower half of a header is that of the opcode. -/
theorem ofNumber?_lower {header : UInt32} {op : Opcode} :
    Opcode.ofNumber? (header &&& 0xffff) = some op ↔ header.toNat % 65536 = op.number.toNat := by
  constructor
  · intro h
    rw [Opcode.number_of_ofNumber? h, toNat_lower]
  · intro h
    have hlower : header &&& 0xffff = op.number := by
      apply UInt32.toNat_inj.mp
      rw [toNat_lower, h]
    rw [hlower, Opcode.ofNumber?_number]

/-- The header that is written for an instruction whose operands fit. -/
theorem toNat_header {op : Opcode} {n : Nat} (hn : n = op.operandCount) :
    (((n + 1).toUInt32 &&& 0xffff) <<< 16 ||| op.number).toNat =
      (op.operandCount + 1) * 65536 + op.number.toNat := by
  have hcount := op.operandCount_le
  have hmask : (n + 1).toUInt32 &&& 0xffff = (n + 1).toUInt32 := by
    apply UInt32.toNat_inj.mp
    have hsmall : (n + 1).toUInt32.toNat = n + 1 := Nat.mod_eq_of_lt (by omega)
    rw [toNat_lower, hsmall]
    omega
  rw [hmask, Spirv.header_toNat (by omega) op.number_lt, hn]

/-- A header with the right halves, and as many operands, is what is written for the instruction. -/
theorem eq_instructionWords {header : UInt32} {op : Opcode} {operands : List UInt32}
    (hlower : header.toNat % 65536 = op.number.toNat)
    (hupper : header.toNat / 65536 = op.operandCount + 1)
    (hoperands : operands.length = op.operandCount) :
    header :: operands = instructionWords op operands := by
  have hheader : header =
      (((operands.length + 1).toUInt32 &&& 0xffff) <<< 16 ||| op.number) := by
    apply UInt32.toNat_inj.mp
    rw [toNat_header hoperands]
    omega
  exact congrArg (· :: operands) hheader

/-! ### Reading what was written -/

/-- No instruction can be read of the words at the offset, for the reason given. -/
inductive Stuck (offset : Nat) : List UInt32 → Fault → Prop
  /-- No opcode has the number in the header. -/
  | unknown {header : UInt32} {rest : List UInt32}
      (hopcode : ∀ op : Opcode, header.toNat % 65536 ≠ op.number.toNat) :
      Stuck offset (header :: rest) (.unknownOpcode (header &&& 0xffff) offset)
  /-- The header counts other than as many words as the opcode asks for, or these are not there. -/
  | malformed {header : UInt32} {rest : List UInt32} {op : Opcode}
      (hopcode : header.toNat % 65536 = op.number.toNat)
      (hwords : header.toNat / 65536 ≠ op.operandCount + 1 ∨ rest.length < op.operandCount) :
      Stuck offset (header :: rest) (.malformedInstruction offset)

theorem readInstructionsAt_stuck {offset : Nat} {words : List UInt32} {fault : Fault}
    (h : Stuck offset words fault) : readInstructionsAt offset words = ⟨[], some fault⟩ := by
  cases h with
  | @unknown header rest hopcode =>
      have hnone : Opcode.ofNumber? (header &&& 0xffff) = none := by
        rw [Option.eq_none_iff_forall_ne_some]
        intro op hop
        exact hopcode op (ofNumber?_lower.mp hop)
      rw [readInstructionsAt, hnone]
  | @malformed header rest op hopcode hwords =>
      have hfits : ¬((header >>> 16).toNat = op.operandCount + 1 ∧
          op.operandCount ≤ rest.length) := by
        rw [toNat_upper]
        omega
      rw [readInstructionsAt, ofNumber?_lower.mpr hopcode]
      exact if_neg hfits

/-- The reading with instructions before it. -/
def Reading.behind (is : List Instruction) (r : Reading) : Reading :=
  { r with instructions := is ++ r.instructions }

/-- One instruction is read of words whose header has the right halves. -/
theorem readInstructionsAt_cons {offset : Nat} {header : UInt32} {rest : List UInt32} {op : Opcode}
    (hlower : header.toNat % 65536 = op.number.toNat)
    (hupper : header.toNat / 65536 = op.operandCount + 1) (hrest : op.operandCount ≤ rest.length) :
    readInstructionsAt offset (header :: rest) =
      (readInstructionsAt (offset + (op.operandCount + 1)) (rest.drop op.operandCount)).behind
        [⟨offset, op, rest.take op.operandCount⟩] := by
  rw [readInstructionsAt, ofNumber?_lower.mpr hlower]
  exact if_pos ⟨by rw [toNat_upper, hupper], hrest⟩

/-- Reading goes through an instruction that was written. -/
theorem readInstructionsAt_instructionWords {op : Opcode} {operands : List UInt32}
    (h : operands.length = op.operandCount) (offset : Nat) (rest : List UInt32) :
    readInstructionsAt offset (instructionWords op operands ++ rest) =
      (readInstructionsAt (offset + (operands.length + 1)) rest).behind
        [⟨offset, op, operands⟩] := by
  have hheader := toNat_header h
  have hnumber := op.number_lt
  unfold instructionWords
  rw [List.cons_append]
  generalize (((operands.length + 1).toUInt32 &&& 0xffff) <<< 16 ||| op.number) = header at hheader
  have hlower : header.toNat % 65536 = op.number.toNat := by omega
  have hupper : header.toNat / 65536 = op.operandCount + 1 := by omega
  have hrest : op.operandCount ≤ (operands ++ rest).length := by
    rw [List.length_append]
    omega
  rw [readInstructionsAt_cons hlower hupper hrest, ← h, List.drop_left, List.take_left]

/-- Reading goes through all that was written. -/
theorem readInstructionsAt_written {is : List Unplaced} (h : ∀ i ∈ is, i.Fits) (offset : Nat)
    (rest : List UInt32) :
    readInstructionsAt offset (written is ++ rest) =
      (readInstructionsAt (offset + (written is).length) rest).behind (placed offset is) := by
  induction is generalizing offset with
  | nil => rfl
  | cons i more ih =>
      obtain ⟨hi, hmore⟩ := List.forall_mem_cons.mp h
      rw [written_cons, List.append_assoc, readInstructionsAt_instructionWords hi, ih hmore,
        List.length_append, length_instructionWords, Nat.add_assoc offset]
      rfl

theorem readInstructions_written {is : List Unplaced} (h : ∀ i ∈ is, i.Fits) :
    readInstructions (written is) = ⟨placed 0 is, none⟩ := by
  have hread := readInstructionsAt_written h 0 []
  rw [List.append_nil] at hread
  rw [readInstructions, hread]
  simp [readInstructionsAt, Reading.behind]

/-- Every list of words is what was written for some instructions, and then nothing or words at which
reading is stuck. -/
theorem exists_written (words : List UInt32) (offset : Nat) :
    ∃ is rest, (∀ i ∈ is, i.Fits) ∧ words = written is ++ rest ∧
      (rest = [] ∨ ∃ fault, Stuck (offset + (written is).length) rest fault) := by
  fun_induction readInstructionsAt offset words with
  | case1 offset => exact ⟨[], [], List.forall_mem_nil _, rfl, .inl rfl⟩
  | case2 offset header rest hnone =>
      refine ⟨[], header :: rest, List.forall_mem_nil _, rfl, .inr ⟨_, .unknown ?_⟩⟩
      intro op hop
      rw [ofNumber?_lower.mpr hop] at hnone
      cases hnone
  | case3 offset header rest op hop count hcount reading ih =>
      obtain ⟨is, stop, hfits, hwords, hstop⟩ := ih
      have hlength : (rest.take count).length = op.operandCount :=
        List.length_take_of_le hcount.2
      have hhere : header :: rest.take count = instructionWords op (rest.take count) := by
        apply eq_instructionWords (ofNumber?_lower.mp hop) _ hlength
        rw [← toNat_upper]
        exact hcount.1
      refine ⟨(op, rest.take count) :: is, stop, ?_, ?_, ?_⟩
      · exact List.forall_mem_cons.mpr ⟨hlength, hfits⟩
      · rw [written_cons, ← hhere, List.append_assoc, ← hwords, List.cons_append,
          List.take_append_drop]
      · have hplace : offset + (written ((op, rest.take count) :: is)).length =
            offset + count + 1 + (written is).length := by
          rw [written_cons, List.length_append, length_instructionWords]
          show offset + ((rest.take count).length + 1 + _) = _
          omega
        rwa [hplace]
  | case4 offset header rest op hop count hcount =>
      refine ⟨[], header :: rest, List.forall_mem_nil _, rfl,
        .inr ⟨_, .malformed (ofNumber?_lower.mp hop) ?_⟩⟩
      rw [toNat_upper] at hcount
      omega

/-- Words that are read without a fault were written for some instructions. -/
theorem exists_of_fault?_eq_none {words : List UInt32}
    (h : (readInstructions words).fault? = none) :
    ∃ is, (∀ i ∈ is, i.Fits) ∧ words = written is := by
  obtain ⟨is, rest, hfits, rfl, rfl | ⟨fault, hstuck⟩⟩ := exists_written words 0
  · exact ⟨is, hfits, List.append_nil _⟩
  · rw [readInstructions, readInstructionsAt_written hfits, readInstructionsAt_stuck hstuck] at h
    cases h

/-! ### Reading on demand -/

/-- All that a reading gives, in order: the instructions, and then the fault. -/
def Reading.items (r : Reading) : List (Except Fault Instruction) :=
  r.instructions.map .ok ++ r.fault?.toList.map .error

/-- The words from one place up to another, if they are there. -/
def stretch? (code : List UInt32) (start stop : Nat) : Option (List UInt32) :=
  if start ≤ stop ∧ stop ≤ code.length then some ((code.drop start).take (stop - start)) else none

/-- Where reading on demand has got to. -/
structure Cursor where
  code : List UInt32
  offset : Nat := 0
  /-- A fault was met. -/
  failed : Bool := false

namespace Cursor

/-- The next item, if there is one, and where reading has got to then.  The header's own count says
how far to go on. -/
def next (c : Cursor) : Option (Except Fault Instruction) × Cursor :=
  if c.failed then (none, c)
  else
    match c.code[c.offset]? with
    | none => (none, c)
    | some header =>
      let count := (header >>> 16).toNat
      match Opcode.ofNumber? (header &&& 0xffff) with
      | none =>
        (some (.error (.unknownOpcode (header &&& 0xffff) c.offset)), { c with failed := true })
      | some opcode =>
        match stretch? c.code (c.offset + 1) (c.offset + max count 1) with
        | none => (some (.error (.malformedInstruction c.offset)), { c with failed := true })
        | some operands =>
          if 0 < count ∧ operands.length = opcode.operandCount then
            (some (.ok ⟨c.offset, opcode, operands⟩), { c with offset := c.offset + count })
          else (some (.error (.malformedInstruction c.offset)), { c with failed := true })

/-- The items that are still to come. -/
def items (c : Cursor) : List (Except Fault Instruction) :=
  if c.failed then [] else (readInstructionsAt c.offset (c.code.drop c.offset)).items

end Cursor

/-- The item that is pulled from words after `k` others. -/
def pulled (words : List UInt32) (k : Nat) : Option (Except Fault Instruction) :=
  ((fun c => (Cursor.next c).2)^[k] { code := words }).next.1

theorem stretch?_eq {code rest : List UInt32} {header : UInt32} {offset count : Nat}
    (h : code.drop offset = header :: rest) (hcount : 0 < count) :
    stretch? code (offset + 1) (offset + count) =
      if count ≤ rest.length + 1 then some (rest.take (count - 1)) else none := by
  have hlength : code.length = offset + (rest.length + 1) := by
    have := congrArg List.length h
    rw [List.length_drop, List.length_cons] at this
    omega
  have hrest : code.drop (offset + 1) = rest := by
    rw [← List.drop_drop, h, List.drop_one, List.tail_cons]
  have hsize : offset + count - (offset + 1) = count - 1 := by omega
  unfold stretch?
  rw [hrest, hsize, hlength]
  by_cases hfits : count ≤ rest.length + 1
  · rw [if_pos hfits, if_pos (by omega)]
  · rw [if_neg hfits, if_neg (by omega)]

namespace Cursor

theorem getElem?_of_drop {code rest : List UInt32} {header : UInt32} {offset : Nat}
    (h : code.drop offset = header :: rest) : code[offset]? = some header := by
  rw [← List.head?_drop, h, List.head?_cons]

theorem next_stuck {code words : List UInt32} {offset : Nat} {fault : Fault}
    (h : code.drop offset = words) (hstuck : Stuck offset words fault) :
    next ⟨code, offset, false⟩ = (some (.error fault), ⟨code, offset, true⟩) := by
  cases hstuck with
  | @unknown header rest hopcode =>
      have hnone : Opcode.ofNumber? (header &&& 0xffff) = none := by
        rw [Option.eq_none_iff_forall_ne_some]
        intro op hop
        exact hopcode op (ofNumber?_lower.mp hop)
      simp [next, getElem?_of_drop h, hnone]
  | @malformed header rest op hopcode hwords =>
      have hpos : 0 < max (header.toNat / 65536) 1 := by omega
      have hstretch := stretch?_eq h hpos
      simp only [next, Bool.false_eq_true, if_false, getElem?_of_drop h,
        ofNumber?_lower.mpr hopcode, toNat_upper, hstretch]
      by_cases hthere : max (header.toNat / 65536) 1 ≤ rest.length + 1
      · have hcount : ¬(0 < header.toNat / 65536 ∧
            (rest.take (max (header.toNat / 65536) 1 - 1)).length = op.operandCount) := by
          rw [List.length_take_of_le (by omega)]
          omega
        simp only [hthere, if_true, hcount, if_false]
      · simp only [hthere, if_false]

theorem next_instructionWords {code operands rest : List UInt32} {offset : Nat} {op : Opcode}
    (h : code.drop offset = instructionWords op operands ++ rest)
    (hoperands : operands.length = op.operandCount) :
    next ⟨code, offset, false⟩ =
      (some (.ok ⟨offset, op, operands⟩), ⟨code, offset + (operands.length + 1), false⟩) := by
  unfold instructionWords at h
  rw [List.cons_append] at h
  have hheader := toNat_header hoperands
  have hnumber := op.number_lt
  generalize (((operands.length + 1).toUInt32 &&& 0xffff) <<< 16 ||| op.number) = header at h hheader
  have hlower : header.toNat % 65536 = op.number.toNat := by omega
  have hupper : header.toNat / 65536 = operands.length + 1 := by omega
  have hstretch : stretch? code (offset + 1) (offset + max (operands.length + 1) 1) =
      some operands := by
    rw [stretch?_eq h (by omega), if_pos (by rw [List.length_append]; omega)]
    simp
  simp only [next, Bool.false_eq_true, if_false, getElem?_of_drop h, ofNumber?_lower.mpr hlower,
    toNat_upper, hupper, hstretch]
  exact if_pos ⟨Nat.succ_pos _, hoperands⟩

/-- A pull gives the first of the items and leaves the others. -/
theorem next_eq (c : Cursor) : c.next.1 = c.items.head? ∧ c.next.2.items = c.items.tail := by
  obtain ⟨code, offset, failed⟩ := c
  cases failed with
  | true => exact ⟨rfl, rfl⟩
  | false =>
      obtain ⟨is, rest, hfits, hwords, hrest⟩ := exists_written (code.drop offset) offset
      cases is with
      | nil =>
          rcases hrest with rfl | ⟨fault, hstuck⟩
          · -- the end of the words
            have hget : code[offset]? = none := by
              rw [← List.head?_drop, hwords]
              rfl
            have hitems : items ⟨code, offset, false⟩ = [] := by
              simp [items, hwords, written, readInstructionsAt, Reading.items]
            have hnext : next ⟨code, offset, false⟩ = (none, ⟨code, offset, false⟩) := by
              simp [next, hget]
            rw [hnext, hitems]
            exact ⟨rfl, rfl⟩
          · have hitems : items ⟨code, offset, false⟩ = [.error fault] := by
              have hread := readInstructionsAt_stuck hstuck
              simp only [written, List.flatMap_nil, List.length_nil, Nat.add_zero] at hread
              simp [items, hwords, written, hread, Reading.items]
            rw [next_stuck hwords hstuck, hitems]
            exact ⟨rfl, rfl⟩
      | cons i more =>
          have hi : i.Fits := hfits i List.mem_cons_self
          rw [written_cons, List.append_assoc] at hwords
          have hafter : code.drop (offset + (i.2.length + 1)) = written more ++ rest := by
            rw [← List.drop_drop, hwords, ← length_instructionWords i.1 i.2, List.drop_left]
          have hitems : items ⟨code, offset, false⟩ = .ok ⟨offset, i.1, i.2⟩ ::
              items ⟨code, offset + (i.2.length + 1), false⟩ := by
            simp only [items, Bool.false_eq_true, if_false, hwords, hafter]
            rw [readInstructionsAt_instructionWords hi]
            rfl
          rw [next_instructionWords hwords hi, hitems]
          exact ⟨rfl, rfl⟩

/-- The item pulled after `k` others is the one with the number `k`. -/
theorem pulled_eq_getElem? (c : Cursor) (k : Nat) :
    ((fun c => (next c).2)^[k] c).next.1 = c.items[k]? := by
  induction k generalizing c with
  | zero => rw [Function.iterate_zero_apply, c.next_eq.1, List.head?_eq_getElem?]
  | succ k ih => rw [Function.iterate_succ_apply, ih, c.next_eq.2, List.getElem?_tail]

end Cursor

/-- Pulling gives the whole reading, item by item, and then nothing. -/
theorem pulled_eq (words : List UInt32) (k : Nat) :
    pulled words k = (readInstructions words).items[k]? := Cursor.pulled_eq_getElem? _ k

theorem Reading.length_items (r : Reading) :
    r.items.length = r.instructions.length + r.fault?.toList.length := by
  simp [items]

theorem Reading.getElem?_items_of_lt {r : Reading} {k : Nat} (h : k < r.instructions.length) :
    ∃ i, r.items[k]? = some (.ok i) := by
  unfold items
  rw [List.getElem?_append_left (by rw [List.length_map]; exact h), List.getElem?_map,
    List.getElem?_eq_getElem h]
  exact ⟨_, rfl⟩

/-- A fault is the last item. -/
theorem Reading.eq_length_of_getElem?_items {r : Reading} {k : Nat} {fault : Fault}
    (h : r.items[k]? = some (.error fault)) : k = r.instructions.length ∧ k + 1 = r.items.length := by
  have hlt := (List.getElem?_eq_some_iff.mp h).1
  have hlength := r.length_items
  have hfault : r.fault?.toList.length ≤ 1 := by cases r.fault? <;> simp
  by_cases hk : k < r.instructions.length
  · obtain ⟨i, hi⟩ := getElem?_items_of_lt hk
    rw [hi] at h
    cases h
  · omega

/-! ### The correspondence -/

theorem placed_eq_mapIdx (is : List Unplaced) :
    placed 0 is = is.mapIdx fun k i => ⟨(written (is.take k)).length, i.1, i.2⟩ := by
  apply List.ext_getElem?
  intro k
  rw [getElem?_placed, List.getElem?_mapIdx]
  simp

/-- **Instructions and words correspond.**  If the operands of all instructions fit, then the words
that are written for them are read as these instructions, each at the number of words before it, and
without a fault.  Words that are read without a fault are those that are written for what was read, and
there all operands fit.  Whatever the words are, pulling item by item gives the whole reading; a fault
comes after instructions only and is the last item. -/
theorem streams_correspond :
    (∀ is : List Unplaced, (∀ i ∈ is, i.Fits) →
      readInstructions (written is) =
        ⟨is.mapIdx fun k i => ⟨(written (is.take k)).length, i.1, i.2⟩, none⟩) ∧
    (∀ words, (readInstructions words).fault? = none →
      let is := (readInstructions words).instructions.map Instruction.unplaced
      (∀ i ∈ is, i.Fits) ∧ written is = words) ∧
    ∀ words k, pulled words k = (readInstructions words).items[k]? ∧
      ∀ fault, pulled words k = some (.error fault) →
        (∀ j < k, ∃ i, pulled words j = some (.ok i)) ∧ ∀ j, k < j → pulled words j = none := by
  refine ⟨?_, ?_, ?_⟩
  · intro is hfits
    rw [readInstructions_written hfits, placed_eq_mapIdx]
  · intro words hfault
    obtain ⟨is, hfits, rfl⟩ := exists_of_fault?_eq_none hfault
    rw [readInstructions_written hfits, map_unplaced_placed]
    exact ⟨hfits, rfl⟩
  · intro words k
    refine ⟨pulled_eq words k, ?_⟩
    intro fault hfault
    rw [pulled_eq] at hfault
    obtain ⟨hk, hlast⟩ := Reading.eq_length_of_getElem?_items hfault
    constructor
    · intro j hj
      rw [pulled_eq]
      exact Reading.getElem?_items_of_lt (by omega)
    · intro j hj
      rw [pulled_eq]
      exact List.getElem?_eq_none (by omega)

/-- A call between instructions without operands, and words that break off within a call. -/
theorem streams_correspond_call :
    (∀ i ∈ [(Opcode.nop, []), (.call, [7]), (.ret, [])], Unplaced.Fits i) ∧
      readInstructions [0x10000, 0x20003, 7, 0x10001] =
        ⟨[⟨0, .nop, []⟩, ⟨1, .call, [7]⟩, ⟨3, .ret, []⟩], none⟩ ∧
      written ((readInstructions [0x10000, 0x20003, 7, 0x10001]).instructions.map
        Instruction.unplaced) = [0x10000, 0x20003, 7, 0x10001] ∧
      pulled [0x10002, 0x20003] 1 = some (.error (.malformedInstruction 1)) ∧
      pulled [0x10002, 0x20003] 2 = none := by
  have hfits : ∀ i ∈ [(Opcode.nop, []), (.call, [7]), (.ret, [])], Unplaced.Fits i := by decide
  have hread : readInstructions [0x10000, 0x20003, 7, 0x10001] =
      ⟨[⟨0, .nop, []⟩, ⟨1, .call, [7]⟩, ⟨3, .ret, []⟩], none⟩ := streams_correspond.1 _ hfits
  have hquiet : (readInstructions [0x10000, 0x20003, 7, 0x10001]).fault? = none := by rw [hread]
  have hfault : pulled [0x10002, 0x20003] 1 = some (.error (.malformedInstruction 1)) := rfl
  exact ⟨hfits, hread, (streams_correspond.2.1 _ hquiet).2, hfault,
    ((streams_correspond.2.2 _ 1).2 _ hfault).2 2 (by decide)⟩

end Shading.Binary

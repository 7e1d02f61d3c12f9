import Shading.Basic
import Shading.Binary.Fault

/-! # Instructions of a binary

An instruction is a header word and its operands.  The upper half of the header counts the words of
the instruction, the header included, and the lower half is the opcode. -/

namespace Shading.Binary

/-- What an instruction does. -/
inductive Opcode where
  | nop
  | ret
  | discard
  | call
deriving DecidableEq, Repr, Inhabited

namespace Opcode

instance : Named Opcode where
  all := [.nop, .ret, .discard, .call]
  name
    | .nop => "Nop"
    | .ret => "Return"
    | .discard => "Discard"
    | .call => "Call"

def number : Opcode → UInt32
  | .nop => 0
  | .ret => 1
  | .discard => 2
  | .call => 3

/-- The opcode with a given number. -/
def ofNumber? (n : UInt32) : Option Opcode := Named.all.find? fun op => op.number == n

/-- A call has one operand, the number of the function; the others have none. -/
def operandCount : Opcode → Nat
  | .nop | .ret | .discard => 0
  | .call => 1

end Opcode

/-- An instruction with its place in the words it was read from. -/
structure Instruction where
  offset : Nat
  opcode : Opcode
  operands : List UInt32
deriving DecidableEq, Repr, Inhabited

/-- The words of an instruction.  The count has sixteen bits; what exceeds them is lost. -/
def instructionWords (opcode : Opcode) (operands : List UInt32) : List UInt32 :=
  let count := (operands.length + 1).toUInt32 &&& 0xffff
  (count <<< 16 ||| opcode.number) :: operands

/-- A body that calls the given functions in order and returns. -/
def callBody (callees : List UInt32) : List UInt32 :=
  callees.flatMap (fun callee => instructionWords .call [callee]) ++ instructionWords .ret []

/-- The instructions read from words: those before the first fault, and the fault. -/
structure Reading where
  instructions : List Instruction
  fault? : Option Fault
deriving DecidableEq, Repr, Inhabited

/-- Reads instructions from words that stand at a given offset. -/
def readInstructionsAt (offset : Nat) : List UInt32 → Reading
  | [] => ⟨[], none⟩
  | header :: rest =>
    match Opcode.ofNumber? (header &&& 0xffff) with
    | none => ⟨[], some (.unknownOpcode (header &&& 0xffff) offset)⟩
    | some opcode =>
      let count := opcode.operandCount
      if (header >>> 16).toNat = count + 1 ∧ count ≤ rest.length then
        let reading := readInstructionsAt (offset + count + 1) (rest.drop count)
        { reading with
          instructions := ⟨offset, opcode, rest.take count⟩ :: reading.instructions }
      else ⟨[], some (.malformedInstruction offset)⟩
termination_by words => words.length
decreasing_by
  rw [List.length_drop]
  exact Nat.lt_succ_of_le (Nat.sub_le _ _)

/-- The instructions in a list of words. -/
def readInstructions (words : List UInt32) : Reading := readInstructionsAt 0 words

end Shading.Binary

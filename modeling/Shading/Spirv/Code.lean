import Shading.Basic
import Shading.Spirv.Op
import Shading.Spirv.Requirement

/-! # Instructions and code

An instruction is stored as a header word and the words of its operands.  The upper half of the
header counts the words of the instruction, the header included, and the lower half is the opcode.

`Code` is a list of instructions along with what they require.  It grows by `push`, which leaves out
an instruction that refers to the null id or is too long for its header, and by `append`. -/

namespace Shading.Spirv

/-- A value that instructions refer to.  Zero is the null id, which no instruction may use. -/
structure Id where
  number : UInt32
deriving DecidableEq, Repr, Inhabited

def Id.isNull (id : Id) : Bool := id.number == 0

/-- Adds what a value needs: one of its capabilities, and its extensions. -/
def Enumerant.require (r : Requirements) (v : Enumerant) : Requirements :=
  (r.requireAny v.capabilities).addExtensions v.extensions

/-- An operand of an instruction. -/
inductive Operand where
  | id (id : Id)
  | optionalId (id? : Option Id)
  | literal (value : UInt32)
  | optionalLiteral (value? : Option UInt32)
  | text (text : String)
  | ids (ids : List Id)
  | literals (values : List UInt32)
  | enumerant (value : Enumerant)
  /-- A capability that is being declared; it requires nothing. -/
  | capability (capability : Capability)
deriving DecidableEq, Repr, Inhabited

/-- Bytes as words, the last filled up with zero bytes. -/
def packBytes : List UInt8 → List UInt32
  | [] => []
  | [a] => [Word.ofBytes32 a 0 0 0]
  | [a, b] => [Word.ofBytes32 a b 0 0]
  | [a, b, c] => [Word.ofBytes32 a b c 0]
  | a :: b :: c :: d :: rest => Word.ofBytes32 a b c d :: packBytes rest

/-- A text as words: its bytes and a zero byte, filled up to whole words. -/
def textWords (text : String) : List UInt32 := packBytes (Text.utf8Bytes text ++ [0])

namespace Operand

/-- The ids in an operand. -/
def idsOf : Operand → List Id
  | .id i => [i]
  | .optionalId id? => id?.toList
  | .ids list => list
  | _ => []

/-- The operand refers to the null id. -/
def hasNullId (o : Operand) : Bool := o.idsOf.any Id.isNull

/-- The words of an operand. -/
def words : Operand → List UInt32
  | .id i => [i.number]
  | .optionalId id? => id?.toList.map Id.number
  | .literal value => [value]
  | .optionalLiteral value? => value?.toList
  | .text t => textWords t
  | .ids list => list.map Id.number
  | .literals list => list
  | .enumerant value => [value.number]
  | .capability c => [c.number]

/-- The number of words of an operand. -/
def wordCount : Operand → Nat
  | .id _ | .literal _ | .enumerant _ | .capability _ => 1
  | .optionalId id? => id?.toList.length
  | .optionalLiteral value? => value?.toList.length
  | .text t => t.utf8ByteSize / 4 + 1
  | .ids list => list.length
  | .literals list => list.length

/-- Adds what the operand requires. -/
def require (r : Requirements) : Operand → Requirements
  | .enumerant value => value.require r
  | _ => r

end Operand

/-- An instruction. -/
structure Instruction where
  op : Op
  operands : List Operand
deriving DecidableEq, Repr, Inhabited

namespace Instruction

/-- The number of words of an instruction. -/
def wordCount (i : Instruction) : Nat :=
  i.operands.foldr (fun operand n => operand.wordCount + n) 1

/-- The instruction uses no null id, and its length fits into a header. -/
def isWritable (i : Instruction) : Bool :=
  !i.operands.any Operand.hasNullId && i.wordCount < UInt16.size

/-- The words of an instruction. -/
def words (i : Instruction) : List UInt32 :=
  (i.wordCount.toUInt32 <<< 16 ||| i.op.entry.number) :: i.operands.flatMap Operand.words

/-- Adds what the opcode and the operands of an instruction require. -/
def require (i : Instruction) (r : Requirements) : Requirements :=
  i.operands.foldl Operand.require (i.op.entry.enumerant.require r)

end Instruction

/-- Instructions and what they require. -/
structure Code where
  instructions : Array Instruction := #[]
  requirements : Requirements := {}
deriving DecidableEq, Repr, Inhabited

namespace Code

/-- The words of all instructions. -/
def words (c : Code) : List UInt32 := c.instructions.toList.flatMap Instruction.words

/-- Adds an instruction at the end, if it is writable. -/
def push (c : Code) (op : Op) (operands : List Operand) : Code :=
  let i : Instruction := ⟨op, operands⟩
  if i.isWritable then ⟨c.instructions.push i, i.require c.requirements⟩ else c

/-- Adds the instructions of other code at the end. -/
def append (c other : Code) : Code :=
  ⟨c.instructions ++ other.instructions, c.requirements.merge other.requirements⟩

end Code

end Shading.Spirv

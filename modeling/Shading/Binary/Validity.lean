import Shading.Binary.Basic

/-! # Valid binaries

A binary is valid if everything in it resolves: names are UTF-8 in the string table, types are
defined, bodies lie in the code and are made of well-formed instructions, and calls go to functions
of the binary.  `validate` gives the first fault: entrypoints before functions, and within a record
the name, then the types, then the body. -/

namespace Shading.Binary

/-- The name of a record resolves. -/
def checkName (b : Binary) (range : Range) : Except Fault Unit :=
  match b.nameBytes? range with
  | none => .error (.nameRange range.offset range.length b.strings.length)
  | some bytes =>
    match Text.ofUtf8? bytes with
    | none => .error (.nameEncoding range.offset range.length)
    | some _ => .ok ()

/-- The type is defined. -/
def checkType (type : TypeId) : Except Fault Unit :=
  match type.builtin? with
  | some _ => .ok ()
  | none => .error (.undefinedType type.number)

/-- The types of all parameters are defined. -/
def checkParameters (parameters : List Parameter) : Except Fault Unit :=
  parameters.forM fun p => checkType p.type

/-- A call goes to one of `functions` functions. -/
def checkCall (functions : Nat) (i : Instruction) : Except Fault Unit :=
  match i.opcode, i.operands with
  | .call, index :: _ =>
    if index.toNat < functions then .ok () else .error (.callTarget index functions)
  | _, _ => .ok ()

/-- The words are well-formed instructions whose calls resolve. -/
def checkWords (functions : Nat) (words : List UInt32) : Except Fault Unit := do
  let reading := readInstructions words
  reading.instructions.forM (checkCall functions)
  match reading.fault? with
  | some fault => throw fault
  | none => return ()

/-- The body of a record resolves. -/
def checkBody (b : Binary) (range : Range) : Except Fault Unit :=
  match b.words? range with
  | none => .error (.codeRange range.offset range.length b.code.length)
  | some words => checkWords b.functions.length words

def checkEntrypoint (b : Binary) (e : Entrypoint) : Except Fault Unit := do
  b.checkName e.name
  checkParameters e.inputs
  checkParameters e.outputs
  b.checkBody e.code

def checkFunction (b : Binary) (f : Function) : Except Fault Unit := do
  b.checkName f.name
  checkType f.returnType
  checkParameters f.parameters
  b.checkBody f.code

/-- Everything in the binary resolves; otherwise the first fault. -/
def validate (b : Binary) : Except Fault Unit := do
  b.entrypoints.forM b.checkEntrypoint
  b.functions.forM b.checkFunction

end Shading.Binary

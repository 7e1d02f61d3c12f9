import Shading.Spirv.Enumeration

/-! # Opcodes of the module format -/

namespace Shading.Spirv

/-- What an instruction does. -/
inductive Op where
  | nop
  | source
  | name
  | memberName
  | string
  | extension
  | extInstImport
  | extInst
  | memoryModel
  | entryPoint
  | executionMode
  | capability
  | typeVoid
  | typeBool
  | typeInt
  | typeFloat
  | typeVector
  | typeMatrix
  | typeArray
  | typeRuntimeArray
  | typeStruct
  | typePointer
  | typeFunction
  | constantTrue
  | constantFalse
  | constant
  | constantComposite
  | constantNull
  | function
  | functionParameter
  | functionEnd
  | functionCall
  | var
  | load
  | store
  | accessChain
  | decorate
  | memberDecorate
  | compositeConstruct
  | compositeExtract
  | label
  | branch
  | kill
  | ret
  | returnValue
  | unreachable
deriving DecidableEq, Repr, Inhabited

def Op.entry : Op → Entry
  | .nop => ⟨"Nop", 0, [], []⟩
  | .source => ⟨"Source", 3, [], []⟩
  | .name => ⟨"Name", 5, [], []⟩
  | .memberName => ⟨"MemberName", 6, [], []⟩
  | .string => ⟨"String", 7, [], []⟩
  | .extension => ⟨"Extension", 10, [], []⟩
  | .extInstImport => ⟨"ExtInstImport", 11, [], []⟩
  | .extInst => ⟨"ExtInst", 12, [], []⟩
  | .memoryModel => ⟨"MemoryModel", 14, [], []⟩
  | .entryPoint => ⟨"EntryPoint", 15, [], []⟩
  | .executionMode => ⟨"ExecutionMode", 16, [], []⟩
  | .capability => ⟨"Capability", 17, [], []⟩
  | .typeVoid => ⟨"TypeVoid", 19, [], []⟩
  | .typeBool => ⟨"TypeBool", 20, [], []⟩
  | .typeInt => ⟨"TypeInt", 21, [], []⟩
  | .typeFloat => ⟨"TypeFloat", 22, [], []⟩
  | .typeVector => ⟨"TypeVector", 23, [], []⟩
  | .typeMatrix => ⟨"TypeMatrix", 24, [.matrix], []⟩
  | .typeArray => ⟨"TypeArray", 28, [], []⟩
  | .typeRuntimeArray => ⟨"TypeRuntimeArray", 29, [.shader], []⟩
  | .typeStruct => ⟨"TypeStruct", 30, [], []⟩
  | .typePointer => ⟨"TypePointer", 32, [], []⟩
  | .typeFunction => ⟨"TypeFunction", 33, [], []⟩
  | .constantTrue => ⟨"ConstantTrue", 41, [], []⟩
  | .constantFalse => ⟨"ConstantFalse", 42, [], []⟩
  | .constant => ⟨"Constant", 43, [], []⟩
  | .constantComposite => ⟨"ConstantComposite", 44, [], []⟩
  | .constantNull => ⟨"ConstantNull", 46, [], []⟩
  | .function => ⟨"Function", 54, [], []⟩
  | .functionParameter => ⟨"FunctionParameter", 55, [], []⟩
  | .functionEnd => ⟨"FunctionEnd", 56, [], []⟩
  | .functionCall => ⟨"FunctionCall", 57, [], []⟩
  | .var => ⟨"Variable", 59, [], []⟩
  | .load => ⟨"Load", 61, [], []⟩
  | .store => ⟨"Store", 62, [], []⟩
  | .accessChain => ⟨"AccessChain", 65, [], []⟩
  | .decorate => ⟨"Decorate", 71, [], []⟩
  | .memberDecorate => ⟨"MemberDecorate", 72, [], []⟩
  | .compositeConstruct => ⟨"CompositeConstruct", 80, [], []⟩
  | .compositeExtract => ⟨"CompositeExtract", 81, [], []⟩
  | .label => ⟨"Label", 248, [], []⟩
  | .branch => ⟨"Branch", 249, [], []⟩
  | .kill => ⟨"Kill", 252, [.shader], []⟩
  | .ret => ⟨"Return", 253, [], []⟩
  | .returnValue => ⟨"ReturnValue", 254, [], []⟩
  | .unreachable => ⟨"Unreachable", 255, [], []⟩

instance : Enumeration Op where
  all := [
    .nop, .source, .name, .memberName, .string, .extension, .extInstImport, .extInst,
    .memoryModel, .entryPoint, .executionMode, .capability, .typeVoid, .typeBool, .typeInt,
    .typeFloat, .typeVector, .typeMatrix, .typeArray, .typeRuntimeArray, .typeStruct,
    .typePointer, .typeFunction, .constantTrue, .constantFalse, .constant, .constantComposite,
    .constantNull, .function, .functionParameter, .functionEnd, .functionCall, .var, .load,
    .store, .accessChain, .decorate, .memberDecorate, .compositeConstruct, .compositeExtract,
    .label, .branch, .kill, .ret, .returnValue, .unreachable]
  entry := Op.entry

/-- The entries of the enumeration with a given name. -/
def entriesOf? : String → Option (List Entry)
  | "ExecutionModel" => some (Enumeration.entries ExecutionModel)
  | "AddressingModel" => some (Enumeration.entries AddressingModel)
  | "MemoryModel" => some (Enumeration.entries MemoryModel)
  | "ExecutionMode" => some (Enumeration.entries ExecutionMode)
  | "StorageClass" => some (Enumeration.entries StorageClass)
  | "Decoration" => some (Enumeration.entries Decoration)
  | "BuiltIn" => some (Enumeration.entries BuiltIn)
  | "FunctionControl" => some (Enumeration.entries FunctionControl)
  | "Op" => some (Enumeration.entries Op)
  | _ => none

end Shading.Spirv

import Shading.Proofs.Binary.Bodies
import Shading.Lower.Program

/-! # What the module of a binary is made of

A function of the module is a `Block`: a header, parameters, a label, calls and what ends it.  An
entrypoint is recorded by an `Entry`, with the variables of its interface and their locations.  Problems
are known without a module: for each function and each entrypoint, its interface, its calls, its end and
what stands after it. -/

namespace Shading.Lower

open Spirv (Id Op Operand Section Instruction StorageClass FunctionControl ExecutionMode Decoration)
open Binary (BuiltinType EntrypointKind Parameter Opcode Range calls ending ending? unreached)

/-! ### Instructions -/

/-- The instructions with an opcode, in order. -/
def having (op : Op) (is : List Instruction) : List Instruction := is.filter fun i => i.op == op

/-- The section that an instruction belongs in. -/
def home : Op → Section
  | .entryPoint => .entryPoints
  | .executionMode => .executionModes
  | .name => .debug
  | .decorate => .annotations
  | .typeVoid | .typeBool | .typeInt | .typeFloat | .typeVector | .typeMatrix | .typePointer
  | .typeFunction | .var => .globals
  | _ => .functions

/-- The instruction declares a type. -/
def isType : Op → Bool
  | .typeVoid | .typeBool | .typeInt | .typeFloat | .typeVector | .typeMatrix | .typePointer
  | .typeFunction => true
  | _ => false

/-- The declaration of a function type. -/
def typeDeclaration (x result : Id) (parameters : List Id) : Instruction :=
  ⟨.typeFunction, [.id x, .id result, .ids parameters]⟩

/-- The name of an id. -/
def nameRecord (id : Id) (name : String) : Instruction := ⟨.name, [.id id, .text name]⟩

/-- The name of an id, if names are kept. -/
def nameRecords (options : Options) (id : Id) (name : String) : List Instruction :=
  if options.names then [nameRecord id name] else []

/-- The execution modes of a stage. -/
def modes (kind : EntrypointKind) (id : Id) : List Instruction :=
  match kind with
  | .fragment => [⟨.executionMode, [.id id, .enumerant (.of ExecutionMode.originUpperLeft)]⟩]
  | .compute =>
    [⟨.executionMode, [.id id, .enumerant (.of ExecutionMode.localSize), .literals [1, 1, 1]]⟩]
  | _ => []

theorem op_of_mem_modes {kind : EntrypointKind} {id : Id} {i : Instruction} (hi : i ∈ modes kind id) :
    i.op = .executionMode := by
  cases kind <;> simp only [modes, List.mem_singleton, List.not_mem_nil] at hi <;> rw [hi]

/-! ### Functions -/

/-- A call in a block. -/
structure Call where
  type : Id
  result : Id
  target : Id

def Call.instruction (c : Call) : Instruction :=
  ⟨.functionCall, [.id c.type, .id c.result, .id c.target]⟩

/-- A function of the module. -/
structure Block where
  returnType : Id
  id : Id
  type : Id
  /-- The types and the ids of the parameters. -/
  parameters : List (Id × Id)
  label : Id
  calls : List Call
  terminator : Op

namespace Block

def header (returnType id type : Id) : Instruction :=
  ⟨.function, [.id returnType, .id id, .enumerant (.of FunctionControl.none), .id type]⟩

def parameter (x : Id × Id) : Instruction := ⟨.functionParameter, [.id x.1, .id x.2]⟩

/-- The instructions of the function, in order. -/
def instructions (k : Block) : List Instruction :=
  header k.returnType k.id k.type :: k.parameters.map parameter ++ ⟨.label, [.id k.label]⟩ ::
    k.calls.map Call.instruction ++ [⟨k.terminator, []⟩, ⟨.functionEnd, []⟩]

/-- The type of its results and its id, which is what a call refers to. -/
def signature (k : Block) : Id × Id := (k.returnType, k.id)

end Block

/-- What ends the block of a body: a body that discards kills, and any other returns, which it cannot
do if it owes a value. -/
def terminator (returns : BuiltinType) (is : List Binary.Instruction) : Op :=
  match ending? is with
  | some .discard => .kill
  | _ => if returns = .void then .ret else .unreachable

/-- The head of a function in the module. -/
structure Head where
  returnType : Id
  id : Id
  type : Id
  /-- The types of its parameters. -/
  parameters : List Id

namespace Head

/-- The header of the function. -/
def instruction (h : Head) : Instruction := Block.header h.returnType h.id h.type

/-- The declaration of its type. -/
def declaration (h : Head) : Instruction := typeDeclaration h.type h.returnType h.parameters

end Head

def Block.head (k : Block) : Head := ⟨k.returnType, k.id, k.type, k.parameters.map Prod.fst⟩

/-- A function of the binary as the module records it. -/
structure FunctionEntry where
  name : String
  head : Head

/-! ### Entrypoints -/

/-- A variable through which a value enters or leaves an entrypoint. -/
structure Slot where
  pointer : Id
  id : Id
  location : Nat

def Slot.declaration (storage : StorageClass) (x : Slot) : Instruction :=
  ⟨.var, [.id x.pointer, .id x.id, .enumerant (.of storage)]⟩

def Slot.decoration (x : Slot) : Instruction :=
  ⟨.decorate, [.id x.id, .enumerant (.of Decoration.location), .literal x.location.toUInt32]⟩

def Slot.records (storage : StorageClass) (x : Slot) : List Instruction :=
  [x.declaration storage, x.decoration]

/-- An entrypoint of the binary as the module records it. -/
structure Entry where
  kind : EntrypointKind
  name : String
  inputs : List Slot
  outputs : List Slot
  head : Head

namespace Entry

/-- The ids of all its variables. -/
def interface (e : Entry) : List Id := e.inputs.map Slot.id ++ e.outputs.map Slot.id

/-- The entry point. -/
def instruction (e : Entry) : Instruction :=
  ⟨.entryPoint, [.enumerant (.of (executionModel e.kind)), .id e.head.id, .text e.name,
    .ids e.interface]⟩

/-- The declarations of its variables. -/
def declarations (e : Entry) : List Instruction :=
  e.inputs.map (Slot.declaration .input) ++ e.outputs.map (Slot.declaration .output)

/-- The locations of its variables. -/
def decorations (e : Entry) : List Instruction :=
  e.inputs.map Slot.decoration ++ e.outputs.map Slot.decoration

/-- What is recorded of an entrypoint before its block. -/
def records (e : Entry) : List Instruction :=
  e.inputs.flatMap (Slot.records .input) ++ e.outputs.flatMap (Slot.records .output) ++
    e.instruction :: modes e.kind e.head.id

end Entry

/-- The parameters that have a value. -/
def valued (parameters : List Parameter) : List Parameter :=
  parameters.filter fun p => p.type.builtin? ≠ some .void

/-- The inputs or outputs that have a variable, with their storage. -/
def slotTypes (storage : StorageClass) (parameters : List Parameter) :
    List (StorageClass × BuiltinType) :=
  (valued parameters).map fun p => (storage, resolve p.type)

/-- The variables of an entrypoint. -/
def entrySlots (e : Binary.Entrypoint) : List (StorageClass × BuiltinType) :=
  slotTypes .input e.inputs ++ slotTypes .output e.outputs

/-! ### Problems -/

/-- The name of a record, as it is reported. -/
def nameOf (b : Binary) (range : Range) : String := (b.name? range).getD ""

/-- The problem with calling a function: it may need arguments. -/
def callProblem? (b : Binary) (caller : String) (n : Nat) : Option Problem :=
  (b.functions[n]?).bind fun f =>
    if f.parameters ≠ [] then
      some (.callWithoutArguments caller (nameOf b f.name) f.parameters.length)
    else none

/-- The problem with discarding: only functions and fragment entrypoints may. -/
def discardProblem? (owner : Owner) : Option Problem :=
  if owner.kind?.any (· != .fragment) then some (.discardOutsideFragment owner.name) else none

/-- The problem with returning: there may be a value to return. -/
def returnProblem? (owner : Owner) : Option Problem :=
  if owner.returnType ≠ .void then some (.returnWithoutValue owner.name owner.returnType) else none

/-- The problem with how a body ends. -/
def endProblem? (owner : Owner) (opcode : Opcode) : Option Problem :=
  if opcode = .discard then discardProblem? owner else returnProblem? owner

/-- The problem with what stands after the end of a body. -/
def restProblem? (owner : Owner) (rest : List Binary.Instruction) : Option Problem :=
  if rest ≠ [] then some (.instructionsAfterEnd owner.name) else none

/-- The problems of a body. -/
def bodyProblems (b : Binary) (owner : Owner) (is : List Binary.Instruction) : List Problem :=
  (calls is).filterMap (callProblem? b owner.name) ++
    ((endProblem? owner (ending is)).toList ++ (restProblem? owner (unreached is)).toList)

theorem bodyProblems_end (b : Binary) (owner : Owner) {i : Binary.Instruction}
    (rest : List Binary.Instruction) (h : i.opcode.isEnd = true) :
    bodyProblems b owner (i :: rest) =
      (endProblem? owner i.opcode).toList ++ (restProblem? owner rest).toList := by
  rw [bodyProblems, Binary.calls_end rest h, Binary.ending_end rest h, Binary.unreached_end rest h]
  rfl

theorem bodyProblems_cons (b : Binary) (owner : Owner) {i : Binary.Instruction}
    (rest : List Binary.Instruction) (h : i.opcode.isEnd = false) :
    bodyProblems b owner (i :: rest) =
      (i.callee?.bind (callProblem? b owner.name)).toList ++ bodyProblems b owner rest := by
  have hfirst : i.callee?.toList.filterMap (callProblem? b owner.name) =
      (i.callee?.bind (callProblem? b owner.name)).toList := by
    cases i.callee? with
    | none => rfl
    | some n =>
        rw [Option.toList_some, Option.bind_some, List.filterMap_cons]
        cases callProblem? b owner.name n <;> rfl
  rw [bodyProblems, Binary.calls_cons rest h, Binary.ending_cons rest h,
    Binary.unreached_cons rest h, List.filterMap_append, List.append_assoc, hfirst, bodyProblems]

/-- The problem with a value that enters or leaves an entrypoint: it may be none. -/
def interfaceProblem? (entrypoint : String) (storage : StorageClass) (p : Parameter) :
    Option Problem :=
  if p.type.builtin? = some .void then some (.voidInterface entrypoint storage) else none

def functionOwner (b : Binary) (f : Binary.Function) : Owner :=
  ⟨nameOf b f.name, resolve f.returnType, none⟩

def entrypointOwner (b : Binary) (e : Binary.Entrypoint) : Owner :=
  ⟨nameOf b e.name, .void, some e.kind⟩

def functionProblems (b : Binary) (f : Binary.Function) : List Problem :=
  bodyProblems b (functionOwner b f) (b.body f.code)

def entrypointProblems (b : Binary) (e : Binary.Entrypoint) : List Problem :=
  e.inputs.filterMap (interfaceProblem? (nameOf b e.name) .input) ++
    (e.outputs.filterMap (interfaceProblem? (nameOf b e.name) .output) ++
      bodyProblems b (entrypointOwner b e) (b.body e.code))

end Shading.Lower

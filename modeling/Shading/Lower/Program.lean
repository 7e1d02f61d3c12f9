import Shading.Binary.Validity
import Shading.Lower.Types

/-! # From binaries to modules

A binary has no values: its bodies call functions, return or discard.  Each function and entrypoint
becomes a function of the module.  What has no meaning there is reported, and the module is built
nevertheless as far as possible. -/

namespace Shading.Lower

open Spirv (Id StorageClass ExecutionModel ExecutionMode Decoration FunctionControl)
open Binary (BuiltinType EntrypointKind Parameter)

/-- What affects how a module is written. -/
structure Options where
  version : Spirv.FormatVersion := .standard
  /-- Functions and entrypoints keep their names for debugging. -/
  names : Bool := false
deriving DecidableEq, Repr, Inhabited

/-- A function that bodies can call. -/
structure Callee where
  id : Id
  name : String
  returnType : Id
  parameters : Nat
deriving DecidableEq, Repr, Inhabited

/-- What a body belongs to. -/
structure Owner where
  name : String
  returnType : BuiltinType
  /-- The stage, if it is an entrypoint. -/
  kind? : Option EntrypointKind
deriving DecidableEq, Repr, Inhabited

/-! ### Bodies -/

/-- Ends a body by returning. -/
def leave (owner : Owner) : Build Unit :=
  if owner.returnType = .void then push .functions .ret []
  else do
    report (.returnWithoutValue owner.name owner.returnType)
    push .functions .unreachable []

/-- Ends a body by discarding, which only fragment entrypoints may do. -/
def discard (owner : Owner) : Build Unit := do
  match owner.kind? with
  | none | some .fragment => pure ()
  | some _ => report (.discardOutsideFragment owner.name)
  push .functions .kill []

/-- Calls a function that has no parameters. -/
def call (owner : Owner) (callee : Callee) : Build Unit :=
  if 0 < callee.parameters then
    report (.callWithoutArguments owner.name callee.name callee.parameters)
  else do
    let result ← fresh
    push .functions .functionCall [.id callee.returnType, .id result, .id callee.id]

/-- Calls the function with the number that is the operand of an instruction. -/
def callNumber (owner : Owner) (callees : List Callee) (operands : List UInt32) : Build Unit :=
  match callees[(operands.headD 0).toNat]? with
  | some callee => call owner callee
  | none => pure ()

/-- Passes over the instructions after the end of a body. -/
def ignoreRest (owner : Owner) (rest : List Binary.Instruction) : Build Unit :=
  if rest.isEmpty then pure () else report (.instructionsAfterEnd owner.name)

/-- The instructions of a body.  A body that does not end by itself returns. -/
def body (owner : Owner) (callees : List Callee) : List Binary.Instruction → Build Unit
  | [] => leave owner
  | i :: rest =>
    match i.opcode with
    | .nop => body owner callees rest
    | .call => do
      callNumber owner callees i.operands
      body owner callees rest
    | .ret => do
      leave owner
      ignoreRest owner rest
    | .discard => do
      discard owner
      ignoreRest owner rest

/-! ### Functions and entrypoints -/

/-- Names an id for debugging, if names are kept. -/
def nameId (options : Options) (id : Id) (name : String) : Build Unit :=
  if options.names then push .debug .name [.id id, .text name] else pure ()

/-- A function of the module with its parameters and its body. -/
def function (owner : Owner) (callees : List Callee) (id : Id) (parameters : List Parameter)
    (words : List UInt32) : Build Unit := do
  let returnType ← builtinType owner.returnType
  let parameterTypes ← parameters.mapM parameterType
  let type ← functionType returnType parameterTypes
  push .functions .function
    [.id returnType, .id id, .enumerant (.of FunctionControl.none), .id type]
  parameterTypes.forM fun parameterType => do
    let parameter ← fresh
    push .functions .functionParameter [.id parameterType, .id parameter]
  let label ← fresh
  push .functions .label [.id label]
  body owner callees (Binary.readInstructions words).instructions
  push .functions .functionEnd []

/-- The variable through which a value enters or leaves an entrypoint. -/
def interfaceVariable (storage : StorageClass) (location : Nat) (p : Parameter) : Build Id := do
  let pointee ← builtinType (resolve p.type)
  let pointer ← pointerType storage pointee
  let slot ← fresh
  push .globals .var [.id pointer, .id slot, .enumerant (.of storage)]
  push .annotations .decorate
    [.id slot, .enumerant (.of Decoration.location), .literal location.toUInt32]
  return slot

/-- The variables of the inputs or of the outputs of an entrypoint, located by their places in the
list.  Those without a value have no variable. -/
def interface (entrypoint : String) (storage : StorageClass) (parameters : List Parameter) :
    Build (List Id) := do
  let slots ← parameters.zipIdx.mapM fun (p, location) => do
    if p.type.builtin? = some .void then
      report (.voidInterface entrypoint storage)
      return none
    else some <$> interfaceVariable storage location p
  return slots.filterMap id

def executionModel : EntrypointKind → ExecutionModel
  | .vertex => .vertex
  | .tessellationControl => .tessellationControl
  | .tessellationEvaluation => .tessellationEvaluation
  | .geometry => .geometry
  | .fragment => .fragment
  | .compute => .glCompute

/-- The execution mode that a stage needs. -/
def executionMode (kind : EntrypointKind) (id : Id) : Build Unit :=
  match kind with
  | .fragment =>
    push .executionModes .executionMode [.id id, .enumerant (.of ExecutionMode.originUpperLeft)]
  | .compute =>
    push .executionModes .executionMode
      [.id id, .enumerant (.of ExecutionMode.localSize), .literals [1, 1, 1]]
  | _ => pure ()

/-- Hands out the id of a function, so that bodies can refer to any function. -/
def declareFunction (b : Binary) (f : Binary.Function) : Build Callee := do
  let returnType ← builtinType (resolve f.returnType)
  let id ← fresh
  return ⟨id, (b.name? f.name).getD "", returnType, f.parameters.length⟩

def defineFunction (options : Options) (b : Binary) (callees : List Callee) (f : Binary.Function)
    (callee : Callee) : Build Unit := do
  nameId options callee.id callee.name
  function ⟨callee.name, resolve f.returnType, none⟩ callees callee.id f.parameters
    ((b.words? f.code).getD [])

def defineEntrypoint (options : Options) (b : Binary) (callees : List Callee)
    (e : Binary.Entrypoint) : Build Unit := do
  let name := (b.name? e.name).getD ""
  let id ← fresh
  nameId options id name
  let inputs ← interface name .input e.inputs
  let outputs ← interface name .output e.outputs
  push .entryPoints .entryPoint
    [.enumerant (.of (executionModel e.kind)), .id id, .text name,
      .ids (inputs ++ outputs)]
  executionMode e.kind id
  function ⟨name, .void, some e.kind⟩ callees id [] ((b.words? e.code).getD [])

/-- The whole binary. -/
def program (options : Options) (b : Binary) : Build Unit := do
  let callees ← b.functions.mapM (declareFunction b)
  (b.functions.zip callees).forM fun (f, callee) => defineFunction options b callees f callee
  b.entrypoints.forM (defineEntrypoint options b callees)

/-- The module of a valid binary, with what has no meaning in it. -/
def build (options : Options) (b : Binary) : Progress :=
  ((program options b).run { output := { version := options.version } }).2

/-- The words of the module of a binary, and the problems met.  An invalid binary has none. -/
def lower (options : Options) (b : Binary) : List UInt32 × List Problem :=
  match b.validate with
  | .error fault => ([], [.invalid fault])
  | .ok () =>
    let built := build options b
    (built.output.assemble, built.problems)

end Shading.Lower

import Shading.Spirv.Capability

/-! # Enumerations of the module format

The opcodes, and the values that operands are chosen from.  Each value has a number, alternative
capabilities of which one has to be declared, and extensions that have to be enabled.  An operand
carries all this itself (`Enumerant`). -/

namespace Shading.Spirv

/-- What is known of a value of an enumeration. -/
structure Entry where
  name : String
  number : UInt32
  /-- The capabilities of which any one suffices; none is needed if the list is empty. -/
  capabilities : List Capability
  extensions : List String
deriving DecidableEq, Repr, Inhabited

/-- A type whose values are those of an enumeration. -/
class Enumeration (α : Type) where
  /-- Every value, in the order of their numbers. -/
  all : List α
  entry : α → Entry

instance {α : Type} [Enumeration α] : Named α where
  all := Enumeration.all
  name value := (Enumeration.entry value).name

/-- What is known of the values of an enumeration. -/
def Enumeration.entries (α : Type) [Enumeration α] : List Entry :=
  (Enumeration.all (α := α)).map Enumeration.entry

/-- The entry with a given number. -/
def Entry.ofNumber? (entries : List Entry) (n : UInt32) : Option Entry :=
  entries.find? (·.number == n)

/-- The pipeline stage of an entry point. -/
inductive ExecutionModel where
  | vertex
  | tessellationControl
  | tessellationEvaluation
  | geometry
  | fragment
  | glCompute
  | kernel
  | rayGenerationKHR
deriving DecidableEq, Repr, Inhabited

def ExecutionModel.entry : ExecutionModel → Entry
  | .vertex => ⟨"Vertex", 0, [.shader], []⟩
  | .tessellationControl => ⟨"TessellationControl", 1, [.tessellation], []⟩
  | .tessellationEvaluation => ⟨"TessellationEvaluation", 2, [.tessellation], []⟩
  | .geometry => ⟨"Geometry", 3, [.geometry], []⟩
  | .fragment => ⟨"Fragment", 4, [.shader], []⟩
  | .glCompute => ⟨"GLCompute", 5, [.shader], []⟩
  | .kernel => ⟨"Kernel", 6, [.kernel], []⟩
  | .rayGenerationKHR => ⟨"RayGenerationKHR", 5313, [.rayTracingKHR], ["SPV_KHR_ray_tracing"]⟩

instance : Enumeration ExecutionModel where
  all := [
    .vertex, .tessellationControl, .tessellationEvaluation, .geometry, .fragment, .glCompute,
    .kernel, .rayGenerationKHR]
  entry := ExecutionModel.entry

/-- How pointers are represented. -/
inductive AddressingModel where
  | logical
  | physical32
  | physical64
  | physicalStorageBuffer64
deriving DecidableEq, Repr, Inhabited

def AddressingModel.entry : AddressingModel → Entry
  | .logical => ⟨"Logical", 0, [], []⟩
  | .physical32 => ⟨"Physical32", 1, [.addresses], []⟩
  | .physical64 => ⟨"Physical64", 2, [.addresses], []⟩
  | .physicalStorageBuffer64 =>
    ⟨"PhysicalStorageBuffer64", 5348, [.physicalStorageBufferAddresses],
      ["SPV_KHR_physical_storage_buffer"]⟩

instance : Enumeration AddressingModel where
  all := [
    .logical, .physical32, .physical64, .physicalStorageBuffer64]
  entry := AddressingModel.entry

/-- How memory accesses are ordered. -/
inductive MemoryModel where
  | simple
  | glsl450
  | openCL
  | vulkan
deriving DecidableEq, Repr, Inhabited

def MemoryModel.entry : MemoryModel → Entry
  | .simple => ⟨"Simple", 0, [.shader], []⟩
  | .glsl450 => ⟨"GLSL450", 1, [.shader], []⟩
  | .openCL => ⟨"OpenCL", 2, [.kernel], []⟩
  | .vulkan => ⟨"Vulkan", 3, [.vulkanMemoryModel], []⟩

instance : Enumeration MemoryModel where
  all := [
    .simple, .glsl450, .openCL, .vulkan]
  entry := MemoryModel.entry

/-- How an entry point is executed.  Parameters of a mode follow it as literals. -/
inductive ExecutionMode where
  | invocations
  | spacingEqual
  | vertexOrderCw
  | pixelCenterInteger
  | originUpperLeft
  | originLowerLeft
  | earlyFragmentTests
  | pointMode
  | depthReplacing
  | localSize
  | localSizeHint
  | inputPoints
  | triangles
  | outputVertices
  | outputPoints
deriving DecidableEq, Repr, Inhabited

def ExecutionMode.entry : ExecutionMode → Entry
  | .invocations => ⟨"Invocations", 0, [.geometry], []⟩
  | .spacingEqual => ⟨"SpacingEqual", 1, [.tessellation], []⟩
  | .vertexOrderCw => ⟨"VertexOrderCw", 4, [.tessellation], []⟩
  | .pixelCenterInteger => ⟨"PixelCenterInteger", 6, [.shader], []⟩
  | .originUpperLeft => ⟨"OriginUpperLeft", 7, [.shader], []⟩
  | .originLowerLeft => ⟨"OriginLowerLeft", 8, [.shader], []⟩
  | .earlyFragmentTests => ⟨"EarlyFragmentTests", 9, [.shader], []⟩
  | .pointMode => ⟨"PointMode", 10, [.tessellation], []⟩
  | .depthReplacing => ⟨"DepthReplacing", 12, [.shader], []⟩
  | .localSize => ⟨"LocalSize", 17, [], []⟩
  | .localSizeHint => ⟨"LocalSizeHint", 18, [.kernel], []⟩
  | .inputPoints => ⟨"InputPoints", 19, [.geometry], []⟩
  | .triangles => ⟨"Triangles", 22, [.geometry, .tessellation], []⟩
  | .outputVertices => ⟨"OutputVertices", 26, [.geometry, .tessellation], []⟩
  | .outputPoints => ⟨"OutputPoints", 27, [.geometry], []⟩

instance : Enumeration ExecutionMode where
  all := [
    .invocations, .spacingEqual, .vertexOrderCw, .pixelCenterInteger, .originUpperLeft,
    .originLowerLeft, .earlyFragmentTests, .pointMode, .depthReplacing, .localSize,
    .localSizeHint, .inputPoints, .triangles, .outputVertices, .outputPoints]
  entry := ExecutionMode.entry

/-- Where a variable lives. -/
inductive StorageClass where
  | uniformConstant
  | input
  | uniform
  | output
  | workgroup
  | crossWorkgroup
  | perInvocation
  | function
  | generic
  | pushConstant
  | atomicCounter
  | image
  | storageBuffer
  | physicalStorageBuffer
deriving DecidableEq, Repr, Inhabited

def StorageClass.entry : StorageClass → Entry
  | .uniformConstant => ⟨"UniformConstant", 0, [], []⟩
  | .input => ⟨"Input", 1, [], []⟩
  | .uniform => ⟨"Uniform", 2, [.shader], []⟩
  | .output => ⟨"Output", 3, [.shader], []⟩
  | .workgroup => ⟨"Workgroup", 4, [], []⟩
  | .crossWorkgroup => ⟨"CrossWorkgroup", 5, [], []⟩
  | .perInvocation => ⟨"Private", 6, [.shader], []⟩
  | .function => ⟨"Function", 7, [], []⟩
  | .generic => ⟨"Generic", 8, [.genericPointer], []⟩
  | .pushConstant => ⟨"PushConstant", 9, [.shader], []⟩
  | .atomicCounter => ⟨"AtomicCounter", 10, [.atomicStorage], []⟩
  | .image => ⟨"Image", 11, [], []⟩
  | .storageBuffer => ⟨"StorageBuffer", 12, [.shader], ["SPV_KHR_storage_buffer_storage_class"]⟩
  | .physicalStorageBuffer =>
    ⟨"PhysicalStorageBuffer", 5349, [.physicalStorageBufferAddresses],
      ["SPV_KHR_physical_storage_buffer"]⟩

instance : Enumeration StorageClass where
  all := [
    .uniformConstant, .input, .uniform, .output, .workgroup, .crossWorkgroup, .perInvocation,
    .function, .generic, .pushConstant, .atomicCounter, .image, .storageBuffer,
    .physicalStorageBuffer]
  entry := StorageClass.entry

/-- Extra information on an id.  Parameters of a decoration follow it as operands. -/
inductive Decoration where
  | relaxedPrecision
  | specId
  | block
  | bufferBlock
  | rowMajor
  | colMajor
  | arrayStride
  | matrixStride
  | builtIn
  | noPerspective
  | flat
  | invariant
  | location
  | component
  | index
  | binding
  | descriptorSet
  | offset
  | nonUniform
deriving DecidableEq, Repr, Inhabited

def Decoration.entry : Decoration → Entry
  | .relaxedPrecision => ⟨"RelaxedPrecision", 0, [.shader], []⟩
  | .specId => ⟨"SpecId", 1, [.shader, .kernel], []⟩
  | .block => ⟨"Block", 2, [.shader], []⟩
  | .bufferBlock => ⟨"BufferBlock", 3, [.shader], []⟩
  | .rowMajor => ⟨"RowMajor", 4, [.matrix], []⟩
  | .colMajor => ⟨"ColMajor", 5, [.matrix], []⟩
  | .arrayStride => ⟨"ArrayStride", 6, [.shader], []⟩
  | .matrixStride => ⟨"MatrixStride", 7, [.matrix], []⟩
  | .builtIn => ⟨"BuiltIn", 11, [], []⟩
  | .noPerspective => ⟨"NoPerspective", 13, [.shader], []⟩
  | .flat => ⟨"Flat", 14, [.shader], []⟩
  | .invariant => ⟨"Invariant", 18, [.shader], []⟩
  | .location => ⟨"Location", 30, [.shader], []⟩
  | .component => ⟨"Component", 31, [.shader], []⟩
  | .index => ⟨"Index", 32, [.shader], []⟩
  | .binding => ⟨"Binding", 33, [.shader], []⟩
  | .descriptorSet => ⟨"DescriptorSet", 34, [.shader], []⟩
  | .offset => ⟨"Offset", 35, [.shader], []⟩
  | .nonUniform => ⟨"NonUniform", 5300, [.shaderNonUniform], []⟩

instance : Enumeration Decoration where
  all := [
    .relaxedPrecision, .specId, .block, .bufferBlock, .rowMajor, .colMajor, .arrayStride,
    .matrixStride, .builtIn, .noPerspective, .flat, .invariant, .location, .component, .index,
    .binding, .descriptorSet, .offset, .nonUniform]
  entry := Decoration.entry

/-- A variable with a meaning given by the pipeline. -/
inductive BuiltIn where
  | position
  | pointSize
  | clipDistance
  | cullDistance
  | vertexId
  | instanceId
  | primitiveId
  | invocationId
  | layer
  | viewportIndex
  | tessLevelOuter
  | tessLevelInner
  | fragCoord
  | pointCoord
  | frontFacing
  | sampleId
  | fragDepth
  | numWorkgroups
  | workgroupSize
  | workgroupId
  | localInvocationId
  | globalInvocationId
  | localInvocationIndex
  | vertexIndex
  | instanceIndex
  | baseVertex
  | baseInstance
  | drawIndex
  | viewIndex
deriving DecidableEq, Repr, Inhabited

def BuiltIn.entry : BuiltIn → Entry
  | .position => ⟨"Position", 0, [.shader], []⟩
  | .pointSize => ⟨"PointSize", 1, [.shader], []⟩
  | .clipDistance => ⟨"ClipDistance", 3, [.clipDistance], []⟩
  | .cullDistance => ⟨"CullDistance", 4, [.cullDistance], []⟩
  | .vertexId => ⟨"VertexId", 5, [.shader], []⟩
  | .instanceId => ⟨"InstanceId", 6, [.shader], []⟩
  | .primitiveId => ⟨"PrimitiveId", 7, [.geometry, .tessellation, .rayTracingKHR], []⟩
  | .invocationId => ⟨"InvocationId", 8, [.geometry, .tessellation], []⟩
  | .layer => ⟨"Layer", 9, [.geometry], []⟩
  | .viewportIndex => ⟨"ViewportIndex", 10, [.multiViewport], []⟩
  | .tessLevelOuter => ⟨"TessLevelOuter", 11, [.tessellation], []⟩
  | .tessLevelInner => ⟨"TessLevelInner", 12, [.tessellation], []⟩
  | .fragCoord => ⟨"FragCoord", 15, [.shader], []⟩
  | .pointCoord => ⟨"PointCoord", 16, [.shader], []⟩
  | .frontFacing => ⟨"FrontFacing", 17, [.shader], []⟩
  | .sampleId => ⟨"SampleId", 18, [.sampleRateShading], []⟩
  | .fragDepth => ⟨"FragDepth", 22, [.shader], []⟩
  | .numWorkgroups => ⟨"NumWorkgroups", 24, [], []⟩
  | .workgroupSize => ⟨"WorkgroupSize", 25, [], []⟩
  | .workgroupId => ⟨"WorkgroupId", 26, [], []⟩
  | .localInvocationId => ⟨"LocalInvocationId", 27, [], []⟩
  | .globalInvocationId => ⟨"GlobalInvocationId", 28, [], []⟩
  | .localInvocationIndex => ⟨"LocalInvocationIndex", 29, [], []⟩
  | .vertexIndex => ⟨"VertexIndex", 42, [.shader], []⟩
  | .instanceIndex => ⟨"InstanceIndex", 43, [.shader], []⟩
  | .baseVertex => ⟨"BaseVertex", 4424, [.drawParameters], ["SPV_KHR_shader_draw_parameters"]⟩
  | .baseInstance => ⟨"BaseInstance", 4425, [.drawParameters], ["SPV_KHR_shader_draw_parameters"]⟩
  | .drawIndex => ⟨"DrawIndex", 4426, [.drawParameters], ["SPV_KHR_shader_draw_parameters"]⟩
  | .viewIndex => ⟨"ViewIndex", 4440, [.multiview], ["SPV_KHR_multiview"]⟩

instance : Enumeration BuiltIn where
  all := [
    .position, .pointSize, .clipDistance, .cullDistance, .vertexId, .instanceId, .primitiveId,
    .invocationId, .layer, .viewportIndex, .tessLevelOuter, .tessLevelInner, .fragCoord,
    .pointCoord, .frontFacing, .sampleId, .fragDepth, .numWorkgroups, .workgroupSize,
    .workgroupId, .localInvocationId, .globalInvocationId, .localInvocationIndex, .vertexIndex,
    .instanceIndex, .baseVertex, .baseInstance, .drawIndex, .viewIndex]
  entry := BuiltIn.entry

/-- Hints on how to treat a function. -/
inductive FunctionControl where
  | none
  | inline
  | dontInline
  | pure
  | const
deriving DecidableEq, Repr, Inhabited

def FunctionControl.entry : FunctionControl → Entry
  | .none => ⟨"None", 0, [], []⟩
  | .inline => ⟨"Inline", 1, [], []⟩
  | .dontInline => ⟨"DontInline", 2, [], []⟩
  | .pure => ⟨"Pure", 4, [], []⟩
  | .const => ⟨"Const", 8, [], []⟩

instance : Enumeration FunctionControl where
  all := [
    .none, .inline, .dontInline, .pure, .const]
  entry := FunctionControl.entry

/-- A value as an operand has it: its number and what it needs.  Operands are not bound to the
enumerations above. -/
structure Enumerant where
  number : UInt32
  /-- The capabilities of which any one suffices; none is needed if the list is empty. -/
  capabilities : List Capability
  extensions : List String
deriving DecidableEq, Repr, Inhabited

def Entry.enumerant (entry : Entry) : Enumerant := ⟨entry.number, entry.capabilities, entry.extensions⟩

namespace Enumerant

/-- A value of an enumeration. -/
def of {α : Type} [Enumeration α] (value : α) : Enumerant := (Enumeration.entry value).enumerant

/-- The value with a given name in an enumeration. -/
def ofName? (α : Type) [Enumeration α] (name : String) : Option Enumerant :=
  (Named.ofName? (α := α) name).map of

/-- The value with a given name in the enumeration with a given name. -/
def ofNames? (enumeration name : String) : Option Enumerant :=
  match enumeration with
  | "ExecutionModel" => ofName? ExecutionModel name
  | "AddressingModel" => ofName? AddressingModel name
  | "MemoryModel" => ofName? MemoryModel name
  | "ExecutionMode" => ofName? ExecutionMode name
  | "StorageClass" => ofName? StorageClass name
  | "Decoration" => ofName? Decoration name
  | "BuiltIn" => ofName? BuiltIn name
  | "FunctionControl" => ofName? FunctionControl name
  | _ => none

end Enumerant

end Shading.Spirv

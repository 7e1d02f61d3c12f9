import Shading.Basic

/-! # Capabilities

A module declares the capabilities it uses.  To declare one is to declare, silently, all those it
implies, so `Shader` stands for `Matrix` too and `Geometry` for both. -/

namespace Shading.Spirv

/-- A capability that a module can declare, in the order of their numbers. -/
inductive Capability where
  | matrix
  | shader
  | geometry
  | tessellation
  | addresses
  | linkage
  | kernel
  | vector16
  | float16Buffer
  | float16
  | float64
  | int64
  | int64Atomics
  | imageBasic
  | imageReadWrite
  | imageMipmap
  | pipes
  | groups
  | deviceEnqueue
  | literalSampler
  | atomicStorage
  | int16
  | tessellationPointSize
  | geometryPointSize
  | imageGatherExtended
  | storageImageMultisample
  | uniformBufferArrayDynamicIndexing
  | sampledImageArrayDynamicIndexing
  | storageBufferArrayDynamicIndexing
  | storageImageArrayDynamicIndexing
  | clipDistance
  | cullDistance
  | imageCubeArray
  | sampleRateShading
  | imageRect
  | sampledRect
  | genericPointer
  | int8
  | inputAttachment
  | sparseResidency
  | minLod
  | sampled1D
  | image1D
  | sampledCubeArray
  | sampledBuffer
  | imageBuffer
  | imageMSArray
  | storageImageExtendedFormats
  | imageQuery
  | derivativeControl
  | interpolationFunction
  | transformFeedback
  | geometryStreams
  | storageImageReadWithoutFormat
  | storageImageWriteWithoutFormat
  | multiViewport
  | drawParameters
  | storageBuffer16BitAccess
  | multiview
  | variablePointersStorageBuffer
  | variablePointers
  | rayQueryKHR
  | rayTraversalPrimitiveCullingKHR
  | rayTracingKHR
  | shaderNonUniform
  | runtimeDescriptorArray
  | vulkanMemoryModel
  | physicalStorageBufferAddresses
deriving DecidableEq, Repr, Inhabited

namespace Capability

/-- The number that stands for a capability. -/
def number : Capability → UInt32
  | .matrix => 0
  | .shader => 1
  | .geometry => 2
  | .tessellation => 3
  | .addresses => 4
  | .linkage => 5
  | .kernel => 6
  | .vector16 => 7
  | .float16Buffer => 8
  | .float16 => 9
  | .float64 => 10
  | .int64 => 11
  | .int64Atomics => 12
  | .imageBasic => 13
  | .imageReadWrite => 14
  | .imageMipmap => 15
  | .pipes => 17
  | .groups => 18
  | .deviceEnqueue => 19
  | .literalSampler => 20
  | .atomicStorage => 21
  | .int16 => 22
  | .tessellationPointSize => 23
  | .geometryPointSize => 24
  | .imageGatherExtended => 25
  | .storageImageMultisample => 27
  | .uniformBufferArrayDynamicIndexing => 28
  | .sampledImageArrayDynamicIndexing => 29
  | .storageBufferArrayDynamicIndexing => 30
  | .storageImageArrayDynamicIndexing => 31
  | .clipDistance => 32
  | .cullDistance => 33
  | .imageCubeArray => 34
  | .sampleRateShading => 35
  | .imageRect => 36
  | .sampledRect => 37
  | .genericPointer => 38
  | .int8 => 39
  | .inputAttachment => 40
  | .sparseResidency => 41
  | .minLod => 42
  | .sampled1D => 43
  | .image1D => 44
  | .sampledCubeArray => 45
  | .sampledBuffer => 46
  | .imageBuffer => 47
  | .imageMSArray => 48
  | .storageImageExtendedFormats => 49
  | .imageQuery => 50
  | .derivativeControl => 51
  | .interpolationFunction => 52
  | .transformFeedback => 53
  | .geometryStreams => 54
  | .storageImageReadWithoutFormat => 55
  | .storageImageWriteWithoutFormat => 56
  | .multiViewport => 57
  | .drawParameters => 4427
  | .storageBuffer16BitAccess => 4433
  | .multiview => 4439
  | .variablePointersStorageBuffer => 4441
  | .variablePointers => 4442
  | .rayQueryKHR => 4472
  | .rayTraversalPrimitiveCullingKHR => 4478
  | .rayTracingKHR => 4479
  | .shaderNonUniform => 5301
  | .runtimeDescriptorArray => 5302
  | .vulkanMemoryModel => 5345
  | .physicalStorageBufferAddresses => 5347

instance : Named Capability where
  all := [
    .matrix, .shader, .geometry, .tessellation, .addresses, .linkage, .kernel, .vector16,
    .float16Buffer, .float16, .float64, .int64, .int64Atomics, .imageBasic, .imageReadWrite,
    .imageMipmap, .pipes, .groups, .deviceEnqueue, .literalSampler, .atomicStorage, .int16,
    .tessellationPointSize, .geometryPointSize, .imageGatherExtended, .storageImageMultisample,
    .uniformBufferArrayDynamicIndexing, .sampledImageArrayDynamicIndexing,
    .storageBufferArrayDynamicIndexing, .storageImageArrayDynamicIndexing, .clipDistance,
    .cullDistance, .imageCubeArray, .sampleRateShading, .imageRect, .sampledRect,
    .genericPointer, .int8, .inputAttachment, .sparseResidency, .minLod, .sampled1D, .image1D,
    .sampledCubeArray, .sampledBuffer, .imageBuffer, .imageMSArray,
    .storageImageExtendedFormats, .imageQuery, .derivativeControl, .interpolationFunction,
    .transformFeedback, .geometryStreams, .storageImageReadWithoutFormat,
    .storageImageWriteWithoutFormat, .multiViewport, .drawParameters, .storageBuffer16BitAccess,
    .multiview, .variablePointersStorageBuffer, .variablePointers, .rayQueryKHR,
    .rayTraversalPrimitiveCullingKHR, .rayTracingKHR, .shaderNonUniform,
    .runtimeDescriptorArray, .vulkanMemoryModel, .physicalStorageBufferAddresses]
  name
    | .matrix => "Matrix"
    | .shader => "Shader"
    | .geometry => "Geometry"
    | .tessellation => "Tessellation"
    | .addresses => "Addresses"
    | .linkage => "Linkage"
    | .kernel => "Kernel"
    | .vector16 => "Vector16"
    | .float16Buffer => "Float16Buffer"
    | .float16 => "Float16"
    | .float64 => "Float64"
    | .int64 => "Int64"
    | .int64Atomics => "Int64Atomics"
    | .imageBasic => "ImageBasic"
    | .imageReadWrite => "ImageReadWrite"
    | .imageMipmap => "ImageMipmap"
    | .pipes => "Pipes"
    | .groups => "Groups"
    | .deviceEnqueue => "DeviceEnqueue"
    | .literalSampler => "LiteralSampler"
    | .atomicStorage => "AtomicStorage"
    | .int16 => "Int16"
    | .tessellationPointSize => "TessellationPointSize"
    | .geometryPointSize => "GeometryPointSize"
    | .imageGatherExtended => "ImageGatherExtended"
    | .storageImageMultisample => "StorageImageMultisample"
    | .uniformBufferArrayDynamicIndexing => "UniformBufferArrayDynamicIndexing"
    | .sampledImageArrayDynamicIndexing => "SampledImageArrayDynamicIndexing"
    | .storageBufferArrayDynamicIndexing => "StorageBufferArrayDynamicIndexing"
    | .storageImageArrayDynamicIndexing => "StorageImageArrayDynamicIndexing"
    | .clipDistance => "ClipDistance"
    | .cullDistance => "CullDistance"
    | .imageCubeArray => "ImageCubeArray"
    | .sampleRateShading => "SampleRateShading"
    | .imageRect => "ImageRect"
    | .sampledRect => "SampledRect"
    | .genericPointer => "GenericPointer"
    | .int8 => "Int8"
    | .inputAttachment => "InputAttachment"
    | .sparseResidency => "SparseResidency"
    | .minLod => "MinLod"
    | .sampled1D => "Sampled1D"
    | .image1D => "Image1D"
    | .sampledCubeArray => "SampledCubeArray"
    | .sampledBuffer => "SampledBuffer"
    | .imageBuffer => "ImageBuffer"
    | .imageMSArray => "ImageMSArray"
    | .storageImageExtendedFormats => "StorageImageExtendedFormats"
    | .imageQuery => "ImageQuery"
    | .derivativeControl => "DerivativeControl"
    | .interpolationFunction => "InterpolationFunction"
    | .transformFeedback => "TransformFeedback"
    | .geometryStreams => "GeometryStreams"
    | .storageImageReadWithoutFormat => "StorageImageReadWithoutFormat"
    | .storageImageWriteWithoutFormat => "StorageImageWriteWithoutFormat"
    | .multiViewport => "MultiViewport"
    | .drawParameters => "DrawParameters"
    | .storageBuffer16BitAccess => "StorageBuffer16BitAccess"
    | .multiview => "MultiView"
    | .variablePointersStorageBuffer => "VariablePointersStorageBuffer"
    | .variablePointers => "VariablePointers"
    | .rayQueryKHR => "RayQueryKHR"
    | .rayTraversalPrimitiveCullingKHR => "RayTraversalPrimitiveCullingKHR"
    | .rayTracingKHR => "RayTracingKHR"
    | .shaderNonUniform => "ShaderNonUniform"
    | .runtimeDescriptorArray => "RuntimeDescriptorArray"
    | .vulkanMemoryModel => "VulkanMemoryModel"
    | .physicalStorageBufferAddresses => "PhysicalStorageBufferAddresses"

/-- The capabilities that are declared along with one, in one step. -/
def implied : Capability → List Capability
  | .shader => [.matrix]
  | .geometry | .tessellation | .atomicStorage | .imageGatherExtended | .storageImageMultisample
  | .uniformBufferArrayDynamicIndexing | .sampledImageArrayDynamicIndexing
  | .storageBufferArrayDynamicIndexing | .storageImageArrayDynamicIndexing | .clipDistance
  | .cullDistance | .sampleRateShading | .sampledRect | .inputAttachment | .sparseResidency
  | .minLod | .imageMSArray | .storageImageExtendedFormats | .imageQuery | .derivativeControl
  | .interpolationFunction | .transformFeedback | .storageImageReadWithoutFormat
  | .storageImageWriteWithoutFormat | .drawParameters | .multiview
  | .variablePointersStorageBuffer | .rayQueryKHR | .rayTracingKHR | .shaderNonUniform
  | .runtimeDescriptorArray | .physicalStorageBufferAddresses =>
    [.shader]
  | .vector16 | .float16Buffer | .imageBasic | .pipes | .deviceEnqueue | .literalSampler =>
    [.kernel]
  | .int64Atomics => [.int64]
  | .imageReadWrite | .imageMipmap => [.imageBasic]
  | .tessellationPointSize => [.tessellation]
  | .geometryPointSize | .geometryStreams | .multiViewport => [.geometry]
  | .imageCubeArray => [.sampledCubeArray]
  | .imageRect => [.sampledRect]
  | .genericPointer => [.addresses]
  | .imageBuffer => [.sampledBuffer]
  | .variablePointers => [.variablePointersStorageBuffer]
  | .rayTraversalPrimitiveCullingKHR => [.rayQueryKHR, .rayTracingKHR]
  | _ => []

/-- The extensions without which a capability cannot be declared. -/
def extensions : Capability → List String
  | .drawParameters => ["SPV_KHR_shader_draw_parameters"]
  | .storageBuffer16BitAccess => ["SPV_KHR_16bit_storage"]
  | .multiview => ["SPV_KHR_multiview"]
  | .variablePointersStorageBuffer | .variablePointers => ["SPV_KHR_variable_pointers"]
  | .rayQueryKHR | .rayTraversalPrimitiveCullingKHR => ["SPV_KHR_ray_query"]
  | .rayTracingKHR => ["SPV_KHR_ray_tracing"]
  | .shaderNonUniform | .runtimeDescriptorArray => ["SPV_EXT_descriptor_indexing"]
  | .vulkanMemoryModel => ["SPV_KHR_vulkan_memory_model"]
  | .physicalStorageBufferAddresses => ["SPV_KHR_physical_storage_buffer"]
  | _ => []

/-- All capabilities declared by declaring one, in at most the given number of steps. -/
def impliedWithin : Nat → Capability → List Capability
  | 0, c => [c]
  | steps + 1, c => c :: c.implied.flatMap (impliedWithin steps)

/-- All capabilities declared by declaring one, itself included.  No chain of implications has more
than three steps. -/
def closure (c : Capability) : List Capability := impliedWithin 3 c

/-- To declare `c` is to declare `d`. -/
def implies (c d : Capability) : Bool := c.closure.contains d

/-- The extensions needed by a capability and all that it implies, in the order of their names. -/
def allExtensions (c : Capability) : List String :=
  Ordered.insertAll (fun a b => a < b) (c.closure.flatMap extensions) []

end Capability

end Shading.Spirv

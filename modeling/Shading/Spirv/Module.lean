import Shading.Spirv.Code

/-! # Modules

A module is a header, the declarations that follow from what its code requires, and six sections of
code.  `assemble` writes all of it as words. -/

namespace Shading.Spirv

/-- The version of the format that a module states. -/
structure FormatVersion where
  major : UInt8
  minor : UInt8
deriving DecidableEq, Repr, Inhabited

namespace FormatVersion

/-- The version a module has unless another is asked for. -/
def standard : FormatVersion := ⟨1, 0⟩

def toWord (v : FormatVersion) : UInt32 := v.major.toUInt32 <<< 16 ||| v.minor.toUInt32 <<< 8

end FormatVersion

/-- A part of a module, in the order in which they are written. -/
inductive Section where
  | entryPoints
  | executionModes
  /-- Names for debugging. -/
  | debug
  | annotations
  /-- Types and variables. -/
  | globals
  | functions
deriving DecidableEq, Repr, Inhabited

def Section.name : Section → String
  | .entryPoints => "entry_points"
  | .executionModes => "execution_modes"
  | .debug => "debug"
  | .annotations => "annotations"
  | .globals => "globals"
  | .functions => "functions"

instance : Named Section where
  all := [.entryPoints, .executionModes, .debug, .annotations, .globals, .functions]
  name := Section.name

/-- Code in sections, and how many ids have been handed out for it. -/
structure Module where
  version : FormatVersion := .standard
  issued : Nat := 0
  entryPoints : Code := {}
  executionModes : Code := {}
  debug : Code := {}
  annotations : Code := {}
  globals : Code := {}
  functions : Code := {}
deriving DecidableEq, Repr, Inhabited

namespace Module

/-- Hands out an id that was not handed out before. -/
def fresh (m : Module) : Id × Module :=
  (⟨(m.issued + 1).toUInt32⟩, { m with issued := m.issued + 1 })

/-- All ids handed out are below this number. -/
def bound (m : Module) : UInt32 := (m.issued + 1).toUInt32

def code (m : Module) : Section → Code
  | .entryPoints => m.entryPoints
  | .executionModes => m.executionModes
  | .debug => m.debug
  | .annotations => m.annotations
  | .globals => m.globals
  | .functions => m.functions

def setCode (m : Module) (place : Section) (code : Code) : Module :=
  match place with
  | .entryPoints => { m with entryPoints := code }
  | .executionModes => { m with executionModes := code }
  | .debug => { m with debug := code }
  | .annotations => { m with annotations := code }
  | .globals => { m with globals := code }
  | .functions => { m with functions := code }

/-- Adds an instruction at the end of a section, if it is writable. -/
def push (m : Module) (place : Section) (op : Op) (operands : List Operand) : Module :=
  m.setCode place ((m.code place).push op operands)

/-- The sections in the order in which they are written. -/
def sections (m : Module) : List Code :=
  [m.entryPoints, m.executionModes, m.debug, m.annotations, m.globals, m.functions]

/-- The memory model that every module states. -/
def memoryModel : Code :=
  Code.push {} .memoryModel
    [.enumerant (.of AddressingModel.logical), .enumerant (.of MemoryModel.glsl450)]

/-- All that the module requires. -/
def requirements (m : Module) : Requirements :=
  m.sections.foldl (fun r code => r.merge code.requirements) memoryModel.requirements

/-- The declarations that follow from the requirements. -/
def preamble (m : Module) : Code :=
  let required := m.requirements
  let declare := fun (code : Code) c => code.push .capability [.capability c]
  let enable := fun (code : Code) name => code.push .extension [.text name]
  let declared := required.capabilities.members.foldl declare {}
  (required.extensions.foldl enable declared).append memoryModel

/-- The first word of every module. -/
def magic : UInt32 := 0x07230203

def header (m : Module) : List UInt32 := [magic, m.version.toWord, 0, m.bound, 0]

/-- The words of the module: the header, the declarations, then the sections. -/
def assemble (m : Module) : List UInt32 :=
  m.header ++ m.preamble.words ++ m.sections.flatMap Code.words

end Module

end Shading.Spirv

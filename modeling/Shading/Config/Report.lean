import Shading.Binary.Fault
import Shading.Files.Tree

/-! # Reports

A `Report` says why a command could not do its work at all, as opposed to messages, which are about
the contents of its input. -/

namespace Shading

/-- Why a command could not do its work. -/
inductive Report where
  | unreadableConfig (path : String) (cause : FileError)
  | malformedConfig (path : String)
  | unreachableConfig (path : String) (cause : FileError)
  | badVersion (version path : String)
  | badDefinition (definition : String)
  | unreadableInput (path : String) (cause : FileError)
  | undecodableInput (path : String) (cause : Binary.Fault)
  | invalidInput (path : String) (cause : Binary.Fault)
  | unwritableOutput (path : String) (cause : FileError)
deriving DecidableEq, Repr, Inhabited

namespace Report

def message : Report → String
  | .unreadableConfig path _ => s!"Failed to read config '{path}'"
  | .malformedConfig path => s!"Failed to parse config '{path}'"
  | .unreachableConfig path _ => s!"Failed to stat config '{path}'"
  | .badVersion version path =>
    s!"Invalid SPIR-V version '{version}' in '{path}', expected 'major.minor'"
  | .badDefinition definition =>
    s!"Invalid macro definition '{definition}', expected NAME=TARGET"
  | .unreadableInput path _ => s!"Failed to read '{path}'"
  | .undecodableInput path _ => s!"Failed to decode '{path}'"
  | .invalidInput path _ => s!"'{path}' is not a valid FIL binary"
  | .unwritableOutput path _ => s!"Failed to write '{path}'"

/-- What is known of the reason. -/
def cause? : Report → Option String
  | .unreadableConfig _ cause => some cause.message
  | .unreachableConfig _ cause => some cause.message
  | .unreadableInput _ cause => some cause.message
  | .undecodableInput _ cause => some cause.message
  | .invalidInput _ cause => some cause.message
  | .unwritableOutput _ cause => some cause.message
  | .malformedConfig _ | .badVersion .. | .badDefinition _ => none

end Report

end Shading

import Shading.Binary.Basic
import Shading.Message.Basic
import Shading.Spirv.Enumeration

/-! # What can go wrong when a binary becomes a module -/

namespace Shading.Lower

/-- Something in a binary that has no meaning in a module. -/
inductive Problem where
  | invalid (fault : Binary.Fault)
  /-- An entrypoint has an input or output without a value. -/
  | voidInterface (entrypoint : String) (storage : Spirv.StorageClass)
  /-- A body goes on after it returned or discarded. -/
  | instructionsAfterEnd (body : String)
  | discardOutsideFragment (entrypoint : String)
  | callWithoutArguments (caller callee : String) (parameters : Nat)
  | returnWithoutValue (function : String) (type : Binary.BuiltinType)
deriving DecidableEq, Repr, Inhabited

namespace Problem

/-- Only instructions after the end are harmless. -/
def severity : Problem → Severity
  | .instructionsAfterEnd _ => .warning
  | _ => .error

def text : Problem → String
  | .invalid fault => s!"Invalid FIL binary: {fault.message}"
  | .voidInterface entrypoint storage =>
    s!"Entrypoint `{entrypoint}` has a {storage.entry.name} of type Void"
  | .instructionsAfterEnd body => s!"Instructions after the end of `{body}` are ignored"
  | .discardOutsideFragment entrypoint =>
    s!"Discard in `{entrypoint}` is only valid in fragment entrypoints"
  | .callWithoutArguments caller callee parameters =>
    s!"`{caller}` calls `{callee}` without its {parameters} arguments"
  | .returnWithoutValue function type =>
    s!"`{function}` must return a value of type {Named.name type}, " ++
      "but the IL cannot carry return values"

/-- The problem as a message about a binary as a whole. -/
def toMessage (p : Problem) (span : Span) : Message := ⟨p.severity, span, span.start, p.text⟩

end Problem

end Shading.Lower

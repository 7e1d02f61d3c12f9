import Shading.Binary.Version

/-! # What can be wrong with a binary -/

namespace Shading.Binary

/-- Why bytes are not a binary, or a binary is not valid. -/
inductive Fault where
  | badMagic (found : UInt32)
  | unsupportedVersion (version : Version)
  | truncated (offset : Nat)
  | trailingBytes (count : Nat)
  | badEntrypointKind (value : UInt32)
  | badQualifier (value : UInt32)
  | reservedTypes (count : UInt64)
  | nameRange (offset length : UInt64) (size : Nat)
  | nameEncoding (offset length : UInt64)
  | codeRange (offset length : UInt64) (size : Nat)
  | undefinedType (number : UInt64)
  | callTarget (index : UInt32) (count : Nat)
  | unknownOpcode (opcode : UInt32) (offset : Nat)
  | malformedInstruction (offset : Nat)
deriving DecidableEq, Repr, Inhabited

/-- A word as eight hexadecimal digits. -/
def hexWord (w : UInt32) : String :=
  let digits := Nat.toDigits 16 w.toNat
  String.ofList ("0x".toList ++ List.replicate (8 - digits.length) '0' ++ digits)

namespace Fault

def message : Fault → String
  | .badMagic found => s!"not a FIL binary (magic {hexWord found})"
  | .unsupportedVersion version => s!"unsupported FIL version {version.display}"
  | .truncated offset => s!"unexpected end of input at byte {offset}"
  | .trailingBytes count => s!"{count} unexpected bytes after the end of the binary"
  | .badEntrypointKind value => s!"invalid entrypoint kind {value}"
  | .badQualifier value => s!"invalid parameter qualifier {value}"
  | .reservedTypes count => s!"the reserved types array has {count} entries"
  | .nameRange offset length size =>
    s!"name range {offset}+{length} is outside the {size}-byte string table"
  | .nameEncoding offset length => s!"name at {offset}+{length} is not valid UTF-8"
  | .codeRange offset length size =>
    s!"code range {offset}+{length} is outside the {size}-word code array"
  | .undefinedType number => s!"type {number} is not defined"
  | .callTarget index count => s!"call to function {index}, but only {count} are defined"
  | .unknownOpcode opcode offset => s!"unknown opcode {opcode} at word {offset}"
  | .malformedInstruction offset => s!"malformed instruction at word {offset}"

/-- The identifier under which a fault is documented. -/
def code : Fault → String
  | .badMagic _ => "fil::il::bad_magic"
  | .unsupportedVersion _ => "fil::il::unsupported_version"
  | .truncated _ => "fil::il::truncated"
  | .trailingBytes _ => "fil::il::trailing_bytes"
  | .badEntrypointKind _ => "fil::il::entrypoint_kind"
  | .badQualifier _ => "fil::il::qualifier"
  | .reservedTypes _ => "fil::il::reserved_types"
  | .nameRange .. => "fil::il::string_range"
  | .nameEncoding .. => "fil::il::name_encoding"
  | .codeRange .. => "fil::il::code_range"
  | .undefinedType _ => "fil::il::unresolved_type"
  | .callTarget .. => "fil::il::call_target"
  | .unknownOpcode .. => "fil::il::unknown_opcode"
  | .malformedInstruction _ => "fil::il::malformed_instruction"

/-- Advice on a fault. -/
def help? : Fault → Option String
  | .unsupportedVersion _ => some "this reader understands major version 1"
  | _ => none

end Fault

end Shading.Binary

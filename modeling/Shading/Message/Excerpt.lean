import Shading.Message.Basic

/-! # Excerpts

An excerpt is a message together with the text it is about, and the part of that text to mark. -/

namespace Shading

/-- A message with the text it is about. -/
structure Excerpt where
  severity : Severity
  text : String
  /-- What to write at the marked part. -/
  label : String
  /-- The first byte of the marked part and its length in bytes. -/
  marked? : Option (Nat × Nat)
  /-- The name of the file. -/
  path : String
  source : String
deriving DecidableEq, Repr, Inhabited

namespace Excerpt

/-- The part of a text of the given size that lies under a stretch of bytes. -/
def clamp (offset length size : Nat) : Nat × Nat :=
  let start := min offset size
  (start, min (offset + length) size - start)

/-- The excerpt for a message about a file.  Without a text, or if the span goes over several files,
nothing is marked. -/
def ofMessage (m : Message) (path : String) (source? : Option String) : Excerpt where
  severity := m.severity
  text := m.text
  label := match m.severity with
    | .error => "error here"
    | .warning => "warning here"
  marked? := match source? with
    | some source =>
      let (offset, length) := m.span.labelled
      if m.span.isSingleFile then some (clamp offset length source.utf8ByteSize) else none
    | none => none
  path
  source := source?.getD ""

/-- The excerpt as text: the message, and where to look. -/
def render (e : Excerpt) : String :=
  let place := match e.marked? with
    | some (offset, length) => s!"[{offset}+{length}] {e.label}"
    | none => "no source"
  s!"{Named.name e.severity}: {e.text}\n  {e.path} {place}\n"

end Excerpt

end Shading

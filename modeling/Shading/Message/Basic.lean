import Shading.Basic
import Shading.Source.Point

/-! # Messages

A stage never stops at the first problem: it reports a `Message` and goes on.  Whether what it made
can be trusted is decided afterwards by looking for errors among its messages. -/

namespace Shading

/-- How grave a message is. -/
inductive Severity where
  | warning
  | error
deriving DecidableEq, Repr, Inhabited

instance : Named Severity where
  all := [.warning, .error]
  name
    | .warning => "Warning"
    | .error => "Error"

/-- A remark about a span of source text, with the point in it to look at. -/
structure Message where
  severity : Severity
  span : Span
  point : Point
  text : String
deriving DecidableEq, Repr, Inhabited

namespace Message

/-- An error that points at the start of a span. -/
def error (span : Span) (text : String) : Message := ⟨.error, span, span.start, text⟩

/-- A warning that points at the start of a span. -/
def warning (span : Span) (text : String) : Message := ⟨.warning, span, span.start, text⟩

def isError (m : Message) : Bool := m.severity == .error

end Message

/-- How many errors and warnings have been reported. -/
structure Tally where
  errors : Nat := 0
  warnings : Nat := 0
deriving DecidableEq, Repr, Inhabited

namespace Tally

/-- Counts one more message. -/
def add (t : Tally) (m : Message) : Tally :=
  match m.severity with
  | .error => { t with errors := t.errors + 1 }
  | .warning => { t with warnings := t.warnings + 1 }

/-- There was an error. -/
def errored (t : Tally) : Bool := 0 < t.errors

/-- The counts of a list of messages. -/
def ofMessages (messages : List Message) : Tally := messages.foldl add {}

end Tally

end Shading

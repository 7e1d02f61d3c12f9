import Shading.Config.Settings
import Shading.Files.Search
import Shading.Message.Excerpt
import Shading.Message.Render

/-! # Sessions

A command works on the files and writes to two streams.  If it fails, what it has written stays. -/

namespace Shading

/-- How messages are shown. -/
inductive Style where
  /-- A line of text, and the source line with the place underlined. -/
  | plain
  /-- The message with an excerpt of the source. -/
  | fancy
deriving DecidableEq, Repr, Inhabited

instance : Named Style where
  all := [.plain, .fancy]
  name
    | .plain => "plain"
    | .fancy => "fancy"

/-- What messages are about. -/
inductive Origin where
  | sources (map : SourceMap)
  /-- A binary, of which only the name can be shown. -/
  | binary (name : String)

/-- A message as it is shown. -/
def Origin.render (origin : Origin) (style : Style) (m : Message) : String :=
  match style, origin with
  | .plain, .sources map => m.render map.listing
  | .plain, .binary name => m.render (Listing.unlined name)
  | .fancy, .sources map =>
    let file := m.span.start.file
    (Excerpt.ofMessage m ((map.name? file).getD unknownFile) (map.text? file)).render
  | .fancy, .binary name => (Excerpt.ofMessage m name none).render

/-- The files, and what has been written to the streams. -/
structure Session where
  files : FileSystem
  style : Style := .plain
  out : String := ""
  err : String := ""
deriving Inhabited

namespace Session

/-- Writes to the first stream. -/
def print (s : Session) (text : String) : Session := { s with out := s.out ++ text }

/-- Shows a message: a warning on the first stream, an error on the second. -/
def showMessage (s : Session) (origin : Origin) (m : Message) : Session :=
  let text := origin.render s.style m ++ "\n"
  if m.isError then { s with err := s.err ++ text } else s.print text

/-- Shows messages in order. -/
def showMessages (s : Session) (origin : Origin) (messages : List Message) : Session :=
  messages.foldl (fun s m => s.showMessage origin m) s

end Session

/-- A step of a command. -/
abbrev Action := ExceptT Report (StateM Session)

end Shading

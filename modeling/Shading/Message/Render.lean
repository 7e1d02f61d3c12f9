import Shading.Message.Basic
import Shading.Source.Map

/-! # Messages as plain text

A rendered message is a header line, and below it the source line with an underline: a caret at the
point to look at and tildes under the rest of the span.  Points count bytes; what is shown counts
characters.  Only a span within one line of one file is underlined, any other span gets a note. -/

namespace Shading

/-- What rendering needs to know about the files: their names and their lines. -/
structure Listing where
  name? : Nat → Option String
  line? : Nat → Nat → Option String

/-- The listing of source files. -/
def SourceMap.listing (map : SourceMap) : Listing := ⟨map.name?, map.line?⟩

/-- A single input that has a name but no lines. -/
def Listing.unlined (name : String) : Listing := ⟨fun _ => some name, fun _ _ => none⟩

/-- The name shown for a file that is not known. -/
def unknownFile : String := "<unknown>"

/-- The number of characters that start at a byte offset from `start` up to but not including
`stop`, where the first character stands at `offset`. -/
def charsBetween (offset start stop : Nat) : List Char → Nat
  | [] => 0
  | c :: cs =>
    (if start ≤ offset ∧ offset < stop then 1 else 0) +
      charsBetween (offset + c.utf8Size) start stop cs

/-- The columns shown for the bytes from `start` up to `stop`: one for each character that starts
there and one for each byte past the end of the line. -/
def shownColumns (line : String) (start stop : Nat) : Nat :=
  if stop ≤ start then 0
  else charsBetween 0 start stop line.toList + (stop - max start line.utf8ByteSize)

/-- The characters that make up exactly the first `bytes` bytes; `none` if a character straddles
the end or there are not enough. -/
def takeBytes? : List Char → Nat → Option (List Char)
  | _, 0 => some []
  | [], _ + 1 => none
  | c :: cs, n + 1 =>
    if c.utf8Size ≤ n + 1 then (takeBytes? cs (n + 1 - c.utf8Size)).map (c :: ·) else none

/-- The blanks under the part of a line before byte `start`.  Tabs are kept, so that the underline
stays aligned. -/
def margin (line : String) (start : Nat) : List Char :=
  let size := line.utf8ByteSize
  let covered := (takeBytes? line.toList (min start size)).getD []
  covered.map (fun c => if c = '\t' then '\t' else ' ') ++ List.replicate (start - size) ' '

namespace Message

/-- File, line and column counted from one, severity and text. -/
def header (m : Message) (files : Listing) : String :=
  let file := (files.name? m.point.file).getD unknownFile
  let column := match files.line? m.point.file m.point.line with
    | some line => shownColumns line 0 m.point.column
    | none => m.point.column
  s!"{file} {following m.point.line}:{column + 1} {Named.name m.severity}: {m.text}"

/-- The marks under a line: tildes from byte `start` on, a caret at byte `focus`, and tildes up to
and including byte `last`. -/
def underline (line : String) (start focus last : Nat) : String :=
  let before := shownColumns line start focus
  let after := shownColumns line focus (last + 1) - 1
  let marks := List.replicate before '~' ++ ['^'] ++ List.replicate after '~'
  String.ofList (margin line start ++ marks)

/-- The message as plain text, without a line break at the end. -/
def render (m : Message) (files : Listing) : String :=
  let header := m.header files
  if !m.span.isSingleFile then
    header ++ "\nnote: rendering a span across multiple files is not supported"
  else if !m.span.isSingleLine then
    header ++ "\nnote: rendering a span across multiple lines is not supported"
  else
    match files.line? m.span.start.file m.span.start.line with
    | none => header
    | some line =>
      let start := m.span.start.column
      let last := m.span.last.column
      let focus := min (max m.point.column start) last
      header ++ "\n" ++ line ++ "\n" ++ underline line start focus last

end Message

end Shading

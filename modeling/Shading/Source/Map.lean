import Shading.Source.Point

/-! # The source files of a run

A `SourceMap` is the list of files seen so far.  A file's number is its place in the list, and
files are only ever added at the end, so numbers stay valid. -/

namespace Shading

/-- A source file: the name it was asked for by, and its text. -/
structure SourceFile where
  name : String
  text : String
deriving DecidableEq, Repr, Inhabited

/-- The source files of a run, in the order in which they were added. -/
structure SourceMap where
  files : List SourceFile := []
deriving DecidableEq, Repr, Inhabited

/-- Splits text at line breaks; the text after the last break is a line too. -/
def splitLines : List Char → List (List Char)
  | [] => [[]]
  | c :: cs =>
    if c = '\n' then [] :: splitLines cs
    else
      match splitLines cs with
      | [] => [[c]]
      | line :: lines => (c :: line) :: lines

/-- A line without the carriage return that may end it. -/
def dropReturn (line : List Char) : List Char :=
  if line.getLast? = some '\r' then line.dropLast else line

namespace SourceMap

/-- Adds a file at the end; the result's second part is its number. -/
def add (map : SourceMap) (name text : String) : SourceMap × Nat :=
  (⟨map.files ++ [⟨name, text⟩]⟩, map.files.length)

/-- The file with a given number. -/
def get? (map : SourceMap) (file : Nat) : Option SourceFile := map.files[file]?

def text? (map : SourceMap) (file : Nat) : Option String := (map.get? file).map (·.text)

def name? (map : SourceMap) (file : Nat) : Option String := (map.get? file).map (·.name)

/-- The names of all files, in order. -/
def names (map : SourceMap) : List String := map.files.map (·.name)

/-- The text of one line, without its line break. -/
def line? (map : SourceMap) (file line : Nat) : Option String := do
  let text ← map.text? file
  let chars ← (splitLines text.toList)[line]?
  return String.ofList (dropReturn chars)

end SourceMap

end Shading

import Shading.Command.Arguments

/-! # The program

A command line is carried out on a model of the files it looks at.  The model is filled from the
machine first: the paths that are looked at are fetched, and since a fetched file may lead to
further paths, this goes on until there are none.  Then the streams and the changed files are
written. -/

namespace Shading

/-- What stands at a place of the machine.  Of a directory, only that it is one. -/
def inspect (place : List String) : IO (Option FileTree) := do
  let path := (← IO.currentDir) / FileSystem.canonicalText place
  if ← path.isDir then return some (.directory [])
  try return some (.file (← IO.FS.readBinFile path).toList)
  catch _ => return none

/-- Fetches what stands at a place, unless it is known. -/
def fetchPlace (files : FileSystem) (place : List String) : IO FileSystem := do
  if (files.root.at? place).isSome then return files
  match ← inspect place with
  | some tree => return { files with root := .put tree place files.root }
  | none => return files

/-- The places on the way along parts of a path, from a place. -/
def placesAlong (place : List String) : List (List Char) → List (List String)
  | [] => [place]
  | part :: rest =>
    let next :=
      if Path.isIdle part then place
      else if part = ['.', '.'] then place.dropLast
      else place ++ [String.ofList part]
    place :: placesAlong next rest

/-- Fetches what stands along a path. -/
def fetchPath (files : FileSystem) (path : String) : IO FileSystem :=
  (placesAlong (files.start path) (Path.parts path.toList)).foldlM fetchPlace files

/-- Fetches everything at which a command line looks, given the paths fetched before. -/
partial def fetchAll (arguments : List String) (known : List String) (files : FileSystem) :
    IO FileSystem := do
  let new := (CommandLine.consulted files arguments).filter fun path => !known.contains path
  if new.isEmpty then return files
  fetchAll arguments (new ++ known) (← new.foldlM fetchPath files)

/-- Carries out a command line on the files of the machine; the result is the exit code. -/
def runHere (arguments : List String) : IO UInt32 := do
  let here := Path.parts (← IO.currentDir).toString.toList
  let workingDirectory := (here.filter (!Path.isIdle ·)).map String.ofList
  let empty : FileSystem := { workingDirectory }
  let files ← fetchAll arguments [] (← fetchPath empty ".")
  let outcome := CommandLine.run files arguments
  (← IO.getStdout).putStr outcome.out
  (← IO.getStderr).putStr outcome.err
  for (place, bytes) in FileTree.changedFiles files.root outcome.files.root do
    IO.FS.writeBinFile (FileSystem.canonicalText place) ⟨bytes.toArray⟩
  return outcome.exitCode.toUInt32

end Shading

def main (arguments : List String) : IO UInt32 := Shading.runHere arguments

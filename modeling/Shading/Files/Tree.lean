import Shading.Basic
import Shading.Files.Path

/-! # Files

A file system is a finite tree of directories and files, looked at from a working directory.  Paths
are walked part by part from the working directory or the root, and every part but the last has to
be a directory. -/

namespace Shading

/-- Why an operation on a file fails. -/
inductive FileError where
  | notFound
  | notADirectory
  | isADirectory
  | nameTooLong
  /-- The path holds a character that no path can hold. -/
  | zeroInPath
  /-- The file was to be read as text, and is none. -/
  | notText
deriving DecidableEq, Repr, Inhabited

def FileError.message : FileError → String
  | .notFound => "No such file or directory (os error 2)"
  | .notADirectory => "Not a directory (os error 20)"
  | .isADirectory => "Is a directory (os error 21)"
  | .nameTooLong => "File name too long (os error 36)"
  | .zeroInPath => "file name contained an unexpected NUL byte"
  | .notText => "stream did not contain valid UTF-8"

/-- A file or a directory. -/
inductive FileTree where
  | file (bytes : List UInt8)
  | directory (entries : List (String × FileTree))
deriving Inhabited

namespace FileTree

def isDirectory : FileTree → Bool
  | .file _ => false
  | .directory _ => true

/-- What a directory holds under a name. -/
def child? : FileTree → String → Option FileTree
  | .file _, _ => none
  | .directory entries, name => entries.lookup name

/-- What is found by following names downwards. -/
def at? (t : FileTree) : List String → Option FileTree
  | [] => some t
  | name :: names => (t.child? name).bind (at? · names)

/-- Puts a file or directory where names lead to; directories on the way are made. -/
def put (new : FileTree) : List String → FileTree → FileTree
  | [], _ => new
  | name :: names, t =>
    let entries := match t with
      | .file _ => []
      | .directory entries => entries
    let below := put new names ((entries.lookup name).getD (.directory []))
    .directory ((name, below) :: entries.filter fun (other, _) => other != name)

mutual

/-- The files of a tree, with the names that lead to them. -/
def files : FileTree → List (List String × List UInt8)
  | .file bytes => [([], bytes)]
  | .directory entries => filesWithin entries

/-- The files in a directory. -/
def filesWithin : List (String × FileTree) → List (List String × List UInt8)
  | [] => []
  | (name, t) :: rest =>
    t.files.map (fun (place, bytes) => (name :: place, bytes)) ++ filesWithin rest

end

/-- There is a file with these bytes at a place. -/
def hasFile (t : FileTree) (place : List String) (bytes : List UInt8) : Bool :=
  match t.at? place with
  | some (.file found) => found == bytes
  | _ => false

/-- The files that are new in a tree or have other bytes than before. -/
def changedFiles (before after : FileTree) : List (List String × List UInt8) :=
  after.files.filter fun (place, bytes) => !before.hasFile place bytes

end FileTree

/-- Everything that paths can lead to. -/
structure FileSystem where
  root : FileTree := .directory []
  /-- The names from the root down to the working directory. -/
  workingDirectory : List String := []
deriving Inhabited

namespace FileSystem

/-- The bytes that a file name may have. -/
def nameLimit : Nat := 255

/-- The bytes that a path may have. -/
def pathLimit : Nat := 4095

/-- The path can be walked part by part. -/
def checkText (path : String) : Except FileError Unit :=
  if path.toList.contains '\x00' then .error .zeroInPath
  else if path.isEmpty then .error .notFound
  else .ok ()

/-- The path can be walked as a whole. -/
def checkPath (path : String) : Except FileError Unit := do
  checkText path
  if pathLimit < path.utf8ByteSize then throw .nameTooLong

/-- The place where the walk along a path begins. -/
def start (fs : FileSystem) (path : String) : List String :=
  if Path.isAbsolute path then [] else fs.workingDirectory

def isDirectoryAt (fs : FileSystem) (place : List String) : Bool :=
  (fs.root.at? place).any FileTree.isDirectory

/-- Follows one part of a path from a place. -/
def step (fs : FileSystem) (place : List String) (part : List Char) :
    Except FileError (List String) :=
  let name := String.ofList part
  if !fs.isDirectoryAt place then .error .notADirectory
  else if Path.isIdle part then .ok place
  else if part = ['.', '.'] then .ok place.dropLast
  else if nameLimit < name.utf8ByteSize then .error .nameTooLong
  else if (fs.root.at? (place ++ [name])).isSome then .ok (place ++ [name])
  else .error .notFound

/-- Follows a path part by part.  Something is at the place where it ends. -/
def walk (fs : FileSystem) (path : String) : Except FileError (List String) := do
  checkText path
  (Path.parts path.toList).foldlM fs.step (fs.start path)

/-- The place that a path leads to; something is there. -/
def resolve (fs : FileSystem) (path : String) : Except FileError (List String) := do
  checkPath path
  fs.walk path

/-- A place as a path without idle parts. -/
def canonicalText (place : List String) : String := "/" ++ "/".intercalate place

/-- The path from the root to the place that a path leads to.  The path may have any length, since
it is not walked as a whole. -/
def canonical (fs : FileSystem) (path : String) : Except FileError String := do
  return canonicalText (← fs.walk path)

/-- There is something at a path. -/
def isThere (fs : FileSystem) (path : String) : Except FileError Bool :=
  match fs.resolve path with
  | .ok _ => .ok true
  | .error .notFound => .ok false
  | .error e => .error e

/-- The bytes of a file. -/
def read (fs : FileSystem) (path : String) : Except FileError (List UInt8) := do
  let place ← fs.resolve path
  match fs.root.at? place with
  | some (.file bytes) => return bytes
  | some (.directory _) => throw .isADirectory
  | none => throw .notFound

/-- The text of a file. -/
def readText (fs : FileSystem) (path : String) : Except FileError String := do
  match Text.ofUtf8? (← fs.read path) with
  | some text => return text
  | none => throw .notText

/-- The place of a file that is to be written.  The file need not be there, but its directory. -/
def writePlace (fs : FileSystem) (path : String) : Except FileError (List String) := do
  checkPath path
  let parts := Path.parts path.toList
  match parts.reverse.dropWhile (·.isEmpty) with
  | [] => throw .isADirectory
  | last :: before =>
    if last = ['.'] || last = ['.', '.'] then
      let _ ← fs.resolve path
      throw .isADirectory
    let directory ← before.reverse.foldlM fs.step (fs.start path)
    let name := String.ofList last
    if !fs.isDirectoryAt directory then throw .notADirectory
    if parts.getLast? = some [] then throw .isADirectory
    if nameLimit < name.utf8ByteSize then throw .nameTooLong
    if fs.isDirectoryAt (directory ++ [name]) then throw .isADirectory
    return directory ++ [name]

/-- Writes a file, over an old one at the same place. -/
def write (fs : FileSystem) (path : String) (bytes : List UInt8) : Except FileError FileSystem := do
  let place ← fs.writePlace path
  return { fs with root := .put (.file bytes) place fs.root }

end FileSystem

end Shading

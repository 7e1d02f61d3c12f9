import Shading.Files.Tree
import Shading.Include.Expansion

/-! # Searching for includes

The target of an include is looked for in a list of directories.  The first one that has it counts;
a file there that cannot be read is not passed over. -/

namespace Shading

/-- Directories in which includes are looked for, in order. -/
structure SearchPath where
  directories : List String := []
deriving DecidableEq, Repr, Inhabited

namespace SearchPath

/-- Looks next to a file first. -/
def besides (file : String) (directories : List String) : SearchPath :=
  ⟨Path.directory file :: directories⟩

/-- The paths at which a target may be. -/
def candidates (s : SearchPath) (target : String) : List String :=
  if Path.isAbsolute target then [target] else s.directories.map (Path.join · target)

/-- The text at the first of some paths where something is. -/
def readFirst (fs : FileSystem) : List String → Except ReadError String
  | [] => .error .notFound
  | path :: rest =>
    match fs.readText path with
    | .ok text => .ok text
    | .error .notFound => readFirst fs rest
    | .error e => .error (.failed e.message)

def read (s : SearchPath) (fs : FileSystem) (target : String) : Except ReadError String :=
  readFirst fs (s.candidates target)

/-- The canonical path of the target, or the target itself if it is nowhere. -/
def includeKey (s : SearchPath) (fs : FileSystem) (target : String) : String :=
  ((s.candidates target).findSome? fun path => (fs.canonical path).toOption).getD target

/-- The canonical path of a file, or the path itself if it is nowhere. -/
def rootKey (fs : FileSystem) (path : String) : String :=
  ((fs.canonical path).toOption).getD path

/-- The file system as seen by include directives. -/
def reader (s : SearchPath) (fs : FileSystem) : Reader where
  read := s.read fs
  includeKey := s.includeKey fs
  rootKey := rootKey fs

end SearchPath

end Shading

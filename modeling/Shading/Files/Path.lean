/-! # Paths

A path is a text whose parts are divided by slashes.  Empty parts and parts `.` mean nothing, except
that a path may begin with `.`; operations leave them as they are written wherever they can. -/

namespace Shading.Path

/-- The parts of a text between slashes. -/
def parts : List Char → List (List Char)
  | [] => [[]]
  | c :: rest =>
    if c = '/' then [] :: parts rest
    else
      match parts rest with
      | [] => [[c]]
      | part :: more => (c :: part) :: more

/-- The text with the given parts. -/
def ofParts (parts : List (List Char)) : List Char := List.intercalate ['/'] parts

/-- A part that names nothing. -/
def isIdle (part : List Char) : Bool := part = [] || part = ['.']

/-- A path cut into its beginning and the rest.  The beginning is a slash, a part `.`, or empty. -/
def beginning : List Char → List Char × List Char
  | '/' :: rest => (['/'], rest)
  | ['.'] => (['.'], [])
  | '.' :: '/' :: rest => (['.'], '/' :: rest)
  | path => ([], path)

def isAbsolute (path : String) : Bool := path.toList.head? == some '/'

/-- A path up to its last part. -/
structure Split where
  beginning : List Char
  /-- The parts before the last, from the last on. -/
  before : List (List Char)
  /-- The last part that names something. -/
  last? : Option (List Char)
deriving DecidableEq, Repr, Inhabited

def split (path : String) : Split :=
  let (start, rest) := beginning path.toList
  match (parts rest).reverse.dropWhile isIdle with
  | [] => ⟨start, [], none⟩
  | last :: before => ⟨start, before, some last⟩

/-- The directory of a path.  The root and the empty path have none. -/
def parent? (path : String) : Option String :=
  let s := split path
  match s.last? with
  | some _ => some (String.ofList (s.beginning ++ ofParts (s.before.dropWhile isIdle).reverse))
  | none => if s.beginning = ['.'] then some "" else none

/-- The directory of a path, or the empty path. -/
def directory (path : String) : String := (parent? path).getD ""

/-- A path seen from a directory.  An absolute path is the same from everywhere. -/
def join (directory path : String) : String :=
  if isAbsolute path then path
  else if directory.isEmpty || directory.toList.getLast? == some '/' then directory ++ path
  else directory ++ "/" ++ path

/-- A file name cut at its last dot, unless that is its first character. -/
def cutName (name : List Char) : List Char × Option (List Char) :=
  let extension := (name.reverse.takeWhile (· ≠ '.')).reverse
  let stem := name.take (name.length - extension.length - 1)
  if stem.isEmpty then (name, none) else (stem, some extension)

/-- The file name of a path; the parts `.` and `..` are not names. -/
def fileName? (path : String) : Option (List Char) :=
  (split path).last?.filter (· ≠ ['.', '.'])

/-- What follows the last dot of the file name. -/
def extension? (path : String) : Option (List Char) :=
  (fileName? path).bind fun name => (cutName name).2

/-- The path with an extension after the stem of its file name. -/
def setExtension (path extension : String) : String :=
  match fileName? path with
  | none => path
  | some name =>
    let s := split path
    let stem := ofParts (((cutName name).1 :: s.before).reverse)
    String.ofList (s.beginning ++ stem) ++ "." ++ extension

/-- The path with another extension: the old one is cut off the end, then the new one is set. -/
def withExtension (path extension : String) : String :=
  let length := ((extension? path).getD []).length
  let cut := path.toList.take (path.length - length)
  setExtension (String.ofList cut) extension

end Shading.Path

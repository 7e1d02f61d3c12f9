import Shading.Message.Basic
import Shading.Source.Map
import Shading.Token.Scan

/-! # Expansion of include directives

A directive token is replaced by the tokens of the file it names, expanded in turn, or by nothing.
Files are told apart by the key that the reader gives them; a key is included at most once, so
cycles end without an error.  Include levels are counted down from `includeLevels`.

`Request.ofDirective` is what a directive asks for, `splice` what becomes of it, and `expandTokens`
the expansion of a whole token list. -/

namespace Shading

/-! ### Macros

A macro is a name that stands for the name of a file in an include directive.  The table is kept in
the order of the names, compared character by character. -/

/-- Macro names with what they stand for, in the order of the names. -/
structure MacroTable where
  entries : List (String × String) := []
deriving DecidableEq, Repr, Inhabited

namespace MacroTable

/-- Puts an entry in its place, over one of the same name. -/
def place (name target : String) : List (String × String) → List (String × String)
  | [] => [(name, target)]
  | entry :: rest =>
    if name < entry.1 then (name, target) :: entry :: rest
    else if name = entry.1 then (name, target) :: rest
    else entry :: place name target rest

/-- Defines a macro; an earlier meaning is forgotten. -/
def define (table : MacroTable) (name target : String) : MacroTable :=
  ⟨place name target table.entries⟩

/-- What a macro stands for. -/
def get? (table : MacroTable) (name : String) : Option String :=
  (table.entries.find? fun entry => entry.1 == name).map (·.2)

/-- The table with the given definitions, made in order. -/
def ofList (definitions : List (String × String)) : MacroTable :=
  definitions.foldl (fun table (name, target) => table.define name target) {}

end MacroTable

/-! ### Files -/

/-- Why a file could not be read. -/
inductive ReadError where
  | notFound
  | failed (reason : String)
deriving DecidableEq, Repr, Inhabited

/-- The wording of a read error. -/
def ReadError.message : ReadError → String
  | .notFound => "no such file"
  | .failed reason => reason

/-- Where included files come from. -/
structure Reader where
  /-- The text of the file with this name. -/
  read : String → Except ReadError String
  /-- The key of an include target. -/
  includeKey : String → String := id
  /-- The key of a file that includes are expanded for. -/
  rootKey : String → String := id

/-- A question put to the reader. -/
inductive Query where
  | rootKey (name : String)
  | includeKey (name : String)
  | read (name : String)
deriving DecidableEq, Repr, Inhabited

namespace Include

/-- What can be wrong with a directive. -/
inductive Problem where
  | missingName
  | unknownDirective (name : String)
  | missingTarget
  | surplusArguments
  | undefinedMacro
  | tooDeep
  | unreadable (target : String) (cause : ReadError)
deriving DecidableEq, Repr, Inhabited

namespace Problem

def text : Problem → String
  | .missingName => "Expected identifier"
  | .unknownDirective name => "Unknown preprocessor directive \"" ++ name ++ "\""
  | .missingTarget => "Expected string or identifier"
  | .surplusArguments => "Unused"
  | .undefinedMacro => "Macro has not been defined"
  | .tooDeep => "Include nesting is too deep"
  | .unreadable target cause => "Could not read \"" ++ target ++ "\": " ++ cause.message

/-- Unknown directives and surplus arguments are let pass. -/
def severity : Problem → Severity
  | .unknownDirective _ | .surplusArguments => .warning
  | _ => .error

/-- The message about a problem at a span. -/
def message (problem : Problem) (span : Span) : Message :=
  ⟨problem.severity, span, span.start, problem.text⟩

end Problem

/-- A file to include, and the span of the argument that names it. -/
structure Target where
  name : String
  place : Span
deriving DecidableEq, Repr, Inhabited

/-- What a directive asks for, and the messages about the way it asks. -/
structure Request where
  target? : Option Target
  messages : List Message
deriving DecidableEq, Repr, Inhabited

namespace Request

/-- Asks for nothing, with one problem to report. -/
def rejected (problem : Problem) (span : Span) : Request := ⟨none, [problem.message span]⟩

/-- What the argument of an include directive names: a string its text, an identifier the target of
the macro. -/
def ofArgument (macros : MacroTable) (argument : Token) : Request :=
  match argument.kind with
  | .string => ⟨some ⟨argument.text, argument.span⟩, []⟩
  | .identifier =>
    match macros.get? argument.text with
    | some name => ⟨some ⟨name, argument.span⟩, []⟩
    | none => rejected .undefinedMacro argument.span
  | _ => rejected .missingTarget argument.span

/-- The warning about the arguments after the first. -/
def surplus : List Token → List Message
  | [] => []
  | first :: rest =>
    let last := rest.getLast?.getD first
    [Problem.surplusArguments.message (first.span.merge last.span)]

/-- What an include directive with these arguments asks for. -/
def ofArguments (macros : MacroTable) (directive : Token) : List Token → Request
  | [] => rejected .missingTarget (Span.single directive.span.last.nextColumn)
  | argument :: rest =>
    let request := ofArgument macros argument
    { request with messages := surplus rest ++ request.messages }

/-- The text of a directive after the number sign, which is a single byte.  There is none in a text
that starts otherwise. -/
def body (directive : Token) : String :=
  match directive.text.toList with
  | [] => ""
  | sign :: rest => if sign.utf8Size = 1 then String.ofList rest else ""

/-- The tokens of a directive after the number sign. -/
def parts (directive : Token) : List Token :=
  Token.scan (body directive) directive.span.start.nextColumn ClassSet.withoutComments

/-- What a directive asks for. -/
def ofDirective (macros : MacroTable) (directive : Token) : Request :=
  match parts directive with
  | [] => rejected .missingName (Span.single directive.span.start)
  | name :: arguments =>
    if name.kind ≠ .identifier then rejected .missingName name.span
    else if name.text = "include" then ofArguments macros directive arguments
    else rejected (.unknownDirective name.text) name.span

end Request

/-- How many include levels there are below the root. -/
def includeLevels : Nat := 64

/-- What stays the same during an expansion. -/
structure Setting where
  reader : Reader
  macros : MacroTable
  /-- The token classes that are kept of included files. -/
  keep : ClassSet

/-- What an expansion has done so far. -/
structure Progress where
  sources : SourceMap := {}
  /-- The keys of the roots and of the included files. -/
  included : List String := []
  messages : List Message := []
  /-- The questions put to the reader, in order. -/
  queries : List Query := []
deriving Repr, Inhabited

abbrev Expand := StateM Progress

def report (messages : List Message) : Expand Unit :=
  modify fun p => { p with messages := p.messages ++ messages }

/-- Notes a question put to the reader. -/
def asked (query : Query) : Expand Unit :=
  modify fun p => { p with queries := p.queries ++ [query] }

/-- Marks a key as included. -/
def markIncluded (key : String) : Expand Unit :=
  modify fun p => { p with included := p.included ++ [key] }

/-- Adds a file and gives its tokens. -/
def addFile (setting : Setting) (name text : String) : Expand (List Token) := do
  let p ← get
  let (sources, file) := p.sources.add name text
  set { p with sources }
  return Token.scan text (Point.fileStart file) setting.keep

/-- Expands the file that a directive asks for.  `deeper` expands the tokens of an included file;
there is none when no include level is left. -/
def openTarget (setting : Setting) (deeper : Option (List Token → Expand (List Token)))
    (target : Target) : Expand (List Token) := do
  let key := setting.reader.includeKey target.name
  asked (.includeKey target.name)
  if key ∈ (← get).included then
    return []
  match deeper with
  | none =>
    report [Problem.tooDeep.message target.place]
    return []
  | some expand =>
    asked (.read target.name)
    match setting.reader.read target.name with
    | .error cause =>
      report [(Problem.unreadable target.name cause).message target.place]
      return []
    | .ok text =>
      markIncluded key
      expand (← addFile setting target.name text)

/-- What a directive token is replaced by. -/
def splice (setting : Setting) (deeper : Option (List Token → Expand (List Token)))
    (directive : Token) : Expand (List Token) := do
  let request := Request.ofDirective setting.macros directive
  report request.messages
  match request.target? with
  | none => return []
  | some target => openTarget setting deeper target

/-- Replaces each directive of a token list by what `replace` gives for it. -/
def expandWith (replace : Token → Expand (List Token)) : List Token → Expand (List Token)
  | [] => return []
  | t :: rest => do
    let here ← if t.kind = .directive then replace t else pure [t]
    let after ← expandWith replace rest
    return here ++ after

/-- Expands a token list with `levels` include levels left. -/
def expandTokens (setting : Setting) : (levels : Nat) → List Token → Expand (List Token)
  | 0 => expandWith (splice setting none)
  | levels + 1 => expandWith (splice setting (some (expandTokens setting levels)))

/-- Expands the tokens of a root file, which itself counts as included. -/
def expandRoot (setting : Setting) (file : Nat) (tokens : List Token) : Expand (List Token) := do
  if let some name := (← get).sources.name? file then
    asked (.rootKey name)
    markIncluded (setting.reader.rootKey name)
  expandTokens setting includeLevels tokens

end Include

end Shading

import Shading.Binary.Dump
import Shading.Command.Session
import Shading.Stage

/-! # Commands

Every command settles its settings, reads its input, runs the stages it needs and shows their
messages.  It ends with a `Status`, or with a `Report` if it could not do its work. -/

namespace Shading

/-- What to do. -/
inductive Command where
  /-- Show the tokens of a source file, with its includes expanded or not. -/
  | tokens (path : String) (expand : Bool)
  /-- Look for errors in a source file. -/
  | check (path : String)
  /-- Show the tree of a source file. -/
  | tree (path : String)
  /-- Make a module from a binary. -/
  | transpile (input : String) (output? : Option String)
  /-- Show the contents of a binary. -/
  | dump (path : String)
deriving DecidableEq, Repr, Inhabited

/-- How a command ended. -/
inductive Status where
  | success
  | failed (stage : Stage)
deriving DecidableEq, Repr, Inhabited

namespace Status

def exitCode : Status → Nat
  | .success => 0
  | .failed stage => stage.exitCode

end Status

namespace Command

/-- The file that a command reads. -/
def input : Command → String
  | .tokens path _ => path
  | .check path => path
  | .tree path => path
  | .transpile path _ => path
  | .dump path => path

def print (text : String) : Action Unit := modify (·.print text)

def showMessages (origin : Origin) (messages : List Message) : Action Unit :=
  modify (·.showMessages origin messages)

/-- The value of a computation that may end with a report. -/
def attempt {α : Type} (result : Except Report α) : Action α := ExceptT.mk (pure result)

/-- The value of an operation on files, or the report about its failure. -/
def attemptFile {α : Type} (report : FileError → Report) (result : Except FileError α) : Action α :=
  attempt (result.mapError report)

/-! ### Source files -/

/-- A source file with the settings for it. -/
structure SourceInput where
  settings : Settings
  sources : SourceMap
  file : Nat

def loadSource (path : String) (overrides : Overrides) : Action SourceInput := do
  let files := (← get).files
  let settings ← attempt (Settings.resolve files path overrides)
  let text ← attemptFile (.unreadableInput path) (files.readText path)
  let (sources, file) := SourceMap.add {} path text
  return ⟨settings, sources, file⟩

/-- Where the includes of a source file are looked for. -/
def searchPath (path : String) (settings : Settings) : SearchPath :=
  SearchPath.besides path settings.includePaths

/-- The tree of a source file; messages are shown. -/
def frontEndOf (path : String) (overrides : Overrides) : Action (Except Stage Node) := do
  let input ← loadSource path overrides
  let reader := (searchPath path input.settings).reader (← get).files
  let run := frontEnd reader input.settings.macros input.settings.comments input.sources input.file
  showMessages (.sources run.sources) run.messages
  return run.result

/-- A token with the file it comes from, on a line of its own. -/
def tokenLine (sources : SourceMap) (t : Token) : String :=
  (sources.name? t.span.start.file).getD unknownFile ++ " " ++ t.display ++ "\n"

def runTokens (path : String) (expand : Bool) (overrides : Overrides) : Action Status := do
  let input ← loadSource path overrides
  let scanned := tokenizeFile input.sources input.file input.settings.comments
  match scanned.result .tokenize with
  | .error stage =>
    showMessages (.sources input.sources) scanned.messages
    return .failed stage
  | .ok found =>
    if expand then
      let reader := (searchPath path input.settings).reader (← get).files
      let (expanded, sources) :=
        expandFile reader input.settings.macros input.sources input.file found
      showMessages (.sources sources) (scanned.messages ++ expanded.messages)
      match expanded.result .preprocess with
      | .error stage => return .failed stage
      | .ok found =>
        print (String.join (found.map (tokenLine sources)))
        return .success
    else
      showMessages (.sources input.sources) scanned.messages
      print (String.join (found.map (tokenLine input.sources)))
      return .success

def runCheck (path : String) (overrides : Overrides) : Action Status := do
  match ← frontEndOf path overrides with
  | .ok _ => return .success
  | .error stage => return .failed stage

def runTree (path : String) (overrides : Overrides) : Action Status := do
  match ← frontEndOf path overrides with
  | .ok root =>
    print root.outline
    return .success
  | .error stage => return .failed stage

/-! ### Binaries -/

def loadBinary (path : String) (settings : Settings) : Action Binary := do
  let bytes ← attemptFile (.unreadableInput path) ((← get).files.read path)
  attempt ((Binary.decode settings.strictness bytes).mapError (.undecodableInput path))

def runDump (path : String) (overrides : Overrides) : Action Status := do
  let settings ← attempt (Settings.resolve (← get).files path overrides)
  let binary ← loadBinary path settings
  print binary.dump
  attempt (binary.validate.mapError (.invalidInput path))
  return .success

/-- The file that a module is written to: the one asked for, or one next to the input. -/
def outputPath (input : String) (output? : Option String) : String :=
  output?.getD (Path.withExtension input "spv")

def runTranspile (input : String) (output? : Option String) (overrides : Overrides) :
    Action Status := do
  let settings ← attempt (Settings.resolve (← get).files input overrides)
  let binary ← loadBinary input settings
  let made := transpileBinary settings.lowering 0 binary
  showMessages (.binary input) made.messages
  match made.result .transpile with
  | .error stage => return .failed stage
  | .ok words =>
    let output := outputPath input output?
    let files ← attemptFile (.unwritableOutput output)
      ((← get).files.write output (Word.listBytes words))
    modify fun s => { s with files }
    return .success

/-! ### Running -/

/-- The steps of a command. -/
def action (overrides : Overrides) : Command → Action Status
  | .tokens path expand => runTokens path expand overrides
  | .check path => runCheck path overrides
  | .tree path => runTree path overrides
  | .transpile input output? => runTranspile input output? overrides
  | .dump path => runDump path overrides

/-- Runs a command: how it ended, and the session afterwards. -/
def run (command : Command) (overrides : Overrides) (session : Session) :
    Except Report Status × Session :=
  (action overrides command).run.run session

/-- The paths at which a source file and its includes are looked for, as far as the files show it.
-/
def consultedSources (path : String) (overrides : Overrides) (files : FileSystem) : List String :=
  match Settings.resolve files path overrides, files.readText path with
  | .ok settings, .ok text =>
    let search := searchPath path settings
    let (sources, file) := SourceMap.add {} path text
    let found := (tokenizeFile sources file settings.comments).value
    let setting := ⟨search.reader files, settings.macros, ClassSet.withoutComments⟩
    let progress := ((Include.expandRoot setting file found).run { sources }).2
    progress.queries.flatMap fun
      | .rootKey name => [name]
      | .includeKey name | .read name => search.candidates name
  | _, _ => []

/-- The paths at which a command looks, as far as the files show it. -/
def consulted (command : Command) (overrides : Overrides) (files : FileSystem) : List String :=
  let path := command.input
  let config := overrides.config?.getD (Path.join (Path.directory path) Config.fileName)
  let others := match command with
    | .transpile input output? => [outputPath input output?]
    | .dump _ => []
    | _ => consultedSources path overrides files
  config :: path :: others

end Command

end Shading

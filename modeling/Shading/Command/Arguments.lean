import Shading.Command.Basic

/-! # Command lines

A command line is options, the name of a command, then options and operands of the command.  An
option is written `--name`, `--name=value` or `--name value`; one with a short name also `-n`,
`-nvalue`, `-n=value` or `-n value`, and short options without values can stand together.  After
`--` only operands follow.

Options before the name of the command can also stand after it; if one stands in both places, the
later one counts.  No option with a single value, and no switch, stands twice in one place. -/

namespace Shading.CommandLine

/-- The name of a command. -/
inductive Verb where
  | tokens
  | check
  | tree
  | transpile
  | dump
deriving DecidableEq, Repr, Inhabited

instance : Named Verb where
  all := [.tokens, .check, .tree, .transpile, .dump]
  name
    | .tokens => "tokens"
    | .check => "check"
    | .tree => "ast"
    | .transpile => "transpile"
    | .dump => "il"

/-- An option. -/
inductive Switch where
  | verbose
  | diagnostics
  | config
  | includeDir
  | define
  | strict
  | comments
  | help
  | version
  | expand
  | output
deriving DecidableEq, Repr, Inhabited

namespace Switch

/-- The option with a long name. -/
def ofLong? : String → Option Switch
  | "verbose" => some .verbose
  | "diagnostics" => some .diagnostics
  | "config" => some .config
  | "strict" => some .strict
  | "comments" => some .comments
  | "help" => some .help
  | "version" => some .version
  | "expand" => some .expand
  | "output" => some .output
  | _ => none

/-- The option with a short name. -/
def ofShort? : Char → Option Switch
  | 'v' => some .verbose
  | 'I' => some .includeDir
  | 'D' => some .define
  | 'h' => some .help
  | 'V' => some .version
  | 'o' => some .output
  | _ => none

def takesValue : Switch → Bool
  | .diagnostics | .config | .includeDir | .define | .output => true
  | _ => false

/-- The option may stand after a command, or before any. -/
def allowed (verb? : Option Verb) : Switch → Bool
  | .version => verb?.isNone
  | .expand => verb? == some .tokens
  | .output => verb? == some .transpile
  | _ => true

end Switch

/-- Why a command line is not carried out. -/
inductive Stop where
  | misuse
  | help
  | version
deriving DecidableEq, Repr, Inhabited

/-- What is given in one place: before the command, or after it. -/
structure Given where
  style? : Option Style := none
  overrides : Overrides := {}
  expand : Bool := false
  output? : Option String := none
  operands : List String := []
deriving DecidableEq, Repr, Inhabited

namespace Given

/-- Takes note of an option without a value. -/
def setSwitch (g : Given) : Switch → Except Stop Given
  | .strict =>
    if g.overrides.strict then .error .misuse
    else .ok { g with overrides := { g.overrides with strict := true } }
  | .comments =>
    if g.overrides.comments then .error .misuse
    else .ok { g with overrides := { g.overrides with comments := true } }
  | .expand => if g.expand then .error .misuse else .ok { g with expand := true }
  | .verbose => .ok g
  | .help => .error .help
  | .version => .error .version
  | _ => .error .misuse

/-- Takes note of an option with a value. -/
def setValue (g : Given) (value : String) : Switch → Except Stop Given
  | .diagnostics =>
    match g.style?, Named.ofName? value with
    | none, some style => .ok { g with style? := some style }
    | _, _ => .error .misuse
  | .config =>
    if g.overrides.config?.isSome then .error .misuse
    else .ok { g with overrides := { g.overrides with config? := some value } }
  | .includeDir =>
    let overrides := { g.overrides with includeDirs := g.overrides.includeDirs ++ [value] }
    .ok { g with overrides }
  | .define =>
    let overrides := { g.overrides with define := g.overrides.define ++ [value] }
    .ok { g with overrides }
  | .output => if g.output?.isSome then .error .misuse else .ok { g with output? := some value }
  | _ => .error .misuse

/-- Takes note of an operand.  A command has one. -/
def addOperand (g : Given) (verb? : Option Verb) (operand : String) : Except Stop Given :=
  if verb?.isSome && g.operands.isEmpty then .ok { g with operands := [operand] }
  else .error .misuse

/-- Options before the command hold unless they stand after it too. -/
def merge (before after : Given) : Given :=
  let a := before.overrides
  let b := after.overrides
  { after with
    style? := after.style? <|> before.style?
    overrides := {
      config? := b.config? <|> a.config?
      includeDirs := if b.includeDirs.isEmpty then a.includeDirs else b.includeDirs
      define := if b.define.isEmpty then a.define else b.define
      strict := a.strict || b.strict
      comments := a.comments || b.comments } }

end Given

/-- Reads a long option, after the hyphens.  The second part of the result is an option that waits
for its value. -/
def readLong (verb? : Option Verb) (g : Given) (cs : List Char) :
    Except Stop (Given × Option Switch) := do
  let name := String.ofList (cs.takeWhile (· ≠ '='))
  match (Switch.ofLong? name).filter (Switch.allowed verb?), cs.dropWhile (· ≠ '=') with
  | none, _ => throw .misuse
  | some switch, [] =>
    if switch.takesValue then return (g, some switch) else return (← g.setSwitch switch, none)
  | some switch, _ :: value =>
    if switch.takesValue then return (← g.setValue (String.ofList value) switch, none)
    else throw .misuse

/-- Reads short options that stand together, after the hyphen. -/
def readShort (verb? : Option Verb) (g : Given) : List Char → Except Stop (Given × Option Switch)
  | [] => .ok (g, none)
  | c :: rest =>
    match (Switch.ofShort? c).filter (Switch.allowed verb?) with
    | none => .error .misuse
    | some switch =>
      if switch.takesValue then
        match rest with
        | [] => .ok (g, some switch)
        | '=' :: value => do return (← g.setValue (String.ofList value) switch, none)
        | value => do return (← g.setValue (String.ofList value) switch, none)
      else do
        readShort verb? (← g.setSwitch switch) rest

/-- Reads the arguments after the name of a command.  An option may be waiting for its value. -/
def readRest (verb : Verb) (g : Given) (waiting? : Option Switch) :
    List String → Except Stop Given
  | [] => if waiting?.isSome then .error .misuse else .ok g
  | argument :: rest => do
    match waiting?, argument.toList with
    | some _, '-' :: _ :: _ => throw .misuse
    | some switch, _ => readRest verb (← g.setValue argument switch) none rest
    | none, ['-', '-'] => rest.foldlM (·.addOperand (some verb) ·) g
    | none, '-' :: '-' :: cs =>
      let (g, waiting?) ← readLong (some verb) g cs
      readRest verb g waiting? rest
    | none, '-' :: c :: cs =>
      let (g, waiting?) ← readShort (some verb) g (c :: cs)
      readRest verb g waiting? rest
    | none, _ => readRest verb (← g.addOperand (some verb) argument) none rest

/-- What a command line asks for. -/
structure Invocation where
  command : Command
  overrides : Overrides
  style : Style
deriving DecidableEq, Repr, Inhabited

/-- The command with all that is given for it. -/
def invocation (verb : Verb) (g : Given) : Except Stop Invocation :=
  match g.operands with
  | [] => .error .misuse
  | path :: _ =>
    let command : Command := match verb with
      | .tokens => .tokens path g.expand
      | .check => .check path
      | .tree => .tree path
      | .transpile => .transpile path g.output?
      | .dump => .dump path
    .ok ⟨command, g.overrides, g.style?.getD .plain⟩

/-- What is said to a question for help, which may name a command. -/
def askHelp : List String → Stop
  | [] => .help
  | [name] => if name = "help" || (Named.ofName? (α := Verb) name).isSome then .help else .misuse
  | _ => .misuse

/-- Reads the arguments up to the name of a command, and then those after it. -/
def readArguments (g : Given) (waiting? : Option Switch) : List String → Except Stop Invocation
  | [] => .error .misuse
  | argument :: rest => do
    match waiting?, argument.toList with
    | some _, '-' :: _ :: _ => throw .misuse
    | some switch, _ => readArguments (← g.setValue argument switch) none rest
    | none, ['-', '-'] => throw .misuse
    | none, '-' :: '-' :: cs =>
      let (g, waiting?) ← readLong none g cs
      readArguments g waiting? rest
    | none, '-' :: c :: cs =>
      let (g, waiting?) ← readShort none g (c :: cs)
      readArguments g waiting? rest
    | none, _ =>
      match Named.ofName? (α := Verb) argument with
      | some verb => invocation verb (g.merge (← readRest verb {} none rest))
      | none => if argument = "help" then throw (askHelp rest) else throw .misuse

/-- Reads a command line. -/
def parse (arguments : List String) : Except Stop Invocation := readArguments {} none arguments

/-! ### Running -/

/-- What is said when help is asked for, or the command line cannot be read. -/
def usage : String :=
  "Usage: filc [OPTIONS] <COMMAND>\n\n" ++
  "Commands:\n" ++
  "  tokens [--expand] PATH            show the tokens of a source file\n" ++
  "  check PATH                        look for errors in a source file\n" ++
  "  ast PATH                          show the tree of a source file\n" ++
  "  transpile INPUT [-o FILE]         make a module from a binary\n" ++
  "  il PATH                           show the contents of a binary\n\n" ++
  "Options:\n" ++
  "  -v, --verbose                     say more\n" ++
  "      --diagnostics plain|fancy     how messages are shown\n" ++
  "      --config FILE                 configuration file\n" ++
  "  -I DIR                            look for includes in DIR\n" ++
  "  -D NAME=TARGET                    define an include macro\n" ++
  "      --strict                      refuse malformed binaries\n" ++
  "      --comments                    keep comments among the tokens\n"

def versionText : String := "filc 0.1.0\n"

/-- A report as it is shown. -/
def renderReport (r : Report) : String :=
  let cause := match r.cause? with
    | some cause => s!"  caused by: {cause}\n"
    | none => ""
  s!"Error: {r.message}\n" ++ cause

/-- What comes of a command line. -/
structure Outcome where
  exitCode : Nat
  out : String
  err : String
  files : FileSystem
  /-- The command line could not be read. -/
  misused : Bool := false

/-- The exit code of a command that could not do its work. -/
def failureCode : Nat := 1

/-- The exit code for a command line that cannot be read. -/
def misuseCode : Nat := 2

/-- Carries out a command line. -/
def run (files : FileSystem) (arguments : List String) : Outcome :=
  match parse arguments with
  | .error .misuse => ⟨misuseCode, "", usage, files, true⟩
  | .error .help => ⟨0, usage, "", files, false⟩
  | .error .version => ⟨0, versionText, "", files, false⟩
  | .ok invocation =>
    let (result, session) :=
      invocation.command.run invocation.overrides { files, style := invocation.style }
    match result with
    | .ok status => ⟨status.exitCode, session.out, session.err, session.files, false⟩
    | .error report =>
      ⟨failureCode, session.out, session.err ++ renderReport report, session.files, false⟩

/-- The paths at which a command line looks, as far as the files show it. -/
def consulted (files : FileSystem) (arguments : List String) : List String :=
  match parse arguments with
  | .ok invocation => invocation.command.consulted invocation.overrides files
  | .error _ => []

end Shading.CommandLine

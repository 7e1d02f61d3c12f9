import Shading.Binary.Decode
import Shading.Config.Basic
import Shading.Include.Expansion
import Shading.Lower.Program

/-! # Settings

The settings of a run come from the configuration file and then from the command line, which adds to
them or overrides them. -/

namespace Shading

/-- The settings on the command line. -/
structure Overrides where
  /-- A configuration file to read instead of the one next to the input. -/
  config? : Option String := none
  includeDirs : List String := []
  /-- Definitions of macros, as they are written. -/
  define : List String := []
  strict : Bool := false
  comments : Bool := false
deriving DecidableEq, Repr, Inhabited

/-- The settings of a run. -/
structure Settings where
  /-- The configuration file that was read. -/
  configPath? : Option String := none
  includePaths : List String := []
  macros : MacroTable := {}
  strictness : Binary.Strictness := .lenient
  comments : Bool := false
  lowering : Lower.Options := {}
deriving DecidableEq, Repr, Inhabited

/-- A definition cut at its first equals sign.  Both parts have to be there. -/
def cutDefinition? (definition : String) : Option (String × String) :=
  let cs := definition.toList
  let name := cs.takeWhile (· ≠ '=')
  let target := (cs.dropWhile (· ≠ '=')).drop 1
  if name.isEmpty || target.isEmpty then none else some (String.ofList name, String.ofList target)

namespace Settings

/-- The settings in a configuration file.  Its directories are seen from where it is. -/
def ofConfig (path : String) (config : Config) : Settings where
  configPath? := some path
  includePaths := config.includePaths.map (Path.join (Path.directory path))
  macros := MacroTable.ofList config.macros
  strictness := if config.strict then .strict else .lenient
  lowering := {
    version := (config.version?.bind Spirv.FormatVersion.parse?).getD .standard
    names := config.emitNames }

/-- Adds a definition of a macro. -/
def addDefinition (macros : MacroTable) (definition : String) : Except Report MacroTable :=
  match cutDefinition? definition with
  | some (name, target) => .ok (macros.define name target)
  | none => .error (.badDefinition definition)

/-- Adds the settings on the command line. -/
def override (s : Settings) (overrides : Overrides) : Except Report Settings := do
  let macros ← overrides.define.foldlM addDefinition s.macros
  return { s with
    includePaths := s.includePaths ++ overrides.includeDirs
    macros
    strictness := if overrides.strict then .strict else s.strictness
    comments := s.comments || overrides.comments }

/-- The settings for an input. -/
def resolve (fs : FileSystem) (input : String) (overrides : Overrides) :
    Except Report Settings := do
  let found ← match overrides.config? with
    | some path => do pure (some (path, ← Config.load fs path))
    | none => Config.find fs (Path.directory input)
  let settings := match found with
    | some (path, config) => ofConfig path config
    | none => {}
  settings.override overrides

end Settings

end Shading

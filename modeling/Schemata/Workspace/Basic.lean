import Schemata.ModuleSet.Basic
import Schemata.Settings.ModuleFile

/-!
# Workspaces

A workspace is a module set with the check settings of each module, the modules that its settings
depend on, and its plugins.
-/

namespace Schemata

open Settings

structure ModuleChecks where
  id : String
  lint : LintSettings
  breaking : BreakingSettings

/-- A module set with its settings. -/
structure Workspace where
  set : ModuleSet
  /-- The check settings, in the order of the modules. -/
  checks : List ModuleChecks
  deps : List ModuleRef
  plugins : List PluginSettings
  isV2 : Bool

namespace Workspace

/-- The check settings of the module with an ID. -/
def checksOf? (w : Workspace) (id : String) : Option ModuleChecks :=
  w.checks.find? fun c => c.id = id

end Workspace

/-- The check settings of a module: those of its settings, or the defaults of a version. -/
def ModuleChecks.ofModule (m : Module) (version : Version) : Option ModuleSettings → ModuleChecks
  | some s => ⟨m.id, s.lint, s.breaking⟩
  | none => ⟨m.id, .default version, .default version⟩

namespace Settings.ModuleFile

def named? (f : ModuleFile) (name : ModuleName) : Option ModuleSettings :=
  f.modules.find? fun m => m.name = some name

/-- The nameless settings of a directory, where there are settings of several modules. -/
def placed? (f : ModuleFile) (dir : String) : Option ModuleSettings :=
  if f.modules.length > 1 then f.modules.find? fun m => m.name.isNone && m.dir = dir else none

/-- The only settings, if they are nameless. -/
def only? (f : ModuleFile) : Option ModuleSettings :=
  match f.modules with
  | [m] => if m.name.isNone then some m else none
  | _ => none

/-- The settings that a file has for a module: by its name, by its directory, or its only ones. -/
def settingsFor? (f : ModuleFile) (name : Option ModuleName) (dir : Option String) :
    Option ModuleSettings :=
  name.bind f.named? <|> dir.bind f.placed? <|> f.only?

end Settings.ModuleFile

end Schemata

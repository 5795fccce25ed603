import Schemata.Settings.LockFile
import Schemata.Settings.ModuleFile
import Schemata.Settings.WorkFile
import Schemata.Text.Json

/-!
# Settings as JSON

What the settings files say, with all defaults filled in, as tools read it.
-/

namespace Schemata.Settings

open Text (Json)

def tableJson {α : Type} (json : α → Json) (t : Table α) : Json :=
  .object (t.entries.map fun e => (e.1, json e.2))

/-- The settings of a check as JSON, with one more field. -/
def CheckSettings.json (c : CheckSettings) (field : String × Bool) : Json :=
  .object [("version", .string c.version.text), ("use", .ofStrings c.use),
    ("except", .ofStrings c.except), ("ignore", .ofStrings c.ignore),
    ("ignore_only", tableJson .ofStrings c.ignoreOnly),
    ("disable_builtin", .bool c.disableBuiltin), (field.1, .bool field.2)]

def LintSettings.json (s : LintSettings) : Json :=
  s.checks.json ("allow_comment_ignores", s.allowCommentIgnores)

def BreakingSettings.json (s : BreakingSettings) : Json :=
  s.checks.json ("ignore_unstable_packages", s.ignoreUnstable)

def PluginKind.jsonName : PluginKind → String
  | .command => "Local"
  | .wasmFile => "LocalWasm"
  | .remote => "Remote"

def PluginSettings.json (p : PluginSettings) : Json :=
  .object [("type", .string p.kind.jsonName), ("name", .string p.name),
    ("args", .ofStrings p.args), ("options", tableJson .string p.options)]

def ModuleSettings.json (m : ModuleSettings) : Json :=
  .object [("dir", .string m.dir), ("name", .ofString? (m.name.map ModuleName.text)),
    ("roots", tableJson .ofStrings m.roots), ("lint", m.lint.json),
    ("breaking", m.breaking.json)]

def ModuleFile.json (f : ModuleFile) : Json :=
  .object [("version", .string f.version.text),
    ("modules", .array (f.modules.map ModuleSettings.json)),
    ("deps", .ofStrings (f.deps.map ModuleRef.text)),
    ("plugins", .array (f.plugins.map PluginSettings.json))]

def WorkFile.json (f : WorkFile) : Json :=
  .object [("version", .string f.version.text), ("dirs", .ofStrings f.dirs)]

def LockedModule.json (d : LockedModule) : Json :=
  .array [.string d.name.text, .string d.commit.text, .ofString? (d.digest.map Digest.text)]

/-- A lock file as JSON, with its text. -/
def LockFile.json (f : LockFile) : Json :=
  .object [("version", .string f.version.text), ("deps", .array (f.deps.map LockedModule.json)),
    ("text", .string f.text)]

end Schemata.Settings

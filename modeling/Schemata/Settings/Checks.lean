import Schemata.Settings.Error

/-!
# Settings of the checks

Which lint and breaking-change rules apply to a module, and which files they pass over. In older
versions the ignored paths are relative to the module, in v2 to the workspace; they are kept
relative to the module.
-/

namespace Schemata.Settings

structure CheckSettings where
  version : Version
  use : List String
  except : List String
  ignore : List String
  ignoreOnly : Table (List String)
  disableBuiltin : Bool

structure LintSettings where
  checks : CheckSettings
  allowCommentIgnores : Bool

structure BreakingSettings where
  checks : CheckSettings
  ignoreUnstable : Bool

def CheckSettings.using (version : Version) (use : List String) : CheckSettings :=
  ⟨version, use, [], [], .empty, false⟩

def LintSettings.default (version : Version) : LintSettings :=
  ⟨.using version [match version with
    | .v2 => "STANDARD"
    | .v1 | .v1beta1 => "DEFAULT"], false⟩

/-- The breaking-change settings of a module that has none. -/
def BreakingSettings.default (version : Version) : BreakingSettings :=
  ⟨.using version ["FILE"], false⟩

/-! ### Reading -/

structure CheckTable where
  use : Option (List String)
  except : List String
  ignore : List String
  ignoreOnly : Table (List String)
  disableBuiltin : Bool
  allowCommentIgnores : Bool
  ignoreUnstable : Bool

def CheckTable.read (v : Toml.Value) : Option CheckTable := do
  let [use, except, ignore, ignoreOnly, disable, comments, unstable] ← v.fields?
    ["use", "except", "ignore", "ignore_only", "disable_builtin", "allow_comment_ignores",
      "ignore_unstable_packages"]
    | none
  return {
    use := ← Toml.optional none (fun v => (strings v).map some) use
    except := ← Toml.optional [] strings except
    ignore := ← Toml.optional [] strings ignore
    ignoreOnly := Table.ofList (← Toml.optional [] (Toml.Value.entries? strings) ignoreOnly)
    disableBuiltin := ← Toml.optional false Toml.Value.flag? disable
    allowCommentIgnores := ← Toml.optional false Toml.Value.flag? comments
    ignoreUnstable := ← Toml.optional false Toml.Value.flag? unstable }

/-- The normal forms of paths; with a module directory, only of those it covers, as seen from
there. -/
def rebase (file : String) (dir : Option String) (paths : List String) :
    Except Error (List String) :=
  match dir with
  | none => paths.mapM (normalizeIn file)
  | some dir => do
    let paths ← paths.mapM (normalizeIn file)
    return paths.filterMap fun path => (Path.relative dir path).toOption

/-- The settings that a table stands for, with default rules where it names none. -/
def CheckTable.settings (t : CheckTable) (file : String) (version : Version)
    (defaultUse : List String) (dir : Option String) : Except Error CheckSettings := do
  let ignoreOnly ← t.ignoreOnly.entries.mapM fun e => do return (e.1, ← rebase file dir e.2)
  let ignore ← rebase file dir t.ignore
  return ⟨version, t.use.getD defaultUse, t.except, ignore, Table.ofList ignoreOnly,
    t.disableBuiltin⟩

def LintSettings.ofTable (file : String) (version : Version) (dir : Option String) :
    Option CheckTable → Except Error LintSettings
  | none => .ok (.default version)
  | some t => do
    let checks ← t.settings file version (LintSettings.default version).checks.use dir
    return ⟨checks, t.allowCommentIgnores⟩

def BreakingSettings.ofTable (file : String) (version : Version) (dir : Option String) :
    Option CheckTable → Except Error BreakingSettings
  | none => .ok (.default version)
  | some t => do
    let checks ← t.settings file version (BreakingSettings.default version).checks.use dir
    return ⟨checks, t.ignoreUnstable⟩

end Schemata.Settings

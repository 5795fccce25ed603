import Schemata.Settings.Checks

/-!
# Module settings files

The settings file of a module or, in version v2, of a workspace of modules: their directories,
names, roots, excludes and checks, the modules they depend on, and the plugins. A file without a
version is of the oldest one.
-/

namespace Schemata.Settings

open Text

/-- The settings of a module. `roots` lists the excludes of each root, relative to it. -/
structure ModuleSettings where
  dir : String
  name : Option ModuleName
  roots : Table (List String)
  lint : LintSettings
  breaking : BreakingSettings

namespace ModuleSettings

def ownRoot (excludes : List String) : Table (List String) := Table.empty.insert "." excludes

def default (version : Version) (dir : String) : ModuleSettings :=
  ⟨dir, none, ownRoot [], .default version, .default version⟩

end ModuleSettings

inductive PluginKind
  /-- A program. -/
  | command
  /-- A Wasm file. -/
  | wasmFile
  /-- A registry. -/
  | remote
  deriving DecidableEq, Repr

structure PluginSettings where
  kind : PluginKind
  name : String
  args : List String
  options : Table String

structure ModuleFile where
  version : Version
  modules : List ModuleSettings
  deps : List ModuleRef
  plugins : List PluginSettings

namespace ModuleFile

def fileName : String := "strata.toml"

/-- Excludes in order, without repeats. -/
abbrev ordered (excludes : List String) : List String := sortedSet excludes

/-! ### Version v1beta1 -/

/-- An exclude under its root, as seen from there. -/
def placeExclude (roots : List String) (placed : Table (List String)) (exclude : String) :
    Except Error (Table (List String)) := do
  let exclude ← normalizeIn fileName exclude
  if roots.contains exclude then
    throw (.invalid fileName s!"exclude {quoted exclude} is equal to a root")
  match roots.find? fun root => Path.contains root exclude with
  | none => throw (.invalid fileName s!"exclude {quoted exclude} is not contained in any root")
  | some root =>
    let inner ← (Path.relative root exclude).mapError (.path fileName)
    return placed.insert root ((placed.find? root).getD [] ++ [inner])

def placeRoots (roots excludes : List String) : Except Error (Table (List String)) := do
  let roots ← if roots.isEmpty then pure ["."] else roots.mapM (normalizeIn fileName)
  checkNoOverlap fileName "roots" roots
  let placed ← excludes.foldlM (placeExclude roots) (Table.ofList (roots.map fun r => (r, [])))
  return Table.ofList (placed.entries.map fun e => (e.1, ordered e.2))

/-- The lists of roots and excludes in a build table. -/
def readBuildV1Beta1 (v : Toml.Value) : Option (List String × List String) := do
  let [roots, excludes] ← v.fields? ["roots", "excludes"] | none
  return (← Toml.optional [] strings roots, ← Toml.optional [] strings excludes)

/-- The parts that the older versions share: name, dependencies, lint and breaking tables. -/
structure SingleModule where
  name : Option String
  deps : List String
  lint : Option CheckTable
  breaking : Option CheckTable

def readCheckTable : Option Toml.Value → Option (Option CheckTable) :=
  Toml.optional none fun v => (CheckTable.read v).map some

def readText? : Option Toml.Value → Option (Option String) :=
  Toml.optional none fun v => (string v).map some

/-- Reads the document of a version that describes one module: that module's build table, of which
each version has its own reader, and the other parts. -/
def readSingle {β : Type} (noBuild : β) (readBuild : Toml.Value → Option β)
    (document : Toml.Value) : Option (β × SingleModule) := do
  let [_, name, deps, build, lint, breaking] ← document.fields?
    ["version", "name", "deps", "build", "lint", "breaking"] | none
  let name ← readText? name
  let deps ← Toml.optional [] strings deps
  let build ← Toml.optional noBuild readBuild build
  return (build, ⟨name, deps, ← readCheckTable lint, ← readCheckTable breaking⟩)

def ofSingle (version : Version) (roots : Table (List String)) (m : SingleModule) :
    Except Error ModuleFile := do
  let name ← readName m.name
  let lint ← LintSettings.ofTable fileName version none m.lint
  let breaking ← BreakingSettings.ofTable fileName version none m.breaking
  let deps ← readRefs m.deps
  return ⟨version, [⟨".", name, roots, lint, breaking⟩], deps, []⟩

def ofV1Beta1 (document : Toml.Value) : Except Error ModuleFile := do
  let ((roots, excludes), m) ← orMalformed fileName
    (readSingle ([], []) readBuildV1Beta1 document)
  ofSingle .v1beta1 (← placeRoots roots excludes) m

/-! ### Version v1 -/

/-- The list of excludes in a build table. -/
def readBuildV1 (v : Toml.Value) : Option (List String) := do
  let [excludes] ← v.fields? ["excludes"] | none
  Toml.optional [] strings excludes

/-- An exclude of a module whose files lie in its own directory. -/
def excludeV1 (exclude : String) : Except Error String := do
  let exclude ← normalizeIn fileName exclude
  if exclude = "." then throw (.invalid fileName "cannot exclude the module root")
  return exclude

def ofV1 (document : Toml.Value) : Except Error ModuleFile := do
  let (excludes, m) ← orMalformed fileName (readSingle [] readBuildV1 document)
  let excludes ← excludes.mapM excludeV1
  ofSingle .v1 (ModuleSettings.ownRoot (ordered excludes)) m

/-! ### Version v2 -/

structure ModuleTable where
  path : String
  name : Option String
  excludes : List String
  lint : Option CheckTable
  breaking : Option CheckTable

def ModuleTable.read (v : Toml.Value) : Option ModuleTable := do
  let [path, name, excludes, lint, breaking] ← v.fields?
    ["path", "name", "excludes", "lint", "breaking"] | none
  return ⟨← Toml.required string path, ← readText? name, ← Toml.optional [] strings excludes,
    ← readCheckTable lint, ← readCheckTable breaking⟩

/-- The kind of plugin that a name stands for. A remote name starts with a host and is a module
name. -/
def pluginKind (name : String) : PluginKind :=
  let host := (pieces '/' name).headD ""
  if ".wasm".toList.isSuffixOf name.toList then .wasmFile
  else if host.toList.contains '.' && host != "." && host != ".." &&
      (ModuleName.parse name).toOption.isSome then .remote
  else .command

def readPlugin (v : Toml.Value) : Option PluginSettings := do
  let [plugin, args, options] ← v.fields? ["plugin", "args", "options"] | none
  let name ← Toml.required string plugin
  return ⟨pluginKind name, name, ← Toml.optional [] strings args,
    Table.ofList (← Toml.optional [] (Toml.Value.entries? string) options)⟩

/-- A document of version v2 as it is written. -/
structure WorkspaceTable where
  modules : List ModuleTable
  deps : List String
  lint : Option CheckTable
  breaking : Option CheckTable
  plugins : List PluginSettings

/-- Reads a document of version v2. -/
def WorkspaceTable.read (document : Toml.Value) : Option WorkspaceTable := do
  let [_, modules, deps, lint, breaking, plugins] ← document.fields?
    ["version", "modules", "deps", "lint", "breaking", "plugins"] | none
  return ⟨← Toml.optional [] (Toml.Value.items? ModuleTable.read) modules,
    ← Toml.optional [] strings deps, ← readCheckTable lint, ← readCheckTable breaking,
    ← Toml.optional [] (Toml.Value.items? readPlugin) plugins⟩

/-- An exclude of a module, as seen from its directory. -/
def excludeV2 (dir exclude : String) : Except Error String := do
  let exclude ← normalizeIn fileName exclude
  if !Path.contains dir exclude then
    throw (.invalid fileName s!"exclude {quoted exclude} is not contained in module {quoted dir}")
  (Path.relative dir exclude).mapError (.path fileName)

/-- The settings of a module table. Its own checks come before those of the workspace. -/
def WorkspaceTable.module (w : WorkspaceTable) (m : ModuleTable) :
    Except Error ModuleSettings := do
  let dir ← normalizeIn fileName m.path
  let excludes ← m.excludes.mapM (excludeV2 dir)
  let name ← readName m.name
  let lint ← LintSettings.ofTable fileName .v2 (some dir) (m.lint <|> w.lint)
  let breaking ← BreakingSettings.ofTable fileName .v2 (some dir) (m.breaking <|> w.breaking)
  return ⟨dir, name, ModuleSettings.ownRoot (ordered excludes), lint, breaking⟩

def WorkspaceTable.ownModule (w : WorkspaceTable) : Except Error ModuleSettings := do
  let lint ← LintSettings.ofTable fileName .v2 (some ".") w.lint
  let breaking ← BreakingSettings.ofTable fileName .v2 (some ".") w.breaking
  return ⟨".", none, ModuleSettings.ownRoot [], lint, breaking⟩

def checkNames (modules : List ModuleSettings) : Except Error Unit :=
  match firstRepeat? [] (modules.filterMap ModuleSettings.name) with
  | some name => .error (.invalid fileName s!"module name {name} is used by more than one module")
  | none => .ok ()

def ofV2 (document : Toml.Value) : Except Error ModuleFile := do
  let w ← orMalformed fileName (WorkspaceTable.read document)
  let modules ← if w.modules.isEmpty then do pure [← w.ownModule] else w.modules.mapM w.module
  if !w.modules.isEmpty then
    checkDistinct fileName "module path" (modules.map ModuleSettings.dir)
  checkNames modules
  return ⟨.v2, modules, ← readRefs w.deps, w.plugins⟩

/-! ### All versions -/

def parse (text : String) : Except Error ModuleFile := do
  let document ← readDocument fileName text
  match (← readVersion fileName document).getD .v1beta1 with
  | .v1beta1 => ofV1Beta1 document
  | .v1 => ofV1 document
  | .v2 => ofV2 document

def ofBucket (volumes : Storage.Volumes) (live : Bool) (b : Storage.Bucket) (dir : String) :
    Except Error ModuleFile := do
  parse (← readText volumes live b dir fileName)

end ModuleFile

/-- Settings that are used in place of a workspace's own file. -/
inductive Override
  | text (text : String)
  /-- The content of a file. -/
  | content (content : ByteArray)
  /-- A file that does not exist. -/
  | absent

/-- Reads the settings that are used in place of a workspace's own. -/
def ModuleFile.ofOverride : Override → Except Error ModuleFile
  | .text text => parse text
  | .content content =>
    match String.fromUTF8? content with
    | some text => parse text
    | none => .error .undecodable
  | .absent => .error .absent

end Schemata.Settings

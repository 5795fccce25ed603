import Schemata.ModuleSet.Build
import Schemata.Workspace.Basic
import Schemata.Workspace.Plan

/-!
# Building workspaces

A workspace is built from a directory in a bucket, going by the settings files found there, or from
the key of a remote module. Settings may be given that stand in for those of the target modules.
-/

namespace Schemata.Workspace

open Settings Storage

abbrev WorkspaceAct (α : Type) := ExceptT Error (StateM World) α

def answer {α : Type} (ask : World → Except Error α) : WorkspaceAct α := fun w => (ask w, w)

/-! ### Requests -/

def normalize (path : String) : Except Error String :=
  (Path.normalize path).mapError (.path path)

/-- The request with its directory in normal form; a target file brings its own directory. -/
def Request.located (r : Request) : Except Error Request :=
  match r.file with
  | some file => do
    let file ← normalize file
    return { r with file := some file, subDir := Path.parent file }
  | none => do return { r with subDir := ← normalize r.subDir }

/-- A path as seen from a directory, if it lies there. -/
def fromRoot? (root path : String) : Except Error (Option String) := do
  return (Path.relative root (← normalize path)).toOption

def fileFromRoot (root : String) : Option String → Except Error (Option String)
  | none => .ok none
  | some file => do
    match ← fromRoot? root file with
    | some inner => return some inner
    | none => throw (.fault s!"schema file target {file} is outside the workspace at {root}")

/-- The request as seen from the root of its workspace. Paths outside are left out, and a directory
outside stands for the whole workspace. -/
def Request.fromRoot (r : Request) (root : String) : Except Error Request := do
  let subDir ← fromRoot? root r.subDir
  let paths ← r.paths.mapM (fromRoot? root)
  let excludes ← r.excludes.mapM (fromRoot? root)
  let file ← fileFromRoot root r.file
  return ⟨subDir.getD ".", paths.filterMap id, excludes.filterMap id, file, r.packageFiles⟩

/-! ### Files -/

/-- Keeps what lies outside some directories. -/
def outside (dirs : List String) : List Mapper :=
  if dirs.isEmpty then [] else [.keep (.not (.any (dirs.map .under)))]

def filesBelow (b : Bucket) (root : String) : Bucket :=
  if root = "." then b else .mapped b [.strip root]

/-- The schema files of a root of a module directory, without those of directories nested in it. -/
def rootFiles (b : Bucket) (dir : String) (nested : List String) (root : String × List String) :
    Bucket :=
  .mapped b (outside nested ++
    [.strip (Path.join dir root.1), .keep (.extension Module.schemaExtension)] ++ outside root.2)

/-- The files of a module directory: the schema files of its roots, its documentation and its
license. -/
def moduleFiles (b : Bucket) (dirs : List String) (s : ModuleSettings) : Bucket :=
  let nested := dirs.filter (Path.contains s.dir)
  let own (m : Matcher) : Bucket := .mapped b [.strip s.dir, .keep m]
  .layered (s.roots.entries.map (rootFiles b s.dir nested) ++
    [own (.any (Module.docPaths.map .exactly)), own (.exactly Module.licensePath)])

/-! ### Modules -/

def ModuleDir.localModule (d : ModuleDir) (b : Bucket) (dirs : List String) (t : Targeting) :
    LocalModule :=
  { bucket := moduleFiles b dirs d.settings, bucketId := d.settings.dir, target := t.target
    name := d.settings.name, commit := none, label := none
    filter := ⟨t.paths, t.excludes, t.file, t.packageFiles⟩
    v1Config := d.v1Config, v1Lock := d.v1Lock }

/-- The key of a locked module. A digest that the lock file leaves out is asked of the registry. -/
def keyOf (l : LockedModule) : StateM World ModuleKey :=
  match l.digest with
  | some digest => return ⟨l.name, l.commit, .known digest⟩
  | none => ModuleKey.deferred l.name l.commit

/-- Builds a module set with a number of rounds that is enough. -/
def buildSet (provider : Provider) (locals : List LocalModule) (remotes : List RemoteModule) :
    WorkspaceAct ModuleSet := do
  let w ← get
  ExceptT.adapt .module (ModuleSet.build provider w.fetchRounds locals remotes)

/-! ### Settings -/

def readOverride : Option Override → Except Error (Option ModuleFile)
  | none => .ok none
  | some o => ((ModuleFile.ofOverride o).map some).mapError .settings

/-- The check settings of a module. Settings given in place of the workspace's own count for its
target modules; the others then have the defaults. -/
def Plan.checksOf (p : Plan) (override : Option ModuleFile) (m : Module) : ModuleChecks :=
  let dir := if m.isLocal then p.dirs.find? fun d => d.settings.dir = m.bucketId else none
  let version := (dir.map ModuleDir.version).getD (if p.isV2 then .v2 else .v1)
  match dir, override with
  | some d, none => .ofModule m version (some d.settings)
  | some _, some o =>
    if m.target then .ofModule m o.version (o.settingsFor? m.name (some m.bucketId))
    else .ofModule m version none
  | none, _ => .ofModule m version none

/-! ### Workspaces -/

/-- A workspace that was found, with the share of a request in each of its module directories. -/
structure Site where
  root : String
  plan : Plan
  targetings : List Targeting

def Plan.dirPaths (p : Plan) : List String := p.dirs.map fun d => d.settings.dir

/-- Finds the workspace that a request is about. -/
def locate (w : World) (b : Bucket) (r : Request) : Except Error Site := do
  let found ← (discover w.volumes w.live b r.subDir).mapError .settings
  let plan ← Plan.ofDiscovered w b found
  let inner ← r.fromRoot found.root
  let dirs := plan.dirPaths
  let targetings ← plan.dirs.mapM fun d =>
    (inner.targeting dirs d.settings.dir d.settings.roots.keys).mapError .targeting
  if !targetings.any Targeting.tentative then
    throw (.fault s!"subdirectory \"{r.subDir}\" did not result in any target modules from module directories {Text.quotedList dirs}")
  return ⟨found.root, plan, targetings⟩

def ofBucket (provider : Provider) (b : Bucket) (r : Request) (override : Option Override) :
    WorkspaceAct Workspace := do
  if !(← get).live then throw .canceled
  let r ← answer fun _ => r.located
  let override ← answer fun _ => readOverride override
  let site ← answer fun w => locate w b r
  let files := filesBelow b site.root
  let locals := (site.plan.dirs.zip site.targetings).map fun (d, t) =>
    d.localModule files site.plan.dirPaths t
  let keys ← (site.plan.locked.mapM keyOf : StateM World (List ModuleKey))
  let set ← buildSet provider locals (keys.map fun key => ⟨key, false, [], []⟩)
  if set.targets.isEmpty then throw (.module .noTargetFiles)
  return ⟨set, set.modules.map (site.plan.checksOf override), site.plan.deps, site.plan.plugins,
    site.plan.isV2⟩

def ofKey (provider : Provider) (key : ModuleKey) (paths excludes : List String)
    (override : Option Override) : WorkspaceAct Workspace := do
  if !(← get).live then throw .canceled
  let override ← answer fun _ => readOverride override
  let paths ← answer fun _ => paths.mapM normalize
  let excludes ← answer fun _ => excludes.mapM normalize
  let set ← buildSet provider [] [⟨key, true, paths, excludes⟩]
  let version := (override.map ModuleFile.version).getD .v1
  let checks := set.modules.map fun m =>
    .ofModule m version <|
      if m.name = some key.name then override.bind fun o => o.settingsFor? m.name none else none
  return ⟨set, checks, [], [], version = .v2⟩

end Schemata.Workspace

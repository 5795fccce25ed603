import Schemata.Module.Basic
import Schemata.Settings.LockFile
import Schemata.Settings.ModuleFile
import Schemata.Settings.WorkFile
import Schemata.Workspace.Error

/-!
# Plans of workspaces

A plan is what the settings of a workspace say about it: the module directories with their settings,
the modules they depend on, and the commits that the lock files fix. A v2 workspace has one lock
file at its root. In an older one every directory has settings and a lock file of its own.
-/

namespace Schemata.Workspace

open Settings

/-! ### Finding the workspace

Starting in the user's directory and going up, the first v2 settings file or workspace file decides
where the workspace lies. Where there is none, the user's directory is a module by itself.
-/

inductive Layout
  | v2 (settings : ModuleFile)
  | work (file : WorkFile)
  | single

/-- Where a workspace lies, and how it lists its modules. -/
structure Discovered where
  root : String
  layout : Layout

def unlessMissing {α : Type} : Except Settings.Error α → Except Settings.Error (Option α)
  | .ok a => .ok (some a)
  | .error e => if e.isMissing then .ok none else .error e

/-- The layout that the files of a directory decide on. -/
def layoutAt? (volumes : Storage.Volumes) (live : Bool) (b : Storage.Bucket) (dir : String) :
    Except Settings.Error (Option Layout) := do
  (Storage.checkLive live).mapError .storage
  match ← unlessMissing (ModuleFile.ofBucket volumes live b dir) with
  | some settings => if settings.version = .v2 then return some (.v2 settings)
  | none => pure ()
  return (← unlessMissing (WorkFile.ofBucket volumes live b dir)).map .work

/-- The workspace that the first of some directories decides on. -/
def discoverAmong (volumes : Storage.Volumes) (live : Bool) (b : Storage.Bucket)
    (fallback : String) : List String → Except Settings.Error Discovered
  | [] => .ok ⟨fallback, .single⟩
  | dir :: dirs => do
    match ← layoutAt? volumes live b dir with
    | some layout => return ⟨dir, layout⟩
    | none => discoverAmong volumes live b fallback dirs

def discover (volumes : Storage.Volumes) (live : Bool) (b : Storage.Bucket) (dir : String) :
    Except Settings.Error Discovered :=
  discoverAmong volumes live b dir (Path.ancestors dir)

/-! ### What the settings say -/

structure ModuleDir where
  settings : ModuleSettings
  version : Version
  /-- The settings file of an older module as it is. -/
  v1Config : Option Module.Attachment
  /-- The lock file of an older module as it is. -/
  v1Lock : Option Module.Attachment

/-- What the settings of a workspace say. -/
structure Plan where
  isV2 : Bool
  dirs : List ModuleDir
  deps : List ModuleRef
  locked : List LockedModule
  plugins : List PluginSettings

namespace Plan

/-! ### Dependencies -/

/-- Refuses two references to one module. Equal references stand side by side. -/
def checkRefs : List ModuleRef → Except Error Unit
  | [] => .ok ()
  | r :: rs =>
    let others := rs.filter fun s => s.module = r.module
    if others.isEmpty then checkRefs rs else .error (.conflictingRefs (r :: others))

/-- The different references, in the order of their modules. -/
def distinctRefs (refs : List ModuleRef) : Except Error (List ModuleRef) := do
  let refs := sortedSetBy ModuleRef.key refs
  checkRefs refs
  return refs

/-! ### Workspaces of version v2 -/

/-- The plan of a workspace whose root has settings of version v2. -/
def ofModuleFile (w : World) (b : Storage.Bucket) (root : String) (file : ModuleFile) :
    Except Error Plan := do
  let lock ← (unlessMissing (LockFile.ofBucket w.volumes w.live b root)).mapError .settings
  let locked ← match lock with
    | none => pure []
    | some lock =>
      if lock.version = .v2 then pure lock.deps else throw (.lockVersion lock.version .v2)
  let deps ← distinctRefs file.deps
  return ⟨true, file.modules.map fun m => ⟨m, .v2, none, none⟩, deps, locked, file.plugins⟩

/-! ### Older workspaces -/

/-- A file as it is, if it is there. -/
def attachment? (w : World) (b : Storage.Bucket) (dir name : String) :
    Except Error (Option Module.Attachment) :=
  match b.read w.volumes w.live (Path.join dir name) with
  | .ok content => .ok (some ⟨name, content⟩)
  | .error e => if e.isMissing then .ok none else .error (.storage e)

/-- The settings of a module directory, their version, and the dependencies they name. -/
def settingsOf (w : World) (b : Storage.Bucket) (place dir : String) :
    Except Error (ModuleSettings × Version × List ModuleRef) := do
  match ← (unlessMissing (ModuleFile.ofBucket w.volumes w.live b place)).mapError .settings with
  | none => return (.default .v1 dir, .v1, [])
  | some file =>
    if file.version = .v2 then throw (.v2Module dir)
    match file.modules with
    | m :: _ => return ({ m with dir }, file.version, file.deps)
    | [] => throw (.fault s!"config in {place} has no module config")

/-- The commits that a module directory's own lock file fixes. -/
def lockedOf (w : World) (b : Storage.Bucket) (place : String) (version : Version) :
    Except Error (List LockedModule) := do
  match ← (unlessMissing (LockFile.ofBucket w.volumes w.live b place)).mapError .settings with
  | none => return []
  | some lock =>
    if lock.version = .v2 then throw (.lockVersion .v2 version)
    return lock.deps

/-- The plan of a single module directory. -/
def ofDir (w : World) (b : Storage.Bucket) (root dir : String) : Except Error Plan := do
  if !w.live then throw .canceled
  let place := Path.join root dir
  let (settings, version, deps) ← settingsOf w b place dir
  let v1Config ← attachment? w b place ModuleFile.fileName
  let v1Lock ← attachment? w b place LockFile.fileName
  let locked ← lockedOf w b place version
  return ⟨false, [⟨settings, version, v1Config, v1Lock⟩], deps, locked, []⟩

/-- The plan of a workspace that lists its module directories. -/
def ofDirs (w : World) (b : Storage.Bucket) (root : String) (dirs : List String) :
    Except Error Plan := do
  let plans ← dirs.mapM (ofDir w b root)
  let deps ← distinctRefs (plans.flatMap Plan.deps)
  return ⟨false, plans.flatMap Plan.dirs, deps, plans.flatMap Plan.locked, []⟩

def ofDiscovered (w : World) (b : Storage.Bucket) (d : Discovered) : Except Error Plan :=
  match d.layout with
  | .v2 file => ofModuleFile w b d.root file
  | .work file => ofDirs w b d.root file.dirs
  | .single => ofDirs w b d.root ["."]

end Plan

end Schemata.Workspace

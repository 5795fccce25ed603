import Schemata.ModuleSet.Basic
import Schemata.Registry.Access

/-!
# Building module sets

A set is built from the local modules of a workspace and the keys of remote ones. A remote module
brings in all it declares to depend on. A local module stands in for a remote one of its name, and
two keys of one name have to agree on the digest.
-/

namespace Schemata

open Schemata.Module (Error Filter)

structure LocalModule where
  bucket : Storage.Bucket
  bucketId : String
  target : Bool
  name : Option ModuleName
  commit : Option CommitId
  label : Option String
  filter : Filter
  v1Config : Option Module.Attachment
  v1Lock : Option Module.Attachment

structure RemoteModule where
  key : ModuleKey
  target : Bool
  paths : List String
  excludes : List String

namespace ModuleSet.Build

/-! ### Local modules -/

/-- A single target file stands alone and is a schema file. -/
def checkFilter (bucketId : String) (f : Filter) : Except Error Unit :=
  match f.file with
  | none => .ok ()
  | some path =>
    if !f.paths.isEmpty then
      .error (.fault s!"module {bucketId} cannot have both a schema file target and target paths")
    else if Module.kindOf? path ≠ some .schema then
      .error (.fault s!"schema file target {path} of module {bucketId} is not a schema file")
    else .ok ()

/-- Refuses a place or a name that was given before. -/
def checkLocals : List String → List ModuleName → List LocalModule → Except Error Unit
  | _, _, [] => .ok ()
  | ids, names, m :: ms => do
    if ids.contains m.bucketId then throw (.duplicate "bucket ID" m.bucketId)
    if let some name := m.name then
      if names.contains name then throw (.duplicate "name" name.text)
    checkFilter m.bucketId m.filter
    checkLocals (m.bucketId :: ids) (m.name.toList ++ names) ms

/-! ### Remote modules -/

/-- Adds a declaration to those of the same name, or as a new one at the end: the declarations, and
whether it is new. Of two commits the digests have to agree. -/
def declare (r : RemoteModule) : List RemoteModule → Act (List RemoteModule × Bool)
  | [] => return ([r], true)
  | known :: rest =>
    if known.key.name = r.key.name then do
      if known.key.commit ≠ r.key.commit then
        let first ← known.key.resolveDigest
        let second ← r.key.resolveDigest
        if first ≠ second then throw (.conflict r.key.name first second)
      let both : RemoteModule :=
        { known with
          target := known.target || r.target
          paths := sortedSet (known.paths ++ r.paths)
          excludes := sortedSet (known.excludes ++ r.excludes) }
      return (both :: rest, false)
    else do
      let (rest, isNew) ← declare r rest
      return (known :: rest, isNew)

/-- Adds declarations that no local module stands in for. -/
def declareAll (locals : List ModuleName) (known : List RemoteModule) :
    List RemoteModule → Act (List RemoteModule)
  | [] => return known
  | r :: rs => do
    if locals.contains r.key.name then declareAll locals known rs
    else declareAll locals (← declare r known).1 rs

/-- Adds the dependencies of a delivery: the declarations, and the keys among them that are new. -/
def declareDeps (locals : List ModuleName) (known : List RemoteModule) :
    List ModuleKey → Act (List RemoteModule × List ModuleKey)
  | [] => return (known, [])
  | dep :: deps => do
    if locals.contains dep.name then declareDeps locals known deps
    else
      let (known, isNew) ← declare ⟨dep, false, [], []⟩ known
      let (known, keys) ← declareDeps locals known deps
      return (known, if isNew then dep :: keys else keys)

/-- The remote modules of a set while they are fetched; the latest delivery comes first. -/
structure Fetched where
  declared : List RemoteModule
  deliveries : List Delivery
  /-- The keys that the provider was asked for. -/
  asked : List ModuleKey

/-- Takes deliveries in turn: what is fetched so far, and the keys to fetch next. -/
def receive (locals : List ModuleName) (f : Fetched) :
    List Delivery → Act (Fetched × List ModuleKey)
  | [] => return (f, [])
  | d :: ds => do
    let (contents, d) ← d.contents
    let (declared, keys) ← declareDeps locals f.declared contents.deps
    let (f, more) ← receive locals { f with declared, deliveries := d :: f.deliveries } ds
    return (f, keys ++ more)

/-- Fetches keys and, round after round, what the deliveries depend on. -/
def fetch (provider : Provider) (locals : List ModuleName) :
    Nat → List ModuleKey → Fetched → Act Fetched
  | _, [], f => return f
  | 0, _, _ => throw (.fault "remote modules keep declaring new dependencies")
  | rounds + 1, keys, f => do
    Act.checkLive
    let deliveries ← provider keys
    if deliveries.length ≠ keys.length then
      throw (.fault s!"expected {keys.length} module datas, got {deliveries.length}")
    let (f, next) ← receive locals { f with asked := f.asked ++ keys } deliveries
    fetch provider locals rounds next f

/-! ### Modules -/

/-- A target module whose filter holds back all its schema files is no target. -/
def untargetIfEmpty (w : World) (m : Module) : Except Error Module := do
  if m.target && m.filter.isActive then
    if (← m.targetSchemas w).isEmpty then return { m with target := false }
  return m

def localModule (l : LocalModule) : Act Module :=
  Act.ofWorld fun w => do
    let files ← Module.filesOf w.volumes w.live l.bucket
    untargetIfEmpty w
      { bucketId := l.bucketId, name := l.name, commit := l.commit, label := l.label
        target := l.target, origin := .workspace, files, filter := l.filter
        v1Config := l.v1Config, v1Lock := l.v1Lock }

def remoteModule (f : Fetched) (r : RemoteModule) : Act Module := do
  match f.deliveries.find? fun d => d.key.name = r.key.name with
  | none => throw (.fault s!"no module data fetched for {r.key}")
  | some d =>
    let (contents, _) ← d.contents
    let digest : Except Error Digest ← ExceptT.lift r.key.resolveDigest.run
    Act.ofWorld fun w => untargetIfEmpty w
      { bucketId := "", name := some r.key.name, commit := some r.key.commit, label := none
        target := r.target, origin := .fetched r.key digest, files := contents.files
        filter := ⟨r.paths, r.excludes, none, false⟩, v1Config := none, v1Lock := none }

/-- Fetches the remote modules of a set: those that are declared and all they depend on. -/
def gather (provider : Provider) (rounds : Nat) (locals : List LocalModule)
    (remotes : List RemoteModule) : Act Fetched := do
  Act.checkLive
  Act.ofExcept (checkLocals [] [] locals)
  let names := locals.filterMap LocalModule.name
  let declared ← declareAll names [] remotes
  fetch provider names rounds (declared.map RemoteModule.key) ⟨declared, [], []⟩

/-- The set of the local modules and the remote modules that were fetched. Where any was to be a
target, one has to be in the end. -/
def finish (locals : List LocalModule) (f : Fetched) : Act ModuleSet := do
  let localModules ← locals.mapM localModule
  let remoteModules ← f.declared.mapM (remoteModule f)
  let modules := localModules ++ remoteModules
  let wanted := locals.any LocalModule.target || f.declared.any RemoteModule.target
  if wanted && !modules.any Module.target then throw .noTargetFiles
  Act.ofExcept (ModuleSet.make modules)

end ModuleSet.Build

open ModuleSet.Build in
/-- Builds the set of some modules, the local ones first. -/
def ModuleSet.build (provider : Provider) (rounds : Nat) (locals : List LocalModule)
    (remotes : List RemoteModule) : Act ModuleSet := do
  finish locals (← gather provider rounds locals remotes)

/-- A number of rounds that is enough to fetch whatever the registry and the store have. -/
def World.fetchRounds (w : World) : Nat :=
  w.registry.commits.size + w.store.size?.getD 0 + 2

end Schemata

import Schemata.ModuleSet.Basic
import Schemata.Upload.Request

/-!
# Uploading modules

Modules of a set are sent to a registry in one request. Each of them has to be local, to have a name
at the same registry as the others, and to have all its local dependencies in the request. The
commits that the registry reports are checked against what was sent.
-/

namespace Schemata.Upload

/-- An operation with a module set in the world. -/
abbrev UploadAct (α : Type) := ExceptT Error (StateM (World × ModuleSet)) α

def inSet {α : Type} (ask : World → SetAct α) : UploadAct α := fun (w, s) =>
  let (r, s) := (ask w).run s
  (r.mapError .module, w, s)

def inWorld {α : Type} (act : ExceptT Error (StateM World) α) : UploadAct α := fun (w, s) =>
  let (r, w) := act.run w
  (r, w, s)

/-- Refuses to go on after a cancellation. -/
def checkLive : UploadAct Unit := do
  if !(← get).1.live then throw .canceled

/-! ### The request -/

def nameOf (m : Module) : Except Error ModuleName :=
  if !m.isLocal then .error (.notLocal m.id)
  else
    match m.name with
    | some name => .ok name
    | none => .error (.nameless m.id)

def namesOf (modules : List Module) : Except Error (List ModuleName) := do
  let names ← modules.mapM nameOf
  let hosts := sortedSet (names.map ModuleName.registry)
  if hosts.length > 1 then throw (.severalRegistries hosts)
  return names

/-- The files of a module with their contents, by path. -/
def filesOf (w : World) (m : Module) : Except Module.Error (List (String × ByteArray)) := do
  (← m.walk w).mapM fun f => do return (f.path, (← m.get w f.path).2)

/-- How a request refers to a dependency of a module. -/
def dependencyOf (sent : List ModuleName) (m dependency : Module) : Except Error Dependency :=
  match dependency.key? with
  | some key => .ok (.commit key.name key.commit)
  | none =>
    match dependency.name with
    | none => .error (.nameless dependency.id)
    | some name =>
      if sent.contains name then .ok (.sibling name)
      else .error (.dependencyLeftOut m.id name.text)

/-- What is sent for a module: the one at a position of the set. -/
def contentOf (sent : List ModuleName) (i : Nat) (m : Module) (name : ModuleName) :
    UploadAct Content := do
  checkLive
  let files ← inSet fun w => ModuleSet.answer (filesOf w m)
  let deps ← inSet fun w => ModuleSet.dependencies w i
  let deps ← ExceptT.mk (pure (deps.mapM fun d => dependencyOf sent m d.module))
  return ⟨name, files, sortedSetBy Dependency.key deps, m.v1Config, m.v1Lock⟩

def requestFor (modules : List (Nat × Module)) (labels : List String) : UploadAct Request := do
  let names ← ExceptT.mk (pure (namesOf (modules.map (·.2))))
  let contents ← (modules.zip names).mapM fun ((i, m), name) => contentOf names i m name
  return ⟨contents, sortedSet labels⟩

/-! ### The answer -/

/-- Checks the receipt for a module, and its digest if that is wanted. -/
def checkReceipt (verify : Bool) (i : Nat) (name : ModuleName) (r : Receipt) :
    UploadAct ModuleKey := do
  if r.name ≠ name then
    throw (.fault s!"registry returned a commit for {r.name} in place of {name}")
  if verify then
    let expected ← inSet fun w => ModuleSet.digest w i
    if expected ≠ r.digest then throw (.digestMismatch name expected r.digest)
  return ⟨r.name, r.commit, .known r.digest⟩

def checkReceipts (verify : Bool) (modules : List (Nat × Module)) (sent : Request)
    (receipts : List Receipt) : UploadAct (List ModuleKey) := do
  if receipts.length ≠ sent.contents.length then
    throw (.commitCount sent.contents.length receipts.length)
  ((modules.zip sent.contents).zip receipts).mapM fun (((i, _), c), r) =>
    checkReceipt verify i c.name r

/-! ### Uploads -/

/-- What became of an upload: the request, if one was sent, and the keys of the commits. -/
structure Outcome where
  sent : Option Request
  keys : Except Error (List ModuleKey)

/-- Uploads the modules at some positions of a set. Without modules nothing is sent. -/
def upload (client : Client) (positions : List Nat) (labels : List String) (verify : Bool) :
    StateM (World × ModuleSet) Outcome := do
  let (w, s) ← get
  let modules := positions.filterMap fun i => s.modules[i]?.map fun m => (i, m)
  if !w.live then return ⟨none, .error .canceled⟩
  if modules.isEmpty then return ⟨none, .ok []⟩
  match ← (requestFor modules labels).run with
  | .error e => return ⟨none, .error e⟩
  | .ok request =>
    let keys ← (do checkReceipts verify modules request (← inWorld (client request))
      : UploadAct (List ModuleKey)).run
    return ⟨some request, keys⟩

end Schemata.Upload

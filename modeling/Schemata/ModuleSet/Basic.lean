import Schemata.Digest.Manifest
import Schemata.Graph
import Schemata.Module.View

/-!
# Module sets

A module set holds modules that may import from each other. Which module imports from which, and
the digests that follow from it, are found on request and at most once; a failure stays too.
-/

namespace Schemata

open Schemata.Module (Error View)

/-- The paths of each module, in the order of the modules. -/
abbrev FileIndex := List (List String)

/-- Modules with what was found out about them. -/
structure ModuleSet where
  modules : List Module
  /-- The modules that each module imports from. -/
  imports : List (Memo Error (List Nat))
  digests : List (Memo Error Digest)
  index : Memo Error FileIndex
  /-- Whether the set is still in use. A module may outlive its set. -/
  inUse : Bool

/-- An operation on a module set. A failure keeps what was found before it. -/
abbrev SetAct (α : Type) := ExceptT Error (StateM ModuleSet) α

namespace ModuleSet

/-- A set of modules about which nothing is known. -/
def ofModules (modules : List Module) : ModuleSet :=
  ⟨modules, modules.map fun _ => .unresolved, modules.map fun _ => .unresolved, .unresolved, true⟩

/-- The first ID that occurs before. -/
def repeatedId? : List String → List Module → Option String
  | _, [] => none
  | seen, m :: ms => if seen.contains m.id then some m.id else repeatedId? (m.id :: seen) ms

def make (modules : List Module) : Except Error ModuleSet :=
  match repeatedId? [] modules with
  | some id => .error (.fault s!"duplicate module {id} in module set")
  | none => .ok (.ofModules modules)

/-! ### Looking for modules -/

def byId? (s : ModuleSet) (id : String) : Option Module := s.modules.find? fun m => m.id = id

def byName? (s : ModuleSet) (name : ModuleName) : Option Module :=
  s.modules.find? fun m => m.name = some name

/-- The local module of a place in the workspace. -/
def byBucketId? (s : ModuleSet) (bucketId : String) : Option Module :=
  if bucketId = "" then none else s.modules.find? fun m => m.bucketId = bucketId

def targets (s : ModuleSet) : List Module := s.modules.filter Module.target

def view (s : ModuleSet) : View := .merged s.modules true

def schemaView (s : ModuleSet) : View := .only [.schema] s.view

/-! ### Imports -/

def answer {α : Type} (a : Except Error α) : SetAct α := ExceptT.mk (pure a)

/-- Asks for something that is found out once. -/
def once {α : Type} (get : ModuleSet → Memo Error α) (set : Memo Error α → ModuleSet → ModuleSet)
    (find : SetAct α) : SetAct α :=
  ExceptT.mk (Memo.force (.internal .reentrant) get set find.run)

def fileIndex (w : World) : SetAct FileIndex :=
  once ModuleSet.index (fun m s => { s with index := m }) do
    let s ← get
    answer (s.modules.mapM fun m => do return (← m.walk w).map FileInfo.path)

def holders (index : FileIndex) (path : String) : List Nat :=
  (List.range index.length).filter fun i => (index[i]?.getD []).contains path

/-- The module that an import is served from: the first that has the path, unless the importing
module has it itself. -/
def server? (index : FileIndex) (importer : Nat) (path : String) : Option Nat :=
  let owners := holders index path
  if owners.contains importer then none else owners.head?

def importedPaths (w : World) (m : Module) : Except Error (List String) := do
  let infos ← m.objects w
  let schemas := infos.filter fun info => Module.kindOf? info.path = some .schema
  let imports ← schemas.mapM fun info => do
    Module.checkLive w.live
    let content ← (m.files.read w.volumes w.live info.path).mapError .storage
    return Schema.scanImports (Text.lenientText content)
  return imports.flatten

/-- The module at a position, which is still in a set that is in use. -/
def member (i : Nat) : SetAct Module := do
  let s ← get
  match s.modules[i]? with
  | none => throw (.fault "there is no such module in the set")
  | some m =>
    if s.inUse then return m
    else throw (.fault s!"the module set of {m.description} was dropped")

/-- The modules that a module imports from, in the order of the set. -/
def directImports (w : World) (i : Nat) : SetAct (List Nat) :=
  once (fun s => s.imports[i]?.getD .unresolved)
    (fun m s => { s with imports := s.imports.set i m }) do
      let m ← member i
      let index ← fileIndex w
      let paths ← answer (importedPaths w m)
      let servers := paths.filterMap (server? index i)
      return (List.range index.length).filter servers.contains

/-! ### Dependencies -/

/-- Goes on from modules that were reached to those that they import from; `reached` lists all so
far. Every module joins the queue once, so their number bounds the steps. -/
def reachFrom (w : World) (self : Nat) : Nat → List Nat → List Nat → SetAct (List Nat)
  | steps + 1, i :: queue, reached => do
    let next := (← directImports w i).filter fun j => j ≠ self && !reached.contains j
    reachFrom w self steps (queue ++ next) (reached ++ next)
  | _, _, reached => return reached

structure Dependency where
  position : Nat
  module : Module
  isDirect : Bool

/-- The modules that a module depends on, by ID. -/
def dependencies (w : World) (i : Nat) : SetAct (List Dependency) := do
  let _ ← member i
  let direct ← directImports w i
  let s ← get
  let reached ← reachFrom w i s.modules.length direct direct
  let deps := reached.filterMap fun j =>
    s.modules[j]?.map fun m => ⟨j, m, direct.contains j⟩
  return sortedBy (fun d => d.module.id) deps

/-- The digest of a module, at most so many modules deep: that of the key of a fetched module, and
that of the files and the digests of all dependencies of a local one. -/
def digestWithin (w : World) : Nat → Nat → SetAct Digest
  | 0, _ => throw (.fault "module digests are nested too deeply")
  | depth + 1, i =>
    once (fun s => s.digests[i]?.getD .unresolved)
      (fun m s => { s with digests := s.digests.set i m }) do
        let s ← get
        match s.modules[i]? with
        | none => throw (.fault "there is no such module in the set")
        | some m =>
          match m.origin with
          | .fetched _ digest => answer digest
          | .workspace =>
            let manifest ← answer ((Manifest.ofBucket w.volumes w.live m.files).mapError .digest)
            let deps ← dependencies w i
            let digests ← deps.mapM fun d => digestWithin w depth d.position
            answer ((Digest.b5 manifest digests).mapError .digest)

def digest (w : World) (i : Nat) : SetAct Digest := do
  digestWithin w ((← get).modules.length + 1) i

/-! ### The graph of all modules -/

def importGraph (w : World) : SetAct (List (List Nat)) := do
  (List.range (← get).modules.length).mapM (directImports w)

/-- The local target modules and the local modules among all that they lead to. -/
def targetClosure (w : World) : SetAct (List Module) := do
  let graph ← importGraph w
  let s ← get
  let starts := (List.range s.modules.length).filter fun i =>
    s.modules[i]?.any fun m => m.isLocal && m.target
  let reached := Graph.reachable (fun i => graph[i]?.getD []) graph.length starts
  let positions := (List.range s.modules.length).filter reached.contains
  return (positions.filterMap fun i => s.modules[i]?).filter Module.isLocal

/-- Refuses modules that depend on each other. A walk takes the imports of a module from the last
to the first. -/
def checkAcyclic (w : World) : SetAct Unit := do
  let graph ← importGraph w
  let s ← get
  match Graph.cycles (fun i => (graph[i]?.getD []).reverse) (List.range graph.length) with
  | [] => return
  | members :: _ =>
    let ids := sortedBy (fun x => x) (members.filterMap fun i => s.modules[i]?.map Module.id)
    throw (.cycle (ids ++ ids.take 1))

end ModuleSet

end Schemata

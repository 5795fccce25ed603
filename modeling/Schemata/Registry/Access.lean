import Schemata.Module.Delivery

/-!
# Access to the registry

Pushing modules to the registry and fetching them from there.
-/

namespace Schemata.Registry

open Storage

/-- The objects of a bucket with the contents, by path. -/
def contentsOf (w : World) (b : Bucket) : Except Module.Error (List (String × ByteArray)) := do
  let infos ← (b.list w.volumes w.live ".").mapError .storage
  infos.mapM fun info => do
    return (info.path, ← (b.read w.volumes w.live info.path).mapError .storage)

/-- The commit that pushed files make, with its ID. -/
def commitFor (name : ModuleName) (files : List (String × ByteArray)) (deps : List ModuleKey) :
    Act (CommitId × Commit) := do
  Act.checkLive
  let host := (← get).registry.host
  if name.registry ≠ host then
    throw (.remote s!"registry {host} cannot store module {name}")
  let objects ← Act.ofExcept ((Objects.ofFiles files).mapError .storage)
  let kept ← Act.ofWorld fun w => Module.filesOf w.volumes w.live (.objects objects)
  let digest ← Delivery.digestOf kept deps
  let id ← Act.ofExcept (idFor name digest)
  let content ← Act.ofWorld fun w => contentsOf w kept
  return (id, ⟨name, digest, Table.ofList content, deps⟩)

/-- Pushes files as a commit of a module. What the registry has already it keeps as it is. -/
def push (name : ModuleName) (files : List (String × ByteArray)) (deps : List ModuleKey)
    (labels : List String) : Act ModuleKey := do
  let (id, c) ← commitFor name files deps
  modify fun w => { w with registry := w.registry.store id c labels }
  return keyOf id c

def deliver (r : Registry) (key : ModuleKey) : Except Module.Error Delivery :=
  match r.commit? key.name key.commit with
  | some c =>
    .ok (.sealed key (((Objects.ofFiles c.files.entries).map .objects).mapError .storage) c.deps)
  | none => .error (.notFound key.text)

def provider : Provider := fun keys => do
  Act.checkLive
  let deliveries ← Act.ofWorld fun w => keys.mapM w.registry.deliver
  modify fun w =>
    { w with registry := { w.registry with fetches := w.registry.fetches + deliveries.length } }
  return deliveries

end Schemata.Registry

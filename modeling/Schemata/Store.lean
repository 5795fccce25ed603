import Schemata.Registry.Access
import Schemata.Toml.Document

/-!
# The module store

Fetched modules are kept in a directory for each key: the files, and an entry that records the
digest and the dependencies. The entry is written last, and an entry that cannot be read counts as
none.
-/

namespace Schemata.Store

open Storage

def entryName : String := "module.toml"

/-- The directory of the files within that of a key. -/
def filesName : String := "files"

def dirOf (key : ModuleKey) (digest : Digest) : String :=
  Text.joined '/'
    [digest.type.text, key.name.registry, key.name.owner, key.name.name, key.commit.text]

/-! ### Entries -/

def depText (dep : ModuleKey × Digest) : String :=
  "\n[[deps]]\n" ++ Toml.assignment "name" dep.1.name.text ++
    Toml.assignment "commit" dep.1.commit.text ++ Toml.assignment "digest" dep.2.text

def entryText (digest : Digest) (deps : List (ModuleKey × Digest)) : String :=
  Toml.assignment "digest" digest.text ++
    if deps.isEmpty then "deps = []\n" else String.join (deps.map depText)

def readDep (v : Toml.Value) : Option ModuleKey := do
  let [name, commit, digest] ← v.fields? ["name", "commit", "digest"] | none
  let name ← Toml.required Toml.Value.text? name
  let commit ← Toml.required Toml.Value.text? commit
  let digest ← Toml.required Toml.Value.text? digest
  return ⟨← (ModuleName.parse name).toOption, ← (CommitId.parse commit).toOption,
    .known (← (Digest.parse digest).toOption)⟩

/-- Reads an entry: the recorded digest and the dependencies. -/
def readEntry (content : ByteArray) : Option (Digest × List ModuleKey) := do
  let document ← Toml.parse (← String.fromUTF8? content)
  let [digest, deps] ← document.fields? ["digest", "deps"] | none
  let digest ← Toml.required Toml.Value.text? digest
  let deps ← Toml.optional [] (Toml.Value.items? readDep) deps
  return (← (Digest.parse digest).toOption, deps)

/-! ### Access -/

/-- The delivery that the store has for a key, if it has one. -/
def find (key : ModuleKey) : Act (Option Delivery) := do
  let digest ← key.resolveDigest
  let dir := dirOf key digest
  let w ← get
  match World.storeBucket.read w.volumes w.live (Path.join dir entryName) with
  | .error _ => return none
  | .ok content =>
    match readEntry content with
    | some (recorded, deps) =>
      if recorded = digest then
        let files := Bucket.mapped World.storeBucket [.strip (Path.join dir filesName)]
        return some (.sealed key (.ok files) deps)
      else return none
    | none => return none

/-- The deliveries that the store has for some keys, and the keys it has none for. -/
def getAll : List ModuleKey → Act (List Delivery × List ModuleKey)
  | [] => return ([], [])
  | key :: keys => do
    Act.checkLive
    let found ← find key
    let (deliveries, missing) ← getAll keys
    match found with
    | some d => return (d :: deliveries, missing)
    | none => return (deliveries, key :: missing)

def write (path : String) (content : ByteArray) : Act Unit := fun w =>
  let (r, store) := w.store.put w.live path content
  (r.mapError .storage, { w with store })

/-- Keeps a delivery: its files one by one, and then its entry. -/
def put (d : Delivery) : Act Delivery := do
  let (contents, d) ← d.contents
  let digest ← d.key.resolveDigest
  let dir := dirOf d.key digest
  let infos ← Act.ofWorld fun w => (contents.files.list w.volumes w.live ".").mapError .storage
  for info in infos do
    let content ← Act.ofWorld fun w =>
      (contents.files.read w.volumes w.live info.path).mapError .storage
    write (Path.join (Path.join dir filesName) info.path) content
  let deps ← contents.deps.mapM fun dep => do return (dep, ← dep.resolveDigest)
  write (Path.join dir entryName) (entryText digest deps).toUTF8
  return d

/-- Keeps some deliveries in turn. -/
def putAll : List Delivery → Act (List Delivery)
  | [] => return []
  | d :: ds => do
    Act.checkLive
    let d ← put d
    return d :: (← putAll ds)

/-! ### The store as a cache -/

/-- Deliveries in the order of some keys. A found delivery is taken when its commit is next, and
a fetched one otherwise. -/
def interleave :
    List ModuleKey → List Delivery → List Delivery → Except Module.Error (List Delivery)
  | [], _, _ => .ok []
  | key :: keys, found, fetched =>
    let lost : Module.Error := .fault s!"no module data was produced for {key}"
    match found with
    | d :: found' =>
      if d.key.commit = key.commit then (interleave keys found' fetched).map (d :: ·)
      else
        match fetched with
        | e :: fetched => (interleave keys found fetched).map (e :: ·)
        | [] => .error lost
    | [] =>
      match fetched with
      | e :: fetched => (interleave keys [] fetched).map (e :: ·)
      | [] => .error lost

/-- The provider that asks the store first and keeps what it had to ask another provider for. -/
def cached (provider : Provider) : Provider := fun keys => do
  let (found, missing) ← getAll keys
  let fetched ← if missing.isEmpty then pure [] else do putAll (← provider missing)
  Act.ofExcept (interleave keys found fetched)

end Schemata.Store

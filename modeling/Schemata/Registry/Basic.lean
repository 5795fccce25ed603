import Schemata.Digest.Basic
import Schemata.Module.Error
import Schemata.ModuleName
import Schemata.Table

/-!
# Registries

A registry keeps the commits of the modules on its host. A commit is found by its ID, by a label,
or as the one of its module that was stored last.
-/

namespace Schemata

/-! ### Module keys

A key says which commit of which module is meant, and what its digest is. The digest is known from
the start, or it is asked of the registry once and kept in a cell.
-/

abbrev DigestCell := Nat

inductive KeyDigest
  | known (digest : Digest)
  | asked (cell : DigestCell)
  deriving DecidableEq

/-- A commit of a module, with its digest. -/
structure ModuleKey where
  name : ModuleName
  commit : CommitId
  digest : KeyDigest
  deriving DecidableEq

namespace ModuleKey

/-- The text of a module's name and a commit. -/
def render (name : ModuleName) (commit : CommitId) : String := name.text ++ ":" ++ commit.text

/-- The text of a key; the digest is no part of it. -/
def text (k : ModuleKey) : String := render k.name k.commit

instance : ToString ModuleKey := ⟨text⟩

end ModuleKey

/-! ### What a registry keeps -/

/-- A commit: the module it belongs to, its digest, its files and its dependencies. -/
structure Commit where
  name : ModuleName
  digest : Digest
  files : Table ByteArray
  deps : List ModuleKey

/-- What a registry keeps. Stored commits and labels are listed with the latest first. -/
structure Registry where
  host : String
  commits : Table Commit
  history : List (ModuleName × CommitId)
  labels : List ((ModuleName × String) × CommitId)
  /-- How many commits were handed out. -/
  fetches : Nat

namespace Registry

def empty (host : String) : Registry := ⟨host, .empty, [], [], 0⟩

def commit? (r : Registry) (name : ModuleName) (id : CommitId) : Option Commit :=
  (r.commits.find? id.text).filter fun c => c.name = name

def keyOf (id : CommitId) (c : Commit) : ModuleKey := ⟨c.name, id, .known c.digest⟩

/-- The ID that a reference stands for, if it stands for any. -/
def idOf? (r : Registry) (ref : ModuleRef) : Option CommitId :=
  match ref.reference with
  | none => (r.history.find? fun e => e.1 = ref.module).map (·.2)
  | some reference =>
    match CommitId.parse reference with
    | .ok id => some id
    | .error _ => (r.labels.find? fun e => e.1 = (ref.module, reference)).map (·.2)

/-- The commit that a reference stands for. -/
def resolve (r : Registry) (ref : ModuleRef) : Except Module.Error ModuleKey :=
  match (do let id ← r.idOf? ref; return (id, ← r.commit? ref.module id)) with
  | some (id, c) => .ok (keyOf id c)
  | none => .error (.notFound ref.text)

def digestOf (r : Registry) (name : ModuleName) (id : CommitId) : Except Module.Error Digest :=
  match r.commit? name id with
  | some c => .ok c.digest
  | none => .error (.notFound (ModuleKey.render name id))

/-- The ID of the commit of a module with a digest. -/
def idFor (name : ModuleName) (digest : Digest) : Except Module.Error CommitId :=
  let hash := ContentHash.ofText (name.text ++ ":" ++ digest.text)
  (CommitId.parse (String.ofList (hash.text.toList.take 32))).mapError .name

/-- Stores a commit, unless its ID is taken, and gives it labels. -/
def store (r : Registry) (id : CommitId) (c : Commit) (labels : List String) : Registry :=
  let r :=
    if r.commits.has id.text then r
    else { r with commits := r.commits.insert id.text c, history := (c.name, id) :: r.history }
  { r with labels := labels.reverse.map (fun l => ((c.name, l), id)) ++ r.labels }

/-- Changes a file of a stored commit behind everybody's back. -/
def tamper (r : Registry) (id : CommitId) (path : String) (content : ByteArray) : Registry :=
  match r.commits.find? id.text with
  | some c =>
    { r with commits := r.commits.insert id.text { c with files := c.files.insert path content } }
  | none => r

end Registry

end Schemata

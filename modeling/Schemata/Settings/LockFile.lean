import Schemata.Settings.Error

/-!
# Lock files

The file that fixes the commits of a workspace's dependencies. It is written in the order of the
module names, one table for each.
-/

namespace Schemata.Settings

open Text

/-- The commit that a dependency is fixed to. -/
structure LockedModule where
  name : ModuleName
  commit : CommitId
  digest : Option Digest
  deriving DecidableEq

structure LockFile where
  version : Version
  deps : List LockedModule
  deriving DecidableEq

namespace LockFile

def fileName : String := "strata.lock"

def ordered (deps : List LockedModule) : List LockedModule :=
  sortedByTexts (fun d => d.name.key) deps

/-! ### Reading -/

structure DepTable where
  name : String
  commit : String
  digest : Option String

def DepTable.read (v : Toml.Value) : Option DepTable := do
  let [name, commit, digest] ← v.fields? ["name", "commit", "digest"] | none
  return ⟨← Toml.required string name, ← Toml.required string commit,
    ← Toml.optional none (fun v => (string v).map some) digest⟩

/-- The tables of the dependencies. A lock file names its version. -/
def readTables (document : Toml.Value) : Option (List DepTable) := do
  let [version, deps] ← document.fields? ["version", "deps"] | none
  let _ ← Toml.required string version
  Toml.optional [] (Toml.Value.items? DepTable.read) deps

/-- Version v2 wants a digest of the current type. -/
def checkDigest (version : Version) (name : ModuleName) : Option Digest → Except Error Unit
  | some digest =>
    if version = .v2 ∧ digest.type ≠ .b5 then
      .error (.invalid fileName s!"dependency {name} has digest {digest}, expected a b5 digest")
    else .ok ()
  | none =>
    if version = .v2 then .error (.invalid fileName s!"dependency {name} has no digest")
    else .ok ()

def DepTable.locked (version : Version) (t : DepTable) : Except Error LockedModule := do
  let name ← (ModuleName.parse t.name).mapError .name
  let commit ← (CommitId.parse t.commit).mapError .name
  let digest ← match t.digest with
    | some d => do pure (some (← (Digest.parse d).mapError Error.digest))
    | none => pure none
  checkDigest version name digest
  return ⟨name, commit, digest⟩

/-- The first name that two neighbours share. -/
def duplicate? : List LockedModule → Option ModuleName
  | a :: b :: rest => if a.name = b.name then some a.name else duplicate? (b :: rest)
  | _ => none

def parse (text : String) : Except Error LockFile := do
  let document ← readDocument fileName text
  let version := (← readVersion fileName document).getD .v1beta1
  let tables ← orMalformed fileName (readTables document)
  let deps := ordered (← tables.mapM (DepTable.locked version))
  match duplicate? deps with
  | some name => throw (.invalid fileName s!"dependency {name} is listed more than once")
  | none => return ⟨version, deps⟩

def ofBucket (volumes : Storage.Volumes) (live : Bool) (b : Storage.Bucket) (dir : String) :
    Except Error LockFile := do
  parse (← readText volumes live b dir fileName)

/-! ### Writing -/

def depText (d : LockedModule) : String :=
  "\n[[deps]]\n" ++ Toml.assignment "name" d.name.text ++ Toml.assignment "commit" d.commit.text ++
    (match d.digest with
      | some digest => Toml.assignment "digest" digest.text
      | none => "")

def text (f : LockFile) : String :=
  Toml.assignment "version" f.version.text ++
    if f.deps.isEmpty then "deps = []\n" else String.join ((ordered f.deps).map depText)

end LockFile

end Schemata.Settings

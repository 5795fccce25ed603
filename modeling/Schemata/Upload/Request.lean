import Schemata.Module.Basic

/-!
# Upload requests

What is sent to a registry for some modules: their files and what they depend on. Modules of one
request refer to each other by name, because their commits do not exist yet.
-/

namespace Schemata.Upload

open Schemata.Module (Attachment)

inductive Error
  | canceled
  | internal (cause : InternalError)
  | module (cause : Module.Error)
  | nameless (id : String)
  | severalRegistries (hosts : List String)
  | notLocal (id : String)
  | dependencyLeftOut (id dependency : String)
  | commitCount (expected actual : Nat)
  | digestMismatch (name : ModuleName) (expected actual : Digest)
  deriving DecidableEq

namespace Error

def fault (detail : String) : Error := .internal ⟨detail⟩

def message : Error → String
  | .canceled => canceledMessage
  | .internal cause => cause.message
  | .module cause => cause.message
  | .nameless id => s!"Module {id} had no name; a name must be specified in strata.toml for push"
  | .severalRegistries hosts =>
    "multiple registries detected: " ++ String.intercalate ", " hosts
  | .notLocal id => s!"module {id} is not a local module and cannot be pushed"
  | .dependencyLeftOut id dependency =>
    s!"local dependency {dependency} of {id} must be pushed in the same upload"
  | .commitCount expected actual => s!"expected {expected} commits, got {actual}"
  | .digestMismatch name expected actual =>
    s!"registry returned digest \"{actual}\" for {name} but the uploaded content has digest \"{expected}\""

end Error

inductive Dependency
  /-- A module of the same request. -/
  | sibling (name : ModuleName)
  /-- A commit that the registry has. -/
  | commit (name : ModuleName) (id : CommitId)
  deriving DecidableEq

namespace Dependency

def name : Dependency → ModuleName
  | .sibling name => name
  | .commit name _ => name

/-- What dependencies are ordered by: siblings first, then the name, then the commit. -/
def key : Dependency → List String
  | .sibling name => "" :: name.key
  | .commit name id => "commit" :: name.key ++ [id.text]

end Dependency

structure Content where
  name : ModuleName
  /-- The files, by path. -/
  files : List (String × ByteArray)
  /-- All modules that it depends on, in order and without repeats. -/
  deps : List Dependency
  v1Config : Option Attachment
  v1Lock : Option Attachment

/-- What is sent for some modules. -/
structure Request where
  contents : List Content
  /-- The labels for all commits, in order and without repeats. -/
  labels : List String

/-- A commit as the registry reports it. -/
structure Receipt where
  name : ModuleName
  commit : CommitId
  digest : Digest
  deriving DecidableEq

/-- What takes requests and answers with a receipt for each module, in order. -/
abbrev Client := Request → ExceptT Error (StateM World) (List Receipt)

end Schemata.Upload

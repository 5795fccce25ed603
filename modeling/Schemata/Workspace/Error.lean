import Schemata.Module.Error
import Schemata.Settings.Error
import Schemata.Workspace.Targeting

/-!
# Failures of workspaces

Why no workspace can be made of a directory or a key.
-/

namespace Schemata.Workspace

inductive Error
  | canceled
  | internal (cause : InternalError)
  | settings (cause : Settings.Error)
  | module (cause : Module.Error)
  | storage (cause : Storage.Error)
  | path (value : String) (cause : Path.Error)
  | targeting (cause : TargetingError)
  /-- References to one module that differ. -/
  | conflictingRefs (refs : List ModuleRef)
  | lockVersion (lock config : Settings.Version)
  | v2Module (dir : String)
  deriving DecidableEq

namespace Error

def fault (detail : String) : Error := .internal ⟨detail⟩

def message : Error → String
  | .canceled => canceledMessage
  | .internal cause => cause.message
  | .settings cause => cause.message
  | .module cause => cause.message
  | .storage cause => cause.message
  | .path value cause => s!"invalid path {Text.quoted value}: {cause.message}"
  | .targeting cause => cause.message
  | .conflictingRefs refs =>
    "found different refs for the same module within deps in the workspace: " ++
      String.intercalate ", " (refs.map ModuleRef.text)
  | .lockVersion lock config => s!"got a {lock.text} lock file for a {config.text} config"
  | .v2Module dir =>
    s!"module directory \"{dir}\" has a v2 config and cannot be listed in a workspace file"

/-- Whether the program itself is at fault. -/
def isInternal : Error → Bool
  | .internal _ => true
  | .module cause => cause.isInternal
  | _ => false

def isNoTargetFiles (e : Error) : Bool := decide (e = .module .noTargetFiles)

end Error

end Schemata.Workspace

import Schemata.Failure
import Schemata.Path

/-!
# Failures of storage

A bucket holds objects under normal paths. An object that is not there is told apart from every
other failure, because a look-up may go on elsewhere.
-/

namespace Schemata.Storage

/-- Why an object cannot be read or written. -/
inductive Error
  | missing (path : String)
  | invalidPath (path : String) (cause : Path.Error)
  | io (path : String) (detail : String)
  | canceled
  deriving DecidableEq, Repr

namespace Error

def message : Error → String
  | .missing path => s!"{path}: does not exist"
  | .invalidPath path cause => s!"invalid path {Text.quoted path}: {cause.message}"
  | .io path detail => s!"storage I/O error at {path}: {detail}"
  | .canceled => canceledMessage

def isMissing : Error → Bool
  | .missing _ => true
  | _ => false

end Error

/-- Refuses to go on once the operation is canceled. -/
def checkLive (live : Bool) : Except Error Unit :=
  if live then .ok () else .error .canceled

def checkObjectPath (path : String) : Except Error Unit :=
  match Path.validateObject path with
  | .ok () => .ok ()
  | .error cause => .error (.invalidPath path cause)

end Schemata.Storage

import Schemata.Digest.Basic
import Schemata.ModuleName

/-!
# Failures around modules

Why a module cannot be found, read, verified or put into a set.
-/

namespace Schemata.Module

/-- Why an operation on modules fails. -/
inductive Error
  | canceled
  | internal (cause : InternalError)
  | storage (cause : Storage.Error)
  | digest (cause : DigestError)
  | name (cause : NameError)
  | verification (key : String) (expected actual : Digest)
  | noTargetFiles
  | conflict (name : ModuleName) (first second : Digest)
  | duplicate (what value : String)
  /-- Modules that depend on each other; the first is repeated at the end. -/
  | cycle (ids : List String)
  | notFound (key : String)
  | remote (reason : String)
  deriving DecidableEq

namespace Error

def fault (detail : String) : Error := .internal ⟨detail⟩

def message : Error → String
  | .canceled => canceledMessage
  | .internal cause => cause.message
  | .storage cause => cause.message
  | .digest cause => cause.message
  | .name cause => cause.message
  | .verification key expected actual =>
    s!"verification failed for module {key}: expected digest \"{expected}\" but downloaded data had digest \"{actual}\""
  | .noTargetFiles => "no .schema target files found"
  | .conflict m first second =>
    s!"module {m} was added with conflicting digests \"{first}\" and \"{second}\""
  | .duplicate what value => s!"multiple local modules were added with {what} {value}"
  | .cycle ids => "cycle detected in module dependencies: " ++ String.intercalate " -> " ids
  | .notFound key => s!"module {key} was not found"
  | .remote reason => s!"remote error: {reason}"

/-- Whether the failure is that an object does not exist. -/
def isMissing : Error → Bool
  | .storage cause => cause.isMissing
  | _ => false

/-- Whether the program itself is at fault. -/
def isInternal : Error → Bool
  | .internal _ => true
  | _ => false

end Error

/-- Refuses to go on after a cancellation. -/
def checkLive (live : Bool) : Except Error Unit := if live then .ok () else .error .canceled

end Schemata.Module

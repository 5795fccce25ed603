import Schemata.Digest.Basic

/-!
# Failures of checks

Why a check does not run or a plugin cannot be used.
-/

namespace Schemata.Check

open Text

/-- Why a check does not run or a plugin cannot be used. -/
inductive Error
  | canceled
  | internal (cause : InternalError)
  | unknownRule (id : String)
  | invalidPlugin (reason : String)
  | notWasm (plugin : String)
  | unsupportedDigest (type : DigestType)
  deriving DecidableEq, Repr

def Error.message : Error → String
  | .canceled => canceledMessage
  | .internal cause => cause.message
  | .unknownRule id => s!"unknown rule ID or category {quoted id}"
  | .invalidPlugin reason => s!"invalid plugin: {reason}"
  | .notWasm plugin => s!"plugin {plugin} is not a Wasm plugin"
  | .unsupportedDigest type => s!"plugins do not support {type.text} digests"

end Schemata.Check

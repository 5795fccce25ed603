/-!
# Failures of any operation

Two failures belong to no part of the domain. An operation may have been canceled, and an internal
error says that the program itself is at fault.
-/

namespace Schemata

/-- The program broke a rule of its own. -/
structure InternalError where
  detail : String
  deriving DecidableEq, Repr

namespace InternalError

/-- The wording of an internal error. -/
def message (e : InternalError) : String :=
  s!"internal error: {e.detail} (this is a bug, please file an issue)"

/-- A computation asked for the very value that it computes. -/
def reentrant : InternalError :=
  ⟨"re-entrant access to a memoized value that is being resolved"⟩

end InternalError

/-- The wording of a refusal after a cancellation. -/
def canceledMessage : String := "operation canceled"

end Schemata

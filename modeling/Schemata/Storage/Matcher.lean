import Schemata.Path

/-!
# Path patterns

A matcher is a condition on paths, built from extensions and directories.
-/

namespace Schemata.Storage

inductive Matcher
  | extension (text : String)
  | exactly (path : String)
  | inside (dir : String)
  | under (dir : String)
  | all (ms : List Matcher)
  | any (ms : List Matcher)
  | not (m : Matcher)

instance : Inhabited Matcher := ⟨.all []⟩

namespace Matcher

mutual

/-- Whether a path meets the condition. -/
def accepts : Matcher → String → Bool
  | .extension text, path => Path.extension path = text
  | .exactly expected, path => path = expected
  | .inside dir, path => Path.contains dir path
  | .under dir, path => Path.covers dir path
  | .all ms, path => acceptsEach ms path
  | .any ms, path => acceptsSome ms path
  | .not m, path => !accepts m path

/-- Whether a path meets every condition. -/
def acceptsEach : List Matcher → String → Bool
  | [], _ => true
  | m :: ms, path => accepts m path && acceptsEach ms path

/-- Whether a path meets one of the conditions. -/
def acceptsSome : List Matcher → String → Bool
  | [], _ => false
  | m :: ms, path => accepts m path || acceptsSome ms path

end

theorem acceptsEach_eq_all (ms : List Matcher) (path : String) :
    acceptsEach ms path = ms.all fun m => m.accepts path := by
  induction ms with
  | nil => rfl
  | cons m ms ih => simp [acceptsEach, ih]

theorem acceptsSome_eq_any (ms : List Matcher) (path : String) :
    acceptsSome ms path = ms.any fun m => m.accepts path := by
  induction ms with
  | nil => rfl
  | cons m ms ih => simp [acceptsSome, ih]

end Matcher

end Schemata.Storage

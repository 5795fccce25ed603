import Schemata.Check.Error
import Schemata.Check.Rule
import Schemata.Diagnostic.Notice
import Schemata.Settings.Checks

/-!
# Running checks

An engine holds rules. The settings select some of them by ID or by category, and hold back the
findings about ignored paths. What is left is reported in order, each finding once.
-/

namespace Schemata.Check

open Settings (CheckSettings LintSettings BreakingSettings)

/-- The rules that can be selected. -/
structure Engine where
  lint : List LintRule
  breaking : List BreakingRule

namespace Engine

def empty : Engine := ⟨[], []⟩

def standard : Engine := ⟨lintRules, breakingRules⟩

def addLint (e : Engine) (r : LintRule) : Engine := { e with lint := e.lint ++ [r] }

/-- The engine with one more breaking-change rule. -/
def addBreaking (e : Engine) (r : BreakingRule) : Engine :=
  { e with breaking := e.breaking ++ [r] }

end Engine

variable {α : Type}

/-! ### Selection -/

/-- The categories that always exist, with rules or without. -/
def knownCategories : List String := ["MINIMAL", "DEFAULT", "STANDARD", "FILE"]

/-- The rule IDs that an ID or a category stands for. -/
def expandId (rules : List (Rule α)) (id : String) : Except Error (List String) :=
  if rules.any fun r => r.id = id then .ok [id]
  else
    let members := (rules.filter fun r => r.categories.contains id).map Rule.id
    if members.isEmpty && !knownCategories.contains id then .error (.unknownRule id)
    else .ok members

/-- The rule IDs that some IDs and categories stand for. -/
def expand (rules : List (Rule α)) (ids : List String) : Except Error (List String) :=
  (ids.mapM (expandId rules)).map List.flatten

def select (rules : List (Rule α)) (s : CheckSettings) : Except Error (List (Rule α)) := do
  let used ← expand rules s.use
  let excepted ← expand rules s.except
  let _ ← expand rules s.ignoreOnly.keys
  return rules.filter fun r =>
    !(s.disableBuiltin && r.builtin) && used.contains r.id && !excepted.contains r.id

def selectedIds (rules : List (Rule α)) (s : CheckSettings) : Except Error (List String) :=
  (select rules s).map fun rs => rs.map Rule.id

/-! ### Findings -/

/-- Whether settings hold back what a rule finds in a file. -/
def isIgnored (s : CheckSettings) (r : Rule α) (path : String) : Bool :=
  (s.ignore.any fun dir => Path.covers dir path) ||
    s.ignoreOnly.entries.any fun (id, dirs) =>
      (id = r.id || r.categories.contains id) && dirs.any fun dir => Path.covers dir path

def noticeOf (r : Rule α) (f : Finding) : Notice :=
  match f.location with
  | some l => ⟨some f.path, some f.external, l.first, l.last, r.id, f.message⟩
  | none => .ofFile f.path f.external r.id f.message

/-- The notices of what a rule finds and settings do not hold back. -/
def noticesOf (s : CheckSettings) (r : Rule α) (subject : α) : List Notice :=
  ((r.check subject).filter fun f => !isIgnored s r f.path).map (noticeOf r)

/-- Refuses to go on after a cancellation. -/
def checkLive (live : Bool) : Except Error Unit := if live then .ok () else .error .canceled

def Engine.lintImage (e : Engine) (live : Bool) (image : Image) (s : LintSettings) :
    Except Error (List Notice) := do
  let rules ← select e.lint s.checks
  let targets := image.targets
  if !targets.isEmpty then checkLive live
  return Notice.sortDistinct <| targets.flatMap fun f =>
    rules.flatMap fun r => noticesOf s.checks r (f, image)

/-- Whether a file's package is an unstable version, in the current image or else in the previous
one. -/
def isUnstableFile (c : Change) (path : String) : Bool :=
  (c.current.file? path <|> c.previous.file? path).any fun f =>
    isUnstablePackage f.descriptor.package

def Engine.compareImages (e : Engine) (live : Bool) (c : Change) (s : BreakingSettings) :
    Except Error (List Notice) := do
  let rules ← select e.breaking s.checks
  if !rules.isEmpty then checkLive live
  return Notice.sortDistinct <| (rules.flatMap fun r => noticesOf s.checks r c).filter fun n =>
    !(s.ignoreUnstable && n.path.any (isUnstableFile c))

end Schemata.Check

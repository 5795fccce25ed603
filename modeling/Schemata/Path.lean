import Schemata.Text.Quoted
import Schemata.Text.Split

/-!
# Relative paths

Objects, directories and modules are named by relative paths with single slashes. `normalize`
brings any spelling to its one normal form: components without empty ones, `.` or `..`, or `.` for
the root itself. The other operations are cuts and comparisons of the text; `components` is the
list they are about.
-/

namespace Schemata.Path

open Schemata.Text

inductive Error
  | empty
  | absolute (path : String)
  | escapesRoot (path : String)
  | notNormalized (path normalized : String)
  | root
  | notContained (base target : String)
  deriving DecidableEq, Repr

def Error.message : Error → String
  | .empty => "path is empty"
  | .absolute path => s!"path {quoted path} is absolute, expected a relative path"
  | .escapesRoot path => s!"path {quoted path} escapes its root"
  | .notNormalized path normalized =>
    s!"path {quoted path} is not normalized, expected {quoted normalized}"
  | .root => "path \".\" does not name an object"
  | .notContained base target => s!"path {quoted target} is not contained in {quoted base}"

/-! ### Normal form -/

/-- The components of a normal path; the root has none. -/
def components (path : String) : List (List Char) :=
  if path = "." then [] else path.toList.splitOn '/'

def ofComponents : List (List Char) → String
  | [] => "."
  | cs => String.ofList (List.intercalate ['/'] cs)

/-- Walks components from a stack of names: empty components and `.` stay in place, `..` goes back
to the parent, and there is no parent of the root. -/
def walk : List (List Char) → List (List Char) → Option (List (List Char))
  | stack, [] => some stack.reverse
  | stack, c :: cs =>
    if c = [] ∨ c = ['.'] then walk stack cs
    else if c = ['.', '.'] then
      match stack with
      | [] => none
      | _ :: below => walk below cs
    else walk (c :: stack) cs

/-- The text with every backslash read as a slash. -/
def unified (path : String) : List Char :=
  path.toList.map fun c => if c = '\\' then '/' else c

def normalize (path : String) : Except Error String :=
  match unified path with
  | [] => .error .empty
  | '/' :: _ => .error (.absolute path)
  | cs =>
    match walk [] (cs.splitOn '/') with
    | none => .error (.escapesRoot path)
    | some names => .ok (ofComponents names)

/-- Accepts the normal paths that name an object, which the root does not. -/
def validateObject (path : String) : Except Error Unit := do
  let normalized ← normalize path
  if normalized = "." then throw .root
  if normalized ≠ path then throw (.notNormalized path normalized)

/-! ### Parts -/

/-- The path `rest` below `base`. -/
def join (base rest : String) : String :=
  if base = "." ∨ base = "" then rest
  else if rest = "." ∨ rest = "" then base
  else base ++ "/" ++ rest

/-- The path without its last component. -/
def parent (path : String) : String :=
  match cutLast '/' path.toList with
  | some (before, _) => String.ofList before
  | none => "."

def lastName (path : String) : String :=
  match cutLast '/' path.toList with
  | some (_, after) => String.ofList after
  | none => path

/-- The last component from its last dot on. A dot that opens the name starts no extension. -/
def extension (path : String) : String :=
  match cutLast '.' (lastName path).toList with
  | some (_ :: _, after) => String.ofList ('.' :: after)
  | _ => ""

/-! ### Containment -/

/-- Whether `child` lies strictly inside `dir`. -/
def contains (dir child : String) : Bool :=
  if dir = "." then child ≠ "."
  else (dir.toList ++ ['/']).isPrefixOf child.toList

/-- Whether `path` is `dir` or lies inside it. -/
def covers (dir path : String) : Bool :=
  dir = path || contains dir path

/-- The path of `target` as seen from `base`. -/
def relative (base target : String) : Except Error String :=
  if base = target then .ok "."
  else if base = "." then .ok target
  else if contains base target then
    .ok (String.ofList (target.toList.drop (base.toList.length + 1)))
  else .error (.notContained base target)

theorem length_parent_lt {path : String} {a b : List Char}
    (h : cutLast '/' path.toList = some (a, b)) :
    (String.ofList a).toList.length < path.toList.length := by
  rw [(cutLast_eq_some.1 h).1]
  simp

/-- The path and the directories it lies in, deepest first, down to the root. -/
def ancestors (path : String) : List String :=
  if path = "." then [path]
  else
    match _h : cutLast '/' path.toList with
    | some (before, _) => path :: ancestors (String.ofList before)
    | none => [path, "."]
termination_by path.toList.length
decreasing_by exact length_parent_lt _h

def coveredBy (set : List String) (path : String) : Bool :=
  (ancestors path).any set.contains

/-- Whether some member of the set lies strictly inside the path. -/
def hasMemberInside (set : List String) (path : String) : Bool :=
  set.any (contains path)

end Schemata.Path

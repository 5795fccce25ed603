import Schemata.Path
import Schemata.Sorted

/-!
# Targeting

A request names what a user works on: a directory, some paths, or one file. Here it is brought down
to one module of a workspace: whether the module is a target, and which of its files. A path inside
several module directories belongs to the deepest. Within a module, paths are seen from the root
that holds them.
-/

namespace Schemata.Workspace

open Text

/-- What a user asks to work on. -/
structure Request where
  /-- The directory the user is in. -/
  subDir : String
  paths : List String
  excludes : List String
  /-- A single schema file. -/
  file : Option String
  /-- Whether the other files of that file's package belong to it. -/
  packageFiles : Bool

/-- Why a request makes no sense for a module. -/
inductive TargetingError
  | pathIsModuleDir (dir : String)
  | excludeIsModuleDir (dir : String)
  | fileWithPaths (file : String)
  deriving DecidableEq, Repr

def TargetingError.message : TargetingError → String
  | .pathIsModuleDir dir =>
    s!"module \"{dir}\" was specified with --path - specify this module path directly as an input"
  | .excludeIsModuleDir dir =>
    s!"module \"{dir}\" was specified with --exclude-path - this flag cannot be used to specify module directories"
  | .fileWithPaths file =>
    s!"cannot target schema file {quoted file} and target paths at the same time"

/-! ### Ownership -/

/-- How deep a directory lies, among directories that hold one path. -/
def depth (dir : String) : Nat := if dir = "." then 0 else dir.toList.length + 1

/-- The deepest of some directories that holds a path. -/
def owner? (dirs : List String) (path : String) : Option String :=
  (dirs.filter fun dir => Path.contains dir path).foldl
    (fun best dir =>
      match best with
      | some b => if depth b ≤ depth dir then some dir else some b
      | none => some dir)
    none

/-- Whether a path lies in a module directory and in no deeper one. -/
def owns (dirs : List String) (dir path : String) : Bool :=
  Path.contains dir path && owner? dirs path = some dir

/-- A path as seen from a directory that holds it. -/
def seenFrom (dir path : String) : String := (Path.relative dir path).toOption.getD "."

/-! ### Roots -/

/-- A path of a module as seen from the root that covers it; all of the module when it holds
roots. -/
def mapToRoots (roots : List String) (path : String) : Option String :=
  match roots.find? fun root => Path.covers root path with
  | some root => (Path.relative root path).toOption
  | none => if roots.any (Path.contains path) then some "." else none

/-! ### Modules -/

/-- What a request comes to for one module. -/
structure Targeting where
  dir : String
  /-- Whether the request is about the module at all. -/
  tentative : Bool
  /-- Whether the module is a target. -/
  target : Bool
  /-- The target paths, seen from the roots; none for all. -/
  paths : List String
  excludes : List String
  file : Option String
  packageFiles : Bool
  deriving DecidableEq, Repr

/-- The share of a request that is about one module directory, with paths seen from there. -/
structure Share where
  tentative : Bool
  whole : Bool
  parts : List String
  file : Option String

/-- The share of paths. A path around the module stands for all of it. -/
def Share.ofPaths (dirs : List String) (dir : String) (paths : List String) : Share :=
  let whole := paths.any fun path => Path.contains path dir
  let parts := paths.filter fun path => !Path.contains path dir && owns dirs dir path
  ⟨whole || !parts.isEmpty, whole, parts.map (seenFrom dir), none⟩

def Share.ofSubDir (dirs : List String) (dir sub : String) : Share :=
  if Path.covers sub dir then ⟨true, true, [], none⟩
  else if owns dirs dir sub then ⟨true, false, [seenFrom dir sub], none⟩
  else ⟨false, false, [], none⟩

def Share.ofFile (dirs : List String) (dir file : String) : Share :=
  if owns dirs dir file then ⟨true, false, [], some (seenFrom dir file)⟩
  else ⟨false, false, [], none⟩

def Request.share (r : Request) (dirs : List String) (dir : String) :
    Except TargetingError Share :=
  match r.file with
  | some file =>
    if r.paths.isEmpty then .ok (.ofFile dirs dir file) else .error (.fileWithPaths file)
  | none =>
    if r.paths.isEmpty then .ok (.ofSubDir dirs dir r.subDir)
    else if r.paths.contains dir then .error (.pathIsModuleDir dir)
    else .ok (.ofPaths dirs dir r.paths)

/-- What a request comes to for the module of a directory, among all module directories. -/
def Request.targeting (r : Request) (dirs : List String) (dir : String) (roots : List String) :
    Except TargetingError Targeting := do
  let share ← r.share dirs dir
  if r.excludes.contains dir then throw (.excludeIsModuleDir dir)
  let excludes := (r.excludes.filter (owns dirs dir)).filterMap fun path =>
    mapToRoots roots (seenFrom dir path)
  let excluded := r.excludes.any (fun path => Path.contains path dir) || excludes.contains "."
  let parts := if share.whole then [] else share.parts.filterMap (mapToRoots roots)
  let file := (share.file.bind (mapToRoots roots)).filter (· ≠ ".")
  let resolved := share.whole || !parts.isEmpty || file.isSome
  return {
    dir
    tentative := share.tentative
    target := share.tentative && resolved && !excluded
    paths := if parts.contains "." then [] else sortedSet parts
    excludes := sortedSet (excludes.filter (· ≠ "."))
    file
    packageFiles := r.packageFiles && file.isSome }

end Schemata.Workspace

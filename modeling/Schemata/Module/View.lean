import Schemata.Module.Basic

/-!
# Views of modules

Files are read from one module, or from several as if they were one: then each path is served by
the first module that has it. A view may be narrowed to some kinds of files.
-/

namespace Schemata.Module

open Storage

/-- A view of the files of modules. -/
inductive View
  | single (m : Module)
  /-- Several modules; the flag tells whether they should hold all files that they need. -/
  | merged (modules : List Module) (selfContained : Bool)
  | only (kinds : List FileKind) (inner : View)

namespace View

/-- The failure to find a path. -/
def missing (path : String) : Error := .storage (.missing path)

/-- Whether the view should hold all files that its files need. -/
def isSelfContained : View → Bool
  | .single _ => false
  | .merged _ selfContained => selfContained
  | .only _ inner => inner.isSelfContained

/-- The first answer of some modules that is not the failure to find a path. -/
def firstOf {α : Type} (ask : Module → Except Error α) (path : String) :
    List Module → Except Error α
  | [] => .error (missing path)
  | m :: ms =>
    match ask m with
    | .error e => if e.isMissing then firstOf ask path ms else .error e
    | .ok a => .ok a

def stat (w : World) (path : String) : View → Except Error FileInfo
  | .single m => m.stat w path
  | .merged modules _ => firstOf (fun m => m.stat w path) path modules
  | .only kinds inner => do
    let f ← inner.stat w path
    if kinds.contains f.kind then return f else throw (missing path)

def get (w : World) (path : String) : View → Except Error (FileInfo × ByteArray)
  | .single m => m.get w path
  | .merged modules _ => firstOf (fun m => m.get w path) path modules
  | .only kinds inner => do
    let _ ← (View.only kinds inner).stat w path
    inner.get w path

def firstOfPaths : List String → List FileInfo → List FileInfo
  | _, [] => []
  | seen, f :: fs =>
    if seen.contains f.path then firstOfPaths seen fs else f :: firstOfPaths (f.path :: seen) fs

/-- All files, by path. -/
def walk (w : World) : View → Except Error (List FileInfo)
  | .single m => m.walk w
  | .merged modules _ => do
    return sortedBy FileInfo.path (firstOfPaths [] (← modules.mapM (Module.walk w)).flatten)
  | .only kinds inner => do return (← inner.walk w).filter fun f => kinds.contains f.kind

/-- The target files, by path. A file of a module that hides a target file is none. -/
def targets (w : World) : View → Except Error (List FileInfo)
  | .single m => do return (← m.walk w).filter FileInfo.isTarget
  | .merged modules selfContained => do
    return (← (View.merged modules selfContained).walk w).filter FileInfo.isTarget
  | .only kinds inner => do return (← inner.targets w).filter fun f => kinds.contains f.kind

/-! ### Contents -/

def textOf (path : String) (content : ByteArray) : Except Error String :=
  match String.fromUTF8? content with
  | some text => .ok text
  | none => .error (.storage (.io path "stream did not contain valid UTF-8"))

def firstFile? (w : World) (v : View) : List String → Except Error (Option (FileInfo × ByteArray))
  | [] => .ok none
  | path :: paths =>
    match v.get w path with
    | .ok file => .ok (some file)
    | .error e => if e.isMissing then firstFile? w v paths else .error e

def doc? (w : World) (v : View) : Except Error (Option (FileInfo × ByteArray)) :=
  v.firstFile? w docPaths

def license? (w : World) (v : View) : Except Error (Option (FileInfo × ByteArray)) :=
  v.firstFile? w [licensePath]

/-! ### As objects -/

def storageError (path : String) : Error → Storage.Error
  | .storage cause => cause
  | .canceled => .canceled
  | e => .io path e.message

def objectInfo (f : FileInfo) : ObjectInfo := ⟨f.path, f.external⟩

def getObject (w : World) (v : View) (path : String) :
    Except Storage.Error (ObjectInfo × ByteArray) :=
  ((v.get w path).map fun r => (objectInfo r.1, r.2)).mapError (storageError path)

def statObject (w : World) (v : View) (path : String) : Except Storage.Error ObjectInfo :=
  ((v.stat w path).map objectInfo).mapError (storageError path)

/-- The files at or inside a directory as objects, by path. -/
def listObjects (w : World) (v : View) (dir : String) : Except Storage.Error (List ObjectInfo) :=
  ((v.walk w).map fun fs => (fs.filter fun f => Path.covers dir f.path).map objectInfo).mapError
    (storageError dir)

end View

end Schemata.Module

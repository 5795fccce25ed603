import Schemata.Storage.Matcher
import Schemata.Storage.Volume
import Schemata.Sorted

/-!
# Buckets

A bucket is a view of stored objects: a volume, a table of its own, another bucket with its paths
mapped, or several buckets of which the first that has an object serves it.
-/

namespace Schemata.Storage

/-- One step from the paths of an inner bucket to the paths of a view. -/
inductive Mapper
  /-- Only what lies inside the directory, by its path from there. -/
  | strip (dir : String)
  /-- Only the paths that the matcher accepts. -/
  | keep (m : Matcher)

namespace Mapper

def map? : Mapper → String → Option String
  | .strip dir, path => if Path.contains dir path then (Path.relative dir path).toOption else none
  | .keep m, path => if m.accepts path then some path else none

def unmap? : Mapper → String → Option String
  | .strip dir, path => some (Path.join dir path)
  | .keep m, path => if m.accepts path then some path else none

/-- The directory of the inner bucket that a directory of the view stands for. -/
def unmapDir : Mapper → String → String
  | .strip dir, path => Path.join dir path
  | .keep _, path => path

end Mapper

/-- The path in the view after every step. -/
def mapPath? (ms : List Mapper) (path : String) : Option String :=
  ms.foldlM (fun path m => m.map? path) path

/-- The path in the inner bucket that a path of the view comes from. -/
def unmapPath? (ms : List Mapper) (path : String) : Option String :=
  ms.reverse.foldlM (fun path m => m.unmap? path) path

/-- The directory of the inner bucket that a directory of the view stands for. -/
def unmapDir (ms : List Mapper) (dir : String) : String :=
  ms.reverse.foldl (fun path m => m.unmapDir path) dir

/-- A view of stored objects. -/
inductive Bucket
  | volume (index : Nat)
  | objects (table : Objects)
  | mapped (inner : Bucket) (mappers : List Mapper)
  | layered (layers : List Bucket)

instance : Inhabited Bucket := ⟨.objects .empty⟩

/-- Names the missing object by its path in the view. -/
def Error.atPath (path : String) : Error → Error
  | .missing _ => .missing path
  | e => e

namespace Bucket

mutual

/-- Reads an object and its content. -/
def get (volumes : Volumes) (live : Bool) :
    Bucket → String → Except Error (ObjectInfo × ByteArray)
  | .volume index, path =>
    match volumes[index]? with
    | some v => v.get live path
    | none => .error (.missing path)
  | .objects table, path => Volume.get live path (.table table)
  | .mapped inner mappers, path =>
    match unmapPath? mappers path with
    | none => .error (.missing path)
    | some innerPath =>
      match get volumes live inner innerPath with
      | .ok (info, content) => .ok (⟨path, info.external⟩, content)
      | .error e => .error (e.atPath path)
  | .layered layers, path => getFirst volumes live layers path

def getFirst (volumes : Volumes) (live : Bool) :
    List Bucket → String → Except Error (ObjectInfo × ByteArray)
  | [], path => .error (.missing path)
  | b :: bs, path =>
    match get volumes live b path with
    | .error (.missing _) => getFirst volumes live bs path
    | answer => answer

end

mutual

/-- The contents of all objects under a bucket, seen or not. -/
def contents (volumes : Volumes) : Bucket → List ByteArray
  | .volume index => (volumes[index]?.map Volume.contents).getD []
  | .objects table => table.values
  | .mapped inner _ => contents volumes inner
  | .layered layers => contentsOfEach volumes layers

/-- The contents of all objects under several buckets. -/
def contentsOfEach (volumes : Volumes) : List Bucket → List ByteArray
  | [] => []
  | b :: bs => contents volumes b ++ contentsOfEach volumes bs

end

def stat (volumes : Volumes) (live : Bool) (b : Bucket) (path : String) :
    Except Error ObjectInfo :=
  (b.get volumes live path).map (·.1)

mutual

/-- The tour of the objects at or inside a directory. -/
def tour (volumes : Volumes) : Bucket → String → Tour
  | .volume index, dir =>
    match volumes[index]? with
    | some v => v.tour dir
    | none => ⟨[], none⟩
  | .objects table, dir => Volume.tour dir (.table table)
  | .mapped inner mappers, dir =>
    (tour volumes inner (unmapDir mappers dir)).filterMap fun info =>
      match mapPath? mappers info.path with
      | some path => if Path.covers dir path then some ⟨path, info.external⟩ else none
      | none => none
  | .layered layers, dir => (tourOfEach volumes layers dir).distinct

/-- The tours of several buckets, one after the other. -/
def tourOfEach (volumes : Volumes) : List Bucket → String → Tour
  | [], _ => ⟨[], none⟩
  | b :: bs, dir => (tour volumes b dir).append (tourOfEach volumes bs dir)

end

/-- The objects at or inside a directory, by path. -/
def list (volumes : Volumes) (live : Bool) (b : Bucket) (dir : String) :
    Except Error (List ObjectInfo) :=
  ((b.tour volumes dir).infos live).map (sortedBy ObjectInfo.path)

def read (volumes : Volumes) (live : Bool) (b : Bucket) (path : String) : Except Error ByteArray :=
  (b.get volumes live path).map (·.2)

end Bucket

end Schemata.Storage

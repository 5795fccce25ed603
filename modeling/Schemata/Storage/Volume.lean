import Schemata.Storage.Folder
import Schemata.Table

/-!
# Volumes

A volume keeps objects: in a table, or in a file tree. All reading and writing of stored content
comes down to the operations here. Each looks first whether the operation is still wanted.
-/

namespace Schemata.Storage

/-- The objects of a table, under valid object paths. -/
abbrev Objects := Table ByteArray

/-- Accepts objects whose paths are valid; of two with one path the later stays. -/
def Objects.ofFiles (files : List (String × ByteArray)) : Except Error Objects :=
  files.foldlM
    (fun t f => do
      checkObjectPath f.1
      return t.insert f.1 f.2)
    Table.empty

/-- A place that keeps objects. -/
inductive Volume
  | table (objects : Objects)
  | tree (root : Node)

instance : Inhabited Volume := ⟨.table .empty⟩

namespace Volume

/-- Reads an object and its content. -/
def get (live : Bool) (path : String) : Volume → Except Error (ObjectInfo × ByteArray)
  | .table objects => do
    checkLive live
    match objects.find? path with
    | some content => return (.plain path, content)
    | none => throw (.missing path)
  | .tree root => do
    checkLive live
    checkObjectPath path
    match root.resolve (Text.pieces '/' path) with
    | .ok (.file content) => return (.plain path, content)
    | .ok (.folder _) => throw (.missing path)
    | .error e => throw (e.toError path)

def stat (live : Bool) (path : String) (v : Volume) : Except Error ObjectInfo :=
  (v.get live path).map (·.1)

/-- The objects at or inside a prefix. -/
def tour (pre : String) : Volume → Tour
  | .table objects => .ofInfos ((objects.keys.filter (Path.covers pre)).map .plain)
  | .tree root =>
    if pre = "." then ⟨root.stops [], none⟩
    else
      match checkObjectPath pre with
      | .error e => .failed e
      | .ok () =>
        match root.resolve (Text.pieces '/' pre) with
        | .ok node => ⟨node.stops (Text.pieces '/' pre), none⟩
        | .error _ => ⟨[], none⟩

/-- The contents of all objects. -/
def contents : Volume → List ByteArray
  | .table objects => objects.values
  | .tree root => root.contents

/-- Stores an object. A refused write may leave new folders behind. -/
def put (live : Bool) (path : String) (content : ByteArray) (v : Volume) :
    Except Error Unit × Volume :=
  match checkLive live, checkObjectPath path with
  | .error e, _ => (.error e, v)
  | .ok (), .error e => (.error e, v)
  | .ok (), .ok () =>
    match v with
    | .table objects => (.ok (), .table (objects.insert path content))
    | .tree root =>
      match root.put (Text.pieces '/' path) content with
      | (root, none) => (.ok (), .tree root)
      | (root, some e) => (.error (e.toError path), .tree root)

def delete (live : Bool) (path : String) : Volume → Except Error Unit × Volume
  | .table objects =>
    match checkLive live with
    | .error e => (.error e, .table objects)
    | .ok () =>
      if objects.has path then (.ok (), .table (objects.erase path))
      else (.error (.missing path), .table objects)
  | .tree root =>
    match checkLive live, checkObjectPath path with
    | .error e, _ => (.error e, .tree root)
    | .ok (), .error e => (.error e, .tree root)
    | .ok (), .ok () =>
      match root.remove (Text.pieces '/' path) with
      | .ok root => (.ok (), .tree root)
      | .error e => (.error (e.toError path), .tree root)

/-- The number of objects of a table. A tree does not count its files. -/
def size? : Volume → Option Nat
  | .table objects => some objects.size
  | .tree _ => none

end Volume

/-- The volumes at hand. A bucket names the ones it reads by their position. -/
abbrev Volumes := List Volume

end Schemata.Storage

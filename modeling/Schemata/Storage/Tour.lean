import Schemata.Storage.Error

/-!
# Tours of a bucket

A tour is what walking a bucket does, in order: it looks whether the operation is still wanted, and
it shows objects. A tour may end in a failure of its own. Since a visitor may cancel the operation,
running a tour threads the visitor's state.
-/

namespace Schemata.Storage

/-- An object, by its path in the bucket and by the path that users know it by. -/
structure ObjectInfo where
  path : String
  external : String
  deriving DecidableEq, Repr

/-- An object that is known to users by its own path. -/
def ObjectInfo.plain (path : String) : ObjectInfo := ⟨path, path⟩

inductive Stop
  | poll
  | visit (info : ObjectInfo)
  deriving DecidableEq, Repr

/-- The steps of a tour and the failure it ends in. -/
structure Tour where
  stops : List Stop
  failure : Option Error

namespace Tour

/-- The tour of some objects, with a look before each. -/
def ofInfos (infos : List ObjectInfo) : Tour :=
  ⟨infos.flatMap fun info => [.poll, .visit info], none⟩

def failed (e : Error) : Tour := ⟨[], some e⟩

/-- Shows every object under another name, or not at all. -/
def filterMap (f : ObjectInfo → Option ObjectInfo) (t : Tour) : Tour :=
  ⟨t.stops.filterMap fun
    | .poll => some .poll
    | .visit info => (f info).map .visit,
   t.failure⟩

/-- One tour after the other, if the first does not fail. -/
def append (s t : Tour) : Tour :=
  match s.failure with
  | some e => ⟨s.stops, some e⟩
  | none => ⟨s.stops ++ t.stops, t.failure⟩

/-- Keeps the first object of each path; `seen` lists the paths shown before. -/
def firstOfPath : List String → List Stop → List Stop
  | _, [] => []
  | seen, .poll :: rest => .poll :: firstOfPath seen rest
  | seen, .visit info :: rest =>
    if seen.contains info.path then firstOfPath seen rest
    else .visit info :: firstOfPath (info.path :: seen) rest

/-- The tour without the objects whose path was shown before. -/
def distinct (t : Tour) : Tour := ⟨firstOfPath [] t.stops, t.failure⟩

/-- Runs a tour. The visitor answers whether to go on, and `live` tells from its state whether the
operation is still wanted. -/
def run {σ : Type} (live : σ → Bool) (visitor : ObjectInfo → σ → Except Error Unit × σ)
    (t : Tour) (s : σ) : Except Error Unit × σ :=
  go t.stops s
where
  go : List Stop → σ → Except Error Unit × σ
    | [], s => (t.failure.elim (.ok ()) .error, s)
    | .poll :: rest, s => if live s then go rest s else (.error .canceled, s)
    | .visit info :: rest, s =>
      match visitor info s with
      | (.ok (), s) => go rest s
      | (.error e, s) => (.error e, s)

/-- The objects of a tour, in the order they are shown. -/
def infos (live : Bool) (t : Tour) : Except Error (List ObjectInfo) :=
  match t.run (fun _ => live) (fun info seen => (.ok (), info :: seen)) [] with
  | (.ok (), seen) => .ok seen.reverse
  | (.error e, _) => .error e

/-- The objects that a tour shows to a visitor who never stops it. -/
def shown (t : Tour) : List ObjectInfo :=
  t.stops.filterMap fun
    | .poll => none
    | .visit info => some info

end Tour

end Schemata.Storage

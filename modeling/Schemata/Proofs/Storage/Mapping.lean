import Schemata.Proofs.Storage.Reading

/-!
# Mapped paths and back

A step into a view and the step back undo each other, and so do chains of them, although the way
back goes through the steps in the opposite order. What a view shows therefore tells where it comes
from: no two objects are shown as one, and none is shown twice.
-/

namespace Schemata.Storage

open Schemata.Path (IsNormal join)

/-! ### One step -/

theorem Mapper.isObject_of_map? {m : Mapper} (hm : m.Proper) {d p : String} (hd : IsObject d)
    (h : m.map? d = some p) : IsObject p := by
  cases m with
  | strip dir => exact ((Mapper.map?_strip hm hd).1 h).1
  | keep m =>
    obtain ⟨_, hpath⟩ := Option.ite_none_right_eq_some.1 h
    exact Option.some.inj hpath ▸ hd

theorem Mapper.map?_eq_some_iff {m : Mapper} (hm : m.Proper) {d p : String} (hd : IsObject d)
    (hp : IsObject p) : m.map? d = some p ↔ m.unmap? p = some d := by
  cases m with
  | strip dir =>
    rw [Mapper.map?_strip hm hd, Mapper.unmap?, Option.some.injEq, eq_comm]
    exact and_iff_right hp
  | keep m =>
    -- the matcher sees the same path on both ways
    simp only [Mapper.map?, Mapper.unmap?, Option.ite_none_right_eq_some, Option.some.injEq]
    constructor
    · rintro ⟨haccepts, rfl⟩
      exact ⟨haccepts, rfl⟩
    · rintro ⟨haccepts, rfl⟩
      exact ⟨haccepts, rfl⟩

/-! ### Chains of steps -/

section Chains

variable {ms : List Mapper} {d d' p : String}

theorem isObject_of_mapPath? (hms : ∀ m ∈ ms, m.Proper) (hd : IsObject d)
    (h : mapPath? ms d = some p) : IsObject p :=
  ((mapPath?_eq_some hms hd).1 h).1

theorem isObject_of_unmapPath? (hms : ∀ m ∈ ms, m.Proper) (hp : IsObject p)
    (h : unmapPath? ms p = some d) : IsObject d := by
  obtain ⟨_, rfl⟩ := (unmapPath?_eq_some hms hp.1).1 h
  exact isObject_join (isNormal_unmapDir hms Path.isNormal_root) hp

/-- The first step of the way into a view is the last one of the way back. -/
theorem mapPath?_eq_some_iff (hms : ∀ m ∈ ms, m.Proper) (hd : IsObject d) (hp : IsObject p) :
    mapPath? ms d = some p ↔ unmapPath? ms p = some d := by
  induction ms generalizing d with
  | nil =>
    show some d = some p ↔ some p = some d
    exact eq_comm
  | cons m ms ih =>
    obtain ⟨hm, hms⟩ := List.forall_mem_cons.1 hms
    rw [mapPath?_cons, unmapPath?_cons, Option.bind_eq_some_iff, Option.bind_eq_some_iff]
    constructor
    · rintro ⟨middle, hstep, hrest⟩
      have hmiddle := m.isObject_of_map? hm hd hstep
      exact ⟨middle, (ih hms hmiddle).1 hrest, (m.map?_eq_some_iff hm hd hmiddle).1 hstep⟩
    · rintro ⟨middle, hrest, hstep⟩
      have hmiddle := isObject_of_unmapPath? hms hp hrest
      exact ⟨middle, (m.map?_eq_some_iff hm hd hmiddle).2 hstep, (ih hms hmiddle).2 hrest⟩

theorem mapPath?_inj (hms : ∀ m ∈ ms, m.Proper) (hd : IsObject d) (hd' : IsObject d')
    (h : mapPath? ms d = some p) (h' : mapPath? ms d' = some p) : d = d' := by
  have hp := isObject_of_mapPath? hms hd h
  have hback := (mapPath?_eq_some_iff hms hd hp).1 h
  have hback' := (mapPath?_eq_some_iff hms hd' hp).1 h'
  exact Option.some.inj (hback.symm.trans hback')

end Chains

/-! ### What a view shows -/

/-- Whether a bucket shows only objects of a directory, and each path at most once. -/
structure Bucket.ShowsOnce (volumes : Volumes) (b : Bucket) (dir : String) : Prop where
  objects : ∀ info ∈ (b.tour volumes dir).shown, IsObject info.path
  nodup : ((b.tour volumes dir).shown.map ObjectInfo.path).Nodup

instance (volumes : Volumes) (b : Bucket) (dir : String) : Decidable (b.ShowsOnce volumes dir) :=
  decidable_of_iff (_ ∧ _) ⟨fun h => ⟨h.1, h.2⟩, fun h => ⟨h.objects, h.nodup⟩⟩

/-- A view shows the objects of the inner bucket one by one, each under the path it is mapped to. -/
theorem paths_shown_mapped (volumes : Volumes) (inner : Bucket) (ms : List Mapper) (dir : String) :
    ((Bucket.mapped inner ms).tour volumes dir).shown.map ObjectInfo.path =
      ((inner.tour volumes (unmapDir ms dir)).shown.map ObjectInfo.path).filterMap fun d =>
        (mapPath? ms d).filter (Path.covers dir) := by
  rw [Bucket.tour, Tour.shown_filterMap, List.map_filterMap, List.filterMap_map]
  refine List.filterMap_congr fun info _ => ?_
  cases hmap : mapPath? ms info.path with
  | none => simp [hmap]
  | some p => by_cases hcovers : Path.covers dir p = true <;> simp [hmap, hcovers, Option.filter]

theorem Bucket.ShowsOnce.mapped {volumes : Volumes} {inner : Bucket} {ms : List Mapper}
    (hms : ∀ m ∈ ms, m.Proper) {dir : String} (h : inner.ShowsOnce volumes (unmapDir ms dir)) :
    (Bucket.mapped inner ms).ShowsOnce volumes dir := by
  have hobjects := List.forall_mem_map.2 h.objects
  constructor
  case objects =>
    refine List.forall_mem_map.1 ?_
    rw [paths_shown_mapped]
    intro p hp
    obtain ⟨d, hd, hmap⟩ := List.mem_filterMap.1 hp
    exact isObject_of_mapPath? hms (hobjects d hd) (Option.filter_eq_some_iff.1 hmap).1
  case nodup =>
    rw [paths_shown_mapped]
    refine (List.Pairwise.and_mem.1 h.nodup).filterMap _ fun d d' hpair p hp p' hp' heq => ?_
    obtain ⟨hd, hd', hne⟩ := hpair
    subst heq
    exact hne (mapPath?_inj hms (hobjects d hd) (hobjects d' hd') (Option.filter_eq_some_iff.1 hp).1
      (Option.filter_eq_some_iff.1 hp').1)

/-- A chain of steps maps object paths to object paths, and the way back undoes it and nothing
else. So different paths are mapped to different ones, and a view shows each object of the inner
bucket at most once, and none in place of another. -/
theorem paths_mapped_back {ms : List Mapper} (hms : ∀ m ∈ ms, m.Proper) :
    (∀ d p, IsObject d → IsObject p → (mapPath? ms d = some p ↔ unmapPath? ms p = some d)) ∧
      (∀ d p, IsObject d → mapPath? ms d = some p → IsObject p) ∧
      (∀ d p, IsObject p → unmapPath? ms p = some d → IsObject d) ∧
      (∀ d d' p, IsObject d → IsObject d' → mapPath? ms d = some p → mapPath? ms d' = some p →
        d = d') ∧
      ∀ (volumes : Volumes) (inner : Bucket) (dir : String),
        ((Bucket.mapped inner ms).tour volumes dir).shown.map ObjectInfo.path =
            ((inner.tour volumes (unmapDir ms dir)).shown.map ObjectInfo.path).filterMap
              (fun d => (mapPath? ms d).filter (Path.covers dir)) ∧
          (inner.ShowsOnce volumes (unmapDir ms dir) →
            (Bucket.mapped inner ms).ShowsOnce volumes dir) := by
  refine ⟨fun d p hd hp => mapPath?_eq_some_iff hms hd hp,
    fun d p hd h => isObject_of_mapPath? hms hd h, fun d p hp h => isObject_of_unmapPath? hms hp h,
    fun d d' p hd hd' h h' => mapPath?_inj hms hd hd' h h', fun volumes inner dir => ⟨?_, ?_⟩⟩
  · exact paths_shown_mapped volumes inner ms dir
  · exact Bucket.ShowsOnce.mapped hms

/-- The schema files in a directory of a module, without those for internal use. -/
def publicSchemas : List Mapper :=
  [.strip "mod", .keep (.extension ".schema"), .strip "proto", .keep (.not (.inside "internal"))]

example : mapPath? publicSchemas "mod/proto/internal/b.schema" = none := by decide

/-- Files of a module, one of them for internal use, and a file of another module. -/
def moduleTable : Objects :=
  .ofList [("mod/README.md", .empty), ("mod/proto/a.schema", .empty),
    ("mod/proto/internal/b.schema", .empty), ("other/a.schema", .empty)]

theorem proper_publicSchemas : ∀ m ∈ publicSchemas, m.Proper := by
  simp only [publicSchemas, List.forall_mem_cons, Mapper.Proper, List.not_mem_nil, false_imp_iff,
    implies_true, and_true, true_and]
  decide

theorem paths_mapped_back_publicSchemas :
    (∀ m ∈ publicSchemas, m.Proper) ∧ IsObject "mod/proto/a.schema" ∧ IsObject "a.schema" ∧
      mapPath? publicSchemas "mod/proto/a.schema" = some "a.schema" ∧
      unmapPath? publicSchemas "a.schema" = some "mod/proto/a.schema" ∧
      (Bucket.objects moduleTable).ShowsOnce [] (unmapDir publicSchemas ".") ∧
      (Bucket.mapped (.objects moduleTable) publicSchemas).ShowsOnce [] "." ∧
      ((Bucket.mapped (.objects moduleTable) publicSchemas).tour [] ".").shown.map ObjectInfo.path =
        ["a.schema"] := by
  obtain ⟨hback, _, _, _, hviews⟩ := paths_mapped_back proper_publicSchemas
  have hd : IsObject "mod/proto/a.schema" := by decide
  have hp : IsObject "a.schema" := by decide
  have hmap : mapPath? publicSchemas "mod/proto/a.schema" = some "a.schema" := by decide
  have honce : (Bucket.objects moduleTable).ShowsOnce [] (unmapDir publicSchemas ".") := by
    decide +kernel
  obtain ⟨hpaths, hshows⟩ := hviews [] (.objects moduleTable) "."
  refine ⟨proper_publicSchemas, hd, hp, hmap, (hback _ _ hd hp).1 hmap, honce, hshows honce, ?_⟩
  rw [hpaths]
  decide +kernel

end Schemata.Storage

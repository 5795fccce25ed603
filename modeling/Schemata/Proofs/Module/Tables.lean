import Schemata.Proofs.Module.Files
import Schemata.Proofs.Storage.Distinct

/-!
# Tables of module files

A table of files of a module, under paths of objects and with one documentation file at most, has
just these files.
-/

namespace Schemata

open Storage

/-- Objects are accepted if their paths are valid. -/
theorem Storage.Objects.ofFiles_eq_ok {es : List (String × ByteArray)} {t : Objects} :
    Objects.ofFiles es = .ok t ↔ (∀ e ∈ es, IsObject e.1) ∧ Table.ofList es = t := by
  suffices hfold : ∀ acc : Objects,
      (es.foldlM (fun t f => do
          checkObjectPath f.1
          return t.insert f.1 f.2) acc : Except Error Objects) = .ok t ↔
        (∀ e ∈ es, IsObject e.1) ∧ es.foldl (fun t e => t.insert e.1 e.2) acc = t from hfold .empty
  induction es with
  | nil => exact fun acc => by simp [pure, Except.pure]
  | cons e es ih =>
    intro acc
    rw [List.foldlM_cons, bind_eq_ok, List.forall_mem_cons, List.foldl_cons, and_assoc, ← ih,
      ← checkObjectPath_eq_ok (u := ())]
    constructor
    · rintro ⟨_, hchecked, hrest⟩
      obtain ⟨_, hcheck, hinsert⟩ := bind_eq_ok.1 hchecked
      cases hinsert
      exact ⟨hcheck, hrest⟩
    · rintro ⟨hcheck, hrest⟩
      exact ⟨_, bind_eq_ok.2 ⟨(), hcheck, rfl⟩, hrest⟩

/-- A table is accepted with all its entries. -/
theorem Storage.Objects.ofFiles_entries {t : Objects} (h : ∀ path ∈ t.keys, IsObject path) :
    Objects.ofFiles t.entries = .ok t :=
  ofFiles_eq_ok.2 ⟨fun e he => h e.1 (List.mem_map_of_mem he), Table.ofList_entries t⟩

namespace Module

variable {volumes : Volumes} {files : Table ByteArray}

/-- The first documentation file there is, where those that are not there are missing. -/
theorem firstPresent?_eq {volumes : Volumes} {b : Bucket} {present : String → Bool}
    {paths : List String}
    (h : ∀ path ∈ paths, if present path then ∃ info, b.stat volumes true path = .ok info
      else b.stat volumes true path = .error (.missing path)) :
    firstPresent? volumes true b paths = .ok (paths.find? present) := by
  induction paths with
  | nil => rfl
  | cons path paths ih =>
    obtain ⟨hpath, hpaths⟩ := List.forall_mem_cons.1 h
    rw [firstPresent?, List.find?_cons]
    cases hp : present path with
    | true =>
      rw [hp, if_pos rfl] at hpath
      obtain ⟨info, hinfo⟩ := hpath
      rw [hinfo]
    | false =>
      rw [hp, if_neg (by simp)] at hpath
      rw [hpath]
      exact ih hpaths

/-- The files of a module belong to one with the documentation file among them. -/
theorem belongs_of_kinds (hkinds : ∀ path ∈ files.keys, kindOf? path ≠ none)
    (honeDoc : ∀ path ∈ files.keys, ∀ path' ∈ files.keys, path ∈ docPaths → path' ∈ docPaths →
      path = path') {path : String} (hpath : path ∈ files.keys) :
    belongs (docPaths.find? fun doc => files.has doc) path = true := by
  have hkind := hkinds path hpath
  unfold kindOf? at hkind
  unfold belongs
  split at hkind
  · rename_i hschema
    simp [hschema]
  split at hkind
  · rename_i hlicense
    simp [hlicense]
  split at hkind
  · rename_i hdoc
    have hdoc : path ∈ docPaths := by simpa using hdoc
    have hhas {path : String} : files.has path = true ↔ path ∈ files.keys := by
      rw [Table.has, Option.isSome_iff_exists, Table.mem_keys]
    -- no other documentation file can be found before this one
    cases hfirst : docPaths.find? fun doc => files.has doc with
    | none => exact absurd (hhas.2 hpath) (by simpa using List.find?_eq_none.1 hfirst path hdoc)
    | some first =>
      have hsame := honeDoc first (hhas.1 (by simpa using List.find?_some hfirst)) path hpath
        (List.mem_of_find?_eq_some hfirst) hdoc
      simp [hsame]
  · exact absurd rfl hkind

theorem list_objects (files : Table ByteArray) : ∃ infos,
    (Bucket.objects files).list volumes true "." = .ok infos ∧
      infos.map ObjectInfo.path = files.keys := by
  have hall : files.keys.filter (Path.covers ".") = files.keys :=
    List.filter_eq_self.2 fun path _ => Path.root_covers path
  have hshown : ((Bucket.objects files).tour volumes ".").shown = files.keys.map .plain := by
    rw [Bucket.tour, Volume.tour, Tour.shown_ofInfos, hall]
  refine ⟨_, Bucket.list_eq_ok.2 ⟨.inl rfl, by rw [Bucket.tour, Volume.tour]; rfl, rfl⟩, ?_⟩
  rw [hshown, sortedBy_eq_self]
  · exact (List.map_map ..).trans (List.map_id _)
  · refine List.pairwise_map.2 ((List.pairwise_map.2 files.ordered).imp fun hab => ?_)
    exact String.not_lt.1 fun hba => String.lt_asymm hab hba

theorem read_objects {path : String} {content : ByteArray} :
    (Bucket.objects files).read volumes true path = .ok content ↔
      (path, content) ∈ files.entries := by
  rw [Table.mem_entries, Bucket.read, Bucket.get, Volume.get]
  cases files.find? path with
  | none => exact iff_of_false (fun h => by cases h) (fun h => by cases h)
  | some found =>
    show Except.ok found = Except.ok content ↔ some found = some content
    rw [Except.ok.injEq, Option.some.injEq]

theorem firstPresent?_objects : firstPresent? volumes true (.objects files) docPaths =
    .ok (docPaths.find? fun doc => files.has doc) := by
  refine firstPresent?_eq fun path _ => ?_
  unfold Bucket.stat
  rw [Bucket.get, Volume.get, Table.has]
  cases files.find? path with
  | none => rfl
  | some content => exact ⟨_, rfl⟩

/-- The files of a module among objects. -/
def filesAmong (objects : Table ByteArray) : Table ByteArray :=
  ⟨objects.entries.filter fun e => belongs (docPaths.find? fun doc => objects.has doc) e.1,
    objects.ordered.filter _⟩

/-- Objects have the files of a module that are among them. -/
theorem hasFiles_filesAmong (objects : Table ByteArray) :
    HasFiles volumes true (.objects objects) (filesAmong objects) := by
  obtain ⟨infos, hlist, hkeys⟩ := @list_objects volumes objects
  refine ⟨_, infos, firstPresent?_objects, hlist, ?_, fun e he => ?_⟩
  · rw [hkeys, Table.keys, List.filter_map]
    rfl
  · exact read_objects.2 (List.mem_of_mem_filter he)

/-- The manifest of the view of the module files among objects. -/
theorem ofBucket_filesAmong {objects : Table ByteArray} {view : Bucket} {m : Manifest}
    (hview : filesOf volumes true (.objects objects) = .ok view) :
    Manifest.ofBucket volumes true view = .ok m ↔
      Manifest.Lists (filesAmong objects) ∧ Manifest.ofFiles (filesAmong objects) = m := by
  have hfiles := @hasFiles_filesAmong volumes objects
  constructor
  · intro hm
    obtain ⟨files, hfiles', hlists, rfl⟩ := hasFiles_of_ofBucket hview hm
    rw [hfiles.unique hfiles']
    exact ⟨hlists, rfl⟩
  · rintro ⟨hlists, rfl⟩
    obtain ⟨view', hview', hm⟩ := ofBucket_of_hasFiles hfiles hlists
    cases hview.symm.trans hview'
    exact hm

/-- Files of a module are all among themselves. -/
theorem filesAmong_eq_self (hkinds : ∀ path ∈ files.keys, kindOf? path ≠ none)
    (honeDoc : ∀ path ∈ files.keys, ∀ path' ∈ files.keys, path ∈ docPaths → path' ∈ docPaths →
      path = path') : filesAmong files = files := by
  have hall : (filesAmong files).entries = files.entries := List.filter_eq_self.2 fun e he =>
    belongs_of_kinds hkinds honeDoc (List.mem_map_of_mem he)
  rw [← Table.ofList_entries (filesAmong files), hall, Table.ofList_entries]

end Module

end Schemata

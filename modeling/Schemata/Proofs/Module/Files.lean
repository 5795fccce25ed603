import Schemata.Module.Files
import Schemata.Proofs.Digest.Commitment
import Schemata.Proofs.Storage.Listing

/-!
# The files of a module

A bucket has the files of a module under the paths that belong to one, with the contents that
reading gives. The view of these files has a manifest if one can list them.
-/

namespace Schemata

open Storage

namespace Module

variable {volumes : Volumes} {live : Bool} {b view : Bucket} {files files' : Table ByteArray}

/-- Whether a path belongs to a module with a documentation file. -/
def belongs (doc : Option String) (path : String) : Bool :=
  Path.extension path = schemaExtension || path = licensePath || doc = some path

/-- The matcher of the paths that belong to a module. -/
def kept (doc : Option String) : Matcher :=
  .any ([.extension schemaExtension, .exactly licensePath] ++ doc.toList.map .exactly)

theorem accepts_kept (doc : Option String) (path : String) :
    (kept doc).accepts path = belongs doc path := by
  cases doc with
  | none => simp [kept, belongs, Matcher.accepts, Matcher.acceptsSome]
  | some d => simp [kept, belongs, Matcher.accepts, Matcher.acceptsSome, eq_comm, Bool.or_assoc]

theorem mem_of_firstPresent? {paths : List String} {path : String}
    (h : firstPresent? volumes live b paths = .ok (some path)) : path ∈ paths := by
  induction paths with
  | nil => cases h
  | cons first paths ih =>
    rw [firstPresent?] at h
    split at h
    · cases h
      exact List.mem_cons_self
    · split at h
      · exact List.mem_cons_of_mem _ (ih h)
      · cases h

/-- What belongs to a module is of some kind. -/
theorem kindOf?_ne_none_of_belongs {doc : Option String}
    (hdoc : firstPresent? volumes live b docPaths = .ok doc) {path : String}
    (h : belongs doc path = true) : kindOf? path ≠ none := by
  unfold belongs at h
  unfold kindOf?
  split
  · exact nofun
  split
  · exact nofun
  · rename_i hschema hlicense
    have hsome : doc = some path := by simpa [hschema, hlicense] using h
    rw [hsome] at hdoc
    rw [if_pos (by simpa using mem_of_firstPresent? hdoc)]
    exact nofun

theorem filesOf_eq_ok :
    filesOf volumes live b = .ok view ↔
      ∃ doc, firstPresent? volumes live b docPaths = .ok doc ∧ b.keeping (kept doc) = view := by
  unfold filesOf
  rw [bind_eq_ok]
  constructor
  · rintro ⟨doc, hdoc, hview⟩
    exact ⟨doc, hdoc, Except.ok.inj hview⟩
  · rintro ⟨doc, hdoc, hview⟩
    exact ⟨doc, hdoc, congrArg Except.ok hview⟩

/-- Whether a bucket has these files of a module: all objects whose paths belong to one with the
first documentation file there is, under their paths. -/
def HasFiles (volumes : Volumes) (live : Bool) (b : Bucket) (files : Table ByteArray) : Prop :=
  ∃ doc infos, firstPresent? volumes live b docPaths = .ok doc ∧
    b.list volumes live "." = .ok infos ∧
    (infos.map ObjectInfo.path).filter (belongs doc) = files.keys ∧
    ∀ e ∈ files.entries, b.read volumes live e.1 = .ok e.2

theorem HasFiles.unique (h : HasFiles volumes live b files) (h' : HasFiles volumes live b files') :
    files = files' := by
  obtain ⟨doc, infos, hdoc, hlist, hkeys, hread⟩ := h
  obtain ⟨doc', infos', hdoc', hlist', hkeys', hread'⟩ := h'
  have hd : doc = doc' := Except.ok.inj (hdoc.symm.trans hdoc')
  have hi : infos = infos' := Except.ok.inj (hlist.symm.trans hlist')
  refine Table.eq_of_keys ?_ fun k v v' hmem hmem' => ?_
  · rw [← hkeys, ← hkeys', hd, hi]
  · exact Except.ok.inj ((hread _ hmem).symm.trans (hread' _ hmem'))

/-! ### Their manifest -/

theorem mapM_ofPath {infos : List ObjectInfo} {ns : List FileNode} :
    (infos.mapM fun info => do
        let content ← (view.read volumes live info.path).mapError DigestError.storage
        FileNode.ofPath info.path (ContentHash.ofContent content)) = .ok ns ↔
      ∃ es : List (String × ByteArray), es.map Prod.fst = infos.map ObjectInfo.path ∧
        (∀ e ∈ es, view.read volumes live e.1 = .ok e.2 ∧ FileNode.Holds e.1) ∧
        es.map Manifest.nodeOf = ns := by
  rw [mapM_eq_ok]
  constructor
  · intro h
    induction h with
    | nil => exact ⟨[], rfl, fun _ he => absurd he List.not_mem_nil, rfl⟩
    | @cons info n infos ns hn _ ih =>
      obtain ⟨content, hread, hnode⟩ := bind_eq_ok.1 hn
      obtain ⟨hholds, rfl⟩ := FileNode.ofPath_eq_ok.1 hnode
      obtain ⟨es, hpaths, hall, rfl⟩ := ih
      refine ⟨(info.path, content) :: es, ?_, List.forall_mem_cons.2 ⟨⟨?_, hholds⟩, hall⟩, rfl⟩
      · rw [List.map_cons, List.map_cons, hpaths]
      · exact mapError_eq_ok.1 hread
  · rintro ⟨es, hpaths, hall, rfl⟩
    induction es generalizing infos with
    | nil =>
      rw [List.map_eq_nil_iff.1 hpaths.symm]
      exact .nil
    | cons e es ih =>
      cases infos with
      | nil => cases hpaths
      | cons info infos =>
        obtain ⟨hpath, hrest⟩ := List.cons.inj hpaths
        obtain ⟨⟨hread, hholds⟩, hall⟩ := List.forall_mem_cons.1 hall
        refine .cons (bind_eq_ok.2 ⟨e.2, ?_, ?_⟩) (ih hrest hall)
        · rw [← hpath]
          exact mapError_eq_ok.2 hread
        · rw [← hpath]
          exact FileNode.ofPath_eq_ok.2 ⟨hholds, rfl⟩

/-- A view that has a manifest lists and reads the files of it. -/
theorem reads_of_ofBucket {m : Manifest} (hm : Manifest.ofBucket volumes live view = .ok m) :
    ∃ files : Table ByteArray, (∃ infos, view.list volumes live "." = .ok infos ∧
        infos.map ObjectInfo.path = files.keys) ∧
      (∀ e ∈ files.entries, view.read volumes live e.1 = .ok e.2) ∧ Manifest.Lists files ∧
      Manifest.ofFiles files = m := by
  obtain ⟨infos, hlist, hm⟩ := bind_eq_ok.1 hm
  obtain ⟨ns, hns, hm⟩ := bind_eq_ok.1 hm
  have hlist := mapError_eq_ok.1 hlist
  obtain ⟨es, hpaths, hall, rfl⟩ := mapM_ofPath.1 hns
  -- the files come in the order of the listing already
  have hle : es.Pairwise fun a b => a.1 ≤ b.1 := by
    have hle := Bucket.pairwise_list hlist
    rw [← hpaths] at hle
    exact List.pairwise_map.1 hle
  obtain ⟨hordered, rfl⟩ := (Manifest.ofNodes_nodeOf hle).1 hm
  refine ⟨⟨es, hordered⟩, ⟨infos, hlist, hpaths.symm⟩, fun e he => (hall e he).1,
    fun path hpath => ?_, rfl⟩
  obtain ⟨e, he, rfl⟩ := List.mem_map.1 hpath
  exact (hall e he).2

/-- The files of a view are files of the bucket behind it. -/
theorem hasFiles_of_reads (hview : filesOf volumes live b = .ok view)
    (hlist : ∃ infos, view.list volumes live "." = .ok infos ∧
      infos.map ObjectInfo.path = files.keys)
    (hread : ∀ e ∈ files.entries, view.read volumes live e.1 = .ok e.2) :
    HasFiles volumes live b files := by
  obtain ⟨doc, hdoc, rfl⟩ := filesOf_eq_ok.1 hview
  obtain ⟨infos, hlist, hkept⟩ := Bucket.list_keeping.1 hlist
  refine ⟨doc, infos, hdoc, hlist, ?_, fun e he => (Bucket.read_keeping.1 (hread e he)).2⟩
  rw [← funext (accepts_kept doc), hkept]

/-- The files of a view that has a manifest. -/
theorem hasFiles_of_ofBucket {m : Manifest} (hview : filesOf volumes live b = .ok view)
    (hm : Manifest.ofBucket volumes live view = .ok m) :
    ∃ files, HasFiles volumes live b files ∧ Manifest.Lists files ∧ Manifest.ofFiles files = m := by
  obtain ⟨files, hlist, hread, hlists, hfiles⟩ := reads_of_ofBucket hm
  exact ⟨files, hasFiles_of_reads hview hlist hread, hlists, hfiles⟩

/-- The manifest of a view that lists and reads files that one can list. -/
theorem ofBucket_of_reads (hlist : ∃ infos, view.list volumes live "." = .ok infos ∧
      infos.map ObjectInfo.path = files.keys)
    (hread : ∀ e ∈ files.entries, view.read volumes live e.1 = .ok e.2)
    (hlists : Manifest.Lists files) :
    Manifest.ofBucket volumes live view = .ok (.ofFiles files) := by
  obtain ⟨infos, hlist, hpaths⟩ := hlist
  have hnodes : ∀ e ∈ files.entries,
      view.read volumes live e.1 = .ok e.2 ∧ FileNode.Holds e.1 := fun e he =>
    ⟨hread e he, hlists _ (List.mem_map_of_mem he)⟩
  have hle : files.entries.Pairwise fun a b => a.1 ≤ b.1 :=
    files.ordered.imp fun hab => String.not_lt.1 fun hba => String.lt_asymm hab hba
  refine bind_eq_ok.2 ⟨infos, mapError_eq_ok.2 hlist, ?_⟩
  refine bind_eq_ok.2 ⟨_, mapM_ofPath.2 ⟨files.entries, hpaths.symm, hnodes, rfl⟩, ?_⟩
  exact (Manifest.ofNodes_nodeOf hle).2 ⟨files.ordered, rfl⟩

/-- The manifest of the view of files that one can list. -/
theorem ofBucket_of_hasFiles (h : HasFiles volumes live b files) (hlists : Manifest.Lists files) :
    ∃ view, filesOf volumes live b = .ok view ∧
      Manifest.ofBucket volumes live view = .ok (.ofFiles files) := by
  obtain ⟨doc, infos, hdoc, hlist, hkeys, hread⟩ := h
  rw [← funext (accepts_kept doc)] at hkeys
  refine ⟨_, filesOf_eq_ok.2 ⟨doc, hdoc, rfl⟩, ofBucket_of_reads
    (Bucket.list_keeping.2 ⟨infos, hlist, hkeys⟩) (fun e he => ?_) hlists⟩
  have hkey : e.1 ∈ files.keys := List.mem_map_of_mem he
  rw [← hkeys] at hkey
  exact Bucket.read_keeping.2 ⟨(List.mem_filter.1 hkey).2, hread e he⟩

end Module

end Schemata

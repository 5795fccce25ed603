import Schemata.Proofs.Module.Tables
import Schemata.Proofs.Module.Tampering
import Schemata.Proofs.Storage.Distinct
import Schemata.Proofs.Store.History

/-!
# What is found after interrupted puts

What the store finds for a key passes its verification and serves the files of the key, with the
dependencies that some put for it had. It finds something if a put for the key succeeded, and puts
for other keys change nothing about it.
-/

namespace Schemata

open Storage

/-- Whether a bucket shows these files and no others. -/
structure Storage.Bucket.Serves (volumes : Volumes) (b : Bucket) (files : Table ByteArray) :
    Prop where
  lists : ∃ infos, b.list volumes true "." = .ok infos ∧
    infos.map ObjectInfo.path = files.keys
  reads : ∀ path content, b.read volumes true path = .ok content ↔ (path, content) ∈ files.entries

/-- Whether a delivery passes its verification and serves these files and dependencies. -/
def Delivery.Delivers (w : World) (d : Delivery) (files : Table ByteArray)
    (deps : List ModuleKey) : Prop :=
  ∃ c d' w', d.contents.Gives w (c, d') w' ∧ c.files.Serves w'.volumes files ∧ c.deps = deps

theorem Storage.Bucket.Serves.unique {volumes : Volumes} {b : Bucket}
    {files files' : Table ByteArray} (h : b.Serves volumes files) (h' : b.Serves volumes files') :
    files = files' := by
  obtain ⟨infos, hlist, hkeys⟩ := h.lists
  obtain ⟨infos', hlist', hkeys'⟩ := h'.lists
  cases hlist.symm.trans hlist'
  refine Table.eq_of_keys (hkeys.symm.trans hkeys') fun k v v' hmem hmem' => ?_
  exact Except.ok.inj (((h.reads k v).2 hmem).symm.trans ((h'.reads k v').2 hmem'))

theorem Delivery.Delivers.unique {w : World} {d : Delivery} {files files' : Table ByteArray}
    {deps deps' : List ModuleKey} (h : d.Delivers w files deps) (h' : d.Delivers w files' deps') :
    files = files' ∧ deps = deps' := by
  obtain ⟨c, d₁, w₁, hgives, hserves, hdeps⟩ := h
  obtain ⟨c', d₂, w₂, hgives', hserves', hdeps'⟩ := h'
  cases hgives.symm.trans hgives'
  exact ⟨hserves.unique hserves', hdeps.symm.trans hdeps'⟩

namespace Store

variable {w w₁ : World} {v v' : Volume} {history : List Attempt} {a : Attempt} {key : ModuleKey}
  {x : Digest}

/-! ### Looking up an entry -/

/-- The view of the files beside the entry of a key. -/
def filesBucket (key : ModuleKey) (x : Digest) : Bucket :=
  .mapped World.storeBucket [.strip (filesDir key x)]

/-- What stands in a store for a key with a digest. -/
def lookUp (live : Bool) (v : Volume) (key : ModuleKey) (x : Digest) : Option Delivery :=
  match World.storeBucket.read [v] live (entryPath key x) with
  | .error _ => none
  | .ok content =>
    match readEntry content with
    | some (recorded, deps) =>
      if recorded = x then some (.sealed key (.ok (filesBucket key x)) deps) else none
    | none => none

theorem gives_find_lookUp (hkey : key.resolveDigest.Gives w x w₁) :
    (find key).Gives w (lookUp w₁.live w₁.store key x) w₁ := by
  refine Act.gives_bind.2 ⟨x, w₁, hkey, Act.gives_bind.2 ⟨w₁, w₁, rfl, ?_⟩⟩
  have hread : World.storeBucket.read w₁.volumes w₁.live (Path.join (dirOf key x) entryName) =
      World.storeBucket.read [w₁.store] w₁.live (entryPath key x) := rfl
  unfold lookUp
  simp only [hread]
  cases World.storeBucket.read [w₁.store] w₁.live (entryPath key x) with
  | error e => exact Act.gives_pure.2 ⟨rfl, rfl⟩
  | ok content =>
    simp only
    cases readEntry content with
    | none => exact Act.gives_pure.2 ⟨rfl, rfl⟩
    | some entry =>
      obtain ⟨recorded, deps⟩ := entry
      simp only
      split
      · exact Act.gives_pure.2 ⟨rfl, rfl⟩
      · exact Act.gives_pure.2 ⟨rfl, rfl⟩

theorem get_of_canceled (v : Volume) (path : String) : v.get false path = .error .canceled := by
  cases v <;> rfl

theorem read_store {path : String} {content : ByteArray} {live : Bool} :
    World.storeBucket.read [v] live path = .ok content ↔
      live = true ∧ v.held path = some content := by
  have hread : World.storeBucket.read [v] live path = (v.get live path).map (·.2) := rfl
  rw [hread]
  cases live with
  | false =>
    rw [get_of_canceled]
    exact iff_of_false (by simp [Except.map]) (by simp)
  | true =>
    unfold Volume.held
    cases v.get true path with
    | error e => simp [Except.map, Except.toOption]
    | ok answer => simp [Except.map, Except.toOption]

theorem lookUp_congr {live : Bool} (h : v.held (entryPath key x) = v'.held (entryPath key x)) :
    lookUp live v key x = lookUp live v' key x := by
  have hread (content : ByteArray) :
      World.storeBucket.read [v] live (entryPath key x) = .ok content ↔
        World.storeBucket.read [v'] live (entryPath key x) = .ok content := by
    rw [read_store, read_store, h]
  unfold lookUp
  cases hleft : World.storeBucket.read [v] live (entryPath key x) with
  | ok content => rw [(hread content).1 hleft]
  | error e =>
    cases hright : World.storeBucket.read [v'] live (entryPath key x) with
    | error e' => rfl
    | ok content => cases hleft.symm.trans ((hread content).2 hright)

/-- What is found was kept by a put for the key. -/
theorem lookUp_eq_some (h : Intact history v) {live : Bool} {d : Delivery}
    (hfound : lookUp live v key x = some d) :
    live = true ∧ ∃ a ∈ history, a.kept.place = placeOf key x ∧ a.kept.digest = x ∧
      v.held (entryPath key x) = some a.kept.entry ∧
      d = .sealed key (.ok (filesBucket key x)) (a.kept.deps.map recorded) := by
  unfold lookUp at hfound
  split at hfound
  · cases hfound
  · rename_i content hread
    obtain ⟨hlive, hheld⟩ := read_store.1 hread
    obtain ⟨a, ha, hplace, rfl, _⟩ := h.complete key x content hheld
    rw [Kept.entry, readEntry_entryText] at hfound
    simp only at hfound
    split at hfound
    · rename_i hdigest
      cases hfound
      exact ⟨hlive, a, ha, hplace, hdigest, hheld, rfl⟩
    · cases hfound

/-- A put that succeeded left an entry, and it is found. -/
theorem lookUp_ne_none (h : Intact history v) (hagreed : Agreed history (placeOf key x))
    (ha : a ∈ history) (hdone : a.done = true) (hplace : a.kept.place = placeOf key x)
    (hdigest : a.kept.digest = x) : lookUp true v key x ≠ none := by
  have hentry := h.finished a ha hdone
  rw [entryPath_congr hplace] at hentry
  obtain ⟨content, hheld⟩ := Option.ne_none_iff_exists'.1 hentry
  obtain ⟨b, hb, hplace', rfl, _⟩ := h.complete key x content hheld
  have hsame : b.kept.digest = x := (hagreed.digest b hb a ha hplace' hplace).trans hdigest
  unfold lookUp
  rw [read_store.2 ⟨rfl, hheld⟩]
  simp only [Kept.entry, readEntry_entryText, hsame, if_true]
  exact Option.some_ne_none _

/-! ### The files beside an entry -/

theorem proper_filesBucket (h : v.Tidy) (hnormal : Path.IsNormal (filesDir key x)) :
    (filesBucket key x).Proper [v] := by
  rw [filesBucket, Bucket.Proper]
  refine ⟨?_, by simpa [Mapper.Proper] using hnormal⟩
  rw [World.storeBucket, Bucket.Proper]
  intro v' hv'
  cases hv'
  exact h.proper

theorem get_filesBucket (path : String) :
    (filesBucket key x).get [v] true path =
      match v.get true (filePath key x path) with
      | .ok (info, content) => .ok (⟨path, info.external⟩, content)
      | .error e => .error (e.atPath path) := by
  rw [filesBucket, Bucket.get]
  rfl

theorem read_filesBucket {path : String} {content : ByteArray} :
    (filesBucket key x).read [v] true path = .ok content ↔
      v.held (filePath key x path) = some content := by
  unfold Bucket.read Volume.held
  rw [get_filesBucket]
  cases v.get true (filePath key x path) with
  | error e => simp [Except.map, Except.toOption]
  | ok answer => simp [Except.map, Except.toOption]

/-- Beside an entry stands what the store holds below the directory of the files. -/
theorem shows_filesBucket (h : v.Tidy) (hnormal : Path.IsNormal (filesDir key x)) {info : ObjectInfo} :
    (filesBucket key x).Shows [v] info ↔ IsObject info.path ∧
      info.external = filePath key x info.path ∧
        ∃ content, v.held (filePath key x info.path) = some content := by
  have hproper := proper_filesBucket h hnormal
  rw [filesBucket, Bucket.Proper] at hproper
  have hdir : unmapDir [Mapper.strip (filesDir key x)] "." = filesDir key x := hnormal.join_root
  have hstore (object : ObjectInfo) : World.storeBucket.Shows [v] object ↔
      object ∈ (v.tour ".").shown := Iff.rfl
  rw [filesBucket, shows_mapped (regular_of_proper _ hproper.1) hproper.2, hstore,
    Volume.mem_shown_iff h, hdir]
  have hpass : Passes [Mapper.strip (filesDir key x)] info.path := by simp [Passes]
  simp only [hpass, true_and, ObjectInfo.plain, ObjectInfo.mk.injEq, filePath]

/-- What can be read beside an entry is listed. -/
theorem listed_filesBucket (h : v.Tidy) (hnormal : Path.IsNormal (filesDir key x)) {path : String}
    {content : ByteArray} (hroot : path ≠ ".") (hne : path ≠ "")
    (hread : (filesBucket key x).read [v] true path = .ok content) :
    ∃ infos, (filesBucket key x).list [v] true "." = .ok infos ∧
      path ∈ infos.map ObjectInfo.path := by
  have hheld := read_filesBucket.1 hread
  have hnames := Volume.isName_of_mem_pieces (Volume.isObject_of_held h hheld)
  rw [pieces_filePath hroot hne] at hnames
  have hobject : IsObject path := isObject_of_pieces hroot fun name hname =>
    hnames name (List.mem_append_right _ (List.mem_cons_of_mem _ hname))
  obtain ⟨infos, hlist, hinfos⟩ := exists_list (regular_of_proper _ (proper_filesBucket h hnormal))
  have hinfo := (hinfos ⟨path, filePath key x path⟩).2
    ((shows_filesBucket h hnormal).2 ⟨hobject, rfl, content, hheld⟩)
  exact ⟨infos, hlist, List.mem_map_of_mem hinfo⟩

/-! ### Looking for documentation -/

theorem docPaths_plain : ∀ path ∈ Module.docPaths, IsObject path ∧
    Text.pieces '/' path = [path] ∧ path.utf8ByteSize ≤ 15 ∧ hasNul path = false := by
  decide +kernel

theorem pieces_doc {path : String} (hdoc : path ∈ Module.docPaths) :
    Text.pieces '/' (filePath key x path) = steps key x ++ [filesName, path] := by
  obtain ⟨hobject, hpieces, _⟩ := docPaths_plain path hdoc
  rw [pieces_filePath hobject.2 hobject.1.ne_empty, hpieces]

theorem fits_doc (h : v.Tidy) {content : ByteArray}
    (hentry : v.held (entryPath key x) = some content) {path : String}
    (hdoc : path ∈ Module.docPaths) : v.Fits (filePath key x path) := by
  cases v with
  | table objects => trivial
  | tree root =>
    have hobject := Volume.isObject_of_held h hentry
    rw [Volume.held_tree h.1 hobject, pieces_entryPath] at hentry
    have hmem := (Node.mem_fileNames_iff h.1.named).2 ⟨content, hentry⟩
    have hnames := Node.valid_of_mem root h.1.named _ hmem
    obtain ⟨hplain, _, hshort, hnul⟩ := docPaths_plain path hdoc
    have hpath : ValidName path := by
      have hpieces := Volume.isName_of_mem_pieces hplain
      rw [(docPaths_plain path hdoc).2.1] at hpieces
      exact ⟨hpieces path List.mem_cons_self, by unfold maxNameBytes; omega, hnul⟩
    have hfiles : ValidName filesName := ⟨by decide, by decide, by decide⟩
    refine ⟨?_, ?_⟩
    · rw [pieces_doc hdoc]
      refine List.forall_mem_append.2 ⟨fun name hname => hnames name
        (List.mem_append_left _ hname), ?_⟩
      simpa using ⟨hfiles, hpath⟩
    · have hbytes : pathBytes [filesName, path] ≤ 22 := by
        have hsize : filesName.utf8ByteSize = 5 := by decide
        simp only [pathBytes, List.foldr_cons, List.foldr_nil, hsize]
        omega
      have hsteps : pathBytes (steps key x) ≤ 5 * 256 := by
        have hstep : ∀ name ∈ steps key x, name.utf8ByteSize ≤ 255 := fun name hname =>
          (hnames name (List.mem_append_left _ hname)).short
        simp only [steps, List.forall_mem_cons] at hstep
        simp only [steps, pathBytes, List.foldr_cons, List.foldr_nil]
        omega
      rw [pieces_doc hdoc, pathBytes_append]
      unfold maxPathBytes
      omega

theorem clear_doc (h : Intact history v) {content : ByteArray}
    (hentry : v.held (entryPath key x) = some content) {path : String}
    (hdoc : path ∈ Module.docPaths) : v.Clear (filePath key x path) := by
  have hclear := Volume.clear_of_held h.tidy hentry
  have hnormal := isNormal_filesDir (Volume.isObject_of_held h.tidy hentry)
  have hproper := ne_of_slash (slash_mem_filesDir key x)
  have hnone : v.held (filesDir key x) = none := by
    by_contra hheld
    obtain ⟨other, hother⟩ := Option.ne_none_iff_exists'.1 hheld
    obtain ⟨a, ha, hwrite⟩ := h.origin _ _ hother
    rcases mem_writes.1 hwrite with ⟨e, he, hpath, _⟩ | ⟨hpath, _⟩
    · exact filesDir_ne_filePath (isObject_of_mem_files (List.mem_map_of_mem he)) hpath
    · exact filesDir_ne_entryPath hpath
  cases v with
  | table objects => trivial
  | tree root =>
    rw [Volume.held_tree h.tidy.1 ⟨hnormal, hproper.1⟩, pieces_filesDir] at hnone
    intro pre rest hrest hsplit
    rw [pieces_doc hdoc] at hsplit
    -- on the way lie the directories down to the one of the files, and that one itself
    obtain ⟨last, rest', hlast⟩ : ∃ rest' last, rest = rest' ++ [last] :=
      ⟨rest.dropLast, rest.getLast hrest, (List.dropLast_append_getLast hrest).symm⟩
    rw [hlast, ← List.append_assoc, show steps key x ++ [filesName, path] =
      (steps key x ++ [filesName]) ++ [path] by simp] at hsplit
    obtain ⟨hway, _⟩ := List.append_inj' hsplit rfl
    by_cases hempty : last = []
    · rw [hempty, List.append_nil] at hway
      rwa [← hway]
    · obtain ⟨middle, bottom, hmiddle⟩ : ∃ middle bottom, last = middle ++ [bottom] :=
        ⟨last.dropLast, last.getLast hempty, (List.dropLast_append_getLast hempty).symm⟩
      rw [hmiddle, ← List.append_assoc] at hway
      obtain ⟨hsteps, _⟩ := List.append_inj' hway rfl
      refine hclear pre (middle ++ [entryName]) (by simp) ?_
      rw [pieces_entryPath, hsteps, List.append_assoc]

theorem stat_doc (h : Intact history v) {content : ByteArray}
    (hentry : v.held (entryPath key x) = some content) {path : String}
    (hdoc : path ∈ Module.docPaths) (hnone : v.held (filePath key x path) = none) :
    (filesBucket key x).stat [v] true path = .error (.missing path) := by
  obtain ⟨hobject, _⟩ := docPaths_plain path hdoc
  have hnormal := isNormal_filesDir (Volume.isObject_of_held h.tidy hentry)
  have hmissing := Volume.get_eq_missing h.tidy (isObject_join hnormal hobject) hnone
    (clear_doc h hentry hdoc) (fits_doc h.tidy hentry hdoc)
  unfold Bucket.stat
  rw [get_filesBucket]
  rw [show Path.join (filesDir key x) path = filePath key x path from rfl] at hmissing
  rw [hmissing]
  rfl

/-! ### Serving what was kept -/

/-- Beside an entry stand the files of the module. -/
theorem hasFiles_filesBucket (h : Intact history v) (hagreed : Agreed history (placeOf key x))
    (ha : a ∈ history) (hplace : a.kept.place = placeOf key x) {entry : ByteArray}
    (hentry : v.held (entryPath key x) = some entry) :
    Module.HasFiles [v] true (filesBucket key x) a.kept.files := by
  have hheld {path : String} {content : ByteArray} :
      v.held (filePath key x path) = some content ↔ (path, content) ∈ a.kept.files.entries :=
    h.held_filePath hagreed ha hplace hentry
  have hnormal := isNormal_filesDir (Volume.isObject_of_held h.tidy hentry)
  have hproper := proper_filesBucket h.tidy hnormal
  have hms : ∀ m ∈ [Mapper.strip (filesDir key x)], m.Proper := by
    simpa [Mapper.Proper] using hnormal
  obtain ⟨infos, hlist, hinfos⟩ := exists_list (regular_of_proper _ hproper)
  have hkeys : infos.map ObjectInfo.path = a.kept.files.keys := by
    refine eq_of_pairwise_lt (pairwise_lt_list hproper Path.isNormal_root hlist)
      (List.pairwise_map.2 a.kept.files.ordered) fun path => ?_
    rw [List.mem_map]
    simp only [hinfos, shows_filesBucket h.tidy hnormal]
    constructor
    · rintro ⟨info, ⟨_, _, content, hcontent⟩, rfl⟩
      exact List.mem_map_of_mem (hheld.1 hcontent)
    · intro hpath
      obtain ⟨e, he, rfl⟩ := List.mem_map.1 hpath
      exact ⟨⟨e.1, filePath key x e.1⟩, ⟨isObject_of_mem_files hpath, rfl, e.2, hheld.2 he⟩, rfl⟩
  refine ⟨Module.docPaths.find? fun doc => a.kept.files.has doc, infos, ?_, hlist, ?_, ?_⟩
  · refine Module.firstPresent?_eq fun path hdoc => ?_
    cases hfind : a.kept.files.find? path with
    | none =>
      rw [Table.has, hfind, if_neg (by simp)]
      refine stat_doc h hentry hdoc (Option.eq_none_iff_forall_ne_some.2 fun content hcontent => ?_)
      cases hfind.symm.trans (Table.mem_entries.1 (hheld.1 hcontent))
    | some content =>
      rw [Table.has, hfind, if_pos Option.isSome_some]
      have hread := read_filesBucket.2 (hheld.2 (Table.mem_entries.2 hfind))
      unfold Bucket.read at hread
      unfold Bucket.stat
      cases hget : (filesBucket key x).get [v] true path with
      | ok answer => exact ⟨_, rfl⟩
      | error e =>
        rw [hget] at hread
        cases hread
  · rw [hkeys, List.filter_eq_self]
    exact fun path hpath => Module.belongs_of_kinds a.kept.kinds a.kept.oneDoc hpath
  · exact fun e he => read_filesBucket.2 (hheld.2 he)

/-- The view of module files serves them if what can be read is listed. -/
theorem serves_of_hasFiles {volumes : Volumes} {b view : Bucket} {files : Table ByteArray}
    (hview : Module.filesOf volumes true b = .ok view)
    (h : Module.HasFiles volumes true b files)
    (hlisted : ∀ path content, path ≠ "." → path ≠ "" → b.read volumes true path = .ok content →
      ∃ infos, b.list volumes true "." = .ok infos ∧ path ∈ infos.map ObjectInfo.path) :
    view.Serves volumes files := by
  obtain ⟨hlist, hmem⟩ := shows_hasFiles hview h
  refine ⟨hlist, fun path content => ⟨fun hread => (hmem path content).2 ⟨?_, hread⟩,
    fun hin => ((hmem path content).1 hin).2⟩⟩
  obtain ⟨doc, infos, hdoc, hinfos, hkeys, _⟩ := h
  obtain ⟨doc', hdoc', rfl⟩ := Module.filesOf_eq_ok.1 hview
  cases hdoc.symm.trans hdoc'
  obtain ⟨haccepts, hread⟩ := Bucket.read_keeping.1 hread
  rw [Module.accepts_kept] at haccepts
  -- the directory of the files itself is no file of a module
  have hplain {other : String} (hother : Module.belongs none other = false)
      (hdocs : other ∉ Module.docPaths) : path ≠ other := by
    rintro rfl
    unfold Module.belongs at haccepts hother
    simp only [reduceCtorEq, decide_false, Bool.or_false] at hother
    rw [hother, Bool.false_or] at haccepts
    rw [of_decide_eq_true haccepts] at hdoc
    exact hdocs (Module.mem_of_firstPresent? hdoc)
  obtain ⟨infos', hinfos', hpath⟩ := hlisted path content (hplain (by decide) (by decide))
    (hplain (by decide) (by decide)) hread
  cases hinfos.symm.trans hinfos'
  rw [← hkeys]
  exact List.mem_filter.2 ⟨hpath, haccepts⟩

/-- The view of the module files among objects serves them. -/
theorem exists_view (objects : Table ByteArray) : ∃ view,
    (∀ v, Module.filesOf [v] true (.objects objects) = .ok view) ∧
      ∀ v, view.Serves [v] (Module.filesAmong objects) := by
  have hview (v : Volume) := Module.filesOf_eq_ok.2
    ⟨_, @Module.firstPresent?_objects [v] objects, rfl⟩
  refine ⟨_, hview, fun v => ?_⟩
  refine serves_of_hasFiles (hview v) (Module.hasFiles_filesAmong objects)
    fun path content _ _ hread => ?_
  obtain ⟨infos, hlist, hkeys⟩ := @Module.list_objects [v] objects
  exact ⟨infos, hlist, hkeys ▸ List.mem_map_of_mem (Module.read_objects.1 hread)⟩

theorem Kept.filesAmong_files (p : Kept) : Module.filesAmong p.files = p.files :=
  Module.filesAmong_eq_self p.kinds p.oneDoc

/-- What is delivered as a table of the files of a module opens to them once the digests of its key
and dependencies were found. -/
theorem delivers_sealed {p : Kept} (hlive : w.live = true) (hkey : p.key.Found w p.digest)
    (hdeps : List.Forall₂ (ModuleKey.Found w) (p.deps.map Prod.fst) (p.deps.map Prod.snd)) :
    (Delivery.sealed p.key (.ok (.objects p.files)) (p.deps.map Prod.fst)).Delivers w p.files
      (p.deps.map Prod.fst) := by
  obtain ⟨view, hview, hserves⟩ := exists_view p.files
  rw [p.filesAmong_files] at hserves
  have hview' : Module.filesOf w.volumes w.live (.objects p.files) = .ok view := by
    rw [hlive]
    exact hview w.store
  have hm : Manifest.ofBucket w.volumes w.live view = .ok (.ofFiles p.files) := by
    rw [hlive]
    exact Module.ofBucket_of_reads (hserves w.store).lists
      (fun e he => ((hserves w.store).reads e.1 e.2).2 he) p.listed
  have hverify : (Delivery.sealed p.key (.ok (.objects p.files)) (p.deps.map Prod.fst)).verify.Gives
      w ⟨view, p.deps.map Prod.fst⟩ w :=
    Delivery.gives_verify.2 ⟨p.digest, hlive, rfl, ⟨_, rfl, hview'⟩, w, ModuleKey.run_of_found hkey,
      Delivery.gives_digestOf.2 ⟨_, _, hm, ModuleKey.gives_digests_of_found hdeps, p.digest_eq⟩⟩
  exact ⟨_, _, w, Delivery.gives_contents_of_verify rfl hverify, hserves w.store, rfl⟩

theorem gives_recorded (deps : List (ModuleKey × Digest)) (w : World) :
    ((deps.map recorded).mapM ModuleKey.resolveDigest).Gives w (deps.map Prod.snd) w :=
  ModuleKey.gives_digests_of_found (List.forall₂_map_left_iff.2 (List.forall₂_map_right_iff.2
    (List.forall₂_same.2 fun _ _ => .inl rfl)))

/-- What the files and the entry of a put make up passes the verification for the key. -/
theorem delivers_kept (h : Intact history w.store) (hlive : w.live = true)
    (hkey : key.resolveDigest.Gives w x w₁) (hagreed : Agreed history (placeOf key x))
    (ha : a ∈ history) (hplace : a.kept.place = placeOf key x) (hdigest : a.kept.digest = x)
    {entry : ByteArray} (hentry : w.store.held (entryPath key x) = some entry) :
    (Delivery.sealed key (.ok (filesBucket key x)) (a.kept.deps.map recorded)).Delivers w
      a.kept.files (a.kept.deps.map recorded) := by
  have hfiles := hasFiles_filesBucket h hagreed ha hplace hentry
  obtain ⟨view, hview, hm⟩ := Module.ofBucket_of_hasFiles hfiles a.kept.listed
  obtain ⟨cells, rfl⟩ := ModuleKey.cells_of_gives hkey
  have hx := a.kept.digest_eq
  rw [hdigest] at hx
  have hview' : Module.filesOf w.volumes w.live (filesBucket key x) = .ok view := by
    rw [hlive]
    exact hview
  have hm' : Manifest.ofBucket w.volumes w.live view = .ok (.ofFiles a.kept.files) := by
    rw [hlive]
    exact hm
  have hverify : (Delivery.sealed key (.ok (filesBucket key x)) (a.kept.deps.map recorded)).verify.Gives
      w ⟨view, a.kept.deps.map recorded⟩ { w with cells := cells } :=
    Delivery.gives_verify.2 ⟨x, hlive, rfl, ⟨_, rfl, hview'⟩, _, hkey,
      Delivery.gives_digestOf.2 ⟨_, _, hm', gives_recorded _ _, hx⟩⟩
  refine ⟨_, _, _, Delivery.gives_contents_of_verify rfl hverify, ?_, rfl⟩
  exact serves_of_hasFiles hview hfiles fun _ _ => listed_filesBucket h.tidy
    (isNormal_filesDir (Volume.isObject_of_held h.tidy hentry))

theorem gives_again (h : key.resolveDigest.Gives w x w₁) : key.resolveDigest.Gives w₁ x w₁ := by
  cases hk : key.digest with
  | known y =>
    cases (ModuleKey.run_known hk).symm.trans h
    exact ModuleKey.run_known hk
  | asked cell =>
    by_cases hin : key.In w
    · exact ModuleKey.run_of_found (ModuleKey.found_of_gives hin h)
    · -- a cell that is not there keeps nothing
      have hout : w.cells.length ≤ cell := by
        by_contra hlt
        refine hin fun other hother => ?_
        cases hk.symm.trans hother
        exact Nat.not_le.1 hlt
      have hcell : w.cell cell = .unresolved := by
        rw [World.cell, List.getElem?_eq_none hout]
        rfl
      have hsame (memo : Memo Module.Error Digest) : w.withCell cell memo = w := by
        rw [World.withCell, List.set_eq_of_length_le hout]
      have hrun := (ModuleKey.run_asked hk).symm.trans h
      rw [hcell] at hrun
      simp only [hsame] at hrun
      obtain ⟨_, rfl⟩ := Prod.mk.inj hrun
      exact h

/-- Where a put was tried, other places are as they were. -/
theorem Step.held_entry {p : Kept} {done : Bool} (h : v.Tidy) (hstep : Step v p done v')
    (hplace : p.place ≠ placeOf key x) :
    v'.held (entryPath key x) = v.held (entryPath key x) := by
  obtain ⟨ws, outcome, hws, hperform, _⟩ := hstep.performs
  obtain ⟨_, made, hmade, _, _, hsame, _⟩ := perform_cases h hperform
  refine hsame _ fun hin => ?_
  obtain ⟨e, he, hpath⟩ := List.mem_map.1 hin
  have hwrite : (entryPath key x, e.2) ∈ p.writes := by
    rw [← hpath]
    exact (hmade.trans hws).subset he
  exact hplace (place_of_entry_written hwrite).1

theorem Agreed.cons {b : Attempt} (h : Agreed history (placeOf key x))
    (hplace : b.kept.place ≠ placeOf key x) : Agreed (b :: history) (placeOf key x) where
  digest a ha a' ha' hp hp' := by
    have hin {a : Attempt} (ha : a ∈ b :: history) (hp : a.kept.place = placeOf key x) :
        a ∈ history := (List.mem_cons.1 ha).resolve_left fun heq => hplace (heq ▸ hp)
    exact h.digest a (hin ha hp) a' (hin ha' hp') hp hp'
  noCollision a ha a' ha' hp hp' := by
    have hin {a : Attempt} (ha : a ∈ b :: history) (hp : a.kept.place = placeOf key x) :
        a ∈ history := (List.mem_cons.1 ha).resolve_left fun heq => hplace (heq ▸ hp)
    exact h.noCollision a (hin ha hp) a' (hin ha' hp') hp hp'

/-- After puts that each ran to their end or stopped on the way, looking for a key gives an answer.
What is found passes its verification and serves the files that every put for the key kept, with
the dependencies of one of them. Something is found where such a put succeeded. And a put for a key
of another place changes neither what is found nor what that serves. -/
theorem find_after_puts (h : Reaches history w.store) (hkey : key.resolveDigest.Gives w x w₁)
    (hagreed : Agreed history (placeOf key x)) :
    ∃ found, (find key).Gives w found w₁ ∧
      (∀ d, found = some d → ∃ a ∈ history, a.kept.place = placeOf key x ∧ a.kept.digest = x ∧
        d.Delivers w₁ a.kept.files (a.kept.deps.map recorded) ∧
        ∀ b ∈ history, b.kept.place = placeOf key x → b.kept.files = a.kept.files) ∧
      (w.live = true → (∃ a ∈ history, a.done = true ∧ a.kept.place = placeOf key x ∧
        a.kept.digest = x) → found ≠ none) ∧
      ∀ p done v', Step w.store p done v' → p.place ≠ placeOf key x →
        (find key).Gives { w with store := v' } found { w₁ with store := v' } ∧
        ∀ d, found = some d → ∀ files deps,
          d.Delivers w₁ files deps ↔ d.Delivers { w₁ with store := v' } files deps := by
  have hintact := h.intact
  have hagain := gives_again hkey
  obtain ⟨cells, rfl⟩ := ModuleKey.cells_of_gives hkey
  refine ⟨_, gives_find_lookUp hkey, fun d hfound => ?_, fun hlive hput => ?_, ?_⟩
  · obtain ⟨hlive, a, ha, hplace, hdigest, hentry, rfl⟩ := lookUp_eq_some hintact hfound
    exact ⟨a, ha, hplace, hdigest,
      delivers_kept (w := { w with cells := cells }) hintact hlive hagain hagreed ha hplace hdigest
        hentry,
      fun b hb hplace' => hagreed.files hb ha hplace' hplace⟩
  · obtain ⟨a, ha, hdone, hplace, hdigest⟩ := hput
    show lookUp w.live w.store key x ≠ none
    rw [hlive]
    exact lookUp_ne_none hintact hagreed ha hdone hplace hdigest
  · intro p done v' hstep hother
    have hsame : lookUp w.live w.store key x = lookUp w.live v' key x :=
      lookUp_congr (hstep.held_entry hintact.tidy hother).symm
    refine ⟨?_, fun d hfound files deps => ?_⟩
    · have hfind := gives_find_lookUp (ModuleKey.gives_withStore hkey v')
      rwa [← hsame] at hfind
    · -- a put for the key kept what is served before and after, and so nothing else is served
      have hfound' : lookUp w.live v' key x = some d := hsame ▸ hfound
      obtain ⟨hlive, a, ha, hplace, hdigest, hentry, rfl⟩ := lookUp_eq_some hintact hfound
      have hbefore := delivers_kept (w := { w with cells := cells }) hintact hlive hagain hagreed ha
        hplace hdigest hentry
      have hafter := delivers_kept (w := { w with cells := cells, store := v' })
        (hintact.step hstep) hlive (ModuleKey.gives_withStore hagain v') (hagreed.cons hother)
        (List.mem_cons_of_mem _ ha) hplace hdigest
        ((hstep.held_entry hintact.tidy hother).trans hentry)
      constructor
      · intro hdelivers
        obtain ⟨rfl, rfl⟩ := hdelivers.unique hbefore
        exact hafter
      · intro hdelivers
        obtain ⟨rfl, rfl⟩ := hdelivers.unique hafter
        exact hbefore

/-! ### A put that is tried twice -/

open Delivery (pets base units petFiles petDeps petDigest pushed)

def keptPets : Kept where
  key := pets
  digest := petDigest
  files := petFiles
  deps := [base, units].zip petDeps
  listed := by decide +kernel
  kinds := by decide +kernel
  oneDoc := by decide +kernel
  digest_eq := Digest.b5_eq_ok.2 ⟨by decide, rfl⟩

/-- The empty world but for its store. -/
def around (v : Volume) : World := { World.empty with store := v }

theorem carries_pets (v : Volume) :
    Carries (around v) (.sealed pets (.ok pushed) [base, units]) keptPets := by
  have hfiles : Module.HasFiles (around v).volumes true pushed petFiles := Delivery.hasFiles_pushed
  obtain ⟨view, hview, hm⟩ := Module.ofBucket_of_hasFiles hfiles keptPets.listed
  have hverify : (Delivery.sealed pets (.ok pushed) [base, units]).verify.Gives (around v)
      ⟨view, [base, units]⟩ (around v) :=
    Delivery.gives_verify.2 ⟨petDigest, rfl, rfl, ⟨pushed, rfl, hview⟩, _, rfl,
      Delivery.gives_digestOf.2 ⟨_, petDeps, hm, rfl, keptPets.digest_eq⟩⟩
  obtain ⟨hlist, hmem⟩ := shows_hasFiles hview hfiles
  have hread (v' : Volume) : ∀ e ∈ petFiles.entries, view.read [v'] true e.1 = .ok e.2 := by
    obtain ⟨doc, hdoc, rfl⟩ := Module.filesOf_eq_ok.1 hview
    exact fun e he => ((hmem e.1 e.2).1 he).2
  refine ⟨rfl, rfl, _, _, _, Delivery.gives_contents_of_verify rfl hverify, rfl, .inl rfl, ?_,
    hlist, fun ws _ => hread _⟩
  exact List.forall_mem_cons.2 ⟨.inl rfl, List.forall_mem_cons.2 ⟨.inl rfl, by simp⟩⟩

theorem agreed_pets : Agreed [⟨keptPets, true⟩, ⟨keptPets, false⟩] (placeOf pets petDigest) := by
  have hkept : ∀ a ∈ [(⟨keptPets, true⟩ : Attempt), ⟨keptPets, false⟩], a.kept = keptPets := by
    simp
  refine ⟨fun a ha b hb _ _ => ?_, fun a ha b hb _ _ => ?_⟩
  · rw [hkept a ha, hkept b hb]
  · rw [hkept a ha, hkept b hb]
    exact .of_same _ fun _ => Iff.rfl

/-- A put that stopped after one file is made up for by another. -/
theorem finds_after_second_put :
    ∃ v d, Reaches [⟨keptPets, true⟩, ⟨keptPets, false⟩] v ∧
      pets.resolveDigest.Gives (around v) petDigest (around v) ∧
      Agreed [⟨keptPets, true⟩, ⟨keptPets, false⟩] (placeOf pets petDigest) ∧
      (find pets).Gives (around v) (some d) (around v) ∧
      d.Delivers (around v) petFiles [base, units] := by
  have hobjects : ∀ e ∈ keptPets.writes, IsObject e.1 := by decide +kernel
  obtain ⟨partly, hpartly⟩ : ∃ partly, perform (.table .empty) (keptPets.writes.take 1) =
      (.ok (), .table partly) := perform_table fun e he => hobjects e (List.mem_of_mem_take he)
  obtain ⟨full, hfull⟩ : ∃ full, perform (.table partly) keptPets.writes =
      (.ok (), .table full) := perform_table hobjects
  have hstopped : Step (.table .empty) keptPets false (.table partly) := by
    have hstep := Step.stopped (v := .table .empty) (w := around (.table .empty)) rfl
      (carries_pets _) (List.take_prefix 1 keptPets.writes)
    rwa [hpartly] at hstep
  have hwhole : Step (.table partly) keptPets true (.table full) := by
    obtain ⟨c, d', w₁, _, hrun⟩ := run_put (carries_pets (.table partly))
    have hstep := Step.whole (v := .table partly) rfl (carries_pets (.table partly)) hrun
    rwa [show (around (.table partly)).store = .table partly from rfl, hfull] at hstep
  have hreaches : Reaches [⟨keptPets, true⟩, ⟨keptPets, false⟩] (.table full) :=
    .put (.put (.empty (.inl rfl)) hstopped) hwhole
  have hkey : pets.resolveDigest.Gives (around (.table full)) petDigest (around (.table full)) :=
    rfl
  obtain ⟨found, hfind, hserves, hhit, _⟩ := find_after_puts (w := around (.table full)) hreaches
    hkey agreed_pets
  cases found with
  | none => exact absurd rfl (hhit rfl ⟨⟨keptPets, true⟩, List.mem_cons_self, rfl, rfl, rfl⟩)
  | some d =>
    obtain ⟨a, ha, _, _, hdelivers, _⟩ := hserves d rfl
    have hkept : a.kept = keptPets := by
      simp only [List.mem_cons, List.not_mem_nil, or_false] at ha
      rcases ha with rfl | rfl
      · rfl
      · rfl
    rw [hkept] at hdelivers
    exact ⟨_, d, hreaches, hkey, agreed_pets, hfind, hdelivers⟩

end Store

end Schemata

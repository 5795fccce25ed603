import Schemata.Proofs.Store.Putting

/-!
# What interrupted puts leave

The store is filled by puts of verified modules, one after the other. A put may stop after any of
its writes. Whatever stands in the store then was written by some put, and where there is an entry,
all its files are there.
-/

namespace Schemata.Store

open Storage

/-- A put: what it was to keep, and whether it succeeded. -/
structure Attempt where
  kept : Kept
  done : Bool

/-- What a put of a verified module makes of a store: it runs to its end, or it stops after some of
its writes. -/
inductive Step (v : Volume) (p : Kept) : Bool → Volume → Prop
  | whole {w w' : World} {d : Delivery} {outcome : Except Module.Error Delivery}
      (hstore : w.store = v) (hcarries : Carries w d p) (hrun : (put d).run w = (outcome, w')) :
      Step v p outcome.isOk w'.store
  | stopped {w : World} {d : Delivery} {ws : List (String × ByteArray)}
      (hstore : w.store = v) (hcarries : Carries w d p) (hws : ws <+: p.writes) :
      Step v p false (perform v ws).2

/-- Whether puts in turn, the latest first, lead from an empty store to a store. -/
inductive Reaches : List Attempt → Volume → Prop
  | empty {v : Volume} (hempty : v.Empty) : Reaches [] v
  | put {history : List Attempt} {v v' : Volume} {p : Kept} {done : Bool}
      (hbefore : Reaches history v) (hstep : Step v p done v') : Reaches (⟨p, done⟩ :: history) v'

variable {v v' : Volume} {p : Kept} {done : Bool} {history : List Attempt} {key : ModuleKey}
  {x : Digest}

/-- A put makes some of its writes, and all of them if it succeeds. -/
theorem Step.performs (h : Step v p done v') :
    ∃ ws outcome, ws <+: p.writes ∧ perform v ws = (outcome, v') ∧
      (done = true → ws = p.writes ∧ outcome = .ok ()) := by
  cases h with
  | @whole w w' d outcome hstore hcarries hrun =>
    subst hstore
    obtain ⟨c, d', w₁, _, hput⟩ := run_put hcarries
    cases hrun.symm.trans hput
    refine ⟨p.writes, _, List.prefix_refl _, rfl, fun hdone => ⟨rfl, ?_⟩⟩
    cases houtcome : (perform w.store p.writes).1 with
    | ok u => rfl
    | error e =>
      rw [houtcome] at hdone
      cases hdone
  | @stopped w d ws hstore hcarries hws =>
    exact ⟨ws, _, hws, rfl, fun hdone => Bool.noConfusion hdone⟩

/-! ### Writes of a module -/

theorem isObject_of_mem_files {path : String} (hpath : path ∈ p.files.keys) : IsObject path :=
  Path.validateObject_eq_ok.1 (p.listed path hpath).2

theorem mem_writes {path : String} {content : ByteArray} :
    (path, content) ∈ p.writes ↔
      (∃ e ∈ p.files.entries, path = filePath p.key p.digest e.1 ∧ content = e.2) ∨
        path = entryPath p.key p.digest ∧ content = p.entry := by
  simp only [Kept.writes, Kept.fileWrites, List.mem_append, List.mem_map, List.mem_singleton,
    Prod.mk.injEq, eq_comm]

/-- The entry is written when all files are. -/
theorem eq_writes_of_entry {ws : List (String × ByteArray)} (h : ws <+: p.writes)
    (hentry : entryPath p.key p.digest ∈ ws.map Prod.fst) : ws = p.writes := by
  rw [Kept.writes, List.prefix_concat_iff] at h
  refine h.resolve_right fun hfiles => ?_
  obtain ⟨e, he, hpath⟩ := List.mem_map.1 hentry
  obtain ⟨file, hfile, rfl⟩ := List.mem_map.1 (hfiles.subset he)
  have hobject := isObject_of_mem_files (List.mem_map_of_mem hfile)
  exact entryPath_ne_filePath hobject.2 hobject.1.ne_empty hpath.symm

/-- Paths that a module is written under lie in its own place. -/
theorem place_of_entry_written {content : ByteArray} (h : (entryPath key x, content) ∈ p.writes) :
    p.place = placeOf key x ∧ content = p.entry := by
  rcases mem_writes.1 h with ⟨e, he, hpath, _⟩ | ⟨hpath, hcontent⟩
  · have hobject := isObject_of_mem_files (List.mem_map_of_mem he)
    exact absurd hpath (entryPath_ne_filePath hobject.2 hobject.1.ne_empty)
  · exact ⟨(entryPath_inj hpath).symm, hcontent⟩

theorem place_of_file_written {path : String} {content : ByteArray}
    (h : (filePath key x path, content) ∈ p.writes) :
    p.place = placeOf key x ∧ (path, content) ∈ p.files.entries := by
  have hkeys {e : String × ByteArray} (he : e ∈ p.files.entries) : IsObject e.1 :=
    isObject_of_mem_files (List.mem_map_of_mem he)
  by_cases hroot : path = "." ∨ path = ""
  · -- the directory of the files itself is no path of a write
    rw [filePath_root hroot] at h
    rcases mem_writes.1 h with ⟨e, he, hpath, _⟩ | ⟨hpath, _⟩
    · exact absurd hpath (filesDir_ne_filePath (hkeys he))
    · exact absurd hpath filesDir_ne_entryPath
  · rw [not_or] at hroot
    rcases mem_writes.1 h with ⟨e, he, hpath, rfl⟩ | ⟨hpath, _⟩
    · obtain ⟨hplace, rfl⟩ := filePath_inj hroot.1 hroot.2 (hkeys he) hpath
      exact ⟨hplace.symm, he⟩
    · exact absurd hpath.symm (entryPath_ne_filePath hroot.1 hroot.2)

/-! ### The invariant -/

/-- What a store is after some puts: all content comes from one of them, where there is an entry
its files are too, and where a put succeeded there is an entry. -/
structure Intact (history : List Attempt) (v : Volume) : Prop where
  tidy : v.Tidy
  origin : ∀ path content, v.held path = some content →
    ∃ a ∈ history, (path, content) ∈ a.kept.writes
  complete : ∀ key x content, v.held (entryPath key x) = some content →
    ∃ a ∈ history, a.kept.place = placeOf key x ∧ content = a.kept.entry ∧
      ∀ path ∈ a.kept.files.keys, v.held (filePath key x path) ≠ none
  finished : ∀ a ∈ history, a.done = true → v.held (entryPath a.kept.key a.kept.digest) ≠ none

theorem Intact.empty (h : v.Empty) : Intact [] v where
  tidy := h.tidy
  origin path content hheld := by
    rw [h.held] at hheld
    cases hheld
  complete key x content hheld := by
    rw [h.held] at hheld
    cases hheld
  finished a ha := absurd ha List.not_mem_nil

/-- A put keeps the store intact, wherever it stops. -/
theorem Intact.step (h : Intact history v) (hstep : Step v p done v') :
    Intact (⟨p, done⟩ :: history) v' := by
  obtain ⟨ws, outcome, hws, hperform, hdone⟩ := hstep.performs
  obtain ⟨htidy, made, hmade, hall, hheld, hsame, hcontents⟩ := perform_cases h.tidy hperform
  have hprefix := hmade.trans hws
  have hkept {path : String} (hpath : v.held path ≠ none) : v'.held path ≠ none := by
    by_cases hin : path ∈ made.map Prod.fst
    · obtain ⟨e, he, rfl⟩ := List.mem_map.1 hin
      exact (hheld e he).2
    · rwa [hsame path hin]
  refine ⟨htidy, fun path content hpath => ?_, fun key x content hentry => ?_, ?_⟩
  · by_cases hin : path ∈ made.map Prod.fst
    · exact ⟨_, List.mem_cons_self, hprefix.subset (hcontents path content hin hpath)⟩
    · rw [hsame path hin] at hpath
      obtain ⟨a, ha, hwrite⟩ := h.origin path content hpath
      exact ⟨a, List.mem_cons_of_mem _ ha, hwrite⟩
  · by_cases hin : entryPath key x ∈ made.map Prod.fst
    · have hwrite := hprefix.subset (hcontents _ content hin hentry)
      obtain ⟨hplace, hcontent⟩ := place_of_entry_written hwrite
      refine ⟨_, List.mem_cons_self, hplace, hcontent, fun path hpath => ?_⟩
      -- the entry is the last write, so the files were written before it
      rw [← entryPath_congr hplace] at hin
      obtain ⟨e, he, rfl⟩ := List.mem_map.1 hpath
      have hfile : (filePath p.key p.digest e.1, e.2) ∈ made := by
        rw [eq_writes_of_entry hprefix hin]
        exact mem_writes.2 (.inl ⟨e, he, rfl, rfl⟩)
      rw [← filePath_congr hplace]
      exact (hheld _ hfile).2
    · rw [hsame _ hin] at hentry
      obtain ⟨a, ha, hplace, hcontent, hfiles⟩ := h.complete key x content hentry
      exact ⟨a, List.mem_cons_of_mem _ ha, hplace, hcontent, fun path hpath =>
        hkept (hfiles path hpath)⟩
  · refine List.forall_mem_cons.2 ⟨fun hfinished => ?_, fun a ha hfinished =>
      hkept (h.finished a ha hfinished)⟩
    obtain ⟨rfl, rfl⟩ := hdone hfinished
    have hentry : (entryPath p.key p.digest, p.entry) ∈ made := by
      rw [hall rfl]
      exact mem_writes.2 (.inr ⟨rfl, rfl⟩)
    exact (hheld _ hentry).2

theorem Reaches.intact (h : Reaches history v) : Intact history v := by
  induction h with
  | empty hempty => exact .empty hempty
  | put _ hstep ih => exact ih.step hstep

/-! ### Puts that agree -/

/-- Whether the puts for a place keep modules of one digest, and the hash tells their files and
dependencies apart. -/
structure Agreed (history : List Attempt) (place : DigestType × ModuleName × CommitId) : Prop where
  digest : ∀ a ∈ history, ∀ b ∈ history, a.kept.place = place → b.kept.place = place →
    a.kept.digest = b.kept.digest
  noCollision : ∀ a ∈ history, ∀ b ∈ history, a.kept.place = place → b.kept.place = place →
    NoCollision a.kept.files b.kept.files (a.kept.deps.map Prod.snd) (b.kept.deps.map Prod.snd)

variable {a b : Attempt}

theorem Agreed.files {place : DigestType × ModuleName × CommitId} (h : Agreed history place)
    (ha : a ∈ history) (hb : b ∈ history) (hplace : a.kept.place = place)
    (hplace' : b.kept.place = place) : a.kept.files = b.kept.files := by
  have hx := a.kept.digest_eq
  rw [h.digest a ha b hb hplace hplace'] at hx
  exact (Digest.b5_inj (h.noCollision a ha b hb hplace hplace') a.kept.listed b.kept.listed hx
    b.kept.digest_eq).1

/-- Beside an entry stand the files of the module and no others. -/
theorem Intact.held_filePath (h : Intact history v) (hagreed : Agreed history (placeOf key x))
    (ha : a ∈ history) (hplace : a.kept.place = placeOf key x) {entry : ByteArray}
    (hentry : v.held (entryPath key x) = some entry) {path : String} {content : ByteArray} :
    v.held (filePath key x path) = some content ↔ (path, content) ∈ a.kept.files.entries := by
  have hown {content : ByteArray} (hheld : v.held (filePath key x path) = some content) :
      (path, content) ∈ a.kept.files.entries := by
    obtain ⟨b, hb, hwrite⟩ := h.origin _ _ hheld
    obtain ⟨hplace', hmem⟩ := place_of_file_written hwrite
    rwa [hagreed.files ha hb hplace hplace']
  refine ⟨hown, fun hmem => ?_⟩
  obtain ⟨b, hb, hplace', _, hfiles⟩ := h.complete key x entry hentry
  rw [← hagreed.files ha hb hplace hplace'] at hfiles
  obtain ⟨other, hother⟩ := Option.ne_none_iff_exists'.1 (hfiles path (List.mem_map_of_mem hmem))
  rw [hother, Table.value_unique (hown hother) hmem]

end Schemata.Store

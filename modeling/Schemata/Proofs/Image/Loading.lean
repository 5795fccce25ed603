import Mathlib.Data.Finset.Card
import Mathlib.Data.Finset.Dedup
import Schemata.Proofs.Schema.Bare
import Schemata.Proofs.Sorted
import Schemata.Proofs.Storage.Contents

/-!
# What is loaded

The files that are loaded are those that the requested files need: the requested files and all that
needed files import, each once. The number of contents bounds the number of waves, since a wave
without a new content asks for nothing new.
-/

namespace Schemata.Image

open Source

/-- Whether a view has a text at a path. -/
def HasText (w : World) (v : Module.View) (path text : String) : Prop :=
  ∃ info content, v.get w path = .ok (info, content) ∧ String.fromUTF8? content = some text

/-- Whether a file is requested or imported by a file that is needed. -/
inductive Needed (w : World) (v : Module.View) (requested : List String) : String → Prop
  | requested {path : String} (h : path ∈ requested) : Needed w v requested path
  | imported {path text : String} {i : Schema.Import} (h : Needed w v requested path)
    (ht : HasText w v path text) (hi : i ∈ (Schema.parse 0 text).file.imports) :
    Needed w v requested i.path

variable {w : World} {v : Module.View} {requested : List String}

theorem HasText.unique {path text text' : String} (h : HasText w v path text)
    (h' : HasText w v path text') : text = text' := by
  obtain ⟨info, content, hget, htext⟩ := h
  obtain ⟨info', content', hget', htext'⟩ := h'
  rw [hget] at hget'
  cases hget'
  rw [htext] at htext'
  exact Option.some.inj htext'

theorem Needed.imported_at {path text target : String} {n : FileId}
    (h : Needed w v requested path) (ht : HasText w v path text)
    (hi : target ∈ (Schema.parse n text).file.imports.map Schema.Import.path) :
    Needed w v requested target := by
  rw [Schema.paths_parse n 0] at hi
  obtain ⟨i, himport, rfl⟩ := List.mem_map.1 hi
  exact .imported h ht himport

/-! ### Reading single files -/

theorem textOf_eq_ok {path text : String} {content : ByteArray} :
    Module.View.textOf path content = .ok text ↔ String.fromUTF8? content = some text := by
  unfold Module.View.textOf
  split
  · rename_i t ht
    rw [ht]
    constructor
    · intro h
      exact congrArg some (Except.ok.inj h)
    · intro h
      exact congrArg Except.ok (Option.some.inj h)
  · rename_i ht
    rw [ht]
    constructor
    · intro h
      cases h
    · intro h
      cases h

theorem readFile_eq_some {path text : String} {info : FileInfo}
    (h : Sources.readFile w v path = .ok (some (info, text))) :
    ∃ content, v.get w path = .ok (info, content) ∧ String.fromUTF8? content = some text := by
  obtain ⟨_, _, h⟩ := bind_eq_ok.1 h
  split at h
  · split at h
    · cases h
    · cases h
  · rename_i info' content hget
    obtain ⟨text', htext, h⟩ := bind_eq_ok.1 h
    cases h
    exact ⟨content, hget, textOf_eq_ok.1 (mapError_eq_ok.1 htext)⟩

theorem hasText_of_readFile {path text : String} {info : FileInfo}
    (h : Sources.readFile w v path = .ok (some (info, text))) : HasText w v path text := by
  obtain ⟨content, hget, htext⟩ := readFile_eq_some h
  exact ⟨info, content, hget, htext⟩

theorem readFile_of_hasText {path text : String} (hlive : w.live = true)
    (h : HasText w v path text) :
    ∃ info, Sources.readFile w v path = .ok (some (info, text)) := by
  obtain ⟨info, content, hget, htext⟩ := h
  refine ⟨info, ?_⟩
  unfold Sources.readFile
  rw [hget]
  simp only [checkLive, hlive, if_true, textOf_eq_ok.2 htext]
  rfl

/-! ### Sources that are what the view has -/

/-- Whether the files that were read so far are what a view has at their paths. -/
structure Faithful (w : World) (v : Module.View) (s : Sources) : Prop where
  file : ∀ (n : Nat) f, s.files[n]? = some f →
    HasText w v f.path f.text ∧ f.file = (Schema.parse n f.text).file
  errors : s.errors = s.files.zipIdx.flatMap fun e => (Schema.parse e.2 e.1.text).errors

theorem Faithful.hasText {s : Sources} (h : Faithful w v s) {f : SourceFile} (hf : f ∈ s.files) :
    HasText w v f.path f.text := by
  obtain ⟨n, hn⟩ := List.mem_iff_getElem?.1 hf
  exact (h.file n f hn).1

theorem Faithful.paths {s : Sources} (h : Faithful w v s) {f : SourceFile} (hf : f ∈ s.files) :
    f.file.imports.map Schema.Import.path =
      (Schema.parse 0 f.text).file.imports.map Schema.Import.path := by
  obtain ⟨n, hn⟩ := List.mem_iff_getElem?.1 hf
  rw [(h.file n f hn).2]
  exact Schema.paths_parse n 0 f.text

theorem faithful_nil : Faithful w v ⟨[], []⟩ :=
  ⟨fun n f h => by simp at h, rfl⟩

theorem Faithful.addFile {s : Sources} (h : Faithful w v s) {path text : String} (info : FileInfo)
    (ht : HasText w v path text) : Faithful w v (s.addFile path info text) := by
  constructor
  · intro n f hf
    simp only [Sources.addFile, List.getElem?_append] at hf
    split at hf
    · exact h.file n f hf
    · rename_i hn
      rw [List.getElem?_singleton] at hf
      split at hf
      · cases hf
        have hlast : n = s.files.length := by omega
        rw [hlast]
        exact ⟨ht, rfl⟩
      · cases hf
  · simp only [Sources.addFile, List.zipIdx_append, List.flatMap_append, h.errors]
    simp

/-- What a wave adds: the files that are there, in the order of the wave. -/
theorem addWave_eq_ok {s s' : Sources} {found : List (String × Option (FileInfo × String))}
    (hs : Faithful w v s) (hfound : ∀ e ∈ found, Sources.readFile w v e.1 = .ok e.2)
    (h : Sources.addWave requested s found = .ok s') :
    Faithful w v s' ∧ (∃ new, s'.files = s.files ++ new ∧
      new.map SourceFile.path = (found.filter fun e => e.2.isSome).map Prod.fst) ∧
      ∀ path, (path, none) ∈ found → path ∉ requested := by
  induction found generalizing s with
  | nil =>
    cases h
    exact ⟨hs, ⟨[], by simp, rfl⟩, fun _ h => absurd h List.not_mem_nil⟩
  | cons e found ih =>
    have hrest : ∀ e ∈ found, Sources.readFile w v e.1 = .ok e.2 := fun e he =>
      hfound e (List.mem_cons_of_mem _ he)
    obtain ⟨path, answer⟩ := e
    cases answer with
    | none =>
      rw [Sources.addWave] at h
      split at h
      · cases h
      · rename_i hreq
        obtain ⟨hs', ⟨new, hnew, hpaths⟩, hnone⟩ := ih hs hrest h
        refine ⟨hs', ⟨new, hnew, by simpa using hpaths⟩, fun p hp => ?_⟩
        rcases List.mem_cons.1 hp with heq | hp
        · cases heq
          exact fun hmem => hreq (List.contains_iff_mem.2 hmem)
        · exact hnone p hp
    | some answer =>
      obtain ⟨info, text⟩ := answer
      rw [Sources.addWave] at h
      have ht := hasText_of_readFile (hfound _ List.mem_cons_self)
      obtain ⟨hs', ⟨new, hnew, hpaths⟩, hnone⟩ := ih (hs.addFile info ht) hrest h
      let file : SourceFile := ⟨path, info.external, info.module.name, info.module.commit, text,
        (Schema.parse s.files.length text).file⟩
      refine ⟨hs', ⟨file :: new, ?_, ?_⟩, fun p hp => ?_⟩
      · rw [hnew, Sources.addFile, List.append_assoc]
        rfl
      · simp only [List.map_cons, List.filter_cons, Option.isSome_some, if_true, hpaths]
        rfl
      · rcases List.mem_cons.1 hp with heq | hp
        · cases heq
        · exact hnone p hp

theorem exists_addWave {s : Sources} {found : List (String × Option (FileInfo × String))}
    (h : ∀ path, (path, none) ∈ found → path ∉ requested) :
    ∃ s', Sources.addWave requested s found = .ok s' := by
  induction found generalizing s with
  | nil => exact ⟨s, rfl⟩
  | cons e found ih =>
    obtain ⟨path, answer⟩ := e
    have hrest : ∀ path, (path, none) ∈ found → path ∉ requested := fun p hp =>
      h p (List.mem_cons_of_mem _ hp)
    cases answer with
    | some answer =>
      obtain ⟨info, text⟩ := answer
      exact ih hrest
    | none =>
      have hreq : requested.contains path = false := by
        have hmem := h path List.mem_cons_self
        simpa using hmem
      rw [Sources.addWave, hreq]
      exact ih hrest

/-! ### Waves -/

/-- Whether loading is right before a wave: all that was asked for is needed, and has been read
unless it is in the wave. -/
structure Loading (w : World) (v : Module.View) (requested asked wave : List String) (s : Sources) :
    Prop where
  faithful : Faithful w v s
  nodup : (s.files.map SourceFile.path).Nodup
  wave_nodup : wave.Nodup
  wave_asked : ∀ p ∈ wave, p ∈ asked
  requested_asked : ∀ p ∈ requested, p ∈ asked
  needed : ∀ p ∈ asked, Needed w v requested p
  read : ∀ p ∈ asked, p ∈ wave ∨ p ∈ s.files.map SourceFile.path ∨
    (p ∉ requested ∧ Sources.readFile w v p = .ok none)
  old : ∀ f ∈ s.files, f.path ∈ asked ∧ f.path ∉ wave
  imports : ∀ f ∈ s.files, ∀ p ∈ f.file.imports.map Schema.Import.path, p ∈ asked

/-- The paths that the next wave asks for. -/
def nextWave (asked : List String) (files : List SourceFile) : List String :=
  sortedSet ((files.flatMap fun f => f.file.imports.map Schema.Import.path).filter
    fun path => !asked.contains path)

theorem mem_nextWave {asked : List String} {files : List SourceFile} {p : String} :
    p ∈ nextWave asked files ↔
      (∃ f ∈ files, p ∈ f.file.imports.map Schema.Import.path) ∧ p ∉ asked := by
  rw [nextWave, mem_sortedSet, List.mem_filter, List.mem_flatMap]
  simp

theorem loading_start (w : World) (v : Module.View) (requested : List String) :
    Loading w v requested (sortedSet requested) (sortedSet requested) ⟨[], []⟩ where
  faithful := faithful_nil
  nodup := .nil
  wave_nodup := nodup_sortedSet _
  wave_asked := fun _ hp => hp
  requested_asked := fun _ hp => mem_sortedSet.2 hp
  needed := fun _ hp => .requested (mem_sortedSet.1 hp)
  read := fun _ hp => .inl hp
  old := fun _ hf => absurd hf List.not_mem_nil
  imports := fun _ hf => absurd hf List.not_mem_nil

theorem found_of_mapM {wave : List String} {found : List (String × Option (FileInfo × String))}
    (h : (wave.mapM fun path => do return (path, ← Sources.readFile w v path)) = .ok found) :
    found.map Prod.fst = wave ∧ ∀ e ∈ found, Sources.readFile w v e.1 = .ok e.2 := by
  have hall := mapM_eq_ok.1 h
  clear h
  induction hall with
  | nil => exact ⟨rfl, fun _ he => absurd he List.not_mem_nil⟩
  | @cons path e _ _ hhead _ ih =>
    obtain ⟨answer, hread, heq⟩ := bind_eq_ok.1 hhead
    cases heq
    refine ⟨by rw [List.map_cons, ih.1], fun e he => ?_⟩
    rcases List.mem_cons.1 he with rfl | he
    · exact hread
    · exact ih.2 e he

section Step

variable {asked wave : List String} {s s' : Sources}
  {found : List (String × Option (FileInfo × String))}

theorem Loading.read_next (h : Loading w v requested asked wave s)
    (hpaths : found.map Prod.fst = wave)
    (hfound : ∀ e ∈ found, Sources.readFile w v e.1 = .ok e.2)
    (hadd : Sources.addWave requested s found = .ok s') {p : String} (hp : p ∈ asked) :
    p ∈ s'.files.map SourceFile.path ∨ (p ∉ requested ∧ Sources.readFile w v p = .ok none) := by
  obtain ⟨_, ⟨new, hfiles, hnew⟩, hnone⟩ := addWave_eq_ok h.faithful hfound hadd
  rw [hfiles, List.map_append, List.mem_append]
  rcases h.read p hp with hwave | hold | hmissing
  · rw [← hpaths] at hwave
    obtain ⟨⟨p, answer⟩, he, rfl⟩ := List.mem_map.1 hwave
    cases answer with
    | none => exact .inr ⟨hnone p he, hfound _ he⟩
    | some answer =>
      refine .inl (.inr ?_)
      rw [hnew]
      exact List.mem_map_of_mem (List.mem_filter.2 ⟨he, rfl⟩)
  · exact .inl (.inl hold)
  · exact .inr hmissing

theorem Loading.next (h : Loading w v requested asked wave s) (hpaths : found.map Prod.fst = wave)
    (hfound : ∀ e ∈ found, Sources.readFile w v e.1 = .ok e.2)
    (hadd : Sources.addWave requested s found = .ok s') :
    ∃ new, s'.files = s.files ++ new ∧
      Loading w v requested (asked ++ nextWave asked new) (nextWave asked new) s' := by
  obtain ⟨hfaithful, ⟨new, hfiles, hnew⟩, _⟩ := addWave_eq_ok h.faithful hfound hadd
  have hsub : (new.map SourceFile.path).Sublist wave := by
    rw [hnew, ← hpaths]
    exact List.filter_sublist.map Prod.fst
  have hnewAsked : ∀ f ∈ new, f.path ∈ asked := fun f hf =>
    h.wave_asked _ (hsub.subset (List.mem_map_of_mem hf))
  refine ⟨new, hfiles, ?_⟩
  constructor
  case faithful => exact hfaithful
  case nodup =>
    rw [hfiles, List.map_append, List.nodup_append]
    refine ⟨h.nodup, hsub.nodup h.wave_nodup, ?_⟩
    rintro _ hp q hq rfl
    obtain ⟨f, hf, rfl⟩ := List.mem_map.1 hp
    exact (h.old f hf).2 (hsub.subset hq)
  case wave_nodup => exact nodup_sortedSet _
  case wave_asked => exact fun p hp => List.mem_append_right _ hp
  case requested_asked => exact fun p hp => List.mem_append_left _ (h.requested_asked p hp)
  case needed =>
    intro p hp
    rcases List.mem_append.1 hp with hp | hp
    · exact h.needed p hp
    · obtain ⟨⟨f, hf, himport⟩, _⟩ := mem_nextWave.1 hp
      have hmem : f ∈ s'.files := by
        rw [hfiles]
        exact List.mem_append_right _ hf
      rw [hfaithful.paths hmem] at himport
      exact (h.needed _ (hnewAsked f hf)).imported_at (hfaithful.hasText hmem) himport
  case read =>
    intro p hp
    rcases List.mem_append.1 hp with hp | hp
    · exact .inr (h.read_next hpaths hfound hadd hp)
    · exact .inl hp
  case old =>
    intro f hf
    rw [hfiles] at hf
    have hasked : f.path ∈ asked := by
      rcases List.mem_append.1 hf with hf | hf
      · exact (h.old f hf).1
      · exact hnewAsked f hf
    exact ⟨List.mem_append_left _ hasked, fun hp => (mem_nextWave.1 hp).2 hasked⟩
  case imports =>
    intro f hf p hp
    rw [hfiles] at hf
    rw [List.mem_append]
    rcases List.mem_append.1 hf with hf | hf
    · exact .inl (h.imports f hf p hp)
    · by_cases hasked : p ∈ asked
      · exact .inl hasked
      · exact .inr (mem_nextWave.2 ⟨⟨f, hf, hp⟩, hasked⟩)

/-- The different texts that were read. -/
def texts (s : Sources) : Finset String := (s.files.map SourceFile.text).toFinset

/-- A wave that asks for something new has read a new text. -/
theorem Loading.card_texts_lt (h : Loading w v requested asked wave s) {new : List SourceFile}
    (hfiles : s'.files = s.files ++ new) (hfaithful : Faithful w v s')
    (hnext : nextWave asked new ≠ []) : (texts s).card < (texts s').card := by
  obtain ⟨p, hp⟩ := List.exists_mem_of_ne_nil _ hnext
  obtain ⟨⟨f, hf, himport⟩, hasked⟩ := mem_nextWave.1 hp
  have hmem : f ∈ s'.files := by
    rw [hfiles]
    exact List.mem_append_right _ hf
  have hsub : texts s ⊆ texts s' := by
    intro text ht
    simp only [texts, hfiles, List.map_append, List.toFinset_append, Finset.mem_union] at ht ⊢
    exact .inl ht
  have hnew : f.text ∉ texts s := by
    intro ht
    obtain ⟨g, hg, hgf⟩ := List.mem_map.1 (List.mem_toFinset.1 ht)
    have himport' := hfaithful.paths hmem ▸ himport
    rw [← hgf, ← h.faithful.paths hg] at himport'
    exact hasked (h.imports g hg p himport')
  refine Finset.card_lt_card (Finset.ssubset_iff_subset_ne.2 ⟨hsub, fun heq => hnew ?_⟩)
  rw [heq]
  exact List.mem_toFinset.2 (List.mem_map_of_mem hmem)

theorem Faithful.card_texts_le (h : Faithful w v s) :
    (texts s).card ≤ (contentsOf w v).length := by
  have hsub : texts s ⊆ ((contentsOf w v).filterMap String.fromUTF8?).toFinset := by
    intro text ht
    obtain ⟨f, hf, rfl⟩ := List.mem_map.1 (List.mem_toFinset.1 ht)
    obtain ⟨info, content, hget, htext⟩ := h.hasText hf
    exact List.mem_toFinset.2 (List.mem_filterMap.2 ⟨content, mem_contentsOf hget, htext⟩)
  calc (texts s).card ≤ ((contentsOf w v).filterMap String.fromUTF8?).toFinset.card :=
        Finset.card_le_card hsub
    _ ≤ ((contentsOf w v).filterMap String.fromUTF8?).length := List.toFinset_card_le _
    _ ≤ (contentsOf w v).length := List.length_filterMap_le _ _

end Step

/-- Whether sources are all that some files need. -/
structure Loaded (w : World) (v : Module.View) (requested : List String) (s : Sources) : Prop where
  faithful : Faithful w v s
  nodup : (s.files.map SourceFile.path).Nodup
  mem_paths : ∀ p, p ∈ s.files.map SourceFile.path ↔
    Needed w v requested p ∧ ∃ text, HasText w v p text
  requested : ∀ p ∈ requested, p ∈ s.files.map SourceFile.path

theorem not_hasText_of_readFile {path text : String} (hlive : w.live = true)
    (h : Sources.readFile w v path = .ok none) : ¬ HasText w v path text := by
  intro ht
  obtain ⟨info, hread⟩ := readFile_of_hasText hlive ht
  rw [hread] at h
  cases h

/-- Whether a path can be read: it has a text, or it is not there and was not requested. -/
def Readable (w : World) (v : Module.View) (requested : List String) (path : String) : Prop :=
  (∃ text, HasText w v path text) ∨ (path ∉ requested ∧ Sources.readFile w v path = .ok none)

theorem exists_answer {path : String} (hlive : w.live = true) (h : Readable w v requested path) :
    ∃ e, (do return (path, ← Sources.readFile w v path) : Except Error _) = .ok e := by
  rcases h with ⟨text, ht⟩ | ⟨_, hnone⟩
  · obtain ⟨info, hread⟩ := readFile_of_hasText hlive ht
    rw [hread]
    exact ⟨_, rfl⟩
  · rw [hnone]
    exact ⟨_, rfl⟩

/-- When nothing is left to ask for, all that is needed has been read. -/
theorem Loading.loaded {asked : List String} {s : Sources} (hlive : w.live = true)
    (h : Loading w v requested asked [] s) : Loaded w v requested s := by
  have hasked : ∀ p, Needed w v requested p → p ∈ asked := by
    intro p hp
    induction hp with
    | requested hp => exact h.requested_asked _ hp
    | imported _ ht hi ih =>
      rcases (h.read _ ih).resolve_left List.not_mem_nil with hfile | ⟨_, hnone⟩
      · obtain ⟨f, hf, rfl⟩ := List.mem_map.1 hfile
        refine h.imports f hf _ ?_
        rw [h.faithful.paths hf, ← ht.unique (h.faithful.hasText hf)]
        exact List.mem_map_of_mem hi
      · exact absurd ht (not_hasText_of_readFile hlive hnone)
  refine ⟨h.faithful, h.nodup, fun p => ⟨fun hp => ?_, ?_⟩, fun p hp => ?_⟩
  · obtain ⟨f, hf, rfl⟩ := List.mem_map.1 hp
    exact ⟨h.needed _ (h.old f hf).1, f.text, h.faithful.hasText hf⟩
  · rintro ⟨hp, text, ht⟩
    rcases (h.read p (hasked p hp)).resolve_left List.not_mem_nil with hfile | ⟨_, hnone⟩
    · exact hfile
    · exact absurd ht (not_hasText_of_readFile hlive hnone)
  · rcases (h.read p (h.requested_asked p hp)).resolve_left List.not_mem_nil with hfile | ⟨hreq, _⟩
    · exact hfile
    · exact absurd hp hreq

theorem loadWaves_cons (waves : Nat) (asked : List String) (p : String) (wave : List String)
    (s : Sources) :
    Sources.loadWaves w v requested (waves + 1) asked (p :: wave) s = (do
      checkLive w
      let found ← (p :: wave).mapM fun path => do return (path, ← Sources.readFile w v path)
      let s₁ ← Sources.addWave requested s found
      let next := nextWave asked (s₁.files.drop s.files.length)
      Sources.loadWaves w v requested waves (asked ++ next) next s₁) := by
  rw [Sources.loadWaves]
  · rfl
  · intro h
    cases h

/-- Whether an outcome of loading is right: what is loaded is all that is needed, and it is loaded
where all of it can be read. -/
def LoadsAll (w : World) (v : Module.View) (requested : List String)
    (outcome : Except Error Sources) : Prop :=
  (∀ s, outcome = .ok s → Loaded w v requested s) ∧
    ((∀ p, Needed w v requested p → Readable w v requested p) → ∃ s, outcome = .ok s)

theorem loadsAll_ok {s : Sources} (h : Loaded w v requested s) :
    LoadsAll w v requested (.ok s) := by
  refine ⟨fun s' hs' => ?_, fun _ => ⟨s, rfl⟩⟩
  cases hs'
  exact h

theorem Loading.exists_wave {asked wave : List String} {s : Sources} (hlive : w.live = true)
    (h : Loading w v requested asked wave s)
    (hreadable : ∀ p, Needed w v requested p → Readable w v requested p) :
    ∃ found s₁, (wave.mapM fun path => do
        return (path, ← Sources.readFile w v path)) = .ok found ∧
      Sources.addWave requested s found = .ok s₁ := by
  have hwave : ∀ q ∈ wave, Readable w v requested q := fun q hq =>
    hreadable q (h.needed q (h.wave_asked q hq))
  obtain ⟨found, hfound⟩ := exists_mapM_eq_ok fun q hq => exists_answer hlive (hwave q hq)
  obtain ⟨hpaths, hread⟩ := found_of_mapM hfound
  have hnone : ∀ path, (path, none) ∈ found → path ∉ requested := by
    intro path hpath
    have hq : path ∈ wave := hpaths ▸ List.mem_map_of_mem hpath
    rcases hwave path hq with ⟨text, ht⟩ | ⟨hreq, _⟩
    · exact absurd ht (not_hasText_of_readFile hlive (hread _ hpath))
    · exact hreq
  obtain ⟨s₁, hadd⟩ := exists_addWave hnone
  exact ⟨found, s₁, hfound, hadd⟩

theorem loadWaves_spec (hlive : w.live = true) (waves : Nat) {asked wave : List String}
    {s : Sources} (h : Loading w v requested asked wave s)
    (hwaves : (contentsOf w v).length + 1 ≤ waves + (texts s).card) :
    LoadsAll w v requested (Sources.loadWaves w v requested waves asked wave s) := by
  induction waves generalizing asked wave s with
  | zero =>
    have hle := h.faithful.card_texts_le
    omega
  | succ waves ih =>
    cases wave with
    | nil => exact loadsAll_ok (h.loaded hlive)
    | cons p wave =>
      have hrest {found : List (String × Option (FileInfo × String))} {s₁ : Sources}
          (hfound : ((p :: wave).mapM fun path => do
            return (path, ← Sources.readFile w v path)) = .ok found)
          (hadd : Sources.addWave requested s found = .ok s₁) :
          let next := nextWave asked (s₁.files.drop s.files.length)
          LoadsAll w v requested
            (Sources.loadWaves w v requested waves (asked ++ next) next s₁) := by
        obtain ⟨hpaths, hread⟩ := found_of_mapM hfound
        obtain ⟨new, hfiles, hnext⟩ := h.next hpaths hread hadd
        rw [hfiles, List.drop_left]
        by_cases hnil : nextWave asked new = []
        · rw [hnil] at hnext ⊢
          have hdone : Sources.loadWaves w v requested waves (asked ++ []) [] s₁ = .ok s₁ := by
            rw [Sources.loadWaves]
          show LoadsAll w v requested (Sources.loadWaves w v requested waves (asked ++ []) [] s₁)
          rw [hdone]
          exact loadsAll_ok (hnext.loaded hlive)
        · -- a text that was not read before pays for the next wave
          have hlt := h.card_texts_lt hfiles hnext.faithful hnil
          exact ih hnext (by omega)
      rw [loadWaves_cons]
      constructor
      · intro s' hs'
        obtain ⟨_, _, hs'⟩ := bind_eq_ok.1 hs'
        obtain ⟨found, hfound, hs'⟩ := bind_eq_ok.1 hs'
        obtain ⟨s₁, hadd, hs'⟩ := bind_eq_ok.1 hs'
        exact (hrest hfound hadd).1 s' hs'
      · intro hreadable
        obtain ⟨found, s₁, hfound, hadd⟩ := h.exists_wave hlive hreadable
        obtain ⟨s', hs'⟩ := (hrest hfound hadd).2 hreadable
        refine ⟨s', ?_⟩
        rw [checkLive, hlive, if_pos rfl]
        exact bind_eq_ok.2 ⟨(), rfl, bind_eq_ok.2 ⟨found, hfound, bind_eq_ok.2 ⟨s₁, hadd, hs'⟩⟩⟩

/-- What is loaded is all that the requested files need, each file once. -/
theorem loaded_of_load (hlive : w.live = true) {s : Sources}
    (h : Sources.load w v requested = .ok s) : Loaded w v requested s :=
  (loadWaves_spec hlive _ (loading_start w v requested) (Nat.le_add_right _ _)).1 s h

/-- When all that is needed can be read, it is loaded. -/
theorem exists_load (hlive : w.live = true)
    (h : ∀ p, Needed w v requested p → Readable w v requested p) :
    ∃ s, Sources.load w v requested = .ok s :=
  (loadWaves_spec hlive _ (loading_start w v requested) (Nat.le_add_right _ _)).2 h

end Schemata.Image

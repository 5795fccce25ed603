import Schemata.Proofs.Settings.Extent
import Schemata.Workspace.Plan

/-!
# Where the modules of a workspace lie

The workspace of a directory lies at the directory or around it. Its plan has one module directory
for each extent that its settings documents describe, with settings that keep the extent.
-/

namespace Schemata.Workspace

open Settings Storage
open Schemata.Path (IsNormal covers join)

/-! ### Finding workspaces -/

theorem unlessMissing_eq_some {α : Type} {x : Except Settings.Error α} {a : α} :
    unlessMissing x = .ok (some a) ↔ x = .ok a := by
  cases x with
  | ok a' => simp [unlessMissing]
  | error e => cases h : e.isMissing <;> simp [unlessMissing, h]

theorem unlessMissing_eq_none {α : Type} {x : Except Settings.Error α} :
    unlessMissing x = .ok none ↔ ∃ e, x = .error e ∧ e.isMissing = true := by
  cases x with
  | ok a' => simp [unlessMissing]
  | error e => cases h : e.isMissing <;> simp [unlessMissing, h]

/-- Whether the files of a directory decide on a layout. -/
def Layout.IsAt (volumes : Volumes) (live : Bool) (b : Bucket) (dir : String) : Layout → Prop
  | .v2 settings => ModuleFile.ofBucket volumes live b dir = .ok settings
  | .work file => WorkFile.ofBucket volumes live b dir = .ok file
  | .single => False

variable {volumes : Volumes} {live : Bool} {b : Bucket}

theorem layoutAt?_eq_some {dir : String} {layout : Layout}
    (h : layoutAt? volumes live b dir = .ok (some layout)) :
    layout.IsAt volumes live b dir := by
  have hwork {o : Option WorkFile}
      (hfile : unlessMissing (WorkFile.ofBucket volumes live b dir) = .ok o)
      (ho : o.map Layout.work = some layout) : layout.IsAt volumes live b dir := by
    obtain ⟨file, rfl, rfl⟩ := Option.map_eq_some_iff.1 ho
    exact unlessMissing_eq_some.1 hfile
  obtain ⟨_, _, h⟩ := bind_eq_ok.1 h
  obtain ⟨settings, hsettings, h⟩ := bind_eq_ok.1 h
  cases settings with
  | none =>
    obtain ⟨o, ho, h⟩ := bind_eq_ok.1 h
    exact hwork ho (Except.ok.inj h)
  | some settings =>
    simp only at h
    split at h
    · cases h
      exact unlessMissing_eq_some.1 hsettings
    · obtain ⟨o, ho, h⟩ := bind_eq_ok.1 h
      exact hwork ho (Except.ok.inj h)

theorem discoverAmong_eq_ok {fallback : String} {dirs : List String} {found : Discovered}
    (h : discoverAmong volumes live b fallback dirs = .ok found) :
    found = ⟨fallback, .single⟩ ∨
      found.root ∈ dirs ∧ found.layout.IsAt volumes live b found.root := by
  induction dirs with
  | nil =>
    cases h
    exact .inl rfl
  | cons dir dirs ih =>
    obtain ⟨layout, hlayout, h⟩ := bind_eq_ok.1 h
    cases layout with
    | some layout =>
      cases h
      exact .inr ⟨List.mem_cons_self, layoutAt?_eq_some hlayout⟩
    | none => exact (ih h).imp_right fun hin => ⟨List.mem_cons_of_mem _ hin.1, hin.2⟩

theorem discover_eq_ok {dir : String} {found : Discovered}
    (h : discover volumes live b dir = .ok found) :
    covers found.root dir = true ∧
      (found.layout = .single ∨ found.layout.IsAt volumes live b found.root) := by
  rcases discoverAmong_eq_ok h with rfl | ⟨hmem, hlayout⟩
  · exact ⟨Path.covers_self dir, .inl rfl⟩
  · exact ⟨Path.mem_ancestors.1 hmem, .inr hlayout⟩

theorem isNormal_of_workFile {dir : String} {file : WorkFile}
    (h : WorkFile.ofBucket volumes live b dir = .ok file) : ∀ d ∈ file.dirs, IsNormal d := by
  obtain ⟨text, _, h⟩ := bind_eq_ok.1 h
  obtain ⟨document, _, h⟩ := bind_eq_ok.1 h
  obtain ⟨version, _, h⟩ := bind_eq_ok.1 h
  obtain ⟨_, _, h⟩ := bind_eq_ok.1 h
  obtain ⟨listed, _, h⟩ := bind_eq_ok.1 h
  simp only at h
  split at h
  · obtain ⟨_, hthrow, _⟩ := bind_eq_ok.1 h
    cases hthrow
  · obtain ⟨dirs, hdirs, h⟩ := bind_eq_ok.1 h
    obtain ⟨_, _, h⟩ := bind_eq_ok.1 h
    cases h
    intro d hd
    obtain ⟨written, _, hwritten⟩ := exists_of_forall₂ (mapM_eq_ok.1 hdirs) (mem_sortedBy.1 hd)
    obtain ⟨d', hd', hwritten⟩ := bind_eq_ok.1 hwritten
    split at hwritten
    · cases hwritten
    · cases hwritten
      exact Path.isNormal_of_normalize (normalizeIn_eq_ok.1 hd')

/-! ### Extents of a workspace -/

/-- The extents that the settings in a directory describe. Without a settings file the directory is
a module by itself. -/
inductive Described (w : World) (b : Bucket) (dir : String) : List Extent → Prop
  | absent {e : Settings.Error} (h : ModuleFile.ofBucket w.volumes w.live b dir = .error e)
      (missing : e.isMissing = true) : Described w b dir [.all "."]
  | written {text : String} {xs : List Extent}
      (h : readText w.volumes w.live b dir ModuleFile.fileName = .ok text)
      (extents : Extent.ofText text = some xs) : Described w b dir xs

/-- The extents of the modules in some directories, of which each has settings of its own. -/
def Described.Each (w : World) (b : Bucket) (root : String) (dirs : List String)
    (xs : List Extent) : Prop :=
  List.Forall₂ (fun dir x => ∃ y, Described w b (join root dir) [y] ∧ x = y.placed dir) dirs xs

/-- The extents of the modules of a workspace, as seen from its root. -/
def Discovered.Describes (w : World) (b : Bucket) (found : Discovered) (xs : List Extent) : Prop :=
  match found.layout with
  | .v2 _ => Described w b found.root xs
  | .work file => Described.Each w b found.root file.dirs xs
  | .single => Described.Each w b found.root ["."] xs

theorem ofBucket_eq_ok {dir : String} {file : ModuleFile}
    (h : ModuleFile.ofBucket volumes live b dir = .ok file) :
    ∃ text, readText volumes live b dir ModuleFile.fileName = .ok text ∧
      ModuleFile.parse text = .ok file :=
  bind_eq_ok.1 h

theorem keeps_placed {s : ModuleSettings} {x : Extent} {dir : String} (hdir : IsNormal dir)
    (hs : s.dir = ".") (h : s.Keeps x) : ({ s with dir } : ModuleSettings).Keeps (x.placed dir) := by
  have hroots : ∀ entry ∈ s.roots.entries, IsNormal entry.1 := fun entry hentry =>
    h.separate.normal entry.1 (List.mem_map_of_mem hentry)
  constructor
  case dir =>
    rw [Extent.placed, ← h.dir, hs]
    exact hdir.join_root.symm
  case normal => exact hdir
  case roots => exact h.roots
  case separate => exact h.separate
  case nonempty => exact h.nonempty
  case inner => exact h.inner
  case excludes =>
    intro e
    simp only [Extent.placed, List.mem_map, h.excludes, hs, Path.root_join]
    constructor
    · rintro ⟨_, ⟨entry, hentry, inner, hinner, rfl⟩, rfl⟩
      exact ⟨entry, hentry, inner, hinner,
        (Path.join_assoc hdir (hroots entry hentry) (h.inner entry hentry inner hinner).1).symm⟩
    · rintro ⟨entry, hentry, inner, hinner, rfl⟩
      exact ⟨_, ⟨entry, hentry, inner, hinner, rfl⟩,
        (Path.join_assoc hdir (hroots entry hentry) (h.inner entry hentry inner hinner).1).symm⟩

namespace Plan

variable {w : World} {root dir place : String}

theorem settingsOf_eq_ok (hdir : IsNormal dir) {s : ModuleSettings} {version : Version}
    {deps : List ModuleRef} (h : settingsOf w b place dir = .ok (s, version, deps)) :
    ∃ x, Described w b place [x] ∧ s.Keeps (x.placed dir) := by
  obtain ⟨file, hfile, h⟩ := bind_eq_ok.1 h
  have hfile := mapError_eq_ok.1 hfile
  cases file with
  | none =>
    cases h
    obtain ⟨e, he, hmissing⟩ := unlessMissing_eq_none.1 hfile
    refine ⟨_, .absent he hmissing, ?_⟩
    exact keeps_placed hdir rfl (keeps_all (s := .default .v1 ".") Path.isNormal_root rfl rfl)
  | some file =>
    obtain ⟨text, htext, hparse⟩ := ofBucket_eq_ok (unlessMissing_eq_some.1 hfile)
    obtain ⟨xs, hxs, hkeeps, hone⟩ := keeps_ofText hparse
    simp only at h
    split at h
    · obtain ⟨_, hthrow, _⟩ := bind_eq_ok.1 h
      cases hthrow
    · rename_i hversion
      obtain ⟨m, hm, hmdir⟩ := hone hversion
      rw [hm] at h hkeeps
      cases h
      cases hkeeps with
      | cons hkeeps hnil =>
        cases hnil
        exact ⟨_, .written htext hxs, keeps_placed hdir hmdir hkeeps⟩

theorem ofDir_eq_ok (hdir : IsNormal dir) {p : Plan} (h : ofDir w b root dir = .ok p) :
    ∃ d x, p.dirs = [d] ∧ Described w b (join root dir) [x] ∧ d.settings.Keeps (x.placed dir) := by
  unfold ofDir at h
  simp only at h
  split at h
  · obtain ⟨_, hthrow, _⟩ := bind_eq_ok.1 h
    cases hthrow
  · obtain ⟨⟨s, version, deps⟩, hs, h⟩ := bind_eq_ok.1 h
    obtain ⟨v1Config, _, h⟩ := bind_eq_ok.1 h
    obtain ⟨v1Lock, _, h⟩ := bind_eq_ok.1 h
    obtain ⟨locked, _, h⟩ := bind_eq_ok.1 h
    cases h
    obtain ⟨x, hx, hkeeps⟩ := settingsOf_eq_ok hdir hs
    exact ⟨_, x, rfl, hx, hkeeps⟩

theorem ofDirs_eq_ok {dirs : List String} (hdirs : ∀ dir ∈ dirs, IsNormal dir) {p : Plan}
    (h : ofDirs w b root dirs = .ok p) :
    ∃ xs, Described.Each w b root dirs xs ∧
      List.Forall₂ (fun d x => d.settings.Keeps x) p.dirs xs := by
  obtain ⟨plans, hplans, h⟩ := bind_eq_ok.1 h
  obtain ⟨deps, _, h⟩ := bind_eq_ok.1 h
  cases h
  have hall := mapM_eq_ok.1 hplans
  show ∃ xs, Described.Each w b root dirs xs ∧
    List.Forall₂ (fun d x => d.settings.Keeps x) (plans.flatMap Plan.dirs) xs
  -- each directory gives a plan of one module, and the plans are joined in order
  clear * - hdirs hall
  induction hall with
  | nil => exact ⟨[], .nil, .nil⟩
  | @cons dir plan dirs plans hplan _ ih =>
    obtain ⟨hdir, hrest⟩ := List.forall_mem_cons.1 hdirs
    obtain ⟨d, x, hd, hx, hkeeps⟩ := ofDir_eq_ok hdir hplan
    obtain ⟨xs, hxs, hall⟩ := ih hrest
    refine ⟨_, .cons ⟨x, hx, rfl⟩ hxs, ?_⟩
    rw [List.flatMap_cons, hd]
    exact .cons hkeeps hall

theorem ofModuleFile_eq_ok {file : ModuleFile} {p : Plan}
    (h : ofModuleFile w b root file = .ok p) : p.dirs.map ModuleDir.settings = file.modules := by
  have hdirs {locked : List LockedModule}
      (h : (do
        let deps ← distinctRefs file.deps
        return ⟨true, file.modules.map fun m => ⟨m, .v2, none, none⟩, deps, locked, file.plugins⟩ :
          Except Error Plan) = .ok p) : p.dirs.map ModuleDir.settings = file.modules := by
    obtain ⟨deps, _, h⟩ := bind_eq_ok.1 h
    cases h
    rw [List.map_map]
    exact List.map_id file.modules
  obtain ⟨lock, _, h⟩ := bind_eq_ok.1 h
  cases lock with
  | none => exact hdirs h
  | some lock =>
    simp only at h
    split at h
    · exact hdirs h
    · obtain ⟨_, hthrow, _⟩ := bind_eq_ok.1 h
      cases hthrow

/-- The module directories of a workspace keep the extents that its settings describe. -/
theorem keeps_ofDiscovered {found : Discovered} {sub : String}
    (hfound : discover w.volumes w.live b sub = .ok found) {p : Plan}
    (h : ofDiscovered w b found = .ok p) :
    ∃ xs, found.Describes w b xs ∧ List.Forall₂ (fun d x => d.settings.Keeps x) p.dirs xs := by
  have hlayout := (discover_eq_ok hfound).2
  unfold Discovered.Describes
  unfold ofDiscovered at h
  cases hcase : found.layout with
  | v2 file =>
    rw [hcase] at h hlayout
    obtain ⟨text, htext, hparse⟩ := ofBucket_eq_ok (hlayout.resolve_left (by simp))
    obtain ⟨xs, hxs, hkeeps, _⟩ := keeps_ofText hparse
    rw [← ofModuleFile_eq_ok h, List.forall₂_map_left_iff] at hkeeps
    exact ⟨xs, .written htext hxs, hkeeps⟩
  | work file =>
    rw [hcase] at h hlayout
    exact ofDirs_eq_ok (isNormal_of_workFile (hlayout.resolve_left (by simp))) h
  | single =>
    rw [hcase] at h
    exact ofDirs_eq_ok (by simp [Path.isNormal_root]) h

end Plan

end Schemata.Workspace

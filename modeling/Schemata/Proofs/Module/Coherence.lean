import Schemata.Proofs.Module.Orders
import Schemata.Proofs.ModuleSet.Coverage
import Schemata.Proofs.Storage.Coherence

/-!
# Views of modules are coherent

A view finds the files that it lists, as it lists them, and no others; and its target files are
those of all its files that are targets. Of several modules the first that has a path is the one
whose file is seen, be it a target or not.
-/

namespace Schemata.Module

open Storage

variable {w : World} {m : Module} {path : String} {f : FileInfo} {content : ByteArray}

/-! ### One module -/

/-- Whether a module refuses a path only for having no file there. -/
def Answers (w : World) (m : Module) (path : String) : Prop :=
  ∀ e, m.files.get w.volumes w.live path = .error e → e.isMissing = true

/-- Whether the files of a module are served as they should be: under valid paths, no others than
belong to a module, and so that none of the paths that the module itself asks for is refused. -/
structure Served (w : World) (m : Module) : Prop where
  proper : m.files.Proper w.volumes
  trimmed : m.Trimmed w
  shown : ∀ info, m.files.Shows w.volumes info → m.Answers w info.path
  asked : ∀ file, m.filter.file = some file → m.Answers w file

theorem exists_package (hget : ∃ r, m.files.get w.volumes w.live path = .ok r) :
    ∃ package, m.packageOf w path = .ok package := by
  obtain ⟨r, hget⟩ := hget
  have hread : m.files.read w.volumes w.live path = .ok r.2 := by
    rw [Bucket.read, hget]
    rfl
  exact ⟨_, bind_eq_ok.2 ⟨r.2, mapError_eq_ok.2 hread, rfl⟩⟩

theorem package_missing (hanswers : m.Answers w path) {e : Error}
    (herror : m.packageOf w path = .error e) : e.isMissing = true := by
  cases hget : m.files.get w.volumes w.live path with
  | ok r =>
    obtain ⟨package, hpackage⟩ := exists_package ⟨r, hget⟩
    cases herror.symm.trans hpackage
  | error e' =>
    unfold packageOf Bucket.read at herror
    rw [hget] at herror
    cases herror
    exact hanswers e' hget

section Served

variable (h : m.Served w)

include h

/-- Whether an object of a module is a target can be found out. -/
theorem Served.exists_isTargetPath (hget : ∃ r, m.files.get w.volumes w.live path = .ok r) :
    ∃ target, m.isTargetPath w path = .ok target := by
  obtain ⟨package, hpackage⟩ := exists_package hget
  unfold isTargetPath
  split
  · exact ⟨_, rfl⟩
  split
  · rename_i file hfile
    split
    · exact ⟨_, rfl⟩
    split
    · unfold sharesPackage
      cases hother : m.packageOf w file with
      | error e =>
        simp only [package_missing (h.asked file hfile) hother, if_true]
        exact ⟨_, rfl⟩
      | ok package' =>
        simp only [hpackage]
        exact ⟨_, rfl⟩
    · exact ⟨_, rfl⟩
  · exact ⟨_, rfl⟩

/-- Every object of a module is a file of it. -/
theorem Served.exists_fileOf {info : ObjectInfo}
    (hget : m.files.get w.volumes w.live path = .ok (info, content)) :
    ∃ f, m.fileOf w info = .ok f ∧ f.path = path := by
  obtain ⟨kind, hkind⟩ := Option.ne_none_iff_exists'.1 (h.trimmed.kind_of_get hget)
  obtain ⟨target, htarget⟩ := h.exists_isTargetPath ⟨_, hget⟩
  have hpath := h.trimmed.path_of_get hget
  subst hpath
  exact ⟨_, fileOf_eq_ok.2 ⟨kind, target, hkind, htarget, rfl⟩, rfl⟩

/-- What a module finds under a path it shows there, if anything belongs there. -/
theorem Served.shows_of_get (hlive : w.live = true) {info : ObjectInfo}
    (hget : m.files.get w.volumes w.live path = .ok (info, content)) :
    m.files.Shows w.volumes info := by
  have hkind := h.trimmed.kind_of_get hget
  obtain ⟨_, hreadable⟩ := Storage.path_of_get m.files h.proper path info content hget
  rw [hlive] at hget
  exact (h.proper.shows_of_get (isObject_of_isReadable hreadable hkind) hget).2

theorem Served.exists_get (hlive : w.live = true) {info : ObjectInfo}
    (hshows : m.files.Shows w.volumes info) :
    ∃ content, m.files.get w.volumes w.live info.path = .ok (info, content) := by
  have hanswers := h.shown info hshows
  unfold Answers at hanswers
  rw [hlive] at hanswers ⊢
  exact h.proper.exists_get hshows hanswers

end Served

/-- A file that is not of a target module is no target. -/
theorem isTarget_of_fileOf {info : ObjectInfo} (hfile : m.fileOf w info = .ok f) :
    f.module = m ∧ (m.target = false → f.isTarget = false) := by
  obtain ⟨kind, target, _, htarget, rfl⟩ := fileOf_eq_ok.1 hfile
  refine ⟨rfl, fun hno => ?_⟩
  unfold isTargetPath at htarget
  rw [hno] at htarget
  cases htarget
  rfl

/-! ### Lists that tell what is found -/

/-- Whether a list of files tells what is found under every path that is answered for. Each path is
listed once, in order. -/
structure Tells (files : List FileInfo) (answered : String → Prop)
    (stat : String → Except Error FileInfo) : Prop where
  rising : (files.map FileInfo.path).Pairwise (· < ·)
  found : ∀ path, answered path →
    View.opened (stat path) = .ok (files.find? fun f => f.path = path)

section Tells

variable {files : List FileInfo} {answered : String → Prop} {stat : String → Except Error FileInfo}
  (h : Tells files answered stat) (hpath : answered path)

include h hpath

theorem Tells.stat_eq_ok : stat path = .ok f ↔ f ∈ files ∧ f.path = path := by
  rw [← find?_key_eq_some (nodup_of_pairwise_lt h.rising), ← View.opened_eq_some, h.found path hpath, Except.ok.injEq]

theorem Tells.missing (hnone : ∀ f ∈ files, f.path ≠ path) :
    ∃ e, stat path = .error e ∧ e.isMissing = true := by
  rw [← View.opened_eq_none, h.found path hpath, Except.ok.injEq, List.find?_eq_none]
  simpa using hnone

end Tells

/-- A module that is served as it should be lists its files, and finds just these. -/
theorem Served.exists_walk (hlive : w.live = true) (h : m.Served w) :
    ∃ files, m.walk w = .ok files ∧ Tells files (m.Answers w) (m.stat w) := by
  obtain ⟨infos, hlist, hinfos⟩ := exists_list (regular_of_proper m.files h.proper)
  have hobjects : m.objects w = .ok infos := by
    rw [objects, hlive, hlist]
    rfl
  have hfiles : ∀ info ∈ infos, ∃ f, m.fileOf w info = .ok f := fun info hinfo => by
    obtain ⟨content, hget⟩ := h.exists_get hlive ((hinfos info).1 hinfo)
    obtain ⟨f, hf, _⟩ := h.exists_fileOf hget
    exact ⟨f, hf⟩
  obtain ⟨files, hmap⟩ := exists_mapM_eq_ok hfiles
  have hpaths : files.map FileInfo.path = infos.map ObjectInfo.path :=
    map_eq_of_mapM hmap fun info f hf => path_fileOf hf
  have hrising : (files.map FileInfo.path).Pairwise (· < ·) := by
    rw [hpaths]
    exact pairwise_lt_list h.proper Path.isNormal_root hlist
  refine ⟨files, bind_eq_ok.2 ⟨infos, hobjects, hmap⟩, hrising, fun path hanswers => ?_⟩
  cases hget : m.files.get w.volumes w.live path with
  | error e =>
    have hnone : files.find? (fun f => f.path = path) = none := by
      rw [List.find?_eq_none]
      intro f hf hpath
      obtain ⟨info, hinfo, hfile⟩ := exists_of_forall₂ (mapM_eq_ok.1 hmap) hf
      obtain ⟨content, hfound⟩ := h.exists_get hlive ((hinfos info).1 hinfo)
      rw [← path_fileOf hfile, of_decide_eq_true hpath] at hfound
      cases hget.symm.trans hfound
    rw [hnone, View.opened_eq_none]
    refine ⟨.storage e, ?_, hanswers e hget⟩
    unfold stat Bucket.stat
    rw [hget]
    rfl
  | ok answer =>
    obtain ⟨info, content⟩ := answer
    obtain ⟨f, hfile, hpath⟩ := h.exists_fileOf hget
    obtain ⟨f', hf', hfile'⟩ := exists_of_mem_mapM hmap
      ((hinfos info).2 (h.shows_of_get hlive hget))
    cases hfile.symm.trans hfile'
    rw [(find?_key_eq_some (nodup_of_pairwise_lt hrising)).2 ⟨hf', hpath⟩, View.opened_eq_some]
    unfold stat Bucket.stat
    rw [hget]
    exact hfile

theorem Served.tells (hlive : w.live = true) (h : m.Served w) {files : List FileInfo}
    (hwalk : m.walk w = .ok files) : Tells files (m.Answers w) (m.stat w) := by
  obtain ⟨files', hwalk', htells⟩ := h.exists_walk hlive
  rwa [Except.ok.inj (hwalk.symm.trans hwalk')]

/-! ### Several modules -/

/-- Whether a module lists a file. -/
def Lists (w : World) (m : Module) (f : FileInfo) : Prop :=
  ∃ files, m.walk w = .ok files ∧ f ∈ files

theorem Lists.of_module (h : m.Lists w f) :
    f.module = m ∧ (m.target = false → f.isTarget = false) := by
  obtain ⟨files, hwalk, hf⟩ := h
  obtain ⟨infos, _, hmap⟩ := bind_eq_ok.1 hwalk
  obtain ⟨info, _, hfile⟩ := exists_of_forall₂ (mapM_eq_ok.1 hmap) hf
  exact isTarget_of_fileOf hfile

/-- Whether its module lists a file, and no module before that one lists its path. -/
def FirstLists (w : World) (modules : List Module) (f : FileInfo) : Prop :=
  ∃ before after, modules = before ++ f.module :: after ∧ f.module.Lists w f ∧
    ∀ m ∈ before, f.path ∉ m.paths w

theorem not_firstLists_nil : ¬ FirstLists w [] f := by
  rintro ⟨before, after, h, _⟩
  cases before <;> cases h

theorem firstLists_cons {modules : List Module} : FirstLists w (m :: modules) f ↔
    m.Lists w f ∨ f.path ∉ m.paths w ∧ FirstLists w modules f := by
  constructor
  · rintro ⟨before, after, hmodules, hlists, hbefore⟩
    cases before with
    | nil =>
      cases hmodules
      exact .inl hlists
    | cons n before =>
      obtain ⟨rfl, htail⟩ := List.cons.inj hmodules
      obtain ⟨hn, hbefore⟩ := List.forall_mem_cons.1 hbefore
      exact .inr ⟨hn, before, after, htail, hlists, hbefore⟩
  · rintro (hlists | ⟨hnot, before, after, rfl, hlists, hbefore⟩)
    · obtain rfl := hlists.of_module.1
      exact ⟨[], modules, rfl, hlists, fun _ hm => absurd hm List.not_mem_nil⟩
    · exact ⟨m :: before, after, rfl, hlists, List.forall_mem_cons.2 ⟨hnot, hbefore⟩⟩

section Several

variable (hlive : w.live = true) {modules : List Module} (h : ∀ m ∈ modules, m.Served w)
  {lists : List (List FileInfo)} (hlists : modules.mapM (Module.walk w) = .ok lists)

include hlive h hlists

/-- In the lists of several modules the first file under a path is that of the first module which
lists the path. -/
theorem find?_lists : lists.flatten.find? (fun f => f.path = path) = some f ↔
    FirstLists w modules f ∧ f.path = path := by
  induction modules generalizing lists with
  | nil =>
    cases hlists
    exact iff_of_false (fun hfind => by cases hfind) fun hfirst => not_firstLists_nil hfirst.1
  | cons m modules ih =>
    rw [List.mapM_cons] at hlists
    obtain ⟨files, hwalk, hlists⟩ := bind_eq_ok.1 hlists
    obtain ⟨rest, hrest, heq⟩ := bind_eq_ok.1 hlists
    cases heq
    obtain ⟨hm, h⟩ := List.forall_mem_cons.1 h
    have hnodup := nodup_of_pairwise_lt (hm.tells hlive hwalk).rising
    have hin : m.Lists w f ↔ f ∈ files := by
      refine ⟨fun ⟨files', hwalk', hf⟩ => ?_, fun hf => ⟨files, hwalk, hf⟩⟩
      rwa [Except.ok.inj (hwalk.symm.trans hwalk')]
    have hnone : files.find? (fun f => f.path = path) = none ↔ path ∉ m.paths w := by
      rw [mem_paths hwalk, List.find?_eq_none]
      simp
    rw [List.flatten_cons, List.find?_append, Option.or_eq_some_iff, find?_key_eq_some hnodup,
      hnone, ih h hrest, firstLists_cons, hin]
    constructor
    · rintro (⟨hf, rfl⟩ | ⟨hnot, hfirst, rfl⟩)
      · exact ⟨.inl hf, rfl⟩
      · exact ⟨.inr ⟨hnot, hfirst⟩, rfl⟩
    · rintro ⟨hf | ⟨hnot, hfirst⟩, rfl⟩
      · exact .inl ⟨hf, rfl⟩
      · exact .inr ⟨hnot, hfirst, rfl⟩

theorem opened_firstOf_stat (hanswers : ∀ m ∈ modules, m.Answers w path) :
    View.opened (View.firstOf (fun m => m.stat w path) path modules) =
      .ok (lists.flatten.find? fun f => f.path = path) := by
  induction modules generalizing lists with
  | nil =>
    cases hlists
    rfl
  | cons m modules ih =>
    rw [List.mapM_cons] at hlists
    obtain ⟨files, hwalk, hlists⟩ := bind_eq_ok.1 hlists
    obtain ⟨rest, hrest, heq⟩ := bind_eq_ok.1 hlists
    cases heq
    obtain ⟨hm, h⟩ := List.forall_mem_cons.1 h
    obtain ⟨hpath, hanswers⟩ := List.forall_mem_cons.1 hanswers
    rw [View.opened_firstOf_cons, (hm.tells hlive hwalk).found path hpath, List.flatten_cons,
      List.find?_append]
    cases hfind : files.find? fun f => f.path = path with
    | none => exact ih h hrest hanswers
    | some f => rfl

end Several

namespace View

variable {v : View}

/-- Whether no module of a view refuses a path but for having no file there. -/
def Answers (w : World) (v : View) (path : String) : Prop :=
  ∀ m ∈ Image.modulesOf v, m.Answers w path

/-- Whether a view shows files of a kind. -/
def admits : View → FileKind → Bool
  | .single _, _ => true
  | .merged _ _, _ => true
  | .only kinds inner, kind => kinds.contains kind && inner.admits kind

/-- A view of modules lists, of the kinds that it shows, the files of the first modules that list
their paths, and finds just these. -/
theorem exists_walk (hlive : w.live = true) (h : ∀ m ∈ Image.modulesOf v, m.Served w) :
    ∃ files, v.walk w = .ok files ∧ Tells files (v.Answers w) (fun path => v.stat w path) ∧
      ∀ f, f ∈ files ↔ v.admits f.kind = true ∧ FirstLists w (Image.modulesOf v) f := by
  induction v with
  | single m =>
    obtain ⟨files, hwalk, htells⟩ := (h m List.mem_cons_self).exists_walk hlive
    refine ⟨files, hwalk, ⟨htells.rising, fun path hanswers => ?_⟩, fun f => ?_⟩
    · exact htells.found path (hanswers m List.mem_cons_self)
    · rw [admits, Image.modulesOf, firstLists_cons]
      constructor
      · exact fun hf => ⟨rfl, .inl ⟨files, hwalk, hf⟩⟩
      · rintro ⟨_, ⟨files', hwalk', hf⟩ | ⟨_, hnil⟩⟩
        · rwa [Except.ok.inj (hwalk.symm.trans hwalk')]
        · exact absurd hnil not_firstLists_nil
  | merged modules selfContained =>
    replace h : ∀ m ∈ modules, m.Served w := h
    obtain ⟨lists, hlists⟩ := exists_mapM_eq_ok fun m hm =>
      ((h m hm).exists_walk hlive).imp fun _ hwalk => hwalk.1
    have hmem (f : FileInfo) : f ∈ sortedBy FileInfo.path (firstOfPaths [] lists.flatten) ↔
        FirstLists w modules f := by
      rw [mem_sortedBy, firstOfPaths_eq, mem_firstByKey, find?_lists hlive h hlists]
      simp
    have hrising := pairwise_lt_sortedBy (nodup_firstOfPaths [] lists.flatten)
    refine ⟨_, bind_eq_ok.2 ⟨lists, hlists, rfl⟩, ⟨hrising, fun path hanswers => ?_⟩, fun f => ?_⟩
    · rw [View.stat, opened_firstOf_stat hlive h hlists hanswers]
      congr 1
      ext f
      rw [find?_key_eq_some (nodup_of_pairwise_lt hrising), hmem]
      exact find?_lists hlive h hlists
    · rw [hmem, admits, Image.modulesOf]
      exact (and_iff_right rfl).symm
  | only kinds inner ih =>
    obtain ⟨files, hwalk, htells, hmem⟩ := ih h
    have hnodup := nodup_of_pairwise_lt htells.rising
    refine ⟨_, bind_eq_ok.2 ⟨files, hwalk, rfl⟩, ⟨?_, fun path hanswers => ?_⟩, fun f => ?_⟩
    · exact htells.rising.sublist (List.filter_sublist.map FileInfo.path)
    · rw [View.stat, opened_bind, htells.found path hanswers, find?_filter_key hnodup]
      cases files.find? fun f => f.path = path with
      | none => rfl
      | some f =>
        show opened (if kinds.contains f.kind then .ok f else .error (missing path)) =
          .ok (if kinds.contains f.kind then some f else none)
        split
        · rfl
        · rfl
    · rw [List.mem_filter, hmem, admits, Image.modulesOf, Bool.and_eq_true]
      tauto

/-! ### Contents and objects -/

theorem firstOf_map {α β : Type} (ask : Module → Except Error α) (g : α → β)
    (modules : List Module) :
    firstOf (fun m => (ask m).map g) path modules = (firstOf ask path modules).map g := by
  induction modules with
  | nil => rfl
  | cons m modules ih =>
    rw [firstOf, firstOf]
    cases ask m with
    | ok a => rfl
    | error e =>
      show (if e.isMissing then firstOf (fun m => (ask m).map g) path modules else .error e) =
        (if e.isMissing then firstOf ask path modules else .error e).map g
      rw [ih]
      split
      · rfl
      · rfl

/-- To find a file is to read it and leave its content. -/
theorem stat_eq_map_get (v : View) (path : String) :
    v.stat w path = (v.get w path).map Prod.fst := by
  induction v with
  | single m => exact Module.stat_eq_map_get m path
  | merged modules selfContained =>
    rw [stat, get, ← firstOf_map]
    exact congrArg (firstOf · path modules) (funext fun m => Module.stat_eq_map_get m path)
  | only kinds inner ih =>
    rw [get, stat, ih]
    cases inner.get w path with
    | error e => rfl
    | ok r => by_cases hkind : r.1.kind ∈ kinds <;> simp [Except.map, bind, Except.bind, hkind, pure,
        Except.pure, throw, throwThe, MonadExceptOf.throw]

/-- What a view reads its module has. -/
theorem read_of_get (h : v.get w path = .ok (f, content)) :
    f.module.files.read w.volumes w.live path = .ok content := by
  induction v with
  | single m =>
    rw [module_of_get h]
    exact Module.read_of_get h
  | merged modules selfContained =>
    obtain ⟨_, m, _, _, hget, _⟩ := firstOf_eq_ok h
    rw [module_of_get hget]
    exact Module.read_of_get hget
  | only kinds inner ih =>
    obtain ⟨_, _, hget⟩ := bind_eq_ok.1 h
    exact ih hget

/-- Whether a view finds just the files of a list, as they are listed, and reads them from their
modules. It shows the same files as objects, and those that are targets as its target files. -/
structure Coherent (w : World) (v : View) (files : List FileInfo) : Prop where
  rising : (files.map FileInfo.path).Pairwise (· < ·)
  listed : ∀ f, f ∈ files ↔ v.admits f.kind = true ∧ FirstLists w (Image.modulesOf v) f
  untargeted : ∀ f ∈ files, f.module.target = false → f.isTarget = false
  targets : v.targets w = .ok (files.filter FileInfo.isTarget)
  found : ∀ path, v.Answers w path → ∀ f, v.stat w path = .ok f ↔ f ∈ files ∧ f.path = path
  read : ∀ path, v.Answers w path → ∀ f content, v.get w path = .ok (f, content) ↔
    (f ∈ files ∧ f.path = path) ∧ f.module.files.read w.volumes w.live path = .ok content
  missing : ∀ path, v.Answers w path → (∀ f ∈ files, f.path ≠ path) →
    ∃ e, v.stat w path = .error e ∧ v.get w path = .error e ∧ e.isMissing = true
  objects : ∀ dir, v.listObjects w dir =
    .ok ((files.filter fun f => Path.covers dir f.path).map objectInfo)
  foundObjects : ∀ path, v.Answers w path → ∀ info, v.statObject w path = .ok info ↔
    ∃ f ∈ files, f.path = path ∧ objectInfo f = info
  readObjects : ∀ path, v.Answers w path → ∀ info content,
    v.getObject w path = .ok (info, content) ↔ ∃ f ∈ files, (f.path = path ∧ objectInfo f = info) ∧
      f.module.files.read w.volumes w.live path = .ok content

/-- A local module that shows files in memory. -/
def shelf (place : String) (target : Bool) (files : List (String × String)) : Module :=
  let m := ModuleSet.workspaceModule place files
  { m with target := target, files := m.files.keeping (kept none) }

end View

end Schemata.Module

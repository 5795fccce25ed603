import Schemata.Proofs.Module.Files
import Schemata.Proofs.Module.Targets
import Schemata.Proofs.ModuleSet.Knowledge
import Schemata.Proofs.Storage.Reading

/-!
# Reading files of modules

A module that one can read opens just the paths that it lists. So several modules seen as one serve
a path from the first that lists it.
-/

namespace Schemata.Module

open Storage

variable {w : World} {m : Module} {path : String} {f : FileInfo} {content : ByteArray}

theorem get_eq_ok : m.get w path = .ok (f, content) ↔
    ∃ info, m.files.get w.volumes w.live path = .ok (info, content) ∧ m.fileOf w info = .ok f := by
  unfold get
  rw [bind_eq_ok]
  constructor
  · rintro ⟨⟨info, c⟩, hget, h⟩
    obtain ⟨f', hf, h⟩ := bind_eq_ok.1 h
    cases h
    exact ⟨info, mapError_eq_ok.1 hget, hf⟩
  · rintro ⟨info, hget, hf⟩
    exact ⟨(info, content), mapError_eq_ok.2 hget, bind_eq_ok.2 ⟨f, hf, rfl⟩⟩

theorem module_of_get (h : m.get w path = .ok (f, content)) : f.module = m := by
  obtain ⟨info, _, hf⟩ := get_eq_ok.1 h
  obtain ⟨kind, target, _, _, rfl⟩ := fileOf_eq_ok.1 hf
  rfl

theorem read_of_get (h : m.get w path = .ok (f, content)) :
    m.files.read w.volumes w.live path = .ok content := by
  obtain ⟨info, hget, _⟩ := get_eq_ok.1 h
  rw [Bucket.read, hget]
  rfl

theorem mem_paths {files : List FileInfo} (hwalk : m.walk w = .ok files) :
    path ∈ m.paths w ↔ ∃ f ∈ files, f.path = path := by
  rw [paths, hwalk]
  exact List.mem_map

theorem kindOf?_ne_none_of_fileOf {info : ObjectInfo} (h : m.fileOf w info = .ok f) :
    kindOf? info.path ≠ none := by
  obtain ⟨kind, target, hkind, _⟩ := fileOf_eq_ok.1 h
  rw [hkind]
  exact Option.some_ne_none _

/-- A path that names a file of a module names an object. -/
theorem isObject_of_isReadable (h : IsReadable path) (hkind : kindOf? path ≠ none) :
    IsObject path := by
  rcases h with rfl | rfl | h
  · exact absurd (by decide +kernel) hkind
  · exact absurd (by decide +kernel) hkind
  · exact h

theorem kind_of_get (hproper : m.files.Proper w.volumes) (h : m.get w path = .ok (f, content)) :
    kindOf? path = some f.kind := by
  obtain ⟨info, hget, hf⟩ := get_eq_ok.1 h
  obtain ⟨kind, target, hkind, _, rfl⟩ := fileOf_eq_ok.1 hf
  rw [← (Storage.path_of_get m.files hproper _ _ _ hget).1, hkind]

/-- A module opens what it lists and reads, where it finds objects under the paths that it asks
for. -/
theorem exists_get_of (hpaths : ∀ path info content,
      m.files.get w.volumes w.live path = .ok (info, content) → info.path = path)
    (hread : m.Readable w) (h : path ∈ m.paths w) :
    ∃ f content, m.get w path = .ok (f, content) := by
  obtain ⟨files, hwalk⟩ := hread.listed
  obtain ⟨f, hf, rfl⟩ := (mem_paths hwalk).1 h
  obtain ⟨infos, hinfos, _⟩ := objects_of_walk hwalk
  obtain ⟨info, _, hfile⟩ := mem_walk hwalk hinfos hf
  obtain ⟨kind, target, hkind, htarget, rfl⟩ := fileOf_eq_ok.1 hfile
  obtain ⟨content, hcontent⟩ := hread.read files hwalk _ hf
  rw [Bucket.read] at hcontent
  cases hget : m.files.get w.volumes w.live info.path with
  | error e =>
    rw [hget] at hcontent
    cases hcontent
  | ok answer =>
    obtain ⟨object, c⟩ := answer
    have hpath := hpaths _ _ _ hget
    refine ⟨_, c, get_eq_ok.2 ⟨object, hget, fileOf_eq_ok.2 ⟨kind, target, ?_, ?_, rfl⟩⟩⟩
    · rw [hpath, hkind]
    · rw [hpath, htarget]

/-- Whether a module shows only what belongs to one, of what some bucket has. -/
def Trimmed (w : World) (m : Module) : Prop :=
  ∃ b, filesOf w.volumes w.live b = .ok m.files

theorem Trimmed.path_of_get (h : m.Trimmed w) {info : ObjectInfo}
    (hget : m.files.get w.volumes w.live path = .ok (info, content)) :
    info.path = path := by
  obtain ⟨b, hb⟩ := h
  obtain ⟨doc, _, hfiles⟩ := filesOf_eq_ok.1 hb
  rw [← hfiles, Bucket.keeping, Bucket.get] at hget
  split at hget
  · cases hget
  · split at hget
    · cases hget
      rfl
    · cases hget

theorem Trimmed.kind_of_get (h : m.Trimmed w) {r : ObjectInfo × ByteArray}
    (hget : m.files.get w.volumes w.live path = .ok r) : kindOf? path ≠ none := by
  obtain ⟨b, hb⟩ := h
  obtain ⟨doc, hdoc, hfiles⟩ := filesOf_eq_ok.1 hb
  refine kindOf?_ne_none_of_belongs hdoc ?_
  rw [← accepts_kept]
  have hread : (b.keeping (kept doc)).read w.volumes w.live path = .ok r.2 := by
    rw [hfiles, Bucket.read, hget]
    rfl
  exact (Bucket.read_keeping.1 hread).1

section Readable

variable (hlive : w.live = true) (hproper : m.files.Proper w.volumes) (hread : m.Readable w)

include hlive hproper hread in
/-- What a module opens is among its files. -/
theorem path_of_get (h : m.get w path = .ok (f, content)) : f.path = path ∧ path ∈ m.paths w := by
  obtain ⟨info, hget, hf⟩ := get_eq_ok.1 h
  obtain ⟨rfl, hreadable⟩ := Storage.path_of_get m.files hproper _ _ _ hget
  have hpath := path_fileOf hf
  obtain ⟨files, hwalk⟩ := hread.listed
  obtain ⟨infos, hinfos, hpaths⟩ := objects_of_walk hwalk
  rw [hlive] at hget
  have hobject := isObject_of_isReadable hreadable (kindOf?_ne_none_of_fileOf hf)
  have hshows := (hproper.shows_of_get hobject hget).2
  refine ⟨hpath, ?_⟩
  rw [paths, hwalk]
  show info.path ∈ files.map FileInfo.path
  rw [hpaths]
  obtain ⟨listed, hlisted, hmem⟩ := exists_list (regular_of_proper m.files hproper)
  have heq : infos = listed := by
    have hlist : m.objects w = .ok listed := by
      rw [objects, hlive, hlisted]
      rfl
    exact Except.ok.inj (hinfos.symm.trans hlist)
  rw [heq]
  exact List.mem_map_of_mem ((hmem info).2 hshows)

include hproper hread in
/-- A module opens every file of its own. -/
theorem exists_get (h : path ∈ m.paths w) : ∃ f content, m.get w path = .ok (f, content) :=
  exists_get_of (fun _ _ _ hget => (Storage.path_of_get m.files hproper _ _ _ hget).1) hread h

end Readable

/-! ### Several modules seen as one -/

theorem View.firstOf_eq_ok {α : Type} {ask : Module → Except Error α} {modules : List Module}
    {a : α} (h : View.firstOf ask path modules = .ok a) :
    ∃ before m after, modules = before ++ m :: after ∧ ask m = .ok a ∧
      ∀ x ∈ before, ∃ e, ask x = .error e ∧ e.isMissing = true := by
  induction modules with
  | nil => cases h
  | cons m modules ih =>
    rw [View.firstOf] at h
    split at h
    · rename_i e he
      split at h
      · rename_i hmissing
        obtain ⟨before, m', after, rfl, ha, hbefore⟩ := ih h
        exact ⟨m :: before, m', after, rfl, ha, List.forall_mem_cons.2 ⟨⟨e, he, hmissing⟩, hbefore⟩⟩
      · cases h
    · rename_i a' ha
      cases h
      exact ⟨[], m, modules, rfl, ha, fun _ hx => absurd hx List.not_mem_nil⟩

/-- Several modules seen as one serve a path from the first that lists it. -/
theorem View.server_of_get {modules : List Module} {selfContained : Bool} (hlive : w.live = true)
    (hproper : ∀ m ∈ modules, m.files.Proper w.volumes) (hread : ∀ m ∈ modules, m.Readable w)
    (h : (View.merged modules selfContained).get w path = .ok (f, content)) :
    ∃ j : Nat, modules[j]? = some f.module ∧ f.module.get w path = .ok (f, content) ∧
      path ∈ f.module.paths w ∧
      ∀ k < j, ∀ x : Module, modules[k]? = some x → path ∉ x.paths w := by
  obtain ⟨before, m, after, rfl, hget, hbefore⟩ := View.firstOf_eq_ok h
  have hm : m ∈ before ++ m :: after := List.mem_append_right _ List.mem_cons_self
  have hmodule := module_of_get hget
  subst hmodule
  refine ⟨before.length, by simp, hget, (path_of_get hlive (hproper _ hm) (hread _ hm) hget).2, ?_⟩
  intro k hk x hx hpath
  rw [List.getElem?_append_left hk] at hx
  have hxmem := List.mem_of_getElem? hx
  have hxmem' := List.mem_append_left (f.module :: after) hxmem
  obtain ⟨e, he, _⟩ := hbefore x hxmem
  obtain ⟨f', c, hget'⟩ := exists_get (hproper x hxmem') (hread x hxmem') hpath
  cases he.symm.trans hget'

end Schemata.Module

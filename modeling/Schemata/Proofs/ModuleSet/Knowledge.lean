import Schemata.ModuleSet.Basic
import Schemata.Proofs.Except

/-!
# What a module set finds out

Where all files can be read, asking a set for its paths or for the imports of a module gives what
the modules say, whether it was found out before or not, and leaves all other cells alone.
-/

namespace Schemata

open Schemata.Module (Error)

/-! ### Running operations on a set -/

/-- What an operation gives on a set, and the set after it. -/
def SetAct.on {α : Type} (act : SetAct α) (s : ModuleSet) : Except Error α × ModuleSet := act.run s

namespace SetAct

variable {α β : Type} {s t : ModuleSet}

theorem on_bind (act : SetAct α) (f : α → SetAct β) (s : ModuleSet) :
    (act >>= f).on s = match act.on s with
      | (.ok a, t) => (f a).on t
      | (.error e, t) => (.error e, t) := by
  show (act.run >>= ExceptT.bindCont f) s = _
  simp only [bind, StateT.bind, SetAct.on]
  rcases act.run s with ⟨_ | _, _⟩ <;> rfl

theorem on_bind_ok {act : SetAct α} {a : α} (h : act.on s = (.ok a, t)) (f : α → SetAct β) :
    (act >>= f).on s = (f a).on t := by
  rw [on_bind, h]

theorem on_bind_error {act : SetAct α} {e : Error} (h : act.on s = (.error e, t))
    (f : α → SetAct β) : (act >>= f).on s = (.error e, t) := by
  rw [on_bind, h]

theorem on_pure (a : α) (s : ModuleSet) : (pure a : SetAct α).on s = (.ok a, s) := rfl

theorem on_get (s : ModuleSet) : (get : SetAct ModuleSet).on s = (.ok s, s) := rfl

theorem on_answer (a : Except Error α) (s : ModuleSet) : (ModuleSet.answer a).on s = (a, s) := rfl

theorem on_once_settled {get : ModuleSet → Memo Error α} {set : Memo Error α → ModuleSet → ModuleSet}
    {o : Except Error α} (h : get s = .settled o) (find : SetAct α) :
    (ModuleSet.once get set find).on s = (o, s) := by
  show Memo.force _ get set find.run s = _
  rw [Memo.force, h]
  rfl

theorem on_once_resolving {get : ModuleSet → Memo Error α}
    {set : Memo Error α → ModuleSet → ModuleSet} (h : get s = .resolving) (find : SetAct α) :
    (ModuleSet.once get set find).on s = (.error (.internal .reentrant), s) := by
  show Memo.force _ get set find.run s = _
  rw [Memo.force, h]
  rfl

theorem on_once_unresolved {get : ModuleSet → Memo Error α}
    {set : Memo Error α → ModuleSet → ModuleSet} {find : SetAct α} {o : Except Error α}
    (h : get s = .unresolved) (hf : find.on (set .resolving s) = (o, t)) :
    (ModuleSet.once get set find).on s = (o, set (.settled o) t) := by
  show Memo.force _ get set find.run s = _
  have hf' : find.run (set .resolving s) = (o, t) := hf
  rw [Memo.force, h, show Memo.answer? _ (.unresolved : Memo Error α) = none from rfl]
  simp only [hf']

end SetAct

/-! ### Files that can be read -/

namespace Module

/-- Whether all files of a module can be listed and read. -/
structure Readable (w : World) (m : Module) : Prop where
  listed : ∃ files, m.walk w = .ok files
  read : ∀ files, m.walk w = .ok files → ∀ f ∈ files,
    ∃ content, m.files.read w.volumes w.live f.path = .ok content

/-- Lists and reads all files of a module. -/
def readsAll (w : World) (m : Module) : Bool :=
  match m.walk w with
  | .ok files => files.all fun f => (m.files.read w.volumes w.live f.path).toOption.isSome
  | .error _ => false

theorem readsAll_iff {w : World} {m : Module} : m.readsAll w = true ↔ m.Readable w := by
  unfold readsAll
  cases hfiles : m.walk w with
  | error e =>
    refine ⟨fun h => (by cases h), fun h => ?_⟩
    obtain ⟨files, hf⟩ := h.listed
    rw [hfiles] at hf
    cases hf
  | ok files =>
    have hsome {path : String} : (m.files.read w.volumes w.live path).toOption.isSome = true ↔
        ∃ content, m.files.read w.volumes w.live path = .ok content := by
      rw [Option.isSome_iff_exists]
      simp only [toOption_eq_some]
    rw [List.all_eq_true]
    constructor
    · intro h
      refine ⟨⟨files, hfiles⟩, fun files' hfiles' f hf => hsome.1 (h f ?_)⟩
      rw [hfiles] at hfiles'
      cases hfiles'
      exact hf
    · intro h f hf
      exact hsome.2 (h.read files hfiles f hf)

instance (w : World) (m : Module) : Decidable (m.Readable w) :=
  decidable_of_iff _ readsAll_iff

def paths (w : World) (m : Module) : List String :=
  ((m.walk w).toOption.getD []).map FileInfo.path

theorem path_fileOf {w : World} {m : Module} {info : Storage.ObjectInfo} {f : FileInfo}
    (h : m.fileOf w info = .ok f) : f.path = info.path := by
  unfold fileOf at h
  split at h
  · obtain ⟨b, _, hb⟩ := bind_eq_ok.1 h
    cases hb
    rfl
  · cases h

theorem objects_of_walk {w : World} {m : Module} {files : List FileInfo}
    (h : m.walk w = .ok files) :
    ∃ infos, m.objects w = .ok infos ∧ files.map FileInfo.path = infos.map (·.path) := by
  obtain ⟨infos, hinfos, hfiles⟩ := bind_eq_ok.1 h
  exact ⟨infos, hinfos, map_eq_of_mapM hfiles fun _ _ => path_fileOf⟩

end Module

namespace ModuleSet

/-! ### Making a set -/

theorem nodup_ids_of_repeatedId? {modules : List Module} {seen : List String}
    (h : repeatedId? seen modules = none) :
    (modules.map Module.id).Nodup ∧ ∀ m ∈ modules, m.id ∉ seen := by
  induction modules generalizing seen with
  | nil => exact ⟨.nil, fun _ hm => absurd hm List.not_mem_nil⟩
  | cons m modules ih =>
    simp only [repeatedId?] at h
    split at h
    · cases h
    · rename_i hm
      obtain ⟨hnodup, hall⟩ := ih h
      refine ⟨List.nodup_cons.2 ⟨fun hmem => ?_, hnodup⟩, fun x hx => ?_⟩
      · obtain ⟨x, hx, hid⟩ := List.mem_map.1 hmem
        exact hall x hx (hid ▸ List.mem_cons_self)
      · rcases List.mem_cons.1 hx with rfl | hx
        · exact fun hmem => hm (List.contains_iff_mem.2 hmem)
        · exact fun hmem => hall x hx (List.mem_cons_of_mem _ hmem)

theorem repeatedId?_eq_none {modules : List Module} {seen : List String}
    (hnodup : (modules.map Module.id).Nodup) (hseen : ∀ m ∈ modules, m.id ∉ seen) :
    repeatedId? seen modules = none := by
  induction modules generalizing seen with
  | nil => rfl
  | cons m modules ih =>
    obtain ⟨hfirst, hrest⟩ := List.nodup_cons.1 hnodup
    obtain ⟨hm, hseen⟩ := List.forall_mem_cons.1 hseen
    rw [repeatedId?, if_neg fun h => hm (List.contains_iff_mem.1 h)]
    refine ih hrest fun x hx hmem => ?_
    rcases List.mem_cons.1 hmem with hid | hmem
    · exact hfirst (hid ▸ List.mem_map_of_mem hx)
    · exact hseen x hx hmem

theorem make_of_nodup {modules : List Module} (h : (modules.map Module.id).Nodup) :
    make modules = .ok (ofModules modules) := by
  unfold make
  rw [repeatedId?_eq_none h fun _ _ => List.not_mem_nil]

theorem make_eq_ok {modules : List Module} {s : ModuleSet} (h : make modules = .ok s) :
    s = ofModules modules ∧ (modules.map Module.id).Nodup := by
  unfold make at h
  split at h
  · cases h
  · rename_i hnone
    exact ⟨(Except.ok.inj h).symm, (nodup_ids_of_repeatedId? hnone).1⟩

theorem importedPaths_of_readable {w : World} {m : Module} (hlive : w.live = true)
    (hm : m.Readable w) : ∃ paths, importedPaths w m = .ok paths := by
  obtain ⟨files, hfiles⟩ := hm.listed
  obtain ⟨infos, hinfos, hpaths⟩ := Module.objects_of_walk hfiles
  have hread : ∀ info ∈ infos.filter (fun info => Module.kindOf? info.path = some .schema),
      ∃ imports, (do
        Module.checkLive w.live
        let content ← (m.files.read w.volumes w.live info.path).mapError .storage
        return Schema.scanImports (Text.lenientText content) : Except Error _) = .ok imports := by
    intro info hinfo
    have hmem : info.path ∈ files.map FileInfo.path := by
      rw [hpaths]
      exact List.mem_map_of_mem (List.mem_filter.1 hinfo).1
    obtain ⟨f, hf, hfp⟩ := List.mem_map.1 hmem
    obtain ⟨content, hcontent⟩ := hm.read files hfiles f hf
    rw [hfp] at hcontent
    refine ⟨Schema.scanImports (Text.lenientText content), ?_⟩
    rw [hlive] at hcontent ⊢
    rw [hcontent]
    rfl
  obtain ⟨imports, himports⟩ := exists_mapM_eq_ok hread
  refine ⟨imports.flatten, ?_⟩
  refine bind_eq_ok.2 ⟨infos, hinfos, ?_⟩
  exact bind_eq_ok.2 ⟨imports, himports, rfl⟩

/-! ### What there is to know -/

def indexOf (w : World) (modules : List Module) : FileIndex := modules.map (Module.paths w)

/-- The modules that one of some modules imports from. -/
def importsOf (w : World) (modules : List Module) (i : Nat) : List Nat :=
  match modules[i]? with
  | none => []
  | some m =>
    let paths := (importedPaths w m).toOption.getD []
    (List.range modules.length).filter
      (paths.filterMap (server? (indexOf w modules) i)).contains

theorem lt_of_mem_importsOf {w : World} {modules : List Module} {i j : Nat}
    (h : j ∈ importsOf w modules i) : j < modules.length := by
  unfold importsOf at h
  split at h
  · cases h
  · exact List.mem_range.1 (List.mem_filter.1 h).1

theorem nodup_importsOf (w : World) (modules : List Module) (i : Nat) :
    (importsOf w modules i).Nodup := by
  unfold importsOf
  split
  · exact .nil
  · exact List.nodup_range.filter _

theorem server?_ne {index : FileIndex} {i j : Nat} {path : String}
    (h : server? index i path = some j) : j ≠ i := by
  rintro rfl
  simp only [server?] at h
  split at h
  · cases h
  · rename_i hi
    have hmem := List.mem_of_mem_head? (h : (holders index path).head? = some j)
    exact hi (List.contains_iff_mem.2 hmem)

theorem not_mem_importsOf_self (w : World) (modules : List Module) (i : Nat) :
    i ∉ importsOf w modules i := by
  unfold importsOf
  split
  · exact List.not_mem_nil
  · intro h
    have hc := List.contains_iff_mem.1 (List.mem_filter.1 h).2
    obtain ⟨path, _, hpath⟩ := List.mem_filterMap.1 hc
    exact server?_ne hpath rfl

/-! ### Finding it out -/

def importCell (s : ModuleSet) (i : Nat) : Memo Error (List Nat) := s.imports[i]?.getD .unresolved

def digestCell (s : ModuleSet) (i : Nat) : Memo Error Digest := s.digests[i]?.getD .unresolved

/-- Whether what a set knows of its files and imports is what its modules say. -/
structure Coherent (w : World) (modules : List Module) (s : ModuleSet) : Prop where
  modules_eq : s.modules = modules
  inUse : s.inUse = true
  index : s.index = .unresolved ∨ s.index = .settled (.ok (indexOf w modules))
  imports : ∀ i, importCell s i = .unresolved ∨
    importCell s i = .settled (.ok (importsOf w modules i))

variable {w : World} {modules : List Module} {s : ModuleSet}

theorem coherent_ofModules (w : World) (modules : List Module) :
    Coherent w modules (ofModules modules) := by
  refine ⟨rfl, rfl, .inl rfl, fun i => .inl ?_⟩
  simp only [importCell, ofModules, List.getElem?_map]
  cases modules[i]? with
  | none => rfl
  | some m => rfl

theorem on_member {m : Module} {i : Nat} (hm : s.modules[i]? = some m) (hs : s.inUse = true) :
    (member i).on s = (.ok m, s) := by
  unfold member
  rw [SetAct.on_bind_ok (SetAct.on_get s)]
  simp only [hm, hs]
  rfl

theorem on_fileIndex (hread : ∀ m ∈ modules, m.Readable w) (hs : s.modules = modules)
    (hi : s.index = .unresolved ∨ s.index = .settled (.ok (indexOf w modules))) :
    (fileIndex w).on s =
      (.ok (indexOf w modules), { s with index := .settled (.ok (indexOf w modules)) }) := by
  rcases hi with hi | hi
  · refine SetAct.on_once_unresolved (t := { s with index := .resolving }) hi ?_
    rw [SetAct.on_bind_ok (SetAct.on_get _), SetAct.on_answer]
    have hok : ∀ m ∈ modules, ∃ paths,
        (do return (← m.walk w).map FileInfo.path : Except Error _) = .ok paths := by
      intro m hm
      obtain ⟨files, hfiles⟩ := (hread m hm).listed
      exact ⟨files.map FileInfo.path, by rw [hfiles]; rfl⟩
    obtain ⟨index, hindex⟩ := exists_mapM_eq_ok hok
    have heq : index.map id = modules.map (Module.paths w) := by
      refine map_eq_of_mapM hindex fun m paths h => ?_
      obtain ⟨files, hfiles, hpaths⟩ := bind_eq_ok.1 h
      cases hpaths
      simp [Module.paths, hfiles, Except.toOption]
    rw [List.map_id] at heq
    simp only [hs, hindex, heq, indexOf]
  · rw [fileIndex, SetAct.on_once_settled hi]
    congr 1
    rw [← hi]

theorem getD_set_self {α : Type} {xs : List (Memo Error α)} {i : Nat} (m : Memo Error α) :
    (xs.set i m)[i]?.getD .unresolved = .unresolved ∨
      (xs.set i m)[i]?.getD .unresolved = m := by
  rw [List.getElem?_set]
  split
  · split
    · exact .inr rfl
    · exact .inl rfl
  · contradiction

theorem on_directImports (hlive : w.live = true) (hread : ∀ m ∈ modules, m.Readable w)
    (h : Coherent w modules s) {i : Nat} (hi : i < modules.length) :
    ∃ t, (directImports w i).on s = (.ok (importsOf w modules i), t) ∧ Coherent w modules t ∧
      t.digests = s.digests := by
  rcases h.imports i with hc | hc
  · let s₁ : ModuleSet := { s with imports := s.imports.set i .resolving }
    let s₂ : ModuleSet := { s₁ with index := .settled (.ok (indexOf w modules)) }
    have hm : s₁.modules[i]? = some modules[i] := by
      show s.modules[i]? = _
      rw [h.modules_eq, List.getElem?_eq_getElem hi]
    obtain ⟨paths, hpaths⟩ := importedPaths_of_readable hlive (hread modules[i] (by simp))
    have hfind : (do
        let m ← member i
        let index ← fileIndex w
        let paths ← answer (importedPaths w m)
        let servers := paths.filterMap (server? index i)
        return (List.range index.length).filter servers.contains : SetAct (List Nat)).on s₁ =
          (.ok (importsOf w modules i), s₂) := by
      rw [SetAct.on_bind_ok (on_member hm h.inUse),
        SetAct.on_bind_ok (on_fileIndex (s := s₁) hread h.modules_eq h.index),
        SetAct.on_bind_ok (by rw [SetAct.on_answer, hpaths])]
      rw [SetAct.on_pure]
      simp only [importsOf, List.getElem?_eq_getElem hi, hpaths, Except.toOption, Option.getD_some,
        indexOf, List.length_map]
      rfl
    refine ⟨_, SetAct.on_once_unresolved hc hfind, ⟨h.modules_eq, h.inUse, .inr rfl, ?_⟩, rfl⟩
    intro j
    by_cases hij : i = j
    · subst hij
      exact getD_set_self _
    · simp only [importCell, s₂, s₁, List.getElem?_set_ne hij]
      exact h.imports j
  · exact ⟨s, SetAct.on_once_settled hc _, h, rfl⟩

/-! ### Worlds with the same files -/

section Files

variable {w' : World} (hstore : w'.store = w.store) (hlive : w'.live = w.live)

include hstore hlive

theorem directImports_congr : directImports w' = directImports w := by
  obtain ⟨live, store, registry, cells⟩ := w
  obtain ⟨live', store', registry', cells'⟩ := w'
  cases hstore
  cases hlive
  rfl

theorem reachFrom_congr (i steps : Nat) (queue reached : List Nat) :
    reachFrom w' i steps queue reached = reachFrom w i steps queue reached := by
  induction steps generalizing queue reached with
  | zero => rfl
  | succ steps ih =>
    cases queue with
    | nil => rfl
    | cons j queue => simp only [reachFrom, directImports_congr hstore hlive, ih]

theorem dependencies_congr (i : Nat) : dependencies w' i = dependencies w i := by
  simp only [dependencies, directImports_congr hstore hlive, reachFrom_congr hstore hlive]

theorem digestWithin_congr (depth i : Nat) : digestWithin w' depth i = digestWithin w depth i := by
  induction depth generalizing i with
  | zero => rfl
  | succ depth ih =>
    have hvolumes : w'.volumes = w.volumes := congrArg (fun v => [v]) hstore
    simp only [digestWithin, dependencies_congr hstore hlive, ih, hvolumes, hlive]

/-- Digests depend on the files alone. -/
theorem digest_congr (i : Nat) : digest w' i = digest w i := by
  simp only [digest, digestWithin_congr hstore hlive]

end Files
end ModuleSet

end Schemata

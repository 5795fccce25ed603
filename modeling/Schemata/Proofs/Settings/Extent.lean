import Mathlib.Data.List.Pairwise
import Schemata.Proofs.Storage.Views
import Schemata.Proofs.Table
import Schemata.Settings.ModuleFile
import Schemata.Settings.WorkFile

/-!
# Where settings place a module

A document of settings lists the roots of a module and the paths that it leaves out: in older
versions as seen from the module, in v2 as seen from the workspace. The settings that are read from
it keep the same paths, each as seen from the root that holds it.
-/

namespace Schemata

namespace Settings

open Schemata.Path (IsNormal Separate covers contains join)
open Storage (IsObject isObject_join)

/-! ### Extents -/

/-- Where a document of settings places a module: its directory, its roots as seen from there, and
the paths it leaves out as seen from the place of the document. All are in normal form. -/
structure Extent where
  dir : String
  roots : List String
  excludes : List String

def normalForms (paths : List String) : List String :=
  paths.filterMap fun path => (Path.normalize path).toOption

namespace Extent

/-- All that lies in a directory. -/
def all (dir : String) : Extent := ⟨dir, ["."], []⟩

def ofV1Beta1 (document : Toml.Value) : Option Extent := do
  let ((roots, excludes), _) ←
    ModuleFile.readSingle ([], []) ModuleFile.readBuildV1Beta1 document
  return ⟨".", if roots.isEmpty then ["."] else normalForms roots, normalForms excludes⟩

def ofV1 (document : Toml.Value) : Option Extent := do
  let (excludes, _) ← ModuleFile.readSingle [] ModuleFile.readBuildV1 document
  return ⟨".", ["."], normalForms excludes⟩

def ofTable (m : ModuleFile.ModuleTable) : Option Extent := do
  let dir ← (Path.normalize m.path).toOption
  return ⟨dir, ["."], normalForms m.excludes⟩

def ofV2 (document : Toml.Value) : Option (List Extent) := do
  let w ← ModuleFile.WorkspaceTable.read document
  if w.modules.isEmpty then return [all "."] else w.modules.mapM ofTable

/-- The extents of the modules that a document describes. -/
def ofDocument (document : Toml.Value) : Option (List Extent) := do
  match (← (readVersion ModuleFile.fileName document).toOption).getD .v1beta1 with
  | .v1beta1 => (ofV1Beta1 document).map fun x => [x]
  | .v1 => (ofV1 document).map fun x => [x]
  | .v2 => ofV2 document

def ofText (text : String) : Option (List Extent) := do ofDocument (← Toml.parse text)

/-- The extent of a module whose document lies in a directory. -/
def placed (dir : String) (x : Extent) : Extent :=
  ⟨join dir x.dir, x.roots, x.excludes.map (join dir)⟩

end Extent

/-- Whether the settings of a module keep an extent: its roots, of which none lies in another, and
what it leaves out, below the root that holds it. -/
structure ModuleSettings.Keeps (s : ModuleSettings) (x : Extent) : Prop where
  dir : s.dir = x.dir
  normal : IsNormal s.dir
  roots : ∀ root, root ∈ s.roots.keys ↔ root ∈ x.roots
  separate : Separate s.roots.keys
  nonempty : s.roots.keys ≠ []
  excludes : ∀ e, e ∈ x.excludes ↔
    ∃ entry ∈ s.roots.entries, ∃ inner ∈ entry.2, e = join (join s.dir entry.1) inner
  inner : ∀ entry ∈ s.roots.entries, ∀ inner ∈ entry.2, IsObject inner

/-! ### Lists of paths -/

theorem normalizeIn_eq_ok {file path p : String} :
    normalizeIn file path = .ok p ↔ Path.normalize path = .ok p := by
  rw [normalizeIn, mapError_eq_ok]

theorem mem_normalForms {paths : List String} {p : String} :
    p ∈ normalForms paths ↔ ∃ path ∈ paths, Path.normalize path = .ok p := by
  simp [normalForms, toOption_eq_some]

theorem mapM_normalizeIn {file : String} {paths ps : List String}
    (h : paths.mapM (normalizeIn file) = .ok ps) : normalForms paths = ps := by
  have hall := mapM_eq_ok.1 h
  induction hall with
  | nil => rfl
  | @cons path p paths ps hp hrest ih =>
    have hnormal := toOption_eq_some.2 (normalizeIn_eq_ok.1 hp)
    rw [normalForms, List.filterMap_cons, hnormal]
    exact congrArg (p :: ·) (ih (mapM_eq_ok.2 hrest))

theorem isNormal_of_mem_normalForms {paths : List String} {p : String} (h : p ∈ normalForms paths) :
    IsNormal p := by
  obtain ⟨path, _, hp⟩ := mem_normalForms.1 h
  exact Path.isNormal_of_normalize hp

theorem not_overlap_of_firstPair? {α : Type} {related : α → α → Bool} {xs : List α}
    (h : firstPair? related xs = none) : xs.Pairwise fun a b => related a b = false := by
  induction xs with
  | nil => exact .nil
  | cons a rest ih =>
    rw [firstPair?] at h
    split at h
    · cases h
    · rename_i hnone
      refine List.pairwise_cons.2 ⟨fun b hb => ?_, ih h⟩
      exact Bool.eq_false_iff.2 (List.find?_eq_none.1 hnone b hb)

theorem separate_of_checkNoOverlap {file what : String} {paths : List String}
    (h : checkNoOverlap file what paths = .ok ()) (hnormal : ∀ p ∈ paths, IsNormal p) :
    Separate paths ∧ paths.Nodup := by
  unfold checkNoOverlap at h
  split at h
  · cases h
  · rename_i hnone
    have hpairs := not_overlap_of_firstPair? hnone
    have hsymm : Std.Symm fun a b => overlap a b = false :=
      ⟨fun a b hab => by rw [overlap, Bool.or_comm]; exact hab⟩
    refine ⟨⟨hnormal, fun a ha b hb hab => ?_⟩, hpairs.imp fun {a b} hab heq => ?_⟩
    · refine Decidable.byContradiction fun hne => ?_
      have hfalse := hpairs.forall ha hb hne
      simp [overlap, hab] at hfalse
    · simp [overlap, heq] at hab

/-! ### Modules without roots of their own -/

theorem entries_ownRoot (excludes : List String) :
    (ModuleSettings.ownRoot excludes).entries = [(".", excludes)] := rfl

theorem keeps_ownRoot {s : ModuleSettings} {x : Extent} {excludes : List String}
    (hdir : s.dir = x.dir) (hnormal : IsNormal s.dir)
    (hroots : s.roots = ModuleSettings.ownRoot excludes) (hx : x.roots = ["."])
    (hexcludes : ∀ e, e ∈ x.excludes ↔ ∃ inner ∈ excludes, e = join s.dir inner)
    (hinner : ∀ inner ∈ excludes, IsObject inner) : s.Keeps x := by
  have hkeys : s.roots.keys = ["."] := by rw [hroots]; rfl
  constructor
  case dir => exact hdir
  case normal => exact hnormal
  case roots => simp [hkeys, hx]
  case separate =>
    rw [hkeys]
    exact Path.separate_singleton Path.isNormal_root
  case nonempty => simp [hkeys]
  case excludes =>
    intro e
    rw [hexcludes, hroots, entries_ownRoot]
    simp [hnormal.join_root]
  case inner =>
    rw [hroots, entries_ownRoot]
    simpa using hinner

/-! ### Version v1 -/

theorem excludeV1_eq_ok {exclude e : String} :
    ModuleFile.excludeV1 exclude = .ok e ↔ Path.normalize exclude = .ok e ∧ e ≠ "." := by
  unfold ModuleFile.excludeV1
  rw [bind_eq_ok]
  simp only [normalizeIn_eq_ok]
  constructor
  · rintro ⟨e', he', h⟩
    split at h
    · cases h
    · rename_i hroot
      cases h
      exact ⟨he', hroot⟩
  · rintro ⟨he, hroot⟩
    exact ⟨e, he, by rw [if_neg hroot]; rfl⟩

theorem ofSingle_modules {version : Version} {roots : Table (List String)}
    {m : ModuleFile.SingleModule} {file : ModuleFile}
    (h : ModuleFile.ofSingle version roots m = .ok file) :
    ∃ s, file.modules = [s] ∧ s.dir = "." ∧ s.roots = roots := by
  obtain ⟨name, _, h⟩ := bind_eq_ok.1 h
  obtain ⟨lint, _, h⟩ := bind_eq_ok.1 h
  obtain ⟨breaking, _, h⟩ := bind_eq_ok.1 h
  obtain ⟨deps, _, h⟩ := bind_eq_ok.1 h
  cases h
  exact ⟨_, rfl, rfl, rfl⟩

theorem orMalformed_eq_ok {α : Type} {file : String} {o : Option α} {a : α} :
    orMalformed file o = .ok a ↔ o = some a := by
  cases o <;> simp [orMalformed]

theorem keeps_ofV1 {document : Toml.Value} {file : ModuleFile}
    (h : ModuleFile.ofV1 document = .ok file) :
    ∃ s x, file.modules = [s] ∧ s.dir = "." ∧ Extent.ofV1 document = some x ∧ s.Keeps x := by
  obtain ⟨⟨excludes, m⟩, hread, h⟩ := bind_eq_ok.1 h
  obtain ⟨es, hes, h⟩ := bind_eq_ok.1 h
  obtain ⟨s, hs, hdir, hroots⟩ := ofSingle_modules h
  refine ⟨s, ⟨".", ["."], normalForms excludes⟩, hs, hdir, ?_, ?_⟩
  · rw [Extent.ofV1, orMalformed_eq_ok.1 hread]
    rfl
  · refine keeps_ownRoot hdir (hdir ▸ Path.isNormal_root) hroots rfl (fun e => ?_) fun e he => ?_
    · simp only [mem_normalForms, mem_sortedSet, hdir, Path.root_join, exists_eq_right']
      constructor
      · rintro ⟨exclude, hexclude, hnormal⟩
        obtain ⟨y, hy, hxy⟩ := exists_of_mem_mapM hes hexclude
        cases hnormal.symm.trans (excludeV1_eq_ok.1 hxy).1
        exact hy
      · intro he
        obtain ⟨exclude, hexclude, hxy⟩ := exists_of_forall₂ (mapM_eq_ok.1 hes) he
        exact ⟨exclude, hexclude, (excludeV1_eq_ok.1 hxy).1⟩
    · obtain ⟨exclude, _, hxy⟩ := exists_of_forall₂ (mapM_eq_ok.1 hes) (mem_sortedSet.1 he)
      obtain ⟨hnormal, hroot⟩ := excludeV1_eq_ok.1 hxy
      exact ⟨Path.isNormal_of_normalize hnormal, hroot⟩

/-! ### Version v2 -/

theorem excludeV2_eq_ok {dir exclude inner : String} (hdir : IsNormal dir) :
    ModuleFile.excludeV2 dir exclude = .ok inner ↔
      IsObject inner ∧ Path.normalize exclude = .ok (join dir inner) := by
  unfold ModuleFile.excludeV2
  rw [bind_eq_ok]
  simp only [normalizeIn_eq_ok]
  constructor
  · rintro ⟨e, he, h⟩
    split at h
    · cases h
    · rename_i hin
      have hin : contains dir e = true := by simpa using hin
      obtain ⟨r, hr, rfl⟩ :=
        Path.exists_join hdir (Path.isNormal_of_normalize he) (Path.covers_of_contains hin)
      have hrelative : Path.relative dir (join dir r) = .ok inner := mapError_eq_ok.1 h
      rw [Path.relative_join hdir hr] at hrelative
      cases hrelative
      refine ⟨⟨hr, ?_⟩, he⟩
      rintro rfl
      rw [hdir.join_root, Path.not_contains_self] at hin
      cases hin
  · rintro ⟨hinner, he⟩
    refine ⟨_, he, ?_⟩
    rw [Path.contains_join hdir hinner.1 hinner.2]
    exact mapError_eq_ok.2 (Path.relative_join hdir hinner.1)

theorem keeps_ofTable {w : ModuleFile.WorkspaceTable} {m : ModuleFile.ModuleTable}
    {s : ModuleSettings} (h : w.module m = .ok s) :
    ∃ x, Extent.ofTable m = some x ∧ s.Keeps x := by
  obtain ⟨dir, hdir, h⟩ := bind_eq_ok.1 h
  obtain ⟨es, hes, h⟩ := bind_eq_ok.1 h
  obtain ⟨name, _, h⟩ := bind_eq_ok.1 h
  obtain ⟨lint, _, h⟩ := bind_eq_ok.1 h
  obtain ⟨breaking, _, h⟩ := bind_eq_ok.1 h
  cases h
  have hdir := normalizeIn_eq_ok.1 hdir
  have hnormal := Path.isNormal_of_normalize hdir
  refine ⟨⟨dir, ["."], normalForms m.excludes⟩, ?_, ?_⟩
  · rw [Extent.ofTable, hdir]
    rfl
  · refine keeps_ownRoot rfl hnormal rfl rfl (fun e => ?_) fun inner hinner => ?_
    · simp only [mem_normalForms, mem_sortedSet]
      constructor
      · rintro ⟨exclude, hexclude, he⟩
        obtain ⟨inner, hinner, hxy⟩ := exists_of_mem_mapM hes hexclude
        cases he.symm.trans ((excludeV2_eq_ok hnormal).1 hxy).2
        exact ⟨inner, hinner, rfl⟩
      · rintro ⟨inner, hinner, rfl⟩
        obtain ⟨exclude, hexclude, hxy⟩ := exists_of_forall₂ (mapM_eq_ok.1 hes) hinner
        exact ⟨exclude, hexclude, ((excludeV2_eq_ok hnormal).1 hxy).2⟩
    · obtain ⟨exclude, _, hxy⟩ := exists_of_forall₂ (mapM_eq_ok.1 hes) (mem_sortedSet.1 hinner)
      exact ((excludeV2_eq_ok hnormal).1 hxy).1

theorem keeps_all {s : ModuleSettings} {dir : String} (hnormal : IsNormal dir) (hdir : s.dir = dir)
    (hroots : s.roots = ModuleSettings.ownRoot []) : s.Keeps (.all dir) := by
  refine keeps_ownRoot hdir (hdir ▸ hnormal) hroots rfl (fun e => ?_) (List.forall_mem_nil _)
  simp [Extent.all]

theorem modules_of_checked {w : ModuleFile.WorkspaceTable} {modules : List ModuleSettings}
    {file : ModuleFile}
    (h : (do
      ModuleFile.checkNames modules
      return ⟨.v2, modules, ← readRefs w.deps, w.plugins⟩ : Except Error ModuleFile) = .ok file) :
    file.version = .v2 ∧ file.modules = modules := by
  obtain ⟨_, _, h⟩ := bind_eq_ok.1 h
  obtain ⟨deps, _, h⟩ := bind_eq_ok.1 h
  cases h
  exact ⟨rfl, rfl⟩

theorem keeps_ofV2 {document : Toml.Value} {file : ModuleFile}
    (h : ModuleFile.ofV2 document = .ok file) :
    file.version = .v2 ∧ ∃ xs, Extent.ofV2 document = some xs ∧
      List.Forall₂ ModuleSettings.Keeps file.modules xs := by
  obtain ⟨w, hread, h⟩ := bind_eq_ok.1 h
  rw [Extent.ofV2, orMalformed_eq_ok.1 hread]
  simp only [Option.bind_eq_bind, Option.bind_some]
  cases hempty : w.modules.isEmpty with
  | true =>
    simp only [hempty, if_true, Bool.not_true, Bool.false_eq_true, if_false] at h
    obtain ⟨s, hs, h⟩ := bind_eq_ok.1 h
    obtain ⟨_, hone, h⟩ := bind_eq_ok.1 h
    cases hone
    obtain ⟨hversion, hmodules⟩ := modules_of_checked h
    rw [hmodules]
    refine ⟨hversion, [.all "."], rfl, .cons ?_ .nil⟩
    obtain ⟨lint, _, hs⟩ := bind_eq_ok.1 hs
    obtain ⟨breaking, _, hs⟩ := bind_eq_ok.1 hs
    cases hs
    exact keeps_all Path.isNormal_root rfl rfl
  | false =>
    simp only [hempty, Bool.not_false, Bool.false_eq_true, if_false, if_true] at h
    obtain ⟨modules, hmodules, h⟩ := bind_eq_ok.1 h
    obtain ⟨_, _, h⟩ := bind_eq_ok.1 h
    obtain ⟨hversion, heq⟩ := modules_of_checked h
    rw [heq]
    exact ⟨hversion, forall₂_of_mapM hmodules fun m s => keeps_ofTable⟩

/-! ### Version v1beta1 -/

/-- Whether a table lists excludes that were met so far, each under the root that holds it. -/
structure Placed (roots met : List String) (t : Table (List String)) : Prop where
  keys : ∀ root, root ∈ t.keys ↔ root ∈ roots
  inner : ∀ root es, t.find? root = some es →
    ∀ inner, inner ∈ es ↔ IsObject inner ∧ join root inner ∈ met
  within : ∀ e ∈ met, ∃ root ∈ roots, ∃ inner, IsObject inner ∧ e = join root inner

section Placed

variable {roots met : List String} {t t' : Table (List String)}

theorem placed_roots (h : roots.Nodup) :
    Placed roots [] (Table.ofList (roots.map fun root => (root, []))) := by
  have hnodup : ((roots.map fun root => (root, ([] : List String))).map Prod.fst).Nodup := by
    simpa [Function.comp_def] using h
  constructor
  case keys =>
    intro root
    rw [Table.mem_keys]
    simp only [Table.find?_ofList hnodup]
    simp
  case inner =>
    intro root es hes inner
    rw [Table.find?_ofList hnodup] at hes
    obtain ⟨_, _, heq⟩ := List.mem_map.1 hes
    cases heq
    simp
  case within => exact List.forall_mem_nil _

theorem placeExclude_eq_ok {exclude : String} (hroots : Separate roots)
    (h : ModuleFile.placeExclude roots t exclude = .ok t') :
    ∃ root ∈ roots, ∃ inner, IsObject inner ∧ Path.normalize exclude = .ok (join root inner) ∧
      t' = t.insert root ((t.find? root).getD [] ++ [inner]) := by
  obtain ⟨e, he, h⟩ := bind_eq_ok.1 h
  have he := normalizeIn_eq_ok.1 he
  split at h
  · split at h
    · obtain ⟨_, hthrow, _⟩ := bind_eq_ok.1 h
      cases hthrow
    · cases h
  · rename_i root hfind
    split at h
    · obtain ⟨_, hthrow, _⟩ := bind_eq_ok.1 h
      cases hthrow
    · obtain ⟨inner, hinner, h⟩ := bind_eq_ok.1 h
      cases h
      have hroot := List.mem_of_find?_eq_some hfind
      have hin : contains root e = true := by simpa using List.find?_some hfind
      have hnormal := hroots.normal root hroot
      obtain ⟨r, hr, rfl⟩ :=
        Path.exists_join hnormal (Path.isNormal_of_normalize he) (Path.covers_of_contains hin)
      have hrelative := mapError_eq_ok.1 hinner
      rw [Path.relative_join hnormal hr] at hrelative
      cases hrelative
      refine ⟨root, hroot, inner, ⟨hr, ?_⟩, he, rfl⟩
      rintro rfl
      rw [hnormal.join_root, Path.not_contains_self] at hin
      cases hin

theorem Placed.step (hroots : Separate roots) (hp : Placed roots met t) {exclude : String}
    (h : ModuleFile.placeExclude roots t exclude = .ok t') :
    ∃ e, Path.normalize exclude = .ok e ∧ Placed roots (met ++ [e]) t' := by
  obtain ⟨root, hroot, inner, hinner, he, rfl⟩ := placeExclude_eq_ok hroots h
  obtain ⟨es, hes⟩ := Table.mem_keys.1 ((hp.keys root).2 hroot)
  refine ⟨_, he, ?_⟩
  rw [hes]
  constructor
  case keys =>
    intro k
    rw [Table.mem_keys_insert, hp.keys]
    exact ⟨fun hk => hk.elim (fun heq => heq ▸ hroot) id, .inr⟩
  case inner =>
    intro k ks hk i
    rw [Table.find?_insert] at hk
    rw [List.mem_append, List.mem_singleton]
    split at hk
    · rename_i heq
      subst heq
      cases hk
      have hnormal := hroots.normal root hroot
      rw [Option.getD_some, List.mem_append, List.mem_singleton, hp.inner root es hes]
      constructor
      · rintro (⟨hi, hmet⟩ | rfl)
        · exact ⟨hi, .inl hmet⟩
        · exact ⟨hinner, .inr rfl⟩
      · rintro ⟨hi, hmet | heq⟩
        · exact .inl ⟨hi, hmet⟩
        · exact .inr (Path.join_inj hnormal hi.1 hinner.1 heq)
    · rename_i hne
      have hkroot := (hp.keys k).1 (Table.mem_keys.2 ⟨ks, hk⟩)
      rw [hp.inner k ks hk]
      refine and_congr_right fun hi => ⟨.inl, fun hmet => hmet.resolve_right fun heq => hne ?_⟩
      -- a path below two roots would be a path below one of them twice
      refine hroots.eq_of_covers hroot hkroot (Path.covers_join (hroots.normal root hroot) hinner.1) ?_
      rw [← heq]
      exact Path.covers_join (hroots.normal k hkroot) hi.1
  case within =>
    intro e hmem
    rcases List.mem_append.1 hmem with hmem | hmem
    · exact hp.within e hmem
    · exact ⟨root, hroot, inner, hinner, List.mem_singleton.1 hmem⟩

theorem Placed.steps (hroots : Separate roots) {excludes : List String} (hp : Placed roots met t)
    (h : excludes.foldlM (ModuleFile.placeExclude roots) t = .ok t') :
    Placed roots (met ++ normalForms excludes) t' := by
  -- what was met grows at its end, as the list is read from its front
  induction excludes generalizing met t with
  | nil =>
    cases h
    rw [normalForms, List.filterMap_nil, List.append_nil]
    exact hp
  | cons exclude excludes ih =>
    obtain ⟨t₁, ht₁, h⟩ := bind_eq_ok.1 h
    obtain ⟨e, he, hp⟩ := hp.step hroots ht₁
    have hforms : normalForms (exclude :: excludes) = e :: normalForms excludes := by
      rw [normalForms, List.filterMap_cons, toOption_eq_some.2 he]
      rfl
    rw [hforms, List.append_cons]
    exact ih hp h

/-- The roots that settings of version v1beta1 name, and the table of the excludes below each. -/
theorem placeRoots_eq_ok {excludes : List String} (h : ModuleFile.placeRoots roots excludes = .ok t) :
    ∃ forms, forms = (if roots.isEmpty then ["."] else normalForms roots) ∧ forms ≠ [] ∧
      Separate forms ∧ ∃ placed, Placed forms (normalForms excludes) placed ∧
        t = Table.ofList (placed.entries.map fun e => (e.1, ModuleFile.ordered e.2)) := by
  -- without roots the directory itself is the root; what follows is the same for both
  have hforms (forms : List String)
      (h : (do
        checkNoOverlap ModuleFile.fileName "roots" forms
        let placed ← excludes.foldlM (ModuleFile.placeExclude forms)
          (Table.ofList (forms.map fun r => (r, [])))
        return Table.ofList (placed.entries.map fun e => (e.1, ModuleFile.ordered e.2)) :
          Except Error (Table (List String))) = .ok t)
      (hnormal : ∀ form ∈ forms, IsNormal form) :
      Separate forms ∧ ∃ placed, Placed forms (normalForms excludes) placed ∧
        t = Table.ofList (placed.entries.map fun e => (e.1, ModuleFile.ordered e.2)) := by
    obtain ⟨_, hcheck, h⟩ := bind_eq_ok.1 h
    obtain ⟨placed, hplaced, h⟩ := bind_eq_ok.1 h
    cases h
    obtain ⟨hseparate, hnodup⟩ := separate_of_checkNoOverlap hcheck hnormal
    exact ⟨hseparate, placed, (placed_roots hnodup).steps hseparate hplaced, rfl⟩
  unfold ModuleFile.placeRoots at h
  cases roots with
  | nil => exact ⟨["."], rfl, List.cons_ne_nil _ _, hforms ["."] h (by simp [Path.isNormal_root])⟩
  | cons root roots =>
    obtain ⟨forms, hmap, h⟩ := bind_eq_ok.1 h
    have heq := mapM_normalizeIn hmap
    refine ⟨forms, heq.symm, ?_, hforms forms h fun form hform => ?_⟩
    · rintro rfl
      cases mapM_eq_ok.1 hmap
    · exact isNormal_of_mem_normalForms (heq ▸ hform)

theorem mem_orderedEntries {placed : Table (List String)} {k : String} {es : List String} :
    (k, es) ∈ (Table.ofList (placed.entries.map fun e => (e.1, ModuleFile.ordered e.2))).entries ↔
      ∃ met, placed.find? k = some met ∧ es = ModuleFile.ordered met := by
  have hnodup : ((placed.entries.map fun e => (e.1, ModuleFile.ordered e.2)).map Prod.fst).Nodup := by
    rw [List.map_map]
    exact placed.nodup_keys
  rw [Table.mem_entries, Table.find?_ofList hnodup, List.mem_map]
  constructor
  · rintro ⟨e, he, heq⟩
    cases heq
    exact ⟨e.2, Table.mem_entries.1 he, rfl⟩
  · rintro ⟨met, hmet, rfl⟩
    exact ⟨_, Table.mem_entries.2 hmet, rfl⟩

end Placed

theorem keeps_ofV1Beta1 {document : Toml.Value} {file : ModuleFile}
    (h : ModuleFile.ofV1Beta1 document = .ok file) :
    ∃ s x, file.modules = [s] ∧ s.dir = "." ∧ Extent.ofV1Beta1 document = some x ∧ s.Keeps x := by
  obtain ⟨⟨⟨roots, excludes⟩, m⟩, hread, h⟩ := bind_eq_ok.1 h
  obtain ⟨t, ht, h⟩ := bind_eq_ok.1 h
  obtain ⟨s, hs, hdir, hroots⟩ := ofSingle_modules h
  obtain ⟨forms, hforms, hne, hseparate, placed, hplaced, rfl⟩ := placeRoots_eq_ok ht
  have hkeys (root : String) : root ∈ s.roots.keys ↔ root ∈ forms := by
    rw [← hplaced.keys, hroots, Table.mem_keys, Table.mem_keys]
    simp only [← Table.mem_entries, mem_orderedEntries]
    simp [Table.mem_entries]
  refine ⟨s, ⟨".", forms, normalForms excludes⟩, hs, hdir, ?_, ?_⟩
  · rw [Extent.ofV1Beta1, orMalformed_eq_ok.1 hread, hforms]
    rfl
  constructor
  case dir => exact hdir
  case normal => exact hdir ▸ Path.isNormal_root
  case roots => exact hkeys
  case separate =>
    exact ⟨fun root hroot => hseparate.normal root ((hkeys root).1 hroot), fun a ha b hb =>
      hseparate.apart a ((hkeys a).1 ha) b ((hkeys b).1 hb)⟩
  case nonempty =>
    obtain ⟨root, hroot⟩ := List.exists_mem_of_ne_nil forms hne
    exact List.ne_nil_of_mem ((hkeys root).2 hroot)
  case excludes =>
    intro e
    simp only [hdir, Path.root_join]
    constructor
    · intro he
      -- some root holds the exclude, and the entry of that root lists it as seen from there
      obtain ⟨root, hroot, inner, hinner, rfl⟩ := hplaced.within e he
      obtain ⟨met, hmet⟩ := Table.mem_keys.1 ((hplaced.keys root).2 hroot)
      refine ⟨(root, ModuleFile.ordered met), ?_, inner, ?_, rfl⟩
      · rw [hroots]
        exact mem_orderedEntries.2 ⟨met, hmet, rfl⟩
      · exact mem_sortedSet.2 ((hplaced.inner root met hmet inner).2 ⟨hinner, he⟩)
    · rintro ⟨⟨root, es⟩, hentry, inner, hinner, rfl⟩
      rw [hroots] at hentry
      obtain ⟨met, hmet, rfl⟩ := mem_orderedEntries.1 hentry
      exact ((hplaced.inner root met hmet inner).1 (mem_sortedSet.1 hinner)).2
  case inner =>
    rintro ⟨root, es⟩ hentry inner hinner
    rw [hroots] at hentry
    obtain ⟨met, hmet, rfl⟩ := mem_orderedEntries.1 hentry
    exact ((hplaced.inner root met hmet inner).1 (mem_sortedSet.1 hinner)).1

/-! ### All versions -/

/-- The settings that a text is read as keep the extents that it describes. An older one describes
one module, in its own directory. -/
theorem keeps_ofText {text : String} {file : ModuleFile} (h : ModuleFile.parse text = .ok file) :
    ∃ xs, Extent.ofText text = some xs ∧ List.Forall₂ ModuleSettings.Keeps file.modules xs ∧
      (file.version ≠ .v2 → ∃ s, file.modules = [s] ∧ s.dir = ".") := by
  obtain ⟨document, hdocument, h⟩ := bind_eq_ok.1 h
  obtain ⟨version, hversion, h⟩ := bind_eq_ok.1 h
  have htext : Extent.ofText text = match version.getD .v1beta1 with
      | .v1beta1 => (Extent.ofV1Beta1 document).map ([·])
      | .v1 => (Extent.ofV1 document).map ([·])
      | .v2 => Extent.ofV2 document := by
    rw [Extent.ofText, orMalformed_eq_ok.1 hdocument, Option.bind_eq_bind, Option.bind_some,
      Extent.ofDocument, hversion]
    rfl
  rw [htext]
  cases hcase : version.getD .v1beta1 with
  | v1beta1 =>
    rw [hcase] at h
    obtain ⟨s, x, hs, hdir, hx, hkeeps⟩ := keeps_ofV1Beta1 h
    refine ⟨[x], by rw [hx]; rfl, ?_, fun _ => ⟨s, hs, hdir⟩⟩
    rw [hs]
    exact .cons hkeeps .nil
  | v1 =>
    rw [hcase] at h
    obtain ⟨s, x, hs, hdir, hx, hkeeps⟩ := keeps_ofV1 h
    refine ⟨[x], by rw [hx]; rfl, ?_, fun _ => ⟨s, hs, hdir⟩⟩
    rw [hs]
    exact .cons hkeeps .nil
  | v2 =>
    rw [hcase] at h
    obtain ⟨hv2, xs, hxs, hall⟩ := keeps_ofV2 h
    exact ⟨xs, hxs, hall, fun hne => absurd hv2 hne⟩

end Settings

end Schemata

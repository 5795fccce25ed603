import Schemata.Proofs.ModuleSet.Merging

/-!
# Target files of a module that is declared more than once

Whether the declarations for a key are all with paths or all without, the target files of its module
are those of its declarations together: no declaration takes one away. A declaration whose paths
leave no schema file makes no target on its own, yet its other files count beside another
declaration that leaves one.
-/

namespace Schemata.ModuleSet.Build

open Schemata.Module (IsTargetFile Selects kindOf?)

variable {w w' : World}

/-! ### Target files of a set -/

/-- Whether a file of the module of a name is a target in the set that is built. -/
def TargetIn (provider : Provider) (rounds : Nat) (locals : List LocalModule)
    (remotes : List RemoteModule) (w : World) (name : ModuleName) (path : String) : Prop :=
  ∃ s w', (ModuleSet.build provider rounds locals remotes).Gives w s w' ∧
    ∃ m ∈ s.modules, m.name = some name ∧ m.IsTargetFile w' path

/-- Whether paths select a schema file of those that satisfy something. -/
def SelectsSchema (paths : List String) (has : String → Prop) : Prop :=
  paths = [] ∨ ∃ q, kindOf? q = some .schema ∧ has q ∧ Selects paths q

section Changed

variable {provider : Provider} {rounds : Nat} {locals : List LocalModule} {key : ModuleKey}
  {before after rs rs' : List RemoteModule} {path : String}

/-- A target file was selected, and a schema file too unless nothing is held back. -/
theorem TargetIn.selected (hadds : AreAdds key rs) (hlocals : key.name ∉ namesOf locals)
    (hbefore : ∀ r ∈ before, r.key.name ≠ key.name) (hafter : ∀ r ∈ after, r.key.name ≠ key.name)
    (h : TargetIn provider rounds locals (before ++ rs ++ after) w key.name path) :
    Selects (pathsOf rs) path ∧ SelectsSchema (pathsOf rs)
      (TargetIn provider rounds locals (before ++ rs ++ after) w key.name) := by
  obtain ⟨s, w', hbuild, m, hm, hname, htarget⟩ := h
  have hwalk : ∃ fs, m.walk w' = .ok fs := htarget.imp fun _ h => h.1
  obtain ⟨base, _, hnarrowed, _, _⟩ :=
    exists_remade hadds hadds hlocals hbefore hafter hbuild hm hname hwalk
  obtain ⟨_, hselects, hschema⟩ := (hnarrowed.isTargetFile_iff hwalk).1 htarget
  refine ⟨hselects, hschema.imp_right fun ⟨q, hq, hkind, hselects⟩ => ⟨q, hkind, ?_, hselects⟩⟩
  exact ⟨s, w', hbuild, m, hm, hname,
    (hnarrowed.isTargetFile_iff hwalk).2 ⟨hq, hselects, .inr ⟨q, hq, hkind, hselects⟩⟩⟩

/-- A target file is one with other declarations for the key if these select it, and a schema file
too unless they hold nothing back. -/
theorem TargetIn.transfer (hadds : AreAdds key rs) (hadds' : AreAdds key rs')
    (hlocals : key.name ∉ namesOf locals) (hbefore : ∀ r ∈ before, r.key.name ≠ key.name)
    (hafter : ∀ r ∈ after, r.key.name ≠ key.name)
    (h : TargetIn provider rounds locals (before ++ rs ++ after) w key.name path)
    (hselects : Selects (pathsOf rs') path)
    (hschema : SelectsSchema (pathsOf rs')
      (TargetIn provider rounds locals (before ++ rs ++ after) w key.name)) :
    TargetIn provider rounds locals (before ++ rs' ++ after) w key.name path := by
  obtain ⟨s, w', hbuild, m, hm, hname, htarget⟩ := h
  have hwalk : ∃ fs, m.walk w' = .ok fs := htarget.imp fun _ h => h.1
  obtain ⟨base, m', hnarrowed, hnarrowed', hremade⟩ :=
    exists_remade hadds hadds' hlocals hbefore hafter hbuild hm hname hwalk
  have hfiles {q : String} (h : m.IsTargetFile w' q) : q ∈ (base.narrowed true []).paths w' :=
    ((hnarrowed.isTargetFile_iff hwalk).1 h).1
  have hwalk' : ∃ fs, m'.walk w' = .ok fs := by
    obtain ⟨fs, hfs⟩ := hwalk
    obtain ⟨t, ps, rfl, _⟩ := hnarrowed.narrowed
    obtain ⟨t', ps', rfl, _⟩ := hnarrowed'.narrowed
    exact (Module.walk_narrowed _ _ hfs).imp fun _ h => h.1
  have htarget' : m'.IsTargetFile w' path := by
    refine (hnarrowed'.isTargetFile_iff hwalk').2 ⟨hfiles htarget, hselects, ?_⟩
    refine hschema.imp_right fun ⟨q, hkind, ⟨s₁, w₁, hbuild₁, m₁, hm₁, hname₁, hq⟩, hselects⟩ => ?_
    cases hbuild.symm.trans hbuild₁
    rw [eq_of_name (nodup_ids_of_gives_build hbuild) hm hm₁ hname hname₁] at hq
    exact ⟨q, hfiles hq, hkind, hselects⟩
  obtain ⟨s', hbuild', hm', hname'⟩ := hremade htarget'.target
  exact ⟨s', w', hbuild', m', hm', hname', htarget'⟩

end Changed

/-! ### Target files of one declaration and of several -/

/-- Whether the declarations of targets are of one sort: all have paths, or none has. -/
def OneSort (rs : List RemoteModule) : Prop :=
  (∀ r ∈ rs, r.target = true → r.paths = []) ∨ ∀ r ∈ rs, r.target = true → r.paths ≠ []

section Sorts

variable {key : ModuleKey} {rs rs' : List RemoteModule} {path : String}

theorem mem_pathsOf {p : String} : p ∈ pathsOf rs ↔ ∃ r ∈ rs, p ∈ r.paths := List.mem_flatMap

theorem pathsOf_singleton (r : RemoteModule) : pathsOf [r] = r.paths :=
  List.append_nil r.paths

theorem AreAdds.of_subset (h : AreAdds key rs) (hsub : rs' ⊆ rs)
    (htarget : ∃ r ∈ rs', r.target = true) : AreAdds key rs' :=
  ⟨fun r hr => h.key r (hsub hr), fun r hr => h.excludes r (hsub hr),
    fun r hr => h.plain r (hsub hr), htarget⟩

theorem AreAdds.singleton (h : AreAdds key rs) {r : RemoteModule} (hr : r ∈ rs)
    (htarget : r.target = true) : AreAdds key [r] :=
  h.of_subset (List.cons_subset.2 ⟨hr, List.nil_subset _⟩) ⟨r, List.mem_singleton_self r, htarget⟩

theorem pair_subset {r r' : RemoteModule} (hr : r ∈ rs) (hr' : r' ∈ rs) : [r, r'] ⊆ rs :=
  List.cons_subset.2 ⟨hr, List.cons_subset.2 ⟨hr', List.nil_subset _⟩⟩

theorem AreAdds.pair (h : AreAdds key rs) {r r' : RemoteModule} (hr : r ∈ rs) (hr' : r' ∈ rs)
    (htarget : r.target = true) : AreAdds key [r, r'] :=
  h.of_subset (pair_subset hr hr') ⟨r, List.mem_cons_self, htarget⟩

theorem AreAdds.perm (h : AreAdds key rs) (hperm : rs'.Perm rs) : AreAdds key rs' :=
  h.of_subset hperm.subset (h.target.imp fun _ hr => ⟨hperm.mem_iff.2 hr.1, hr.2⟩)

theorem OneSort.of_subset (h : OneSort rs) (hsub : rs' ⊆ rs) : OneSort rs' :=
  h.imp (fun h r hr => h r (hsub hr)) fun h r hr => h r (hsub hr)

theorem AreAdds.pathsOf_eq_nil (h : AreAdds key rs)
    (hwhole : ∀ r ∈ rs, r.target = true → r.paths = []) : pathsOf rs = [] := by
  refine List.flatMap_eq_nil_iff.2 fun r hr => ?_
  cases htarget : r.target with
  | true => exact hwhole r hr htarget
  | false => exact h.plain r hr htarget

theorem AreAdds.pathsOf_ne_nil (h : AreAdds key rs)
    (hpaths : ∀ r ∈ rs, r.target = true → r.paths ≠ []) : pathsOf rs ≠ [] := by
  obtain ⟨r, hr, htarget⟩ := h.target
  obtain ⟨p, hp⟩ := List.exists_mem_of_ne_nil _ (hpaths r hr htarget)
  exact List.ne_nil_of_mem (mem_pathsOf.2 ⟨r, hr, hp⟩)

theorem OneSort.pathsOf_eq_nil (h : OneSort rs) (hadds : AreAdds key rs)
    (hadds' : AreAdds key rs') (hsub : rs' ⊆ rs) (hnil : pathsOf rs' = []) : pathsOf rs = [] := by
  rcases h with hwhole | hpaths
  · exact hadds.pathsOf_eq_nil hwhole
  · exact absurd hnil (hadds'.pathsOf_ne_nil fun r hr => hpaths r (hsub hr))

/-- Of one sort, more declarations select more. -/
theorem OneSort.selects (h : OneSort rs) (hadds : AreAdds key rs) (hadds' : AreAdds key rs')
    (hsub : rs' ⊆ rs) (hselects : Selects (pathsOf rs') path) : Selects (pathsOf rs) path := by
  rw [Module.selects_iff] at hselects ⊢
  refine hselects.imp (h.pathsOf_eq_nil hadds hadds' hsub) fun ⟨p, hp, hcovers⟩ => ?_
  obtain ⟨r, hr, hp⟩ := mem_pathsOf.1 hp
  exact ⟨p, mem_pathsOf.2 ⟨r, hsub hr, hp⟩, hcovers⟩

/-- Of one sort, more declarations leave more schema files. -/
theorem OneSort.selectsSchema (h : OneSort rs) (hadds : AreAdds key rs) (hadds' : AreAdds key rs')
    (hsub : rs' ⊆ rs) {has : String → Prop} (hschema : SelectsSchema (pathsOf rs') has) :
    SelectsSchema (pathsOf rs) has :=
  hschema.imp (h.pathsOf_eq_nil hadds hadds' hsub) fun ⟨q, hkind, hq, hselects⟩ =>
    ⟨q, hkind, hq, h.selects hadds hadds' hsub hselects⟩

/-- Of one sort, what is selected is selected by one declaration of a target. -/
theorem OneSort.exists_selects (h : OneSort rs) (hadds : AreAdds key rs)
    (hselects : Selects (pathsOf rs) path) :
    ∃ r ∈ rs, r.target = true ∧ Selects r.paths path := by
  rcases h with hwhole | hpaths
  · obtain ⟨r, hr, htarget⟩ := hadds.target
    exact ⟨r, hr, htarget, .inl (hwhole r hr htarget)⟩
  · rw [Module.selects_iff] at hselects
    obtain ⟨p, hp, hcovers⟩ := hselects.resolve_left (hadds.pathsOf_ne_nil hpaths)
    obtain ⟨r, hr, hp⟩ := mem_pathsOf.1 hp
    refine ⟨r, hr, ?_, Module.selects_iff.2 (.inr ⟨p, hp, hcovers⟩)⟩
    refine Bool.of_not_eq_false fun hplain => ?_
    rw [hadds.plain r hr hplain] at hp
    exact List.not_mem_nil hp

end Sorts

/-- Whether the paths of declarations decide which files are targets: `selected` says which are,
with some declarations. -/
structure DecidedByPaths (key : ModuleKey) (selected : List RemoteModule → String → Prop) :
    Prop where
  selects : ∀ rs path, AreAdds key rs → selected rs path →
    Selects (pathsOf rs) path ∧ SelectsSchema (pathsOf rs) (selected rs)
  transfer : ∀ rs rs' path, AreAdds key rs → AreAdds key rs' → selected rs path →
    Selects (pathsOf rs') path → SelectsSchema (pathsOf rs') (selected rs) → selected rs' path

/-- How the files that are targets with some declarations for a key, as `selected` says, are those
that are targets with fewer declarations. -/
structure TargetsUnite (key : ModuleKey) (rs : List RemoteModule)
    (selected : List RemoteModule → String → Prop) : Prop where
  /-- The order does not matter. -/
  reordered : ∀ rs', rs'.Perm rs → ∀ path, selected rs' path ↔ selected rs path
  /-- No declaration takes a target file away. -/
  grown : OneSort rs → ∀ rs', rs' ⊆ rs → AreAdds key rs' → ∀ path,
    selected rs' path → selected rs path
  /-- A schema file is a target if it is one with some declaration alone. -/
  schemas : OneSort rs → ∀ path, kindOf? path = some .schema →
    (selected rs path ↔ ∃ r ∈ rs, r.target = true ∧ selected [r] path)
  /-- So is any file, if each declaration of a target leaves a schema file on its own. -/
  files : OneSort rs → (∀ r ∈ rs, r.target = true → SelectsSchema r.paths (selected [r])) →
    ∀ path, selected rs path ↔ ∃ r ∈ rs, r.target = true ∧ selected [r] path
  /-- Any file is a target if it is one with some two declarations. -/
  pairs : OneSort rs → ∀ path, selected rs path ↔
    ∃ r ∈ rs, r.target = true ∧ ∃ r' ∈ rs, r'.target = true ∧ selected [r, r'] path

section Unite

variable {key : ModuleKey} {rs rs' : List RemoteModule}
  {selected : List RemoteModule → String → Prop} {path : String}

/-- Declarations with the same paths make the same files targets. -/
theorem DecidedByPaths.congr (h : DecidedByPaths key selected) (hadds : AreAdds key rs)
    (hadds' : AreAdds key rs') (hpaths : ∀ p, p ∈ pathsOf rs ↔ p ∈ pathsOf rs')
    (hselected : selected rs path) : selected rs' path := by
  obtain ⟨hselects, hschema⟩ := h.selects _ _ hadds hselected
  have hnil : pathsOf rs = [] ↔ pathsOf rs' = [] := by
    simp only [List.eq_nil_iff_forall_not_mem, hpaths]
  refine h.transfer _ _ _ hadds hadds' hselected ((Module.selects_congr hpaths).1 hselects) ?_
  exact hschema.imp hnil.1 fun ⟨q, hkind, hq, hselects⟩ =>
    ⟨q, hkind, hq, (Module.selects_congr hpaths).1 hselects⟩

/-- A target file of some declarations is one of those among them that select it and leave a schema
file. -/
theorem DecidedByPaths.restrict (h : DecidedByPaths key selected) (hadds : AreAdds key rs)
    (hselected : selected rs path) {r : RemoteModule} (hr : r ∈ rs) (htarget : r.target = true)
    (hselects : Selects r.paths path) (hschema : SelectsSchema r.paths (selected rs)) :
    selected [r] path := by
  rw [← pathsOf_singleton] at hselects hschema
  exact h.transfer _ _ _ hadds (hadds.singleton hr htarget) hselected hselects hschema

theorem DecidedByPaths.grown (h : DecidedByPaths key selected) (hadds : AreAdds key rs)
    (hsort : OneSort rs) (hsub : rs' ⊆ rs) (hadds' : AreAdds key rs')
    (hselected : selected rs' path) : selected rs path := by
  obtain ⟨hselects, hschema⟩ := h.selects _ _ hadds' hselected
  exact h.transfer _ _ _ hadds' hadds hselected (hsort.selects hadds hadds' hsub hselects)
    (hsort.selectsSchema hadds hadds' hsub hschema)

theorem DecidedByPaths.exists_pair (h : DecidedByPaths key selected) (hadds : AreAdds key rs)
    (hsort : OneSort rs) (hselected : selected rs path) :
    ∃ r ∈ rs, r.target = true ∧ ∃ r' ∈ rs, r'.target = true ∧ selected [r, r'] path := by
  obtain ⟨hselects, hschema⟩ := h.selects _ _ hadds hselected
  obtain ⟨r, hr, htarget, hselects⟩ := hsort.exists_selects hadds hselects
  -- one declaration selects the file, and one leaves a schema file
  have hleaves : ∃ r' ∈ rs, r'.target = true ∧ SelectsSchema r'.paths (selected rs) := by
    rcases hschema with hnil | ⟨q, hkind, hq, hselects⟩
    · exact ⟨r, hr, htarget, .inl (List.flatMap_eq_nil_iff.1 hnil r hr)⟩
    · obtain ⟨r', hr', htarget', hselects⟩ := hsort.exists_selects hadds hselects
      exact ⟨r', hr', htarget', .inr ⟨q, hkind, hq, hselects⟩⟩
  obtain ⟨r', hr', htarget', hschema⟩ := hleaves
  have hadds' : AreAdds key [r, r'] := hadds.pair hr hr' htarget
  have hsort' : OneSort [r, r'] := hsort.of_subset (pair_subset hr hr')
  rw [← pathsOf_singleton] at hselects hschema
  refine ⟨r, hr, htarget, r', hr', htarget', h.transfer _ _ _ hadds hadds' hselected ?_ ?_⟩
  · exact hsort'.selects hadds' (hadds.singleton hr htarget) (by simp) hselects
  · exact hsort'.selectsSchema hadds' (hadds.singleton hr' htarget') (by simp) hschema

/-- Where no declaration takes a target file away, it is enough that each target file is one with
some declaration alone, or with some two. -/
theorem targetsUnite_of_grown (hadds : AreAdds key rs)
    (hreordered : ∀ rs', rs'.Perm rs → ∀ path, selected rs' path ↔ selected rs path)
    (hgrown : OneSort rs → ∀ rs', rs' ⊆ rs → AreAdds key rs' → ∀ path,
      selected rs' path → selected rs path)
    (hschemas : OneSort rs → ∀ path, kindOf? path = some .schema → selected rs path →
      ∃ r ∈ rs, r.target = true ∧ selected [r] path)
    (hfiles : OneSort rs → (∀ r ∈ rs, r.target = true → SelectsSchema r.paths (selected [r])) →
      ∀ path, selected rs path → ∃ r ∈ rs, r.target = true ∧ selected [r] path)
    (hpairs : OneSort rs → ∀ path, selected rs path →
      ∃ r ∈ rs, r.target = true ∧ ∃ r' ∈ rs, r'.target = true ∧ selected [r, r'] path) :
    TargetsUnite key rs selected := by
  have hone (hsort : OneSort rs) (path : String)
      (h : ∃ r ∈ rs, r.target = true ∧ selected [r] path) : selected rs path := by
    obtain ⟨r, hr, htarget, hselected⟩ := h
    exact hgrown hsort [r] (List.cons_subset.2 ⟨hr, List.nil_subset _⟩) (hadds.singleton hr htarget)
      path hselected
  constructor
  case reordered => exact hreordered
  case grown => exact hgrown
  case schemas => exact fun hsort path hkind => ⟨hschemas hsort path hkind, hone hsort path⟩
  case files => exact fun hsort halone path => ⟨hfiles hsort halone path, hone hsort path⟩
  case pairs =>
    refine fun hsort path => ⟨hpairs hsort path, fun ⟨r, hr, htarget, r', hr', _, hselected⟩ => ?_⟩
    exact hgrown hsort _ (pair_subset hr hr') (hadds.pair hr hr' htarget) path hselected

theorem DecidedByPaths.targetsUnite (h : DecidedByPaths key selected) (hadds : AreAdds key rs) :
    TargetsUnite key rs selected := by
  have hgrown (hsort : OneSort rs) (rs' : List RemoteModule) (hsub : rs' ⊆ rs)
      (hadds' : AreAdds key rs') (path : String) (hselected : selected rs' path) :
      selected rs path := h.grown hadds hsort hsub hadds' hselected
  refine targetsUnite_of_grown hadds ?reordered hgrown ?schemas ?files
    fun hsort path => h.exists_pair hadds hsort
  case reordered =>
    intro rs' hperm path
    have hpaths (p : String) : p ∈ pathsOf rs' ↔ p ∈ pathsOf rs := by
      simp only [mem_pathsOf, hperm.mem_iff]
    exact ⟨h.congr (hadds.perm hperm) hadds hpaths,
      h.congr hadds (hadds.perm hperm) fun p => (hpaths p).symm⟩
  case schemas =>
    intro hsort path hkind hselected
    obtain ⟨r, hr, htarget, hselects⟩ :=
      hsort.exists_selects hadds (h.selects _ _ hadds hselected).1
    exact ⟨r, hr, htarget, h.restrict hadds hselected hr htarget hselects
      (.inr ⟨path, hkind, hselected, hselects⟩)⟩
  case files =>
    intro hsort halone path hselected
    obtain ⟨r, hr, htarget, hselects⟩ :=
      hsort.exists_selects hadds (h.selects _ _ hadds hselected).1
    refine ⟨r, hr, htarget, h.restrict hadds hselected hr htarget hselects ?_⟩
    exact (halone r hr htarget).imp_right fun ⟨q, hkind, hq, hselects⟩ =>
      ⟨q, hkind, hgrown hsort [r] (List.cons_subset.2 ⟨hr, List.nil_subset _⟩)
        (hadds.singleton hr htarget) q hq, hselects⟩

/-- Where the declarations for a key do not matter, they unite. -/
theorem targetsUnite_of_same (hsame : ∀ rs rs', AreAdds key rs → AreAdds key rs' →
    ∀ path, selected rs path → selected rs' path) (hadds : AreAdds key rs) :
    TargetsUnite key rs selected := by
  obtain ⟨r, hr, htarget⟩ := hadds.target
  have halone (path : String) (h : selected rs path) :
      ∃ r ∈ rs, r.target = true ∧ selected [r] path :=
    ⟨r, hr, htarget, hsame _ _ hadds (hadds.singleton hr htarget) path h⟩
  refine targetsUnite_of_grown hadds (fun rs' hperm path => ?_)
    (fun _ rs' _ hadds' => hsame rs' rs hadds' hadds) (fun _ path _ => halone path)
    (fun _ _ => halone) fun _ path h => ⟨r, hr, htarget, r, hr, htarget, ?_⟩
  · exact ⟨hsame _ _ (hadds.perm hperm) hadds path, hsame _ _ hadds (hadds.perm hperm) path⟩
  · exact hsame _ _ hadds (hadds.pair hr hr htarget) path h

end Unite

section Build

variable {provider : Provider} {rounds : Nat} {locals : List LocalModule} {key : ModuleKey}
  {before after rs : List RemoteModule}

/-- Of declarations that a local module stands in for none matters. -/
theorem build_shadowed {rs rs' : List RemoteModule} (hadds : AreAdds key rs)
    (hadds' : AreAdds key rs') (hlocals : key.name ∈ namesOf locals) :
    ModuleSet.build provider rounds locals (before ++ rs ++ after) =
      ModuleSet.build provider rounds locals (before ++ rs' ++ after) := by
  have hshadowed (known : List RemoteModule) {rs : List RemoteModule} (hadds : AreAdds key rs) :
      declareAll (locals.filterMap LocalModule.name) known rs = pure known :=
    declareAll_shadowed known fun r hr => by rw [hadds.key r hr]; exact hlocals
  unfold ModuleSet.build gather
  simp only [declareAll_append, hshadowed _ hadds, hshadowed _ hadds']

/-- The target files of a module that is declared more than once come from all its declarations. -/
theorem targetsUnite_build (hadds : AreAdds key rs) (hbefore : ∀ r ∈ before, r.key.name ≠ key.name)
    (hafter : ∀ r ∈ after, r.key.name ≠ key.name) :
    TargetsUnite key rs fun rs path =>
      TargetIn provider rounds locals (before ++ rs ++ after) w key.name path := by
  by_cases hlocals : key.name ∈ namesOf locals
  · refine targetsUnite_of_same (fun rs rs' hadds hadds' path h => ?_) hadds
    rwa [TargetIn, build_shadowed hadds hadds' hlocals] at h
  · refine DecidedByPaths.targetsUnite ⟨fun rs path hadds h => ?_, ?_⟩ hadds
    · exact h.selected hadds hlocals hbefore hafter
    · exact fun rs rs' path hadds hadds' h hselects hschema =>
        h.transfer hadds hadds' hlocals hbefore hafter hselects hschema

end Build

/-! ### Adds that are mixed -/

/-- The target files of the module of a name in the set that is built, in order. -/
def targetPathsIn (provider : Provider) (rounds : Nat) (locals : List LocalModule)
    (remotes : List RemoteModule) (w : World) (name : ModuleName) : List String :=
  match (ModuleSet.build provider rounds locals remotes).run w with
  | (.ok s, w') => (s.modules.filter fun m => m.name = some name).flatMap fun m =>
      (((m.walk w').toOption.getD []).filter FileInfo.isTarget).map FileInfo.path
  | (.error _, _) => []

theorem mem_targetPathsIn {provider : Provider} {rounds : Nat} {locals : List LocalModule}
    {remotes : List RemoteModule} {name : ModuleName} {path : String} :
    path ∈ targetPathsIn provider rounds locals remotes w name ↔
      TargetIn provider rounds locals remotes w name path := by
  unfold targetPathsIn TargetIn
  cases hrun : (ModuleSet.build provider rounds locals remotes).run w with
  | mk outcome w₁ =>
    cases outcome with
    | error e =>
      refine iff_of_false List.not_mem_nil fun ⟨_, _, hbuild, _⟩ => ?_
      cases hrun.symm.trans hbuild
    | ok s =>
      simp only [List.mem_flatMap, List.mem_filter, List.mem_map, decide_eq_true_eq]
      constructor
      · rintro ⟨m, ⟨hm, hname⟩, f, ⟨hf, htarget⟩, rfl⟩
        cases hwalk : m.walk w₁ with
        | error e =>
          rw [hwalk] at hf
          exact absurd hf List.not_mem_nil
        | ok fs =>
          rw [hwalk] at hf
          exact ⟨s, w₁, hrun, m, hm, hname, fs, hwalk, f, hf, rfl, htarget⟩
      · rintro ⟨s', w', hbuild, m, hm, hname, fs, hwalk, f, hf, rfl, htarget⟩
        cases hrun.symm.trans hbuild
        refine ⟨m, ⟨hm, hname⟩, f, ⟨?_, htarget⟩, rfl⟩
        rw [hwalk]
        exact hf

instance (provider : Provider) (rounds : Nat) (locals : List LocalModule)
    (remotes : List RemoteModule) (w : World) (name : ModuleName) (path : String) :
    Decidable (TargetIn provider rounds locals remotes w name path) :=
  decidable_of_iff _ mem_targetPathsIn

/-! ### A module with two directories -/

def field : ModuleKey := keyNamed "field" (by decide)

def fieldFiles : Storage.Bucket :=
  .objects (((Table.empty.insert "LICENSE" "free".toUTF8).insert "a/x.schema" "".toUTF8).insert
    "b/y.schema" "".toUTF8)

/-- Delivers the same files for each key. -/
def meadow : Provider := fun keys =>
  return keys.map fun key => ⟨key, .ok fieldFiles, [], .settled (.ok ⟨fieldFiles, []⟩)⟩

def wholeField : RemoteModule := ⟨field, true, [], []⟩

def partOfField (path : String) : RemoteModule := ⟨field, true, [path], []⟩

/-- Declarations of two directories, of a file between them, and of the module without a target. -/
def fieldAdds : List RemoteModule :=
  [partOfField "b", bare field, partOfField "LICENSE", partOfField "a"]

theorem areAdds_fieldAdds : AreAdds field fieldAdds := by
  constructor
  case key => decide
  case excludes => decide
  case plain => decide
  case target => decide

theorem targetsUnite_meadow :
    AreAdds field fieldAdds ∧ OneSort fieldAdds ∧
      (∀ r ∈ [bare beside], r.key.name ≠ field.name) ∧
      (TargetsUnite field fieldAdds fun rs path =>
        TargetIn meadow 1 [] ([] ++ rs ++ [bare beside]) World.empty field.name path) ∧
      targetPathsIn meadow 1 [] ([] ++ fieldAdds ++ [bare beside]) World.empty field.name =
        ["LICENSE", "a/x.schema", "b/y.schema"] := by
  have hafter : ∀ r ∈ [bare beside], r.key.name ≠ field.name := by decide
  refine ⟨areAdds_fieldAdds, .inr (by decide), hafter, ?_, by decide +kernel⟩
  exact targetsUnite_build areAdds_fieldAdds (fun _ hr => absurd hr List.not_mem_nil) hafter

/-- A declaration without paths and one with paths leave less than the first alone, and a file
beside the schema files may be a target only together with one. -/
theorem mixed_adds_take_away :
    TargetIn meadow 1 [] [wholeField] World.empty field.name "b/y.schema" ∧
      ¬ TargetIn meadow 1 [] [wholeField, partOfField "a"] World.empty field.name "b/y.schema" ∧
      TargetIn meadow 1 [] [partOfField "a", partOfField "LICENSE"] World.empty field.name
        "LICENSE" ∧
      ¬ TargetIn meadow 1 [] [partOfField "a"] World.empty field.name "LICENSE" ∧
      ¬ TargetIn meadow 1 [] [partOfField "LICENSE"] World.empty field.name "LICENSE" := by
  decide +kernel

end Schemata.ModuleSet.Build

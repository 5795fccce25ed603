import Schemata.Proofs.ModuleSet.TargetFiles

/-!
# Declaring a remote module more than once

Of the declarations for one key the path sets are united, and no paths stand for all paths. So
declarations with paths and declarations without do not unite in what they select. Where they are
of one sort they do, except that a declaration whose paths leave no schema file makes no target on
its own.
-/

namespace Schemata

/-! ### Files that a filter selects -/

namespace Module

variable {w w' : World} {m base : Module} {path : String}

/-- Whether a file of a module is a target. -/
def IsTargetFile (w : World) (m : Module) (path : String) : Prop :=
  ∃ fs, m.walk w = .ok fs ∧ ∃ f ∈ fs, f.path = path ∧ f.isTarget = true

/-- Whether paths select a path. -/
def Selects (paths : List String) (path : String) : Prop :=
  paths = [] ∨ Path.coveredBy paths path = true

theorem selects_iff {paths : List String} :
    Selects paths path ↔ paths = [] ∨ ∃ p ∈ paths, Path.covers p path = true := by
  rw [Selects, Path.coveredBy_iff]

theorem selects_congr {paths paths' : List String} (h : ∀ p, p ∈ paths ↔ p ∈ paths') :
    Selects paths path ↔ Selects paths' path := by
  simp only [selects_iff, List.eq_nil_iff_forall_not_mem, h]

/-- The module with a filter of paths alone. -/
def narrowed (m : Module) (target : Bool) (paths : List String) : Module :=
  { m with target, filter := ⟨paths, [], none, false⟩ }

theorem mem_paths_iff {fs : List FileInfo} (h : m.walk w = .ok fs) :
    path ∈ m.paths w ↔ ∃ f ∈ fs, f.path = path := by
  rw [paths, h]
  exact List.mem_map

/-- What files a module has does not depend on what paths select. -/
theorem walk_narrowed {t : Bool} {ps : List String} (t' : Bool) (ps' : List String)
    {fs : List FileInfo} (h : (m.narrowed t ps).walk w = .ok fs) :
    ∃ fs', (m.narrowed t' ps').walk w = .ok fs' ∧
      (m.narrowed t' ps').paths w = (m.narrowed t ps).paths w := by
  obtain ⟨infos, hlist, hpaths⟩ := objects_of_walk h
  have hlist' : (m.narrowed t' ps').objects w = .ok infos := hlist
  have hkinds : ∀ info ∈ infos, ∃ kind, kindOf? info.path = some kind := by
    intro info hinfo
    have hmem : info.path ∈ fs.map FileInfo.path := hpaths ▸ List.mem_map_of_mem hinfo
    obtain ⟨f, hf, hpath⟩ := List.mem_map.1 hmem
    exact ⟨f.kind, hpath ▸ (spec_of_mem_walk h hf).1⟩
  obtain ⟨fs', hwalk'⟩ := exists_walk hlist' hkinds rfl
  obtain ⟨infos', hinfos', hpaths'⟩ := objects_of_walk hwalk'
  cases hlist'.symm.trans hinfos'
  refine ⟨fs', hwalk', ?_⟩
  rw [paths, paths, hwalk', h]
  exact hpaths'.trans hpaths.symm

theorem isTargetFile_narrowed {t : Bool} {ps : List String} {fs : List FileInfo}
    (h : (m.narrowed t ps).walk w = .ok fs) :
    (m.narrowed t ps).IsTargetFile w path ↔
      path ∈ (m.narrowed t ps).paths w ∧ t = true ∧ Selects ps path := by
  have hselected : ∀ f ∈ fs, f.isTarget = true ↔ t = true ∧ Selects ps f.path := by
    intro f hf
    have htarget := (spec_of_mem_walk h hf).2
    rw [isTargetPath_eq rfl] at htarget
    rw [← Except.ok.inj htarget]
    simp [narrowed, Selects, Path.coveredBy]
  rw [mem_paths_iff h]
  constructor
  · rintro ⟨fs', hwalk, f, hf, rfl, htarget⟩
    cases h.symm.trans hwalk
    exact ⟨⟨f, hf, rfl⟩, (hselected f hf).1 htarget⟩
  · rintro ⟨⟨f, hf, rfl⟩, htarget⟩
    exact ⟨fs, h, f, hf, rfl, (hselected f hf).2 htarget⟩

theorem hasTargetSchema_iff :
    m.HasTargetSchema w ↔ ∃ q, kindOf? q = some .schema ∧ m.IsTargetFile w q := by
  constructor
  · rintro ⟨fs, hwalk, f, hf, hkind, htarget⟩
    exact ⟨f.path, hkind ▸ (spec_of_mem_walk hwalk hf).1, fs, hwalk, f, hf, rfl, htarget⟩
  · rintro ⟨q, hkind, fs, hwalk, f, hf, rfl, htarget⟩
    have hkind' := (spec_of_mem_walk hwalk hf).1
    exact ⟨fs, hwalk, f, hf, Option.some.inj (hkind'.symm.trans hkind), htarget⟩

theorem IsTargetFile.target (h : m.IsTargetFile w path) : m.target = true := by
  obtain ⟨fs, hwalk, f, hf, _, hselected⟩ := h
  exact target_of_isTarget hwalk hf hselected

end Module

namespace ModuleSet.Build

open Schemata.Module (IsTargetFile Selects kindOf?)

variable {w w' : World}

/-! ### Declarations for one key -/

/-- Whether declarations are for one key and without excluded paths, one of them for a target and
all others without paths. -/
structure AreAdds (key : ModuleKey) (rs : List RemoteModule) : Prop where
  key : ∀ r ∈ rs, r.key = key
  excludes : ∀ r ∈ rs, r.excludes = []
  plain : ∀ r ∈ rs, r.target = false → r.paths = []
  target : ∃ r ∈ rs, r.target = true

def pathsOf (rs : List RemoteModule) : List String := rs.flatMap RemoteModule.paths

/-- Whether a declaration is for a target and selects by paths alone. -/
structure SelectsBy (paths : List String) (r : RemoteModule) : Prop where
  target : r.target = true
  paths : ∀ p, p ∈ r.paths ↔ p ∈ paths
  excludes : r.excludes = []

/-- Declarations for one key become one, which has the paths of all. -/
theorem gives_declareAll_merged {locals : List ModuleName} {known rs : List RemoteModule}
    {first : RemoteModule} (hlocals : first.key.name ∉ locals)
    (hknown : first.key.name ∉ (keysOf known).map ModuleKey.name) (hfirst : first.excludes = [])
    (hkey : ∀ r ∈ rs, r.key = first.key) (hexcludes : ∀ r ∈ rs, r.excludes = []) :
    ∃ q, q.key = first.key ∧ (q.target = true ↔ ∃ r ∈ first :: rs, r.target = true) ∧
      (∀ p, p ∈ q.paths ↔ p ∈ pathsOf (first :: rs)) ∧ q.excludes = [] ∧
      ∀ w, (declareAll locals (known ++ [first]) rs).Gives w (known ++ [q]) w := by
  induction rs generalizing first with
  | nil =>
    refine ⟨first, rfl, ?_, ?_, hfirst, fun w => Act.gives_pure.2 ⟨rfl, rfl⟩⟩
    · simp
    · simp [pathsOf]
  | cons r rs ih =>
    obtain ⟨hr, hkey⟩ := List.forall_mem_cons.1 hkey
    obtain ⟨hrex, hexcludes⟩ := List.forall_mem_cons.1 hexcludes
    have hmerged : (merged first r).key = first.key := rfl
    have hmergedEx : (merged first r).excludes = [] := by
      show sortedSet (first.excludes ++ r.excludes) = []
      rw [hfirst, hrex]
      rfl
    obtain ⟨q, hq, htarget, hpaths, hqex, hgives⟩ :=
      @ih (merged first r) hlocals hknown hmergedEx hkey hexcludes
    refine ⟨q, hq, htarget.trans ?_, fun p => (hpaths p).trans ?_, hqex, fun w => ?_⟩
    · simp [merged, or_assoc]
    · simp [pathsOf, merged, mem_sortedSet, or_assoc]
    · rw [declareAll, if_neg fun h => hlocals (hr ▸ List.contains_iff_mem.1 h)]
      refine Act.gives_bind.2 ⟨(known ++ [merged first r], false), w, ?_, hgives w⟩
      exact declare_again hr.symm (hr ▸ hknown)

/-! ### Declarations that differ in what they select -/

/-- Whether two declarations have one key and are the same, unless they are of a name: there they
select by paths of their own. -/
def Alike (name : ModuleName) (paths paths' : List String) (a b : RemoteModule) : Prop :=
  a.key = b.key ∧
    ((a.key.name = name ∧ SelectsBy paths a ∧ SelectsBy paths' b) ∨ a.key.name ≠ name ∧ a = b)

/-- A declaration that is no target and has no paths. -/
def bare (key : ModuleKey) : RemoteModule := ⟨key, false, [], []⟩

section Alike

variable {name : ModuleName} {paths paths' : List String} {locals : List ModuleName}

theorem SelectsBy.merged_bare {r : RemoteModule} (h : SelectsBy paths r) (key : ModuleKey) :
    SelectsBy paths (merged r (bare key)) := by
  constructor
  case target => exact Bool.or_eq_true_iff.2 (.inl h.target)
  case paths =>
    intro p
    simp [merged, bare, mem_sortedSet, h.paths]
  case excludes =>
    show sortedSet (r.excludes ++ []) = []
    rw [h.excludes]
    rfl

/-- A declaration of another name, or of a known key without paths, is added to both lists alike. -/
theorem declare_alike {r : RemoteModule} {known known' rs : List RemoteModule} {isNew : Bool}
    (hr : r.key.name = name → r = bare r.key ∧ name ∈ (keysOf known).map ModuleKey.name)
    (h : List.Forall₂ (Alike name paths paths') known known')
    (hdeclare : (declare r known).Gives w (rs, isNew) w') :
    ∃ rs', (declare r known').Gives w (rs', isNew) w' ∧
      List.Forall₂ (Alike name paths paths') rs rs' := by
  induction h generalizing rs with
  | nil =>
    obtain ⟨heq, rfl⟩ := Act.gives_pure.1 hdeclare
    cases heq
    have hother : r.key.name ≠ name := fun hname => absurd (hr hname).2 List.not_mem_nil
    exact ⟨[r], Act.gives_pure.2 ⟨rfl, rfl⟩, .cons ⟨rfl, .inr ⟨hother, rfl⟩⟩ .nil⟩
  | @cons a b known known' hab hrest ih =>
    obtain ⟨hkey, hsort⟩ := hab
    by_cases hname : a.key.name = r.key.name
    · obtain ⟨hcompare, rfl, rfl⟩ := (gives_declare_same hname).1 hdeclare
      rw [hkey] at hcompare
      refine ⟨merged b r :: known', (gives_declare_same (hkey ▸ hname)).2 ⟨hcompare, rfl, rfl⟩,
        .cons ⟨hkey, ?_⟩ hrest⟩
      rcases hsort with ⟨ha, hselects, hselects'⟩ | ⟨ha, rfl⟩
      · rw [(hr (hname.symm.trans ha)).1]
        exact .inl ⟨ha, hselects.merged_bare r.key, hselects'.merged_bare r.key⟩
      · exact .inr ⟨ha, rfl⟩
    · obtain ⟨rest, hgives, rfl⟩ := (gives_declare_other hname).1 hdeclare
      have hr' : r.key.name = name → r = bare r.key ∧ name ∈ (keysOf known).map ModuleKey.name :=
        fun h => (hr h).imp_right fun hmem =>
          (List.mem_cons.1 hmem).resolve_left fun heq => hname (heq.symm.trans h.symm)
      obtain ⟨rest', hgives', halike⟩ := ih hr' hgives
      exact ⟨b :: rest', (gives_declare_other (hkey ▸ hname)).2 ⟨rest', hgives', rfl⟩,
        .cons ⟨hkey, hsort⟩ halike⟩

/-- What is related while remote modules are fetched. -/
def AllAlike (name : ModuleName) (paths paths' : List String) (known known' : List RemoteModule) :
    Prop :=
  List.Forall₂ (Alike name paths paths') known known' ∧ name ∈ (keysOf known).map ModuleKey.name

theorem mem_names_of_gives_declare {r : RemoteModule} {known rs : List RemoteModule} {isNew : Bool}
    (h : (declare r known).Gives w (rs, isNew) w')
    (hname : name ∈ (keysOf known).map ModuleKey.name) :
    name ∈ (keysOf rs).map ModuleKey.name := by
  rw [(gives_declare h).1, List.map_append]
  exact List.mem_append_left _ hname

theorem keptByDeps_allAlike : KeptByDeps locals (AllAlike name paths paths') := by
  intro known known' deps
  induction deps generalizing known known' with
  | nil =>
    intro w rs keys w' hrelated h
    obtain ⟨heq, rfl⟩ := Act.gives_pure.1 h
    cases heq
    exact ⟨known', Act.gives_pure.2 ⟨rfl, rfl⟩, hrelated⟩
  | cons dep deps ih =>
    intro w rs keys w' hrelated h
    rw [declareDeps] at h ⊢
    split at h
    · rename_i hlocal
      rw [if_pos hlocal]
      exact ih _ _ _ _ _ _ hrelated h
    · rename_i hlocal
      obtain ⟨⟨rs₁, isNew⟩, w₁, hdeclare, h⟩ := Act.gives_bind.1 h
      obtain ⟨⟨rs₂, keys₂⟩, w₂, hrest, h⟩ := Act.gives_bind.1 h
      obtain ⟨heq, rfl⟩ := Act.gives_pure.1 h
      cases heq
      obtain ⟨rs₁', hdeclare', halike⟩ :=
        declare_alike (r := bare dep) (fun _ => ⟨rfl, hrelated.2⟩) hrelated.1 hdeclare
      have hnamed := mem_names_of_gives_declare hdeclare hrelated.2
      obtain ⟨rs', hrest', hrelated'⟩ := ih _ _ _ _ _ _ ⟨halike, hnamed⟩ hrest
      rw [if_neg hlocal]
      refine ⟨rs', Act.gives_bind.2 ⟨_, _, hdeclare', ?_⟩, hrelated'⟩
      exact Act.gives_bind.2 ⟨_, _, hrest', Act.gives_pure.2 ⟨rfl, rfl⟩⟩

theorem declareAll_alike {after known known' rs : List RemoteModule}
    (hafter : ∀ r ∈ after, r.key.name ≠ name) (h : AllAlike name paths paths' known known')
    (hdeclare : (declareAll locals known after).Gives w rs w') :
    ∃ rs', (declareAll locals known' after).Gives w rs' w' ∧ AllAlike name paths paths' rs rs' := by
  induction after generalizing known known' w with
  | nil =>
    obtain ⟨rfl, rfl⟩ := Act.gives_pure.1 hdeclare
    exact ⟨known', Act.gives_pure.2 ⟨rfl, rfl⟩, h⟩
  | cons r after ih =>
    obtain ⟨hr, hafter⟩ := List.forall_mem_cons.1 hafter
    rw [declareAll] at hdeclare ⊢
    split at hdeclare
    · rename_i hlocal
      rw [if_pos hlocal]
      exact ih hafter h hdeclare
    · rename_i hlocal
      obtain ⟨⟨rs₁, isNew⟩, w₁, hfirst, hrest⟩ := Act.gives_bind.1 hdeclare
      obtain ⟨rs₁', hfirst', halike⟩ := declare_alike (fun hname => absurd hname hr) h.1 hfirst
      have hnamed := mem_names_of_gives_declare hfirst h.2
      obtain ⟨rs', hrest', hrelated⟩ := ih hafter ⟨halike, hnamed⟩ hrest
      rw [if_neg hlocal]
      exact ⟨rs', Act.gives_bind.2 ⟨_, _, hfirst', hrest'⟩, hrelated⟩

end Alike

/-! ### Sets of declarations that differ in what they select -/

/-- Declarations for one key become one at the end, which selects by the paths of all. -/
theorem gives_declareAll_adds {locals : List ModuleName} {known rs : List RemoteModule}
    {key : ModuleKey} (hadds : AreAdds key rs) (hlocals : key.name ∉ locals)
    (hknown : key.name ∉ (keysOf known).map ModuleKey.name) :
    ∃ q, q.key = key ∧ SelectsBy (pathsOf rs) q ∧
      ∀ w, (declareAll locals known rs).Gives w (known ++ [q]) w := by
  cases rs with
  | nil =>
    obtain ⟨_, hr, _⟩ := hadds.target
    exact absurd hr List.not_mem_nil
  | cons first rs =>
    obtain ⟨rfl, hkey⟩ := List.forall_mem_cons.1 hadds.key
    obtain ⟨hfirst, hexcludes⟩ := List.forall_mem_cons.1 hadds.excludes
    obtain ⟨q, hq, htarget, hpaths, hqex, hgives⟩ :=
      gives_declareAll_merged hlocals hknown hfirst hkey hexcludes
    refine ⟨q, hq, ⟨htarget.2 hadds.target, hpaths, hqex⟩, fun w => ?_⟩
    rw [declareAll, if_neg fun h => hlocals (List.contains_iff_mem.1 h)]
    exact Act.gives_bind.2 ⟨_, w, declare_new hknown, hgives w⟩

section Gathered

variable {key : ModuleKey} {before after rs rs' : List RemoteModule}

/-- Other declarations for a key, at the same place among others, differ in what they select. -/
theorem declareAll_adds {locals : List ModuleName} {declared : List RemoteModule}
    (hadds : AreAdds key rs) (hadds' : AreAdds key rs') (hlocals : key.name ∉ locals)
    (hbefore : ∀ r ∈ before, r.key.name ≠ key.name) (hafter : ∀ r ∈ after, r.key.name ≠ key.name)
    (h : (declareAll locals [] (before ++ rs ++ after)).Gives w declared w') :
    ∃ declared', (declareAll locals [] (before ++ rs' ++ after)).Gives w declared' w' ∧
      AllAlike key.name (pathsOf rs) (pathsOf rs') declared declared' := by
  rw [declareAll_append, declareAll_append] at h
  obtain ⟨known₁, w₁, h, hlast⟩ := Act.gives_bind.1 h
  obtain ⟨known, w₂, hfirst, hadded⟩ := Act.gives_bind.1 h
  have hnone : Apart locals (keysOf []) := ⟨.nil, fun _ hk => absurd hk List.not_mem_nil⟩
  have hknown : key.name ∉ (keysOf known).map ModuleKey.name := by
    intro hmem
    obtain ⟨k, hk, hname⟩ := List.mem_map.1 hmem
    obtain ⟨_, _, _, hnew⟩ := gives_declareAll hnone hfirst
    obtain ⟨r, hr, rfl⟩ := (hnew k hk).resolve_left List.not_mem_nil
    exact hbefore r hr hname
  obtain ⟨q, rfl, hq, hgives⟩ := gives_declareAll_adds hadds hlocals hknown
  obtain ⟨q', hkey, hq', hgives'⟩ := gives_declareAll_adds hadds' hlocals hknown
  cases (hgives w₂).symm.trans hadded
  have hself : ∀ r ∈ known, Alike q.key.name (pathsOf rs) (pathsOf rs') r r := fun r hr =>
    ⟨rfl, .inr ⟨fun hname => hknown (hname ▸ List.mem_map_of_mem (List.mem_map_of_mem hr)), rfl⟩⟩
  have halike : AllAlike q.key.name (pathsOf rs) (pathsOf rs') (known ++ [q]) (known ++ [q']) := by
    refine ⟨List.rel_append (List.forall₂_same.2 hself) (.cons ?_ .nil), ?_⟩
    · exact ⟨hkey.symm, .inl ⟨rfl, hq, hq'⟩⟩
    · simp [keysOf]
  obtain ⟨declared', hlast', hrelated⟩ := declareAll_alike hafter halike hlast
  refine ⟨declared', ?_, hrelated⟩
  rw [declareAll_append, declareAll_append]
  exact Act.gives_bind.2 ⟨_, _, Act.gives_bind.2 ⟨_, _, hfirst, hgives' _⟩, hlast'⟩

/-- What is gathered with other declarations for a key is the same, apart from what is selected. -/
theorem gather_adds {provider : Provider} {rounds : Nat} {locals : List LocalModule} {f : Fetched}
    (hadds : AreAdds key rs) (hadds' : AreAdds key rs') (hlocals : key.name ∉ namesOf locals)
    (hbefore : ∀ r ∈ before, r.key.name ≠ key.name) (hafter : ∀ r ∈ after, r.key.name ≠ key.name)
    (h : (gather provider rounds locals (before ++ rs ++ after)).Gives w f w') :
    ∃ declared, (gather provider rounds locals (before ++ rs' ++ after)).Gives w
        { f with declared } w' ∧
      List.Forall₂ (Alike key.name (pathsOf rs) (pathsOf rs')) f.declared declared := by
  rw [gather] at h
  obtain ⟨_, w₁, hlive, h⟩ := Act.gives_bind.1 h
  obtain ⟨_, w₂, hchecked, h⟩ := Act.gives_bind.1 h
  obtain ⟨declared, w₃, hdeclare, hfetch⟩ := Act.gives_bind.1 h
  obtain ⟨declared', hdeclare', hrelated⟩ :=
    declareAll_adds hadds hadds' hlocals hbefore hafter hdeclare
  have hkept : KeptByDeps (namesOf locals) (AllAlike key.name (pathsOf rs) (pathsOf rs')) :=
    keptByDeps_allAlike
  obtain ⟨done, hfetch', hdone⟩ := hkept.fetch (f := ⟨declared, [], []⟩) hrelated hfetch
  have hkeys : declared.map RemoteModule.key = declared'.map RemoteModule.key :=
    map_eq_of_forall₂ hrelated.1 fun _ _ h => h.1
  rw [hkeys] at hfetch'
  refine ⟨done, ?_, hdone.1⟩
  rw [gather]
  refine Act.gives_bind.2 ⟨_, _, hlive, Act.gives_bind.2 ⟨_, _, hchecked, ?_⟩⟩
  exact Act.gives_bind.2 ⟨declared', _, hdeclare', hfetch'⟩

end Gathered

/-! ### Modules that differ in what is selected -/

/-- A module that was fetched, as a target of which nothing is held back. -/
def fetchedModule (key : ModuleKey) (digest : Except Module.Error Digest)
    (files : Storage.Bucket) : Module where
  bucketId := ""
  name := some key.name
  commit := some key.commit
  label := none
  target := true
  origin := .fetched key digest
  files := files
  filter := .all
  v1Config := none
  v1Lock := none

theorem gives_remoteModule_narrowed {f : Fetched} {r : RemoteModule} {m : Module}
    (hexcludes : r.excludes = []) :
    (remoteModule f r).Gives w m w' ↔
      ∃ d c d' w₁ digest, f.deliveries.find? (fun d => d.key.name = r.key.name) = some d ∧
        d.contents.Gives w (c, d') w₁ ∧
        Act.Gives (ExceptT.lift r.key.resolveDigest.run) w₁ digest w' ∧
        untargetIfEmpty w' ((fetchedModule r.key digest c.files).narrowed r.target r.paths) =
          .ok m := by
  rw [remoteModule]
  constructor
  · intro h
    split at h
    · exact absurd h Act.not_gives_throw
    · rename_i d hd
      obtain ⟨⟨c, d'⟩, w₁, hcontents, h⟩ := Act.gives_bind.1 h
      obtain ⟨digest, w₂, hdigest, h⟩ := Act.gives_bind.1 h
      obtain ⟨hm, rfl⟩ := Act.gives_ofWorld.1 h
      rw [hexcludes] at hm
      exact ⟨d, c, d', w₁, digest, hd, hcontents, hdigest, hm⟩
  · rintro ⟨d, c, d', w₁, digest, hd, hcontents, hdigest, hm⟩
    rw [hd]
    refine Act.gives_bind.2 ⟨_, _, hcontents, Act.gives_bind.2 ⟨_, _, hdigest, ?_⟩⟩
    refine Act.gives_ofWorld.2 ⟨?_, rfl⟩
    rw [hexcludes]
    exact hm

/-- Whether a module is another one narrowed to what paths select, and kept from being a target if
that has no schema file. -/
structure NarrowedTo (w : World) (paths : List String) (base m : Module) : Prop where
  narrowed : ∃ t ps, m = base.narrowed t ps ∧ ∀ p, p ∈ ps ↔ p ∈ paths
  keeps : Keeps w true m

section Narrowed

variable {paths paths' : List String} {base m : Module} {path : String}

theorem NarrowedTo.of_cells {cells : List (Memo Module.Error Digest)}
    (hw : w' = { w with cells }) (h : NarrowedTo w paths base m) : NarrowedTo w' paths base m :=
  ⟨h.narrowed, keeps_of_cells hw h.keeps⟩

theorem narrowedTo_of_untargetIfEmpty {ps : List String} (hps : ∀ p, p ∈ ps ↔ p ∈ paths)
    (h : untargetIfEmpty w (base.narrowed true ps) = .ok m) : NarrowedTo w paths base m := by
  refine ⟨?_, keeps_of_untargetIfEmpty h⟩
  rcases untargetIfEmpty_eq_ok h with rfl | ⟨rfl, _⟩
  · exact ⟨true, ps, rfl, hps⟩
  · exact ⟨false, ps, rfl, hps⟩

/-- A module whose files are there can be narrowed to any paths. -/
theorem exists_untargetIfEmpty {t : Bool} {ps : List String} (ps' : List String)
    {fs : List FileInfo} (h : (base.narrowed t ps).walk w = .ok fs) :
    ∃ m, untargetIfEmpty w (base.narrowed true ps') = .ok m := by
  obtain ⟨fs', hwalk, _⟩ := Module.walk_narrowed true ps' h
  have hschemas : (base.narrowed true ps').targetSchemas w =
      .ok (fs'.filter fun f => f.isTarget && f.kind = .schema) := bind_eq_ok.2 ⟨fs', hwalk, rfl⟩
  unfold untargetIfEmpty
  by_cases hactive : ((base.narrowed true ps').target &&
      (base.narrowed true ps').filter.isActive) = true
  · rw [if_pos hactive, hschemas]
    by_cases hempty : (fs'.filter fun f => f.isTarget && f.kind = .schema).isEmpty = true
    · exact ⟨base.narrowed false ps', bind_eq_ok.2 ⟨_, rfl, if_pos hempty⟩⟩
    · exact ⟨base.narrowed true ps', bind_eq_ok.2 ⟨_, rfl, if_neg hempty⟩⟩
  · rw [if_neg hactive]
    exact ⟨_, rfl⟩

/-- Which files of a narrowed module are targets. -/
theorem NarrowedTo.isTargetFile_iff (h : NarrowedTo w paths base m)
    (hwalk : ∃ fs, m.walk w = .ok fs) :
    m.IsTargetFile w path ↔ path ∈ (base.narrowed true []).paths w ∧ Selects paths path ∧
      (paths = [] ∨ ∃ q ∈ (base.narrowed true []).paths w,
        kindOf? q = some .schema ∧ Selects paths q) := by
  obtain ⟨⟨t, ps, rfl, hps⟩, hkeeps⟩ := h
  obtain ⟨fs, hwalk⟩ := hwalk
  obtain ⟨_, hwalk₀, hpaths⟩ := Module.walk_narrowed true [] hwalk
  obtain ⟨_, hwalk', hpaths'⟩ := Module.walk_narrowed true ps hwalk
  have hnil : ps = [] ↔ paths = [] := by
    simp only [List.eq_nil_iff_forall_not_mem, hps]
  have hactive : (base.narrowed t ps).filter.isActive = true ↔ ps ≠ [] := by
    simp [Module.narrowed, Module.Filter.isActive]
  have hschema : (base.narrowed true ps).HasTargetSchema w ↔
      ∃ q ∈ (base.narrowed true []).paths w, kindOf? q = some .schema ∧ Selects paths q := by
    rw [Module.hasTargetSchema_iff, hpaths, ← hpaths']
    refine exists_congr fun q => ?_
    rw [Module.isTargetFile_narrowed hwalk', Module.selects_congr hps, and_iff_right rfl]
    exact and_left_comm
  have htarget : t = true ↔ paths = [] ∨
      ∃ q ∈ (base.narrowed true []).paths w, kindOf? q = some .schema ∧ Selects paths q := by
    rw [← hschema, ← hnil, or_iff_not_imp_left]
    refine hkeeps.trans ((and_iff_right rfl).trans ?_)
    rw [hactive]
    rfl
  rw [Module.isTargetFile_narrowed hwalk, Module.selects_congr hps, htarget, hpaths]
  exact and_congr_right fun _ => and_comm

/-- Whether two modules are the same, unless they are of a name: there they are narrowed to paths of
their own. -/
def AlikeModules (w : World) (name : ModuleName) (paths paths' : List String) (m m' : Module) :
    Prop :=
  (m.name = some name ∧ ∃ base, NarrowedTo w paths base m ∧ NarrowedTo w paths' base m') ∨
    m.name ≠ some name ∧ m = m'

variable {name : ModuleName} {f : Fetched}

theorem AlikeModules.name_eq {m' : Module} (h : AlikeModules w name paths paths' m m') :
    m'.name = m.name := by
  rcases h with ⟨_, base, ⟨⟨_, _, rfl, _⟩, _⟩, ⟨_, _, rfl, _⟩, _⟩ | ⟨_, rfl⟩
  · rfl
  · rfl

theorem AlikeModules.id_eq {m' : Module} (h : AlikeModules w name paths paths' m m') :
    m'.id = m.id := by
  rcases h with ⟨_, base, ⟨⟨_, _, rfl, _⟩, _⟩, ⟨_, _, rfl, _⟩, _⟩ | ⟨_, rfl⟩
  · rfl
  · rfl

theorem remoteModule_alike {a b : RemoteModule} (hab : Alike name paths paths' a b)
    (h : (remoteModule f a).Gives w m w')
    (hwalk : m.name = some name → ∃ fs, m.walk w' = .ok fs) :
    ∃ m', (remoteModule f b).Gives w m' w' ∧ AlikeModules w' name paths paths' m m' := by
  have hm := (gives_remoteModule h).name
  obtain ⟨hkey, ⟨hname, ha, hb⟩ | ⟨hname, rfl⟩⟩ := hab
  · rw [hname] at hm
    obtain ⟨d, c, d', w₁, digest, hd, hcontents, hdigest, hmade⟩ :=
      (gives_remoteModule_narrowed ha.excludes).1 h
    rw [ha.target] at hmade
    have hnarrowed := narrowedTo_of_untargetIfEmpty ha.paths hmade
    obtain ⟨t, ps, rfl, _⟩ := hnarrowed.narrowed
    obtain ⟨fs, hwalk⟩ := hwalk hm
    obtain ⟨m', hmade'⟩ := exists_untargetIfEmpty b.paths hwalk
    refine ⟨m', ?_, .inl ⟨hm, _, hnarrowed, narrowedTo_of_untargetIfEmpty hb.paths hmade'⟩⟩
    refine (gives_remoteModule_narrowed hb.excludes).2 ⟨d, c, d', w₁, digest, ?_⟩
    rw [← hkey, hb.target]
    exact ⟨hd, hcontents, hdigest, hmade'⟩
  · exact ⟨m, h, .inr ⟨fun heq => hname (Option.some.inj (hm.symm.trans heq)), rfl⟩⟩

theorem remoteModules_alike {declared declared' : List RemoteModule} {ms : List Module}
    (halike : List.Forall₂ (Alike name paths paths') declared declared')
    (h : (declared.mapM (remoteModule f)).Gives w ms w')
    (hwalk : ∀ m ∈ ms, m.name = some name → ∃ fs, m.walk w' = .ok fs) :
    ∃ ms', (declared'.mapM (remoteModule f)).Gives w ms' w' ∧
      List.Forall₂ (AlikeModules w' name paths paths') ms ms' := by
  induction halike generalizing w ms with
  | nil =>
    obtain ⟨rfl, rfl⟩ := Act.gives_pure.1 h
    exact ⟨[], Act.gives_pure.2 ⟨rfl, rfl⟩, .nil⟩
  | @cons a b declared declared' hab _ ih =>
    rw [List.mapM_cons] at h
    obtain ⟨m, w₁, hm, h⟩ := Act.gives_bind.1 h
    obtain ⟨ms, w₂, hms, h⟩ := Act.gives_bind.1 h
    obtain ⟨rfl, rfl⟩ := Act.gives_pure.1 h
    obtain ⟨hfirst, hrest⟩ := List.forall_mem_cons.1 hwalk
    -- the later modules change the cells alone, which the files do not depend on
    obtain ⟨cells, hcells⟩ := ((Act.quiet_mapM (quiet_remoteModule f) declared).gives hms).2
    have hthere : m.name = some name → ∃ fs, m.walk w₁ = .ok fs := fun hname => by
      obtain ⟨fs, hfs⟩ := hfirst hname
      rw [hcells] at hfs
      exact ⟨fs, hfs⟩
    obtain ⟨m', hm', hmm'⟩ := remoteModule_alike hab hm hthere
    obtain ⟨ms', hms', hall⟩ := ih hms hrest
    refine ⟨m' :: ms', ?_, .cons ?_ hall⟩
    · rw [List.mapM_cons]
      refine Act.gives_bind.2 ⟨_, _, hm', Act.gives_bind.2 ⟨_, _, hms', ?_⟩⟩
      exact Act.gives_pure.2 ⟨rfl, rfl⟩
    · refine hmm'.imp_left fun ⟨hname, base, hnarrowed, hnarrowed'⟩ => ?_
      exact ⟨hname, base, hnarrowed.of_cells hcells, hnarrowed'.of_cells hcells⟩

end Narrowed

/-! ### Target files of a set -/

section Remade

variable {provider : Provider} {rounds : Nat} {locals : List LocalModule} {key : ModuleKey}
  {before after rs rs' : List RemoteModule} {s : ModuleSet} {m : Module}

/-- With other declarations for a key, its module is made alike and narrowed to their paths; the set
is built if it is a target. -/
theorem exists_remade (hadds : AreAdds key rs) (hadds' : AreAdds key rs')
    (hlocals : key.name ∉ namesOf locals) (hbefore : ∀ r ∈ before, r.key.name ≠ key.name)
    (hafter : ∀ r ∈ after, r.key.name ≠ key.name)
    (h : (ModuleSet.build provider rounds locals (before ++ rs ++ after)).Gives w s w')
    (hm : m ∈ s.modules) (hname : m.name = some key.name) (hwalk : ∃ fs, m.walk w' = .ok fs) :
    ∃ base m', NarrowedTo w' (pathsOf rs) base m ∧ NarrowedTo w' (pathsOf rs') base m' ∧
      (m'.target = true → ∃ s',
        (ModuleSet.build provider rounds locals (before ++ rs' ++ after)).Gives w s' w' ∧
          m' ∈ s'.modules ∧ m'.name = some key.name) := by
  obtain ⟨f, w₁, hgather, hfinish⟩ := Act.gives_bind.1 h
  obtain ⟨ls, ms, w₂, hls, hms, hmake⟩ := finish_steps hfinish
  obtain ⟨rfl, hids⟩ := make_eq_ok hmake
  obtain ⟨declared, hgather', halike⟩ := gather_adds hadds hadds' hlocals hbefore hafter hgather
  have hwalks : ∀ n ∈ ms, n.name = some key.name → ∃ fs, n.walk w' = .ok fs := fun n hn hname' => by
    rw [eq_of_name hids hm (List.mem_append_right _ hn) hname hname']
    exact hwalk
  obtain ⟨ms', hms', hall⟩ := remoteModules_alike halike hms hwalks
  have hlocal : m ∉ ls := fun hmem => by
    have hmade := (Act.gives_mapM hls).imp fun _ _ ⟨_, _, hm⟩ => gives_localModule hm
    refine hlocals ?_
    rw [← (of_localModules hmade).1]
    exact List.mem_filterMap.2 ⟨m, hmem, hname⟩
  have hremote : m ∈ ms := (List.mem_append.1 hm).resolve_left hlocal
  obtain ⟨m', hm', hmm'⟩ := exists_of_forall₂ hall.flip hremote
  have hname' : m'.name = some key.name := (AlikeModules.name_eq hmm').trans hname
  rcases hmm' with ⟨_, base, hnarrowed, hnarrowed'⟩ | ⟨hother, _⟩
  · refine ⟨base, m', hnarrowed, hnarrowed', fun htarget => ?_⟩
    have heq : ms'.map Module.id = ms.map Module.id :=
      map_eq_of_forall₂ hall.flip fun _ _ h => AlikeModules.id_eq h
    have hnodup : ((ls ++ ms').map Module.id).Nodup := by
      rw [List.map_append, heq, ← List.map_append]
      exact hids
    have hmade : Made provider rounds locals (before ++ rs' ++ after) w
        (targetsOf locals { f with declared }) (ls ++ ms') w' :=
      ⟨_, w₁, ls, w₂, ms', hgather', hls, hms', rfl, rfl⟩
    have hmem : m' ∈ ls ++ ms' := List.mem_append_right _ hm'
    have hkept : ¬ Lost (targetsOf locals { f with declared }) (ls ++ ms') := fun hlost => by
      rw [hlost.2 m' hmem] at htarget
      cases htarget
    refine ⟨.ofModules (ls ++ ms'), ?_, hmem, hname'⟩
    exact (hmade.run_of_not_lost hkept).trans (by rw [make_of_nodup hnodup])
  · exact absurd hname hother

end Remade

end ModuleSet.Build

end Schemata

import Schemata.Proofs.Module.Reading
import Schemata.Proofs.Registry.Fetching

/-!
# Targets without target files

While a set is built, a target whose filter leaves none of its schema files is made no target; one
without a filter stays a target whatever it holds. If that leaves no target although there was to be
one, the build fails. A declaration that a local module stands in for does not count.
-/

namespace Schemata

/-! ### Schema files that are targets -/

namespace Module

variable {w : World} {m : Module}

/-- Whether the files of a module show a schema file. -/
def ShowsSchema (w : World) (m : Module) : Prop :=
  ∃ fs, m.walk w = .ok fs ∧ ∃ f ∈ fs, f.kind = .schema

/-- Whether the files of a module show a schema file that is a target. -/
def HasTargetSchema (w : World) (m : Module) : Prop :=
  ∃ fs, m.walk w = .ok fs ∧ ∃ f ∈ fs, f.kind = .schema ∧ f.isTarget = true

/-- Whether nothing narrows a module and no schema file shows. -/
structure IsBare (w : World) (m : Module) : Prop where
  whole : m.filter.isActive = false
  schemaless : ¬ m.ShowsSchema w

/-- The module as a target. -/
def asTarget (m : Module) : Module := { m with target := true }

theorem asTarget_eq_self (h : m.target = true) : m.asTarget = m := by
  cases m
  cases h
  rfl

theorem targetSchemas_ne_nil_iff {schemas : List FileInfo} (h : m.targetSchemas w = .ok schemas) :
    schemas ≠ [] ↔ m.HasTargetSchema w := by
  obtain ⟨fs, hwalk, h⟩ := bind_eq_ok.1 h
  cases h
  constructor
  · intro hsome
    obtain ⟨f, hf⟩ := List.exists_mem_of_ne_nil _ hsome
    obtain ⟨hf, hselected⟩ := List.mem_filter.1 hf
    obtain ⟨htarget, hkind⟩ := Bool.and_eq_true_iff.1 hselected
    exact ⟨fs, hwalk, f, hf, of_decide_eq_true hkind, htarget⟩
  · rintro ⟨fs', hwalk', f, hf, hkind, htarget⟩
    cases hwalk.symm.trans hwalk'
    refine List.ne_nil_of_mem (List.mem_filter.2 ⟨hf, ?_⟩)
    rw [htarget, hkind]
    rfl

/-- Of a target that nothing narrows every file is a target. -/
theorem isTarget_of_mem_walk (htarget : m.target = true) (hwhole : m.filter.isActive = false)
    {fs : List FileInfo} (h : m.walk w = .ok fs) {f : FileInfo} (hf : f ∈ fs) :
    f.isTarget = true := by
  have hselected := (spec_of_mem_walk h hf).2
  simp only [Filter.isActive, Bool.or_eq_false_iff, Bool.not_eq_false', List.isEmpty_iff,
    Option.isSome_eq_false_iff, Option.isNone_iff_eq_none] at hwhole
  obtain ⟨⟨hpaths, hexcludes⟩, hnone⟩ := hwhole
  have hexcluded : Path.coveredBy [] f.path = false := List.any_eq_false.2 fun _ _ => Bool.false_ne_true
  rw [isTargetPath_eq hnone, htarget, hexcludes, hpaths, hexcluded] at hselected
  exact (Except.ok.inj hselected).symm

theorem hasTargetSchema_of_whole (htarget : m.target = true) (hwhole : m.filter.isActive = false)
    (h : m.ShowsSchema w) : m.HasTargetSchema w := by
  obtain ⟨fs, hwalk, f, hf, hkind⟩ := h
  exact ⟨fs, hwalk, f, hf, hkind, isTarget_of_mem_walk htarget hwhole hwalk hf⟩

theorem HasTargetSchema.target (h : m.HasTargetSchema w) : m.target = true := by
  obtain ⟨fs, hwalk, f, hf, _, hselected⟩ := h
  exact target_of_isTarget hwalk hf hselected

end Module

namespace ModuleSet.Build

open Schemata.Module (HasTargetSchema IsBare ShowsSchema)

variable {w w' : World}

/-! ### Declarations that want a target -/

/-- Whether a remote module of a name was declared as a target. -/
def TargetNamed (rs : List RemoteModule) (name : ModuleName) : Prop :=
  ∃ r ∈ rs, r.key.name = name ∧ r.target = true

theorem targetNamed_nil {name : ModuleName} : ¬ TargetNamed [] name :=
  fun ⟨_, hr, _⟩ => absurd hr List.not_mem_nil

theorem targetNamed_cons {r : RemoteModule} {rs : List RemoteModule} {name : ModuleName} :
    TargetNamed (r :: rs) name ↔ (r.key.name = name ∧ r.target = true) ∨ TargetNamed rs name := by
  simp only [TargetNamed, List.mem_cons, exists_eq_or_imp]

theorem targetNamed_singleton {r : RemoteModule} {name : ModuleName} :
    TargetNamed [r] name ↔ r.key.name = name ∧ r.target = true := by
  simp only [targetNamed_cons, targetNamed_nil, or_false]

/-- A declaration is a target if any of its name was. -/
theorem targetNamed_of_gives_declare {r : RemoteModule} {known rs : List RemoteModule}
    {isNew : Bool} (h : (declare r known).Gives w (rs, isNew) w') {name : ModuleName} :
    TargetNamed rs name ↔ TargetNamed known name ∨ TargetNamed [r] name := by
  induction known generalizing w rs isNew w' with
  | nil =>
    rw [declare] at h
    obtain ⟨heq, _⟩ := Act.gives_pure.1 h
    cases heq
    rw [or_iff_right targetNamed_nil]
  | cons first known ih =>
    rw [targetNamed_cons]
    by_cases hname : first.key.name = r.key.name
    · -- merging keeps the first key, and the target of either
      obtain ⟨_, rfl, _⟩ := (gives_declare_same hname).1 h
      have htarget : (merged first r).target = true ↔ first.target = true ∨ r.target = true :=
        Bool.or_eq_true_iff
      have hkey : (merged first r).key = first.key := rfl
      rw [targetNamed_cons, targetNamed_singleton, hkey, htarget, ← hname]
      tauto
    · obtain ⟨rest, hrest, rfl⟩ := (gives_declare_other hname).1 h
      rw [targetNamed_cons, ih hrest, or_assoc]

section Names

variable {locals : List ModuleName} {known rs : List RemoteModule} {name : ModuleName}

theorem targetNamed_of_gives_declareAll {remotes : List RemoteModule}
    (h : (declareAll locals known remotes).Gives w rs w') :
    TargetNamed rs name ↔ TargetNamed known name ∨ name ∉ locals ∧ TargetNamed remotes name := by
  induction remotes generalizing known w with
  | nil =>
    rw [declareAll] at h
    obtain ⟨rfl, _⟩ := Act.gives_pure.1 h
    rw [or_iff_left fun hname => targetNamed_nil hname.2]
  | cons r remotes ih =>
    rw [declareAll] at h
    rw [targetNamed_cons]
    split at h
    · rename_i hstands
      rw [ih h]
      refine or_congr_right (and_congr_right fun hlocal => ?_)
      rw [or_iff_right]
      rintro ⟨rfl, _⟩
      exact hlocal (List.contains_iff_mem.1 hstands)
    · rename_i hremote
      obtain ⟨⟨rs₁, isNew⟩, w₁, hdeclare, hrest⟩ := Act.gives_bind.1 h
      have hlocal : r.key.name = name → name ∉ locals := by
        rintro rfl hmem
        exact hremote (List.contains_iff_mem.2 hmem)
      rw [ih hrest, targetNamed_of_gives_declare hdeclare, targetNamed_singleton]
      tauto

/-- What is depended on is no target for that. -/
theorem targetNamed_of_gives_declareDeps {deps keys : List ModuleKey}
    (h : (declareDeps locals known deps).Gives w (rs, keys) w') :
    TargetNamed rs name ↔ TargetNamed known name := by
  induction deps generalizing known w rs keys w' with
  | nil =>
    rw [declareDeps] at h
    obtain ⟨heq, _⟩ := Act.gives_pure.1 h
    cases heq
    exact Iff.rfl
  | cons dep deps ih =>
    rw [declareDeps] at h
    split at h
    · exact ih h
    · obtain ⟨⟨rs₁, isNew⟩, w₁, hdeclare, h⟩ := Act.gives_bind.1 h
      obtain ⟨⟨rs₂, keys₂⟩, w₂, hrest, h⟩ := Act.gives_bind.1 h
      obtain ⟨heq, _⟩ := Act.gives_pure.1 h
      cases heq
      rw [ih hrest, targetNamed_of_gives_declare hdeclare, or_iff_left]
      exact fun hdep => Bool.false_ne_true (targetNamed_singleton.1 hdep).2

theorem targetNamed_of_gives_fetch {provider : Provider} {rounds : Nat} {keys : List ModuleKey}
    {f f' : Fetched} (h : (fetch provider locals rounds keys f).Gives w f' w') :
    TargetNamed f'.declared name ↔ TargetNamed f.declared name :=
  declared_of_gives_fetch
    (fun _ _ _ _ _ _ hknown hdeps => (targetNamed_of_gives_declareDeps hdeps).trans hknown)
    Iff.rfl h

end Names

/-- What is gathered has a target of a name just if a remote module of that name was declared as one
and no local module stands in for it. -/
theorem targetNamed_of_gives_gather {provider : Provider} {rounds : Nat} {locals : List LocalModule}
    {remotes : List RemoteModule} {f : Fetched} {name : ModuleName}
    (h : (gather provider rounds locals remotes).Gives w f w') :
    TargetNamed f.declared name ↔ name ∉ namesOf locals ∧ TargetNamed remotes name := by
  rw [gather] at h
  obtain ⟨_, w₁, _, h⟩ := Act.gives_bind.1 h
  obtain ⟨_, w₂, _, h⟩ := Act.gives_bind.1 h
  obtain ⟨declared, w₃, hdeclare, hfetch⟩ := Act.gives_bind.1 h
  refine (targetNamed_of_gives_fetch hfetch).trans ?_
  exact (targetNamed_of_gives_declareAll hdeclare).trans (or_iff_right targetNamed_nil)

/-- Whether declarations ask for a target: a local module, or a remote one that no local module
stands in for. -/
def WantsTarget (locals : List LocalModule) (remotes : List RemoteModule) : Prop :=
  (∃ l ∈ locals, l.target = true) ∨
    ∃ r ∈ remotes, r.target = true ∧ r.key.name ∉ namesOf locals

/-- Which modules are to be targets, in the order in which they are made. -/
def targetsOf (locals : List LocalModule) (f : Fetched) : List Bool :=
  locals.map LocalModule.target ++ f.declared.map RemoteModule.target

section Wanted

variable {provider : Provider} {rounds : Nat} {locals : List LocalModule}
  {remotes : List RemoteModule} {f : Fetched}

theorem any_targetsOf : (targetsOf locals f).any id =
    (locals.any LocalModule.target || f.declared.any RemoteModule.target) := by
  rw [targetsOf, List.any_append, List.any_map, List.any_map]
  rfl

theorem true_mem_targetsOf_iff (hgather : (gather provider rounds locals remotes).Gives w f w') :
    true ∈ targetsOf locals f ↔ WantsTarget locals remotes := by
  rw [targetsOf, List.mem_append, List.mem_map, List.mem_map]
  refine or_congr_right ⟨?_, ?_⟩
  · rintro ⟨r, hr, htarget⟩
    have hnamed : TargetNamed f.declared r.key.name := ⟨r, hr, rfl, htarget⟩
    obtain ⟨hlocal, q, hq, hname, hwanted⟩ := (targetNamed_of_gives_gather hgather).1 hnamed
    exact ⟨q, hq, hwanted, hname ▸ hlocal⟩
  · rintro ⟨r, hr, htarget, hlocal⟩
    have hnamed : TargetNamed remotes r.key.name := ⟨r, hr, rfl, htarget⟩
    obtain ⟨q, hq, _, hwanted⟩ := (targetNamed_of_gives_gather hgather).2 ⟨hlocal, hnamed⟩
    exact ⟨q, hq, hwanted⟩

end Wanted

/-! ### Targets that remain -/

/-- Whether a module is a target just if it was to be one and, where a filter narrows it, the filter
leaves a schema file. -/
def Keeps (w : World) (wanted : Bool) (m : Module) : Prop :=
  m.target = true ↔ wanted = true ∧ (m.filter.isActive = true → m.asTarget.HasTargetSchema w)

/-- What remains a target has nothing to do with cells. -/
theorem keeps_of_cells {target : Bool} {m : Module} {cells : List (Memo Module.Error Digest)}
    (hw : w' = { w with cells }) (h : Keeps w target m) : Keeps w' target m := by
  rw [hw]
  exact h

theorem keeps_of_untargetIfEmpty {m m' : Module} (h : untargetIfEmpty w m = .ok m') :
    Keeps w m.target m' := by
  unfold untargetIfEmpty at h
  unfold Keeps
  split at h
  · rename_i hnarrow
    obtain ⟨htarget, hactive⟩ := Bool.and_eq_true_iff.1 hnarrow
    obtain ⟨schemas, hschemas, h⟩ := bind_eq_ok.1 h
    have hleft := Module.targetSchemas_ne_nil_iff hschemas
    split at h
    · rename_i hempty
      cases h
      have hnone : ¬ m.HasTargetSchema w := fun hhas => hleft.2 hhas (List.isEmpty_iff.1 hempty)
      refine iff_of_false Bool.false_ne_true fun ⟨_, hhas⟩ => hnone ?_
      rw [← Module.asTarget_eq_self htarget]
      exact hhas hactive
    · rename_i hsome
      cases h
      refine iff_of_true htarget ⟨htarget, fun _ => ?_⟩
      rw [Module.asTarget_eq_self htarget]
      exact hleft.1 fun hnil => hsome (List.isEmpty_iff.2 hnil)
  · rename_i hnarrow
    cases h
    refine ⟨fun htarget => ⟨htarget, fun hactive => ?_⟩, And.left⟩
    exact absurd (Bool.and_eq_true_iff.2 ⟨htarget, hactive⟩) hnarrow

theorem keeps_of_gives_localModule {l : LocalModule} {m : Module}
    (h : (localModule l).Gives w m w') : Keeps w' l.target m := by
  obtain ⟨hm, rfl⟩ := Act.gives_ofWorld.1 h
  obtain ⟨files, _, hm⟩ := bind_eq_ok.1 hm
  exact keeps_of_untargetIfEmpty hm

theorem keeps_of_gives_remoteModule {f : Fetched} {r : RemoteModule} {m : Module}
    (h : (remoteModule f r).Gives w m w') : Keeps w' r.target m := by
  rw [remoteModule] at h
  split at h
  · exact absurd h Act.not_gives_throw
  · obtain ⟨⟨c, d⟩, w₁, _, h⟩ := Act.gives_bind.1 h
    obtain ⟨digest, w₂, _, h⟩ := Act.gives_bind.1 h
    obtain ⟨hm, rfl⟩ := Act.gives_ofWorld.1 h
    exact keeps_of_untargetIfEmpty hm

/-- Whether all modules of a set are made: those of the local declarations, then those that were
gathered. -/
def Made (provider : Provider) (rounds : Nat) (locals : List LocalModule)
    (remotes : List RemoteModule) (w : World) (wanted : List Bool) (ms : List Module)
    (w' : World) : Prop :=
  ∃ f w₁ ls w₂ rs, (gather provider rounds locals remotes).Gives w f w₁ ∧
    (locals.mapM localModule).Gives w₁ ls w₂ ∧ (f.declared.mapM (remoteModule f)).Gives w₂ rs w' ∧
    wanted = targetsOf locals f ∧ ms = ls ++ rs

section Made

variable {provider : Provider} {rounds : Nat} {locals : List LocalModule}
  {remotes : List RemoteModule} {wanted : List Bool} {ms : List Module} {s : ModuleSet}

theorem Made.keeps (h : Made provider rounds locals remotes w wanted ms w') :
    List.Forall₂ (Keeps w') wanted ms := by
  obtain ⟨f, w₁, ls, w₂, rs, _, hls, hrs, rfl, rfl⟩ := h
  -- what is made after a module changes the cells alone, which its files do not depend on
  obtain ⟨cells, hcells⟩ := ((Act.quiet_mapM (quiet_remoteModule f) f.declared).gives hrs).2
  have hlocals := Act.gives_mapM_quiet (fun l => Act.quiet_ofWorld _) hls
  have hremotes := Act.gives_mapM_quiet (quiet_remoteModule f) hrs
  refine List.rel_append ?_ ?_
  · refine List.forall₂_map_left_iff.2 (hlocals.imp fun l m ⟨_, w₃, hm, _, hw⟩ => ?_)
    exact keeps_of_cells hcells (keeps_of_cells hw (keeps_of_gives_localModule hm))
  · refine List.forall₂_map_left_iff.2 (hremotes.imp fun r m ⟨_, w₃, hm, _, hw⟩ => ?_)
    exact keeps_of_cells hw (keeps_of_gives_remoteModule hm)

/-- Asking for a local module once more, when all are made, gives the same module. -/
theorem Made.gives_locals (h : Made provider rounds locals remotes w wanted ms w') :
    (locals.map LocalModule.bucketId).Nodup ∧
      List.Forall₂ (fun l m => (localModule l).Gives w' m w') locals
        (ms.filter Module.isLocal) := by
  obtain ⟨f, w₁, ls, w₂, rs, hgather, hls, hrs, _, rfl⟩ := h
  refine ⟨(nodup_of_checkLocals (apart_of_gives_gather hgather).1).1, ?_⟩
  obtain ⟨cells, hcells⟩ := ((Act.quiet_mapM (quiet_remoteModule f) f.declared).gives hrs).2
  have hlocal : (ls ++ rs).filter Module.isLocal = ls := (finished_of_gives hls hrs).filter_isLocal
  rw [hlocal]
  have hmade := Act.gives_mapM_quiet (fun l => Act.quiet_ofWorld _) hls
  refine hmade.imp fun l m ⟨_, w₃, hm, _, hw⟩ => ?_
  obtain ⟨hbuilt, rfl⟩ := Act.gives_ofWorld.1 hm
  rw [hcells, hw]
  exact Act.gives_ofWorld.2 ⟨hbuilt, rfl⟩

/-- Where no remote module is declared as a target, only local modules are targets. -/
theorem Made.isLocal_of_target (h : Made provider rounds locals remotes w wanted ms w')
    (hremotes : ∀ r ∈ remotes, r.target = false) {m : Module} (hm : m ∈ ms)
    (htarget : m.target = true) : m.isLocal = true := by
  obtain ⟨f, w₁, ls, w₂, rs, hgather, hls, hrs, _, rfl⟩ := h
  rcases List.mem_append.1 hm with hm | hm
  · exact (of_localModules (finished_of_gives hls hrs).locals).2.2 m hm
  · obtain ⟨r, hr, _, _, hmade⟩ := exists_of_forall₂ (Act.gives_mapM hrs) hm
    have hwanted := ((keeps_of_gives_remoteModule hmade).1 htarget).1
    obtain ⟨_, q, hq, _, hdeclared⟩ := (targetNamed_of_gives_gather hgather).1 ⟨r, hr, rfl, hwanted⟩
    cases (hremotes q hq).symm.trans hdeclared

theorem Made.true_mem_iff (h : Made provider rounds locals remotes w wanted ms w') :
    true ∈ wanted ↔ WantsTarget locals remotes := by
  obtain ⟨f, w₁, ls, w₂, rs, hgather, _, _, rfl, _⟩ := h
  exact true_mem_targetsOf_iff hgather

/-- Once the modules are made, the targets among them decide. -/
theorem Made.run_build (h : Made provider rounds locals remotes w wanted ms w') :
    (ModuleSet.build provider rounds locals remotes).run w =
      (if wanted.any id && !ms.any Module.target then .error .noTargetFiles
        else ModuleSet.make ms, w') := by
  obtain ⟨f, w₁, ls, w₂, rs, hgather, hls, hrs, rfl, rfl⟩ := h
  unfold ModuleSet.build
  rw [Act.run_bind hgather, finish, Act.run_bind hls, Act.run_bind hrs, any_targetsOf]
  simp only
  split
  · rfl
  · rfl

theorem made_of_gives_build (h : (ModuleSet.build provider rounds locals remotes).Gives w s w') :
    ∃ wanted, Made provider rounds locals remotes w wanted s.modules w' := by
  obtain ⟨f, w₁, hgather, hfinish⟩ := Act.gives_bind.1 h
  obtain ⟨ls, rs, w₂, hls, hrs, hmake⟩ := finish_steps hfinish
  exact ⟨_, f, w₁, ls, w₂, rs, hgather, hls, hrs, rfl, by rw [(make_eq_ok hmake).1]; rfl⟩

theorem make_ne_noTargetFiles : ModuleSet.make ms ≠ .error .noTargetFiles := by
  unfold ModuleSet.make
  split
  · exact fun h => by cases h
  · exact fun h => by cases h

/-- Whether a target was wanted and none of the modules made is one. -/
def Lost (wanted : List Bool) (ms : List Module) : Prop :=
  true ∈ wanted ∧ ∀ m ∈ ms, m.target = false

theorem lost_iff : Lost wanted ms ↔ (wanted.any id && !ms.any Module.target) = true := by
  simp [Lost]

theorem Made.run_of_lost (h : Made provider rounds locals remotes w wanted ms w')
    (hlost : Lost wanted ms) :
    (ModuleSet.build provider rounds locals remotes).run w = (.error .noTargetFiles, w') := by
  rw [h.run_build, if_pos (lost_iff.1 hlost)]

theorem Made.run_of_not_lost (h : Made provider rounds locals remotes w wanted ms w')
    (hkept : ¬ Lost wanted ms) :
    (ModuleSet.build provider rounds locals remotes).run w = (ModuleSet.make ms, w') := by
  rw [h.run_build, if_neg (mt lost_iff.2 hkept)]

theorem Made.run_eq_noTargetFiles_iff (h : Made provider rounds locals remotes w wanted ms w') :
    (ModuleSet.build provider rounds locals remotes).run w = (.error .noTargetFiles, w') ↔
      Lost wanted ms := by
  refine ⟨fun hfails => ?_, h.run_of_lost⟩
  by_contra hkept
  rw [h.run_of_not_lost hkept, Prod.mk.injEq] at hfails
  exact make_ne_noTargetFiles hfails.1

/-! ### What decides whether there are targets -/

/-- Whether one of some modules is a target, and each that is has a schema file that is a target
unless it is bare. -/
structure TargetsRemain (w : World) (ms : List Module) : Prop where
  some : ∃ m ∈ ms, m.target = true
  each : ∀ m ∈ ms, m.target = true → m.HasTargetSchema w ∨ m.IsBare w

/-- Whether target files decide about sets that are given, or not given for want of them: `gives`
says which set is given, `made` which modules were made for one, `fails` that there are no target
files. -/
structure TargetFilesDecide (gives : ModuleSet → World → Prop)
    (made : List Bool → List Module → World → Prop) (fails : World → Prop) : Prop where
  remain : ∀ s w', gives s w' → TargetsRemain w' s.modules
  kept : ∀ wanted ms w', made wanted ms w' → List.Forall₂ (Keeps w') wanted ms
  lost : ∀ wanted ms w', made wanted ms w' → (∀ m ∈ ms, m.target = true → ¬ m.IsBare w') →
    (fails w' ↔ ∀ m ∈ ms, ¬ m.HasTargetSchema w')

/-- A target that remains has a schema file that is a target, unless it is bare. -/
theorem Keeps.of_target {target : Bool} {m : Module} (h : Keeps w target m)
    (htarget : m.target = true) : m.HasTargetSchema w ∨ m.IsBare w := by
  cases hactive : m.filter.isActive with
  | true =>
    have hleft := (h.1 htarget).2 hactive
    rw [Module.asTarget_eq_self htarget] at hleft
    exact .inl hleft
  | false =>
    by_cases hshows : m.ShowsSchema w
    · exact .inl (Module.hasTargetSchema_of_whole htarget hactive hshows)
    · exact .inr ⟨hactive, hshows⟩

theorem Made.each (h : Made provider rounds locals remotes w wanted ms w') {m : Module}
    (hm : m ∈ ms) (htarget : m.target = true) : m.HasTargetSchema w' ∨ m.IsBare w' := by
  obtain ⟨_, _, hkeeps⟩ := exists_of_forall₂ h.keeps hm
  exact hkeeps.of_target htarget

/-- Where no target is bare, there are no targets just if no schema file is one. -/
theorem Made.no_target_iff (h : Made provider rounds locals remotes w wanted ms w')
    (hbare : ∀ m ∈ ms, m.target = true → ¬ m.IsBare w') :
    (∀ m ∈ ms, m.target = false) ↔ ∀ m ∈ ms, ¬ m.HasTargetSchema w' := by
  refine forall₂_congr fun m hm => ?_
  rw [← Bool.not_eq_true]
  refine not_congr ⟨fun htarget => ?_, Module.HasTargetSchema.target⟩
  exact (h.each hm htarget).resolve_right (hbare m hm htarget)

theorem targetsRemain_of_gives_build (hwants : WantsTarget locals remotes)
    (h : (ModuleSet.build provider rounds locals remotes).Gives w s w') :
    TargetsRemain w' s.modules := by
  obtain ⟨wanted, hmade⟩ := made_of_gives_build h
  refine ⟨?_, fun m hm => hmade.each hm⟩
  by_contra hnone
  have hfalse : ∀ m ∈ s.modules, m.target = false := fun m hm =>
    Bool.eq_false_iff.2 fun htarget => hnone ⟨m, hm, htarget⟩
  have hfails := hmade.run_of_lost ⟨hmade.true_mem_iff.2 hwants, hfalse⟩
  cases hfails.symm.trans h

theorem targetFilesDecide_build (hwants : WantsTarget locals remotes) :
    TargetFilesDecide
      (fun s w' => (ModuleSet.build provider rounds locals remotes).Gives w s w')
      (Made provider rounds locals remotes w)
      (fun w' => (ModuleSet.build provider rounds locals remotes).run w =
        (.error .noTargetFiles, w')) := by
  constructor
  case remain => exact fun s w' h => targetsRemain_of_gives_build hwants h
  case kept => exact fun wanted ms w' h => h.keeps
  case lost =>
    intro wanted ms w' h hbare
    rw [h.run_eq_noTargetFiles_iff, Lost, and_iff_right (h.true_mem_iff.2 hwants)]
    exact h.no_target_iff hbare

end Made

end ModuleSet.Build

end Schemata

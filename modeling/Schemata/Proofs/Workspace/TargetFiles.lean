import Schemata.Proofs.ModuleSet.TargetFiles
import Schemata.Proofs.Workspace.Build

/-!
# Workspaces without target files

A workspace has a target, and a request for one whose modules have no target files fails. For a
directory this is asked once more after its set was built, so it makes no difference there whether
any module was to be a target.
-/

namespace Schemata.Workspace

open Settings Storage
open ModuleSet.Build (Lost Made TargetFilesDecide WantsTarget made_of_gives_build
  targetFilesDecide_build targetsRemain_of_gives_build)

variable {provider : Provider} {w w' : World} {b : Bucket} {r : Request}
  {override : Option Override} {locals : List LocalModule} {remotes : List RemoteModule}
  {wanted : List Bool} {ms : List Module} {ws : Workspace}

/-! ### Workspaces of directories -/

theorem outcome_eq_noTargetFiles_iff {finish : ModuleSet → Workspace} {set : ModuleSet} :
    outcome finish set = .error (.module .noTargetFiles) ↔
      ∀ m ∈ set.modules, m.target = false := by
  have hnone : set.targets.isEmpty = true ↔ ∀ m ∈ set.modules, m.target = false := by
    rw [List.isEmpty_iff, ModuleSet.targets, List.filter_eq_nil_iff]
    simp only [Bool.not_eq_true]
  rw [← hnone, outcome]
  split
  · rename_i hempty
    exact iff_of_true rfl hempty
  · rename_i hsome
    exact iff_of_false (fun h => by cases h) hsome

/-- Whether all modules of a workspace at a directory are made, and make up a set where none of them
was to be a target. -/
def MadeAt (provider : Provider) (b : Bucket) (r : Request) (override : Option Override) (w : World)
    (wanted : List Bool) (ms : List Module) (w' : World) : Prop :=
  ∃ locals remotes w₁, Declares w b r override locals remotes w₁ ∧
    Made provider w₁.fetchRounds locals remotes w₁ wanted ms w' ∧
    (true ∈ wanted ∨ ∃ s, ModuleSet.make ms = .ok s)

/-- A workspace at a directory is refused for want of target files just if no module is a target. -/
theorem MadeAt.run_eq_noTargetFiles_iff (h : MadeAt provider b r override w wanted ms w') :
    (ofBucket provider b r override).run w = (.error (.module .noTargetFiles), w') ↔
      ∀ m ∈ ms, m.target = false := by
  obtain ⟨locals, remotes, w₁, hdeclares, hmade, hset⟩ := h
  obtain ⟨finish, _, hrun⟩ := hdeclares.run_ofBucket provider
  rw [hrun, Prod.mk.injEq]
  -- either the build fails for this, or the set is made and asked for its targets once more
  by_cases hlost : Lost wanted ms
  · rw [hmade.run_of_lost hlost]
    exact iff_of_true ⟨rfl, rfl⟩ hlost.2
  · rw [hmade.run_of_not_lost hlost]
    cases hmake : ModuleSet.make ms with
    | error e =>
      refine iff_of_false (fun ⟨hfails, _⟩ => ?_) fun hnone => hlost ⟨?_, hnone⟩
      · have he : e = .noTargetFiles := by
          cases hfails
          rfl
        exact ModuleSet.Build.make_ne_noTargetFiles (he ▸ hmake)
      · exact hset.resolve_right fun ⟨s, hs⟩ => by cases hmake.symm.trans hs
    | ok s =>
      obtain ⟨rfl, _⟩ := ModuleSet.make_eq_ok hmake
      exact (and_iff_left rfl).trans outcome_eq_noTargetFiles_iff

theorem targetFilesDecide_ofBucket : TargetFilesDecide
    (fun s w' => ∃ ws, (ofBucket provider b r override).run w = (.ok ws, w') ∧ ws.set = s)
    (MadeAt provider b r override w)
    (fun w' => (ofBucket provider b r override).run w = (.error (.module .noTargetFiles), w')) := by
  constructor
  case remain =>
    rintro _ w' ⟨ws, h, rfl⟩
    obtain ⟨locals, remotes, w₁, _, hbuild, hsome⟩ := build_of_ofBucket h
    obtain ⟨wanted, hmade⟩ := made_of_gives_build hbuild
    exact ⟨hsome, fun m hm => hmade.each hm⟩
  case kept =>
    rintro wanted ms w' ⟨_, _, _, _, hmade, _⟩
    exact hmade.keeps
  case lost =>
    intro wanted ms w' h hbare
    rw [h.run_eq_noTargetFiles_iff]
    obtain ⟨_, _, _, _, hmade, _⟩ := h
    exact hmade.no_target_iff hbare

/-! ### Workspaces of keys -/

section Keys

variable {key : ModuleKey} {paths excludes : List String} {remote : RemoteModule}

/-- What the module of a key is declared as. -/
structure DeclaresKey (w : World) (key : ModuleKey) (paths excludes : List String)
    (override : Option Override) (remote : RemoteModule) : Prop where
  live : w.live = true
  overridden : ∃ file, readOverride override = .ok file
  normal : ∃ ps es, paths.mapM normalize = .ok ps ∧ excludes.mapM normalize = .ok es ∧
    remote = ⟨key, true, ps, es⟩

theorem DeclaresKey.run_ofKey (h : DeclaresKey w key paths excludes override remote)
    (provider : Provider) :
    ∃ finish : ModuleSet → Workspace, (∀ s, (finish s).set = s) ∧
      (ofKey provider key paths excludes override).run w =
        ((((ModuleSet.build provider w.fetchRounds [] [remote]).run w).1.mapError
          Error.module).map finish,
          ((ModuleSet.build provider w.fetchRounds [] [remote]).run w).2) := by
  obtain ⟨hlive, ⟨file, hfile⟩, ps, es, hps, hes, rfl⟩ := h
  refine ⟨fun set => ⟨set, set.modules.map fun m =>
    .ofModule m ((file.map ModuleFile.version).getD .v1) <|
      if m.name = some key.name then file.bind fun o => o.settingsFor? m.name none else none,
    [], [], (file.map ModuleFile.version).getD .v1 = .v2⟩, fun _ => rfl, ?_⟩
  have hget : (get : WorkspaceAct World).run w = (.ok w, w) := rfl
  unfold ofKey
  rw [run_bind_ok hget, hlive]
  simp only [Bool.not_true, Bool.false_eq_true, if_false]
  rw [run_bind_ok (run_answer_eq_ok.2 ⟨hfile, rfl⟩), run_bind_ok (run_answer_eq_ok.2 ⟨hps, rfl⟩),
    run_bind_ok (run_answer_eq_ok.2 ⟨hes, rfl⟩), run_bind, run_buildSet]
  rcases (ModuleSet.build provider w.fetchRounds _ _).run w with ⟨e | set, w₂⟩
  · rfl
  · rfl

theorem declaresKey_of_ofKey
    (h : (ofKey provider key paths excludes override).run w = (.ok ws, w')) :
    ∃ remote, DeclaresKey w key paths excludes override remote := by
  unfold ofKey at h
  obtain ⟨w₀, _, hget, h⟩ := run_bind_eq_ok.1 h
  cases hget
  simp only at h
  split at h
  · obtain ⟨_, _, hthrow, _⟩ := run_bind_eq_ok.1 h
    cases hthrow
  · rename_i hlive
    obtain ⟨file, _, hfile, h⟩ := run_bind_eq_ok.1 h
    obtain ⟨hoverride, rfl⟩ := run_answer_eq_ok.1 hfile
    obtain ⟨ps, _, hps, h⟩ := run_bind_eq_ok.1 h
    obtain ⟨hpaths, rfl⟩ := run_answer_eq_ok.1 hps
    obtain ⟨es, _, hes, h⟩ := run_bind_eq_ok.1 h
    obtain ⟨hexcludes, rfl⟩ := run_answer_eq_ok.1 hes
    refine ⟨_, ?_, ⟨file, hoverride⟩, ps, es, hpaths, hexcludes, rfl⟩
    simpa using hlive

/-- The module of a key is declared as a target, and no local module stands in for it. -/
theorem DeclaresKey.wantsTarget (h : DeclaresKey w key paths excludes override remote) :
    WantsTarget [] [remote] := by
  obtain ⟨_, _, _, _, _, _, rfl⟩ := h
  exact .inr ⟨_, List.mem_singleton_self _, rfl, List.not_mem_nil⟩

/-- Whether all modules of a workspace of a key are made. -/
def MadeFor (provider : Provider) (key : ModuleKey) (paths excludes : List String)
    (override : Option Override) (w : World) (wanted : List Bool) (ms : List Module)
    (w' : World) : Prop :=
  ∃ remote, DeclaresKey w key paths excludes override remote ∧
    Made provider w.fetchRounds [] [remote] w wanted ms w'

theorem build_of_ofKey (h : (ofKey provider key paths excludes override).run w = (.ok ws, w')) :
    ∃ remote, DeclaresKey w key paths excludes override remote ∧
      (ModuleSet.build provider w.fetchRounds [] [remote]).Gives w ws.set w' := by
  obtain ⟨remote, hdeclares⟩ := declaresKey_of_ofKey h
  refine ⟨remote, hdeclares, ?_⟩
  obtain ⟨finish, hfinish, hrun⟩ := hdeclares.run_ofKey provider
  rw [h] at hrun
  rcases hbuild : (ModuleSet.build provider w.fetchRounds [] [remote]).run w with ⟨e | s, w₂⟩
  · rw [hbuild] at hrun
    cases hrun
  · rw [hbuild] at hrun
    cases hrun
    rw [hfinish]
    exact hbuild

/-- A workspace of a key is refused for want of target files just if its set is. -/
theorem DeclaresKey.run_eq_noTargetFiles_iff
    (h : DeclaresKey w key paths excludes override remote) :
    (ofKey provider key paths excludes override).run w = (.error (.module .noTargetFiles), w') ↔
      (ModuleSet.build provider w.fetchRounds [] [remote]).run w =
        (.error .noTargetFiles, w') := by
  obtain ⟨finish, _, hrun⟩ := h.run_ofKey provider
  rw [hrun]
  rcases (ModuleSet.build provider w.fetchRounds [] [remote]).run w with ⟨e | s, w₂⟩
  · refine ⟨fun hfails => ?_, fun hfails => ?_⟩
    · cases hfails
      rfl
    · cases hfails
      rfl
  · exact iff_of_false (fun h => by cases h) fun h => by cases h

theorem targetFilesDecide_ofKey : TargetFilesDecide
    (fun s w' => ∃ ws, (ofKey provider key paths excludes override).run w = (.ok ws, w') ∧
      ws.set = s)
    (MadeFor provider key paths excludes override w)
    (fun w' => (ofKey provider key paths excludes override).run w =
      (.error (.module .noTargetFiles), w')) := by
  constructor
  case remain =>
    rintro _ w' ⟨ws, h, rfl⟩
    obtain ⟨remote, hdeclares, hbuild⟩ := build_of_ofKey h
    exact targetsRemain_of_gives_build hdeclares.wantsTarget hbuild
  case kept =>
    rintro wanted ms w' ⟨_, _, hmade⟩
    exact hmade.keeps
  case lost =>
    rintro wanted ms w' ⟨remote, hdeclares, hmade⟩ hbare
    rw [hdeclares.run_eq_noTargetFiles_iff]
    exact (targetFilesDecide_build hdeclares.wantsTarget).lost wanted ms w' hmade hbare

end Keys

/-! ### Target files decide -/

/-- Sets and workspaces that are given have a target, and a schema file of each that is not bare is
a target file. Where the modules are made and none is a bare target, want of target files is the
failure just if no schema file is a target. -/
theorem target_files_decide (provider : Provider) (rounds : Nat) (w : World)
    (hwants : WantsTarget locals remotes) (b : Bucket) (r : Request) (override : Option Override)
    (key : ModuleKey) (paths excludes : List String) :
    TargetFilesDecide
      (fun s w' => (ModuleSet.build provider rounds locals remotes).Gives w s w')
      (Made provider rounds locals remotes w)
      (fun w' => (ModuleSet.build provider rounds locals remotes).run w =
        (.error .noTargetFiles, w')) ∧
    TargetFilesDecide
      (fun s w' => ∃ ws, (ofBucket provider b r override).run w = (.ok ws, w') ∧ ws.set = s)
      (MadeAt provider b r override w)
      (fun w' => (ofBucket provider b r override).run w =
        (.error (.module .noTargetFiles), w')) ∧
    TargetFilesDecide
      (fun s w' => ∃ ws, (ofKey provider key paths excludes override).run w = (.ok ws, w') ∧
        ws.set = s)
      (MadeFor provider key paths excludes override w)
      (fun w' => (ofKey provider key paths excludes override).run w =
        (.error (.module .noTargetFiles), w')) :=
  ⟨targetFilesDecide_build hwants, targetFilesDecide_ofBucket, targetFilesDecide_ofKey⟩

section Pets

open ModuleSet.Build (localModule beside diamond localBeside targetsOf)

/-- A local target with one schema file, narrowed to some paths. -/
def narrowed (paths : List String) : LocalModule where
  bucket := .objects Delivery.petFiles
  bucketId := "pets"
  target := true
  name := none
  commit := none
  label := none
  filter := ⟨paths, [], none, false⟩
  v1Config := none
  v1Lock := none

def wholeRoot : Request := ⟨".", [], [], none, false⟩

theorem wantsTarget_narrowed (paths : List String) : WantsTarget [narrowed paths] [] :=
  .inl ⟨_, List.mem_singleton_self _, rfl⟩

/-- The schema file makes a set with a target file; narrowed to another path it makes none. -/
theorem target_files_decide_narrowed :
    (WantsTarget [narrowed ["p.schema"]] [] ∧
      ∃ s w', (ModuleSet.build diamond 0 [narrowed ["p.schema"]] []).Gives World.empty s w' ∧
        ∃ m ∈ s.modules, m.HasTargetSchema w') ∧
    WantsTarget [narrowed ["q.schema"]] [] ∧
      (ModuleSet.build diamond 0 [narrowed ["q.schema"]] []).run World.empty =
        (.error .noTargetFiles, World.empty) := by
  refine ⟨⟨wantsTarget_narrowed _, ?_⟩, wantsTarget_narrowed _, ?_⟩
  · have hfilters : ((ModuleSet.build diamond 0 [narrowed ["p.schema"]] []).run
        World.empty).1.toOption.map (fun s => s.modules.map fun m => m.filter.isActive) =
          some [true] := by
      decide +kernel
    obtain ⟨s, hs, hactive⟩ := Option.map_eq_some_iff.1 hfilters
    have hgives : (ModuleSet.build diamond 0 [narrowed ["p.schema"]] []).Gives World.empty s
        ((ModuleSet.build diamond 0 [narrowed ["p.schema"]] []).run World.empty).2 :=
      Prod.ext (toOption_eq_some.1 hs) rfl
    obtain ⟨⟨m, hm, htarget⟩, heach⟩ := (target_files_decide diamond 0 World.empty
      (wantsTarget_narrowed ["p.schema"]) (.objects .empty) wholeRoot none beside [] []).1.remain
        s _ hgives
    refine ⟨s, _, hgives, m, hm, (heach m hm htarget).resolve_right fun hbare => ?_⟩
    have hmem : m.filter.isActive ∈ [true] := hactive ▸ List.mem_map_of_mem hm
    exact absurd (List.mem_singleton.1 hmem) (by rw [hbare.whole]; exact Bool.false_ne_true)
  · have htargets : ((localModule (narrowed ["q.schema"])).run World.empty).1.toOption.map
        Module.target = some false := by
      decide +kernel
    obtain ⟨m, hm, htarget⟩ := Option.map_eq_some_iff.1 htargets
    have hlocal : (localModule (narrowed ["q.schema"])).Gives World.empty m World.empty :=
      Prod.ext (toOption_eq_some.1 hm) rfl
    have hmade : Made diamond 0 [narrowed ["q.schema"]] [] World.empty
        (targetsOf [narrowed ["q.schema"]] ⟨[], [], []⟩) [m] World.empty :=
      ⟨⟨[], [], []⟩, World.empty, [m], World.empty, [], rfl,
        Act.gives_bind.2 ⟨m, World.empty, hlocal, rfl⟩, rfl, rfl, rfl⟩
    have hnone : ∀ n ∈ [m], n.target = false := fun n hn => List.mem_singleton.1 hn ▸ htarget
    have hlaw := (target_files_decide diamond 0 World.empty (wantsTarget_narrowed ["q.schema"])
      (.objects .empty) wholeRoot none beside [] []).1
    refine (hlaw.lost _ _ _ hmade fun n hn hntarget => ?_).2 fun n hn hhas => ?_
    · cases (hnone n hn).symm.trans hntarget
    · cases (hnone n hn).symm.trans hhas.target

/-- The local module of the name beside the diamond, with a schema file and no target. -/
def standIn : LocalModule :=
  { localBeside with bucket := .objects Delivery.petFiles, target := false }

/-- A set may be given although no file of it is a target: where a target without a filter has no
schema file, and where a local module stands in for the only target. -/
theorem build_without_target_files :
    (localBeside.target = true ∧
      ∃ s w', (ModuleSet.build diamond 0 [localBeside] []).Gives World.empty s w' ∧
        ∀ m ∈ s.modules, ¬ m.HasTargetSchema w') ∧
    ∃ s w', (ModuleSet.build diamond 0 [standIn] [⟨beside, true, [], []⟩]).Gives World.empty s w' ∧
      ∀ m ∈ s.modules, ¬ m.HasTargetSchema w' := by
  have hgiven {locals : List LocalModule} {remotes : List RemoteModule}
      (h : (((ModuleSet.build diamond 0 locals remotes).run World.empty).1.toOption.map fun s =>
        s.modules.map fun m => (m.targetSchemas
          ((ModuleSet.build diamond 0 locals remotes).run World.empty).2).toOption.map
            List.length) = some [some 0]) :
      ∃ s w', (ModuleSet.build diamond 0 locals remotes).Gives World.empty s w' ∧
        ∀ m ∈ s.modules, ¬ m.HasTargetSchema w' := by
    obtain ⟨s, hs, hnone⟩ := Option.map_eq_some_iff.1 h
    refine ⟨s, _, Prod.ext (toOption_eq_some.1 hs) rfl, fun m hm hhas => ?_⟩
    have hmem := hnone ▸ List.mem_map_of_mem hm
    obtain ⟨schemas, hschemas, hlength⟩ := Option.map_eq_some_iff.1 (List.mem_singleton.1 hmem)
    have hnil : schemas = [] := List.length_eq_zero_iff.1 hlength
    exact (Module.targetSchemas_ne_nil_iff (toOption_eq_some.1 hschemas)).2 hhas hnil
  exact ⟨⟨rfl, hgiven (by decide +kernel)⟩, hgiven (by decide +kernel)⟩

end Pets

end Schemata.Workspace

import Schemata.Proofs.ModuleSet.Build
import Schemata.Proofs.Workspace.Placement
import Schemata.Proofs.Workspace.Targeting
import Schemata.Workspace.Build

/-!
# What a workspace is built of

A workspace that is built has one local module for each module directory of its plan, with the
files of the directory and the share of the request in it.
-/

namespace Schemata.Workspace

open Settings Storage
open ModuleSet.Build (IsModuleOf)
open Schemata.Path (IsNormal covers join)

/-! ### Steps -/

section Steps

variable {α β : Type} {w w' : World}

theorem run_bind (x : WorkspaceAct α) (f : α → WorkspaceAct β) (w : World) :
    (x >>= f).run w =
      match x.run w with
      | (.ok a, w₁) => (f a).run w₁
      | (.error e, w₁) => (.error e, w₁) := by
  have hbind : (x >>= f).run w = ExceptT.bindCont f (x.run w).1 (x.run w).2 := rfl
  rw [hbind]
  obtain ⟨outcome, w₁⟩ := x.run w
  cases outcome with
  | ok a => rfl
  | error e => rfl

theorem run_bind_eq_ok {x : WorkspaceAct α} {f : α → WorkspaceAct β} {b : β} :
    (x >>= f).run w = (.ok b, w') ↔ ∃ a w₁, x.run w = (.ok a, w₁) ∧ (f a).run w₁ = (.ok b, w') := by
  rw [run_bind]
  obtain ⟨outcome, w₁⟩ := x.run w
  cases outcome with
  | ok a =>
    constructor
    · exact fun h => ⟨a, w₁, rfl, h⟩
    · rintro ⟨_, _, h, h'⟩
      cases h
      exact h'
  | error e =>
    constructor
    · intro h
      cases h
    · rintro ⟨_, _, h, _⟩
      cases h

theorem run_answer {ask : World → Except Error α} : (answer ask).run w = (ask w, w) := rfl

theorem run_answer_eq_ok {ask : World → Except Error α} {a : α} :
    (answer ask).run w = (.ok a, w') ↔ ask w = .ok a ∧ w = w' := by
  rw [run_answer, Prod.mk.injEq]

theorem run_bind_ok {x : WorkspaceAct α} {a : α} (h : x.run w = (.ok a, w'))
    (f : α → WorkspaceAct β) : (x >>= f).run w = (f a).run w' := by
  rw [run_bind, h]

theorem run_lift (x : StateM World α) :
    (liftM x : WorkspaceAct α).run w = (.ok (x w).1, (x w).2) := rfl

theorem run_buildSet {provider : Provider} {locals : List LocalModule}
    {remotes : List RemoteModule} : (buildSet provider locals remotes).run w =
      (((ModuleSet.build provider w.fetchRounds locals remotes).run w).1.mapError Error.module,
        ((ModuleSet.build provider w.fetchRounds locals remotes).run w).2) := rfl

end Steps

/-! ### Requests -/

section Requests

variable {r r' inner : Request} {root path q : String}

theorem normalize_eq_ok : normalize path = .ok q ↔ Path.normalize path = .ok q := by
  rw [normalize, mapError_eq_ok]

theorem located_eq_ok (h : r.located = .ok r') :
    IsNormal r'.subDir ∧ r'.paths = r.paths ∧ r'.excludes = r.excludes ∧
      (r.file = none → r'.file = none) := by
  unfold Request.located at h
  cases hfile : r.file with
  | some file =>
    rw [hfile] at h
    obtain ⟨file', hfile', h⟩ := bind_eq_ok.1 h
    cases h
    have hnormal := Path.isNormal_of_normalize (normalize_eq_ok.1 hfile')
    exact ⟨hnormal.of_covers (Path.covers_parent file'), rfl, rfl, fun hnone => by cases hnone⟩
  | none =>
    rw [hfile] at h
    obtain ⟨sub, hsub, h⟩ := bind_eq_ok.1 h
    cases h
    exact ⟨Path.isNormal_of_normalize (normalize_eq_ok.1 hsub), rfl, rfl, fun _ => rfl⟩

/-- A path is seen from the root of a workspace if it is the root or lies below it. -/
theorem fromRoot?_eq_some (hroot : IsNormal root) :
    fromRoot? root path = .ok (some q) ↔
      IsNormal q ∧ Path.normalize path = .ok (join root q) := by
  unfold fromRoot?
  rw [bind_eq_ok]
  simp only [normalize_eq_ok]
  constructor
  · rintro ⟨p, hp, h⟩
    have hrelative := toOption_eq_some.1 (Except.ok.inj h)
    obtain ⟨hq, rfl⟩ := (Path.relative_eq_ok hroot (Path.isNormal_of_normalize hp)).1 hrelative
    exact ⟨hq, hp⟩
  · rintro ⟨hq, hp⟩
    refine ⟨_, hp, congrArg Except.ok ?_⟩
    exact toOption_eq_some.2 (Path.relative_join hroot hq)

/-- Whether a list of paths has one that comes to `p`. -/
def Names (paths : List String) (p : String) : Prop :=
  ∃ path ∈ paths, Path.normalize path = .ok p

theorem mem_fromRoot {paths : List String} {os : List (Option String)} (hroot : IsNormal root)
    (h : paths.mapM (fromRoot? root) = .ok os) :
    q ∈ os.filterMap id ↔ IsNormal q ∧ Names paths (join root q) := by
  rw [List.mem_filterMap]
  constructor
  · rintro ⟨o, ho, rfl⟩
    obtain ⟨path, hpath, hfrom⟩ := exists_of_forall₂ (mapM_eq_ok.1 h) ho
    obtain ⟨hq, hp⟩ := (fromRoot?_eq_some hroot).1 hfrom
    exact ⟨hq, path, hpath, hp⟩
  · rintro ⟨hq, path, hpath, hp⟩
    obtain ⟨o, ho, hfrom⟩ := exists_of_mem_mapM h hpath
    cases hfrom.symm.trans ((fromRoot?_eq_some hroot).2 ⟨hq, hp⟩)
    exact ⟨_, ho, rfl⟩

/-- What a request is when it is seen from the root of a workspace: of its paths those that lie at
the root or below. -/
structure SeenFrom (root : String) (r inner : Request) : Prop where
  normal : inner.Normal
  paths : ∀ q, q ∈ inner.paths ↔ IsNormal q ∧ Names r.paths (join root q)
  excludes : ∀ q, q ∈ inner.excludes ↔ IsNormal q ∧ Names r.excludes (join root q)
  file : r.file = none → inner.file = none

theorem fromRoot_eq_ok (hroot : IsNormal root) (h : r.fromRoot root = .ok inner) :
    SeenFrom root r inner := by
  obtain ⟨sub, hsub, h⟩ := bind_eq_ok.1 h
  obtain ⟨paths, hpaths, h⟩ := bind_eq_ok.1 h
  obtain ⟨excludes, hexcludes, h⟩ := bind_eq_ok.1 h
  obtain ⟨file, hfile, h⟩ := bind_eq_ok.1 h
  cases h
  have hsubNormal : IsNormal (sub.getD ".") := by
    cases sub with
    | none => exact Path.isNormal_root
    | some q => exact ((fromRoot?_eq_some hroot).1 hsub).1
  constructor
  case normal =>
    exact ⟨hsubNormal, fun p hp => ((mem_fromRoot hroot hpaths).1 hp).1,
      fun e he => ((mem_fromRoot hroot hexcludes).1 he).1⟩
  case paths => exact fun q => mem_fromRoot hroot hpaths
  case excludes => exact fun q => mem_fromRoot hroot hexcludes
  case file =>
    intro hnone
    rw [hnone] at hfile
    exact (Except.ok.inj hfile).symm

theorem SeenFrom.of_located (h : SeenFrom root r' inner) (hr : r.located = .ok r') :
    SeenFrom root r inner := by
  obtain ⟨_, hpaths, hexcludes, hfile⟩ := located_eq_ok hr
  exact ⟨h.normal, hpaths ▸ h.paths, hexcludes ▸ h.excludes, fun hnone => h.file (hfile hnone)⟩

end Requests

/-! ### Locating -/

/-- What a request comes to in the workspace that is found for it. -/
structure Located (w : World) (b : Bucket) (r : Request) (found : Discovered) (plan : Plan)
    (inner : Request) : Prop where
  discovered : discover w.volumes w.live b r.subDir = .ok found
  planned : Plan.ofDiscovered w b found = .ok plan
  seen : r.fromRoot found.root = .ok inner

/-- The share of a request in a module directory. -/
def Plan.Targets (plan : Plan) (inner : Request) (d : ModuleDir) (t : Targeting) : Prop :=
  inner.targeting plan.dirPaths d.settings.dir d.settings.roots.keys = .ok t

theorem locate_eq_ok {w : World} {b : Bucket} {r : Request} {site : Site}
    (h : locate w b r = .ok site) :
    ∃ found inner, Located w b r found site.plan inner ∧ site.root = found.root ∧
      List.Forall₂ (site.plan.Targets inner) site.plan.dirs site.targetings := by
  obtain ⟨found, hfound, h⟩ := bind_eq_ok.1 h
  obtain ⟨plan, hplan, h⟩ := bind_eq_ok.1 h
  obtain ⟨inner, hinner, h⟩ := bind_eq_ok.1 h
  obtain ⟨targetings, htargetings, h⟩ := bind_eq_ok.1 h
  simp only at h
  split at h
  · obtain ⟨_, hthrow, _⟩ := bind_eq_ok.1 h
    cases hthrow
  · cases h
    refine ⟨found, inner, ⟨mapError_eq_ok.1 hfound, hplan, hinner⟩, rfl, ?_⟩
    exact (mapM_eq_ok.1 htargetings).imp fun _ _ ht => mapError_eq_ok.1 ht

/-! ### Sets of directories -/

section Sets

variable {provider : Provider} {w w₁ w' : World} {b : Bucket} {r : Request}
  {override : Option Override} {locals : List LocalModule} {remotes : List RemoteModule}
  {ws : Workspace}

/-- What the modules of a workspace at a directory are declared as, and the world after that. -/
structure Declares (w : World) (b : Bucket) (r : Request) (override : Option Override)
    (locals : List LocalModule) (remotes : List RemoteModule) (w₁ : World) : Prop where
  live : w.live = true
  overridden : ∃ file, readOverride override = .ok file
  planned : ∃ r' site keys, r.located = .ok r' ∧ locate w b r' = .ok site ∧
    (site.plan.locked.mapM keyOf : StateM World _) w = (keys, w₁) ∧
    locals = ((site.plan.dirs.zip site.targetings).map fun p =>
      p.1.localModule (filesBelow b site.root) site.plan.dirPaths p.2) ∧
    remotes = keys.map fun key => ⟨key, false, [], []⟩

/-- A set without targets is refused. -/
def outcome (finish : ModuleSet → Workspace) (set : ModuleSet) : Except Error Workspace :=
  if set.targets.isEmpty then .error (.module .noTargetFiles) else .ok (finish set)

theorem Declares.run_ofBucket (h : Declares w b r override locals remotes w₁)
    (provider : Provider) :
    ∃ finish : ModuleSet → Workspace, (∀ s, (finish s).set = s) ∧
      (ofBucket provider b r override).run w =
        ((((ModuleSet.build provider w₁.fetchRounds locals remotes).run w₁).1.mapError
          Error.module).bind (outcome finish),
          ((ModuleSet.build provider w₁.fetchRounds locals remotes).run w₁).2) := by
  obtain ⟨hlive, ⟨file, hfile⟩, r', site, keys, hr, hsite, hkeys, rfl, rfl⟩ := h
  refine ⟨fun set => ⟨set, set.modules.map (site.plan.checksOf file), site.plan.deps,
    site.plan.plugins, site.plan.isV2⟩, fun _ => rfl, ?_⟩
  have hget : (get : WorkspaceAct World).run w = (.ok w, w) := rfl
  have hlocked : (liftM (site.plan.locked.mapM keyOf : StateM World _) : WorkspaceAct _).run w =
      (.ok keys, w₁) := by
    rw [run_lift, hkeys]
  unfold ofBucket
  rw [run_bind_ok hget, hlive]
  simp only [Bool.not_true, Bool.false_eq_true, if_false]
  rw [run_bind_ok (run_answer_eq_ok.2 ⟨hr, rfl⟩), run_bind_ok (run_answer_eq_ok.2 ⟨hfile, rfl⟩),
    run_bind_ok (run_answer_eq_ok.2 ⟨hsite, rfl⟩), run_bind_ok hlocked, run_bind, run_buildSet]
  rcases (ModuleSet.build provider w₁.fetchRounds _ _).run w₁ with ⟨e | set, w₂⟩
  · rfl
  · simp only [Except.mapError, Except.bind, outcome]
    split
    · rfl
    · rfl

theorem declares_of_ofBucket (h : (ofBucket provider b r override).run w = (.ok ws, w')) :
    ∃ locals remotes w₁, Declares w b r override locals remotes w₁ := by
  unfold ofBucket at h
  obtain ⟨w₀, _, hget, h⟩ := run_bind_eq_ok.1 h
  cases hget
  simp only at h
  split at h
  · obtain ⟨_, _, hthrow, _⟩ := run_bind_eq_ok.1 h
    cases hthrow
  · rename_i hlive
    obtain ⟨r', _, hr, h⟩ := run_bind_eq_ok.1 h
    obtain ⟨hlocated, rfl⟩ := run_answer_eq_ok.1 hr
    obtain ⟨file, _, hfile, h⟩ := run_bind_eq_ok.1 h
    obtain ⟨hoverride, rfl⟩ := run_answer_eq_ok.1 hfile
    obtain ⟨site, _, hsite, h⟩ := run_bind_eq_ok.1 h
    obtain ⟨hfound, rfl⟩ := run_answer_eq_ok.1 hsite
    obtain ⟨keys, w₁, hkeys, h⟩ := run_bind_eq_ok.1 h
    rw [run_lift, Prod.mk.injEq, Except.ok.injEq] at hkeys
    have hlocked : (site.plan.locked.mapM keyOf : StateM World _) w = (keys, w₁) :=
      Prod.ext hkeys.1 hkeys.2
    refine ⟨_, _, w₁, ?_, ⟨file, hoverride⟩, r', site, keys, hlocated, hfound, hlocked, rfl, rfl⟩
    simpa using hlive

theorem build_of_ofBucket (h : (ofBucket provider b r override).run w = (.ok ws, w')) :
    ∃ locals remotes w₁, Declares w b r override locals remotes w₁ ∧
      (ModuleSet.build provider w₁.fetchRounds locals remotes).Gives w₁ ws.set w' ∧
      ∃ m ∈ ws.set.modules, m.target = true := by
  obtain ⟨locals, remotes, w₁, hdeclares⟩ := declares_of_ofBucket h
  refine ⟨locals, remotes, w₁, hdeclares, ?_⟩
  obtain ⟨finish, hfinish, hrun⟩ := hdeclares.run_ofBucket provider
  rw [h] at hrun
  rcases hbuild : (ModuleSet.build provider w₁.fetchRounds locals remotes).run w₁ with ⟨e | s, w₂⟩
  · rw [hbuild] at hrun
    cases hrun
  · rw [hbuild, Prod.mk.injEq] at hrun
    obtain ⟨hws, rfl⟩ := hrun
    have hws : outcome finish s = .ok ws := hws.symm
    unfold outcome at hws
    split at hws
    · cases hws
    · rename_i hsome
      cases hws
      rw [hfinish]
      refine ⟨hbuild, ?_⟩
      obtain ⟨m, hm⟩ := List.exists_mem_of_ne_nil _ (mt List.isEmpty_iff.2 hsome)
      exact ⟨m, List.mem_filter.1 hm⟩

end Sets

/-! ### Local modules -/

theorem locals_of_build {provider : Provider} {rounds : Nat} {locals : List LocalModule}
    {remotes : List RemoteModule} {s : ModuleSet} {w w' : World}
    (h : (ModuleSet.build provider rounds locals remotes).Gives w s w') :
    (locals.map LocalModule.bucketId).Nodup ∧
      List.Forall₂ IsModuleOf locals (s.modules.filter Module.isLocal) := by
  obtain ⟨f, w₁, hgather, hfinish⟩ := Act.gives_bind.1 h
  obtain ⟨ls, rs, hfinished⟩ := ModuleSet.Build.gives_finish hfinish
  rw [hfinished.filter_isLocal]
  exact ⟨(ModuleSet.Build.nodup_of_checkLocals
    (ModuleSet.Build.apart_of_gives_gather hgather).1).1, hfinished.locals⟩

/-- Whether a declaration is that of a module directory of a workspace, with the share of a
request. -/
def IsDeclaredAt (files : Bucket) (plan : Plan) (inner : Request) (d : ModuleDir)
    (l : LocalModule) : Prop :=
  ∃ t, plan.Targets inner d t ∧ l = d.localModule files plan.dirPaths t

/-- The local modules of a workspace are declared for its module directories, in their order. -/
theorem Declares.dirs {w w₁ : World} {b : Bucket} {r : Request} {override : Option Override}
    {locals : List LocalModule} {remotes : List RemoteModule}
    (h : Declares w b r override locals remotes w₁) :
    ∃ r' found plan inner, r.located = .ok r' ∧ Located w b r' found plan inner ∧
      locals.map LocalModule.bucketId = plan.dirPaths ∧
      List.Forall₂ (IsDeclaredAt (filesBelow b found.root) plan inner) plan.dirs locals := by
  obtain ⟨r', site, keys, hr, hfound, _, rfl, _⟩ := h.planned
  obtain ⟨found, inner, hin, hroot, htargets⟩ := locate_eq_ok hfound
  refine ⟨r', found, site.plan, inner, hr, hin, ?_, ?_⟩
  · have hfst := List.map_fst_zip (Nat.le_of_eq htargets.length_eq)
    rw [Plan.dirPaths, ← congrArg (List.map fun d : ModuleDir => d.settings.dir) hfst,
      List.map_map, List.map_map]
    rfl
  · rw [← hroot]
    have heq := List.forall₂_eq_eq_eq (α := LocalModule)
    refine (forall₂_zip htargets (heq ▸ rfl)).imp ?_
    rintro d _ ⟨t, ht, rfl⟩
    exact ⟨t, ht, rfl⟩

end Schemata.Workspace

import Schemata.Proofs.ModuleSet.Gathering
import Schemata.Proofs.ModuleSet.Knowledge

/-!
# What a set is built of

A set has the local modules first, then the remote modules that the declared keys lead to through
the dependencies of what was delivered: one for each name that no local module has. The provider is
asked for each of them once.
-/

namespace Schemata.ModuleSet.Build

variable {w w' : World}

/-! ### The modules of the set -/

/-- Whether a module is that of a local declaration. Its filter may keep it from being a target. -/
structure IsModuleOf (l : LocalModule) (m : Module) : Prop where
  isLocal : m.isLocal = true
  bucketId : m.bucketId = l.bucketId
  name : m.name = l.name
  commit : m.commit = l.commit
  label : m.label = l.label
  files : ∃ w : World, Module.filesOf w.volumes w.live l.bucket = .ok m.files
  filter : m.filter = l.filter
  target : m.target = true → l.target = true
  attached : m.v1Config = l.v1Config ∧ m.v1Lock = l.v1Lock

/-- Whether a module is that of a remote declaration, with the files that were delivered under its
name. -/
structure IsFetchedFor (f : Fetched) (r : RemoteModule) (m : Module) : Prop where
  key : m.key? = some r.key
  name : m.name = some r.key.name
  isRemote : m.isLocal = false
  delivered : ∃ d ∈ f.deliveries, d.key.name = r.key.name ∧ ∀ c, Verified d c → m.files = c.files

theorem untargetIfEmpty_eq_ok {m m' : Module} (h : untargetIfEmpty w m = .ok m') :
    m' = m ∨ m' = { m with target := false } ∧ m.targetSchemas w = .ok [] := by
  unfold untargetIfEmpty at h
  split at h
  · obtain ⟨schemas, hschemas, h⟩ := bind_eq_ok.1 h
    split at h
    · rename_i hempty
      rw [List.isEmpty_iff.1 hempty] at hschemas
      exact .inr ⟨(Except.ok.inj h).symm, hschemas⟩
    · exact .inl (Except.ok.inj h).symm
  · exact .inl (Except.ok.inj h).symm

theorem gives_localModule {l : LocalModule} {m : Module} (h : (localModule l).Gives w m w') :
    IsModuleOf l m := by
  have hm := (Act.gives_ofWorld.1 h).1
  obtain ⟨files, hfiles, hm⟩ := bind_eq_ok.1 hm
  rcases untargetIfEmpty_eq_ok hm with rfl | ⟨rfl, _⟩
  · exact ⟨rfl, rfl, rfl, rfl, rfl, ⟨w, hfiles⟩, rfl, id, rfl, rfl⟩
  · exact ⟨rfl, rfl, rfl, rfl, rfl, ⟨w, hfiles⟩, rfl, fun h => (nomatch h), rfl, rfl⟩

theorem gives_remoteModule {f : Fetched} {r : RemoteModule} {m : Module}
    (h : (remoteModule f r).Gives w m w') : IsFetchedFor f r m := by
  rw [remoteModule] at h
  split at h
  · exact absurd h Act.not_gives_throw
  · rename_i d hd
    obtain ⟨⟨c, d₁⟩, w₁, hcontents, h⟩ := Act.gives_bind.1 h
    obtain ⟨digest, w₂, _, h⟩ := Act.gives_bind.1 h
    have hm := (Act.gives_ofWorld.1 h).1
    have hname : d.key.name = r.key.name := by
      have hfound := List.find?_some hd
      simpa using hfound
    have hdelivered : ∃ d ∈ f.deliveries, d.key.name = r.key.name ∧
        ∀ c', Verified d c' → c.files = c'.files := by
      refine ⟨d, List.mem_of_find?_eq_some hd, hname, fun c' hc' => ?_⟩
      rw [(gives_contents hcontents).2.2 c' hc']
    rcases untargetIfEmpty_eq_ok hm with rfl | ⟨rfl, _⟩
    · exact ⟨rfl, rfl, rfl, hdelivered⟩
    · exact ⟨rfl, rfl, rfl, hdelivered⟩

/-- Whether a set has the modules of local declarations, then those of remote ones. -/
structure Finished (locals : List LocalModule) (f : Fetched) (s : ModuleSet)
    (ls rs : List Module) : Prop where
  modules : s.modules = ls ++ rs
  locals : List.Forall₂ IsModuleOf locals ls
  remotes : List.Forall₂ (IsFetchedFor f) f.declared rs

theorem finish_steps {locals : List LocalModule} {f : Fetched} {s : ModuleSet}
    (h : (finish locals f).Gives w s w') :
    ∃ ls rs w₁, (locals.mapM localModule).Gives w ls w₁ ∧
      (f.declared.mapM (remoteModule f)).Gives w₁ rs w' ∧ ModuleSet.make (ls ++ rs) = .ok s := by
  rw [finish] at h
  obtain ⟨ls, w₁, hls, h⟩ := Act.gives_bind.1 h
  obtain ⟨rs, w₂, hrs, h⟩ := Act.gives_bind.1 h
  simp only at h
  split at h
  · obtain ⟨_, _, hthrow, _⟩ := Act.gives_bind.1 h
    exact absurd hthrow Act.not_gives_throw
  · obtain ⟨hmake, rfl⟩ := Act.gives_ofExcept.1 h
    exact ⟨ls, rs, w₁, hls, hrs, hmake⟩

/-- The modules of a set that is built have different IDs. -/
theorem nodup_ids_of_gives_build {provider : Provider} {rounds : Nat} {locals : List LocalModule}
    {remotes : List RemoteModule} {s : ModuleSet}
    (h : (ModuleSet.build provider rounds locals remotes).Gives w s w') :
    (s.modules.map Module.id).Nodup := by
  obtain ⟨f, w₁, _, hfinish⟩ := Act.gives_bind.1 h
  obtain ⟨ls, rs, w₂, _, _, hmake⟩ := finish_steps hfinish
  obtain ⟨rfl, hids⟩ := make_eq_ok hmake
  exact hids

theorem finished_of_gives {locals : List LocalModule} {f : Fetched} {ls rs : List Module}
    {w₁ w₂ : World} (hls : (locals.mapM localModule).Gives w ls w₁)
    (hrs : (f.declared.mapM (remoteModule f)).Gives w₁ rs w₂) :
    Finished locals f (.ofModules (ls ++ rs)) ls rs :=
  ⟨rfl, (Act.gives_mapM hls).imp fun _ _ ⟨_, _, hm⟩ => gives_localModule hm,
    (Act.gives_mapM hrs).imp fun _ _ ⟨_, _, hm⟩ => gives_remoteModule hm⟩

theorem gives_finish {locals : List LocalModule} {f : Fetched} {s : ModuleSet}
    (h : (finish locals f).Gives w s w') : ∃ ls rs, Finished locals f s ls rs := by
  obtain ⟨ls, rs, w₁, hls, hrs, hmake⟩ := finish_steps h
  rw [(make_eq_ok hmake).1]
  exact ⟨ls, rs, finished_of_gives hls hrs⟩

theorem of_localModules {locals : List LocalModule} {ls : List Module}
    (h : List.Forall₂ IsModuleOf locals ls) :
    ls.filterMap Module.name = namesOf locals ∧ ls.filterMap Module.key? = [] ∧
      ∀ m ∈ ls, m.isLocal = true := by
  induction h with
  | nil => exact ⟨rfl, rfl, fun _ hm => absurd hm List.not_mem_nil⟩
  | @cons l m locals ls hl _ ih =>
    obtain ⟨hnames, hkeys, hall⟩ := ih
    have hkey : m.key? = none := by
      have hlocal := hl.isLocal
      unfold Module.isLocal at hlocal
      unfold Module.key?
      split at hlocal
      · rfl
      · cases hlocal
    refine ⟨?_, ?_, List.forall_mem_cons.2 ⟨hl.isLocal, hall⟩⟩
    · rw [namesOf, List.filterMap_cons, List.filterMap_cons, hl.name, hnames]
      rfl
    · rw [List.filterMap_cons, hkey]
      exact hkeys

theorem of_remoteModules {f : Fetched} {declared : List RemoteModule} {rs : List Module}
    (h : List.Forall₂ (IsFetchedFor f) declared rs) :
    rs.filterMap Module.name = (keysOf declared).map ModuleKey.name ∧
      rs.filterMap Module.key? = keysOf declared ∧
      ∀ m ∈ rs, ∃ r ∈ declared, IsFetchedFor f r m := by
  induction h with
  | nil => exact ⟨rfl, rfl, fun _ hm => absurd hm List.not_mem_nil⟩
  | @cons r m declared rs hr _ ih =>
    obtain ⟨hnames, hkeys, hall⟩ := ih
    refine ⟨?_, ?_, fun n hn => ?_⟩
    · rw [List.filterMap_cons, hr.name, hnames]
      rfl
    · rw [List.filterMap_cons, hr.key, hkeys]
      rfl
    · rcases List.mem_cons.1 hn with rfl | hn
      · exact ⟨r, List.mem_cons_self, hr⟩
      · obtain ⟨q, hq, hfetched⟩ := hall n hn
        exact ⟨q, List.mem_cons_of_mem _ hq, hfetched⟩

/-- Where names differ, a module is the only one of its name. -/
theorem filter_name {modules : List Module} (h : (modules.filterMap Module.name).Nodup) {m : Module}
    (hm : m ∈ modules) {n : ModuleName} (hname : m.name = some n) :
    modules.filter (fun m => m.name = some n) = [m] := by
  induction modules with
  | nil => exact absurd hm List.not_mem_nil
  | cons first modules ih =>
    rcases List.mem_cons.1 hm with rfl | hm
    · rw [List.filterMap_cons, hname] at h
      have hrest : modules.filter (fun m => m.name = some n) = [] := by
        refine List.filter_eq_nil_iff.2 fun k hk hkn => ?_
        exact (List.nodup_cons.1 h).1 (List.mem_filterMap.2 ⟨k, hk, of_decide_eq_true hkn⟩)
      rw [List.filter_cons, if_pos (decide_eq_true hname), hrest]
    · have hmem : n ∈ modules.filterMap Module.name := List.mem_filterMap.2 ⟨m, hm, hname⟩
      cases hfirst : first.name with
      | none =>
        rw [List.filterMap_cons, hfirst] at h
        rw [List.filter_cons_of_neg (by simp [hfirst])]
        exact ih h hm
      | some k =>
        rw [List.filterMap_cons, hfirst] at h
        have hne : k ≠ n := fun hkn => (List.nodup_cons.1 h).1 (hkn ▸ hmem)
        rw [List.filter_cons_of_neg (by simp [hfirst, hne])]
        exact ih (List.nodup_cons.1 h).2 hm

/-- Modules of one name are the same, where IDs differ. -/
theorem eq_of_name {modules : List Module} (hids : (modules.map Module.id).Nodup) {m n : Module}
    (hm : m ∈ modules) (hn : n ∈ modules) {name : ModuleName} (hname : m.name = some name)
    (hname' : n.name = some name) : n = m :=
  List.inj_on_of_nodup_map hids hn hm (by rw [Module.id, Module.id, hname, hname'])

namespace Finished

variable {locals : List LocalModule} {f : Fetched} {s : ModuleSet} {ls rs : List Module}

theorem keys (h : Finished locals f s ls rs) :
    s.modules.filterMap Module.key? = keysOf f.declared := by
  rw [h.modules, List.filterMap_append, (of_localModules h.locals).2.1,
    (of_remoteModules h.remotes).2.1, List.nil_append]

theorem fetched (h : Finished locals f s ls rs) {m : Module} (hm : m ∈ s.modules) {key : ModuleKey}
    (hkey : m.key? = some key) : ∃ r ∈ f.declared, r.key = key ∧ IsFetchedFor f r m := by
  rw [h.modules] at hm
  rcases List.mem_append.1 hm with hm | hm
  · have hmem : key ∈ ls.filterMap Module.key? := List.mem_filterMap.2 ⟨m, hm, hkey⟩
    rw [(of_localModules h.locals).2.1] at hmem
    exact absurd hmem List.not_mem_nil
  · obtain ⟨r, hr, hfetched⟩ := (of_remoteModules h.remotes).2.2 m hm
    exact ⟨r, hr, Option.some.inj (hfetched.key.symm.trans hkey), hfetched⟩

theorem isRemote (h : Finished locals f s ls rs) {m : Module} (hm : m ∈ rs) :
    m.isLocal = false := by
  obtain ⟨r, _, hr⟩ := (of_remoteModules h.remotes).2.2 m hm
  exact hr.isRemote

theorem filter_isLocal (h : Finished locals f s ls rs) : s.modules.filter Module.isLocal = ls := by
  have hlocal : ls.filter Module.isLocal = ls :=
    List.filter_eq_self.2 (of_localModules h.locals).2.2
  have hremote : rs.filter Module.isLocal = [] := by
    refine List.filter_eq_nil_iff.2 fun m hm => ?_
    rw [h.isRemote hm]
    exact Bool.false_ne_true
  rw [h.modules, List.filter_append, hlocal, hremote, List.append_nil]

theorem nodup_names (h : Finished locals f s ls rs) (hlocals : (namesOf locals).Nodup)
    (hapart : Apart (namesOf locals) (keysOf f.declared)) :
    (s.modules.filterMap Module.name).Nodup := by
  rw [h.modules, List.filterMap_append, (of_localModules h.locals).1,
    (of_remoteModules h.remotes).1, List.nodup_append]
  refine ⟨hlocals, hapart.nodup, fun n hn n' hn' heq => ?_⟩
  obtain ⟨k, hk, rfl⟩ := List.mem_map.1 hn'
  exact hapart.remote k hk (heq ▸ hn)

/-- The module of a name is a local one where any is. -/
theorem exists_named (h : Finished locals f s ls rs)
    (hapart : Apart (namesOf locals) (keysOf f.declared)) {name : ModuleName}
    (hname : name ∈ namesOf locals ∨ name ∈ (keysOf f.declared).map ModuleKey.name) :
    ∃ m ∈ s.modules, m.name = some name ∧ (m.isLocal = true ↔ name ∈ namesOf locals) := by
  rcases hname with hmem | hmem
  · obtain ⟨hnames, _, hlocal⟩ := of_localModules h.locals
    obtain ⟨m, hm, hmname⟩ := List.mem_filterMap.1 (hnames.symm ▸ hmem)
    refine ⟨m, ?_, hmname, iff_of_true (hlocal m hm) hmem⟩
    rw [h.modules]
    exact List.mem_append_left _ hm
  · obtain ⟨m, hm, hmname⟩ := List.mem_filterMap.1 ((of_remoteModules h.remotes).1.symm ▸ hmem)
    have hnot : name ∉ namesOf locals := by
      obtain ⟨k, hk, rfl⟩ := List.mem_map.1 hmem
      exact hapart.remote k hk
    refine ⟨m, ?_, hmname, iff_of_false ?_ hnot⟩
    · rw [h.modules]
      exact List.mem_append_right _ hm
    · rw [h.isRemote hm]
      exact Bool.false_ne_true

end Finished

/-! ### Complete sets -/

/-- Whether a name is that of a declared remote module, or of one that a remote module of a set
declares to depend on. -/
def Wanted (remotes : List RemoteModule) (f : Fetched) (s : ModuleSet) (name : ModuleName) : Prop :=
  (∃ r ∈ remotes, r.key.name = name) ∨
    ∃ m ∈ s.modules, ∃ key dep, m.key? = some key ∧ DependsOn f key dep ∧ dep.name = name

/-- Whether a set has what it was declared to have and all that this depends on, no more than that,
and of each name one module, after the provider was asked for each remote one once. -/
structure Complete (locals : List LocalModule) (remotes : List RemoteModule) (f : Fetched)
    (s : ModuleSet) : Prop where
  localsFirst : ∃ ls rs, s.modules = ls ++ rs ∧ List.Forall₂ IsModuleOf locals ls ∧
    ∀ m ∈ rs, m.isLocal = false
  localsOnce : (locals.map LocalModule.bucketId).Nodup
  named : ∀ name, Wanted remotes f s name →
    ∃ m, s.modules.filter (fun m => m.name = some name) = [m] ∧
      (m.isLocal = true ↔ name ∈ namesOf locals)
  led : ∀ m ∈ s.modules, ∀ key, m.key? = some key → LedTo (namesOf locals) remotes f key
  delivered : ∀ m ∈ s.modules, ∀ key, m.key? = some key →
    m.name = some key.name ∧ ∃ d ∈ f.deliveries, d.key = key ∧ ∃ c, Verified d c ∧ m.files = c.files
  asked : s.modules.filterMap Module.key? = f.asked
  askedOnce : (f.asked.map ModuleKey.name).Nodup

section Complete

variable {locals : List LocalModule} {remotes : List RemoteModule} {f : Fetched} {s : ModuleSet}

/-- A name that is wanted was declared, unless a local module stands in. -/
theorem Wanted.known (hgathered : Gathered (namesOf locals) remotes f)
    (hall : ∀ r ∈ remotes, r.key.name ∈ namesOf locals ∨
      r.key.name ∈ (keysOf f.declared).map ModuleKey.name)
    {name : ModuleName} (h : Wanted remotes f s name) :
    name ∈ namesOf locals ∨ name ∈ (keysOf f.declared).map ModuleKey.name := by
  rcases h with ⟨r, hr, rfl⟩ | ⟨m, _, key, dep, _, ⟨d, hd, _, c, hc, hdep⟩, rfl⟩
  · exact hall r hr
  · obtain ⟨c₁, hc₁, hclosed⟩ := hgathered.closed d hd
    have heq : c₁ = c := Except.ok.inj (Memo.settled.inj (hc₁.symm.trans hc))
    rw [heq] at hclosed
    exact hclosed dep hdep

theorem IsFetchedFor.delivery (hgathered : Gathered (namesOf locals) remotes f)
    (hpending : Pending f []) {r : RemoteModule} {m : Module} (hr : r ∈ f.declared)
    (h : IsFetchedFor f r m) :
    ∃ d ∈ f.deliveries, d.key = r.key ∧ ∃ c, Verified d c ∧ m.files = c.files := by
  obtain ⟨d, hd, hname, hfiles⟩ := h.delivered
  obtain ⟨c, hc, _⟩ := hgathered.closed d hd
  have hrkey : r.key ∈ keysOf f.declared := List.mem_map_of_mem hr
  have hkey : d.key = r.key :=
    List.inj_on_of_nodup_map hgathered.apart.nodup (hpending.mem_declared hd) hrkey hname
  exact ⟨d, hd, hkey, c, hc, hfiles c hc⟩

theorem complete_of_finished (hlocals : checkLocals [] [] locals = .ok ())
    (hgathered : Gathered (namesOf locals) remotes f) (hpending : Pending f [])
    (hall : ∀ r ∈ remotes, r.key.name ∈ namesOf locals ∨
      r.key.name ∈ (keysOf f.declared).map ModuleKey.name)
    {ls rs : List Module} (h : Finished locals f s ls rs) : Complete locals remotes f s := by
  obtain ⟨hids, _, hnodup, _⟩ := nodup_of_checkLocals hlocals
  have hnames := h.nodup_names hnodup hgathered.apart
  constructor
  case localsFirst => exact ⟨ls, rs, h.modules, h.locals, fun m hm => h.isRemote hm⟩
  case localsOnce => exact hids
  case named =>
    intro name hwanted
    obtain ⟨m, hm, hname, hlocal⟩ :=
      h.exists_named hgathered.apart (hwanted.known hgathered hall)
    exact ⟨m, filter_name hnames hm hname, hlocal⟩
  case led =>
    intro m hm key hkey
    obtain ⟨r, hr, rfl, _⟩ := h.fetched hm hkey
    exact hgathered.led r.key (List.mem_map_of_mem hr)
  case delivered =>
    intro m hm key hkey
    obtain ⟨r, hr, rfl, hfetched⟩ := h.fetched hm hkey
    exact ⟨hfetched.name, hfetched.delivery hgathered hpending hr⟩
  case asked => exact h.keys.trans hpending.asked
  case askedOnce =>
    rw [← hpending.asked]
    exact hgathered.apart.nodup

/-- A set that is built of what a provider answers is complete. -/
theorem build_complete {provider : Provider} (hprovider : Answers provider) {rounds : Nat}
    (h : (ModuleSet.build provider rounds locals remotes).Gives w s w') :
    ∃ f w₁, (gather provider rounds locals remotes).Gives w f w₁ ∧
      Complete locals remotes f s := by
  obtain ⟨f, w₁, hgather, hfinish⟩ := Act.gives_bind.1 h
  obtain ⟨hlocals, hgathered, hpending, hall⟩ := gives_gather hprovider hgather
  obtain ⟨ls, rs, hfinished⟩ := gives_finish hfinish
  exact ⟨f, w₁, hgather, complete_of_finished hlocals hgathered hpending hall hfinished⟩

end Complete

/-! ### A diamond of dependencies -/

def keyNamed (name : String)
    (h : ["registry.test", "acme", name].all isNameComponent = true) : ModuleKey :=
  ⟨⟨"registry.test", "acme", name, h⟩, ⟨"00000000000000000000000000000000", by decide⟩,
    .known ⟨.b5, ⟨List.replicate 32 0, List.length_replicate⟩⟩⟩

def top : ModuleKey := keyNamed "top" (by decide)
def left : ModuleKey := keyNamed "left" (by decide)
def right : ModuleKey := keyNamed "right" (by decide)
def bottom : ModuleKey := keyNamed "bottom" (by decide)
def beside : ModuleKey := keyNamed "beside" (by decide)

/-- Delivers the modules of a diamond, without files. One of them depends on a module beside it. -/
def diamond : Provider := fun keys =>
  return keys.map fun key =>
    let deps :=
      if key = top then [left, right]
      else if key = left then [bottom]
      else if key = right then [beside, bottom]
      else []
    ⟨key, .ok (.objects .empty), deps, .settled (.ok ⟨.objects .empty, deps⟩)⟩

theorem answers_diamond : Answers diamond := by
  intro keys w deliveries w' h
  obtain ⟨rfl, _⟩ := Act.gives_pure.1 h
  rw [List.map_map]
  exact List.map_id keys

/-- A local module that stands in for the one beside the diamond. -/
def localBeside : LocalModule where
  bucket := .objects .empty
  bucketId := "beside"
  target := true
  name := some beside.name
  commit := none
  label := none
  filter := .all
  v1Config := none
  v1Lock := none

/-- Declarations of the diamond's top, twice, and of the module beside it. -/
def declarations : List RemoteModule :=
  [⟨top, true, [], []⟩, ⟨beside, false, [], []⟩, ⟨top, false, [], []⟩]

theorem build_diamond :
    Answers diamond ∧ ∃ s w',
      (ModuleSet.build diamond 3 [localBeside] declarations).Gives World.empty s w' ∧
      s.modules.map Module.name = [beside, top, left, right, bottom].map (some ·.name) ∧
      ∃ f w₁, (gather diamond 3 [localBeside] declarations).Gives World.empty f w₁ ∧
        Complete [localBeside] declarations f s := by
  have hnames : ((ModuleSet.build diamond 3 [localBeside] declarations).run World.empty).1.toOption.map
      (fun s => s.modules.map Module.name) =
        some ([beside, top, left, right, bottom].map (some ·.name)) := by
    decide +kernel
  obtain ⟨s, hs, hmodules⟩ := Option.map_eq_some_iff.1 hnames
  have hgives : (ModuleSet.build diamond 3 [localBeside] declarations).Gives World.empty s
      ((ModuleSet.build diamond 3 [localBeside] declarations).run World.empty).2 :=
    Prod.ext (toOption_eq_some.1 hs) rfl
  exact ⟨answers_diamond, s, _, hgives, hmodules, build_complete answers_diamond hgives⟩

end Schemata.ModuleSet.Build

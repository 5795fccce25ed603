import Schemata.Proofs.Registry.Fetching

/-!
# Keys that can be fetched

A set is built from a single key if all keys that it leads to stand for commits of the registry,
and those of one name for one commit. Then no digests have to be compared, and every round fetches
commits that were not fetched before, so there are at most as many rounds as commits.
-/

namespace Schemata

open Storage
open Relation (ReflTransGen)
open Schemata.Registry (Pushed Follows idOf)

namespace Registry

/-- Whether the commit that a registry has for a key depends on another. -/
def Declares (r : Registry) (k dep : ModuleKey) : Prop :=
  ∃ c, r.commit? k.name k.commit = some c ∧ dep ∈ c.deps

end Registry

/-- Whether all keys that a key leads to stand for commits of the registry, and those of one name
for one commit. -/
structure ModuleKey.Settled (w : World) (key : ModuleKey) : Prop where
  held : ∀ k, ReflTransGen w.registry.Declares key k →
    ∃ c, w.registry.commit? k.name k.commit = some c ∧ k.Found w c.digest
  alike : ∀ k k', ReflTransGen w.registry.Declares key k →
    ReflTransGen w.registry.Declares key k' → k.name = k'.name → k.commit = k'.commit

namespace ModuleSet.Build

variable {host : String} {log : List Pushed} {w w₁ w₂ w' : World} {key : ModuleKey}
  {target : Bool} {f f' : Fetched} {keys : List ModuleKey} {ds : List Delivery}

/-! ### Declarations without comparisons -/

/-- Whether a declaration keeps no file from being a target. -/
def Plain (r : RemoteModule) : Prop := r.paths = [] ∧ r.excludes = []

/-- A key that is of the commit of its name is declared without asking for digests. -/
theorem exists_declare {r : RemoteModule} {known : List RemoteModule} (hr : Plain r)
    (hknown : ∀ q ∈ known, Plain q)
    (halike : ∀ k ∈ keysOf known, k.name = r.key.name → k.commit = r.key.commit) :
    ∃ rs isNew, (declare r known).Gives w (rs, isNew) w ∧ ∀ q ∈ rs, Plain q := by
  induction known with
  | nil => exact ⟨[r], true, Act.gives_pure.2 ⟨rfl, rfl⟩, List.forall_mem_singleton.2 hr⟩
  | cons first known ih =>
    obtain ⟨hfirst, hknown⟩ := List.forall_mem_cons.1 hknown
    obtain ⟨hcommit, halike⟩ := List.forall_mem_cons.1 halike
    by_cases hname : first.key.name = r.key.name
    · have hcompare := gives_compareKeys_of_commit (w := w) (hcommit hname)
      refine ⟨_, _, (gives_declare_same hname).2 ⟨hcompare, rfl, rfl⟩,
        List.forall_mem_cons.2 ⟨⟨?_, ?_⟩, hknown⟩⟩
      · rw [merged, hfirst.1, hr.1]
        rfl
      · rw [merged, hfirst.2, hr.2]
        rfl
    · obtain ⟨rs, isNew, hgives, hplain⟩ := ih hknown halike
      exact ⟨first :: rs, isNew, (gives_declare_other hname).2 ⟨rs, hgives, rfl⟩,
        List.forall_mem_cons.2 ⟨hfirst, hplain⟩⟩

theorem exists_declareDeps {deps : List ModuleKey} {known : List RemoteModule}
    (hknown : ∀ q ∈ known, Plain q)
    (halike : ∀ k ∈ keysOf known ++ deps, ∀ k' ∈ deps, k.name = k'.name → k.commit = k'.commit) :
    ∃ rs keys, (declareDeps [] known deps).Gives w (rs, keys) w ∧ ∀ q ∈ rs, Plain q := by
  induction deps generalizing known with
  | nil => exact ⟨known, [], Act.gives_pure.2 ⟨rfl, rfl⟩, hknown⟩
  | cons dep deps ih =>
    obtain ⟨rs, isNew, hgives, hplain⟩ := exists_declare (w := w) (r := ⟨dep, false, [], []⟩)
      ⟨rfl, rfl⟩ hknown fun k hk => halike k (List.mem_append_left _ hk) dep List.mem_cons_self
    have hrest : ∀ k ∈ keysOf rs ++ deps, ∀ k' ∈ deps, k.name = k'.name → k.commit = k'.commit := by
      intro k hk k' hk'
      refine halike k ?_ k' (List.mem_cons_of_mem _ hk')
      rcases List.mem_append.1 hk with hk | hk
      · rcases (keys_of_gives_declare hgives).2 k hk with hk | rfl
        · exact List.mem_append_left _ hk
        · exact List.mem_append_right _ List.mem_cons_self
      · exact List.mem_append_right _ (List.mem_cons_of_mem _ hk)
    obtain ⟨rs', keys, hgives', hplain'⟩ := ih hplain hrest
    refine ⟨rs', if isNew then dep :: keys else keys, ?_, hplain'⟩
    rw [declareDeps]
    exact Act.gives_bind.2 ⟨_, w, hgives, Act.gives_bind.2 ⟨_, w, hgives',
      Act.gives_pure.2 ⟨rfl, rfl⟩⟩⟩

/-! ### Deliveries -/

theorem declares_of_dependsOn (hstocked : ∀ d ∈ f.deliveries, ∃ c, Stocked w d c)
    {k dep : ModuleKey} (h : DependsOn f k dep) : w.registry.Declares k dep := by
  obtain ⟨d, hd, rfl, contents, hcontents, hdep⟩ := h
  obtain ⟨c, hc⟩ := hstocked d hd
  exact ⟨c, hc.commit, hc.opened contents hcontents ▸ hdep⟩

/-- The delivery of a commit for a key of its digest opens. -/
theorem Stocked.exists_contents (hfollows : Follows host log w) {d : Delivery} {c : Commit}
    (h : Stocked w d c) (hcheck : d.check = .unresolved) (hkey : d.key.Found w c.digest)
    (hw : w.Consulted w₁) (hlive : w.live = true) :
    ∃ contents d' w', d.contents.Gives w₁ (contents, d') w' := by
  obtain ⟨e, he, _, _, rfl⟩ := hfollows.exists_pushed h.commit
  obtain ⟨haccepted, hfound⟩ := hfollows.keeps.2.2 e he
  obtain ⟨p, _, hdigest, hfiles, hdeps, hdigests⟩ := haccepted.exists_kept hfound.length_eq
  rw [show e.commit.digest = p.digest from hdigest.symm] at hkey
  have hdelivers := Store.delivers_sealed (p := { p with key := d.key }) (hw.live.trans hlive)
    (hkey.mono hw.before)
    (by rw [hdeps, hdigests]; exact hfound.imp fun _ _ hk => hk.mono hw.before)
  have hsealed : d = .sealed d.key (.ok (.objects p.files)) (p.deps.map Prod.fst) := by
    have hsource := h.source
    rw [show e.commit.files = e.push.moduleFiles from rfl, Objects.ofFiles_entries fun path hpath =>
      Path.validateObject_eq_ok.1 (haccepted.listed path hpath).2] at hsource
    obtain ⟨k, source, declared, check⟩ := d
    cases hcheck
    cases hsource
    rw [Delivery.sealed, hdeps, hfiles, show declared = e.push.deps from h.declared]
  obtain ⟨contents, d', w', hgives, _⟩ := hdelivers
  exact ⟨contents, d', w', hsealed ▸ hgives⟩

/-! ### Rounds -/

/-- What holds while a single key is fetched: the declarations are led to by the key, and what was
delivered is of the registry. -/
structure Underway (w : World) (key : ModuleKey) (target : Bool) (w₁ : World) (f : Fetched) :
    Prop where
  consulted : w.Consulted w₁
  gathered : Gathered [] [⟨key, target, [], []⟩] f
  stocked : ∀ d ∈ f.deliveries, ∃ c, Stocked w d c
  plain : ∀ q ∈ f.declared, Plain q

theorem Underway.led (h : Underway w key target w₁ f) {k : ModuleKey}
    (hk : k ∈ keysOf f.declared) : ReflTransGen w.registry.Declares key k := by
  obtain ⟨r, hr, _, hreach⟩ := h.gathered.led k hk
  cases List.mem_singleton.1 hr
  exact ReflTransGen.mono (fun _ _ => declares_of_dependsOn h.stocked) _ _ hreach

section Rounds

variable (hfollows : Follows host log w) (hlive : w.live = true) (hsettled : key.Settled w)

include hfollows hlive hsettled in
/-- Deliveries for declared keys are taken. -/
theorem Underway.exists_receive (h : Underway w key target w₁ f)
    (hds : ∀ d ∈ ds, d.key ∈ keysOf f.declared ∧ d.check = .unresolved ∧ ∃ c, Stocked w d c) :
    ∃ f' next w₂, (receive [] f ds).Gives w₁ (f', next) w₂ ∧ Underway w key target w₂ f' := by
  induction ds generalizing f w₁ with
  | nil => exact ⟨f, [], w₁, Act.gives_pure.2 ⟨rfl, rfl⟩, h⟩
  | cons d ds ih =>
    obtain ⟨⟨hd, hcheck, c, hc⟩, hds⟩ := List.forall_mem_cons.1 hds
    obtain ⟨c', hc', hfound⟩ := hsettled.held d.key (h.led hd)
    cases hc.commit.symm.trans hc'
    obtain ⟨contents, d', w₂, hcontents⟩ :=
      hc.exists_contents hfollows hcheck hfound h.consulted hlive
    obtain ⟨hkey, hverified, _⟩ := gives_contents hcontents
    have hc' := hc.after hcontents
    have hdeps := hc'.opened contents hverified
    have hled : ∀ k ∈ keysOf f.declared ++ contents.deps,
        ReflTransGen w.registry.Declares key k := by
      refine List.forall_mem_append.2 ⟨fun k hk => h.led hk, fun k hk => ?_⟩
      exact (h.led hd).tail ⟨c, hc.commit, hdeps ▸ hk⟩
    obtain ⟨rs, new, hdeclare, hplain⟩ := exists_declareDeps (w := w₂) h.plain fun k hk k' hk' =>
      hsettled.alike k k' (hled k hk) (hled k' (List.mem_append_right _ hk'))
    have hstep : Underway w key target w₂
        { f with declared := rs, deliveries := d' :: f.deliveries } :=
      ⟨h.consulted.trans (d.quiet_contents.consults.gives hcontents),
        h.gathered.deliver hd hkey hverified hdeclare,
        List.forall_mem_cons.2 ⟨⟨c, hc'⟩, h.stocked⟩, hplain⟩
    obtain ⟨_, hkeys, _⟩ := gives_declareDeps h.gathered.apart hdeclare
    obtain ⟨f', next, w₃, hrest, hunderway⟩ := ih hstep fun e he => by
      refine ⟨?_, (hds e he).2⟩
      rw [hkeys]
      exact List.mem_append_left _ (hds e he).1
    refine ⟨f', new ++ next, w₃, ?_, hunderway⟩
    rw [receive]
    exact Act.gives_bind.2 ⟨_, w₂, hcontents, Act.gives_bind.2 ⟨_, w₂, hdeclare,
      Act.gives_bind.2 ⟨_, w₃, hrest, Act.gives_pure.2 ⟨rfl, rfl⟩⟩⟩⟩

include hsettled in
/-- Declared keys are of different commits, so they are not more than there are. -/
theorem Underway.length_le (h : Underway w key target w₁ f) :
    (keysOf f.declared).length ≤ w.registry.commits.size := by
  have hheld : ∀ k ∈ keysOf f.declared, ∃ c, w.registry.commit? k.name k.commit = some c :=
    fun k hk => by
      obtain ⟨c, hc, _⟩ := hsettled.held k (h.led hk)
      exact ⟨c, hc⟩
  have hnodup : ((keysOf f.declared).map fun k => k.commit.text).Nodup := by
    refine (List.Nodup.of_map _ h.gathered.apart.nodup).map_on fun k hk k' hk' heq => ?_
    obtain ⟨c, hc⟩ := hheld k hk
    obtain ⟨c', hc'⟩ := hheld k' hk'
    have hcommit : k.commit = k'.commit := CommitId.text_injective heq
    obtain ⟨hfind, hname⟩ := Option.filter_eq_some_iff.1 hc
    obtain ⟨hfind', hname'⟩ := Option.filter_eq_some_iff.1 hc'
    rw [← hcommit, hfind] at hfind'
    cases hfind'
    exact List.inj_on_of_nodup_map h.gathered.apart.nodup hk hk'
      ((of_decide_eq_true hname).symm.trans (of_decide_eq_true hname'))
  have hsub : ((keysOf f.declared).map fun k => k.commit.text) ⊆ w.registry.commits.keys := by
    intro text htext
    obtain ⟨k, hk, rfl⟩ := List.mem_map.1 htext
    obtain ⟨c, hc⟩ := hheld k hk
    exact Table.mem_keys.2 ⟨c, (Option.filter_eq_some_iff.1 hc).1⟩
  have hle := (List.subperm_of_subset hnodup hsub).length_le
  rwa [List.length_map, Table.keys, List.length_map] at hle

include hlive hsettled in
theorem exists_provider (hw : w.Consulted w₁)
    (hkeys : ∀ k ∈ keys, ReflTransGen w.registry.Declares key k) :
    ∃ ds w₂, (Registry.provider keys).Gives w₁ ds w₂ := by
  have hdeliver : ∀ k ∈ keys, ∃ d, w₁.registry.deliver k = .ok d := by
    intro k hk
    obtain ⟨c, hc, _⟩ := hsettled.held k (hkeys k hk)
    rw [hw.deliver, Registry.deliver, hc]
    exact ⟨_, rfl⟩
  obtain ⟨ds, hds⟩ := exists_mapM_eq_ok hdeliver
  exact ⟨ds, _, Registry.gives_provider.2 ⟨hw.live.trans hlive, hds, rfl⟩⟩

include hfollows hlive hsettled in
/-- With as many rounds as there are commits left, all is fetched. -/
theorem Underway.exists_fetch {rounds : Nat} (h : Underway w key target w₁ f)
    (hpending : Pending f keys) (hrounds : w.registry.commits.size ≤ f.asked.length + rounds) :
    ∃ f' w₂, (fetch Registry.provider [] rounds keys f).Gives w₁ f' w₂ ∧
      Underway w key target w₂ f' ∧ Pending f' [] := by
  induction rounds generalizing keys f w₁ with
  | zero =>
    cases keys with
    | nil => exact ⟨f, w₁, Act.gives_pure.2 ⟨rfl, rfl⟩, h, hpending⟩
    | cons k keys =>
      have hle := h.length_le hsettled
      rw [hpending.declared, List.length_append, List.length_cons] at hle
      omega
  | succ rounds ih =>
    cases keys with
    | nil => exact ⟨f, w₁, Act.gives_pure.2 ⟨rfl, rfl⟩, h, hpending⟩
    | cons k keys =>
      have hdeclared : ∀ k' ∈ k :: keys, k' ∈ keysOf f.declared := by
        rw [hpending.declared]
        exact fun k' hk' => List.mem_append_right _ hk'
      obtain ⟨ds, w₂, hdeliver⟩ := exists_provider hlive hsettled h.consulted
        fun k' hk' => h.led (hdeclared k' hk')
      obtain ⟨hkeys, hds⟩ := gives_provider_stocked hdeliver h.consulted
      have hstep : Underway w key target w₂ { f with asked := f.asked ++ k :: keys } :=
        ⟨h.consulted.trans ((consults_provider _).gives hdeliver),
          ⟨h.gathered.apart, h.gathered.closed, h.gathered.led⟩, h.stocked, h.plain⟩
      have hall : ∀ d ∈ ds, d.key ∈ keysOf f.declared := fun d hd =>
        hdeclared _ (hkeys ▸ List.mem_map_of_mem hd)
      obtain ⟨f₁, next, w₃, hreceive, hunderway⟩ := hstep.exists_receive hfollows hlive hsettled
        fun d hd => ⟨hall d hd, hds d hd⟩
      obtain ⟨_, hmore, hasked, hdelivered⟩ := gives_receive hstep.gathered hall hreceive
      have hnext : Pending f₁ next := by
        constructor
        · rw [hmore, hasked, ← hpending.declared]
        · rw [hdelivered, hasked, List.reverse_append, hkeys]
          exact congrArg ((k :: keys).reverse ++ ·) hpending.delivered
      obtain ⟨f', w₄, hfetch, hdone⟩ := ih hunderway hnext (by
        rw [hasked, List.length_append, List.length_cons]
        omega)
      refine ⟨f', w₄, ?_, hdone⟩
      have hlength : ds.length = (k :: keys).length := by
        rw [← hkeys, List.length_map]
      rw [fetch_cons]
      refine Act.gives_bind.2 ⟨(), w₁, Act.gives_checkLive (h.consulted.live.trans hlive),
        Act.gives_bind.2 ⟨ds, w₂, hdeliver, ?_⟩⟩
      rw [if_neg (not_not_intro hlength)]
      exact Act.gives_bind.2 ⟨_, w₃, hreceive, hfetch⟩

end Rounds

/-! ### Sets of a single key -/

/-- A declared module whose delivery was verified is made. -/
theorem exists_remoteModule {r : RemoteModule} (hplain : Plain r)
    (hdelivered : ∃ d ∈ f.deliveries, d.key.name = r.key.name)
    (hverified : ∀ d ∈ f.deliveries, ∃ c, Verified d c) (w : World) :
    ∃ m w', (remoteModule f r).Gives w m w' ∧ m.name = some r.key.name ∧ m.target = r.target := by
  obtain ⟨d, hfind⟩ : ∃ d, f.deliveries.find? (fun d => d.key.name = r.key.name) = some d := by
    obtain ⟨d, hd, hname⟩ := hdelivered
    exact Option.isSome_iff_exists.1 (List.find?_isSome.2 ⟨d, hd, decide_eq_true hname⟩)
  obtain ⟨c, hc⟩ := hverified d (List.mem_of_find?_eq_some hfind)
  have hopen : d.contents.Gives w (c, d) w :=
    Act.gives_bind.2 ⟨_, w, Act.gives_lift.2 (Delivery.open?_settled hc), Act.gives_pure.2 ⟨rfl, rfl⟩⟩
  let m : Module :=
    { bucketId := "", name := some r.key.name, commit := some r.key.commit, label := none
      target := r.target, origin := .fetched r.key (r.key.resolveDigest.run w).1
      files := c.files, filter := ⟨r.paths, r.excludes, none, false⟩, v1Config := none, v1Lock := none }
  have hkept (w : World) : untargetIfEmpty w m = .ok m := by
    have hactive : m.filter.isActive = false := by
      rw [Module.Filter.isActive, show m.filter.paths = [] from hplain.1,
        show m.filter.excludes = [] from hplain.2]
      rfl
    rw [untargetIfEmpty, hactive, Bool.and_false]
    rfl
  rw [remoteModule, hfind]
  exact ⟨m, (r.key.resolveDigest.run w).2, Act.gives_bind.2 ⟨_, w, hopen, Act.gives_bind.2
    ⟨_, _, Act.gives_lift.2 rfl, Act.gives_ofWorld.2 ⟨hkept _, rfl⟩⟩⟩, rfl, rfl⟩

theorem exists_remoteModules {declared : List RemoteModule}
    (h : ∀ r ∈ declared, ∀ w, ∃ m w', (remoteModule f r).Gives w m w' ∧
      m.name = some r.key.name ∧ m.target = r.target) (w : World) :
    ∃ ms w', (declared.mapM (remoteModule f)).Gives w ms w' ∧
      ms.map Module.id = ((keysOf declared).map ModuleKey.name).map ModuleName.text ∧
      ms.any Module.target = declared.any RemoteModule.target := by
  induction declared generalizing w with
  | nil => exact ⟨[], w, Act.gives_pure.2 ⟨rfl, rfl⟩, rfl, rfl⟩
  | cons r declared ih =>
    obtain ⟨hr, hrest⟩ := List.forall_mem_cons.1 h
    obtain ⟨m, w₁, hm, hname, htarget⟩ := hr w
    obtain ⟨ms, w₂, hms, hids, htargets⟩ := ih hrest w₁
    refine ⟨m :: ms, w₂, ?_, ?_, ?_⟩
    · rw [List.mapM_cons]
      exact Act.gives_bind.2 ⟨m, w₁, hm, Act.gives_bind.2 ⟨ms, w₂, hms,
        Act.gives_pure.2 ⟨rfl, rfl⟩⟩⟩
    · rw [List.map_cons, hids, Module.id, hname]
      rfl
    · rw [List.any_cons, List.any_cons, htarget, htargets]

/-- What was fetched makes a set. -/
theorem exists_finish (hapart : Apart [] (keysOf f.declared)) (hpending : Pending f [])
    (hplain : ∀ r ∈ f.declared, Plain r) (hverified : ∀ d ∈ f.deliveries, ∃ c, Verified d c)
    (w : World) : ∃ s w', (finish [] f).Gives w s w' := by
  have hdelivered : ∀ r ∈ f.declared, ∃ d ∈ f.deliveries, d.key.name = r.key.name := by
    intro r hr
    have hkey : r.key ∈ f.deliveries.map Delivery.key := by
      rw [hpending.delivered, List.mem_reverse, ← hpending.asked]
      exact List.mem_map_of_mem hr
    obtain ⟨d, hd, hkey⟩ := List.mem_map.1 hkey
    exact ⟨d, hd, by rw [hkey]⟩
  obtain ⟨ms, w', hms, hids, htargets⟩ := exists_remoteModules
    (fun r hr => exists_remoteModule (hplain r hr) (hdelivered r hr) hverified) w
  have hnodup : (ms.map Module.id).Nodup := by
    rw [hids]
    exact hapart.nodup.map ModuleName.text_injective
  refine ⟨.ofModules ms, w', Act.gives_bind.2 ⟨[], w, Act.gives_pure.2 ⟨rfl, rfl⟩,
    Act.gives_bind.2 ⟨ms, w', hms, ?_⟩⟩⟩
  simp only [List.nil_append, List.any_nil, Bool.false_or, htargets, Bool.and_not_self,
    Bool.false_eq_true, if_false]
  exact Act.gives_ofExcept.2 ⟨make_of_nodup hnodup, rfl⟩

theorem exists_key? {m : Module} (h : m.isLocal = false) : ∃ k, m.key? = some k := by
  unfold Module.isLocal at h
  unfold Module.key?
  cases ho : m.origin with
  | workspace =>
    rw [ho] at h
    cases h
  | fetched k digest => exact ⟨k, rfl⟩

/-- A set of a single key has nothing but what the key leads to. -/
theorem led_of_build {rounds : Nat} {s : ModuleSet}
    (h : (ModuleSet.build Registry.provider rounds [] [⟨key, target, [], []⟩]).Gives w s w') :
    ∀ m ∈ s.modules, ∃ k, m.name = some k.name ∧ ReflTransGen w.registry.Declares key k := by
  obtain ⟨f, _, hgather, hcomplete⟩ := build_complete answers_provider h
  obtain ⟨_, _, hstocked⟩ := stocked_of_gives_gather hgather
  obtain ⟨ls, rs, hmodules, hlocals, hremote⟩ := hcomplete.localsFirst
  cases hlocals
  intro m hm
  obtain ⟨k, hk⟩ := exists_key? (hremote m (by rwa [hmodules] at hm))
  obtain ⟨r, hr, _, hled⟩ := hcomplete.led m hm k hk
  cases List.mem_singleton.1 hr
  exact ⟨k, (hcomplete.delivered m hm k hk).1,
    ReflTransGen.mono (fun _ _ => declares_of_dependsOn hstocked) _ _ hled⟩

/-- A set is built of a settled key. -/
theorem exists_build (hfollows : Follows host log w) (hlive : w.live = true)
    (hsettled : key.Settled w) (target : Bool) :
    ∃ s w', (ModuleSet.build Registry.provider w.fetchRounds [] [⟨key, target, [], []⟩]).Gives
      w s w' := by
  have hdeclare : (declareAll [] [] [⟨key, target, [], []⟩]).Gives w [⟨key, target, [], []⟩] w := rfl
  have hnone : Apart [] (keysOf []) := ⟨.nil, fun _ hk => absurd hk List.not_mem_nil⟩
  have hstart : Underway w key target w ⟨[⟨key, target, [], []⟩], [], []⟩ := by
    refine ⟨.refl w, ⟨(gives_declareAll hnone hdeclare).1, fun _ hd => absurd hd List.not_mem_nil,
      fun k hk => ?_⟩, fun _ hd => absurd hd List.not_mem_nil,
      List.forall_mem_singleton.2 ⟨rfl, rfl⟩⟩
    cases List.mem_singleton.1 hk
    exact ⟨_, List.mem_singleton_self _, List.not_mem_nil, .refl⟩
  have hasked : Pending ⟨[⟨key, target, [], []⟩], [], []⟩ [key] := ⟨rfl, rfl⟩
  have hrounds : w.registry.commits.size ≤ ([] : List ModuleKey).length + w.fetchRounds := by
    rw [World.fetchRounds]
    omega
  obtain ⟨f, w₁, hfetch, hdone, hpending⟩ :=
    hstart.exists_fetch hfollows hlive hsettled hasked hrounds
  have hgather : (gather Registry.provider w.fetchRounds [] [⟨key, target, [], []⟩]).Gives w f w₁ :=
    Act.gives_bind.2 ⟨(), w, Act.gives_checkLive hlive, Act.gives_bind.2 ⟨(), w,
      Act.gives_ofExcept.2 ⟨rfl, rfl⟩, Act.gives_bind.2 ⟨_, w, hdeclare, hfetch⟩⟩⟩
  obtain ⟨s, w', hfinish⟩ := exists_finish hdone.gathered.apart hpending hdone.plain
    (fun d hd => by
      obtain ⟨c, hc, _⟩ := hdone.gathered.closed d hd
      exact ⟨c, hc⟩) w₁
  exact ⟨s, w', Act.gives_bind.2 ⟨f, w₁, hgather, hfinish⟩⟩

end ModuleSet.Build

end Schemata

import Schemata.Proofs.Module.Providers
import Schemata.Proofs.ModuleSet.Gathering

/-!
# Agreement on digests

The first key of a name stays. A later key of that name, wherever it comes from, is compared with
it: of another commit it has to have the same digest. Two keys of one commit are not compared, so
what is said about all keys of a name needs that a commit has one digest.
-/

namespace Schemata.ModuleSet.Build

open Schemata.Module (Error)

variable {w w₁ w' : World}

/-! ### Comparisons -/

/-- Whether a key is of the same name as one of some keys, and of the same commit or digest. -/
def Agrees (w : World) (keys : List ModuleKey) (k : ModuleKey) : Prop :=
  ∃ first ∈ keys, first.name = k.name ∧
    (first.commit = k.commit ∨ ∃ x, first.Found w x ∧ k.Found w x)

section Comparisons

variable {keys keys' : List ModuleKey} {k k' : ModuleKey}

theorem Agrees.mono (h : Agrees w keys k) (hw : w.Before w') (hsub : keys ⊆ keys') :
    Agrees w' keys' k := by
  obtain ⟨first, hfirst, hname, hsame⟩ := h
  refine ⟨first, hsub hfirst, hname, hsame.imp_right fun ⟨x, hx, hkx⟩ => ?_⟩
  exact ⟨x, hx.mono hw, hkx.mono hw⟩

theorem agrees_of_mem (h : k ∈ keys) : Agrees w keys k := ⟨k, h, rfl, .inl rfl⟩

/-- Whether keys of one name and commit have one digest. -/
def OneDigestPerCommit (w : World) (Met : ModuleKey → Prop) : Prop :=
  ∀ k k', Met k → Met k' → k.name = k'.name → k.commit = k'.commit →
    ∀ x x', k.HasDigest w x → k'.HasDigest w x' → x = x'

/-- Whether keys of one name have one digest. -/
def OneDigestPerName (w : World) (Met : ModuleKey → Prop) : Prop :=
  ∀ k k', Met k → Met k' → k.name = k'.name →
    ∀ x x', k.HasDigest w x → k'.HasDigest w x' → x = x'

/-- Keys that agree with the first of their name have one digest, if each commit has. -/
theorem oneDigestPerName {Met : ModuleKey → Prop} (hnodup : (keys.map ModuleKey.name).Nodup)
    (hkeys : ∀ k ∈ keys, Met k) (hmet : ∀ k, Met k → Agrees w keys k)
    (hone : OneDigestPerCommit w Met) : OneDigestPerName w Met := by
  intro k k' hk hk' hname x x' hx hx'
  obtain ⟨first, hfirst, hfirstName, hsame⟩ := hmet k hk
  obtain ⟨first', hfirst', hfirstName', hsame'⟩ := hmet k' hk'
  have hunique : first = first' :=
    List.inj_on_of_nodup_map hnodup hfirst hfirst' (by rw [hfirstName, hname, hfirstName'])
  subst hunique
  -- the first key of the name stands between the two, by its commit or by its digest
  rcases hsame with hcommit | ⟨y, hy, hky⟩
  · rcases hsame' with hcommit' | ⟨y, hy, hky'⟩
    · exact hone k k' hk hk' hname (hcommit.symm.trans hcommit') x x' hx hx'
    · rw [hx'.unique hky'.hasDigest]
      exact hone k first hk (hkeys first hfirst) hfirstName.symm hcommit.symm x y hx hy.hasDigest
  · rcases hsame' with hcommit' | ⟨y', hy', hky'⟩
    · rw [hx.unique hky.hasDigest]
      exact hone first k' (hkeys first hfirst) hk' hfirstName' hcommit' y x' hy.hasDigest hx'
    · rw [hx.unique hky.hasDigest, hx'.unique hky'.hasDigest]
      exact hy.unique hy'

end Comparisons

/-! ### Declarations -/

section Declarations

variable {locals : List ModuleName}

theorem keys_of_gives_declare {r : RemoteModule} {known rs : List RemoteModule} {isNew : Bool}
    (h : (declare r known).Gives w (rs, isNew) w') :
    keysOf known ⊆ keysOf rs ∧ ∀ k ∈ keysOf rs, k ∈ keysOf known ∨ k = r.key := by
  rw [(gives_declare h).1]
  refine ⟨List.subset_append_left _ _, fun k hk => (List.mem_append.1 hk).imp_right fun hk => ?_⟩
  cases isNew with
  | true => exact List.mem_singleton.1 hk
  | false => exact absurd hk List.not_mem_nil

/-- Keys that were compared are of one commit or of one digest. -/
theorem agreed_of_gives_compareKeys {first second : ModuleKey} (hfirst : first.In w)
    (hsecond : second.In w) (h : (compareKeys first second).Gives w () w') :
    w.Before w' ∧ (first.commit = second.commit ∨ ∃ x, first.Found w' x ∧ second.Found w' x) := by
  rw [compareKeys] at h
  split at h
  · obtain ⟨x, w₁, hx, h⟩ := Act.gives_bind.1 h
    obtain ⟨y, w₂, hy, h⟩ := Act.gives_bind.1 h
    have hbefore := ModuleKey.before_of_gives hx
    have hbefore' := ModuleKey.before_of_gives hy
    split at h
    · exact absurd h Act.not_gives_throw
    · rename_i hsame
      obtain ⟨_, rfl⟩ := Act.gives_pure.1 h
      have hfound := (ModuleKey.found_of_gives hfirst hx).mono hbefore'
      have hfound' := ModuleKey.found_of_gives (hsecond.mono hbefore) hy
      rw [← not_not.1 hsame] at hfound'
      exact ⟨hbefore.trans hbefore', .inr ⟨x, hfound, hfound'⟩⟩
  · rename_i hcommit
    obtain ⟨_, rfl⟩ := Act.gives_pure.1 h
    exact ⟨.refl _, .inl (not_not.1 hcommit)⟩

theorem agrees_of_gives_declare {r : RemoteModule} {known rs : List RemoteModule} {isNew : Bool}
    (hknown : ∀ k ∈ keysOf known, k.In w) (hr : r.key.In w)
    (h : (declare r known).Gives w (rs, isNew) w') :
    w.Before w' ∧ Agrees w' (keysOf rs) r.key := by
  induction known generalizing rs with
  | nil =>
    rw [declare] at h
    obtain ⟨heq, rfl⟩ := Act.gives_pure.1 h
    cases heq
    exact ⟨.refl _, agrees_of_mem List.mem_cons_self⟩
  | cons first known ih =>
    obtain ⟨hfirst, hknown⟩ := List.forall_mem_cons.1 hknown
    by_cases hname : first.key.name = r.key.name
    · obtain ⟨hcompare, rfl, _⟩ := (gives_declare_same hname).1 h
      obtain ⟨hbefore, hagreed⟩ := agreed_of_gives_compareKeys hfirst hr hcompare
      exact ⟨hbefore, first.key, List.mem_cons_self, hname, hagreed⟩
    · obtain ⟨rest, hrest, rfl⟩ := (gives_declare_other hname).1 h
      obtain ⟨hbefore, hagrees⟩ := ih hknown hrest
      exact ⟨hbefore, hagrees.mono (.refl _) (List.subset_cons_self _ _)⟩

theorem agrees_of_gives_declareAll {remotes known rs : List RemoteModule}
    (hknown : ∀ k ∈ keysOf known, k.In w)
    (hremotes : ∀ r ∈ remotes, r.key.name ∉ locals → r.key.In w)
    (h : (declareAll locals known remotes).Gives w rs w') :
    w.Before w' ∧ keysOf known ⊆ keysOf rs ∧ (∀ k ∈ keysOf rs, k.In w') ∧
      ∀ r ∈ remotes, r.key.name ∈ locals ∨ Agrees w' (keysOf rs) r.key := by
  induction remotes generalizing known w with
  | nil =>
    rw [declareAll] at h
    obtain ⟨rfl, rfl⟩ := Act.gives_pure.1 h
    exact ⟨.refl _, List.Subset.refl _, hknown, fun _ hr => absurd hr List.not_mem_nil⟩
  | cons r remotes ih =>
    obtain ⟨hr, hremotes⟩ := List.forall_mem_cons.1 hremotes
    rw [declareAll] at h
    split at h
    · rename_i hlocal
      obtain ⟨hbefore, hsub, hin, hall⟩ := ih hknown hremotes h
      exact ⟨hbefore, hsub, hin,
        List.forall_mem_cons.2 ⟨.inl (List.contains_iff_mem.1 hlocal), hall⟩⟩
    · rename_i hlocal
      obtain ⟨⟨rs₁, isNew⟩, w₁, hdeclare, h⟩ := Act.gives_bind.1 h
      have hr := hr fun hmem => hlocal (List.contains_iff_mem.2 hmem)
      obtain ⟨hbefore₁, hagrees⟩ := agrees_of_gives_declare hknown hr hdeclare
      obtain ⟨hsub₁, hkeys₁⟩ := keys_of_gives_declare hdeclare
      have hknown₁ : ∀ k ∈ keysOf rs₁, k.In w₁ := by
        intro k hk
        rcases hkeys₁ k hk with hk | rfl
        · exact (hknown k hk).mono hbefore₁
        · exact hr.mono hbefore₁
      obtain ⟨hbefore, hsub, hin, hall⟩ :=
        ih hknown₁ (fun q hq hlocal => (hremotes q hq hlocal).mono hbefore₁) h
      exact ⟨hbefore₁.trans hbefore, fun k hk => hsub (hsub₁ hk), hin,
        List.forall_mem_cons.2 ⟨.inr (hagrees.mono hbefore hsub), hall⟩⟩

/-- Declaring dependencies is declaring modules that are no targets. -/
theorem declareAll_deps (deps : List ModuleKey) (known : List RemoteModule) :
    declareAll locals known (deps.map (⟨·, false, [], []⟩)) =
      (declareDeps locals known deps >>= fun q => pure q.1) := by
  induction deps generalizing known with
  | nil => rfl
  | cons dep deps ih =>
    rw [List.map_cons, declareAll, declareDeps]
    split
    · exact ih known
    · simp only [bind_assoc, pure_bind, ih]

end Declarations

/-! ### Rounds -/

/-- Whether a key was declared or found among the dependencies of what was delivered, and no local
module stands in for it. -/
def Met (locals : List ModuleName) (remotes : List RemoteModule) (f : Fetched) (k : ModuleKey) :
    Prop :=
  k.name ∉ locals ∧
    (k ∈ keysOf remotes ∨ ∃ d ∈ f.deliveries, ∃ c, Verified d c ∧ k ∈ c.deps)

/-- What holds all the while remote modules are fetched: every key that was met agrees with one that
is declared, and what was delivered has passed its verification. -/
structure Agreed (locals : List ModuleName) (remotes : List RemoteModule) (w : World)
    (f : Fetched) : Prop where
  closed : w.Closed
  apart : Apart locals (keysOf f.declared)
  keys : ∀ k ∈ keysOf f.declared, k.In w ∧ Met locals remotes f k
  sound : ∀ d ∈ f.deliveries, d.Sound w ∧ ∃ c, Verified d c
  met : ∀ k, Met locals remotes f k → Agrees w (keysOf f.declared) k

section Rounds

variable {locals : List ModuleName} {remotes : List RemoteModule} {f f' : Fetched}

theorem Agreed.after (h : Agreed locals remotes w f) (hw : w.Before w') (asked : List ModuleKey) :
    Agreed locals remotes w' { f with asked := asked } := by
  refine ⟨hw.closed h.closed, h.apart, fun k hk => ?_, fun d hd => ?_, fun k hk => ?_⟩
  · exact ⟨(h.keys k hk).1.mono hw, (h.keys k hk).2⟩
  · exact ⟨(h.sound d hd).1.mono hw, (h.sound d hd).2⟩
  · exact (h.met k hk).mono hw (List.Subset.refl _)

/-- A delivery that gives its contents adds its dependencies to the keys that were met. -/
theorem Agreed.deliver (h : Agreed locals remotes w f) {d d' : Delivery} {c : Contents}
    (hd : d.Sound w) (hcontents : d.contents.Gives w (c, d') w₁) {rs : List RemoteModule}
    {keys : List ModuleKey}
    (hdeps : (declareDeps locals f.declared c.deps).Gives w₁ (rs, keys) w') :
    w.Before w' ∧ keys ⊆ keysOf rs ∧ keysOf f.declared ⊆ keysOf rs ∧
      Agreed locals remotes w' { f with declared := rs, deliveries := d' :: f.deliveries } := by
  obtain ⟨hbefore₁, hsound, hcheck, _, hdeclared⟩ := hd.contents hcontents
  obtain ⟨hapart, hkeys, hsubDeps, _⟩ := gives_declareDeps h.apart hdeps
  have hdepsIn : ∀ r ∈ c.deps.map (RemoteModule.mk · false [] []), r.key.name ∉ locals →
      r.key.In w₁ := by
    intro r hr _
    obtain ⟨dep, hdep, rfl⟩ := List.mem_map.1 hr
    rw [hdeclared] at hdep
    exact (hd.keys dep (List.mem_cons_of_mem _ hdep)).mono hbefore₁
  have hall : (declareAll locals f.declared (c.deps.map (⟨·, false, [], []⟩))).Gives w₁ rs w' := by
    rw [declareAll_deps]
    exact Act.gives_bind.2 ⟨_, w', hdeps, Act.gives_pure.2 ⟨rfl, rfl⟩⟩
  obtain ⟨hbefore₂, hsub, hin, hagrees⟩ :=
    agrees_of_gives_declareAll (fun k hk => (h.keys k hk).1.mono hbefore₁) hdepsIn hall
  have hbefore := hbefore₁.trans hbefore₂
  have hsubKeys : keys ⊆ keysOf rs := by
    rw [hkeys]
    exact List.subset_append_right _ _
  have hgrow {k : ModuleKey} (hk : Met locals remotes f k) :
      Met locals remotes { f with declared := rs, deliveries := d' :: f.deliveries } k := by
    refine ⟨hk.1, hk.2.imp_right fun ⟨e, he, hdep⟩ => ⟨e, List.mem_cons_of_mem _ he, hdep⟩⟩
  refine ⟨hbefore, hsubKeys, hsub, hbefore.closed h.closed, hapart,
    fun k hk => ⟨hin k hk, ?_⟩, ?_, ?_⟩
  · rw [hkeys] at hk
    rcases List.mem_append.1 hk with hk' | hk'
    · exact hgrow (h.keys k hk').2
    · exact ⟨hapart.remote k (hkeys ▸ hk), .inr ⟨d', List.mem_cons_self, c, hcheck, hsubDeps hk'⟩⟩
  · refine List.forall_mem_cons.2 ⟨⟨hsound.mono hbefore₂, c, hcheck⟩, fun e he => ?_⟩
    exact ⟨(h.sound e he).1.mono hbefore, (h.sound e he).2⟩
  · -- a key that is met only now is one of the dependencies that were just declared
    rintro k ⟨hlocal, hk | ⟨e, he, c', hc', hk⟩⟩
    · exact (h.met k ⟨hlocal, .inl hk⟩).mono hbefore hsub
    · rcases List.mem_cons.1 he with rfl | he
      · have hcc : c = c' := Except.ok.inj (Memo.settled.inj (hcheck.symm.trans hc'))
        rw [← hcc] at hk
        exact (hagrees ⟨k, false, [], []⟩ (List.mem_map_of_mem hk)).resolve_left hlocal
      · exact (h.met k ⟨hlocal, .inr ⟨e, he, c', hc', hk⟩⟩).mono hbefore hsub

theorem agreed_of_gives_receive {ds : List Delivery} {next : List ModuleKey}
    (h : Agreed locals remotes w f) (hds : ∀ d ∈ ds, d.Sound w)
    (hreceive : (receive locals f ds).Gives w (f', next) w') :
    w.Before w' ∧ next ⊆ keysOf f'.declared ∧ keysOf f.declared ⊆ keysOf f'.declared ∧
      Agreed locals remotes w' f' := by
  induction ds generalizing f w f' next with
  | nil =>
    rw [receive] at hreceive
    obtain ⟨heq, rfl⟩ := Act.gives_pure.1 hreceive
    cases heq
    exact ⟨.refl _, List.nil_subset _, List.Subset.refl _, h⟩
  | cons d ds ih =>
    obtain ⟨hd, hds⟩ := List.forall_mem_cons.1 hds
    rw [receive] at hreceive
    obtain ⟨⟨c, d'⟩, w₁, hcontents, hreceive⟩ := Act.gives_bind.1 hreceive
    obtain ⟨⟨rs, keys⟩, w₂, hdeps, hreceive⟩ := Act.gives_bind.1 hreceive
    obtain ⟨⟨f₁, more⟩, w₃, hrest, hreceive⟩ := Act.gives_bind.1 hreceive
    obtain ⟨heq, rfl⟩ := Act.gives_pure.1 hreceive
    cases heq
    obtain ⟨hbefore, hkeys, hsub, hstep⟩ := h.deliver hd hcontents hdeps
    obtain ⟨hbefore', hmore, hsub', hagreed⟩ :=
      ih hstep (fun e he => (hds e he).mono hbefore) hrest
    refine ⟨hbefore.trans hbefore', ?_, fun k hk => hsub' (hsub hk), hagreed⟩
    exact List.append_subset.2 ⟨fun k hk => hsub' (hkeys hk), hmore⟩

theorem agreed_of_gives_fetch {provider : Provider} (hprovider : provider.Faithful) {rounds : Nat}
    {keys : List ModuleKey} (h : Agreed locals remotes w f) (hkeys : keys ⊆ keysOf f.declared)
    (hfetch : (fetch provider locals rounds keys f).Gives w f' w') :
    w.Before w' ∧ Agreed locals remotes w' f' := by
  induction rounds generalizing keys f w with
  | zero =>
    cases keys with
    | nil =>
      obtain ⟨rfl, rfl⟩ := Act.gives_pure.1 hfetch
      exact ⟨.refl _, h⟩
    | cons key keys => exact absurd hfetch Act.not_gives_throw
  | succ rounds ih =>
    cases keys with
    | nil =>
      obtain ⟨rfl, rfl⟩ := Act.gives_pure.1 hfetch
      exact ⟨.refl _, h⟩
    | cons key keys =>
      rw [fetch_cons] at hfetch
      obtain ⟨_, w₁, hlive, hfetch⟩ := Act.gives_bind.1 hfetch
      obtain ⟨_, rfl⟩ := Act.gives_ofWorld.1 hlive
      obtain ⟨deliveries, w₁, hdeliver, hfetch⟩ := Act.gives_bind.1 hfetch
      obtain ⟨hbefore₁, hsound⟩ :=
        hprovider h.closed (fun k hk => (h.keys k (hkeys hk)).1) hdeliver
      split at hfetch
      · obtain ⟨_, _, hthrow, _⟩ := Act.gives_bind.1 hfetch
        exact absurd hthrow Act.not_gives_throw
      · obtain ⟨⟨f₁, next⟩, w₂, hreceive, hfetch⟩ := Act.gives_bind.1 hfetch
        obtain ⟨hbefore₂, hnext, _, hagreed⟩ :=
          agreed_of_gives_receive (h.after hbefore₁ _) hsound hreceive
        obtain ⟨hbefore₃, hdone⟩ := ih hagreed hnext hfetch
        exact ⟨hbefore₁.trans (hbefore₂.trans hbefore₃), hdone⟩

theorem agreed_of_gives_declareAll {declared : List RemoteModule} (hclosed : w.Closed)
    (hremotes : ∀ r ∈ remotes, r.key.In w)
    (h : (declareAll locals [] remotes).Gives w declared w') :
    w.Before w' ∧ Agreed locals remotes w' ⟨declared, [], []⟩ := by
  have hnone : Apart locals (keysOf []) := ⟨.nil, fun _ hk => absurd hk List.not_mem_nil⟩
  obtain ⟨hapart, _, _, hnew⟩ := gives_declareAll hnone h
  obtain ⟨hbefore, _, hin, hagrees⟩ := agrees_of_gives_declareAll
    (fun _ hk => absurd hk List.not_mem_nil) (fun r hr _ => hremotes r hr) h
  refine ⟨hbefore, hbefore.closed hclosed, hapart, fun k hk => ⟨hin k hk, hapart.remote k hk, ?_⟩,
    fun _ hd => absurd hd List.not_mem_nil, ?_⟩
  · obtain ⟨r, hr, rfl⟩ := (hnew k hk).resolve_left List.not_mem_nil
    exact .inl (List.mem_map_of_mem hr)
  · rintro k ⟨hlocal, hk | ⟨_, hd, _⟩⟩
    · obtain ⟨r, hr, rfl⟩ := List.mem_map.1 hk
      exact (hagrees r hr).resolve_left hlocal
    · exact absurd hd List.not_mem_nil

end Rounds

theorem agreed_of_gives_gather {provider : Provider} (hprovider : provider.Faithful) {rounds : Nat}
    {locals : List LocalModule} {remotes : List RemoteModule} {f : Fetched} (hclosed : w.Closed)
    (hremotes : ∀ r ∈ remotes, r.key.In w)
    (h : (gather provider rounds locals remotes).Gives w f w') :
    w.Before w' ∧ Agreed (namesOf locals) remotes w' f := by
  rw [gather] at h
  obtain ⟨_, w₁, hlive, h⟩ := Act.gives_bind.1 h
  obtain ⟨_, rfl⟩ := Act.gives_ofWorld.1 hlive
  obtain ⟨_, w₂, hlocals, h⟩ := Act.gives_bind.1 h
  obtain ⟨_, rfl⟩ := Act.gives_ofExcept.1 hlocals
  obtain ⟨declared, w₂, hdeclare, hfetch⟩ := Act.gives_bind.1 h
  obtain ⟨hbefore, hstart⟩ := agreed_of_gives_declareAll hclosed hremotes hdeclare
  obtain ⟨hbefore', hagreed⟩ := agreed_of_gives_fetch hprovider hstart (List.Subset.refl _) hfetch
  exact ⟨hbefore.trans hbefore', hagreed⟩

end Schemata.ModuleSet.Build

import Schemata.Proofs.ModuleSet.Serving
import Schemata.Proofs.Registry.History
import Schemata.Proofs.Upload.Digests

/-!
# Sets from a registry

A set that is built with a registry as its provider has, for each remote module, the files and the
digest of a commit that the registry keeps. Building it changes nothing in the world but cells and
the count of commits that were handed out.
-/

namespace Schemata

open Storage
open Schemata.Registry (Pushed Follows idOf)

/-! ### Looking things up in a registry -/

namespace World

/-- Whether a later world differs in nothing but cells and the number of commits handed out. -/
structure Consulted (w w' : World) : Prop where
  before : w.Before w'
  same : ∃ cells fetches,
    w' = { w with cells := cells, registry := { w.registry with fetches := fetches } }

variable {w w₁ w' : World}

theorem Consulted.refl (w : World) : w.Consulted w := ⟨.refl w, w.cells, w.registry.fetches, rfl⟩

theorem Consulted.trans (h : w.Consulted w₁) (h' : w₁.Consulted w') : w.Consulted w' := by
  refine ⟨h.before.trans h'.before, ?_⟩
  obtain ⟨cells, fetches, rfl⟩ := h.same
  obtain ⟨cells', fetches', rfl⟩ := h'.same
  exact ⟨cells', fetches', rfl⟩

theorem Consulted.live (h : w.Consulted w') : w'.live = w.live := by
  obtain ⟨_, _, rfl⟩ := h.same
  rfl

theorem Consulted.commit? (h : w.Consulted w') (name : ModuleName) (id : CommitId) :
    w'.registry.commit? name id = w.registry.commit? name id := by
  obtain ⟨_, _, rfl⟩ := h.same
  rfl

theorem Consulted.deliver (h : w.Consulted w') : w'.registry.deliver = w.registry.deliver := by
  obtain ⟨_, _, rfl⟩ := h.same
  rfl

theorem Consulted.follows {host : String} {log : List Pushed} (h : w.Consulted w')
    (hfollows : Follows host log w) : Follows host log w' := by
  refine hfollows.meanwhile h.before ?_
  obtain ⟨_, fetches, rfl⟩ := h.same
  exact ⟨fetches, rfl⟩

end World

namespace Registry

variable {host : String} {log : List Pushed} {w : World}

/-- The ID of a commit that the registry has is made of its name and digest. -/
theorem Follows.id_eq (h : Follows host log w) {name : ModuleName} {id : CommitId} {c : Commit}
    (hc : w.registry.commit? name id = some c) : c.name = name ∧ id = idOf name c.digest := by
  obtain ⟨e, he, rfl, rfl, rfl⟩ := h.exists_pushed hc
  exact ⟨rfl, (h.keeps.2.2 e he).1.id.symm⟩

/-- All keys that the registry keeps are there. -/
theorem Follows.closed (h : Follows host log w) : w.Closed := by
  intro c hc k hk
  obtain ⟨⟨text, _⟩, hentry, rfl⟩ := List.mem_map.1 hc
  have hfind := Table.mem_entries.1 hentry
  rw [h.keeps.2.1.commits] at hfind
  obtain ⟨e, hfirst, rfl⟩ := Option.map_eq_some_iff.1 hfind
  have he := firsts_subset log (List.mem_of_find?_eq_some hfirst)
  obtain ⟨x, _, hx⟩ := exists_of_forall₂ (h.keeps.2.2 e he).2.flip hk
  exact ModuleKey.Found.there hx

end Registry

namespace Act

variable {α β : Type} {w w' : World}

/-- Whether an operation does no more than look things up in the registry, also when it fails. -/
def Consults (act : Act α) : Prop := ∀ w : World, w.Consulted (act.run w).2

theorem Quiet.consults {act : Act α} (h : act.Quiet) : act.Consults := by
  intro w
  obtain ⟨hbefore, cells, hcells⟩ := h w
  exact ⟨hbefore, cells, w.registry.fetches, hcells⟩

theorem Consults.bind {x : Act α} {f : α → Act β} (hx : x.Consults) (hf : ∀ a, (f a).Consults) :
    (x >>= f).Consults := by
  intro w
  have hfirst := hx w
  rcases hrun : x.run w with ⟨e | a, w₁⟩
  · rw [run_bind_error hrun]
    rwa [hrun] at hfirst
  · rw [run_bind hrun]
    rw [hrun] at hfirst
    exact hfirst.trans (hf a w₁)

theorem Consults.gives {act : Act α} {a : α} (h : act.Consults) (hgives : act.Gives w a w') :
    w.Consulted w' := by
  have hw := h w
  rwa [show act.run w = _ from hgives] at hw

theorem quiet_pure (a : α) : (pure a : Act α).Quiet := quiet_of_same fun _ => rfl

theorem quiet_throw (e : Module.Error) : (throw e : Act α).Quiet := quiet_of_same fun _ => rfl

end Act

theorem Module.ConsistsOf.of_serves {w : World} {m : Module} {b : Bucket} {files : Table ByteArray}
    (hlive : w.live = true) (hfiles : m.files = b) (h : b.Serves w.volumes files) :
    m.ConsistsOf w files := by
  constructor
  · rw [hlive, hfiles]
    exact h.lists
  · rw [hlive, hfiles]
    exact fun e he => (h.reads e.1 e.2).2 he

namespace Delivery

theorem quiet_verify (d : Delivery) : d.verify.Quiet := by
  unfold verify
  refine (Act.quiet_ofWorld _).bind fun _ => (Act.quiet_ofExcept _).bind fun _ =>
    (Act.quiet_ofWorld _).bind fun _ => d.key.quiet_resolveDigest.bind fun _ =>
    (quiet_digestOf _ _).bind fun _ => ?_
  simp only
  split
  · exact (Act.quiet_throw _).bind fun _ => Act.quiet_pure _
  · exact Act.quiet_pure _

theorem quiet_contents (d : Delivery) : d.contents.Quiet := by
  refine Act.Quiet.bind (fun w => ?_) fun q => ?_
  · show w.Before (d.open? w).2 ∧ ∃ cells, (d.open? w).2 = { w with cells := cells }
    cases hcheck : d.check with
    | unresolved =>
      rw [open?_unresolved hcheck]
      exact d.quiet_verify w
    | resolving =>
      rw [open?_resolving hcheck]
      exact ⟨.refl w, w.cells, rfl⟩
    | settled outcome =>
      rw [open?_settled hcheck]
      exact ⟨.refl w, w.cells, rfl⟩
  · obtain ⟨outcome, d'⟩ := q
    cases outcome with
    | ok c => exact Act.quiet_pure _
    | error e => exact Act.quiet_throw _

end Delivery

namespace ModuleSet.Build

theorem quiet_compareKeys (first second : ModuleKey) : (compareKeys first second).Quiet := by
  rw [compareKeys]
  split
  · refine first.quiet_resolveDigest.bind fun _ => second.quiet_resolveDigest.bind fun _ => ?_
    split
    · exact Act.quiet_throw _
    · exact Act.quiet_pure _
  · exact Act.quiet_pure _

theorem quiet_declare (r : RemoteModule) (known : List RemoteModule) : (declare r known).Quiet := by
  induction known with
  | nil => exact Act.quiet_pure _
  | cons first known ih =>
    by_cases hname : first.key.name = r.key.name
    · rw [declare_same hname]
      exact (quiet_compareKeys _ _).bind fun _ => Act.quiet_pure _
    · rw [declare_other hname]
      exact ih.bind fun _ => Act.quiet_pure _

theorem quiet_declareAll (locals : List ModuleName) (known remotes : List RemoteModule) :
    (declareAll locals known remotes).Quiet := by
  induction remotes generalizing known with
  | nil => exact Act.quiet_pure _
  | cons r remotes ih =>
    rw [declareAll]
    split
    · exact ih known
    · exact (quiet_declare r known).bind fun _ => ih _

theorem quiet_declareDeps (locals : List ModuleName) (known : List RemoteModule)
    (deps : List ModuleKey) : (declareDeps locals known deps).Quiet := by
  induction deps generalizing known with
  | nil => exact Act.quiet_pure _
  | cons dep deps ih =>
    rw [declareDeps]
    split
    · exact ih known
    · exact (quiet_declare _ known).bind fun _ => (ih _).bind fun _ => Act.quiet_pure _

theorem quiet_receive (locals : List ModuleName) (f : Fetched) (ds : List Delivery) :
    (receive locals f ds).Quiet := by
  induction ds generalizing f with
  | nil => exact Act.quiet_pure _
  | cons d ds ih =>
    rw [receive]
    exact d.quiet_contents.bind fun _ => (quiet_declareDeps _ _ _).bind fun _ =>
      (ih _).bind fun _ => Act.quiet_pure _

theorem quiet_remoteModule (f : Fetched) (r : RemoteModule) : (remoteModule f r).Quiet := by
  rw [remoteModule]
  split
  · exact Act.quiet_throw _
  · rename_i d _
    refine d.quiet_contents.bind fun _ => Act.Quiet.bind (fun w => ?_) fun _ => Act.quiet_ofWorld _
    exact r.key.quiet_resolveDigest w

theorem quiet_finish (locals : List LocalModule) (f : Fetched) : (finish locals f).Quiet := by
  rw [finish]
  refine (Act.quiet_mapM (fun l => Act.quiet_ofWorld _) locals).bind fun _ =>
    (Act.quiet_mapM (quiet_remoteModule f) f.declared).bind fun _ => ?_
  simp only
  split
  · exact (Act.quiet_throw _).bind fun _ => Act.quiet_ofExcept _
  · exact Act.quiet_ofExcept _

theorem consults_provider (keys : List ModuleKey) : (Registry.provider keys).Consults := by
  have hcount (ds : List Delivery) : (modify fun w : World => { w with
      registry := { w.registry with fetches := w.registry.fetches + ds.length } } :
        Act Unit).Consults := fun w => ⟨w.before_fetches _, w.cells, _, rfl⟩
  exact (Act.quiet_ofWorld _).consults.bind fun _ => (Act.quiet_ofWorld _).consults.bind fun ds =>
    (hcount ds).bind fun _ => (Act.quiet_pure ds).consults

theorem consults_fetch (locals : List ModuleName) (rounds : Nat) (keys : List ModuleKey)
    (f : Fetched) : (fetch Registry.provider locals rounds keys f).Consults := by
  induction rounds generalizing keys f with
  | zero =>
    cases keys with
    | nil => exact (Act.quiet_pure _).consults
    | cons key keys => exact (Act.quiet_throw _).consults
  | succ rounds ih =>
    cases keys with
    | nil => exact (Act.quiet_pure _).consults
    | cons key keys =>
      have hrest (ds : List Delivery) : (receive locals { f with asked := f.asked ++ key :: keys }
          ds >>= fun q => fetch Registry.provider locals rounds q.2 q.1).Consults :=
        (quiet_receive _ _ _).consults.bind fun q => ih q.2 q.1
      rw [fetch_cons]
      refine (Act.quiet_ofWorld _).consults.bind fun _ => (consults_provider _).bind fun ds => ?_
      split
      · exact (Act.quiet_throw _).consults.bind fun _ => hrest ds
      · exact hrest ds

theorem consults_gather (rounds : Nat) (locals : List LocalModule) (remotes : List RemoteModule) :
    (gather Registry.provider rounds locals remotes).Consults :=
  (Act.quiet_ofWorld _).consults.bind fun _ => (Act.quiet_ofExcept _).consults.bind fun _ =>
    (quiet_declareAll _ _ _).consults.bind fun _ => consults_fetch _ _ _ _

/-! ### What the registry delivers -/

/-- Whether a delivery, looked into or not, is of what the registry has for its key. -/
structure Stocked (w : World) (d : Delivery) (c : Commit) : Prop where
  commit : w.registry.commit? d.key.name d.key.commit = some c
  source : d.source = ((Objects.ofFiles c.files.entries).map .objects).mapError .storage
  declared : d.declared = c.deps
  opened : ∀ contents, Verified d contents → contents.deps = c.deps

section Stock

variable {w w₁ w₂ w' : World} {d d' : Delivery} {c : Commit} {contents : Contents}
  {locals : List ModuleName} {f f' : Fetched} {keys : List ModuleKey} {ds : List Delivery}

theorem stocked_of_deliver {key : ModuleKey} (h : w.registry.deliver key = .ok d) :
    d.key = key ∧ d.check = .unresolved ∧ ∃ c, Stocked w d c := by
  unfold Registry.deliver at h
  split at h
  · rename_i c hc
    cases h
    exact ⟨rfl, rfl, c, hc, rfl, rfl, fun _ hcheck => by cases hcheck⟩
  · cases h

theorem Stocked.of_consulted (h : Stocked w₁ d c) (hw : w.Consulted w₁) : Stocked w d c :=
  ⟨(hw.commit? _ _).symm.trans h.commit, h.source, h.declared, h.opened⟩

theorem Stocked.after (h : Stocked w d c) (hgives : d.contents.Gives w₁ (contents, d') w₂) :
    Stocked w d' c := by
  rcases Delivery.gives_contents hgives with ⟨_, rfl, _⟩ | ⟨_, rfl, hverify⟩
  · exact h
  · obtain ⟨_, hverifies⟩ := Delivery.gives_verify.1 hverify
    refine ⟨h.commit, h.source, h.declared, fun other hother => ?_⟩
    cases hother
    exact hverifies.deps.trans h.declared

theorem gives_provider_stocked (h : (Registry.provider keys).Gives w₁ ds w₂)
    (hw : w.Consulted w₁) : ds.map Delivery.key = keys ∧
      ∀ d ∈ ds, d.check = .unresolved ∧ ∃ c, Stocked w d c := by
  obtain ⟨_, hds, _⟩ := Registry.gives_provider.1 h
  refine ⟨?_, fun d hd => ?_⟩
  · have hkeys := map_eq_of_mapM (g := id) hds fun key d hd => (stocked_of_deliver hd).1
    rwa [List.map_id] at hkeys
  · obtain ⟨key, _, hdeliver⟩ := exists_of_forall₂ (mapM_eq_ok.1 hds) hd
    obtain ⟨_, hcheck, c, hc⟩ := stocked_of_deliver hdeliver
    exact ⟨hcheck, c, hc.of_consulted hw⟩

theorem answers_provider : Answers Registry.provider :=
  fun _ w _ _ h => (gives_provider_stocked h (.refl w)).1

theorem stocked_of_gives_receive {next : List ModuleKey}
    (hf : ∀ d ∈ f.deliveries, ∃ c, Stocked w d c) (hds : ∀ d ∈ ds, ∃ c, Stocked w d c)
    (h : (receive locals f ds).Gives w₁ (f', next) w₂) : ∀ d ∈ f'.deliveries, ∃ c, Stocked w d c := by
  induction ds generalizing f w₁ f' next with
  | nil =>
    obtain ⟨heq, _⟩ := Act.gives_pure.1 h
    cases heq
    exact hf
  | cons d ds ih =>
    obtain ⟨⟨c, hc⟩, hds⟩ := List.forall_mem_cons.1 hds
    rw [receive] at h
    obtain ⟨⟨contents, d'⟩, _, hcontents, h⟩ := Act.gives_bind.1 h
    obtain ⟨⟨rs, keys⟩, _, _, h⟩ := Act.gives_bind.1 h
    obtain ⟨⟨f₁, more⟩, _, hrest, h⟩ := Act.gives_bind.1 h
    obtain ⟨heq, rfl⟩ := Act.gives_pure.1 h
    cases heq
    exact ih (List.forall_mem_cons.2 ⟨⟨c, hc.after hcontents⟩, hf⟩) hds hrest

theorem stocked_of_gives_fetch {rounds : Nat} (hw : w.Consulted w₁)
    (hf : ∀ d ∈ f.deliveries, ∃ c, Stocked w d c)
    (h : (fetch Registry.provider locals rounds keys f).Gives w₁ f' w₂) :
    ∀ d ∈ f'.deliveries, ∃ c, Stocked w d c := by
  induction rounds generalizing keys f w₁ with
  | zero =>
    cases keys with
    | nil =>
      obtain ⟨rfl, _⟩ := Act.gives_pure.1 h
      exact hf
    | cons key keys => exact absurd h Act.not_gives_throw
  | succ rounds ih =>
    cases keys with
    | nil =>
      obtain ⟨rfl, _⟩ := Act.gives_pure.1 h
      exact hf
    | cons key keys =>
      rw [fetch_cons] at h
      obtain ⟨_, _, hlive, h⟩ := Act.gives_bind.1 h
      obtain ⟨_, rfl⟩ := Act.gives_ofWorld.1 hlive
      obtain ⟨ds, w₃, hdeliver, h⟩ := Act.gives_bind.1 h
      split at h
      · obtain ⟨_, _, hthrow, _⟩ := Act.gives_bind.1 h
        exact absurd hthrow Act.not_gives_throw
      · obtain ⟨⟨f₁, next⟩, w₄, hreceive, h⟩ := Act.gives_bind.1 h
        have hw₃ := hw.trans ((consults_provider _).gives hdeliver)
        have hds := (gives_provider_stocked hdeliver hw).2
        refine ih (hw₃.trans ((quiet_receive _ _ _).consults.gives hreceive)) ?_ h
        exact stocked_of_gives_receive (f := { f with asked := f.asked ++ key :: keys }) hf
          (fun d hd => (hds d hd).2) hreceive

theorem stocked_of_gives_gather {rounds : Nat} {locals : List LocalModule}
    {remotes : List RemoteModule}
    (h : (gather Registry.provider rounds locals remotes).Gives w f w') :
    w.live = true ∧ w.Consulted w' ∧ ∀ d ∈ f.deliveries, ∃ c, Stocked w d c := by
  have hconsulted := (consults_gather rounds locals remotes).gives h
  obtain ⟨_, _, hcheck, h⟩ := Act.gives_bind.1 h
  obtain ⟨hlive, rfl⟩ := Act.live_of_gives hcheck
  refine ⟨hlive, hconsulted, ?_⟩
  obtain ⟨_, _, hlocals, h⟩ := Act.gives_bind.1 h
  obtain ⟨_, rfl⟩ := Act.gives_ofExcept.1 hlocals
  obtain ⟨declared, w₁, hdeclare, hfetch⟩ := Act.gives_bind.1 h
  exact stocked_of_gives_fetch ((quiet_declareAll _ _ _).consults.gives hdeclare)
    (fun _ hd => absurd hd List.not_mem_nil) hfetch

end Stock

/-! ### The modules of a set -/

/-- Whether a module is that of a commit in the registry, fetched for a key of that commit. -/
structure FetchedAs (w : World) (f : Fetched) (m : Module) (key : ModuleKey) (c : Commit) :
    Prop where
  commit : w.registry.commit? key.name key.commit = some c
  found : key.Found w c.digest
  origin : m.origin = .fetched key (.ok c.digest)
  name : m.name = some key.name
  files : m.ConsistsOf w c.files
  view : Module.filesOf w.volumes w.live (.objects c.files) = .ok m.files
  /-- What the commit depends on was declared for the set. -/
  delivered : ∃ d ∈ f.deliveries, ∃ contents, Verified d contents ∧ contents.deps = c.deps

section Sets

variable {host : String} {log : List Pushed} {w w₁ w₂ w' : World} {d : Delivery} {c : Commit}
  {contents : Contents} {x : Digest} {rounds : Nat} {locals : List LocalModule}
  {remotes : List RemoteModule} {f : Fetched} {s : ModuleSet} {k : ModuleKey}

/-- What was verified of a delivery from the registry are the files and the digest of a commit. -/
theorem Stocked.passed (hfollows : Follows host log w) (h : Stocked w d c)
    (hpassed : d.Passed contents x w₁ w₂ w') (hw : w.Before w') :
    x = c.digest ∧ (∀ v, contents.files.Serves [v] c.files) ∧
      ∀ v, Module.filesOf [v] true (.objects c.files) = .ok contents.files := by
  obtain ⟨e, he, _, _, rfl⟩ := hfollows.exists_pushed h.commit
  obtain ⟨haccepted, hfound⟩ := hfollows.keeps.2.2 e he
  obtain ⟨view, hview, hserves⟩ := Store.exists_view e.push.moduleFiles
  have hall : Module.filesAmong e.push.moduleFiles = e.push.moduleFiles := by
    obtain ⟨hkinds, hdocs⟩ :=
      Store.kinds_of_hasFiles (@Module.hasFiles_filesAmong [] (.ofList e.push.files))
    exact Module.filesAmong_eq_self hkinds hdocs
  obtain ⟨hlive, hdeps, ⟨b, hb, hfiles⟩, w₃, hkey, hdigest⟩ := hpassed.verifies
  rw [h.source, show e.commit.files = e.push.moduleFiles from rfl, Objects.ofFiles_entries
    fun path hpath => Path.validateObject_eq_ok.1 (haccepted.listed path hpath).2] at hb
  cases hb
  rw [hlive] at hfiles
  cases hfiles.symm.trans (hview w₁.store)
  rw [hall] at hserves
  refine ⟨?_, hserves, hview⟩
  obtain ⟨cells, rfl⟩ := ModuleKey.cells_of_gives hkey
  obtain ⟨m, ds, hm, hds, hx⟩ := Delivery.gives_digestOf.1 hdigest
  rw [show World.live _ = true from hlive] at hm
  obtain ⟨_, rfl⟩ := (Module.ofBucket_filesAmong (hview w₁.store)).1 hm
  -- the digests of the dependencies are those that were found when the commit was pushed
  rw [hdeps, h.declared, show e.commit.deps = e.push.deps from rfl] at hds
  have hin : ∀ k ∈ e.push.deps, k.In { w₁ with cells := cells } := fun k hk =>
    (hpassed.keys k (List.mem_cons_of_mem _ (h.declared.symm ▸ hk))).mono
      (ModuleKey.before_of_gives hkey)
  have hthen := (ModuleKey.found_of_gives_digests hin hds).imp fun _ _ hk => hk.mono hpassed.before
  have hnow := hfound.imp fun _ _ hk => hk.mono hw
  have hsame : ModuleKey.Asked w' e.push.deps ds := ⟨w', ModuleKey.gives_digests_of_found hthen⟩
  rw [hall, hsame.unique ⟨w', ModuleKey.gives_digests_of_found hnow⟩] at hx
  exact Except.ok.inj (hx.symm.trans haccepted.digest)

/-- Whether a set is built of what a registry has: each remote module is that of a commit. -/
structure Drawn (w : World) (locals : List LocalModule) (remotes : List RemoteModule) (f : Fetched)
    (s : ModuleSet) : Prop where
  complete : Complete locals remotes f s
  agreed : Agreed (namesOf locals) remotes w f
  asked : s.modules.filterMap Module.key? = keysOf f.declared
  fetched : ∀ m ∈ s.modules, ∀ key, m.key? = some key → ∃ c, FetchedAs w f m key c

theorem drawn_of_build (hfollows : Follows host log w) (hremotes : ∀ r ∈ remotes, r.key.In w)
    (h : (ModuleSet.build Registry.provider rounds locals remotes).Gives w s w') :
    w.Consulted w' ∧ ∃ f, Drawn w' locals remotes f s := by
  obtain ⟨f, w₀, hgather, hfinish⟩ := Act.gives_bind.1 h
  obtain ⟨hlocals, hgathered, hpending, hall⟩ := gives_gather answers_provider hgather
  obtain ⟨_, hagreed⟩ :=
    agreed_of_gives_gather Registry.faithful_provider hfollows.closed hremotes hgather
  obtain ⟨hlive, hgathering, hstocked⟩ := stocked_of_gives_gather hgather
  have hfinishing := (quiet_finish locals f).consults.gives hfinish
  obtain ⟨ls, rs, hfinished⟩ := gives_finish hfinish
  have hcomplete := complete_of_finished hlocals hgathered hpending hall hfinished
  obtain ⟨_, horigins⟩ :=
    origins_of_gives_finish (fun d hd => (hagreed.sound d hd).2) hfinish
  have hconsulted := hgathering.trans hfinishing
  refine ⟨hconsulted, f, hcomplete, hagreed.after hfinishing.before f.asked, hfinished.keys,
    fun m hm key hkey => ?_⟩
  obtain ⟨hname, d, hd, rfl, contents, hcontents, hfiles⟩ := hcomplete.delivered m hm key hkey
  obtain ⟨c, hc⟩ := hstocked d hd
  obtain ⟨x, w₁, w₂, hpassed⟩ := (hagreed.sound d hd).1.passed contents hcontents
  obtain ⟨rfl, hserves, hview⟩ := hc.passed hfollows hpassed hgathering.before
  obtain ⟨v, hv, hv', horigin⟩ := horigins m hm d.key hkey
  have hfound := hpassed.found.mono hv
  rw [ModuleKey.run_of_found hfound] at hv' horigin
  exact ⟨c, (hconsulted.commit? _ _).trans hc.commit, hfound.mono hv', horigin, hname,
    .of_serves (hconsulted.live.trans hlive) hfiles (hserves w'.store),
    by rw [hconsulted.live.trans hlive, hfiles]; exact hview w'.store, d, hd, contents, hcontents, hc.opened contents hcontents⟩

/-- A key that was met brings the commit that it stands for, or the commit is there for another
key of its name and digest. -/
theorem Drawn.exists_fetched (hfollows : Follows host log w) (h : Drawn w locals remotes f s)
    (hmet : Met (namesOf locals) remotes f k) (hc : w.registry.commit? k.name k.commit = some c)
    (hk : k.Found w c.digest) : ∃ m ∈ s.modules, ∃ key, FetchedAs w f m key c := by
  obtain ⟨first, hfirst, hname, hsame⟩ := h.agreed.met k hmet
  rw [← h.asked] at hfirst
  obtain ⟨m, hm, hkey⟩ := List.mem_filterMap.1 hfirst
  obtain ⟨c', hfetched⟩ := h.fetched m hm first hkey
  have hcommit : first.commit = k.commit := by
    rcases hsame with hcommit | ⟨x, hx, hkx⟩
    · exact hcommit
    · rw [(hfollows.id_eq hfetched.commit).2, (hfollows.id_eq hc).2, hname,
        ← hx.unique hfetched.found, hkx.unique hk]
  have hc' := hfetched.commit
  rw [hname, hcommit, hc] at hc'
  cases hc'
  exact ⟨m, hm, first, hfetched⟩

/-- Whether a set has a module of a commit: of its name, its files and its digest. -/
def Offers (w : World) (s : ModuleSet) (c : Commit) : Prop :=
  ∃ i m, s.modules[i]? = some m ∧ m.name = some c.name ∧ m.ConsistsOf w c.files ∧
    ((ModuleSet.digest w i).on s).1 = .ok c.digest

theorem FetchedAs.offers (hfollows : Follows host log w) {m : Module} {key : ModuleKey}
    (h : FetchedAs w f m key c) {modules : List Module} (hs : s = ofModules modules)
    (hm : m ∈ s.modules) : Offers w s c := by
  subst hs
  obtain ⟨i, hi⟩ := List.mem_iff_getElem?.1 hm
  exact ⟨i, m, hi, by rw [h.name, (hfollows.id_eq h.commit).1], h.files,
    digest_ofModules hi h.origin w⟩

/-- A set of one key has the commit of that key, and the commits that this one depends on. -/
theorem offers_of_build (hfollows : Follows host log w) {key : ModuleKey} {target : Bool}
    (hc : w.registry.commit? key.name key.commit = some c) (hkey : key.Found w c.digest)
    (h : (ModuleSet.build Registry.provider rounds [] [⟨key, target, [], []⟩]).Gives w s w') :
    Follows host log w' ∧ Offers w' s c ∧ ∀ dep ∈ c.deps, ∀ c',
      w.registry.commit? dep.name dep.commit = some c' → dep.Found w c'.digest → Offers w' s c' := by
  have hin : ∀ r ∈ [(⟨key, target, [], []⟩ : RemoteModule)], r.key.In w :=
    List.forall_mem_singleton.2 (ModuleKey.Found.there hkey)
  obtain ⟨hconsulted, f, hdrawn⟩ := drawn_of_build hfollows hin h
  have hfollows' := hconsulted.follows hfollows
  obtain ⟨modules, hs⟩ : ∃ modules, s = ofModules modules := by
    obtain ⟨_, _, _, hfinish⟩ := Act.gives_bind.1 h
    obtain ⟨_, _, _, _, _, hmake⟩ := finish_steps hfinish
    exact ⟨_, (make_eq_ok hmake).1⟩
  have hoffers {k : ModuleKey} {x : Commit} (hmet : Met [] [⟨key, target, [], []⟩] f k)
      (hx : w.registry.commit? k.name k.commit = some x) (hk : k.Found w x.digest) :
      ∃ m ∈ s.modules, ∃ key, FetchedAs w' f m key x :=
    hdrawn.exists_fetched hfollows' hmet ((hconsulted.commit? _ _).trans hx)
      (hk.mono hconsulted.before)
  obtain ⟨m, hm, first, hfirst⟩ :=
    hoffers ⟨List.not_mem_nil, .inl (List.mem_singleton_self _)⟩ hc hkey
  refine ⟨hfollows', hfirst.offers hfollows' hs hm, fun dep hdep c' hc' hk => ?_⟩
  obtain ⟨d, hd, contents, hcontents, hdeps⟩ := hfirst.delivered
  obtain ⟨m', hm', other, hother⟩ :=
    hoffers ⟨List.not_mem_nil, .inr ⟨d, hd, contents, hcontents, hdeps ▸ hdep⟩⟩ hc' hk
  exact hother.offers hfollows' hs hm'

end Sets

end ModuleSet.Build

end Schemata

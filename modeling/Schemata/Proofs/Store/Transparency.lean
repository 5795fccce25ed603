import Schemata.Proofs.Store.Checking

/-!
# A store before a provider

A store before a provider asks it for the keys that have no readable entry, and keeps what it
delivers. The answers come in the order of the keys: what the provider delivers opens as it does
without the store, and what the store has gives the same or nothing.
-/

namespace Schemata.Store

open Storage

/-! ### What is asked of the provider -/

/-- Whether a delivery opens to the files and dependencies of a module, now and after digests were
asked for. The store has no part in it. -/
structure Opens (known : List ModuleKey) (w : World) (d : Delivery) (p : Kept) : Prop where
  key : d.key = p.key
  opens : ∃ c : Contents, c.deps = p.deps.map Prod.fst ∧ (∀ v, c.files.Serves [v] p.files) ∧
    ∀ w₁, w₁.live = true → w.Repeats known w₁ → ∃ d' w₂, d.contents.Gives w₁ (c, d') w₂ ∧
      w₁.Repeats known w₂ ∧ p.key.Found w₂ p.digest ∧ ∀ dep ∈ p.deps, dep.1.Found w₂ dep.2

/-- Whether a provider that is asked for some of the keys delivers what opens to their modules, and
leaves the store and the digests of known keys as they are. -/
def Supplies (provider : Provider) (known keys : List ModuleKey) (p : ModuleKey → Kept)
    (w : World) : Prop :=
  ∀ asked, asked.Sublist keys → ∀ cells, w.Repeats known { w with cells := cells } →
    ∃ ds w', (provider asked).Gives { w with cells := cells } ds w' ∧ w'.live = true ∧
      w'.store = w.store ∧ w.Repeats known w' ∧
      List.Forall₂ (fun k d => Opens known w' d (p k)) asked ds

variable {known keys : List ModuleKey} {w w' w₁ : World} {d d' : Delivery} {p : Kept}

theorem Opens.carries (h : Opens known w d p) (hlive : w₁.live = true)
    (hrepeats : w.Repeats known w₁) : Carries w₁ d p := by
  obtain ⟨c, hdeps, hserves, hlater⟩ := h.opens
  obtain ⟨d', w₂, hgives, _, hkey, hfound⟩ := hlater w₁ hlive hrepeats
  exact ⟨hlive, h.key, c, d', w₂, hgives, hdeps, hkey, hfound, (hserves w₁.store).lists,
    fun ws _ e he => ((hserves _).reads e.1 e.2).2 he⟩

/-- What has opened stays open. -/
theorem Opens.delivers {c : Contents} (h : Opens known w d p) (hlive : w₁.live = true)
    (hrepeats : w.Repeats known w₁) (hgives : d.contents.Gives w₁ (c, d') w') :
    w₁.Repeats known w' ∧ d'.key = p.key ∧
      ∀ w₂, d'.Delivers w₂ p.files (p.deps.map Prod.fst) := by
  obtain ⟨c', hdeps, hserves, hlater⟩ := h.opens
  obtain ⟨d₁, w₂, hgives', hafter, _⟩ := hlater w₁ hlive hrepeats
  cases hgives.symm.trans hgives'
  refine ⟨hafter, (cells_of_contents hgives).1.trans h.key, fun w₂ => ?_⟩
  have hsettled : d'.check = .settled (.ok c) := by
    rcases Delivery.gives_contents hgives with ⟨hcheck, rfl, _⟩ | ⟨_, rfl, _⟩
    · exact hcheck
    · rfl
  have hopen : d'.contents.Gives w₂ (c, d') w₂ :=
    Act.gives_bind.2 ⟨_, w₂, Act.gives_lift.2 (Delivery.open?_settled hsettled),
      Act.gives_pure.2 ⟨rfl, rfl⟩⟩
  exact ⟨c, d', w₂, hopen, hserves w₂.store, hdeps⟩

/-- What is delivered as a table of the files of a module, with its dependencies, opens to them. -/
theorem opens_sealed (hkey : p.key ∈ known)
    (hdigest : p.key.HasDigest w p.digest)
    (hdeps : ∀ dep ∈ p.deps, dep.1 ∈ known ∧ dep.1.HasDigest w dep.2) :
    Opens known w (.sealed p.key (.ok (.objects p.files)) (p.deps.map Prod.fst)) p := by
  obtain ⟨view, hview, hserves⟩ := exists_view p.files
  rw [p.filesAmong_files] at hserves
  refine ⟨rfl, ⟨view, p.deps.map Prod.fst⟩, rfl, hserves, fun w₁ hlive hrepeats => ?_⟩
  obtain ⟨w₂, hgives, hrepeats₂⟩ := hrepeats.resolves.gives hkey
    ((hrepeats.same _ hkey _).1 hdigest)
  have hsame := hrepeats.trans hrepeats₂
  obtain ⟨w₃, hds, hrepeats₃⟩ := hsame.resolves.digests fun dep hdep =>
    ⟨(hdeps dep hdep).1, (hsame.same _ (hdeps dep hdep).1 _).1 (hdeps dep hdep).2⟩
  have hfound := ModuleKey.found_of_gives_digests (fun k hk => by
    obtain ⟨dep, hdep, rfl⟩ := List.mem_map.1 hk
    exact hsame.resolves.there _ (hdeps dep hdep).1) hds
  have hfoundKey := (ModuleKey.found_of_gives (hrepeats.resolves.there _ hkey) hgives).mono
    (ModuleKey.gives_digests hds).1
  obtain ⟨cells, rfl⟩ := ModuleKey.cells_of_gives hgives
  have hview₁ : Module.filesOf w₁.volumes w₁.live (.objects p.files) = .ok view := by
    rw [hlive]
    exact hview w₁.store
  have hm : Manifest.ofBucket w₁.volumes w₁.live view = .ok (.ofFiles p.files) := by
    rw [hlive]
    exact Module.ofBucket_of_reads (hserves w₁.store).lists
      (fun e he => ((hserves w₁.store).reads e.1 e.2).2 he) p.listed
  have hverify : (Delivery.sealed p.key (.ok (.objects p.files)) (p.deps.map Prod.fst)).verify.Gives
      w₁ ⟨view, p.deps.map Prod.fst⟩ w₃ :=
    Delivery.gives_verify.2 ⟨p.digest, hlive, rfl, ⟨_, rfl, hview₁⟩, _, hgives,
      Delivery.gives_digestOf.2 ⟨_, _, hm, hds, p.digest_eq⟩⟩
  refine ⟨_, w₃, Delivery.gives_contents_of_verify rfl hverify, hrepeats₂.trans hrepeats₃,
    hfoundKey, fun dep hdep => ?_⟩
  rw [List.forall₂_map_left_iff, List.forall₂_map_right_iff, List.forall₂_same] at hfound
  exact hfound dep hdep

/-! ### Looking up several keys -/

theorem gives_getAll_lookUp {x : ModuleKey → Digest} (hlive : w.live = true)
    (hresolves : w.Resolves known) (hsub : keys ⊆ known) (hx : ∀ k ∈ keys, k.HasDigest w (x k)) :
    ∃ cells, (getAll keys).Gives w
        (keys.filterMap fun k => lookUp true w.store k (x k),
          keys.filter fun k => (lookUp true w.store k (x k)).isNone) { w with cells := cells } ∧
      w.Repeats known { w with cells := cells } := by
  induction keys generalizing w with
  | nil => exact ⟨w.cells, Act.gives_pure.2 ⟨rfl, rfl⟩, hresolves.refl⟩
  | cons key keys ih =>
    obtain ⟨hkey, hkeys⟩ := List.forall_mem_cons.1 hx
    obtain ⟨hin, hsub⟩ := List.cons_subset.1 hsub
    obtain ⟨w₁, hgives, hrepeats⟩ := hresolves.gives hin hkey
    obtain ⟨cells, rfl⟩ := ModuleKey.cells_of_gives hgives
    obtain ⟨cells', hrest, hrepeats'⟩ := ih (w := { w with cells := cells }) hlive
      hrepeats.resolves hsub fun k hk => (hrepeats.same k (hsub hk) _).1 (hkeys k hk)
    refine ⟨cells', ?_, hrepeats.trans hrepeats'⟩
    have hfind : (find key).Gives w (lookUp w.live w.store key (x key))
        { w with cells := cells } := gives_find_lookUp hgives
    rw [show lookUp w.live = lookUp true by rw [hlive]] at hfind
    refine gives_getAll_cons.2 ⟨hlive, _, _, _, _, hfind, hrest, ?_, ?_⟩
    · rw [List.filterMap_cons]
      cases lookUp true w.store key (x key) with
      | none => rfl
      | some d => rfl
    · rw [List.filter_cons]
      cases lookUp true w.store key (x key) with
      | none => rfl
      | some d => rfl

/-! ### Keeping several deliveries -/

/-- Deliveries are kept one after the other, each by its writes. -/
theorem run_putAll {ds : List Delivery} {ps : List Kept}
    (hall : List.Forall₂ (Opens known w) ds ps) (hlive : w₁.live = true)
    (hrepeats : w.Repeats known w₁) :
    (∀ v, perform w₁.store (ps.flatMap Kept.writes) = (.ok (), v) →
      ∃ ds' w', (putAll ds).Gives w₁ ds' w' ∧ w'.store = v ∧
        List.Forall₂ (fun (d : Delivery) p => d.key = p.key ∧
          ∀ w₂, d.Delivers w₂ p.files (p.deps.map Prod.fst)) ds' ps) ∧
      ∀ e v, perform w₁.store (ps.flatMap Kept.writes) = (.error e, v) →
        ∃ w', (putAll ds).run w₁ = (.error (.storage e), w') := by
  induction hall generalizing w₁ with
  | nil =>
    refine ⟨fun v hv => ?_, fun e v hv => ?_⟩
    · cases hv
      exact ⟨[], w₁, Act.gives_pure.2 ⟨rfl, rfl⟩, rfl, .nil⟩
    · cases hv
  | @cons d p ds ps hd _ ih =>
    obtain ⟨c, d', w₂, hgives, hput⟩ := run_put (hd.carries hlive hrepeats)
    obtain ⟨hafter, hopen⟩ := hd.delivers hlive hrepeats hgives
    obtain ⟨_, cells, rfl⟩ := cells_of_contents hgives
    rw [List.flatMap_cons, putAll, Act.run_bind (Act.gives_checkLive hlive)]
    obtain ⟨outcome, v₁, hperform⟩ : ∃ outcome v₁, perform w₁.store p.writes = (outcome, v₁) :=
      ⟨_, _, rfl⟩
    rw [hperform] at hput
    cases outcome with
    | error e =>
      rw [perform_append_error hperform]
      refine ⟨fun v hv => ?_, fun e' v hv => ?_⟩
      · cases hv
      · cases hv
        exact ⟨_, Act.run_bind_error hput _⟩
    | ok u =>
      rw [perform_append_ok hperform]
      obtain ⟨hok, herror⟩ := @ih { w₁ with cells := cells, store := v₁ } hlive
        ((hrepeats.trans hafter).congr rfl fun _ => rfl)
      refine ⟨fun v hv => ?_, fun e v hv => ?_⟩
      · obtain ⟨ds', w', hrest, hstore, hopens⟩ := hok v hv
        refine ⟨d' :: ds', w', ?_, hstore, .cons hopen hopens⟩
        exact Act.gives_bind.2 ⟨(), w₁, Act.gives_checkLive hlive, Act.gives_bind.2
          ⟨d', _, hput, Act.gives_bind.2 ⟨ds', w', hrest, Act.gives_pure.2 ⟨rfl, rfl⟩⟩⟩⟩
      · obtain ⟨w', hrest⟩ := herror e v hv
        refine ⟨w', ?_⟩
        rw [Act.run_bind hput]
        exact Act.run_bind_error hrest _

/-! ### The store as a cache -/

/-- The keys that the store has no readable entry for. -/
def unkept (v : Volume) (p : ModuleKey → Kept) (keys : List ModuleKey) : List ModuleKey :=
  keys.filter fun k => (lookUp true v k (p k).digest).isNone

variable {provider : Provider} {p : ModuleKey → Kept}

/-- What is found for a key is of its commit. -/
theorem commit_of_lookUp {v : Volume} :
    ∀ k ∈ keys, ∀ d, lookUp true v k (p k).digest = some d → d.key.commit = k.commit := by
  intro k _ d hd
  obtain ⟨_, deps, rfl⟩ := lookUp_cases hd
  rfl

theorem lookUp_apart {v : Volume}
    (hone : ∀ k ∈ keys, ∀ k' ∈ keys, k.commit = k'.commit →
      k.name = k'.name ∧ (p k).digest = (p k').digest) :
    ∀ k ∈ keys, ∀ k' ∈ keys, k.commit = k'.commit → lookUp true v k (p k).digest = none →
      lookUp true v k' (p k').digest = none := by
  intro k hk k' hk' hcommit hnone
  obtain ⟨hname, hdigest⟩ := hone k hk k' hk' hcommit
  rw [← hdigest]
  refine lookUp_eq_none_congr ?_ hnone
  rw [placeOf, placeOf, hname, hcommit]

/-- What a provider delivers for keys without an entry, and keeping it. -/
def fetch (provider : Provider) (missing : List ModuleKey) : Act (List Delivery) :=
  if missing.isEmpty then pure [] else do putAll (← provider missing)

theorem cached_eq (provider : Provider) (keys : List ModuleKey) :
    cached provider keys = (do
      let r ← getAll keys
      let fetched ← fetch provider r.2
      Act.ofExcept (interleave keys r.1 fetched)) := by
  unfold cached fetch
  refine congrArg (getAll keys >>= ·) (funext fun r => ?_)
  obtain ⟨found, missing⟩ := r
  simp only
  split
  · rfl
  · rw [bind_assoc]

theorem gives_cached {found fetched ds : List Delivery} {missing : List ModuleKey}
    (hfound : (getAll keys).Gives w (found, missing) w₁)
    (hfetched : (fetch provider missing).Gives w₁ fetched w')
    (hmerged : interleave keys found fetched = .ok ds) : (cached provider keys).Gives w ds w' := by
  rw [cached_eq]
  exact Act.gives_bind.2 ⟨_, w₁, hfound, Act.gives_bind.2 ⟨fetched, w', hfetched,
    Act.gives_ofExcept.2 ⟨hmerged, rfl⟩⟩⟩

/-- What is fetched for keys without an entry is kept. -/
theorem run_fetch {missing : List ModuleKey}
    (hsub : missing.Sublist keys) (hsupplies : Supplies provider known keys p w)
    {cells : List (Memo Module.Error Digest)} (hrepeats : w.Repeats known { w with cells := cells }) :
    (∀ v, perform w.store (missing.flatMap fun k => (p k).writes) = (.ok (), v) →
      ∃ ds w', (fetch provider missing).Gives { w with cells := cells } ds w' ∧ w'.store = v ∧
        List.Forall₂ (fun k (d : Delivery) => d.key = (p k).key ∧
          ∀ w₂, d.Delivers w₂ (p k).files ((p k).deps.map Prod.fst)) missing ds) ∧
      ∀ e v, perform w.store (missing.flatMap fun k => (p k).writes) = (.error e, v) →
        ∃ w', (fetch provider missing).run { w with cells := cells } =
          (.error (.storage e), w') := by
  cases hmissing : missing with
  | nil =>
    refine ⟨fun v hv => ?_, fun e v hv => ?_⟩
    · cases hv
      exact ⟨[], { w with cells := cells }, Act.gives_pure.2 ⟨rfl, rfl⟩, rfl, .nil⟩
    · cases hv
  | cons first rest =>
    have hfetch : fetch provider missing = (do putAll (← provider missing)) := by
      rw [hmissing]
      rfl
    rw [← hmissing, hfetch]
    obtain ⟨ds, w₁, hgives, hlive₁, hstore, hrepeats₁, hopens⟩ :=
      hsupplies missing hsub cells hrepeats
    have hall : List.Forall₂ (Opens known w₁) ds (missing.map p) :=
      List.forall₂_map_right_iff.2 hopens.flip
    obtain ⟨hok, herror⟩ := run_putAll hall hlive₁ hrepeats₁.resolves.refl
    rw [List.flatMap_map, hstore] at hok herror
    refine ⟨fun v hv => ?_, fun e v hv => ?_⟩
    · obtain ⟨ds', w', hput, hstored, hall'⟩ := hok v hv
      exact ⟨ds', w', Act.gives_bind.2 ⟨ds, w₁, hgives, hput⟩, hstored,
        (List.forall₂_map_right_iff.1 hall').flip⟩
    · obtain ⟨w', hput⟩ := herror e v hv
      exact ⟨w', (Act.run_bind hgives _).trans hput⟩

/-- A store before a provider succeeds if the store takes what is fetched for the keys that it has
no readable entry for, and else fails with the store. For these keys the deliveries open as those of
the provider. For the other keys they give what those of the provider give, or nothing. -/
theorem cached_transparent (hlive : w.live = true) (htidy : w.store.Tidy) (hsub : keys ⊆ known)
    (hresolves : w.Resolves known)
    (hkey : ∀ k ∈ keys, (p k).key = k ∧ k.HasDigest w (p k).digest)
    (hone : ∀ k ∈ keys, ∀ k' ∈ keys, k.commit = k'.commit →
      k.name = k'.name ∧ (p k).digest = (p k').digest)
    (hsupplies : Supplies provider known keys p w) :
    (∀ v, perform w.store ((unkept w.store p keys).flatMap fun k => (p k).writes) = (.ok (), v) →
      ∃ ds w', (cached provider keys).Gives w ds w' ∧ w'.store = v ∧
        List.Forall₂ (fun k (d : Delivery) => d.key = k ∧
          ((k ∈ unkept w.store p keys ∧
              ∀ w₂, d.Delivers w₂ (p k).files ((p k).deps.map Prod.fst)) ∨
            k ∉ unkept w.store p keys ∧ Checked d (p k))) keys ds) ∧
      ∀ e v, perform w.store ((unkept w.store p keys).flatMap fun k => (p k).writes) =
          (.error e, v) →
        ∃ w', (cached provider keys).run w = (.error (.storage e), w') := by
  obtain ⟨cells, hfound, hrepeats⟩ := gives_getAll_lookUp hlive hresolves hsub
    fun k hk => (hkey k hk).2
  have hmissing : (unkept w.store p keys).Sublist keys := List.filter_sublist
  obtain ⟨hok, herror⟩ := run_fetch hmissing hsupplies hrepeats
  refine ⟨fun v hv => ?_, fun e v hv => ?_⟩
  · obtain ⟨fetched, w', hfetched, hstore, hopens⟩ := hok v hv
    obtain ⟨ds, hds, hall⟩ := interleave_eq_ok commit_of_lookUp
      (unmixed_of_apart commit_of_lookUp (lookUp_apart hone)) hopens
    refine ⟨ds, w', gives_cached hfound hfetched hds, hstore, ?_⟩
    refine ((List.forall₂_and_left _ _).2 ⟨fun k hk => hk, hall⟩).imp fun k d => ?_
    rintro ⟨hk, hlook | ⟨hnone, hdkey, hdelivers⟩⟩
    · have hin : k ∉ unkept w.store p keys := by simp [unkept, hlook]
      have hown : lookUp true w.store (p k).key (p k).digest = some d := by
        rw [(hkey k hk).1]
        exact hlook
      obtain ⟨hdkey, hchecked⟩ := checked_lookUp htidy hown
      exact ⟨hdkey.trans (hkey k hk).1, .inr ⟨hin, hchecked⟩⟩
    · have hin : k ∈ unkept w.store p keys := by simp [unkept, hk, hnone]
      exact ⟨hdkey.trans (hkey k hk).1, .inl ⟨hin, hdelivers⟩⟩
  · obtain ⟨w', hfetched⟩ := herror e v hv
    rw [cached_eq]
    exact ⟨w', (Act.run_bind hfound _).trans (Act.run_bind_error hfetched _)⟩

/-! ### The registry behind a store -/

/-- Whether keys are those of modules, and their digests and those of the dependencies are known. -/
def Told (known keys : List ModuleKey) (p : ModuleKey → Kept) (w : World) : Prop :=
  ∀ k ∈ keys, (p k).key = k ∧ k ∈ known ∧ k.HasDigest w (p k).digest ∧
    ∀ dep ∈ (p k).deps, dep.1 ∈ known ∧ dep.1.HasDigest w dep.2

theorem Told.opens (h : Told known keys p w) (hrepeats : w.Repeats known w') :
    List.Forall₂ (fun k d => Opens known w' d (p k)) keys (keys.map fun k =>
      .sealed k (.ok (.objects (p k).files)) ((p k).deps.map Prod.fst)) := by
  refine List.forall₂_map_right_iff.2 (List.forall₂_same.2 fun k hk => ?_)
  obtain ⟨hkey, hin, hdigest, hdeps⟩ := h k hk
  have hopens := @opens_sealed known w' (p k) (by rwa [hkey])
    (by rw [hkey]; exact (hrepeats.same k hin _).1 hdigest)
    fun dep hdep => ⟨(hdeps dep hdep).1, (hrepeats.same _ (hdeps dep hdep).1 _).1
      (hdeps dep hdep).2⟩
  rwa [hkey] at hopens

/-- A registry that has the commits of the keys supplies them. -/
theorem supplies_registry (hlive : w.live = true) (htold : Told known keys p w)
    (hcommits : ∀ k ∈ keys, ∃ c, w.registry.commit? k.name k.commit = some c ∧
      c.files = (p k).files ∧ c.deps = (p k).deps.map Prod.fst) :
    Supplies Registry.provider known keys p w := by
  intro asked hsub cells hrepeats
  have hdeliver : asked.mapM w.registry.deliver = .ok (asked.map fun k =>
      .sealed k (.ok (.objects (p k).files)) ((p k).deps.map Prod.fst)) := by
    refine mapM_eq_ok.2 (List.forall₂_map_right_iff.2 (List.forall₂_same.2 fun k hk => ?_))
    obtain ⟨c, hcommit, hfiles, hdeps⟩ := hcommits k (hsub.subset hk)
    rw [← hfiles, ← hdeps]
    refine Registry.deliver_eq hcommit fun path hpath => ?_
    rw [hfiles] at hpath
    exact isObject_of_mem_files hpath
  refine ⟨_, _, Registry.gives_provider.2 ⟨hlive, hdeliver, rfl⟩, hlive, rfl, ?_, ?_⟩
  · exact hrepeats.congr rfl fun _ => rfl
  · refine Told.opens (fun k hk => htold k (hsub.subset hk)) ?_
    exact hrepeats.congr rfl fun _ => rfl

open Delivery (pets base units petFiles petDeps petDigest retyped redirected digestFilledWith keyOf)

/-- A registry that has one module, and a store. -/
def petShop (v : Volume) : World :=
  { World.empty with
    store := v
    registry := (Registry.empty "r.com").store pets.commit
      ⟨pets.name, petDigest, petFiles, [base, units]⟩ [] }

def petKeys : List ModuleKey := [pets, base, units]

theorem told_pets {known : List ModuleKey} (h : petKeys ⊆ known) (v : Volume) :
    keptPets.key = pets ∧ pets ∈ known ∧ pets.HasDigest (petShop v) keptPets.digest ∧
      ∀ dep ∈ keptPets.deps, dep.1 ∈ known ∧ dep.1.HasDigest (petShop v) dep.2 := by
  refine ⟨rfl, h List.mem_cons_self, ⟨_, ModuleKey.run_known rfl⟩, ?_⟩
  exact List.forall_mem_cons.2 ⟨⟨h (by simp [petKeys]), _, ModuleKey.run_known rfl⟩,
    List.forall_mem_singleton.2 ⟨h (by simp [petKeys]), _, ModuleKey.run_known rfl⟩⟩

theorem supplies_petShop (v : Volume) :
    Supplies Registry.provider petKeys [pets] (fun _ => keptPets) (petShop v) :=
  supplies_registry rfl (List.forall_mem_singleton.2 (told_pets (List.Subset.refl _) v))
    (List.forall_mem_singleton.2 ⟨_, rfl, rfl, rfl⟩)

theorem resolves_petShop (v : Volume) : (petShop v).Resolves petKeys :=
  World.resolves_of_known (List.forall_mem_cons.2 ⟨⟨_, rfl⟩, List.forall_mem_cons.2 ⟨⟨_, rfl⟩,
    List.forall_mem_cons.2 ⟨⟨_, rfl⟩, by simp⟩⟩⟩)

/-- A store in which a file of the module stands without an entry. -/
def partStocked : Objects :=
  Table.empty.insert (filePath pets petDigest "p.schema") "message Pot {}".toUTF8

/-- A module that stands in the store in part is fetched anew. -/
theorem cached_partStocked : ∃ d w', (petShop (.table partStocked)).store.Tidy ∧
    Supplies Registry.provider petKeys [pets] (fun _ => keptPets) (petShop (.table partStocked)) ∧
    (cached Registry.provider [pets]).Gives (petShop (.table partStocked)) [d] w' ∧
    ∀ w₂, d.Delivers w₂ petFiles [base, units] := by
  have htidy : (petShop (.table partStocked)).store.Tidy := by
    show ∀ key ∈ partStocked.keys, IsObject key
    decide +kernel
  have hnone : (lookUp true (.table partStocked) pets petDigest).isNone = true := by
    decide +kernel
  have hunkept : unkept (petShop (.table partStocked)).store (fun _ => keptPets) [pets] =
      [pets] := by
    rw [unkept, List.filter_cons]
    show (if (lookUp true (.table partStocked) pets petDigest).isNone = true then _ else _) = _
    rw [if_pos hnone]
    rfl
  obtain ⟨objects, hperform⟩ : ∃ objects,
      perform (.table partStocked) keptPets.writes = (.ok (), .table objects) :=
    perform_table (by decide +kernel)
  obtain ⟨hok, _⟩ := cached_transparent (w := petShop (.table partStocked)) rfl htidy
    (by simp [petKeys]) (resolves_petShop _)
    (List.forall_mem_singleton.2 ⟨rfl, ⟨_, ModuleKey.run_known rfl⟩⟩) (by simp)
    (supplies_petShop _)
  obtain ⟨ds, w', hgives, _, hall⟩ := hok (.table objects) (by
    rw [hunkept, List.flatMap_cons, List.flatMap_nil, List.append_nil]
    exact hperform)
  obtain ⟨d, rest, ⟨_, hd⟩, hrest, rfl⟩ := List.forall₂_cons_left_iff.1 hall
  rw [List.forall₂_nil_left_iff] at hrest
  subst hrest
  rw [hunkept] at hd
  obtain ⟨_, hdelivers⟩ | ⟨hout, _⟩ := hd
  · exact ⟨d, w', htidy, supplies_petShop _, hgives, hdelivers⟩
  · exact absurd List.mem_cons_self hout

/-! ### Altered stores -/

/-- The files of the module in a store, with an entry. -/
def stockedWith (deps : List (ModuleKey × Digest)) : Objects :=
  .ofList ((entryPath pets petDigest, (entryText petDigest deps).toUTF8) :: keptPets.fileWrites)

/-- What the provider in front of the registry delivers if there is an entry. -/
def stocked (deps : List (ModuleKey × Digest)) : Delivery :=
  .sealed pets (.ok (filesBucket pets petDigest)) (deps.map recorded)

theorem lookUp_stocked (deps : List (ModuleKey × Digest)) :
    lookUp true (.table (stockedWith deps)) pets petDigest = some (stocked deps) := by
  have hnodup : (((entryPath pets petDigest, (entryText petDigest deps).toUTF8) ::
      keptPets.fileWrites).map Prod.fst).Nodup := by
    show (entryPath pets petDigest :: keptPets.fileWrites.map Prod.fst).Nodup
    decide +kernel
  refine lookUp_of_held ?_
  rw [Volume.held_table]
  exact (Table.find?_ofList hnodup).2 List.mem_cons_self

theorem getAll_stocked (deps : List (ModuleKey × Digest)) :
    (getAll [pets]).Gives (petShop (.table (stockedWith deps))) ([stocked deps], [])
      (petShop (.table (stockedWith deps))) := by
  have hkey : pets.resolveDigest.Gives (petShop (.table (stockedWith deps))) petDigest
      (petShop (.table (stockedWith deps))) := rfl
  have hfind : (find pets).Gives (petShop (.table (stockedWith deps)))
      (lookUp true (.table (stockedWith deps)) pets petDigest)
      (petShop (.table (stockedWith deps))) := gives_find_lookUp hkey
  rw [lookUp_stocked] at hfind
  exact gives_getAll_cons.2 ⟨rfl, _, _, [], [], hfind, Act.gives_pure.2 ⟨rfl, rfl⟩, rfl, rfl⟩

theorem gives_stocked (deps : List (ModuleKey × Digest)) :
    (cached Registry.provider [pets]).Gives (petShop (.table (stockedWith deps))) [stocked deps]
      (petShop (.table (stockedWith deps))) :=
  gives_cached (getAll_stocked deps) (Act.gives_pure.2 ⟨rfl, rfl⟩) rfl

/-- An entry with the older digest of a dependency. -/
def retypedDeps : List (ModuleKey × Digest) :=
  [(retyped, digestFilledWith .b4 1), (units, digestFilledWith .b5 2)]

/-- An entry with another module of the same digest as a dependency. -/
def redirectedDeps : List (ModuleKey × Digest) :=
  [(redirected, digestFilledWith .b5 1), (units, digestFilledWith .b5 2)]

theorem closed_retyped (w : World) (c : Contents) (d' : Delivery) (w' : World) :
    ¬ (stocked retypedDeps).contents.Gives w (c, d') w' := by
  intro hgives
  obtain ⟨hsettled, _⟩ | ⟨_, _, hverify⟩ := Delivery.gives_contents hgives
  · cases hsettled
  obtain ⟨_, _, hdeps, _, _, _, hdigest⟩ := Delivery.gives_verify.1 hverify
  obtain ⟨_, ds, _, hds, hx⟩ := Delivery.gives_digestOf.1 hdigest
  rw [hdeps] at hds
  cases hds.symm.trans (gives_recorded retypedDeps _)
  exact absurd ((Digest.b5_eq_ok.1 hx).1 (digestFilledWith .b4 1) List.mem_cons_self) (by decide)

theorem delivers_redirected : (stocked redirectedDeps).Delivers
    (petShop (.table (stockedWith redirectedDeps))) petFiles [redirected, units] := by
  have htidy : (petShop (.table (stockedWith redirectedDeps))).store.Tidy := by
    show ∀ key ∈ (stockedWith redirectedDeps).keys, IsObject key
    decide +kernel
  have hnormal : Path.IsNormal (filesDir keptPets.key keptPets.digest) := by decide +kernel
  have hholds : Holds (.table (stockedWith redirectedDeps)) keptPets :=
    ⟨some "README.md", [⟨"README.md", filePath pets petDigest "README.md"⟩,
      ⟨"p.schema", filePath pets petDigest "p.schema"⟩],
      by decide +kernel, by decide +kernel, by decide +kernel, by decide +kernel⟩
  have hsame : ∀ x, x ∈ keptPets.deps.map Prod.snd ↔ x ∈ redirectedDeps.map Prod.snd :=
    fun x => Iff.rfl
  have hguards := guards_found (w := petShop (.table (stockedWith redirectedDeps))) rfl htidy
    hnormal ⟨_, ModuleKey.run_known rfl⟩ fun files hfiles => by
      cases hfiles.unique hholds
      exact .of_same _ hsame
  exact hguards.serves hholds hsame

/-- A store with a file where a directory is needed. -/
def blocked : Volume := .tree (.folder (.cons "b5" (.file "".toUTF8) .nil))

theorem fails_blocked : ∃ e w',
    (cached Registry.provider [pets]).run (petShop blocked) = (.error e, w') := by
  have hnone : (lookUp true blocked pets petDigest).isNone = true := by decide +kernel
  have hrefused : (perform blocked keptPets.writes).1.isOk = false := by decide +kernel
  obtain ⟨outcome, v, hperform⟩ : ∃ outcome v,
      perform blocked keptPets.writes = (outcome, v) := ⟨_, _, rfl⟩
  cases outcome with
  | ok u =>
    rw [hperform] at hrefused
    cases hrefused
  | error e =>
    obtain ⟨cells, hfound, hrepeats⟩ := @gives_getAll_lookUp petKeys [pets] (petShop blocked)
      (fun _ => petDigest) rfl (resolves_petShop blocked) (by simp [petKeys])
      (List.forall_mem_singleton.2 ⟨_, ModuleKey.run_known rfl⟩)
    have hmissing : ([pets].filter fun k =>
        (lookUp true (petShop blocked).store k petDigest).isNone) = [pets] := by
      rw [List.filter_cons]
      exact if_pos hnone
    rw [hmissing] at hfound
    obtain ⟨_, herror⟩ := run_fetch (List.Sublist.refl [pets]) (supplies_petShop blocked) hrepeats
    obtain ⟨w', hfetch⟩ := herror e v (by
      rw [List.flatMap_cons, List.flatMap_nil, List.append_nil]
      exact hperform)
    rw [cached_eq]
    exact ⟨_, w', (Act.run_bind hfound _).trans (Act.run_bind_error hfetch _)⟩

theorem delivers_petShop (v : Volume) : ∃ d w',
    (Registry.provider [pets]).Gives (petShop v) [d] w' ∧ d.Delivers w' petFiles [base, units] := by
  obtain ⟨ds, w', hgives, hlive, _, hrepeats, hall⟩ := supplies_petShop v [pets]
    (List.Sublist.refl _) (petShop v).cells (resolves_petShop v).refl
  obtain ⟨d, rest, hd, hrest, rfl⟩ := List.forall₂_cons_left_iff.1 hall
  rw [List.forall₂_nil_left_iff] at hrest
  subst hrest
  obtain ⟨c, hdeps, hserves, hlater⟩ := hd.opens
  obtain ⟨d', w₂, hcontents, _⟩ := hlater w' hlive hrepeats.resolves.refl
  exact ⟨d, w', hgives, c, d', w₂, hcontents, hserves w₂.store, hdeps⟩

/-! ### Keys of one commit -/

/-- A provider that has a module for every key. -/
def offer (p : ModuleKey → Kept) : Provider := fun keys =>
  pure (keys.map fun k => .sealed k (.ok (.objects (p k).files)) ((p k).deps.map Prod.fst))

theorem supplies_offer (hlive : w.live = true) (htold : Told known keys p w) :
    Supplies (offer p) known keys p w := fun _ hsub _ hrepeats =>
  ⟨_, _, Act.gives_pure.2 ⟨rfl, rfl⟩, hlive, rfl, hrepeats,
    Told.opens (fun k hk => htold k (hsub.subset hk)) hrepeats⟩

/-- What such a provider delivers for the keys that the store misses is kept. -/
theorem fetches_offered (hlive : w.live = true) (hsub : keys ⊆ known) (hresolves : w.Resolves known)
    (htold : Told known keys p w) {missing : List ModuleKey}
    (hmissing : unkept w.store p keys = missing) {v : Volume}
    (hperform : perform w.store (missing.flatMap fun k => (p k).writes) = (.ok (), v)) :
    ∃ w₁ fetched w', (getAll keys).Gives w
        (keys.filterMap fun k => lookUp true w.store k (p k).digest, missing) w₁ ∧
      (fetch (offer p) missing).Gives w₁ fetched w' ∧ fetched.map Delivery.key = missing := by
  subst hmissing
  obtain ⟨cells, hfound, hrepeats⟩ := gives_getAll_lookUp hlive hresolves hsub
    fun k hk => (htold k hk).2.2.1
  have hmissing : (unkept w.store p keys).Sublist keys := List.filter_sublist
  obtain ⟨hok, _⟩ := run_fetch hmissing (supplies_offer hlive htold) hrepeats
  obtain ⟨fetched, w', hfetched, _, hall⟩ := hok v hperform
  refine ⟨_, fetched, w', hfound, hfetched, ?_⟩
  have hown := (List.forall₂_and_left _ _).2 ⟨fun k hk => (htold k (hmissing.subset hk)).1, hall⟩
  have hkeys := map_eq_of_forall₂ hown.flip (f := Delivery.key) (g := id)
    fun _ _ ⟨hk, hd, _⟩ => hd.trans hk
  rwa [List.map_id] at hkeys

def toyFiles : Table ByteArray := .ofList [("t.schema", "message Toy {}".toUTF8)]

def toyDigest : Digest := ⟨.b5, ContentHash.ofText (Digest.b5Text (.ofFiles toyFiles) [])⟩

/-- Another module, of the same commit. -/
def toys : ModuleKey := keyOf "acme" "toys" (by decide) toyDigest

-- the digests of the two are never compared
theorem commit_keyOf {owner name owner' name' : String} {x x' : Digest}
    (h : ["r.com", owner, name].all isNameComponent = true)
    (h' : ["r.com", owner', name'].all isNameComponent = true) :
    (keyOf owner name h x).commit = (keyOf owner' name' h' x').commit := rfl

theorem commit_pets : pets.commit = toys.commit := commit_keyOf _ _

def keptToys : Kept where
  key := toys
  digest := toyDigest
  files := toyFiles
  deps := []
  listed := by decide +kernel
  kinds := by decide +kernel
  oneDoc := by decide +kernel
  digest_eq := Digest.b5_eq_ok.2 ⟨by decide, rfl⟩

def shelf (key : ModuleKey) : Kept := if key.name.name = "toys" then keptToys else keptPets

theorem shelf_toys : shelf toys = keptToys := if_pos rfl

theorem shelf_pets : shelf pets = keptPets := if_neg (by decide)

theorem resolves_with {key : ModuleKey} {x : Digest} (h : key.digest = .known x) (v : Volume) :
    (petShop v).Resolves (key :: petKeys) :=
  World.resolves_of_known (List.forall_mem_cons.2 ⟨⟨_, h⟩, List.forall_mem_cons.2 ⟨⟨_, rfl⟩,
    List.forall_mem_cons.2 ⟨⟨_, rfl⟩, List.forall_mem_singleton.2 ⟨_, rfl⟩⟩⟩⟩)

theorem told_shelf (v : Volume) : Told (toys :: petKeys) [toys, pets] shelf (petShop v) := by
  refine List.forall_mem_cons.2 ⟨?_, List.forall_mem_singleton.2 ?_⟩
  · rw [shelf_toys]
    exact ⟨rfl, List.mem_cons_self, ⟨_, ModuleKey.run_known rfl⟩, List.forall_mem_nil _⟩
  · rw [shelf_pets]
    exact told_pets (List.subset_cons_self _ _) v

theorem split_pair (look : ModuleKey → Option Delivery) {key key' : ModuleKey}
    (hkey : look key = none) (hkey' : look key' = some d) :
    [key, key'].filterMap look = [d] ∧
      ([key, key'].filter fun k => (look k).isNone) = [key] := by
  simp [hkey, hkey']

theorem interleave_pair {key key' : ModuleKey} (h : d.key.commit = key.commit) :
    interleave [key, key'] [d] [d'] = .ok [d, d'] := by
  simp only [interleave, h, if_true]
  rfl

theorem lookUp_shelf :
    lookUp true (.table (stockedWith keptPets.deps)) toys (shelf toys).digest = none ∧
      lookUp true (.table (stockedWith keptPets.deps)) pets (shelf pets).digest =
        some (stocked keptPets.deps) := by
  rw [shelf_toys, shelf_pets]
  exact ⟨Option.isNone_iff_eq_none.1 (by decide +kernel), lookUp_stocked _⟩

/-- Where one of two modules of one commit stands in the store, it is delivered for the other. -/
theorem delivers_other : ∃ d d' w', (cached (offer shelf) [toys, pets]).Gives
      (petShop (.table (stockedWith keptPets.deps))) [d, d'] w' ∧
    d.key = pets ∧ d'.key = toys := by
  obtain ⟨htoys, hpets⟩ := lookUp_shelf
  obtain ⟨hhits, hmisses⟩ := split_pair (fun k => lookUp true
    (petShop (.table (stockedWith keptPets.deps))).store k (shelf k).digest) htoys hpets
  obtain ⟨objects, hperform⟩ : ∃ objects, perform (.table (stockedWith keptPets.deps))
      keptToys.writes = (.ok (), .table objects) := perform_table (by decide +kernel)
  obtain ⟨w₁, fetched, w', hfound, hfetched, hkeys⟩ := fetches_offered rfl (by simp [petKeys])
    (resolves_with rfl _) (told_shelf (.table (stockedWith keptPets.deps))) hmisses
    (v := .table objects) (by
      rw [List.flatMap_cons, List.flatMap_nil, List.append_nil, shelf_toys]
      exact hperform)
  rw [hhits] at hfound
  obtain ⟨d', rfl, hkey⟩ := List.map_eq_singleton_iff.1 hkeys
  refine ⟨stocked keptPets.deps, d', w', ?_, rfl, hkey⟩
  exact gives_cached hfound hfetched (interleave_pair commit_pets)

/-- The registry delivers what opens to the files and dependencies of the module, whatever stands in
the store. With a store before it, what is delivered may never open or open to other dependencies,
and it may be that nothing is delivered. Of modules of one commit, one may be delivered for the
other. -/
theorem not_transparent :
    (∀ v, ∃ d w', (Registry.provider [pets]).Gives (petShop v) [d] w' ∧
        d.Delivers w' petFiles [base, units]) ∧
      (∃ v d w', (cached Registry.provider [pets]).Gives (petShop v) [d] w' ∧
        ∀ w₂ files deps, ¬ d.Delivers w₂ files deps) ∧
      (∃ v d w', (cached Registry.provider [pets]).Gives (petShop v) [d] w' ∧
        d.Delivers w' petFiles [redirected, units] ∧ base ∉ [redirected, units]) ∧
      (∃ v e w', (cached Registry.provider [pets]).run (petShop v) = (.error e, w')) ∧
      ∃ v, Supplies (offer shelf) (toys :: petKeys) [toys, pets] shelf (petShop v) ∧
        ∃ d d' w', (cached (offer shelf) [toys, pets]).Gives (petShop v) [d, d'] w' ∧
          d.key = pets ∧ d'.key = toys ∧ pets.name ≠ toys.name := by
  refine ⟨delivers_petShop, ⟨_, _, _, gives_stocked retypedDeps, fun w files deps => ?_⟩,
    ⟨_, _, _, gives_stocked redirectedDeps, delivers_redirected, by decide⟩,
    ⟨blocked, fails_blocked⟩, ?_⟩
  · rintro ⟨c, d', w', hgives, _⟩
    exact closed_retyped w c d' w' hgives
  · obtain ⟨d, d', w', hgives, hd, hd'⟩ := delivers_other
    exact ⟨_, supplies_offer rfl (told_shelf _), d, d', w', hgives, hd, hd', by decide⟩

end Schemata.Store

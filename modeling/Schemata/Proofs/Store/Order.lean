import Schemata.Proofs.Store.Transparency

/-!
# What is asked for and the order of the answers

Behind a store a provider is asked for the keys that the store has no readable entry for, all at
once and in their order, and it is not asked if there are none. The answers come in the order of all
keys.
-/

namespace Schemata

/-- Whether a provider gives one delivery for each key in order. -/
def Provider.Orderly (provider : Provider) : Prop :=
  ∀ asked w ds w', (provider asked).Gives w ds w' → ds.map Delivery.key = asked

namespace Store

variable {provider : Provider} {keys missing : List ModuleKey} {found fetched ds ds' : List Delivery}
  {key : ModuleKey} {d d' : Delivery} {w w₁ w' : World}

/-! ### What the store has -/

theorem lookUp_of_gives_find {answer : Option Delivery} (h : (find key).Gives w answer w') :
    ∃ x, key.resolveDigest.Gives w x w' ∧ answer = lookUp w'.live w'.store key x := by
  obtain ⟨x, w₁, hkey, _⟩ := Act.gives_bind.1 h
  cases h.symm.trans (gives_find_lookUp hkey)
  exact ⟨x, hkey, rfl⟩

/-- What a store has for a key of a digest. -/
def had (v : Storage.Volume) (x : ModuleKey → Digest) (key : ModuleKey) : Option Delivery :=
  lookUp true v key (x key)

/-- The keys that a store has nothing for. -/
def missed (v : Storage.Volume) (x : ModuleKey → Digest) (keys : List ModuleKey) : List ModuleKey :=
  keys.filter fun k => (had v x k).isNone

variable {v : Storage.Volume} {x : ModuleKey → Digest}

theorem key_of_had (h : had v x key = some d) : d.key = key := by
  obtain ⟨_, deps, rfl⟩ := lookUp_cases h
  rfl

theorem missed_cons : missed v x (key :: keys) =
    (if (had v x key).isNone then [key] else []) ++ missed v x keys := by
  rw [missed, List.filter_cons]
  split
  · rfl
  · rfl

/-- Looking for several keys gives what the store has and the keys that it misses. -/
theorem had_of_gives_getAll (hin : ∀ k ∈ keys, k.In w)
    (h : (getAll keys).Gives w (found, missing) w') :
    w.Before w' ∧ (∀ k ∈ keys, ∃ y, k.Found w' y) ∧
      ∀ x : ModuleKey → Digest, (∀ k ∈ keys, k.Found w' (x k)) →
        found = keys.filterMap (had w.store x) ∧ missing = missed w.store x keys := by
  induction keys generalizing w found missing with
  | nil =>
    obtain ⟨heq, rfl⟩ := Act.gives_pure.1 h
    cases heq
    exact ⟨.refl w, by simp, fun _ _ => ⟨rfl, rfl⟩⟩
  | cons key keys ih =>
    obtain ⟨hkey, hkeys⟩ := List.forall_mem_cons.1 hin
    obtain ⟨hlive, answer, w₁, found', missing', hfind, hrest, rfl, rfl⟩ := gives_getAll_cons.1 h
    obtain ⟨y, hdigest, rfl⟩ := lookUp_of_gives_find hfind
    have hbefore := ModuleKey.before_of_gives hdigest
    have htold := ModuleKey.found_of_gives hkey hdigest
    obtain ⟨cells, rfl⟩ := ModuleKey.cells_of_gives hdigest
    obtain ⟨hbefore', hall, hhad⟩ := ih (fun k hk => (hkeys k hk).mono hbefore) hrest
    refine ⟨hbefore.trans hbefore', List.forall_mem_cons.2 ⟨⟨y, htold.mono hbefore'⟩, hall⟩,
      fun x hx => ?_⟩
    obtain ⟨hxkey, hxkeys⟩ := List.forall_mem_cons.1 hx
    obtain ⟨rfl, rfl⟩ := hhad x hxkeys
    have hfirst : lookUp w.live w.store key y = had w.store x key := by
      rw [had, hlive, (htold.mono hbefore').unique hxkey]
    refine ⟨?_, ?_⟩
    · show (lookUp w.live w.store key y).toList ++ _ = _
      rw [hfirst, List.filterMap_cons]
      cases had w.store x key with
      | none => rfl
      | some d => rfl
    · show (if (lookUp w.live w.store key y).isNone then _ else _) ++ _ = _
      rw [hfirst, missed_cons]

/-! ### What was asked for -/

/-- What a store before a provider does, also where the provider does more than acting. -/
def cachedWith {m : Type → Type} [Monad m] [MonadLiftT Act m]
    (provider : List ModuleKey → m (List Delivery)) (keys : List ModuleKey) :
    m (List Delivery) := do
  let (found, missing) ← getAll keys
  let fetched ← if missing.isEmpty then pure [] else do putAll (← provider missing)
  Act.ofExcept (interleave keys found fetched)

theorem cachedWith_act (provider : Provider) (keys : List ModuleKey) :
    cachedWith provider keys = cached provider keys := rfl

/-- A provider that notes what it is asked for. -/
def noting (provider : Provider) (keys : List ModuleKey) :
    StateT (List (List ModuleKey)) Act (List Delivery) := do
  modify (· ++ [keys])
  provider keys

theorem run_noting (provider : Provider) (keys : List ModuleKey) (asked : List (List ModuleKey)) :
    (cachedWith (noting provider) keys).run asked = (do
      let (found, missing) ← getAll keys
      let fetched ← fetch provider missing
      let ds ← Act.ofExcept (interleave keys found fetched)
      return (ds, if missing.isEmpty then asked else asked ++ [missing])) := by
  unfold cachedWith noting fetch
  simp only [StateT.run_bind, StateT.run_monadLift, bind_assoc, pure_bind, bind_pure_comp,
    bind_map_left]
  refine congrArg (getAll keys >>= ·) (funext fun r => ?_)
  obtain ⟨found, missing⟩ := r
  simp only
  split
  · simp
  · simp

/-- Noting changes nothing else. -/
theorem forget_noting (provider : Provider) (keys : List ModuleKey)
    (asked : List (List ModuleKey)) :
    Prod.fst <$> (cachedWith (noting provider) keys).run asked = cached provider keys := by
  rw [run_noting, cached_eq]
  simp only [map_bind, map_pure, bind_pure]

theorem gives_noting (hfound : (getAll keys).Gives w (found, missing) w₁)
    (hfetched : (fetch provider missing).Gives w₁ fetched w')
    (hmerged : interleave keys found fetched = .ok ds) :
    Act.Gives ((cachedWith (noting provider) keys).run []) w
      (ds, if missing.isEmpty then [] else [missing]) w' := by
  rw [run_noting]
  exact Act.gives_bind.2 ⟨_, w₁, hfound, Act.gives_bind.2 ⟨fetched, w', hfetched,
    Act.gives_bind.2 ⟨ds, w', Act.gives_ofExcept.2 ⟨hmerged, rfl⟩, Act.gives_pure.2 ⟨rfl, rfl⟩⟩⟩⟩

/-! ### The order of the answers -/

theorem key_of_gives_put (h : (put d).Gives w d' w') : d'.key = d.key := by
  obtain ⟨⟨c, d₁⟩, _, hcontents, h⟩ := Act.gives_bind.1 h
  obtain ⟨_, _, _, h⟩ := Act.gives_bind.1 h
  obtain ⟨_, _, _, h⟩ := Act.gives_bind.1 h
  obtain ⟨_, _, _, h⟩ := Act.gives_bind.1 h
  obtain ⟨_, _, _, h⟩ := Act.gives_bind.1 h
  obtain ⟨_, _, _, h⟩ := Act.gives_bind.1 h
  obtain ⟨rfl, _⟩ := Act.gives_pure.1 h
  exact (cells_of_contents hcontents).1

theorem keys_of_gives_putAll (h : (putAll ds).Gives w ds' w') :
    ds'.map Delivery.key = ds.map Delivery.key := by
  induction ds generalizing w ds' with
  | nil =>
    obtain ⟨rfl, _⟩ := Act.gives_pure.1 h
    rfl
  | cons d ds ih =>
    rw [putAll] at h
    obtain ⟨_, _, _, h⟩ := Act.gives_bind.1 h
    obtain ⟨d', _, hput, h⟩ := Act.gives_bind.1 h
    obtain ⟨rest, _, hrest, h⟩ := Act.gives_bind.1 h
    obtain ⟨rfl, rfl⟩ := Act.gives_pure.1 h
    rw [List.map_cons, List.map_cons, key_of_gives_put hput, ih hrest]

/-- What is fetched is one delivery for each key in order. -/
theorem keys_of_gives_fetch (horderly : provider.Orderly)
    (h : (fetch provider missing).Gives w fetched w') : fetched.map Delivery.key = missing := by
  unfold fetch at h
  split at h
  · rename_i hempty
    obtain ⟨rfl, _⟩ := Act.gives_pure.1 h
    rw [List.isEmpty_iff.1 hempty]
    rfl
  · obtain ⟨ds, _, hasked, hput⟩ := Act.gives_bind.1 h
    rw [keys_of_gives_putAll hput, horderly _ _ _ _ hasked]

/-- Behind a store an orderly provider is asked for the keys that the store misses, all at once and
in their order, and it is not asked if there are none. There is one answer for each key, and it is
for that key if the keys are unmixed. -/
theorem cached_in_order (horderly : provider.Orderly) (hin : ∀ k ∈ keys, k.In w)
    (h : (cached provider keys).Gives w ds w') :
    ∃ (x : ModuleKey → Digest) (w₁ : World), (∀ k ∈ keys, k.Found w₁ (x k)) ∧
      (getAll keys).Gives w (keys.filterMap (had w.store x), missed w.store x keys) w₁ ∧
      Act.Gives ((cachedWith (noting provider) keys).run []) w
        (ds, if (missed w.store x keys).isEmpty then [] else [missed w.store x keys]) w' ∧
      ds.length = keys.length ∧
      (Unmixed (had w.store x) keys → ds.map Delivery.key = keys) := by
  rw [cached_eq] at h
  obtain ⟨⟨found, missing⟩, w₁, hgetAll, h⟩ := Act.gives_bind.1 h
  obtain ⟨fetched, w₂, hfetched, h⟩ := Act.gives_bind.1 h
  obtain ⟨hmerged, rfl⟩ := Act.gives_ofExcept.1 h
  obtain ⟨_, htold, hhad⟩ := had_of_gives_getAll hin hgetAll
  have : Nonempty Digest := ⟨⟨.b5, .ofText ""⟩⟩
  choose! x hx using htold
  obtain ⟨rfl, rfl⟩ := hhad x hx
  refine ⟨x, w₁, hx, hgetAll, gives_noting hgetAll hfetched hmerged, length_interleave hmerged, ?_⟩
  exact (keys_interleave_iff (fun _ _ _ hd => key_of_had hd) (keys_of_gives_fetch horderly hfetched)
    hmerged).2

open Delivery (pets petDigest)

/-! ### A module of which the store has one of two commits -/

/-- Another commit of a module that the store misses. -/
def balls : ModuleKey := { toys with commit := ⟨"11111111111111111111111111111111", by decide⟩ }

def keptBalls : Kept := { keptToys with key := balls }

def stall (key : ModuleKey) : Kept := if key.name.name = "toys" then keptBalls else keptPets

theorem stall_balls : stall balls = keptBalls := if_pos rfl

theorem stall_pets : stall pets = keptPets := if_neg (by decide)

theorem orderly_offer (p : ModuleKey → Kept) : (offer p).Orderly := by
  intro asked w ds w' h
  obtain ⟨rfl, _⟩ := Act.gives_pure.1 h
  rw [List.map_map]
  exact List.map_id asked

def petStall : World := petShop (.table (stockedWith keptPets.deps))

theorem lookUp_petStall : lookUp true petStall.store balls toyDigest = none ∧
    lookUp true petStall.store pets petDigest = some (stocked keptPets.deps) :=
  ⟨Option.isNone_iff_eq_none.1 (by decide +kernel), lookUp_stocked _⟩

theorem told_stall : Told (balls :: petKeys) [pets, balls, pets] stall petStall := by
  have hpets := told_pets (List.subset_cons_self balls petKeys) (.table (stockedWith keptPets.deps))
  rw [← stall_pets] at hpets
  refine List.forall_mem_cons.2 ⟨hpets, List.forall_mem_cons.2
    ⟨?_, List.forall_mem_singleton.2 hpets⟩⟩
  rw [stall_balls]
  exact ⟨rfl, List.mem_cons_self, ⟨_, ModuleKey.run_known rfl⟩, List.forall_mem_nil _⟩

theorem resolves_petStall : petStall.Resolves (balls :: petKeys) := resolves_with rfl _

theorem subset_petStall : [pets, balls, pets] ⊆ balls :: petKeys := by simp [petKeys]

theorem in_petStall : ∀ k ∈ [pets, balls, pets], k.In petStall :=
  fun k hk => resolves_petStall.there k (subset_petStall hk)

theorem gives_petStall :
    ∃ ds w', (cached (offer stall) [pets, balls, pets]).Gives petStall ds w' := by
  obtain ⟨hballs, hpets⟩ := lookUp_petStall
  have hballs' : lookUp true petStall.store balls (stall balls).digest = none := by
    rw [stall_balls]
    exact hballs
  have hpets' : lookUp true petStall.store pets (stall pets).digest =
      some (stocked keptPets.deps) := by
    rw [stall_pets]
    exact hpets
  have hmissed : unkept petStall.store stall [pets, balls, pets] = [balls] := by
    simp [unkept, hballs', hpets']
  have hhad : [pets, balls, pets].filterMap
      (fun k => lookUp true petStall.store k (stall k).digest) =
        [stocked keptPets.deps, stocked keptPets.deps] := by
    simp [hballs', hpets']
  obtain ⟨objects, hperform⟩ : ∃ objects, perform petStall.store keptBalls.writes =
      (.ok (), .table objects) := perform_table (by decide +kernel)
  obtain ⟨w₁, fetched, w', hfound, hfetched, hkeys⟩ := fetches_offered rfl subset_petStall
    resolves_petStall told_stall hmissed (v := .table objects) (by
      rw [List.flatMap_cons, List.flatMap_nil, List.append_nil, stall_balls]
      exact hperform)
  rw [hhad] at hfound
  obtain ⟨d, rfl, _⟩ := List.map_eq_singleton_iff.1 hkeys
  have hmerged : interleave [pets, balls, pets] [stocked keptPets.deps, stocked keptPets.deps] [d] =
      .ok [stocked keptPets.deps, d, stocked keptPets.deps] := by
    have hown : (stocked keptPets.deps).key.commit = pets.commit := rfl
    have hother : Differs [stocked keptPets.deps] balls := fun _ h => by
      cases h
      decide
    rw [interleave_found hown, interleave_fetched hother, interleave_found hown]
    rfl
  exact ⟨_, w', gives_cached hfound hfetched hmerged⟩

/-- What the store has of the module is delivered each time, and the commit that it misses is asked
for once. -/
theorem cached_in_order_balls : ∃ ds w',
    (offer stall).Orderly ∧ (∀ k ∈ [pets, balls, pets], k.In petStall) ∧
    (cached (offer stall) [pets, balls, pets]).Gives petStall ds w' ∧
    ds.map Delivery.key = [pets, balls, pets] ∧
    Act.Gives ((cachedWith (noting (offer stall)) [pets, balls, pets]).run []) petStall
      (ds, [[balls]]) w' := by
  obtain ⟨ds, w', hgives⟩ := gives_petStall
  obtain ⟨x, w₁, hx, _, hnoted, _, hkeys⟩ :=
    cached_in_order (orderly_offer stall) in_petStall hgives
  have hxpets : x pets = petDigest := (hx pets (by simp)).unique (.inl rfl)
  have hxballs : x balls = toyDigest := (hx balls (by simp)).unique (.inl rfl)
  have hpets : had petStall.store x pets = some (stocked keptPets.deps) := by
    rw [had, hxpets]
    exact lookUp_petStall.2
  have hballs : had petStall.store x balls = none := by
    rw [had, hxballs]
    exact lookUp_petStall.1
  have hunmixed : Unmixed (had petStall.store x) [pets, balls, pets] := by
    refine ⟨fun hnone => by simp [hpets] at hnone, fun _ d hd => ?_,
      fun hnone => by simp [hpets] at hnone, trivial⟩
    rw [List.findSome?_cons, hpets] at hd
    cases hd
    decide
  have hmissed : missed petStall.store x [pets, balls, pets] = [balls] := by
    simp [missed, hpets, hballs]
  rw [hmissed] at hnoted
  exact ⟨ds, w', orderly_offer stall, in_petStall, hgives, hkeys hunmixed, hnoted⟩

/-! ### Two modules of one commit -/

/-- For keys of one commit the answers may come in another order, and if the store has every key the
provider is not asked. -/
theorem answers_mistaken :
    (∃ provider keys w ds w', Provider.Orderly provider ∧ (∀ k ∈ keys, k.In w) ∧
      (cached provider keys).Gives w ds w' ∧ ds.map Delivery.key ≠ keys) ∧
    ∃ provider keys w ds w', Provider.Orderly provider ∧ (∀ k ∈ keys, k.In w) ∧ keys ≠ [] ∧
      Act.Gives ((cachedWith (noting provider) keys).run []) w (ds, []) w' := by
  refine ⟨?_, ?_⟩
  · obtain ⟨d, d', w', hgives, hd, hd'⟩ := delivers_other
    refine ⟨_, _, _, _, w', orderly_offer shelf, fun k hk => ?_, hgives, fun hkeys => ?_⟩
    · have hsub : [toys, pets] ⊆ toys :: petKeys := by simp [petKeys]
      exact (@resolves_with toys _ rfl _).there k (hsub hk)
    · have hsame : pets = toys := hd.symm.trans (List.cons.inj hkeys).1
      exact absurd (congrArg ModuleKey.name hsame) (by decide)
  · refine ⟨offer shelf, [pets], petStall, _, petStall, orderly_offer shelf, fun k hk => ?_,
      by simp, gives_noting (getAll_stocked _) (Act.gives_pure.2 ⟨rfl, rfl⟩) rfl⟩
    exact in_petStall k (List.mem_cons.2 (.inl (List.mem_singleton.1 hk)))

end Store

end Schemata

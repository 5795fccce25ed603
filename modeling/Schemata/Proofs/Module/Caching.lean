import Schemata.Proofs.Module.Providers
import Schemata.Proofs.Store.Interleaving

/-!
# The store as a provider

Whatever stands in the store, a delivery from it is yet to be verified, and what another provider
delivers is verified before it is kept. So a cached provider makes up no verification if the
provider behind it makes up none.
-/

namespace Schemata

open Storage

/-! ### Deliveries from the store -/

namespace Store

variable {w w' : World} {keys : List ModuleKey}

theorem later_write (path : String) (content : ByteArray) : (write path content).Later := by
  intro w _ w' h
  have hw : { w with store := (w.store.put w.live path content).2 } = w' := congrArg Prod.snd h
  rw [← hw]
  exact ⟨Nat.le_refl _, fun _ _ _ hcell => hcell, id⟩

/-- The dependencies that an entry records have known digests. -/
theorem digest_readDep {v : Toml.Value} {k : ModuleKey} (h : readDep v = some k) :
    ∃ d, k.digest = .known d := by
  unfold readDep at h
  simp only [Option.bind_eq_bind, Option.bind_eq_some_iff] at h
  obtain ⟨fields, _, h⟩ := h
  split at h
  · simp only [Option.pure_def, Option.bind_eq_some_iff, Option.some.injEq] at h
    obtain ⟨_, _, _, _, _, _, _, _, _, _, d, _, rfl⟩ := h
    exact ⟨d, rfl⟩
  · cases h

theorem digests_readEntry {content : ByteArray} {recorded : Digest} {deps : List ModuleKey}
    (h : readEntry content = some (recorded, deps)) : ∀ k ∈ deps, ∃ d, k.digest = .known d := by
  unfold readEntry at h
  simp only [Option.bind_eq_bind, Option.bind_eq_some_iff] at h
  obtain ⟨text, _, document, _, fields, _, h⟩ := h
  split at h
  · simp only [Option.pure_def, Option.bind_eq_some_iff, Option.some.injEq, Prod.mk.injEq] at h
    obtain ⟨_, _, _, hdeps, _, _, _, rfl⟩ := h
    unfold Toml.optional Toml.Value.items? at hdeps
    split at hdeps
    · split at hdeps
      · intro k hk
        obtain ⟨v, _, hv⟩ := exists_of_mapM hdeps hk
        exact digest_readDep hv
      · cases hdeps
    · cases hdeps
      exact fun _ hk => absurd hk List.not_mem_nil
  · cases h

/-- What the store finds for a key is yet to be verified. -/
theorem gives_find {key : ModuleKey} {found : Option Delivery} (hkey : key.In w)
    (h : (find key).Gives w found w') : w.Before w' ∧ ∀ d, found = some d → d.Sound w' := by
  obtain ⟨digest, w₁, hdigest, h⟩ := Act.gives_bind.1 h
  have hbefore := ModuleKey.before_of_gives hdigest
  obtain ⟨w₂, w₃, hget, h⟩ := Act.gives_bind.1 h
  cases hget
  simp only at h
  split at h
  · obtain ⟨rfl, rfl⟩ := Act.gives_pure.1 h
    exact ⟨hbefore, fun _ hd => by cases hd⟩
  · split at h
    · rename_i hentry
      split at h
      · obtain ⟨rfl, rfl⟩ := Act.gives_pure.1 h
        refine ⟨hbefore, fun d hd => ?_⟩
        cases hd
        refine Delivery.sound_sealed (List.forall_mem_cons.2 ⟨hkey.mono hbefore, fun k hk => ?_⟩)
        obtain ⟨x, hx⟩ := digests_readEntry hentry k hk
        exact ModuleKey.in_of_known hx
      · obtain ⟨rfl, rfl⟩ := Act.gives_pure.1 h
        exact ⟨hbefore, fun _ hd => by cases hd⟩
    · obtain ⟨rfl, rfl⟩ := Act.gives_pure.1 h
      exact ⟨hbefore, fun _ hd => by cases hd⟩

/-- Looking for a key and then for others. -/
theorem gives_getAll_cons {key : ModuleKey} {found : List Delivery} {missing : List ModuleKey} :
    (getAll (key :: keys)).Gives w (found, missing) w' ↔ w.live = true ∧
      ∃ answer w₁ found' missing', (find key).Gives w answer w₁ ∧
        (getAll keys).Gives w₁ (found', missing') w' ∧ found = answer.toList ++ found' ∧
        missing = (if answer.isNone then [key] else []) ++ missing' := by
  rw [getAll]
  constructor
  · intro h
    obtain ⟨_, w₀, hcheck, h⟩ := Act.gives_bind.1 h
    obtain ⟨hlive, rfl⟩ := Act.live_of_gives hcheck
    obtain ⟨answer, w₁, hfirst, h⟩ := Act.gives_bind.1 h
    obtain ⟨⟨found', missing'⟩, w₂, hrest, h⟩ := Act.gives_bind.1 h
    refine ⟨hlive, answer, w₁, found', missing', hfirst, ?_⟩
    cases answer with
    | none =>
      obtain ⟨heq, rfl⟩ := Act.gives_pure.1 h
      cases heq
      exact ⟨hrest, rfl, rfl⟩
    | some d =>
      obtain ⟨heq, rfl⟩ := Act.gives_pure.1 h
      cases heq
      exact ⟨hrest, rfl, rfl⟩
  · rintro ⟨hlive, answer, w₁, found', missing', hfirst, hrest, rfl, rfl⟩
    refine Act.gives_bind.2 ⟨(), w, Act.gives_checkLive hlive, Act.gives_bind.2
      ⟨answer, w₁, hfirst, Act.gives_bind.2 ⟨(found', missing'), w', hrest, ?_⟩⟩⟩
    cases answer with
    | none => exact Act.gives_pure.2 ⟨rfl, rfl⟩
    | some d => exact Act.gives_pure.2 ⟨rfl, rfl⟩

theorem gives_getAll {found : List Delivery} {missing : List ModuleKey} (hkeys : ∀ k ∈ keys, k.In w)
    (h : (getAll keys).Gives w (found, missing) w') :
    w.Before w' ∧ (∀ d ∈ found, d.Sound w') ∧ missing ⊆ keys := by
  induction keys generalizing w found missing with
  | nil =>
    obtain ⟨heq, rfl⟩ := Act.gives_pure.1 h
    cases heq
    exact ⟨.refl w, fun _ hd => absurd hd List.not_mem_nil, List.Subset.refl _⟩
  | cons key keys ih =>
    obtain ⟨hkey, hkeys⟩ := List.forall_mem_cons.1 hkeys
    obtain ⟨_, answer, w₁, found', missing', hfirst, hrest, rfl, rfl⟩ := gives_getAll_cons.1 h
    obtain ⟨hbefore, hsound⟩ := gives_find hkey hfirst
    obtain ⟨hbefore', hall, hsub⟩ := ih (fun k hk => (hkeys k hk).mono hbefore) hrest
    refine ⟨hbefore.trans hbefore', fun d hd => ?_, List.append_subset.2 ⟨?_, ?_⟩⟩
    · rcases List.mem_append.1 hd with hd | hd
      · exact (hsound d (Option.mem_toList.1 hd)).mono hbefore'
      · exact hall d hd
    · split
      · exact List.cons_subset_cons _ (List.nil_subset _)
      · exact List.nil_subset _
    · exact List.subset_cons_of_subset key hsub

/-! ### Keeping deliveries -/

theorem gives_put {d d' : Delivery} (hd : d.Sound w) (h : (put d).Gives w d' w') :
    w.Before w' ∧ d'.Sound w' := by
  obtain ⟨⟨c, d₁⟩, w₁, hcontents, h⟩ := Act.gives_bind.1 h
  obtain ⟨hbefore, hsound, _⟩ := hd.contents hcontents
  obtain ⟨digest, w₂, hdigest, h⟩ := Act.gives_bind.1 h
  obtain ⟨infos, w₃, hinfos, h⟩ := Act.gives_bind.1 h
  obtain ⟨_, w₄, hfiles, h⟩ := Act.gives_bind.1 h
  obtain ⟨deps, w₅, hdeps, h⟩ := Act.gives_bind.1 h
  obtain ⟨_, w₆, hentry, h⟩ := Act.gives_bind.1 h
  obtain ⟨rfl, rfl⟩ := Act.gives_pure.1 h
  -- nothing that comes after the verification changes a digest that was found
  have h₂ := ModuleKey.before_of_gives hdigest
  have h₃ := Act.later_ofWorld _ _ _ _ hinfos
  have h₄ := Act.later_forIn (fun info _ => (Act.later_ofWorld _).bind fun _ =>
    (later_write _ _).bind fun _ => Act.later_pure _) _ _ _ _ _ hfiles
  have h₅ := Act.later_mapM (fun dep => dep.later_resolveDigest.bind fun _ => Act.later_pure _)
    _ _ _ _ hdeps
  have h₆ := later_write _ _ _ _ _ hentry
  have hlater := h₂.trans (h₃.trans (h₄.trans (h₅.trans h₆)))
  exact ⟨hbefore.trans hlater, hsound.mono hlater⟩

theorem gives_putAll {ds ds' : List Delivery} (hds : ∀ d ∈ ds, d.Sound w)
    (h : (putAll ds).Gives w ds' w') : w.Before w' ∧ ∀ d ∈ ds', d.Sound w' := by
  induction ds generalizing w ds' w' with
  | nil =>
    obtain ⟨rfl, rfl⟩ := Act.gives_pure.1 h
    exact ⟨.refl w, fun _ hd => absurd hd List.not_mem_nil⟩
  | cons d ds ih =>
    obtain ⟨hd, hds⟩ := List.forall_mem_cons.1 hds
    rw [putAll] at h
    obtain ⟨_, w₁, hlive, h⟩ := Act.gives_bind.1 h
    obtain ⟨_, rfl⟩ := Act.gives_ofWorld.1 hlive
    obtain ⟨d', w₁, hput, h⟩ := Act.gives_bind.1 h
    obtain ⟨rest, w₂, hrest, h⟩ := Act.gives_bind.1 h
    obtain ⟨rfl, rfl⟩ := Act.gives_pure.1 h
    obtain ⟨hbefore, hsound⟩ := gives_put hd hput
    obtain ⟨hbefore', hall⟩ := ih (fun e he => (hds e he).mono hbefore) hrest
    exact ⟨hbefore.trans hbefore', List.forall_mem_cons.2 ⟨hsound.mono hbefore', hall⟩⟩

/-! ### The store as a cache -/

/-- A cached provider is faithful if the one behind it is. -/
theorem faithful_cached {provider : Provider} (hprovider : provider.Faithful) :
    (cached provider).Faithful := by
  intro keys w ds w' hclosed hkeys h
  obtain ⟨⟨found, missing⟩, w₁, hfound, h⟩ := Act.gives_bind.1 h
  obtain ⟨hbefore, hsound, hsub⟩ := gives_getAll hkeys hfound
  have hboth {fetched : List Delivery} {w₂ : World} (hbefore' : w₁.Before w₂)
      (hfetched : ∀ d ∈ fetched, d.Sound w₂)
      (h : (Act.ofExcept (interleave keys found fetched)).Gives w₂ ds w') :
      w.Before w' ∧ ∀ d ∈ ds, d.Sound w' := by
    obtain ⟨hds, rfl⟩ := Act.gives_ofExcept.1 h
    refine ⟨hbefore.trans hbefore', fun d hd => ?_⟩
    rcases List.mem_append.1 (subset_of_interleave hds hd) with hd | hd
    · exact (hsound d hd).mono hbefore'
    · exact hfetched d hd
  simp only at h
  split at h
  · obtain ⟨_, w₂, hnone, h⟩ := Act.gives_bind.1 h
    obtain ⟨rfl, rfl⟩ := Act.gives_pure.1 hnone
    exact hboth (.refl w₁) (fun _ hd => absurd hd List.not_mem_nil) h
  · obtain ⟨delivered, w₂, hdelivered, h⟩ := Act.gives_bind.1 h
    obtain ⟨fetched, w₃, hfetched, h⟩ := Act.gives_bind.1 h
    have hmissing : ∀ k ∈ missing, k.In w₁ := fun k hk => (hkeys k (hsub hk)).mono hbefore
    obtain ⟨hbefore₂, hdelivered⟩ := hprovider (hbefore.closed hclosed) hmissing hdelivered
    obtain ⟨hbefore₃, hkept⟩ := gives_putAll hdelivered hfetched
    exact hboth (hbefore₂.trans hbefore₃) hkept h

end Store

end Schemata

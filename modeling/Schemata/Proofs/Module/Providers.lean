import Schemata.Proofs.Module.Delivery
import Schemata.Proofs.Module.Tables
import Schemata.Registry.Access

/-!
# Providers

A provider may deliver whatever it likes for a key. But it cannot make up the outcome of a
verification: a delivery was not looked into yet, or what it gives passed its verification. Nor can
a provider change a digest that was found. The registry is such a provider.
-/

namespace Schemata

open Storage

namespace Delivery

variable {w w' : World} {d d' : Delivery} {c : Contents} {x : Digest}

theorem Verifies.before (h : d.Verifies w c x w') : w.Before w' := by
  obtain ⟨w₁, hkey, hdigest⟩ := h.digests
  obtain ⟨m, ds, _, hds, _⟩ := gives_digestOf.1 hdigest
  exact (ModuleKey.before_of_gives hkey).trans (ModuleKey.gives_digests hds).1

/-- Whether the cells of the keys of a delivery are there. -/
def KeysIn (w : World) (d : Delivery) : Prop := ∀ k ∈ d.key :: d.declared, k.In w

/-- Whether a delivery has passed its verification, between two worlds of the past. -/
structure Passed (d : Delivery) (c : Contents) (x : Digest) (w₁ w₂ w : World) : Prop where
  keys : d.KeysIn w₁
  verifies : d.Verifies w₁ c x w₂
  before : w₂.Before w

/-- Whether a delivery gives nothing but what has passed its verification. -/
structure Sound (w : World) (d : Delivery) : Prop where
  keys : d.KeysIn w
  passed : ∀ c, d.check = .settled (.ok c) → ∃ x w₁ w₂, d.Passed c x w₁ w₂ w

theorem sound_sealed {key : ModuleKey} {source : Except Module.Error Bucket}
    {declared : List ModuleKey} (h : ∀ k ∈ key :: declared, k.In w) :
    (Delivery.sealed key source declared).Sound w :=
  ⟨h, fun _ hcheck => by cases hcheck⟩

theorem Sound.mono (h : d.Sound w) (hw : w.Before w') : d.Sound w' := by
  refine ⟨fun k hk => (h.keys k hk).mono hw, fun c hc => ?_⟩
  obtain ⟨x, w₁, w₂, hpassed⟩ := h.passed c hc
  exact ⟨x, w₁, w₂, hpassed.keys, hpassed.verifies, hpassed.before.trans hw⟩

/-- A sound delivery that gives its contents gives its declared dependencies, and is sound then. -/
theorem Sound.contents (h : d.Sound w) (hc : d.contents.Gives w (c, d') w') :
    w.Before w' ∧ d'.Sound w' ∧ d'.check = .settled (.ok c) ∧ d'.key = d.key ∧
      c.deps = d.declared := by
  rcases gives_contents hc with ⟨hcheck, rfl, rfl⟩ | ⟨hcheck, rfl, hverify⟩
  · obtain ⟨x, w₁, w₂, hpassed⟩ := h.passed c hcheck
    exact ⟨.refl _, h, hcheck, rfl, hpassed.verifies.deps⟩
  · obtain ⟨x, hverifies⟩ := gives_verify.1 hverify
    have hbefore := hverifies.before
    refine ⟨hbefore, ⟨fun k hk => (h.keys k hk).mono hbefore, fun c' hc' => ?_⟩, rfl, rfl,
      hverifies.deps⟩
    cases hc'
    exact ⟨x, w, w', h.keys, ⟨hverifies.live, hverifies.deps, hverifies.files,
      hverifies.digests⟩, .refl w'⟩

end Delivery

/-- Whether a provider changes no digest that was found, and makes up no verification. -/
def Provider.Faithful (provider : Provider) : Prop :=
  ∀ {keys w ds w'}, w.Closed → (∀ k ∈ keys, k.In w) → (provider keys).Gives w ds w' →
    w.Before w' ∧ ∀ d ∈ ds, d.Sound w'

theorem Provider.faithful_none : Provider.Faithful none := by
  intro keys w ds w' _ _ h
  cases keys with
  | nil =>
    obtain ⟨rfl, rfl⟩ := Act.gives_pure.1 h
    exact ⟨.refl w, fun _ hd => absurd hd List.not_mem_nil⟩
  | cons key keys => exact absurd h Act.not_gives_throw

theorem Registry.mem_commits {r : Registry} {name : ModuleName} {id : CommitId} {c : Commit}
    (h : r.commit? name id = some c) : c ∈ r.commits.values := by
  obtain ⟨hfind, _⟩ := Option.filter_eq_some_iff.1 h
  exact List.mem_map_of_mem (Table.mem_entries_of_find? hfind)

theorem Registry.sound_deliver {w : World} {key : ModuleKey} {d : Delivery} (hclosed : w.Closed)
    (hkey : key.In w) (h : w.registry.deliver key = .ok d) : d.Sound w := by
  unfold deliver at h
  split at h
  · rename_i c hc
    cases h
    exact Delivery.sound_sealed
      (List.forall_mem_cons.2 ⟨hkey, hclosed c (Registry.mem_commits hc)⟩)
  · cases h

/-- The registry delivers what it has of a commit. -/
theorem Registry.deliver_eq {r : Registry} {key : ModuleKey} {c : Commit}
    (hc : r.commit? key.name key.commit = some c) (hpaths : ∀ path ∈ c.files.keys, IsObject path) :
    r.deliver key = .ok (.sealed key (.ok (.objects c.files)) c.deps) := by
  unfold deliver
  simp only [hc, Objects.ofFiles_entries hpaths]
  rfl

/-- The registry delivers for each key, and counts what it delivers. -/
theorem Registry.gives_provider {keys : List ModuleKey} {w w' : World} {ds : List Delivery} :
    (provider keys).Gives w ds w' ↔
      w.live = true ∧ keys.mapM w.registry.deliver = .ok ds ∧
        w' = { w with
          registry := { w.registry with fetches := w.registry.fetches + ds.length } } := by
  constructor
  · intro h
    obtain ⟨_, w₁, hcheck, h⟩ := Act.gives_bind.1 h
    obtain ⟨hlive, rfl⟩ := Act.live_of_gives hcheck
    obtain ⟨ds', w₁, hdeliver, h⟩ := Act.gives_bind.1 h
    obtain ⟨hds, rfl⟩ := Act.gives_ofWorld.1 hdeliver
    obtain ⟨_, w₂, hmodify, h⟩ := Act.gives_bind.1 h
    obtain ⟨rfl, rfl⟩ := Act.gives_pure.1 h
    cases hmodify
    exact ⟨hlive, hds, rfl⟩
  · rintro ⟨hlive, hds, rfl⟩
    exact Act.gives_bind.2 ⟨(), w, Act.gives_checkLive hlive, Act.gives_bind.2
      ⟨ds, w, Act.gives_ofWorld.2 ⟨hds, rfl⟩, Act.gives_bind.2
        ⟨(), _, rfl, Act.gives_pure.2 ⟨rfl, rfl⟩⟩⟩⟩

theorem World.before_fetches (w : World) (fetches : Nat) :
    w.Before { w with registry := { w.registry with fetches := fetches } } :=
  ⟨Nat.le_refl _, fun _ _ _ hcell => hcell, id⟩

theorem Registry.faithful_provider : Provider.Faithful provider := by
  intro keys w ds w' hclosed hkeys h
  obtain ⟨_, hds, rfl⟩ := gives_provider.1 h
  have hbefore := w.before_fetches (w.registry.fetches + ds.length)
  refine ⟨hbefore, fun d hd => ?_⟩
  obtain ⟨key, hkey, hdelivered⟩ := exists_of_forall₂ (mapM_eq_ok.1 hds) hd
  exact (sound_deliver hclosed (hkeys key hkey) hdelivered).mono hbefore

end Schemata

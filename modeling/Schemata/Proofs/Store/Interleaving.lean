import Schemata.Proofs.Except
import Schemata.Store

/-!
# Merging what was found with what was fetched

Merging looks at commits alone: what was found next is taken for a key of its commit, and what was
fetched next for any other. So every key gets what was found or fetched for it just if no key that
was not found has the commit of the one found next.
-/

namespace Schemata.Store

variable {key : ModuleKey} {keys : List ModuleKey} {look : ModuleKey → Option Delivery}
  {d e : Delivery} {found fetched ds : List Delivery}

/-! ### One key -/

/-- Whether what was found next is of another commit. -/
def Differs (found : List Delivery) (key : ModuleKey) : Prop :=
  ∀ d, found.head? = some d → d.key.commit ≠ key.commit

theorem interleave_found (h : d.key.commit = key.commit) :
    interleave (key :: keys) (d :: found) fetched =
      (interleave keys found fetched).map (d :: ·) := by
  rw [interleave.eq_def]
  exact if_pos h

theorem interleave_fetched (h : Differs found key) :
    interleave (key :: keys) found (e :: fetched) =
      (interleave keys found fetched).map (e :: ·) := by
  cases found with
  | nil => rfl
  | cons d found =>
    rw [interleave.eq_def]
    exact if_neg (h d rfl)

theorem interleave_lost (h : Differs found key) :
    interleave (key :: keys) found [] =
      .error (.fault s!"no module data was produced for {key}") := by
  cases found with
  | nil => rfl
  | cons d found =>
    rw [interleave.eq_def]
    exact if_neg (h d rfl)

/-- A key gets what was found next or what was fetched next. -/
theorem interleave_cons_eq_ok (h : interleave (key :: keys) found fetched = .ok ds) :
    (∃ d found' ds', found = d :: found' ∧ d.key.commit = key.commit ∧
        interleave keys found' fetched = .ok ds' ∧ ds = d :: ds') ∨
      Differs found key ∧ ∃ e fetched' ds', fetched = e :: fetched' ∧
        interleave keys found fetched' = .ok ds' ∧ ds = e :: ds' := by
  by_cases hnext : Differs found key
  · cases fetched with
    | nil =>
      rw [interleave_lost hnext] at h
      cases h
    | cons e fetched =>
      rw [interleave_fetched hnext] at h
      obtain ⟨ds', hds, rfl⟩ := map_eq_ok.1 h
      exact .inr ⟨hnext, e, fetched, ds', rfl, hds, rfl⟩
  · cases found with
    | nil => exact absurd (fun _ h => by cases h) hnext
    | cons d found =>
      have hcommit : d.key.commit = key.commit := by
        by_contra hne
        exact hnext fun d' hd' => by
          cases hd'
          exact hne
      rw [interleave_found hcommit] at h
      obtain ⟨ds', hds, rfl⟩ := map_eq_ok.1 h
      exact .inl ⟨d, found, ds', rfl, hcommit, hds, rfl⟩

/-! ### Several keys -/

theorem length_interleave (h : interleave keys found fetched = .ok ds) :
    ds.length = keys.length := by
  induction keys generalizing found fetched ds with
  | nil =>
    rw [interleave] at h
    cases h
    rfl
  | cons key keys ih =>
    rcases interleave_cons_eq_ok h with
      ⟨d, found', ds', rfl, _, hds, rfl⟩ | ⟨_, e, fetched', ds', rfl, hds, rfl⟩
    · exact congrArg (· + 1) (ih hds)
    · exact congrArg (· + 1) (ih hds)

theorem subset_of_interleave (h : interleave keys found fetched = .ok ds) :
    ds ⊆ found ++ fetched := by
  induction keys generalizing found fetched ds with
  | nil =>
    rw [interleave] at h
    cases h
    exact List.nil_subset _
  | cons key keys ih =>
    rcases interleave_cons_eq_ok h with
      ⟨d, found', ds', rfl, _, hds, rfl⟩ | ⟨_, e, fetched', ds', rfl, hds, rfl⟩
    · exact List.cons_subset.2 ⟨List.mem_cons_self, List.subset_cons_of_subset _ (ih hds)⟩
    · refine List.cons_subset.2 ⟨List.mem_append_right _ List.mem_cons_self, ?_⟩
      refine List.Subset.trans (ih hds) (List.append_subset.2 ⟨List.subset_append_left _ _, ?_⟩)
      exact List.subset_append_of_subset_right _ (List.subset_cons_self _ _)

/-- Whether no key that is not found has the commit of what is found next. -/
def Unmixed (look : ModuleKey → Option Delivery) : List ModuleKey → Prop
  | [] => True
  | key :: keys =>
    (look key = none → ∀ d, keys.findSome? look = some d → d.key.commit ≠ key.commit) ∧
      Unmixed look keys

theorem differs_filterMap : Differs (keys.filterMap look) key ↔
    ∀ d, keys.findSome? look = some d → d.key.commit ≠ key.commit := by
  rw [Differs, List.head?_filterMap]

/-- If a commit is found for all of its keys or for none, the keys are unmixed. -/
theorem unmixed_of_apart (hkey : ∀ k ∈ keys, ∀ d, look k = some d → d.key.commit = k.commit)
    (hone : ∀ k ∈ keys, ∀ k' ∈ keys, k.commit = k'.commit → look k = none → look k' = none) :
    Unmixed look keys := by
  induction keys with
  | nil => trivial
  | cons key keys ih =>
    refine ⟨fun hnone d hd hcommit => ?_, ih
      (fun k hk => hkey k (List.mem_cons_of_mem _ hk))
      fun k hk k' hk' => hone k (List.mem_cons_of_mem _ hk) k' (List.mem_cons_of_mem _ hk')⟩
    obtain ⟨k, hk, hlook⟩ := List.exists_of_findSome?_eq_some hd
    have hin := List.mem_cons_of_mem key hk
    have hnone' := hone key List.mem_cons_self k hin
      (hcommit.symm.trans (hkey k hin d hlook)) hnone
    cases hnone'.symm.trans hlook

/-- Found and fetched deliveries fall into the places of unmixed keys. -/
theorem interleave_eq_ok {given : ModuleKey → Delivery → Prop}
    (hkey : ∀ k ∈ keys, ∀ d, look k = some d → d.key.commit = k.commit)
    (hunmixed : Unmixed look keys)
    (hfetched : List.Forall₂ given (keys.filter fun k => (look k).isNone) fetched) :
    ∃ ds, interleave keys (keys.filterMap look) fetched = .ok ds ∧
      List.Forall₂ (fun k d => look k = some d ∨ look k = none ∧ given k d) keys ds := by
  induction keys generalizing fetched with
  | nil => exact ⟨[], rfl, .nil⟩
  | cons key keys ih =>
    obtain ⟨hfirst, hrest⟩ := List.forall_mem_cons.1 hkey
    obtain ⟨hnext, hunmixed⟩ := hunmixed
    rw [List.filter_cons] at hfetched
    rw [List.filterMap_cons]
    cases hlook : look key with
    | some d =>
      rw [hlook, if_neg (by simp)] at hfetched
      obtain ⟨ds, hds, hall⟩ := ih hrest hunmixed hfetched
      refine ⟨d :: ds, ?_, .cons (.inl hlook) hall⟩
      exact (interleave_found (hfirst d hlook)).trans (congrArg (Except.map (d :: ·)) hds)
    | none =>
      rw [hlook, if_pos (by rfl)] at hfetched
      obtain ⟨e, fetched, hgiven, hothers, rfl⟩ := List.forall₂_cons_left_iff.1 hfetched
      obtain ⟨ds, hds, hall⟩ := ih hrest hunmixed hothers
      refine ⟨e :: ds, ?_, .cons (.inr ⟨hlook, hgiven⟩) hall⟩
      exact (interleave_fetched (differs_filterMap.2 (hnext hlook))).trans
        (congrArg (Except.map (e :: ·)) hds)

/-- Keys that get their own deliveries are unmixed. -/
theorem unmixed_of_interleave (hkey : ∀ k ∈ keys, ∀ d, look k = some d → d.key = k)
    (h : interleave keys (keys.filterMap look) fetched = .ok ds)
    (hds : ds.map Delivery.key = keys) : Unmixed look keys := by
  induction keys generalizing fetched ds with
  | nil => trivial
  | cons key keys ih =>
    obtain ⟨_, hrest⟩ := List.forall_mem_cons.1 hkey
    rw [List.filterMap_cons] at h
    cases hlook : look key with
    | some d =>
      simp only [hlook] at h
      have hcommit : d.key.commit = key.commit :=
        congrArg ModuleKey.commit (hkey key List.mem_cons_self d hlook)
      rw [interleave_found hcommit] at h
      obtain ⟨ds', hmerged, rfl⟩ := map_eq_ok.1 h
      exact ⟨fun hnone => by simp [hlook] at hnone, ih hrest hmerged (List.cons.inj hds).2⟩
    | none =>
      simp only [hlook] at h
      rcases interleave_cons_eq_ok h with
        ⟨d, found', ds', hfound, _, _, rfl⟩ | ⟨hdiffers, e, fetched', ds', rfl, hmerged, rfl⟩
      · -- it would have been found for this key
        obtain ⟨k, hk, hd⟩ := List.mem_filterMap.1 (hfound ▸ List.mem_cons_self)
        have hown : key = k := (List.cons.inj hds).1.symm.trans (hrest k hk d hd)
        rw [hown, hd] at hlook
        cases hlook
      · exact ⟨fun _ => differs_filterMap.1 hdiffers, ih hrest hmerged (List.cons.inj hds).2⟩

/-- Each key gets a delivery for it just if the keys are unmixed. -/
theorem keys_interleave_iff (hkey : ∀ k ∈ keys, ∀ d, look k = some d → d.key = k)
    (hfetched : fetched.map Delivery.key = keys.filter fun k => (look k).isNone)
    (h : interleave keys (keys.filterMap look) fetched = .ok ds) :
    ds.map Delivery.key = keys ↔ Unmixed look keys := by
  refine ⟨unmixed_of_interleave hkey h, fun hunmixed => ?_⟩
  have hgiven : List.Forall₂ (fun k (d : Delivery) => d.key = k)
      (keys.filter fun k => (look k).isNone) fetched := by
    rw [← hfetched]
    exact List.forall₂_map_left_iff.2 (List.forall₂_same.2 fun _ _ => rfl)
  obtain ⟨ds', hmerged, hall⟩ := interleave_eq_ok
    (fun k hk d hd => congrArg ModuleKey.commit (hkey k hk d hd)) hunmixed hgiven
  cases h.symm.trans hmerged
  have hown := (List.forall₂_and_left _ _).2 ⟨fun k hk => hk, hall⟩
  have hkeys : ds.map Delivery.key = keys.map id := map_eq_of_forall₂ hown.flip
    fun d k ⟨hk, hd⟩ => hd.elim (hkey k hk d) And.right
  rwa [List.map_id] at hkeys

end Schemata.Store

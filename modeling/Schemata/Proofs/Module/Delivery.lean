import Schemata.Module.Delivery
import Schemata.Proofs.Digest.Members
import Schemata.Proofs.World

/-!
# Verifying deliveries

The verification of a delivery recomputes the digest of its files and declared dependencies and
compares it with that of its key. It runs at the first request; whatever is asked for afterwards,
and in whatever world, is answered from its outcome.
-/

namespace Schemata

open Storage

namespace ModuleKey

variable {w w' : World} {keys : List ModuleKey} {ds : List Digest}

/-- Asking for digests in turn changes the cells alone. -/
theorem gives_digests (h : (keys.mapM resolveDigest).Gives w ds w') :
    w.Before w' ∧ ∃ cells, w' = { w with cells := cells } :=
  (Act.quiet_mapM quiet_resolveDigest keys).gives h

theorem found_of_gives_digests (hin : ∀ k ∈ keys, k.In w)
    (h : (keys.mapM resolveDigest).Gives w ds w') : List.Forall₂ (Found w') keys ds := by
  obtain ⟨_, hall⟩ := Act.gives_mapM_between (fun k _ => k.later_resolveDigest) h
  have hboth := (List.forall₂_and_left _ _).2 ⟨hin, hall⟩
  refine hboth.imp fun k d ⟨hk, w₁, w₂, hbefore, hgives, hbefore'⟩ => ?_
  exact (found_of_gives (hk.mono hbefore) hgives).mono hbefore'

theorem gives_digests_of_found (h : List.Forall₂ (Found w) keys ds) :
    (keys.mapM resolveDigest).Gives w ds w := by
  induction h with
  | nil => exact Act.gives_pure.2 ⟨rfl, rfl⟩
  | @cons k d keys ds hk _ ih =>
    rw [List.mapM_cons]
    refine Act.gives_bind.2 ⟨d, w, run_of_found hk, Act.gives_bind.2 ⟨ds, w, ih, ?_⟩⟩
    exact Act.gives_pure.2 ⟨rfl, rfl⟩

/-- Whether asking for the digests of keys in turn gives these. -/
def Asked (w : World) (keys : List ModuleKey) (ds : List Digest) : Prop :=
  ∃ w', (keys.mapM resolveDigest).Gives w ds w'

theorem Asked.unique {ds' : List Digest} (h : Asked w keys ds) (h' : Asked w keys ds') :
    ds = ds' := by
  obtain ⟨_, hrun⟩ := h
  obtain ⟨_, hrun'⟩ := h'
  exact Except.ok.inj (Prod.mk.inj (hrun.symm.trans hrun')).1

theorem asked_cons {key : ModuleKey} {d : Digest} (h : Asked w (key :: keys) (d :: ds)) :
    ∃ w₁ cells w', key.resolveDigest.Gives w d w₁ ∧ w₁ = { w with cells := cells } ∧
      (keys.mapM resolveDigest).Gives w₁ ds w' := by
  obtain ⟨w', h⟩ := h
  rw [List.mapM_cons] at h
  obtain ⟨d', w₁, hd, h⟩ := Act.gives_bind.1 h
  obtain ⟨rest, w₂, hrest, h⟩ := Act.gives_bind.1 h
  obtain ⟨heq, _⟩ := Act.gives_pure.1 h
  cases heq
  obtain ⟨cells, hcells⟩ := cells_of_gives hd
  exact ⟨w₁, cells, w₂, hd, hcells, hrest⟩

end ModuleKey

namespace Delivery

variable {w w' : World} {d : Delivery} {c : Contents}

/-! ### Verification -/

theorem gives_digestOf {files : Bucket} {deps : List ModuleKey} {x : Digest} :
    (digestOf files deps).Gives w x w' ↔
      ∃ m ds, Manifest.ofBucket w.volumes w.live files = .ok m ∧
        (deps.mapM ModuleKey.resolveDigest).Gives w ds w' ∧ Digest.b5 m ds = .ok x := by
  constructor
  · intro h
    obtain ⟨m, w₁, hread, h⟩ := Act.gives_bind.1 h
    obtain ⟨hm, rfl⟩ := Act.gives_ofWorld.1 hread
    obtain ⟨ds, w₂, hds, h⟩ := Act.gives_bind.1 h
    obtain ⟨hx, rfl⟩ := Act.gives_ofExcept.1 h
    exact ⟨m, ds, mapError_eq_ok.1 hm, hds, mapError_eq_ok.1 hx⟩
  · rintro ⟨m, ds, hm, hds, hx⟩
    refine Act.gives_bind.2 ⟨m, w, ?_, Act.gives_bind.2 ⟨ds, w', hds, ?_⟩⟩
    · exact Act.gives_ofWorld.2 ⟨mapError_eq_ok.2 hm, rfl⟩
    · exact Act.gives_ofExcept.2 ⟨mapError_eq_ok.2 hx, rfl⟩

theorem quiet_digestOf (files : Bucket) (deps : List ModuleKey) : (digestOf files deps).Quiet :=
  (Act.quiet_ofWorld _).bind fun _ => (Act.quiet_mapM ModuleKey.quiet_resolveDigest deps).bind
    fun _ => Act.quiet_ofExcept _

/-- What a verification that succeeds has found. -/
structure Verifies (d : Delivery) (w : World) (c : Contents) (x : Digest) (w' : World) : Prop where
  live : w.live = true
  deps : c.deps = d.declared
  files : ∃ b, d.source = .ok b ∧ Module.filesOf w.volumes w.live b = .ok c.files
  digests : ∃ w₁, d.key.resolveDigest.Gives w x w₁ ∧ (digestOf c.files c.deps).Gives w₁ x w'

theorem gives_verify : d.verify.Gives w c w' ↔ ∃ x, d.Verifies w c x w' := by
  constructor
  · intro h
    obtain ⟨⟨⟩, w₁, hcheck, h⟩ := Act.gives_bind.1 h
    obtain ⟨hlive, rfl⟩ := Act.live_of_gives hcheck
    obtain ⟨b, w₁, hsource, h⟩ := Act.gives_bind.1 h
    obtain ⟨hb, rfl⟩ := Act.gives_ofExcept.1 hsource
    obtain ⟨files, w₁, hview, h⟩ := Act.gives_bind.1 h
    obtain ⟨hfiles, rfl⟩ := Act.gives_ofWorld.1 hview
    obtain ⟨expected, w₁, hexpected, h⟩ := Act.gives_bind.1 h
    obtain ⟨actual, w₂, hactual, h⟩ := Act.gives_bind.1 h
    simp only at h
    split at h
    · obtain ⟨_, _, hthrow, _⟩ := Act.gives_bind.1 h
      exact absurd hthrow Act.not_gives_throw
    · rename_i heq
      obtain ⟨rfl, rfl⟩ := Act.gives_pure.1 h
      rw [← not_not.1 heq] at hactual
      exact ⟨expected, hlive, rfl, ⟨b, hb, hfiles⟩, w₁, hexpected, hactual⟩
  · rintro ⟨x, hlive, hdeps, ⟨b, hb, hfiles⟩, w₁, hx, hactual⟩
    obtain ⟨files, deps⟩ := c
    cases hdeps
    refine Act.gives_bind.2 ⟨(), w, Act.gives_ofWorld.2 ⟨by rw [hlive]; rfl, rfl⟩, ?_⟩
    refine Act.gives_bind.2 ⟨b, w, Act.gives_ofExcept.2 ⟨hb, rfl⟩, ?_⟩
    refine Act.gives_bind.2 ⟨files, w, Act.gives_ofWorld.2 ⟨hfiles, rfl⟩, ?_⟩
    refine Act.gives_bind.2 ⟨x, w₁, hx, Act.gives_bind.2 ⟨x, w', hactual, ?_⟩⟩
    simp only [ne_eq, not_true_eq_false, if_false]
    exact Act.gives_pure.2 ⟨rfl, rfl⟩

/-- Once the files have a manifest and the keys their digests, the module digest decides. -/
theorem verify_outcome {b files : Bucket} {m : Manifest} {expected : Digest} {ds : List Digest}
    (hlive : w.live = true) (hb : d.source = .ok b)
    (hfiles : Module.filesOf w.volumes w.live b = .ok files)
    (hm : Manifest.ofBucket w.volumes w.live files = .ok m)
    (hasked : ModuleKey.Asked w (d.key :: d.declared) (expected :: ds)) :
    (d.verify.run w).1 =
      match Digest.b5 m ds with
      | .ok actual =>
        if expected = actual then .ok ⟨files, d.declared⟩
        else .error (.verification d.key.text expected actual)
      | .error e => .error (.digest e) := by
  obtain ⟨w₁, cells, w₂, hexpected, hw₁, hdeps⟩ := ModuleKey.asked_cons hasked
  have hcheck := Act.gives_checkLive hlive
  have hdigest : (digestOf files d.declared).run w₁ =
      ((Digest.b5 m ds).mapError .digest, w₂) := by
    have hread : (Act.ofWorld fun w => (Manifest.ofBucket w.volumes w.live files).mapError
        Module.Error.digest).Gives w₁ m w₁ := by
      refine Act.gives_ofWorld.2 ⟨mapError_eq_ok.2 ?_, rfl⟩
      rw [hw₁]
      exact hm
    unfold digestOf
    rw [Act.run_bind hread, Act.run_bind hdeps]
    rfl
  unfold verify
  rw [Act.run_bind hcheck, Act.run_bind (Act.gives_ofExcept.2 ⟨hb, rfl⟩),
    Act.run_bind (Act.gives_ofWorld.2 ⟨hfiles, rfl⟩), Act.run_bind hexpected]
  cases hb5 : Digest.b5 m ds with
  | error e =>
    rw [hb5] at hdigest
    rw [Act.run_bind_error hdigest]
  | ok actual =>
    rw [hb5] at hdigest
    rw [Act.run_bind hdigest]
    by_cases heq : expected = actual
    · rw [if_neg (not_not_intro heq)]
      exact (if_pos heq).symm
    · rw [if_pos heq]
      exact (if_neg heq).symm

/-! ### Requests -/

theorem open?_settled {outcome : Except Module.Error Contents} (h : d.check = .settled outcome) :
    d.open? w = ((outcome, d), w) := by
  unfold open? Memo.force
  simp only [h, Memo.answer?]

theorem open?_resolving (h : d.check = .resolving) :
    d.open? w = ((.error (.internal .reentrant), d), w) := by
  unfold open? Memo.force
  simp only [h, Memo.answer?]

theorem open?_unresolved (h : d.check = .unresolved) :
    d.open? w = (((d.verify.run w).1, { d with check := .settled (d.verify.run w).1 }),
      (d.verify.run w).2) := by
  unfold open? Memo.force
  simp only [h, Memo.answer?]
  rfl

/-- A delivery gives its contents after it was verified, or when it passes its verification. -/
theorem gives_contents {d' : Delivery} (h : d.contents.Gives w (c, d') w') :
    (d.check = .settled (.ok c) ∧ d' = d ∧ w' = w) ∨
      (d.check = .unresolved ∧ d' = { d with check := .settled (.ok c) } ∧
        d.verify.Gives w c w') := by
  obtain ⟨⟨outcome, d₁⟩, w₁, hrun, h⟩ := Act.gives_bind.1 h
  have hopen : d.open? w = ((outcome, d₁), w₁) := Act.gives_lift.1 hrun
  cases outcome with
  | error e => exact absurd h Act.not_gives_throw
  | ok c₁ =>
    obtain ⟨heq, rfl⟩ := Act.gives_pure.1 h
    cases heq
    cases hcheck : d.check with
    | unresolved =>
      rw [open?_unresolved hcheck] at hopen
      obtain ⟨hpair, hworld⟩ := Prod.mk.inj hopen
      obtain ⟨houtcome, hd⟩ := Prod.mk.inj hpair
      rw [houtcome] at hd
      exact .inr ⟨rfl, hd.symm, Prod.ext houtcome hworld⟩
    | resolving =>
      rw [open?_resolving hcheck] at hopen
      cases hopen
    | settled outcome =>
      rw [open?_settled hcheck] at hopen
      cases hopen
      exact .inl ⟨rfl, rfl, rfl⟩

theorem gives_contents_of_verify (hcheck : d.check = .unresolved) (h : d.verify.Gives w c w') :
    d.contents.Gives w (c, { d with check := .settled (.ok c) }) w' := by
  have hopen : d.open? w = ((.ok c, { d with check := .settled (.ok c) }), w') := by
    rw [open?_unresolved hcheck, show d.verify.run w = _ from h]
  exact Act.gives_bind.2 ⟨_, w', Act.gives_lift.2 hopen, Act.gives_pure.2 ⟨rfl, rfl⟩⟩

/-- What is asked of a delivery: its files or its declared dependencies. -/
inductive Request
  | files
  | deps

def Request.answer : Request → Contents → Bucket ⊕ List ModuleKey
  | .files, c => .inl c.files
  | .deps, c => .inr c.deps

/-- The answers to requests in turn, each in a world of its own. -/
def askAll : List (Request × World) → Delivery → List (Except Module.Error (Bucket ⊕ List ModuleKey))
  | [], _ => []
  | (r, w) :: rest, d =>
    let ((outcome, d), _) := d.open? w
    outcome.map r.answer :: askAll rest d

theorem askAll_settled {outcome : Except Module.Error Contents} (h : d.check = .settled outcome)
    (requests : List (Request × World)) :
    askAll requests d = requests.map fun q => outcome.map q.1.answer := by
  induction requests with
  | nil => rfl
  | cons q requests ih =>
    obtain ⟨r, w⟩ := q
    rw [askAll, open?_settled h]
    exact congrArg _ ih

/-- The first request decides all answers. -/
theorem askAll_unresolved (h : d.check = .unresolved) (r : Request)
    (rest : List (Request × World)) :
    askAll ((r, w) :: rest) d =
      ((r, w) :: rest).map fun q => (d.verify.run w).1.map q.1.answer := by
  rw [askAll, open?_unresolved h]
  exact congrArg _ (askAll_settled rfl rest)

end Delivery

end Schemata

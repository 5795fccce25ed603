import Schemata.Proofs.Digest.Members
import Schemata.Proofs.ModuleSet.Dependencies

/-!
# What the digest of a module is

The digest of a local module is that of its files and of the digests of all other modules that its
imports lead to, unless two local modules on the way lead to each other. None of this says who is
asked first.
-/

namespace Schemata

open Schemata.Module (Error)

/-- Whether the digest of a fetched module is that of its files and of some dependencies. -/
def Module.Verified (w : World) (m : Module) : Prop :=
  ∀ key digest, m.origin = .fetched key digest → ∃ manifest deps d,
    Manifest.ofBucket w.volumes w.live m.files = .ok manifest ∧
      Digest.b5 manifest deps = .ok d ∧ digest = .ok d

namespace ModuleSet

variable {w : World} {modules : List Module} {i j : Nat}

/-! ### The outcome -/

/-- Whether one of some modules is local. -/
def LocalAt (modules : List Module) (i : Nat) : Prop :=
  ∃ m, modules[i]? = some m ∧ m.origin = .workspace

/-- Whether one of some modules is local, and its files have a manifest. -/
def HasManifest (w : World) (modules : List Module) (i : Nat) : Prop :=
  ∃ m manifest, modules[i]? = some m ∧ m.origin = .workspace ∧
    Manifest.ofBucket w.volumes w.live m.files = .ok manifest

/-- Whether two different local modules lead to each other. -/
def Mutual (w : World) (modules : List Module) (x y : Nat) : Prop :=
  LocalAt modules x ∧ LocalAt modules y ∧ x ≠ y ∧ LeadsTo w modules x y ∧ LeadsTo w modules y x

/-- Whether a module is, or leads to, a local module that is on a circle with another local one. -/
def Tangled (w : World) (modules : List Module) (i : Nat) : Prop :=
  ∃ x y, (x = i ∨ LeadsTo w modules i x) ∧ Mutual w modules x y

/-- Whether a local module and all local modules that it leads to have manifests. -/
def Listed (w : World) (modules : List Module) (i : Nat) : Prop :=
  LocalAt modules i → ∀ j, j = i ∨ LeadsTo w modules i j → LocalAt modules j →
    HasManifest w modules j

/-- What the digest of a module is, where all manifests exist. -/
inductive Outcome (w : World) (modules : List Module) : Nat → Except Error Digest → Prop
  /-- A fetched module has the digest of its key. -/
  | fetched {i : Nat} {m : Module} {key : ModuleKey} {digest : Except Error Digest}
    (hm : modules[i]? = some m) (ho : m.origin = .fetched key digest) : Outcome w modules i digest
  /-- Local modules that lead to each other have no digest. -/
  | tangled {i : Nat} (hl : LocalAt modules i) (ht : Tangled w modules i) :
    Outcome w modules i (.error (.internal .reentrant))
  /-- A local module has the digest of its files and of the digests of all that it leads to. -/
  | content {i : Nat} {m : Module} {manifest : Manifest} {deps : List (Nat × Digest)} {d : Digest}
    (hm : modules[i]? = some m) (ho : m.origin = .workspace) (ht : ¬ Tangled w modules i)
    (hmanifest : Manifest.ofBucket w.volumes w.live m.files = .ok manifest)
    (hdeps : ∀ j, j ∈ deps.map Prod.fst ↔ LeadsTo w modules i j ∧ j ≠ i)
    (hdigests : ∀ p ∈ deps, Outcome w modules p.1 (.ok p.2))
    (hd : Digest.b5 manifest (deps.map Prod.snd) = .ok d) : Outcome w modules i (.ok d)

theorem not_localAt_of_fetched {m : Module} {key : ModuleKey} {digest : Except Error Digest}
    (hm : modules[i]? = some m) (ho : m.origin = .fetched key digest) : ¬ LocalAt modules i := by
  rintro ⟨m', hm', ho'⟩
  rw [hm] at hm'
  cases hm'
  rw [ho] at ho'
  cases ho'

theorem HasManifest.localAt (h : HasManifest w modules i) : LocalAt modules i := by
  obtain ⟨m, _, hm, ho, _⟩ := h
  exact ⟨m, hm, ho⟩

theorem not_hasManifest {m : Module} {e : DigestError} (hm : modules[i]? = some m)
    (he : Manifest.ofBucket w.volumes w.live m.files = .error e) : ¬ HasManifest w modules i := by
  rintro ⟨m', manifest, hm', _, hok⟩
  rw [hm] at hm'
  cases hm'
  rw [he] at hok
  cases hok

theorem LocalAt.lt (h : LocalAt modules i) : i < modules.length := by
  obtain ⟨m, hm, _⟩ := h
  exact (List.getElem?_eq_some_iff.1 hm).1

theorem Listed.of_leadsTo (h : Listed w modules i) (hl : LocalAt modules i)
    (hij : LeadsTo w modules i j) : Listed w modules j := by
  intro _ k hk
  refine h hl k (.inr ?_)
  rcases hk with rfl | hjk
  · exact hij
  · exact hij.trans hjk

/-- Two choices of digests for the same modules are the same set, if each has one digest. -/
theorem digests_subset {deps deps' : List (Nat × Digest)}
    (hsub : ∀ j ∈ deps.map Prod.fst, j ∈ deps'.map Prod.fst)
    (huniq : ∀ p ∈ deps, ∀ q ∈ deps', q.1 = p.1 → p.2 = q.2) :
    ∀ x ∈ deps.map Prod.snd, x ∈ deps'.map Prod.snd := by
  intro x hx
  obtain ⟨p, hp, rfl⟩ := List.mem_map.1 hx
  obtain ⟨q, hq, hqp⟩ := List.mem_map.1 (hsub p.1 (List.mem_map_of_mem hp))
  rw [huniq p hp q hq hqp]
  exact List.mem_map_of_mem hq

theorem b5_unique {manifest : Manifest} {deps deps' : List (Nat × Digest)} {d d' : Digest}
    (hkeys : ∀ j, j ∈ deps.map Prod.fst ↔ j ∈ deps'.map Prod.fst)
    (huniq : ∀ p ∈ deps, ∀ q ∈ deps', q.1 = p.1 → p.2 = q.2)
    (hd : Digest.b5 manifest (deps.map Prod.snd) = .ok d)
    (hd' : Digest.b5 manifest (deps'.map Prod.snd) = .ok d') : d = d' := by
  have hsame : ∀ x, x ∈ deps.map Prod.snd ↔ x ∈ deps'.map Prod.snd := by
    intro x
    constructor
    · exact digests_subset (fun j => (hkeys j).1) huniq x
    · exact digests_subset (fun j => (hkeys j).2) (fun q hq p hp hpq => (huniq p hp q hq hpq.symm).symm) x
  rw [Digest.b5_congr hsame hd] at hd'
  exact Except.ok.inj hd'

theorem Outcome.unique {o o' : Except Error Digest} (h : Outcome w modules i o)
    (h' : Outcome w modules i o') : o = o' := by
  induction h generalizing o' with
  | fetched hm ho =>
    cases h' with
    | fetched hm' ho' =>
      rw [hm] at hm'
      cases hm'
      rw [ho] at ho'
      cases ho'
      rfl
    | tangled hl _ => exact absurd hl (not_localAt_of_fetched hm ho)
    | content hm' ho' => exact absurd ⟨_, hm', ho'⟩ (not_localAt_of_fetched hm ho)
  | tangled hl ht =>
    cases h' with
    | fetched hm' ho' => exact absurd hl (not_localAt_of_fetched hm' ho')
    | tangled => rfl
    | content _ _ ht' => exact absurd ht ht'
  | @content i m manifest deps d hm ho ht hmanifest hdeps hdigests hd ih =>
    cases h' with
    | fetched hm' ho' => exact absurd ⟨_, hm, ho⟩ (not_localAt_of_fetched hm' ho')
    | tangled _ ht' => exact absurd ht' ht
    | @content _ m' manifest' deps' d' hm' ho' _ hmanifest' hdeps' hdigests' hd' =>
      rw [hm] at hm'
      cases hm'
      rw [hmanifest] at hmanifest'
      cases hmanifest'
      have hkeys : ∀ j, j ∈ deps.map Prod.fst ↔ j ∈ deps'.map Prod.fst :=
        fun j => (hdeps j).trans (hdeps' j).symm
      have huniq : ∀ p ∈ deps, ∀ q ∈ deps', q.1 = p.1 → p.2 = q.2 := fun p hp q hq hqp =>
        Except.ok.inj (ih p hp (hqp ▸ hdigests' q hq))
      rw [b5_unique hkeys huniq hd hd']

/-! ### Failures as well

A local module whose files have no manifest fails on its own. Which failure another module then
passes on depends on the order of the IDs: the first module that fails decides, and modules on a
circle fail as soon as two of them are met before it. -/

/-- Whether two local modules with manifests are the same or lead to each other. -/
def OnCircle (w : World) (modules : List Module) (i j : Nat) : Prop :=
  HasManifest w modules i ∧ HasManifest w modules j ∧
    (i = j ∨ LeadsTo w modules i j ∧ LeadsTo w modules j i)

/-- What asking for the digest of a module gives. -/
inductive Answer (w : World) (modules : List Module) : Nat → Except Error Digest → Prop
  | fetched {i : Nat} {m : Module} {key : ModuleKey} {digest : Except Error Digest}
    (hm : modules[i]? = some m) (ho : m.origin = .fetched key digest) : Answer w modules i digest
  /-- The files have no manifest. -/
  | unlisted {i : Nat} {m : Module} {e : DigestError} (hm : modules[i]? = some m)
    (ho : m.origin = .workspace)
    (he : Manifest.ofBucket w.volumes w.live m.files = .error e) :
    Answer w modules i (.error (.digest e))
  | content {i : Nat} {m : Module} {manifest : Manifest} {deps : List (Nat × Digest)} {d : Digest}
    (hm : modules[i]? = some m) (ho : m.origin = .workspace)
    (halone : ∀ j, OnCircle w modules i j → j = i)
    (hmanifest : Manifest.ofBucket w.volumes w.live m.files = .ok manifest)
    (hdeps : ∀ j, j ∈ deps.map Prod.fst ↔ LeadsTo w modules i j ∧ j ≠ i)
    (hdigests : ∀ p ∈ deps, Answer w modules p.1 (.ok p.2))
    (hd : Digest.b5 manifest (deps.map Prod.snd) = .ok d) : Answer w modules i (.ok d)
  /-- A module off the circle fails before a second module of the circle is met. -/
  | passedOn {i f : Nat} {e : Error} (digestOf : Nat → Digest) (hi : HasManifest w modules i)
    (hf : LeadsTo w modules i f) (hoff : ¬ OnCircle w modules i f)
    (hfails : Answer w modules f (.error e))
    (hbefore : ∀ j, LeadsTo w modules i j → ¬ OnCircle w modules i j →
      idAt modules j < idAt modules f → Answer w modules j (.ok (digestOf j)))
    (hone : ∀ x y, OnCircle w modules i x → OnCircle w modules i y →
      idAt modules x < idAt modules f → idAt modules y < idAt modules f → x = y) :
    Answer w modules i (.error e)
  /-- Two modules of the circle are met before any other failure. -/
  | circular {i x y : Nat} (digestOf : Nat → Digest) (hx : OnCircle w modules i x)
    (hy : OnCircle w modules i y) (hxy : idAt modules x < idAt modules y)
    (hbefore : ∀ j, LeadsTo w modules i j → ¬ OnCircle w modules i j →
      idAt modules j < idAt modules y → Answer w modules j (.ok (digestOf j))) :
    Answer w modules i (.error (.internal .reentrant))

theorem OnCircle.refl (h : HasManifest w modules i) : OnCircle w modules i i :=
  ⟨h, h, .inl rfl⟩

theorem OnCircle.symm (h : OnCircle w modules i j) : OnCircle w modules j i := by
  obtain ⟨hi, hj, h⟩ := h
  exact ⟨hj, hi, h.imp Eq.symm And.symm⟩

theorem OnCircle.trans {k : Nat} (h : OnCircle w modules i j) (h' : OnCircle w modules j k) :
    OnCircle w modules i k := by
  obtain ⟨hi, hj, h⟩ := h
  obtain ⟨_, hk, h'⟩ := h'
  refine ⟨hi, hk, ?_⟩
  rcases h with rfl | ⟨hij, hji⟩
  · exact h'
  · rcases h' with rfl | ⟨hjk, hkj⟩
    · exact .inr ⟨hij, hji⟩
    · exact .inr ⟨hij.trans hjk, hkj.trans hji⟩

/-- The modules on a circle lead to the same modules off it. -/
theorem OnCircle.leadsTo {k : Nat} (h : OnCircle w modules i j) (hk : LeadsTo w modules i k) :
    LeadsTo w modules j k := by
  rcases h.2.2 with rfl | ⟨_, hji⟩
  · exact hk
  · exact hji.trans hk

theorem OnCircle.off {k : Nat} (h : OnCircle w modules i j) (hk : ¬ OnCircle w modules i k) :
    ¬ OnCircle w modules j k := fun hjk => hk (h.trans hjk)

theorem ne_of_off (hi : HasManifest w modules i) (hoff : ¬ OnCircle w modules i j) : j ≠ i := by
  rintro rfl
  exact hoff (.refl hi)

/-- A failure that decides comes before the second module of the circle. -/
theorem lt_second (hids : (modules.map Module.id).Nodup) {f x y : Nat} (hf : LeadsTo w modules i f)
    (hoff : ¬ OnCircle w modules i f) (hx : OnCircle w modules i x) (hy : OnCircle w modules i y)
    (hxy : idAt modules x < idAt modules y)
    (hone : ∀ x y, OnCircle w modules i x → OnCircle w modules i y →
      idAt modules x < idAt modules f → idAt modules y < idAt modules f → x = y) :
    idAt modules f < idAt modules y := by
  rcases text_trichotomy (idAt modules f) (idAt modules y) with hlt | heq | hlt
  · exact hlt
  · have hylt : y < modules.length := hy.2.1.localAt.lt
    exact absurd (idAt_inj hids (lt_of_leadsTo hf).2 hylt heq ▸ hy) hoff
  · have hxf := String.lt_trans hxy hlt
    rw [hone x y hx hy hxf hlt] at hxy
    exact absurd hxy (String.lt_irrefl _)

namespace Answer

theorem alone_of_ok {d : Digest} (h : Answer w modules i (.ok d)) (hj : OnCircle w modules i j) :
    j = i := by
  cases h with
  | fetched hm ho => exact absurd hj.1.localAt (not_localAt_of_fetched hm ho)
  | content _ _ halone => exact halone j hj

theorem type_of_ok (hverified : ∀ m ∈ modules, m.Verified w) {d : Digest}
    (h : Answer w modules i (.ok d)) : d.type = .b5 := by
  cases h with
  | fetched hm ho =>
    obtain ⟨_, _, d', _, hd', heq⟩ := hverified _ (List.mem_of_getElem? hm) _ _ ho
    cases heq
    exact Digest.type_of_b5 hd'
  | content _ _ _ _ _ _ hd => exact Digest.type_of_b5 hd

/-- The modules on a circle fail together. -/
theorem of_onCircle {e : Error} (h : Answer w modules i (.error e)) (hj : OnCircle w modules i j) :
    Answer w modules j (.error e) := by
  cases h with
  | fetched hm ho => exact absurd hj.1.localAt (not_localAt_of_fetched hm ho)
  | unlisted hm _ he => exact absurd hj.1 (not_hasManifest hm he)
  | passedOn digestOf hi hf hoff hfails hbefore hone =>
    refine .passedOn digestOf hj.2.1 (hj.leadsTo hf) (hj.off hoff) hfails (fun k hk hkoff => ?_)
      fun x y hx hy => hone x y (hj.trans hx) (hj.trans hy)
    exact hbefore k (hj.symm.leadsTo hk) (hj.symm.off hkoff)
  | circular digestOf hx hy hxy hbefore =>
    refine .circular digestOf (hj.symm.trans hx) (hj.symm.trans hy) hxy fun k hk hkoff => ?_
    exact hbefore k (hj.symm.leadsTo hk) (hj.symm.off hkoff)

theorem eq_of_fetched {m : Module} {key : ModuleKey} {digest : Except Error Digest}
    (hm : modules[i]? = some m) (ho : m.origin = .fetched key digest) {o : Except Error Digest}
    (h : Answer w modules i o) : o = digest := by
  have hfetched := not_localAt_of_fetched hm ho
  cases h with
  | fetched hm' ho' =>
    rw [hm] at hm'
    cases hm'
    rw [ho] at ho'
    cases ho'
    rfl
  | unlisted hm' ho' => exact absurd ⟨_, hm', ho'⟩ hfetched
  | content hm' ho' => exact absurd ⟨_, hm', ho'⟩ hfetched
  | passedOn _ hi => exact absurd hi.localAt hfetched
  | circular _ hx => exact absurd hx.1.localAt hfetched

theorem eq_of_unlisted {m : Module} {e : DigestError} (hm : modules[i]? = some m)
    (ho : m.origin = .workspace) (he : Manifest.ofBucket w.volumes w.live m.files = .error e)
    {o : Except Error Digest} (h : Answer w modules i o) : o = .error (.digest e) := by
  have hnone : ¬ HasManifest w modules i := not_hasManifest hm he
  cases h with
  | fetched hm' ho' => exact absurd ⟨_, hm, ho⟩ (not_localAt_of_fetched hm' ho')
  | unlisted hm' _ he' =>
    rw [hm] at hm'
    cases hm'
    rw [he] at he'
    cases he'
    rfl
  | content hm' ho' _ hmanifest' => exact absurd ⟨_, _, hm', ho', hmanifest'⟩ hnone
  | passedOn _ hi => exact absurd hi hnone
  | circular _ hx => exact absurd hx.1 hnone

theorem unique (hids : (modules.map Module.id).Nodup) {o o' : Except Error Digest}
    (h : Answer w modules i o) (h' : Answer w modules i o') : o = o' := by
  induction h generalizing o' with
  | fetched hm ho => exact (eq_of_fetched hm ho h').symm
  | unlisted hm ho he => exact (eq_of_unlisted hm ho he h').symm
  | @content i m manifest deps d hm ho halone hmanifest hdeps hdigests hd ih =>
    have hi : HasManifest w modules i := ⟨m, manifest, hm, ho, hmanifest⟩
    cases h' with
    | fetched hm' ho' => exact absurd ⟨_, hm, ho⟩ (not_localAt_of_fetched hm' ho')
    | unlisted hm' _ he' => exact absurd hi (not_hasManifest hm' he')
    | @content _ m' manifest' deps' d' hm' _ _ hmanifest' hdeps' hdigests' hd' =>
      rw [hm] at hm'
      cases hm'
      rw [hmanifest] at hmanifest'
      cases hmanifest'
      have hkeys : ∀ j, j ∈ deps.map Prod.fst ↔ j ∈ deps'.map Prod.fst :=
        fun j => (hdeps j).trans (hdeps' j).symm
      have huniq : ∀ p ∈ deps, ∀ q ∈ deps', q.1 = p.1 → p.2 = q.2 := fun p hp q hq hqp =>
        Except.ok.inj (ih p hp (hqp ▸ hdigests' q hq))
      rw [b5_unique hkeys huniq hd hd']
    | @passedOn _ f _ _ _ hf hoff hfails =>
      obtain ⟨p, hp, rfl⟩ := List.mem_map.1 ((hdeps f).2 ⟨hf, ne_of_off hi hoff⟩)
      cases ih p hp hfails
    | circular _ hx hy hxy =>
      rw [halone _ hx, halone _ hy] at hxy
      exact absurd hxy (String.lt_irrefl _)
  | @passedOn i f e digestOf hi hf hoff hfails hbefore hone ihf ihbefore =>
    cases h' with
    | fetched hm' ho' => exact absurd hi.localAt (not_localAt_of_fetched hm' ho')
    | unlisted hm' _ he' => exact absurd hi (not_hasManifest hm' he')
    | content _ _ _ _ hdeps' hdigests' =>
      obtain ⟨p, hp, rfl⟩ := List.mem_map.1 ((hdeps' f).2 ⟨hf, ne_of_off hi hoff⟩)
      cases ihf (hdigests' p hp)
    | @passedOn _ f' e' digestOf' _ hf' hoff' hfails' hbefore' =>
      rcases text_trichotomy (idAt modules f) (idAt modules f') with hlt | heq | hlt
      · cases ihf (hbefore' f hf hoff hlt)
      · cases idAt_inj hids (lt_of_leadsTo hf).2 (lt_of_leadsTo hf').2 heq
        exact ihf hfails'
      · cases ihbefore f' hf' hoff' hlt hfails'
    | @circular _ x y _ hx hy hxy hbefore' =>
      cases ihf (hbefore' f hf hoff (lt_second hids hf hoff hx hy hxy hone))
  | @circular i x y digestOf hx hy hxy hbefore ihbefore =>
    cases h' with
    | fetched hm' ho' => exact absurd hx.1.localAt (not_localAt_of_fetched hm' ho')
    | unlisted hm' _ he' => exact absurd hx.1 (not_hasManifest hm' he')
    | content _ _ halone =>
      rw [halone _ hx, halone _ hy] at hxy
      exact absurd hxy (String.lt_irrefl _)
    | @passedOn _ f e' _ _ hf hoff hfails _ hone =>
      cases ihbefore f hf hoff (lt_second hids hf hoff hx hy hxy hone) hfails
    | circular => rfl

/-- A digest is found only where all manifests exist. -/
theorem listed_of_ok {d : Digest} (h : Answer w modules i (.ok d)) : Listed w modules i := by
  intro hl j hj hlj
  cases h with
  | fetched hm ho => exact absurd hl (not_localAt_of_fetched hm ho)
  | content hm ho halone hmanifest hdeps hdigests =>
    by_cases hij : j = i
    · subst hij
      exact ⟨_, _, hm, ho, hmanifest⟩
    · obtain ⟨p, hp, rfl⟩ := List.mem_map.1 ((hdeps j).2 ⟨hj.resolve_left hij, hij⟩)
      cases hdigests p hp with
      | fetched hm' ho' => exact absurd hlj (not_localAt_of_fetched hm' ho')
      | content hm' ho' _ hmanifest' => exact ⟨_, _, hm', ho', hmanifest'⟩

/-- Where all manifests exist, the answer is the outcome. -/
theorem outcome (hverified : ∀ m ∈ modules, m.Verified w) {o : Except Error Digest}
    (h : Answer w modules i o) (hlisted : Listed w modules i) : Outcome w modules i o := by
  induction h with
  | fetched hm ho => exact .fetched hm ho
  | unlisted hm ho he =>
    have hl := hlisted ⟨_, hm, ho⟩ _ (.inl rfl) ⟨_, hm, ho⟩
    exact absurd hl (not_hasManifest hm he)
  | @content i m manifest deps d hm ho halone hmanifest hdeps hdigests hd ih =>
    have hl : LocalAt modules i := ⟨m, hm, ho⟩
    have hdigests' : ∀ p ∈ deps, Outcome w modules p.1 (.ok p.2) := fun p hp =>
      ih p hp (hlisted.of_leadsTo hl ((hdeps p.1).1 (List.mem_map_of_mem hp)).1)
    refine .content hm ho ?_ hmanifest hdeps hdigests' hd
    rintro ⟨x, y, hx, hmutual⟩
    by_cases hxi : x = i
    · subst hxi
      obtain ⟨_, hly, hne, hxy, hyx⟩ := hmutual
      have hmy := hlisted hl y (.inr hxy) hly
      exact hne (halone y ⟨⟨m, manifest, hm, ho, hmanifest⟩, hmy, .inr ⟨hxy, hyx⟩⟩).symm
    · -- the dependency on the circle is tangled itself, so it has no digest
      obtain ⟨p, hp, rfl⟩ := List.mem_map.1 ((hdeps x).2 ⟨hx.resolve_left hxi, hxi⟩)
      cases hdigests' p hp with
      | fetched hm' ho' => exact absurd hmutual.1 (not_localAt_of_fetched hm' ho')
      | content _ _ ht' => exact ht' ⟨p.1, y, .inl rfl, hmutual⟩
  | @passedOn i f e digestOf hi hf hoff hfails hbefore hone ihf =>
    have hout := ihf (hlisted.of_leadsTo hi.localAt hf)
    cases hout with
    | fetched hm' ho' =>
      obtain ⟨_, _, d, _, _, hok⟩ := hverified _ (List.mem_of_getElem? hm') _ _ ho'
      cases hok
    | tangled _ ht =>
      obtain ⟨x, y, hx, hmutual⟩ := ht
      refine .tangled hi.localAt ⟨x, y, .inr ?_, hmutual⟩
      rcases hx with rfl | hx
      · exact hf
      · exact hf.trans hx
  | @circular i x y digestOf hx hy hxy =>
    have hne : x ≠ y := by
      rintro rfl
      exact String.lt_irrefl _ hxy
    have hmutual := (hx.symm.trans hy).2.2.resolve_left hne
    refine .tangled hx.1.localAt ⟨x, y, ?_, hx.2.1.localAt, hy.2.1.localAt, hne, hmutual⟩
    exact hx.2.2.imp Eq.symm And.left

end Answer

end ModuleSet

end Schemata

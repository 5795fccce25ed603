import Schemata.Proofs.ModuleSet.Outcome

/-!
# Digests do not depend on who asks first

A digest that is asked for while others are being found out is on a stack of modules that wait for
it. Each of them leads to it, and what it asked before succeeded; so a module that is met again is
on a circle with the one that meets it, and the failure that is kept is the one that any other
order of questions gives.
-/

namespace Schemata

open Schemata.Module (Error)

/-- Asking about the members of a list one after another, up to the first failure. -/
theorem SetAct.on_mapM {α β : Type} {f : α → SetAct β} {I : ModuleSet → Prop}
    {P : α → Except Error β → Prop} (xs : List α) {s : ModuleSet} (hs : I s)
    (hf : ∀ pre x post, xs = pre ++ x :: post → (∀ y ∈ pre, ∃ b, P y (.ok b)) → ∀ s, I s →
      ∃ o t, (f x).on s = (o, t) ∧ I t ∧ P x o) :
    ∃ o t, (xs.mapM f).on s = (o, t) ∧ I t ∧
      ((∃ ys, o = .ok ys ∧ List.Forall₂ (fun x y => P x (.ok y)) xs ys) ∨
        ∃ pre x post e, xs = pre ++ x :: post ∧ o = .error e ∧ P x (.error e) ∧
          ∀ y ∈ pre, ∃ b, P y (.ok b)) := by
  induction xs generalizing s with
  | nil => exact ⟨.ok [], s, rfl, hs, .inl ⟨[], rfl, .nil⟩⟩
  | cons x xs ih =>
    obtain ⟨o, t, ho, ht, hp⟩ := hf [] x xs rfl (fun _ hy => absurd hy List.not_mem_nil) s hs
    rw [List.mapM_cons]
    cases o with
    | error e =>
      refine ⟨.error e, t, SetAct.on_bind_error ho _, ht, .inr ⟨[], x, xs, e, rfl, rfl, hp, ?_⟩⟩
      exact fun _ hy => absurd hy List.not_mem_nil
    | ok b =>
      obtain ⟨o', u, ho', hu, hrest⟩ := ih ht fun pre y post hxs hpre =>
        hf (x :: pre) y post (by rw [hxs]; rfl) fun z hz => by
          rcases List.mem_cons.1 hz with rfl | hz
          · exact ⟨b, hp⟩
          · exact hpre z hz
      rw [SetAct.on_bind_ok ho]
      rcases hrest with ⟨ys, rfl, hall⟩ | ⟨pre, y, post, e, hxs, rfl, hpe, hpre⟩
      · refine ⟨.ok (b :: ys), u, ?_, hu, .inl ⟨b :: ys, rfl, .cons hp hall⟩⟩
        rw [SetAct.on_bind_ok ho', SetAct.on_pure]
      · refine ⟨.error e, u, SetAct.on_bind_error ho' _, hu, .inr ⟨x :: pre, y, post, e, ?_, rfl, hpe, ?_⟩⟩
        · rw [hxs]
          rfl
        · intro z hz
          rcases List.mem_cons.1 hz with rfl | hz
          · exact ⟨b, hp⟩
          · exact hpre z hz

namespace ModuleSet

variable {w : World} {modules : List Module} {s t : ModuleSet} {stack : List Nat} {i : Nat}

/-! ### Sets that are right -/

/-- Whether a set is right while the digests on a stack are being found out: what it has found out
is what there is to know. -/
structure Sound (w : World) (modules : List Module) (stack : List Nat) (s : ModuleSet) : Prop where
  coherent : Coherent w modules s
  length_digests : s.digests.length = modules.length
  resolving : ∀ i, digestCell s i = .resolving ↔ i ∈ stack
  settled : ∀ i o, digestCell s i = .settled o → Answer w modules i o

/-- Whether the modules on a stack wait for a module: each has asked for one that leads to it, and
all that it asked before has a digest. -/
def Awaited (w : World) (modules : List Module) (stack : List Nat) (i : Nat) : Prop :=
  ∀ r ∈ stack, HasManifest w modules r ∧ ∃ n, (n = i ∨ n ∈ stack ∧ LeadsTo w modules n i) ∧
    LeadsTo w modules r n ∧ n ≠ r ∧ ∀ j, LeadsTo w modules r j → j ≠ r →
      idAt modules j < idAt modules n → ∃ d, Answer w modules j (.ok d)

theorem sound_ofModules (w : World) (modules : List Module) :
    Sound w modules [] (ofModules modules) := by
  have hcell (i : Nat) : digestCell (ofModules modules) i = .unresolved := by
    simp only [digestCell, ofModules, List.getElem?_map]
    cases modules[i]? with
    | none => rfl
    | some m => rfl
  refine ⟨coherent_ofModules w modules, by simp [ofModules], fun i => ?_, fun i o h => ?_⟩
  · simp [hcell i]
  · rw [hcell i] at h
    cases h

theorem digestCell_set (hi : i < s.digests.length) (m : Memo Error Digest) (j : Nat) :
    digestCell { s with digests := s.digests.set i m } j = if j = i then m else digestCell s j := by
  by_cases hij : j = i
  · subst hij
    simp [digestCell, hi]
  · have hne : i ≠ j := fun h => hij h.symm
    simp [digestCell, hij, List.getElem?_set_ne hne]

theorem Coherent.digests (h : Coherent w modules s) (ds : List (Memo Error Digest)) :
    Coherent w modules { s with digests := ds } :=
  ⟨h.modules_eq, h.inUse, h.index, h.imports⟩

theorem Sound.of_digests (h : Sound w modules stack s) (hcoh : Coherent w modules t)
    (hdig : t.digests = s.digests) : Sound w modules stack t := by
  have hcell (i : Nat) : digestCell t i = digestCell s i := by rw [digestCell, hdig, digestCell]
  refine ⟨hcoh, hdig ▸ h.length_digests, fun i => ?_, fun i o ho => ?_⟩
  · rw [hcell]
    exact h.resolving i
  · rw [hcell] at ho
    exact h.settled i o ho

/-- A digest that nobody knows is begun. -/
theorem Sound.push (h : Sound w modules stack s) (hi : i < modules.length) :
    Sound w modules (i :: stack) { s with digests := s.digests.set i .resolving } := by
  have hlen : i < s.digests.length := by rw [h.length_digests]; exact hi
  refine ⟨h.coherent.digests _, by simp [h.length_digests], fun j => ?_, fun j o ho => ?_⟩
  · rw [digestCell_set hlen, List.mem_cons]
    split
    · rename_i hij
      simp [hij]
    · rename_i hij
      simp [hij, h.resolving]
  · rw [digestCell_set hlen] at ho
    split at ho
    · cases ho
    · exact h.settled j o ho

/-- A digest that was begun is kept. -/
theorem Sound.settle (h : Sound w modules (i :: stack) s) (hi : i < modules.length)
    (hstack : i ∉ stack) {o : Except Error Digest} (ho : Answer w modules i o) :
    Sound w modules stack { s with digests := s.digests.set i (.settled o) } := by
  have hlen : i < s.digests.length := by rw [h.length_digests]; exact hi
  refine ⟨h.coherent.digests _, by simp [h.length_digests], fun j => ?_, fun j o' ho' => ?_⟩
  · rw [digestCell_set hlen]
    split
    · rename_i hij
      simp [hij, hstack]
    · rename_i hij
      rw [h.resolving]
      simp [hij]
  · rw [digestCell_set hlen] at ho'
    split at ho'
    · rename_i hij
      cases ho'
      rw [hij]
      exact ho
    · exact h.settled j o' ho'

/-! ### Modules that wait -/

theorem Awaited.push {d : Nat} (h : Awaited w modules stack i) (hi : HasManifest w modules i)
    (hd : LeadsTo w modules i d) (hne : d ≠ i)
    (hbefore : ∀ j, LeadsTo w modules i j → j ≠ i → idAt modules j < idAt modules d →
      ∃ digest, Answer w modules j (.ok digest)) : Awaited w modules (i :: stack) d := by
  intro r hr
  rcases List.mem_cons.1 hr with rfl | hr
  · exact ⟨hi, d, .inl rfl, hd, hne, hbefore⟩
  · obtain ⟨hrm, n, hn, hrn, hnr, hok⟩ := h r hr
    refine ⟨hrm, n, .inr ?_, hrn, hnr, hok⟩
    rcases hn with rfl | ⟨hn, hni⟩
    · exact ⟨List.mem_cons_self, hd⟩
    · exact ⟨List.mem_cons_of_mem _ hn, hni.trans hd⟩

theorem exists_digests (p : Nat → Prop) (h : ∀ j, p j → ∃ d, Answer w modules j (.ok d)) :
    ∃ digestOf : Nat → Digest, ∀ j, p j → Answer w modules j (.ok (digestOf j)) := by
  have hall : ∀ j, ∃ d, p j → Answer w modules j (.ok d) := by
    intro j
    by_cases hj : p j
    · obtain ⟨d, hd⟩ := h j hj
      exact ⟨d, fun _ => hd⟩
    · exact ⟨⟨.b5, ContentHash.ofText ""⟩, fun h => absurd h hj⟩
  exact Classical.skolem.1 hall

/-- A module that asks for one that waits for it is on a circle with it. -/
theorem answer_of_met {d : Nat} (hids : (modules.map Module.id).Nodup)
    (h : Awaited w modules stack i) (hi : HasManifest w modules i) (hd : d ∈ stack)
    (hlead : LeadsTo w modules i d) (hne : d ≠ i)
    (hbefore : ∀ j, LeadsTo w modules i j → j ≠ i → idAt modules j < idAt modules d →
      ∃ digest, Answer w modules j (.ok digest)) :
    Answer w modules i (.error (.internal .reentrant)) := by
  obtain ⟨hdm, n, hn, hdn, hnd, hok⟩ := h d hd
  have hnm : HasManifest w modules n ∧ (n = i ∨ LeadsTo w modules n i) := by
    rcases hn with rfl | ⟨hn, hni⟩
    · exact ⟨hi, .inl rfl⟩
    · exact ⟨(h n hn).1, .inr hni⟩
  have hdi : LeadsTo w modules d i := by
    rcases hnm.2 with rfl | hni
    · exact hdn
    · exact hdn.trans hni
  have hcd : OnCircle w modules i d := ⟨hi, hdm, .inr ⟨hlead, hdi⟩⟩
  have hcn : OnCircle w modules i n := by
    refine ⟨hi, hnm.1, ?_⟩
    rcases hnm.2 with rfl | hni
    · exact .inl rfl
    · exact .inr ⟨hlead.trans hdn, hni⟩
  -- the one that comes first by its ID has asked for the other, or is about to
  rcases text_trichotomy (idAt modules d) (idAt modules n) with hlt | heq | hlt
  · obtain ⟨digestOf, hdigests⟩ := exists_digests
      (fun j => LeadsTo w modules i j ∧ ¬ OnCircle w modules i j ∧
        idAt modules j < idAt modules n) fun j ⟨hij, hoff, hjn⟩ =>
      hok j (hdi.trans hij) (fun hjd => hoff (hjd ▸ hcd)) hjn
    exact .circular digestOf hcd hcn hlt fun j hij hoff hjn => hdigests j ⟨hij, hoff, hjn⟩
  · exact absurd (idAt_inj hids (lt_of_leadsTo hlead).2 (lt_of_leadsTo hdn).2 heq).symm hnd
  · obtain ⟨digestOf, hdigests⟩ := exists_digests
      (fun j => LeadsTo w modules i j ∧ ¬ OnCircle w modules i j ∧
        idAt modules j < idAt modules d) fun j ⟨hij, hoff, hjd⟩ =>
      hbefore j hij (ne_of_off hi hoff) hjd
    exact .circular digestOf hcn hcd hlt fun j hij hoff hjd => hdigests j ⟨hij, hoff, hjd⟩

/-- The first failure of a dependency is passed on. -/
theorem answer_of_failed {d : Nat} {e : Error} (hi : HasManifest w modules i)
    (hlead : LeadsTo w modules i d) (hfails : Answer w modules d (.error e))
    (hbefore : ∀ j, LeadsTo w modules i j → j ≠ i → idAt modules j < idAt modules d →
      ∃ digest, Answer w modules j (.ok digest)) : Answer w modules i (.error e) := by
  by_cases hcircle : OnCircle w modules i d
  · exact hfails.of_onCircle hcircle.symm
  · have halone : ∀ x, OnCircle w modules i x → idAt modules x < idAt modules d → x = i := by
      intro x hx hlt
      by_contra hne
      have hlx := (hx.2.2.resolve_left fun h => hne h.symm).1
      obtain ⟨digest, hdigest⟩ := hbefore x hlx hne hlt
      exact hne (hdigest.alone_of_ok hx.symm).symm
    obtain ⟨digestOf, hdigests⟩ := exists_digests
      (fun j => LeadsTo w modules i j ∧ ¬ OnCircle w modules i j ∧
        idAt modules j < idAt modules d) fun j ⟨hij, hoff, hjd⟩ =>
      hbefore j hij (ne_of_off hi hoff) hjd
    refine .passedOn digestOf hi hlead hcircle hfails
      (fun j hij hoff hjd => hdigests j ⟨hij, hoff, hjd⟩) fun x y hx hy hxd hyd => ?_
    rw [halone x hx hxd, halone y hy hyd]

/-! ### Asking for digests -/

/-- How a digest is found out, given how the digests of dependencies are asked for. -/
def findDigest (w : World) (ask : Nat → SetAct Digest) (i : Nat) : SetAct Digest := do
  let s ← get
  match s.modules[i]? with
  | none => throw (.fault "there is no such module in the set")
  | some m =>
    match m.origin with
    | .fetched _ digest => answer digest
    | .workspace =>
      let manifest ← answer ((Manifest.ofBucket w.volumes w.live m.files).mapError .digest)
      let deps ← dependencies w i
      let digests ← deps.mapM fun d => ask d.position
      answer ((Digest.b5 manifest digests).mapError .digest)

theorem digestWithin_succ (w : World) (depth i : Nat) :
    digestWithin w (depth + 1) i = once (fun s => digestCell s i)
      (fun m s => { s with digests := s.digests.set i m })
      (findDigest w (digestWithin w depth) i) := rfl

/-- What asking for a digest gives while others wait for it. -/
def Replies (w : World) (modules : List Module) (stack : List Nat) (i : Nat)
    (o : Except Error Digest) : Prop :=
  (i ∈ stack → o = .error (.internal .reentrant)) ∧ (i ∉ stack → Answer w modules i o)

theorem Replies.answer_of_ok {d : Digest} (h : Replies w modules stack i (.ok d)) :
    Answer w modules i (.ok d) := by
  have hi : i ∉ stack := fun hi => by cases h.1 hi
  exact h.2 hi

/-- Everything that comes before one of the dependencies was asked before it. -/
theorem answered_before {positions pre post : List Nat} {x : Nat}
    (hmem : ∀ j, j ∈ positions ↔ LeadsTo w modules i j ∧ j ≠ i)
    (hsorted : positions.Pairwise fun j k => idAt modules j ≤ idAt modules k)
    (hsplit : positions = pre ++ x :: post)
    (hpre : ∀ y ∈ pre, ∃ d, Answer w modules y (.ok d)) :
    ∀ j, LeadsTo w modules i j → j ≠ i → idAt modules j < idAt modules x →
      ∃ d, Answer w modules j (.ok d) := by
  intro j hij hne hlt
  have hj := (hmem j).2 ⟨hij, hne⟩
  rw [hsplit] at hj hsorted
  rcases List.mem_append.1 hj with hj | hj
  · exact hpre j hj
  · exfalso
    have hxs := (List.pairwise_append.1 hsorted).2.1
    rcases List.mem_cons.1 hj with rfl | hj
    · exact String.lt_irrefl _ hlt
    · exact String.not_lt.2 ((List.pairwise_cons.1 hxs).1 j hj) hlt

theorem exists_pairs {positions : List Nat} {ys : List Digest}
    (h : List.Forall₂ (fun x y => Answer w modules x (.ok y)) positions ys) :
    ∃ deps : List (Nat × Digest), deps.map Prod.fst = positions ∧ deps.map Prod.snd = ys ∧
      ∀ p ∈ deps, Answer w modules p.1 (.ok p.2) := by
  induction h with
  | nil => exact ⟨[], rfl, rfl, fun _ hp => absurd hp List.not_mem_nil⟩
  | @cons x y _ _ hxy _ ih =>
    obtain ⟨deps, hfst, hsnd, hall⟩ := ih
    refine ⟨(x, y) :: deps, by rw [List.map_cons, hfst], by rw [List.map_cons, hsnd], ?_⟩
    intro p hp
    rcases List.mem_cons.1 hp with rfl | hp
    · exact hxy
    · exact hall p hp

/-- A module whose dependencies have digests has one. -/
theorem answer_of_digests (hverified : ∀ m ∈ modules, m.Verified w) {m : Module}
    {manifest : Manifest} {positions : List Nat} {ys : List Digest} (hm : modules[i]? = some m)
    (ho : m.origin = .workspace)
    (hmanifest : Manifest.ofBucket w.volumes w.live m.files = .ok manifest)
    (hmem : ∀ j, j ∈ positions ↔ LeadsTo w modules i j ∧ j ≠ i)
    (hall : List.Forall₂ (fun x y => Answer w modules x (.ok y)) positions ys) :
    ∃ d, Digest.b5 manifest ys = .ok d ∧ Answer w modules i (.ok d) := by
  obtain ⟨pairs, rfl, rfl, hpairs⟩ := exists_pairs hall
  obtain ⟨d, hd⟩ : ∃ d, Digest.b5 manifest (pairs.map Prod.snd) = .ok d := by
    refine ⟨_, Digest.b5_eq_ok.2 ⟨fun y hy => ?_, rfl⟩⟩
    obtain ⟨p, hp, rfl⟩ := List.mem_map.1 hy
    exact (hpairs p hp).type_of_ok hverified
  refine ⟨d, hd, .content hm ho (fun j hj => ?_) hmanifest hmem hpairs hd⟩
  by_contra hne
  have hij := (hj.2.2.resolve_left fun h => hne h.symm).1
  obtain ⟨p, hp, rfl⟩ := List.mem_map.1 ((hmem j).2 ⟨hij, hne⟩)
  exact hne ((hpairs p hp).alone_of_ok hj.symm).symm

/-- Asking for the digests of dependencies in turn: either all are found, or the first failure is
one of the module that asks. -/
theorem on_askAll (hids : (modules.map Module.id).Nodup) {ask : Nat → SetAct Digest}
    (h : Sound w modules (i :: stack) s) (hw : Awaited w modules stack i)
    (hi : HasManifest w modules i)
    (hask : ∀ d s, Sound w modules (i :: stack) s → d < modules.length →
      Awaited w modules (i :: stack) d →
      ∃ o t, (ask d).on s = (o, t) ∧ Sound w modules (i :: stack) t ∧
        Replies w modules (i :: stack) d o)
    {deps : List Dependency}
    (hmem : ∀ j, j ∈ deps.map Dependency.position ↔ LeadsTo w modules i j ∧ j ≠ i)
    (hsorted : (deps.map Dependency.position).Pairwise
      fun j k => idAt modules j ≤ idAt modules k) :
    ∃ o t, (deps.mapM fun d => ask d.position).on s = (o, t) ∧ Sound w modules (i :: stack) t ∧
      ((∃ ys, o = .ok ys ∧ List.Forall₂ (fun x y => Answer w modules x (.ok y))
          (deps.map Dependency.position) ys) ∨
        ∃ e, o = .error e ∧ Answer w modules i (.error e)) := by
  have hbefore : ∀ pre x post, deps = pre ++ x :: post →
      (∀ y ∈ pre, ∃ d, Replies w modules (i :: stack) y.position (.ok d)) →
      ∀ j, LeadsTo w modules i j → j ≠ i → idAt modules j < idAt modules x.position →
        ∃ d, Answer w modules j (.ok d) := by
    intro pre x post hsplit hpre
    refine answered_before hmem hsorted (by rw [hsplit, List.map_append, List.map_cons]) ?_
    intro y hy
    obtain ⟨z, hz, rfl⟩ := List.mem_map.1 hy
    obtain ⟨d, hd⟩ := hpre z hz
    exact ⟨d, hd.answer_of_ok⟩
  have hlead : ∀ x ∈ deps, LeadsTo w modules i x.position ∧ x.position ≠ i := fun x hx =>
    (hmem x.position).1 (List.mem_map_of_mem hx)
  obtain ⟨o, t, hot, ht, hres⟩ := SetAct.on_mapM (f := fun d => ask d.position)
    (I := Sound w modules (i :: stack))
    (P := fun d o => Replies w modules (i :: stack) d.position o) deps h
    fun pre x post hsplit hpre s hs => by
      have hx := hlead x (by simp [hsplit])
      exact hask x.position s hs (lt_of_leadsTo hx.1).2
        (hw.push hi hx.1 hx.2 (hbefore pre x post hsplit hpre))
  refine ⟨o, t, hot, ht, ?_⟩
  rcases hres with ⟨ys, rfl, hall⟩ | ⟨pre, x, post, e, hsplit, rfl, hfails, hpre⟩
  · have hanswers := hall.imp fun _ _ hxy => hxy.answer_of_ok
    exact .inl ⟨ys, rfl, List.forall₂_map_left_iff.2 hanswers⟩
  · refine .inr ⟨e, rfl, ?_⟩
    have hx := hlead x (by simp [hsplit])
    by_cases hmet : x.position ∈ i :: stack
    · cases hfails.1 hmet
      exact answer_of_met hids hw hi ((List.mem_cons.1 hmet).resolve_left hx.2) hx.1 hx.2
        (hbefore pre x post hsplit hpre)
    · exact answer_of_failed hi hx.1 (hfails.2 hmet) (hbefore pre x post hsplit hpre)

theorem on_findDigest (hlive : w.live = true) (hread : ∀ m ∈ modules, m.Readable w)
    (hverified : ∀ m ∈ modules, m.Verified w) (hids : (modules.map Module.id).Nodup)
    {ask : Nat → SetAct Digest} (h : Sound w modules (i :: stack) s) (hi : i < modules.length)
    (hw : Awaited w modules stack i)
    (hask : ∀ d s, Sound w modules (i :: stack) s → d < modules.length →
      Awaited w modules (i :: stack) d →
      ∃ o t, (ask d).on s = (o, t) ∧ Sound w modules (i :: stack) t ∧
        Replies w modules (i :: stack) d o) :
    ∃ o t, (findDigest w ask i).on s = (o, t) ∧ Sound w modules (i :: stack) t ∧
      Answer w modules i o := by
  have hm : modules[i]? = some modules[i] := List.getElem?_eq_getElem hi
  have hsm : s.modules[i]? = some modules[i] := by rw [h.coherent.modules_eq, hm]
  rw [findDigest, SetAct.on_bind_ok (SetAct.on_get s), hsm]
  cases ho : modules[i].origin with
  | fetched key digest =>
    simp only [ho]
    exact ⟨digest, s, SetAct.on_answer digest s, h, .fetched hm ho⟩
  | workspace =>
    simp only [ho]
    cases hmanifest : Manifest.ofBucket w.volumes w.live modules[i].files with
    | error e =>
      exact ⟨_, s, SetAct.on_bind_error (SetAct.on_answer _ s) _, h, .unlisted hm ho hmanifest⟩
    | ok manifest =>
      have himf : HasManifest w modules i := ⟨_, manifest, hm, ho, hmanifest⟩
      obtain ⟨deps, u, hdeps, hcoh, hdig, hmem, hsorted, _⟩ :=
        on_dependencies hlive hread h.coherent hi
      have hask₀ : (answer ((Except.ok manifest : Except DigestError Manifest).mapError
          Error.digest)).on s = (.ok manifest, s) := rfl
      rw [SetAct.on_bind_ok hask₀, SetAct.on_bind_ok hdeps]
      obtain ⟨o, t, hot, ht, hres⟩ :=
        on_askAll hids (h.of_digests hcoh hdig) hw himf hask hmem hsorted
      rcases hres with ⟨ys, rfl, hanswers⟩ | ⟨e, rfl, hfails⟩
      · obtain ⟨d, hd, hdi⟩ := answer_of_digests hverified hm ho hmanifest hmem hanswers
        refine ⟨.ok d, t, ?_, ht, hdi⟩
        rw [SetAct.on_bind_ok hot, SetAct.on_answer, hd]
        rfl
      · exact ⟨.error e, t, SetAct.on_bind_error hot _, ht, hfails⟩

theorem on_digestWithin (hlive : w.live = true) (hread : ∀ m ∈ modules, m.Readable w)
    (hverified : ∀ m ∈ modules, m.Verified w) (hids : (modules.map Module.id).Nodup)
    (depth : Nat) (h : Sound w modules stack s) (hi : i < modules.length)
    (hw : Awaited w modules stack i) (hnodup : stack.Nodup)
    (hdepth : depth + stack.length = modules.length + 1) :
    ∃ o t, (digestWithin w depth i).on s = (o, t) ∧ Sound w modules stack t ∧
      Replies w modules stack i o := by
  induction depth generalizing stack i s with
  | zero =>
    -- different modules are on the stack, so they are not more than there are
    have hsub : stack ⊆ List.range modules.length := fun r hr =>
      List.mem_range.2 (hw r hr).1.localAt.lt
    have hle := (List.subperm_of_subset hnodup hsub).length_le
    rw [List.length_range] at hle
    omega
  | succ depth ih =>
    rw [digestWithin_succ]
    cases hcell : digestCell s i with
    | settled o =>
      refine ⟨o, s, SetAct.on_once_settled hcell _, h, fun hmem => ?_, fun _ => h.settled i o hcell⟩
      rw [(h.resolving i).2 hmem] at hcell
      cases hcell
    | resolving =>
      refine ⟨_, s, SetAct.on_once_resolving hcell _, h, fun _ => rfl, fun hmem => ?_⟩
      exact absurd ((h.resolving i).1 hcell) hmem
    | unresolved =>
      have hstack : i ∉ stack := by
        intro hmem
        rw [(h.resolving i).2 hmem] at hcell
        cases hcell
      obtain ⟨o, t, hot, ht, ho⟩ : ∃ o t, (findDigest w (digestWithin w depth) i).on
          { s with digests := s.digests.set i .resolving } = (o, t) ∧
          Sound w modules (i :: stack) t ∧ Answer w modules i o :=
        on_findDigest hlive hread hverified hids (h.push hi) hi hw fun d s hs hd hwd =>
          ih hs hd hwd (List.nodup_cons.2 ⟨hstack, hnodup⟩) (by rw [List.length_cons]; omega)
      exact ⟨o, _, SetAct.on_once_unresolved hcell hot, ht.settle hi hstack ho,
        fun hmem => absurd hmem hstack, fun _ => ho⟩

theorem on_digest (hlive : w.live = true) (hread : ∀ m ∈ modules, m.Readable w)
    (hverified : ∀ m ∈ modules, m.Verified w) (hids : (modules.map Module.id).Nodup)
    (h : Sound w modules [] s) (hi : i < modules.length) :
    ∃ o t, (digest w i).on s = (o, t) ∧ Sound w modules [] t ∧ Answer w modules i o := by
  obtain ⟨o, t, hot, ht, ho⟩ := on_digestWithin hlive hread hverified hids (modules.length + 1) h hi
    (fun r hr => absurd hr List.not_mem_nil) .nil rfl
  refine ⟨o, t, ?_, ht, ho.2 List.not_mem_nil⟩
  rw [digest, SetAct.on_bind_ok (SetAct.on_get s), h.coherent.modules_eq]
  exact hot

/-! ### Any sequence of questions -/

/-- Asks for the digests of some modules one after another. -/
def digestsOf (w : World) : List Nat → ModuleSet → List (Except Error Digest) × ModuleSet
  | [], s => ([], s)
  | i :: calls, s =>
    let (o, t) := (digest w i).on s
    let (os, u) := digestsOf w calls t
    (o :: os, u)

theorem on_digestsOf (hlive : w.live = true) (hread : ∀ m ∈ modules, m.Readable w)
    (hverified : ∀ m ∈ modules, m.Verified w) (hids : (modules.map Module.id).Nodup)
    (calls : List Nat) (hcalls : ∀ i ∈ calls, i < modules.length) (h : Sound w modules [] s) :
    List.Forall₂ (Answer w modules) calls (digestsOf w calls s).1 := by
  induction calls generalizing s with
  | nil => exact .nil
  | cons i calls ih =>
    obtain ⟨o, t, hot, ht, ho⟩ :=
      on_digest hlive hread hverified hids h (hcalls i List.mem_cons_self)
    simp only [digestsOf, hot]
    exact .cons ho (ih (fun j hj => hcalls j (List.mem_cons_of_mem _ hj)) ht)

/-- In every sequence of questions each digest is what it would be if it were asked for first. Where
the local modules on the way have manifests it is the outcome, and elsewhere it fails. -/
theorem digestsOf_orderFree (hmake : make modules = .ok s) (hlive : w.live = true)
    (hread : ∀ m ∈ modules, m.Readable w) (hverified : ∀ m ∈ modules, m.Verified w)
    (calls : List Nat) (hcalls : ∀ i ∈ calls, i < modules.length) :
    List.Forall₂ (fun i o => o = ((digest w i).on s).1 ∧
        (Listed w modules i → ∀ o', Outcome w modules i o' ↔ o' = o) ∧
        (¬ Listed w modules i → ∃ e, o = .error e))
      calls (digestsOf w calls s).1 := by
  obtain ⟨rfl, hids⟩ := make_eq_ok hmake
  have hfresh := sound_ofModules w modules
  have hcallsA := on_digestsOf hlive hread hverified hids calls hcalls hfresh
  refine List.forall₂_iff_zip.2 ⟨hcallsA.length_eq, fun {i o} hio => ?_⟩
  have hi : i < modules.length := hcalls i (List.of_mem_zip hio).1
  have ho : Answer w modules i o := (List.forall₂_iff_zip.1 hcallsA).2 hio
  obtain ⟨o₁, t, hot, _, ho₁⟩ := on_digest hlive hread hverified hids hfresh hi
  refine ⟨?_, fun hlisted o' => ⟨fun ho' => ?_, ?_⟩, fun hnot => ?_⟩
  · rw [hot]
    exact ho.unique hids ho₁
  · exact ho'.unique (ho.outcome hverified hlisted)
  · rintro rfl
    exact ho.outcome hverified hlisted
  · cases o with
    | error e => exact ⟨e, rfl⟩
    | ok d => exact absurd ho.listed_of_ok hnot

/-! ### Two modules on a circle -/

/-- A local module at a place, with some files. -/
def workspaceModule (place : String) (files : List (String × String)) : Module where
  bucketId := place
  name := none
  commit := none
  label := none
  target := true
  origin := .workspace
  files := .objects <|
    (Storage.Objects.ofFiles (files.map fun f => (f.1, f.2.toUTF8))).toOption.getD .empty
  filter := .all
  v1Config := none
  v1Lock := none

/-- Two modules that import from each other. -/
def circle : List Module :=
  [workspaceModule "a" [("a.schema", "import \"b.schema\";")],
    workspaceModule "b" [("b.schema", "import \"a.schema\";")]]

/-- Two modules that import from each other, one of them with a path that no manifest takes. -/
def unlistedCircle : List Module :=
  [workspaceModule "a" [("a.schema", "import \"b.schema\";"), ("x\ny.schema", "")],
    workspaceModule "b" [("b.schema", "import \"a.schema\";")]]

theorem verified_workspaceModule {place : String} {files : List (String × String)} :
    (workspaceModule place files).Verified w := by
  intro key digest ho
  cases ho

theorem digestsOf_circle :
    make circle = .ok (ofModules circle) ∧ (∀ m ∈ circle, m.Readable World.empty) ∧
      (∀ m ∈ circle, m.Verified World.empty) ∧
      List.Forall₂ (fun i o => o = ((digest World.empty i).on (ofModules circle)).1 ∧
          (Listed World.empty circle i → ∀ o', Outcome World.empty circle i o' ↔ o' = o) ∧
          (¬ Listed World.empty circle i → ∃ e, o = .error e))
        [1, 0, 1] (digestsOf World.empty [1, 0, 1] (ofModules circle)).1 := by
  have hmake : make circle = .ok (ofModules circle) := rfl
  have hread : ∀ m ∈ circle, m.Readable World.empty := by decide +kernel
  have hverified : ∀ m ∈ circle, m.Verified World.empty := by
    intro m hm
    simp only [circle, List.mem_cons, List.not_mem_nil, or_false] at hm
    rcases hm with rfl | rfl
    · exact verified_workspaceModule
    · exact verified_workspaceModule
  exact ⟨hmake, hread, hverified,
    digestsOf_orderFree hmake rfl hread hverified [1, 0, 1] (by decide +kernel)⟩

/-- The path that a failure to find a digest is about. -/
def refusedPath? : Except Error Digest → Option String
  | .error (.digest (.invalidFilePath path)) => some path
  | _ => none

/-- A path that no manifest takes is what makes the digests of a circle fail, before anything is
found to lead back. -/
theorem not_outcome_unlistedCircle :
    make unlistedCircle = .ok (ofModules unlistedCircle) ∧
      (∀ m ∈ unlistedCircle, m.Readable World.empty) ∧
      (∀ m ∈ unlistedCircle, m.Verified World.empty) ∧
      ¬ List.Forall₂ (Outcome World.empty unlistedCircle) [0, 1]
        (digestsOf World.empty [0, 1] (ofModules unlistedCircle)).1 := by
  refine ⟨rfl, by decide +kernel, fun m hm => ?_, fun h => ?_⟩
  · simp only [unlistedCircle, List.mem_cons, List.not_mem_nil, or_false] at hm
    rcases hm with rfl | rfl
    · exact verified_workspaceModule
    · exact verified_workspaceModule
  · have hfirst : refusedPath? ((digest World.empty 0).on (ofModules unlistedCircle)).1 =
        some "x\ny.schema" := by decide +kernel
    simp only [digestsOf] at h
    cases h with
    | cons ho _ =>
      generalize ((digest World.empty 0).on (ofModules unlistedCircle)).1 = o at ho hfirst
      cases ho with
      | fetched hm hfetched =>
        cases hm
        cases hfetched
      | tangled => cases hfirst
      | content => cases hfirst

end ModuleSet

end Schemata

import Schemata.Proofs.Registry.Pushing

/-!
# The history of a registry

A registry that nobody tampers with keeps what was pushed to it, each commit as it was first stored.
The key that a push returned stands for its commit ever after, the reference to a module without a
label or commit for the commit of the module that was first stored last.
-/

namespace Schemata.Registry

open Storage

/-! ### Histories -/

/-- The pushes to a registry that succeeded, the latest first. In between pushes may fail, and
anything may happen that leaves the registry and the digests that were found alone. -/
inductive Follows (host : String) : List Pushed → World → Prop
  | start {w : World} (h : w.registry = .empty host) : Follows host [] w
  | pushed {log : List Pushed} {w w' : World} {e : Pushed} (h : Follows host log w)
      (hin : ∀ k ∈ e.push.deps, k.In w) (hasked : ModuleKey.Asked w e.push.deps e.digests)
      (hgives : e.push.act.Gives w e.key w') : Follows host (e :: log) w'
  | failed {log : List Pushed} {w w' : World} {p : Push} {cause : Module.Error}
      (h : Follows host log w) (hrun : p.act.run w = (.error cause, w')) : Follows host log w'
  | meanwhile {log : List Pushed} {w w' : World} (h : Follows host log w) (hbefore : w.Before w')
      (hsame : ∃ fetches, w'.registry = { w.registry with fetches := fetches }) :
      Follows host log w'

/-- The pushes that stored a commit, the latest first. -/
def firsts : List Pushed → List Pushed
  | [] => []
  | e :: log => if log.any fun e' => e'.id = e.id then firsts log else e :: firsts log

variable {host : String} {log : List Pushed} {w w' : World} {r : Registry} {e : Pushed}

theorem firsts_subset (log : List Pushed) : firsts log ⊆ log := by
  induction log with
  | nil => exact fun _ h => h
  | cons e log ih =>
    rw [firsts]
    split
    · exact fun x hx => List.mem_cons_of_mem e (ih hx)
    · exact List.cons_subset_cons e ih

/-- A push whose ID is there stores no commit. -/
theorem firsts_cons_of_mem {e' : Pushed} (he : e' ∈ log) (hid : e'.id = e.id) :
    firsts (e :: log) = firsts log := by
  rw [firsts]
  exact if_pos (List.any_eq_true.2 ⟨e', he, decide_eq_true hid⟩)

theorem exists_first (he : e ∈ log) : ∃ e' ∈ firsts log, e'.id = e.id := by
  induction log generalizing e with
  | nil => cases he
  | cons first log ih =>
    rw [firsts]
    split
    · rename_i hany
      rcases List.mem_cons.1 he with rfl | he
      · obtain ⟨e', he', hid⟩ := List.any_eq_true.1 hany
        obtain ⟨e'', he'', hid'⟩ := ih he'
        exact ⟨e'', he'', hid'.trans (of_decide_eq_true hid)⟩
      · exact ih he
    · rcases List.mem_cons.1 he with rfl | he
      · exact ⟨e, List.mem_cons_self, rfl⟩
      · obtain ⟨e', he', hid⟩ := ih he
        exact ⟨e', List.mem_cons_of_mem _ he', hid⟩

/-- The first push of an ID is found by it. -/
theorem find?_firsts (he : e ∈ firsts log) :
    (firsts log).find? (fun e' => e'.id.text = e.id.text) = some e := by
  induction log with
  | nil => cases he
  | cons first log ih =>
    rw [firsts] at he ⊢
    split at he
    · rename_i hany
      rw [if_pos hany]
      exact ih he
    · rename_i hany
      rw [if_neg hany, List.find?_cons]
      rcases List.mem_cons.1 he with rfl | he
      · simp
      · have hne : first.id ≠ e.id := fun hid => hany (List.any_eq_true.2
          ⟨e, firsts_subset log he, decide_eq_true hid.symm⟩)
        have htext : first.id.text ≠ e.id.text := fun h => hne (CommitId.text_injective h)
        rw [decide_eq_false htext]
        exact ih he

/-! ### What a registry keeps -/

/-- What a registry keeps after some pushes. -/
structure Keeps (log : List Pushed) (r : Registry) : Prop where
  history : r.history = (firsts log).map fun e => (e.push.name, e.id)
  commits : ∀ text, r.commits.find? text =
    ((firsts log).find? fun e => e.id.text = text).map Pushed.commit

theorem Keeps.stored (h : Keeps log r) (e : Pushed) (labels : List String) :
    Keeps (e :: log) (r.store e.id e.commit labels) := by
  by_cases hany : log.any (fun e' => e'.id = e.id) = true
  · obtain ⟨e', he', hid⟩ := List.any_eq_true.1 hany
    obtain ⟨e'', he'', hid'⟩ := exists_first he'
    have hhas : r.commits.has e.id.text = true := by
      rw [Table.has, h.commits, ← of_decide_eq_true hid, ← hid', find?_firsts he'']
      rfl
    unfold Registry.store
    rw [if_pos hhas]
    refine ⟨?_, fun text => ?_⟩
    · rw [firsts, if_pos hany]
      exact h.history
    · rw [firsts, if_pos hany]
      exact h.commits text
  · have hnone : (firsts log).find? (fun e' => e'.id.text = e.id.text) = none := by
      refine List.find?_eq_none.2 fun e' he' hid => hany (List.any_eq_true.2
        ⟨e', firsts_subset log he', ?_⟩)
      exact decide_eq_true (CommitId.text_injective (of_decide_eq_true hid))
    have hhas : r.commits.has e.id.text = false := by
      rw [Table.has, h.commits, hnone]
      rfl
    unfold Registry.store
    rw [if_neg (by simp [hhas])]
    refine ⟨?_, fun text => ?_⟩
    · rw [firsts, if_neg hany, List.map_cons]
      exact congrArg _ h.history
    · rw [firsts, if_neg hany, List.find?_cons]
      refine (Table.find?_insert ..).trans ?_
      by_cases htext : e.id.text = text
      · rw [if_pos htext, decide_eq_true htext]
        rfl
      · rw [if_neg htext, decide_eq_false htext]
        exact h.commits text

theorem host_store (r : Registry) (id : CommitId) (c : Commit) (labels : List String) :
    (r.store id c labels).host = r.host := by
  unfold store
  simp only
  split
  · rfl
  · rfl

/-- Storing a commit whose keys are there leaves a later world. -/
theorem before_store (id : CommitId) (c : Commit) (labels : List String)
    (hin : ∀ k ∈ c.deps, k.In w) :
    w.Before { w with registry := w.registry.store id c labels } := by
  refine ⟨Nat.le_refl _, fun _ _ _ hcell => hcell, fun hclosed c' hc' k hk => ?_⟩
  have hcases : c' = c ∨ c' ∈ w.registry.commits.values := by
    unfold store at hc'
    simp only at hc'
    split at hc'
    · exact .inr hc'
    · obtain ⟨entry, hentry, rfl⟩ := List.mem_map.1 hc'
      rcases Table.mem_insertEntry hentry with rfl | hentry
      · exact .inl rfl
      · exact .inr (List.mem_map_of_mem hentry)
  rcases hcases with rfl | hc'
  · exact hin k hk
  · exact hclosed c' hc' k hk

/-- A push whose dependencies have the digests that were asked for is accepted and stored. -/
theorem stores_of_gives (hasked : ModuleKey.Asked w e.push.deps e.digests)
    (hgives : e.push.act.Gives w e.key w') :
    e.Accepted w.registry.host ∧ ∃ w₁,
      (e.push.deps.mapM ModuleKey.resolveDigest).Gives w e.digests w₁ ∧
        w' = { w₁ with registry := w₁.registry.store e.id e.commit e.push.labels } := by
  obtain ⟨_, e', w₁, hpush, haccepted, hds, hkey, rfl⟩ := Push.gives_act.1 hgives
  obtain rfl : e = e' := by
    cases e
    cases e'
    cases hpush
    cases hkey
    cases hasked.unique ⟨w₁, hds⟩
    rfl
  exact ⟨haccepted, w₁, hds, rfl⟩

/-- Every push of a history was accepted, and the digests of its dependencies stay found. -/
theorem Follows.keeps (h : Follows host log w) :
    w.registry.host = host ∧ Keeps log w.registry ∧
      ∀ e ∈ log, e.Accepted host ∧ List.Forall₂ (ModuleKey.Found w) e.push.deps e.digests := by
  induction h with
  | start h =>
    rw [h]
    exact ⟨rfl, ⟨rfl, fun _ => rfl⟩, fun _ he => absurd he List.not_mem_nil⟩
  | @pushed log w w' e _ hin hasked hgives ih =>
    obtain ⟨hhost, hkeeps, hall⟩ := ih
    obtain ⟨haccepted, w₁, hds, rfl⟩ := stores_of_gives hasked hgives
    obtain ⟨hbefore, cells, rfl⟩ := ModuleKey.gives_digests hds
    have hfound := ModuleKey.found_of_gives_digests hin hds
    have hstored := before_store e.id e.commit e.push.labels
      fun k hk => (hin k hk).mono hbefore
    refine ⟨(host_store ..).trans hhost, hkeeps.stored e e.push.labels, List.forall_mem_cons.2 ⟨⟨hhost ▸ haccepted,
      hfound.imp fun _ _ hk => hk.mono hstored⟩, fun e he => ⟨(hall e he).1, ?_⟩⟩⟩
    exact (hall e he).2.imp fun _ _ hk => hk.mono (hbefore.trans hstored)
  | failed _ hrun ih =>
    obtain ⟨hbefore, hsame⟩ := Push.quiet_of_failure hrun
    rw [hsame]
    exact ⟨ih.1, ih.2.1, fun e he => ⟨(ih.2.2 e he).1,
      (ih.2.2 e he).2.imp fun _ _ hfound => hfound.mono hbefore⟩⟩
  | meanwhile _ hbefore hsame ih =>
    obtain ⟨fetches, hsame⟩ := hsame
    rw [hsame]
    exact ⟨ih.1, ⟨ih.2.1.history, ih.2.1.commits⟩, fun e he => ⟨(ih.2.2 e he).1,
      (ih.2.2 e he).2.imp fun _ _ hfound => hfound.mono hbefore⟩⟩

/-- A push that is accepted goes on with a history. -/
theorem Follows.accept (h : Follows host log w) (hlive : w.live = true)
    (haccepted : e.Accepted host)
    (hfound : List.Forall₂ (ModuleKey.Found w) e.push.deps e.digests) :
    Follows host (e :: log)
      { w with registry := w.registry.store e.id e.commit e.push.labels } := by
  have hds := ModuleKey.gives_digests_of_found hfound
  refine h.pushed (fun k hk => ?_) ⟨w, hds⟩ (Push.gives_act.2
    ⟨hlive, e, w, rfl, h.keeps.1 ▸ haccepted, hds, rfl, rfl⟩)
  obtain ⟨d, _, hd⟩ := exists_of_forall₂ hfound.flip hk
  exact ModuleKey.Found.there hd

/-! ### Commits of one ID -/

/-- Whether the hash tells apart pushes: the texts behind an ID that two of them have, and what is
hashed for their modules. -/
def Apart (log : List Pushed) : Prop :=
  ∀ e ∈ log, ∀ e' ∈ log, e.id = e'.id →
    commitText e.push.name e.digest = commitText e'.push.name e'.digest ∧
      NoCollision e.push.moduleFiles e'.push.moduleFiles e.digests e'.digests

/-- Whether two pushes are of one key, and of the same module files and dependency digests. -/
structure Pushed.Same (e e' : Pushed) : Prop where
  key : e.key = e'.key
  files : e.push.moduleFiles = e'.push.moduleFiles
  digests : ∀ x, x ∈ e.digests ↔ x ∈ e'.digests

theorem Apart.same (hapart : Apart log) (hlog : ∀ e ∈ log, e.Accepted host) {e' : Pushed}
    (he : e ∈ log) (he' : e' ∈ log) (hid : e.id = e'.id) : e.Same e' := by
  obtain ⟨htext, hno⟩ := hapart e he e' he' hid
  obtain ⟨hname, hdigest⟩ := commitText_inj htext
  have hx := (hlog e he).digest
  rw [hdigest] at hx
  obtain ⟨hfiles, hdigests⟩ := Digest.b5_inj hno (hlog e he).listed (hlog e' he').listed hx
    (hlog e' he').digest
  refine ⟨?_, hfiles, hdigests⟩
  rw [Pushed.key, Pushed.key, hname, hid, hdigest]

/-- The commit of an ID is that of the first push that made it. -/
theorem Keeps.find?_commits (h : Keeps log r) (he : e ∈ log) :
    ∃ e' ∈ log, e'.id = e.id ∧ r.commits.find? e.id.text = some e'.commit := by
  obtain ⟨e', he', hid⟩ := exists_first he
  refine ⟨e', firsts_subset log he', hid, ?_⟩
  rw [h.commits, ← hid, find?_firsts he']
  rfl

/-! ### References -/

theorem commit?_of_find? {id : CommitId} {c : Commit} (h : r.commits.find? id.text = some c)
    (m : ModuleName) : r.commit? m id = if c.name = m then some c else none := by
  unfold commit?
  rw [h, Option.filter_some]
  simp only [decide_eq_true_eq]

theorem resolve_of_commit? {ref : ModuleRef} {id : CommitId} {c : Commit}
    (hid : r.idOf? ref = some id) (hc : r.commit? ref.module id = some c) :
    r.resolve ref = .ok (Registry.keyOf id c) := by
  unfold resolve
  simp only [hid, hc, Option.bind_eq_bind, Option.bind_some]
  rfl

theorem resolve_of_missing {ref : ModuleRef} {id : CommitId} (hid : r.idOf? ref = some id)
    (hc : r.commit? ref.module id = none) : r.resolve ref = .error (.notFound ref.text) := by
  unfold resolve
  simp only [hid, hc, Option.bind_eq_bind, Option.bind_some, Option.bind_none]

theorem idOf?_commit (r : Registry) (m : ModuleName) (id : CommitId) :
    r.idOf? ⟨m, some id.text⟩ = some id := by
  unfold idOf?
  simp only [CommitId.parse_text]

/-- A module is resolved to its commit that was first stored last. -/
theorem Keeps.resolve_module (h : Keeps log r) (m : ModuleName) :
    r.resolve ⟨m, none⟩ =
      match (firsts log).find? fun e => e.push.name = m with
      | some e => .ok e.key
      | none => .error (.notFound m.text) := by
  have hid : r.idOf? ⟨m, none⟩ =
      ((firsts log).find? fun e => e.push.name = m).map Pushed.id := by
    unfold idOf?
    simp only [h.history, List.find?_map, Option.map_map]
    rfl
  cases hfind : (firsts log).find? fun e => e.push.name = m with
  | none =>
    rw [hfind] at hid
    unfold resolve
    simp only [hid]
    rfl
  | some e =>
    rw [hfind] at hid
    have hfirst := List.mem_of_find?_eq_some hfind
    have hname : e.push.name = m := by simpa using List.find?_some hfind
    have hcommit : r.commits.find? e.id.text = some e.commit := by
      rw [h.commits, find?_firsts hfirst]
      rfl
    exact resolve_of_commit? hid ((commit?_of_find? hcommit m).trans (if_pos hname))

/-- A push is resolved by its ID under the name of its module, and under no other name. -/
theorem Keeps.resolve_commit (h : Keeps log r) (hlog : ∀ e ∈ log, e.Accepted host)
    (hapart : Apart log) (he : e ∈ log) (m : ModuleName) :
    r.resolve ⟨m, some e.id.text⟩ =
      if m = e.push.name then .ok e.key
      else .error (.notFound (ModuleRef.text ⟨m, some e.id.text⟩)) := by
  obtain ⟨e', he', hid, hfind⟩ := h.find?_commits he
  have hsame := hapart.same hlog he' he hid
  have hname : e'.commit.name = e.push.name := congrArg ModuleKey.name hsame.key
  have hcommit := commit?_of_find? hfind m
  rw [hname] at hcommit
  by_cases hm : m = e.push.name
  · rw [if_pos hm.symm] at hcommit
    rw [if_pos hm, resolve_of_commit? (idOf?_commit r m e.id) hcommit, ← hsame.key, ← hid]
    rfl
  · rw [if_neg (Ne.symm hm)] at hcommit
    rw [if_neg hm]
    exact resolve_of_missing (idOf?_commit r m e.id) hcommit

/-! ### Fetching what was pushed -/

/-- Whether a delivery opens to the module files of a push and to dependencies with the digests of
those that were pushed. -/
def Pushed.OpensTo (e : Pushed) (w : World) (d : Delivery) : Prop :=
  ∃ deps ds, d.Delivers w e.push.moduleFiles deps ∧ List.Forall₂ (ModuleKey.Found w) deps ds ∧
    ∀ x, x ∈ ds ↔ x ∈ e.digests

/-- What is kept of an accepted push. -/
theorem Pushed.Accepted.exists_kept (h : e.Accepted host)
    (hlength : e.push.deps.length = e.digests.length) :
    ∃ p : Store.Kept, p.key = e.key ∧ p.digest = e.digest ∧ p.files = e.push.moduleFiles ∧
      p.deps.map Prod.fst = e.push.deps ∧ p.deps.map Prod.snd = e.digests := by
  have hdeps : (e.push.deps.zip e.digests).map Prod.snd = e.digests :=
    List.map_snd_zip (Nat.le_of_eq hlength.symm)
  obtain ⟨hkinds, hdocs⟩ :=
    Store.kinds_of_hasFiles (@Module.hasFiles_filesAmong [] (.ofList e.push.files))
  refine ⟨⟨e.key, e.digest, e.push.moduleFiles, e.push.deps.zip e.digests, h.listed, hkinds, hdocs,
    ?_⟩, rfl, rfl, rfl, List.map_fst_zip (Nat.le_of_eq hlength), hdeps⟩
  rw [hdeps]
  exact h.digest

/-- The registry delivers for the key of a push what opens to its files and dependencies. -/
theorem Follows.delivers (h : Follows host log w) (hapart : Apart log) (he : e ∈ log) :
    ∃ d, w.registry.deliver e.key = .ok d ∧ d.key = e.key ∧
      ∀ w', w.Before w' → w'.live = true → e.OpensTo w' d := by
  obtain ⟨_, hkeeps, hall⟩ := h.keeps
  obtain ⟨e', he', hid, hfind⟩ := hkeeps.find?_commits he
  have hsame := hapart.same (fun e he => (hall e he).1) he' he hid
  obtain ⟨haccepted, hfound⟩ := hall e' he'
  have hcommit : w.registry.commit? e.key.name e.key.commit = some e'.commit :=
    (commit?_of_find? hfind _).trans (if_pos (congrArg ModuleKey.name hsame.key))
  refine ⟨_, deliver_eq hcommit fun path hpath =>
    Path.validateObject_eq_ok.1 (haccepted.listed path hpath).2, rfl, fun w' hbefore hlive => ?_⟩
  obtain ⟨p, hkey, hdigest, hfiles, hdeps, hdigests⟩ :=
    haccepted.exists_kept hfound.length_eq
  have hdelivers := Store.delivers_sealed (p := p) hlive (.inl (by rw [hkey, hdigest]; rfl))
    (by rw [hdeps, hdigests]; exact hfound.imp fun _ _ hk => hk.mono hbefore)
  rw [hkey, hfiles, hdeps, hsame.key] at hdelivers
  refine ⟨_, e'.digests, ?_, hfound.imp fun _ _ hk => hk.mono hbefore, hsame.digests⟩
  rw [← hsame.files]
  exact hdelivers

theorem Follows.gives_provider (h : Follows host log w) (hapart : Apart log)
    (hlive : w.live = true) {es : List Pushed} (hes : es ⊆ log) :
    ∃ ds w', (provider (es.map Pushed.key)).Gives w ds w' ∧
      List.Forall₂ (fun e d => d.key = e.key ∧
        ∀ w₁, w'.Before w₁ → w₁.live = true → e.OpensTo w₁ d) es ds := by
  have hdeliver : ∀ k ∈ es.map Pushed.key, ∃ d, w.registry.deliver k = .ok d := by
    intro k hk
    obtain ⟨e, he, rfl⟩ := List.mem_map.1 hk
    obtain ⟨d, hd, _⟩ := h.delivers hapart (hes he)
    exact ⟨d, hd⟩
  obtain ⟨ds, hds⟩ := exists_mapM_eq_ok hdeliver
  refine ⟨ds, _, Registry.gives_provider.2 ⟨hlive, hds, rfl⟩, ?_⟩
  have hall := List.forall₂_map_left_iff.1 (mapM_eq_ok.1 hds)
  refine ((List.forall₂_and_left _ _).2 ⟨fun e he => hes he, hall⟩).imp fun e d => ?_
  rintro ⟨he, hd⟩
  obtain ⟨d', hd', hkey, hopens⟩ := h.delivers hapart he
  cases hd.symm.trans hd'
  exact ⟨hkey, fun w₁ hbefore => hopens w₁ ((w.before_fetches _).trans hbefore)⟩

/-! ### Pushing again -/

/-- The same module files and dependency digests are pushed again as the commit that is there. -/
theorem Follows.pushes_again (h : Follows host log w) (hlive : w.live = true) (he : e ∈ log)
    {p : Push} {ds : List Digest} (hpaths : ∀ f ∈ p.files, IsObject f.1)
    (hasked : ModuleKey.Asked w p.deps ds) (hname : p.name = e.push.name)
    (hfiles : p.moduleFiles = e.push.moduleFiles) (hdigests : ∀ x, x ∈ e.digests ↔ x ∈ ds) :
    ∃ w', p.act.Gives w e.key w' ∧
      ∀ m, w'.registry.resolve ⟨m, none⟩ = w.registry.resolve ⟨m, none⟩ := by
  obtain ⟨hhost, hkeeps, hall⟩ := h.keeps
  obtain ⟨w₁, hds⟩ := hasked
  obtain ⟨_, cells, rfl⟩ := ModuleKey.gives_digests hds
  have haccepted : Pushed.Accepted host ⟨p, ds, e.digest, e.id⟩ := by
    obtain ⟨hregistry, _, hlisted, hdigest, hid⟩ := (hall e he).1
    refine ⟨hname ▸ hregistry, hpaths, ?_, ?_, ?_⟩
    · exact hfiles ▸ hlisted
    · exact hfiles ▸ Digest.b5_congr hdigests hdigest
    · exact hname ▸ hid
  have hkey : e.key = Pushed.key ⟨p, ds, e.digest, e.id⟩ := by
    rw [Pushed.key, Pushed.key, hname]
  refine ⟨_, Push.gives_act.2 ⟨hlive, ⟨p, ds, e.digest, e.id⟩, _, rfl, hhost ▸ haccepted, hds,
    hkey, rfl⟩, fun m => ?_⟩
  have hstored := hkeeps.stored ⟨p, ds, e.digest, e.id⟩ p.labels
  have hfirsts : firsts (⟨p, ds, e.digest, e.id⟩ :: log) = firsts log :=
    firsts_cons_of_mem he rfl
  rw [hstored.resolve_module, hkeeps.resolve_module, hfirsts]

/-- What holds of a registry after a history of pushes. Each key that was returned is resolved by
its commit under its own name only, and is delivered as what opens to the module files and to
dependencies of the digests that were pushed. A module stands for its commit that was first stored
last. A push that fails changes nothing, one that succeeds goes on with the history, and one of
the same module files and dependency digests succeeds with the same key and moves no module. -/
theorem history_holds (h : Follows host log w) (hapart : Apart log) :
    (∀ e ∈ log, ∀ m, w.registry.resolve ⟨m, some e.id.text⟩ =
      if m = e.push.name then .ok e.key
      else .error (.notFound (ModuleRef.text ⟨m, some e.id.text⟩))) ∧
    (w.live = true → ∀ es ⊆ log, ∃ ds w', (provider (es.map Pushed.key)).Gives w ds w' ∧
      List.Forall₂ (fun e d => d.key = e.key ∧
        ∀ w₁, w'.Before w₁ → w₁.live = true → e.OpensTo w₁ d) es ds) ∧
    (∀ m, w.registry.resolve ⟨m, none⟩ =
      match (firsts log).find? fun e => e.push.name = m with
      | some e => .ok e.key
      | none => .error (.notFound m.text)) ∧
    (∀ (p : Push) cause w', p.act.run w = (.error cause, w') → w'.registry = w.registry) ∧
    (∀ (p : Push) key w', (∀ k ∈ p.deps, k.In w) → p.act.Gives w key w' →
      ∃ e : Pushed, e.push = p ∧ e.key = key ∧ Follows host (e :: log) w') ∧
    ∀ e ∈ log, ∀ (p : Push) ds, w.live = true → (∀ f ∈ p.files, IsObject f.1) →
      ModuleKey.Asked w p.deps ds → p.name = e.push.name → p.moduleFiles = e.push.moduleFiles →
      (∀ x, x ∈ e.digests ↔ x ∈ ds) →
      ∃ w', p.act.Gives w e.key w' ∧
        ∀ m, w'.registry.resolve ⟨m, none⟩ = w.registry.resolve ⟨m, none⟩ := by
  obtain ⟨_, hkeeps, hall⟩ := h.keeps
  refine ⟨fun e he m => hkeeps.resolve_commit (fun e he => (hall e he).1) hapart he m,
    fun hlive es hes => h.gives_provider hapart hlive hes, hkeeps.resolve_module,
    fun p cause w' hrun => (Push.quiet_of_failure hrun).2, fun p key w' hin hgives => ?_,
    fun e he p ds hlive hpaths hasked hname hfiles hdigests =>
      h.pushes_again hlive he hpaths hasked hname hfiles hdigests⟩
  obtain ⟨_, e, w₁, rfl, _, hds, rfl, _⟩ := Push.gives_act.1 hgives
  exact ⟨e, rfl, rfl, h.pushed hin ⟨w₁, hds⟩ hgives⟩

open Delivery (pets base units petFiles petDeps digestFilledWith)

/-! ### A module that is pushed twice -/

/-- The files of a module with a note beside them, and the files alone with a repeated dependency. -/
def petPush : Push :=
  ⟨pets.name, (petFiles.insert "notes.txt" "draft".toUTF8).entries, [base, units], ["main"]⟩
def barePush : Push := ⟨pets.name, petFiles.entries, [units, base, units], []⟩

def repeatedDeps : List Digest := [digestFilledWith .b5 2, digestFilledWith .b5 1, digestFilledWith .b5 2]

def petLog : List Pushed := [barePush.pushed repeatedDeps, petPush.pushed petDeps]

theorem mem_repeatedDeps (x : Digest) : x ∈ repeatedDeps ↔ x ∈ petDeps := by
  simp only [petDeps, repeatedDeps, List.mem_cons, List.not_mem_nil, or_false]
  grind

theorem moduleFiles_petPush : petPush.moduleFiles = petFiles := by
  have hentries : petPush.moduleFiles.entries = petFiles.entries := by decide +kernel
  rw [← Table.ofList_entries petPush.moduleFiles, hentries, Table.ofList_entries]

theorem moduleFiles_barePush : barePush.moduleFiles = petFiles := by
  have hentries : barePush.moduleFiles.entries = petFiles.entries := by decide +kernel
  rw [← Table.ofList_entries barePush.moduleFiles, hentries, Table.ofList_entries]

theorem digest_barePush :
    (barePush.pushed repeatedDeps).digest = (petPush.pushed petDeps).digest := by
  unfold Push.pushed
  simp only
  rw [moduleFiles_petPush, moduleFiles_barePush, Digest.b5Text_congr _ mem_repeatedDeps]

theorem id_barePush : (barePush.pushed repeatedDeps).id = (petPush.pushed petDeps).id :=
  congrArg (idOf pets.name) digest_barePush

theorem apart_petLog : Apart petLog := by
  have hall : ∀ e ∈ petLog, e.push.name = pets.name ∧ e.push.moduleFiles = petFiles ∧
      e.digest = (petPush.pushed petDeps).digest ∧ ∀ x, x ∈ e.digests ↔ x ∈ petDeps :=
    List.forall_mem_cons.2 ⟨⟨rfl, moduleFiles_barePush, digest_barePush, mem_repeatedDeps⟩,
      List.forall_mem_singleton.2 ⟨rfl, moduleFiles_petPush, rfl, fun _ => Iff.rfl⟩⟩
  intro e he e' he' _
  obtain ⟨hname, hfiles, hx, hds⟩ := hall e he
  obtain ⟨hname', hfiles', hx', hds'⟩ := hall e' he'
  rw [hname, hname', hx, hx', hfiles, hfiles']
  exact ⟨rfl, .of_same petFiles fun x => (hds x).trans (hds' x).symm⟩

theorem follows_petLog : ∃ w, Follows "r.com" petLog w ∧ w.live = true := by
  have hstart : Follows "r.com" [] { World.empty with registry := .empty "r.com" } := .start rfl
  have hfirst := hstart.accept (e := petPush.pushed petDeps) rfl
    (Push.accepted rfl (by decide +kernel) (by rw [moduleFiles_petPush]; decide +kernel)
      (by decide))
    (.cons (.inl rfl) (.cons (.inl rfl) .nil))
  have hsecond := hfirst.accept (e := barePush.pushed repeatedDeps) rfl
    (Push.accepted rfl (by decide +kernel) (by rw [moduleFiles_barePush]; decide +kernel)
      (by decide))
    (.cons (.inl rfl) (.cons (.inl rfl) (.cons (.inl rfl) .nil)))
  exact ⟨_, hsecond, rfl⟩

/-- The second push is another way to the commit of the first, and both are fetched. -/
theorem history_holds_pets : ∃ w, Follows "r.com" petLog w ∧ Apart petLog ∧
    (barePush.pushed repeatedDeps).key = (petPush.pushed petDeps).key ∧
    w.registry.resolve ⟨pets.name, none⟩ = .ok (petPush.pushed petDeps).key ∧
    ∃ d d' w', (provider (petLog.map Pushed.key)).Gives w [d, d'] w' ∧
      (barePush.pushed repeatedDeps).OpensTo w' d ∧ (petPush.pushed petDeps).OpensTo w' d' := by
  obtain ⟨w, hfollows, hlive⟩ := follows_petLog
  obtain ⟨_, hfetch, hmodule, _⟩ := history_holds hfollows apart_petLog
  obtain ⟨ds, w', hgives, hall⟩ := hfetch hlive petLog (List.Subset.refl _)
  have hlive' : w'.live = true := by
    obtain ⟨_, _, rfl⟩ := Registry.gives_provider.1 hgives
    exact hlive
  have hfirsts : firsts petLog = [petPush.pushed petDeps] :=
    firsts_cons_of_mem (List.mem_singleton_self _) id_barePush.symm
  refine ⟨w, hfollows, apart_petLog, ?_, ?_, ?_⟩
  · rw [Pushed.key, Pushed.key, id_barePush, digest_barePush]
    rfl
  · rw [hmodule, hfirsts]
    rfl
  · rcases hall with _ | ⟨hbare, _ | ⟨hpet, _ | _⟩⟩
    exact ⟨_, _, w', hgives, hbare.2 w' (.refl w') hlive', hpet.2 w' (.refl w') hlive'⟩

end Schemata.Registry

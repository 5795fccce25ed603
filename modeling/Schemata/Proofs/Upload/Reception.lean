import Mathlib.Data.List.Perm.Basic
import Schemata.Proofs.Registry.History
import Schemata.Upload.Reception

/-!
# What the registry makes of a request

Round after round the registry pushes the contents whose siblings it has already, with the keys of
these siblings. Where no contents wait for each other, every round pushes one at least, so all are
pushed in the end, and the receipts come in the order of the contents.
-/

namespace Schemata

open Storage
open Schemata.Registry (Pushed Push Follows)

/-! ### Registries that grow -/

namespace Registry

variable {r r' r'' : Registry}

/-- Whether a registry has at least the commits of another. -/
def Grown (r r' : Registry) : Prop :=
  ∀ name id c, r.commit? name id = some c → r'.commit? name id = some c

theorem Grown.refl (r : Registry) : r.Grown r := fun _ _ _ h => h

theorem Grown.trans (h : r.Grown r') (h' : r'.Grown r'') : r.Grown r'' :=
  fun name id c hc => h' name id c (h name id c hc)

theorem grown_store (r : Registry) (id : CommitId) (c : Commit) (labels : List String) :
    r.Grown (r.store id c labels) := by
  intro name other x hx
  unfold commit? at hx ⊢
  unfold store
  simp only
  split
  · exact hx
  · rename_i hhas
    have hne : id.text ≠ other.text := by
      intro htext
      rw [Table.has, htext] at hhas
      cases hfind : r.commits.find? other.text with
      | none =>
        rw [hfind] at hx
        cases hx
      | some found =>
        rw [hfind] at hhas
        exact hhas rfl
    rw [Table.find?_insert, if_neg hne]
    exact hx

/-- A commit that a registry has is found by its ID. -/
theorem resolve_eq_ok {name : ModuleName} {id : CommitId} {key : ModuleKey} :
    r.resolve ⟨name, some id.text⟩ = .ok key ↔
      ∃ c, r.commit? name id = some c ∧ keyOf id c = key := by
  cases hc : r.commit? name id with
  | none =>
    rw [resolve_of_missing (idOf?_commit r name id) hc]
    simp
  | some c =>
    rw [resolve_of_commit? (idOf?_commit r name id) hc]
    simp

/-- The commits of a registry are those of its history. -/
theorem Follows.exists_pushed {host : String} {log : List Pushed} {w : World}
    (h : Follows host log w) {name : ModuleName} {id : CommitId} {c : Commit}
    (hc : w.registry.commit? name id = some c) :
    ∃ e ∈ log, e.id = id ∧ e.push.name = name ∧ e.commit = c := by
  obtain ⟨hfind, hname⟩ := Option.filter_eq_some_iff.1 hc
  rw [h.keeps.2.1.commits] at hfind
  obtain ⟨e, he, rfl⟩ := Option.map_eq_some_iff.1 hfind
  have hid := List.find?_some he
  exact ⟨e, firsts_subset log (List.mem_of_find?_eq_some he),
    CommitId.text_injective (of_decide_eq_true hid), of_decide_eq_true hname, rfl⟩

/-- What a registry has under the ID of an earlier push is of an earlier push. -/
theorem Follows.exists_earlier {host : String} {log : List Pushed} {w : World}
    (h : Follows host log w) (hr : w.registry.Grown r) {e : Pushed} (he : e ∈ log)
    {name : ModuleName} {c : Commit} (hc : r.commit? name e.id = some c) :
    ∃ e' ∈ log, e'.push.name = name ∧ e'.commit = c := by
  obtain ⟨e', he', _, hfind⟩ := h.keeps.2.1.find?_commits he
  have hthen : w.registry.commit? e'.push.name e.id = some e'.commit :=
    (commit?_of_find? hfind _).trans (if_pos rfl)
  obtain ⟨hnow, _⟩ := Option.filter_eq_some_iff.1 (hr _ _ _ hthen)
  obtain ⟨hfound, hname⟩ := Option.filter_eq_some_iff.1 hc
  cases hnow.symm.trans hfound
  exact ⟨e', he', of_decide_eq_true hname, rfl⟩

end Registry

namespace Upload

variable {r r' : Registry} {stored stored' : Stored} {keys keys' : List ModuleKey}

/-! ### The keys of dependencies -/

theorem siblingKey?_eq_some {name : ModuleName} {key : ModuleKey}
    (h : siblingKey? stored name = some key) : key ∈ stored.map Prod.snd ∧ key.name = name := by
  obtain ⟨entry, hfind, rfl⟩ := Option.map_eq_some_iff.1 h
  exact ⟨List.mem_map_of_mem (List.mem_of_find?_eq_some hfind), by simpa using List.find?_some hfind⟩

theorem siblingKey?_eq_none {name : ModuleName} :
    siblingKey? stored name = none ↔ ∀ entry ∈ stored, entry.2.name ≠ name := by
  unfold siblingKey?
  rw [Option.map_eq_none_iff, List.find?_eq_none]
  simp only [decide_eq_true_eq, ne_eq]

/-- Which key stands for a dependency: that of a sibling among some keys, or that of a commit. -/
inductive Meets (r : Registry) (keys : List ModuleKey) : Dependency → ModuleKey → Prop
  | sibling {key : ModuleKey} (h : key ∈ keys) : Meets r keys (.sibling key.name) key
  | commit {name : ModuleName} {id : CommitId} {c : Commit} (h : r.commit? name id = some c) :
    Meets r keys (.commit name id) (Registry.keyOf id c)

theorem Meets.mono {d : Dependency} {key : ModuleKey} (h : Meets r keys d key) (hr : r.Grown r')
    (hkeys : keys ⊆ keys') : Meets r' keys' d key := by
  cases h with
  | sibling h => exact .sibling (hkeys h)
  | commit h => exact .commit (hr _ _ _ h)

theorem depKeys?_eq_some {deps : List Dependency} {ks : List ModuleKey}
    (h : depKeys? r stored deps = .ok (some ks)) :
    List.Forall₂ (Meets r (stored.map Prod.snd)) deps ks := by
  induction deps generalizing ks with
  | nil =>
    cases h
    exact .nil
  | cons d deps ih =>
    cases d with
    | sibling name =>
      rw [depKeys?] at h
      split at h
      · cases h
      · rename_i key hkey
        obtain ⟨rest, hrest, h⟩ := bind_eq_ok.1 h
        obtain ⟨ks', rfl, rfl⟩ := Option.map_eq_some_iff.1 (Except.ok.inj h)
        obtain ⟨hmem, rfl⟩ := siblingKey?_eq_some hkey
        exact .cons (.sibling hmem) (ih hrest)
    | commit name id =>
      obtain ⟨key, hkey, h⟩ := bind_eq_ok.1 h
      obtain ⟨rest, hrest, h⟩ := bind_eq_ok.1 h
      obtain ⟨ks', rfl, rfl⟩ := Option.map_eq_some_iff.1 (Except.ok.inj h)
      obtain ⟨c, hc, rfl⟩ := Registry.resolve_eq_ok.1 hkey
      exact .cons (.commit hc) (ih hrest)

/-- Where the registry has the commits that are referred to, only a sibling can be missing. -/
theorem depKeys?_cases {deps : List Dependency}
    (hcommits : ∀ name id, .commit name id ∈ deps → ∃ c, r.commit? name id = some c) :
    (∃ ks, depKeys? r stored deps = .ok (some ks)) ∨
      depKeys? r stored deps = .ok none ∧
        ∃ name, .sibling name ∈ deps ∧ siblingKey? stored name = none := by
  induction deps with
  | nil => exact .inl ⟨[], rfl⟩
  | cons d deps ih =>
    have hrest := ih fun name id h => hcommits name id (List.mem_cons_of_mem _ h)
    cases d with
    | sibling name =>
      rw [depKeys?]
      cases hkey : siblingKey? stored name with
      | none => exact .inr ⟨rfl, name, List.mem_cons_self, hkey⟩
      | some key =>
        rcases hrest with ⟨ks, hks⟩ | ⟨hnone, other, hother, hmissing⟩
        · exact .inl ⟨key :: ks, bind_eq_ok.2 ⟨_, hks, rfl⟩⟩
        · exact .inr ⟨bind_eq_ok.2 ⟨_, hnone, rfl⟩, other, List.mem_cons_of_mem _ hother, hmissing⟩
    | commit name id =>
      obtain ⟨c, hc⟩ := hcommits name id List.mem_cons_self
      have hkey := Registry.resolve_eq_ok.2 ⟨c, hc, rfl⟩
      rcases hrest with ⟨ks, hks⟩ | ⟨hnone, other, hother, hmissing⟩
      · exact .inl ⟨_ :: ks, bind_eq_ok.2 ⟨_, hkey, bind_eq_ok.2 ⟨_, hks, rfl⟩⟩⟩
      · exact .inr ⟨bind_eq_ok.2 ⟨_, hkey, bind_eq_ok.2 ⟨_, hnone, rfl⟩⟩, other,
          List.mem_cons_of_mem _ hother, hmissing⟩

/-! ### What was stored so far -/

/-- Whether a push is that of a content, with keys that stand for its dependencies. -/
structure Sends (labels : List String) (r : Registry) (keys : List ModuleKey) (c : Content)
    (p : Push) : Prop where
  name : p.name = c.name
  files : p.files = c.files
  labels : p.labels = labels
  deps : List.Forall₂ (Meets r keys) c.deps p.deps

theorem Sends.mono {labels : List String} {c : Content} {p : Push} (h : Sends labels r keys c p)
    (hr : r.Grown r') (hkeys : keys ⊆ keys') : Sends labels r' keys' c p :=
  ⟨h.name, h.files, h.labels, h.deps.imp fun _ _ hd => hd.mono hr hkeys⟩

/-- Whether some content of a name can be stored, after its siblings were stored before it. -/
inductive Storable (contents : List Content) : ModuleName → Prop
  | intro {c : Content} (hc : c ∈ contents)
    (hsiblings : ∀ name, .sibling name ∈ c.deps → Storable contents name) :
    Storable contents c.name

/-- Whether a content waits for nothing but siblings that can be stored. -/
def Ready (contents : List Content) (c : Content) : Prop :=
  ∀ name, .sibling name ∈ c.deps → Storable contents name

/-- What is right of a registry while contents are stored: since it had a history, it has stored
just one push for each key, that of a content. -/
structure Storing (host : String) (log : List Pushed) (w : World) (labels : List String)
    (all : Waiting) (stored : Stored) (w' : World) : Prop where
  same : ∃ registry cells, w' = { w with registry := registry, cells := cells }
  before : w.Before w'
  grown : w.registry.Grown w'.registry
  follows : ∃ pushes, Follows host (pushes ++ log) w' ∧
    List.Forall₂ (fun (entry : Nat × ModuleKey) e => e.key = entry.2 ∧
      ∃ c, (c, entry.1) ∈ all ∧ Ready (all.map Prod.fst) c ∧
        Sends labels w'.registry (stored.map Prod.snd) c e.push) stored pushes

section Storing

variable {host : String} {log : List Pushed} {w w₁ w₂ : World} {labels : List String}
  {all waiting : Waiting}

theorem storing_start (h : Follows host log w) : Storing host log w labels all [] w :=
  ⟨⟨w.registry, w.cells, rfl⟩, .refl _, .refl _, [], h, .nil⟩

theorem Storing.live (h : Storing host log w labels all stored w₁) : w₁.live = w.live := by
  obtain ⟨_, _, rfl⟩ := h.same
  rfl

/-- All keys that were stored know their digests. -/
theorem Storing.known (h : Storing host log w labels all stored w₁) {d : Dependency}
    {key : ModuleKey} (hd : Meets w₁.registry (stored.map Prod.snd) d key) :
    ∃ x, key.digest = .known x := by
  cases hd with
  | sibling hkey =>
    obtain ⟨entry, hentry, rfl⟩ := List.mem_map.1 hkey
    obtain ⟨pushes, _, hall⟩ := h.follows
    obtain ⟨e, _, hkey, _⟩ := exists_of_forall₂ hall.flip hentry
    rw [← hkey]
    exact ⟨_, rfl⟩
  | commit => exact ⟨_, rfl⟩

/-- A content whose siblings were stored waits for nothing else. -/
theorem Storing.ready (h : Storing host log w labels all stored w₁) {c : Content}
    {ks : List ModuleKey}
    (hmeets : List.Forall₂ (Meets w₁.registry (stored.map Prod.snd)) c.deps ks) :
    Ready (all.map Prod.fst) c := by
  intro name hname
  obtain ⟨key, _, hkey⟩ := exists_of_forall₂ hmeets.flip hname
  cases hkey with
  | sibling hkey =>
    obtain ⟨entry, hentry, rfl⟩ := List.mem_map.1 hkey
    obtain ⟨pushes, _, hall⟩ := h.follows
    obtain ⟨e, _, hkey, c', hc', hready, hsends⟩ := exists_of_forall₂ hall.flip hentry
    rw [← hkey, show e.key.name = c'.name from hsends.name]
    exact .intro (List.mem_map_of_mem hc') hready

/-- A push of a content is stored. -/
theorem Storing.push (h : Storing host log w labels all stored w₁) {c : Content} {place : Nat}
    (hc : (c, place) ∈ all) {ks : List ModuleKey}
    (hks : depKeys? w₁.registry stored c.deps = .ok (some ks)) {key : ModuleKey}
    (hgives : (Registry.push c.name c.files ks labels).Gives w₁ key w₂) :
    key.name = c.name ∧ Storing host log w labels all ((place, key) :: stored) w₂ := by
  have hmeets := depKeys?_eq_some hks
  have hknown : ∀ k ∈ ks, ∃ x, k.digest = .known x := by
    intro k hk
    obtain ⟨d, _, hd⟩ := exists_of_forall₂ hmeets hk
    exact h.known hd
  have hin : ∀ k ∈ ks, k.In w₁ := by
    intro k hk
    obtain ⟨x, hx⟩ := hknown k hk
    exact ModuleKey.in_of_known hx
  obtain ⟨_, e, w', hpush, _, hds, rfl, rfl⟩ :=
    Push.gives_act.1 (show (Push.act ⟨c.name, c.files, ks, labels⟩).Gives w₁ key w₂ from hgives)
  obtain ⟨hasked, cells, rfl⟩ := ModuleKey.gives_digests hds
  have hdeps : e.commit.deps = ks := congrArg Push.deps hpush
  have hstored := hasked.trans (Registry.before_store e.id e.commit labels
    fun k hk => (hin k (hdeps ▸ hk)).mono hasked)
  obtain ⟨pushes, hfollows, hall⟩ := h.follows
  have hbefore := h.before
  have hready := h.ready hmeets
  obtain ⟨registry, cells₁, rfl⟩ := h.same
  have hgrown := Registry.grown_store registry e.id e.commit labels
  have hsub : stored.map Prod.snd ⊆ ((place, e.key) :: stored).map Prod.snd :=
    fun _ hk => List.mem_cons_of_mem _ hk
  refine ⟨congrArg Push.name hpush, ⟨_, cells, rfl⟩, hbefore.trans hstored,
    h.grown.trans hgrown, e :: pushes, ?_, ?_⟩
  · refine hfollows.pushed ?_ ⟨_, hpush.symm ▸ hds⟩ ?_
    · rw [hpush]
      exact hin
    · rw [hpush]
      exact hgives
  · refine .cons ⟨rfl, c, hc, hready, ?_⟩ (hall.imp fun entry e' ⟨hkey, c', hc', hr, hsends⟩ =>
      ⟨hkey, c', hc', hr, hsends.mono hgrown hsub⟩)
    rw [hpush]
    exact ⟨rfl, rfl, rfl, hmeets.imp fun _ _ hd => hd.mono hgrown hsub⟩

/-- All keys that stand for dependencies have digests of the current type. -/
theorem Storing.digests (h : Storing host log w labels all stored w₁) {deps : List Dependency}
    {ks : List ModuleKey} (hks : List.Forall₂ (Meets w₁.registry (stored.map Prod.snd)) deps ks) :
    ∃ ds, List.Forall₂ (ModuleKey.Found w₁) ks ds ∧ ∀ d ∈ ds, d.type = .b5 := by
  obtain ⟨pushes, hfollows, hall⟩ := h.follows
  obtain ⟨_, _, haccepted⟩ := hfollows.keeps
  have hone : ∀ d k, Meets w₁.registry (stored.map Prod.snd) d k →
      ∃ x, k.Found w₁ x ∧ x.type = .b5 := by
    intro d k hd
    cases hd with
    | sibling hkey =>
      obtain ⟨entry, hentry, rfl⟩ := List.mem_map.1 hkey
      obtain ⟨e, he, hkey, _⟩ := exists_of_forall₂ hall.flip hentry
      rw [← hkey]
      exact ⟨_, .inl rfl, Digest.type_of_b5 (haccepted e (List.mem_append_left _ he)).1.digest⟩
    | commit hc =>
      obtain ⟨e, he, _, _, rfl⟩ := hfollows.exists_pushed hc
      exact ⟨_, .inl rfl, Digest.type_of_b5 (haccepted e he).1.digest⟩
  induction hks with
  | nil => exact ⟨[], .nil, fun _ hd => absurd hd List.not_mem_nil⟩
  | cons hd _ ih =>
    obtain ⟨x, hx, htype⟩ := hone _ _ hd
    obtain ⟨ds, hds, htypes⟩ := ih
    exact ⟨x :: ds, .cons hx hds, List.forall_mem_cons.2 ⟨htype, htypes⟩⟩

/-! ### Rounds -/

/-- Whether a registry can take a content once it has the siblings. -/
structure Fits (r : Registry) (host : String) (c : Content) : Prop where
  host : c.name.registry = host
  paths : ∀ f ∈ c.files, IsObject f.1
  listed : Manifest.Lists (Module.filesAmong (.ofList c.files))
  commits : ∀ name id, .commit name id ∈ c.deps → ∃ x, r.commit? name id = some x

theorem Storing.exists_push (h : Storing host log w labels all stored w₁) (hlive : w.live = true)
    {c : Content} (hfits : Fits w.registry host c) {ks : List ModuleKey}
    (hks : depKeys? w₁.registry stored c.deps = .ok (some ks)) :
    ∃ key w₂, (Registry.push c.name c.files ks labels).Gives w₁ key w₂ := by
  obtain ⟨ds, hds, htypes⟩ := h.digests (depKeys?_eq_some hks)
  obtain ⟨_, hfollows, _⟩ := h.follows
  have haccepted : ((⟨c.name, c.files, ks, labels⟩ : Push).pushed ds).Accepted w₁.registry.host := by
    rw [hfollows.keeps.1]
    exact Push.accepted hfits.host hfits.paths hfits.listed htypes
  exact ⟨_, _, (Push.gives_act (p := ⟨c.name, c.files, ks, labels⟩)).2 ⟨h.live.trans hlive, _, w₁,
    rfl, haccepted, ModuleKey.gives_digests_of_found hds, rfl, rfl⟩⟩

/-- In one round some contents are stored, and the others have to wait. -/
theorem spec_storeRound {deferred : Waiting} (h : Storing host log w labels all stored w₁)
    (hall : waiting ⊆ all)
    (hgives : (storeRound labels waiting stored).Gives w₁ (stored', deferred) w₂) :
    Storing host log w labels all stored' w₂ ∧ deferred.Sublist waiting ∧
      (stored'.map Prod.fst ++ deferred.map Prod.snd).Perm
        (stored.map Prod.fst ++ waiting.map Prod.snd) := by
  induction waiting generalizing stored deferred w₁ with
  | nil =>
    obtain ⟨heq, rfl⟩ := Act.gives_pure.1 hgives
    cases heq
    exact ⟨h, .slnil, .refl _⟩
  | cons q waiting ih =>
    obtain ⟨c, place⟩ := q
    obtain ⟨hc, hall⟩ := List.cons_subset.1 hall
    rw [storeRound] at hgives
    obtain ⟨answer, _, hask, hgives⟩ := Act.gives_bind.1 hgives
    obtain ⟨hks, rfl⟩ := Act.gives_ofWorld.1 hask
    cases answer with
    | none =>
      obtain ⟨⟨stored₁, deferred₁⟩, _, hrest, hgives⟩ := Act.gives_bind.1 hgives
      obtain ⟨heq, rfl⟩ := Act.gives_pure.1 hgives
      cases heq
      obtain ⟨hstoring, hsub, hperm⟩ := ih h hall hrest
      refine ⟨hstoring, hsub.cons_cons _, ?_⟩
      rw [List.map_cons, List.map_cons]
      exact List.perm_middle.trans ((hperm.cons _).trans List.perm_middle.symm)
    | some ks =>
      obtain ⟨key, w', hpush, hrest⟩ := Act.gives_bind.1 hgives
      obtain ⟨hstoring, hsub, hperm⟩ := ih (h.push hc hks hpush).2 hall hrest
      refine ⟨hstoring, hsub.cons _, hperm.trans ?_⟩
      rw [List.map_cons, List.map_cons]
      exact List.perm_middle.symm

/-- A round goes through, and what has to wait then waits for a sibling that was not there
before. -/
theorem exists_storeRound (h : Storing host log w labels all stored w₁) (hlive : w.live = true)
    (hall : waiting ⊆ all) (hfits : ∀ q ∈ waiting, Fits w.registry host q.1) :
    ∃ stored' deferred w₂, (storeRound labels waiting stored).Gives w₁ (stored', deferred) w₂ ∧
      ∀ q ∈ deferred, ∃ name, .sibling name ∈ q.1.deps ∧ siblingKey? stored name = none := by
  induction waiting generalizing stored w₁ with
  | nil => exact ⟨stored, [], w₁, Act.gives_pure.2 ⟨rfl, rfl⟩, fun _ hq => absurd hq List.not_mem_nil⟩
  | cons q waiting ih =>
    obtain ⟨c, place⟩ := q
    obtain ⟨hc, hall⟩ := List.cons_subset.1 hall
    obtain ⟨hfit, hfits⟩ := List.forall_mem_cons.1 hfits
    have hcommits : ∀ name id, .commit name id ∈ c.deps →
        ∃ x, w₁.registry.commit? name id = some x := by
      intro name id hd
      obtain ⟨x, hx⟩ := hfit.commits name id hd
      exact ⟨x, h.grown _ _ _ hx⟩
    rw [storeRound]
    rcases @depKeys?_cases w₁.registry stored c.deps hcommits with ⟨ks, hks⟩ | ⟨hnone, hmissing⟩
    · obtain ⟨key, w', hpush⟩ := h.exists_push hlive hfit hks
      obtain ⟨stored', deferred, w₂, hrest, hwait⟩ := ih (h.push hc hks hpush).2 hall hfits
      refine ⟨stored', deferred, w₂, Act.gives_bind.2 ⟨some ks, w₁, Act.gives_ofWorld.2 ⟨hks, rfl⟩,
        Act.gives_bind.2 ⟨key, w', hpush, hrest⟩⟩, fun q hq => ?_⟩
      obtain ⟨name, hname, hmissing⟩ := hwait q hq
      exact ⟨name, hname, siblingKey?_eq_none.2 fun entry hentry =>
        siblingKey?_eq_none.1 hmissing entry (List.mem_cons_of_mem _ hentry)⟩
    · obtain ⟨stored', deferred, w₂, hrest, hwait⟩ := ih h hall hfits
      refine ⟨stored', (c, place) :: deferred, w₂, Act.gives_bind.2 ⟨none, w₁,
        Act.gives_ofWorld.2 ⟨hnone, rfl⟩, Act.gives_bind.2 ⟨_, w₂, hrest,
          Act.gives_pure.2 ⟨rfl, rfl⟩⟩⟩, List.forall_mem_cons.2 ⟨hmissing, hwait⟩⟩

theorem spec_storeAll (h : Storing host log w labels all stored w₁) (hall : waiting ⊆ all)
    (hgives : (storeAll labels waiting stored).Gives w₁ stored' w₂) :
    Storing host log w labels all stored' w₂ ∧
      (stored'.map Prod.fst).Perm (stored.map Prod.fst ++ waiting.map Prod.snd) := by
  induction hlength : waiting.length using Nat.strongRecOn generalizing waiting stored w₁ with
  | ind n ih =>
    rw [storeAll] at hgives
    split at hgives
    · rename_i hempty
      obtain ⟨rfl, rfl⟩ := Act.gives_pure.1 hgives
      rw [List.isEmpty_iff.1 hempty]
      exact ⟨h, by simp⟩
    · obtain ⟨_, _, hcheck, hgives⟩ := Act.gives_bind.1 hgives
      obtain ⟨_, rfl⟩ := Act.live_of_gives hcheck
      obtain ⟨⟨stored₁, deferred⟩, w', hround, hgives⟩ := Act.gives_bind.1 hgives
      obtain ⟨hstoring, hsub, hperm⟩ := spec_storeRound h hall hround
      simp only at hgives
      split at hgives
      · rename_i hlt
        obtain ⟨hstoring', hperm'⟩ := ih deferred.length (hlength ▸ hlt) hstoring
          (List.Subset.trans hsub.subset hall) hgives rfl
        exact ⟨hstoring', hperm'.trans hperm⟩
      · exact absurd hgives Act.not_gives_throw

/-- Of contents that can be stored not all wait for siblings that are not there. -/
theorem Storing.exists_next (h : Storing host log w labels all stored w₁)
    (hplaces : (all.map Prod.snd).Nodup)
    (hready : ∀ c ∈ all.map Prod.fst, Ready (all.map Prod.fst) c)
    (hthere : ∀ q ∈ all, q ∈ waiting ∨ q.2 ∈ stored.map Prod.fst) (hall : waiting ⊆ all)
    (hne : waiting ≠ []) : ∃ q ∈ waiting, ∀ name, .sibling name ∈ q.1.deps →
      siblingKey? stored name ≠ none := by
  by_contra hnone
  push Not at hnone
  have hfound : ∀ name, Storable (all.map Prod.fst) name → siblingKey? stored name ≠ none := by
    intro name hname
    induction hname with
    | @intro c hc _ ih =>
      obtain ⟨q, hq, rfl⟩ := List.mem_map.1 hc
      rcases hthere q hq with hwaits | hstored
      · obtain ⟨name, hname, hmissing⟩ := hnone q hwaits
        exact absurd hmissing (ih name hname)
      · obtain ⟨entry, hentry, hplace⟩ := List.mem_map.1 hstored
        obtain ⟨pushes, _, hpushes⟩ := h.follows
        obtain ⟨e, _, hkey, c, hc, _, hsends⟩ := exists_of_forall₂ hpushes.flip hentry
        have hsame := List.inj_on_of_nodup_map hplaces hc hq hplace
        intro hmissing
        refine siblingKey?_eq_none.1 hmissing entry hentry ?_
        rw [← hkey, ← hsame]
        exact hsends.name
  obtain ⟨q, hq⟩ := List.exists_mem_of_ne_nil waiting hne
  obtain ⟨name, hname, hmissing⟩ := hnone q hq
  exact hfound name (hready q.1 (List.mem_map_of_mem (hall hq)) name hname) hmissing

theorem exists_storeAll (h : Storing host log w labels all stored w₁) (hlive : w.live = true)
    (hplaces : (all.map Prod.snd).Nodup)
    (hready : ∀ c ∈ all.map Prod.fst, Ready (all.map Prod.fst) c)
    (hthere : ∀ q ∈ all, q ∈ waiting ∨ q.2 ∈ stored.map Prod.fst) (hall : waiting ⊆ all)
    (hfits : ∀ q ∈ all, Fits w.registry host q.1) :
    ∃ stored' w₂, (storeAll labels waiting stored).Gives w₁ stored' w₂ := by
  induction hlength : waiting.length using Nat.strongRecOn generalizing waiting stored w₁ with
  | ind n ih =>
    rw [storeAll]
    split
    · exact ⟨stored, w₁, Act.gives_pure.2 ⟨rfl, rfl⟩⟩
    · rename_i hempty
      have hne : waiting ≠ [] := fun hnil => hempty (List.isEmpty_iff.2 hnil)
      obtain ⟨stored₁, deferred, w', hround, hwait⟩ :=
        exists_storeRound h hlive hall fun q hq => hfits q (hall hq)
      obtain ⟨hstoring, hsub, hperm⟩ := spec_storeRound h hall hround
      have hlt : deferred.length < waiting.length := by
        refine Nat.lt_of_le_of_ne hsub.length_le fun heq => ?_
        obtain ⟨q, hq, hnext⟩ := h.exists_next hplaces hready hthere hall hne
        rw [← hsub.eq_of_length heq] at hq
        obtain ⟨name, hname, hmissing⟩ := hwait q hq
        exact hnext name hname hmissing
      have hthere' : ∀ q ∈ all, q ∈ deferred ∨ q.2 ∈ stored₁.map Prod.fst := by
        intro q hq
        have hplace : q.2 ∈ stored₁.map Prod.fst ++ deferred.map Prod.snd := by
          refine hperm.mem_iff.2 (List.mem_append.2 ?_)
          exact (hthere q hq).symm.imp_right List.mem_map_of_mem
        refine (List.mem_append.1 hplace).symm.imp_left fun hdeferred => ?_
        obtain ⟨q', hq', hsame⟩ := List.mem_map.1 hdeferred
        rwa [← List.inj_on_of_nodup_map hplaces (hall (hsub.subset hq')) hq hsame]
      obtain ⟨stored', w₂, hrest⟩ := ih deferred.length (hlength ▸ hlt) hstoring hthere'
        (List.Subset.trans hsub.subset hall) rfl
      refine ⟨stored', w₂, Act.gives_bind.2 ⟨(), w₁, Act.gives_checkLive (h.live.trans hlive),
        Act.gives_bind.2 ⟨_, w', hround, ?_⟩⟩⟩
      simp only
      rw [dif_pos hlt]
      exact hrest

end Storing

/-! ### Receipts -/

/-- The receipt for a push. -/
def receiptFor (e : Pushed) : Receipt := ⟨e.push.name, e.id, e.digest⟩

section Receipts

variable {host : String} {log : List Pushed} {w w' : World} {request : Request}

/-- The receipts for keys that were stored. -/
theorem gives_receipts {entries : List (Nat × ModuleKey)} {es : List Pushed}
    (h : List.Forall₂ (fun entry e => Pushed.key e = entry.2) entries es) :
    (entries.mapM fun entry => receiptOf entry.2).Gives w (es.map receiptFor) w := by
  induction h with
  | nil => exact Act.gives_pure.2 ⟨rfl, rfl⟩
  | @cons entry e entries es hkey _ ih =>
    rw [List.mapM_cons, List.map_cons, ← hkey]
    refine Act.gives_bind.2 ⟨receiptFor e, w, Act.gives_bind.2 ⟨e.digest, w, ?_, ?_⟩,
      Act.gives_bind.2 ⟨_, w, ih, Act.gives_pure.2 ⟨rfl, rfl⟩⟩⟩
    · exact ModuleKey.run_known rfl
    · exact Act.gives_pure.2 ⟨rfl, rfl⟩

theorem map_snd_zipIdx (contents : List Content) :
    contents.zipIdx.map Prod.snd = List.range' 0 contents.length := by
  simp [List.zipIdx_eq_zip_range', List.map_snd_zip]

/-- What is stored comes in the order of the places. -/
theorem places_inOrder {stored : Stored}
    (hperm : (stored.map Prod.fst).Perm (request.contents.zipIdx.map Prod.snd)) :
    (sortedWith (fun a b => a.1 ≤ b.1) stored).map Prod.fst =
      request.contents.zipIdx.map Prod.snd := by
  have hsorted := @pairwise_sortedWith (Nat × ModuleKey) (fun a b => a.1 ≤ b.1)
    (fun a b c hab hbc => decide_eq_true
      (Nat.le_trans (of_decide_eq_true hab) (of_decide_eq_true hbc)))
    (fun a b => (Nat.le_total a.1 b.1).imp decide_eq_true decide_eq_true) stored
  have hplaces : (request.contents.zipIdx.map Prod.snd).Pairwise (· ≤ ·) := by
    rw [map_snd_zipIdx]
    exact (List.pairwise_lt_range' ..).imp Nat.le_of_lt
  refine (((sortedWith_perm _ stored).map Prod.fst).trans hperm).eq_of_pairwise
    (fun a b _ _ hab hba => Nat.le_antisymm hab hba) ?_ hplaces
  exact List.pairwise_map.2 (hsorted.imp fun hab => of_decide_eq_true hab)

theorem nodup_places (contents : List Content) : (contents.zipIdx.map Prod.snd).Nodup := by
  rw [map_snd_zipIdx]
  exact List.nodup_range'

/-- Contents that were stored were pushed, in some order, and each has the receipt for its push. -/
theorem Storing.pushes {labels : List String} {stored : Stored}
    (h : Storing host log w labels request.contents.zipIdx stored w')
    (hperm : (stored.map Prod.fst).Perm (request.contents.zipIdx.map Prod.snd)) :
    ∃ pushes es, Follows host (pushes ++ log) w' ∧ es.Perm pushes ∧
      List.Forall₂ (fun c e => Ready request.contents c ∧
        Sends labels w'.registry (es.map Pushed.key) c e.push) request.contents es ∧
      List.Forall₂ (fun entry e => Pushed.key e = entry.2)
        (sortedWith (fun a b => a.1 ≤ b.1) stored) es := by
  obtain ⟨pushes, hfollows, hall⟩ := h.follows
  obtain ⟨es, hes, hsame⟩ := List.perm_comp_forall₂ (sortedWith_perm _ stored) hall
  have hkeys : stored.map Prod.snd ⊆ es.map Pushed.key := by
    intro k hk
    obtain ⟨entry, hentry, rfl⟩ := List.mem_map.1 hk
    obtain ⟨e, he, hkey, _⟩ := exists_of_forall₂ hall.flip hentry
    exact hkey ▸ List.mem_map_of_mem (hsame.mem_iff.2 he)
  refine ⟨pushes, es, hfollows, hsame, ?_, hes.imp fun _ _ he => he.1⟩
  have hplaces : List.Forall₂ (fun (q : Content × Nat) (entry : Nat × ModuleKey) =>
      q ∈ request.contents.zipIdx ∧ q.2 = entry.1) request.contents.zipIdx
      (sortedWith (fun a b => a.1 ≤ b.1) stored) := by
    refine (List.forall₂_and_left _ _).2 ⟨fun _ hq => hq, ?_⟩
    refine List.forall₂_map_left_iff.1 (List.forall₂_map_right_iff.1 ?_)
    rw [places_inOrder hperm]
    exact List.forall₂_same.2 fun _ _ => rfl
  have hfst : request.contents.zipIdx.map Prod.fst = request.contents :=
    List.zipIdx_map_fst 0 request.contents
  rw [hfst] at hes
  nth_rewrite 2 [← hfst]
  refine List.forall₂_map_left_iff.2 ((forall₂_trans hes hplaces.flip).imp fun q e => ?_)
  rintro ⟨entry, _, ⟨hq, hplace⟩, _, c, hc, hready, hsends⟩
  rw [← hplace] at hc
  rw [← List.inj_on_of_nodup_map (nodup_places _) hc hq rfl]
  exact ⟨hready, hsends.mono (.refl _) hkeys⟩

theorem gives_toRegistry {receipts : List Receipt} :
    (toRegistry request).run w = (.ok receipts, w') ↔
      ∃ stored w₁, (storeAll request.labels request.contents.zipIdx []).Gives w stored w₁ ∧
        ((sortedWith (fun a b => a.1 ≤ b.1) stored).mapM fun entry =>
          receiptOf entry.2).Gives w₁ receipts w' := by
  rw [← Act.gives_bind]
  have hrun : (toRegistry request).run w = (((do
      let stored ← storeAll request.labels request.contents.zipIdx []
      let inOrder := sortedWith (fun a b => a.1 ≤ b.1) stored
      inOrder.mapM fun e => receiptOf e.2 : Act (List Receipt)).run w).1.mapError .module,
    ((do
      let stored ← storeAll request.labels request.contents.zipIdx []
      let inOrder := sortedWith (fun a b => a.1 ≤ b.1) stored
      inOrder.mapM fun e => receiptOf e.2 : Act (List Receipt)).run w).2) := rfl
  rw [hrun]
  constructor
  · intro h
    obtain ⟨hfst, hsnd⟩ := Prod.mk.inj h
    exact Prod.ext (mapError_eq_ok.1 hfst) hsnd
  · intro h
    rw [h]
    rfl

/-- What a registry has done when it answered a request: it has gone on with its history by a push
of each content, and reports these pushes in the order of the contents. -/
structure Received (host : String) (log : List Pushed) (w : World) (request : Request)
    (es : List Pushed) (w' : World) : Prop where
  same : ∃ registry cells, w' = { w with registry := registry, cells := cells }
  before : w.Before w'
  grown : w.registry.Grown w'.registry
  follows : ∃ pushes, Follows host (pushes ++ log) w' ∧ es.Perm pushes
  sends : List.Forall₂ (fun c e => Ready request.contents c ∧
    Sends request.labels w'.registry (es.map Pushed.key) c e.push) request.contents es

theorem spec_toRegistry (h : Follows host log w) {receipts : List Receipt}
    (hgives : (toRegistry request).run w = (.ok receipts, w')) :
    ∃ es, Received host log w request es w' ∧ receipts = es.map receiptFor := by
  obtain ⟨stored, w₁, hstored, hreceipts⟩ := gives_toRegistry.1 hgives
  obtain ⟨hstoring, hperm⟩ :=
    spec_storeAll (storing_start h) (List.Subset.refl request.contents.zipIdx) hstored
  obtain ⟨pushes, es, hfollows, hes, hsends, hentries⟩ := hstoring.pushes hperm
  have hgives := @gives_receipts w₁ _ _ hentries
  obtain ⟨hsame, rfl⟩ := Prod.mk.inj (hreceipts.symm.trans hgives)
  exact ⟨es, ⟨hstoring.same, hstoring.before, hstoring.grown, ⟨pushes, hfollows, hes⟩, hsends⟩,
    Except.ok.inj hsame⟩

/-- The registry answers a request whose contents fit and do not wait for each other. -/
theorem exists_toRegistry (h : Follows host log w) (hlive : w.live = true)
    (hready : ∀ c ∈ request.contents, Ready request.contents c)
    (hfits : ∀ c ∈ request.contents, Fits w.registry host c) :
    ∃ receipts w', (toRegistry request).run w = (.ok receipts, w') := by
  have hfst : request.contents.zipIdx.map Prod.fst = request.contents :=
    List.zipIdx_map_fst 0 request.contents
  obtain ⟨stored, w₁, hstored⟩ := @exists_storeAll [] host log w w request.labels
    request.contents.zipIdx request.contents.zipIdx (storing_start h) hlive (nodup_places _)
    (hfst.symm ▸ hready) (fun q hq => .inl hq) (List.Subset.refl _)
    fun q hq => hfits q.1 (hfst ▸ List.mem_map_of_mem hq)
  obtain ⟨hstoring, hperm⟩ := spec_storeAll (storing_start h) (List.Subset.refl _) hstored
  obtain ⟨_, es, _, _, _, hentries⟩ := hstoring.pushes hperm
  exact ⟨_, w₁, gives_toRegistry.2 ⟨stored, w₁, hstored, gives_receipts hentries⟩⟩

end Receipts

end Upload

end Schemata

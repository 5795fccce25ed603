import Mathlib.Data.Finset.Card
import Mathlib.Data.Finset.Range
import Schemata.Proofs.Upload.Reception
import Schemata.Proofs.Upload.Request

/-!
# Digests of what is uploaded

The registry finds out the digest of a content from the keys that it gave the siblings, a set from
what its imports lead to. Both find the same, so an upload gives for each module the commit of the
digest that the set knows it by, whatever the order of the modules.
-/

namespace Schemata

open Storage
open Schemata.Registry (Pushed Push Follows idOf)
open Schemata.ModuleSet (LeadsTo Sound Answer LocalAt HasManifest Mutual OnCircle)

/-! ### Modules from a registry -/

/-- Whether a module, if it is remote, is that of a commit in the registry: of its name, its digest
and its files. -/
def Module.From (w : World) (m : Module) : Prop :=
  ∀ key digest, m.origin = .fetched key digest → m.name = some key.name ∧
    ∃ c, w.registry.commit? key.name key.commit = some c ∧ digest = .ok c.digest ∧
      m.ConsistsOf w c.files

theorem Module.From.verified {host : String} {log : List Pushed} {w : World} {m : Module}
    (h : m.From w) (hfollows : Follows host log w) : m.Verified w := by
  intro key digest ho
  obtain ⟨_, c, hc, rfl, hfiles⟩ := h key digest ho
  obtain ⟨e, he, _, _, rfl⟩ := hfollows.exists_pushed hc
  obtain ⟨_, _, hall⟩ := hfollows.keeps
  have haccepted := (hall e he).1
  exact ⟨_, e.digests, e.digest, hfiles.ofBucket haccepted.listed, haccepted.digest, rfl⟩

namespace Upload

variable {w w' : World} {modules : List Module} {sent : List ModuleName} {i j : Nat}
  {picks : Picks} {host : String} {log : List Pushed} {request : Request} {es : List Pushed}

theorem RefersTo.unique {d d' : Dependency} (h : RefersTo modules sent j d)
    (h' : RefersTo modules sent j d') : d = d' := by
  cases h with
  | sibling hm ho hname =>
    cases h' with
    | sibling hm' ho' hname' =>
      cases hm.symm.trans hm'
      cases hname.symm.trans hname'
      rfl
    | commit hm' ho' =>
      cases hm.symm.trans hm'
      cases ho.symm.trans ho'
  | commit hm ho =>
    cases h' with
    | sibling hm' ho' =>
      cases hm.symm.trans hm'
      cases ho.symm.trans ho'
    | commit hm' ho' =>
      cases hm.symm.trans hm'
      cases ho.symm.trans ho'
      rfl

/-- Modules of one name are in one place. -/
theorem eq_of_names (hids : (modules.map Module.id).Nodup) {m m' : Module} {name : ModuleName}
    (hm : modules[i]? = some m) (hm' : modules[j]? = some m') (hname : m.name = some name)
    (hname' : m'.name = some name) : i = j := by
  refine ModuleSet.idAt_inj hids (List.getElem?_eq_some_iff.1 hm).1
    (List.getElem?_eq_some_iff.1 hm').1 ?_
  rw [ModuleSet.idAt, ModuleSet.idAt, hm, hm']
  simp only [Option.map_some, Option.getD_some]
  rw [Module.id, Module.id, hname, hname']

/-! ### What was pushed for a module -/

/-- Whether a push is that of a module of a set, as a registry made it of a request. -/
structure PushedFor (w : World) (modules : List Module) (picks : Picks) (request : Request)
    (es : List Pushed) (w' : World) (q : Nat × Module) (e : Pushed) : Prop where
  sent : SentAs q.2 e.push.name
  content : ∃ c ∈ request.contents, c.name = e.push.name ∧ Ready request.contents c ∧
    Describes w modules (sentNames picks) q.1 q.2 e.push.name c ∧
    Sends request.labels w'.registry (es.map Pushed.key) c e.push

theorem Received.pushedFor (h : Received host log w request es w')
    (hrequests : Requests w modules picks request) :
    List.Forall₂ (PushedFor w modules picks request es w') picks es := by
  have hcontents : List.Forall₂ (fun c e => c ∈ request.contents ∧ Ready request.contents c ∧
      Sends request.labels w'.registry (es.map Pushed.key) c e.push) request.contents es :=
    (List.forall₂_and_left _ _).2 ⟨fun _ hc => hc, h.sends⟩
  refine (forall₂_trans hcontents hrequests.flip).imp fun q e => ?_
  rintro ⟨c, _, ⟨name, hsent, hdescribes⟩, hc, hready, hsends⟩
  have hname : e.push.name = name := hsends.name.trans hdescribes.name
  exact ⟨hname ▸ hsent, c, hc, hsends.name.symm, hready, hname ▸ hdescribes, hsends⟩

/-- A module has the digest of its files and of some digests, if these are the digests of all that
its imports lead to. -/
theorem answer_of_digests (hids : (modules.map Module.id).Nodup) {m : Module}
    {manifest : Manifest} {ds : List Digest} {d : Digest} (hm : modules[i]? = some m)
    (ho : m.origin = .workspace)
    (hmanifest : Manifest.ofBucket w.volumes w.live m.files = .ok manifest)
    (hled : ∀ x ∈ ds, ∃ j, LeadsTo w modules i j ∧ j ≠ i ∧ Answer w modules j (.ok x))
    (hall : ∀ j, LeadsTo w modules i j → j ≠ i → ∃ x ∈ ds, Answer w modules j (.ok x))
    (hd : Digest.b5 manifest ds = .ok d) : Answer w modules i (.ok d) := by
  classical
  obtain ⟨digestOf, hdigests⟩ := ModuleSet.exists_digests
    (fun j => LeadsTo w modules i j ∧ j ≠ i) fun j ⟨hj, hne⟩ => by
      obtain ⟨x, _, hx⟩ := hall j hj hne
      exact ⟨x, hx⟩
  let positions := (List.range modules.length).filter fun j => LeadsTo w modules i j ∧ j ≠ i
  have hmem : ∀ j, j ∈ positions ↔ LeadsTo w modules i j ∧ j ≠ i := by
    intro j
    rw [List.mem_filter, List.mem_range, decide_eq_true_eq]
    exact and_iff_right_of_imp fun h => (ModuleSet.lt_of_leadsTo h.1).2
  have hsame : ∀ x, x ∈ ds ↔ x ∈ (positions.map fun j => (j, digestOf j)).map Prod.snd := by
    intro x
    rw [List.map_map, List.mem_map]
    constructor
    · intro hx
      obtain ⟨j, hj, hne, hanswer⟩ := hled x hx
      exact ⟨j, (hmem j).2 ⟨hj, hne⟩,
        Except.ok.inj ((hdigests j ⟨hj, hne⟩).unique hids hanswer)⟩
    · rintro ⟨j, hj, rfl⟩
      obtain ⟨hlead, hne⟩ := (hmem j).1 hj
      obtain ⟨x, hx, hanswer⟩ := hall j hlead hne
      rwa [show (Prod.snd ∘ fun j => (j, digestOf j)) j = digestOf j from rfl,
        Except.ok.inj ((hdigests j ⟨hlead, hne⟩).unique hids hanswer)]
  refine .content hm ho (fun j hj => ?_) hmanifest ?_ ?_ (Digest.b5_congr hsame hd)
  · by_contra hne
    obtain ⟨x, _, hanswer⟩ := hall j (hj.2.2.resolve_left fun h => hne h.symm).1 hne
    exact hne (hanswer.alone_of_ok hj.symm).symm
  · intro j
    rw [List.map_map, show (Prod.fst ∘ fun j => (j, digestOf j)) = id from rfl, List.map_id]
    exact hmem j
  · intro p hp
    obtain ⟨j, hj, rfl⟩ := List.mem_map.1 hp
    exact hdigests j ((hmem j).1 hj)

/-- Whether the pushes of the modules of some name have the digests that the set knows. -/
def Answered (w : World) (modules : List Module) (picks : Picks) (es : List Pushed)
    (name : ModuleName) : Prop :=
  ∀ q e, (q, e) ∈ picks.zip es → q.2.name = some name → Answer w modules q.1 (.ok e.digest)

section Digests

variable (hread : ∀ m ∈ modules, m.Readable w)
  (hids : (modules.map Module.id).Nodup) (hfrom : ∀ m ∈ modules, m.From w)
  (hpicks : ∀ q ∈ picks, modules[q.1]? = some q.2)
  (htrimmed : ∀ q ∈ picks, q.2.Trimmed w) (hmanifest : ∀ q ∈ picks, HasManifest w modules q.1)
  (hreceived : Received host log w request es w')
  (hrequests : Requests w modules picks request)

include hids hfrom hpicks hreceived hrequests in
/-- The key that stands for a dependency has the digest that the set knows. -/
theorem answer_of_meets {d : Dependency} {k : ModuleKey} {x : Digest}
    (hknown : ∀ name, d = .sibling name → Answered w modules picks es name)
    (hrefers : RefersTo modules sent j d) (hmeets : Meets w'.registry (es.map Pushed.key) d k)
    (hfound : k.Found w' x) : Answer w modules j (.ok x) := by
  cases hrefers with
  | @sibling m name hm ho hname _ =>
    cases hmeets with
    | sibling hkey =>
      obtain ⟨e, he, rfl⟩ := List.mem_map.1 hkey
      have hall := hreceived.pushedFor hrequests
      obtain ⟨n, hn, rfl⟩ := List.getElem_of_mem he
      have hlt : n < picks.length := hall.length_eq ▸ hn
      have hzip : (picks[n], es[n]) ∈ picks.zip es := by
        rw [← List.getElem_zip (h := by rw [List.length_zip]; omega)]
        exact List.getElem_mem _
      have hsent := ((List.forall₂_iff_zip.1 hall).2 hzip).sent
      have hat := eq_of_names hids (hpicks _ (List.getElem_mem hlt)) hm hsent.2 hname
      rw [← hat, hfound.unique (.inl rfl)]
      exact hknown _ rfl _ _ hzip hsent.2
  | commit hm ho =>
    obtain ⟨_, c, hc, rfl, _⟩ := hfrom _ (List.mem_of_getElem? hm) _ _ ho
    cases hmeets with
    | commit hc' =>
      cases (hreceived.grown _ _ _ hc).symm.trans hc'
      rw [hfound.unique (.inl rfl)]
      exact .fetched hm ho

include hread hpicks htrimmed hmanifest in
/-- What is sent for a module are its files, all of which belong to one. -/
theorem exists_files {q : Nat × Module} (hq : q ∈ picks) {name : ModuleName} {c : Content}
    (hdescribes : Describes w modules sent q.1 q.2 name c) :
    ∃ files, q.2.ConsistsOf w files ∧ Manifest.Lists files ∧ c.files = files.entries ∧
      Module.filesAmong (.ofList c.files) = files := by
  obtain ⟨m, manifest, hm, _, hok⟩ := hmanifest q hq
  cases hm.symm.trans (hpicks q hq)
  obtain ⟨files, hfiles, hlists, _⟩ := Module.exists_consistsOf hok
  have hall := filesOf_eq_ok (htrimmed q hq) (hread _ (List.mem_of_getElem? hm)) hfiles
  have hsent : c.files = files.entries := Except.ok.inj (hdescribes.files.symm.trans hall)
  refine ⟨files, hfiles, hlists, hsent, ?_⟩
  rw [hsent, Table.ofList_entries]
  exact (htrimmed q hq).filesAmong hfiles

include hread hids hfrom hpicks htrimmed hmanifest hreceived hrequests in
/-- A push has the digest that the set knows, if those of its siblings have. -/
theorem answer_of_siblings {q : Nat × Module} {e : Pushed} (hqe : (q, e) ∈ picks.zip es)
    (hpushed : PushedFor w modules picks request es w' q e)
    (hknown : ∀ c ∈ request.contents,
      Describes w modules (sentNames picks) q.1 q.2 e.push.name c →
      ∀ name, .sibling name ∈ c.deps → Answered w modules picks es name) :
    Answer w modules q.1 (.ok e.digest) := by
  obtain ⟨hq, he⟩ := List.of_mem_zip hqe
  obtain ⟨c, hc, _, _, hdescribes, hsends⟩ := hpushed.content
  obtain ⟨files, hfiles, hlists, _, hmodule⟩ :=
    exists_files hread hpicks htrimmed hmanifest hq hdescribes
  obtain ⟨pushes, hfollows, hsame⟩ := hreceived.follows
  obtain ⟨_, _, hall⟩ := hfollows.keeps
  obtain ⟨haccepted, hfound⟩ := hall e (List.mem_append_left _ (hsame.mem_iff.1 he))
  have hdigests : List.Forall₂ (fun d x => ∃ k ∈ e.push.deps,
      Meets w'.registry (es.map Pushed.key) d k ∧ k.Found w' x) c.deps e.digests :=
    forall₂_trans hfound hsends.deps.flip
  have hanswer : ∀ d ∈ c.deps, ∀ x k j, RefersTo modules (sentNames picks) j d →
      k.Found w' x → Meets w'.registry (es.map Pushed.key) d k → Answer w modules j (.ok x) := by
    intro d hd x k j hrefers hx hmeets
    refine answer_of_meets hids hfrom hpicks hreceived hrequests (fun name hname => ?_) hrefers
      hmeets hx
    exact hknown c hc hdescribes name (hname ▸ hd)
  have hd := haccepted.digest
  rw [Push.moduleFiles, hsends.files, hmodule] at hd
  refine answer_of_digests hids (hpicks q hq) hpushed.sent.1 (hfiles.ofBucket hlists)
    (fun x hx => ?_) (fun j hj hne => ?_) hd
  · obtain ⟨d, hd, k, _, hmeets, hfound⟩ := exists_of_forall₂ hdigests hx
    obtain ⟨j, hj, hne, hrefers⟩ := hdescribes.refers d hd
    exact ⟨j, hj, hne, hanswer d hd x k j hrefers hfound hmeets⟩
  · obtain ⟨d, hd, hrefers⟩ := hdescribes.complete j hj hne
    obtain ⟨x, hx, k, _, hmeets, hfound⟩ := exists_of_forall₂ hdigests.flip hd
    exact ⟨x, hx, hanswer d hd x k j hrefers hfound hmeets⟩

include hread hids hfrom hpicks htrimmed hmanifest hreceived hrequests in
theorem answered_of_storable {name : ModuleName} (h : Storable request.contents name) :
    Answered w modules picks es name := by
  have hall := hreceived.pushedFor hrequests
  induction h with
  | @intro c hc _ ih =>
    intro q e hqe hname
    have hpushed := (List.forall₂_iff_zip.1 hall).2 hqe
    refine answer_of_siblings hread hids hfrom hpicks htrimmed hmanifest hreceived hrequests hqe
      hpushed fun c' hc' hdescribes sibling hsibling => ih sibling ?_
    -- the contents of one name are of one module, so they refer to the same siblings
    obtain ⟨q', hq', name', hsent, hdescribes'⟩ := exists_of_forall₂ hrequests hc
    rw [hdescribes'.name] at hname
    have hat := eq_of_names hids (hpicks q' hq') (hpicks q (List.of_mem_zip hqe).1) hsent.2 hname
    obtain ⟨j, hj, hne, hrefers⟩ := hdescribes.refers _ hsibling
    obtain ⟨d, hd, hrefers'⟩ := hdescribes'.complete j (hat ▸ hj) (hat ▸ hne)
    rwa [hrefers.unique hrefers']

include hread hids hfrom hpicks htrimmed hmanifest hreceived hrequests in
/-- Every push has the digest that the set knows of the module. -/
theorem digests_agree : List.Forall₂ (fun (q : Nat × Module) e =>
    SentAs q.2 e.push.name ∧ Answer w modules q.1 (.ok e.digest)) picks es := by
  have hall := hreceived.pushedFor hrequests
  refine List.forall₂_iff_zip.2 ⟨hall.length_eq, fun {q e} hqe => ?_⟩
  have hpushed := (List.forall₂_iff_zip.1 hall).2 hqe
  refine ⟨hpushed.sent, ?_⟩
  obtain ⟨c, hc, hname, _⟩ := hpushed.content
  refine answered_of_storable hread hids hfrom hpicks htrimmed hmanifest hreceived hrequests
    (hname ▸ .intro hc fun sibling hsibling => ?_) q e hqe hpushed.sent.2
  obtain ⟨e', _, hready, _⟩ := exists_of_forall₂ hreceived.sends.flip hc
  exact hready sibling hsibling

/-! ### Requests that a registry takes -/

include hread hfrom hpicks htrimmed hmanifest hrequests in
/-- What is sent for modules on the host of a registry fits there. -/
theorem fits_of_requests (hhost : ∀ q ∈ picks, ∀ name, SentAs q.2 name → name.registry = host)
    {c : Content} (hc : c ∈ request.contents) : Fits w.registry host c := by
  obtain ⟨q, hq, name, hsent, hdescribes⟩ := exists_of_forall₂ hrequests hc
  obtain ⟨files, _, hlists, hfiles, hmodule⟩ :=
    exists_files hread hpicks htrimmed hmanifest hq hdescribes
  refine ⟨hdescribes.name ▸ hhost q hq name hsent, fun f hf => ?_, hmodule.symm ▸ hlists,
    fun dep id hdep => ?_⟩
  · rw [hfiles] at hf
    exact Path.validateObject_eq_ok.1 (hlists f.1 (List.mem_map_of_mem hf)).2
  · obtain ⟨j, _, _, hrefers⟩ := hdescribes.refers _ hdep
    cases hrefers with
    | commit hm ho =>
      obtain ⟨_, x, hx, _⟩ := hfrom _ (List.mem_of_getElem? hm) _ _ ho
      exact ⟨x, hx⟩

/-- How many local modules the imports of a module lead to. -/
noncomputable def localsLedTo (w : World) (modules : List Module) (i : Nat) : Nat := by
  classical
  exact ((Finset.range modules.length).filter fun j =>
    LocalAt modules j ∧ LeadsTo w modules i j ∧ j ≠ i).card

theorem localsLedTo_lt (hlead : LeadsTo w modules i j) (hlocal : LocalAt modules j) (hne : j ≠ i)
    (hback : ¬ LeadsTo w modules j i) : localsLedTo w modules j < localsLedTo w modules i := by
  classical
  refine Finset.card_lt_card ((Finset.ssubset_iff_of_subset fun k hk => ?_).2 ⟨j, ?_, ?_⟩)
  · obtain ⟨hrange, hk, hjk, _⟩ := Finset.mem_filter.1 hk
    refine Finset.mem_filter.2 ⟨hrange, hk, hlead.trans hjk, ?_⟩
    rintro rfl
    exact hback hjk
  · exact Finset.mem_filter.2
      ⟨Finset.mem_range.2 (ModuleSet.lt_of_leadsTo hlead).2, hlocal, hlead, hne⟩
  · exact fun h => (Finset.mem_filter.1 h).2.2.2 rfl

include hids hpicks hrequests in
/-- Of modules that do not lead to each other all can be stored. -/
theorem ready_of_requests (hapart : ∀ q ∈ picks, ∀ q' ∈ picks, ¬ Mutual w modules q.1 q'.1)
    {c : Content} (hc : c ∈ request.contents) : Ready request.contents c := by
  have hall : ∀ n, ∀ q ∈ picks, localsLedTo w modules q.1 = n → ∀ c ∈ request.contents,
      ∀ name, SentAs q.2 name → Describes w modules (sentNames picks) q.1 q.2 name c →
      Ready request.contents c := by
    intro n
    induction n using Nat.strongRecOn with
    | ind n ih =>
      rintro q hq rfl c hc name hsent hdescribes sibling hsibling
      obtain ⟨j, hj, hne, hrefers⟩ := hdescribes.refers _ hsibling
      cases hrefers with
      | sibling hm ho hname hmem =>
        obtain ⟨q', hq', hname'⟩ := List.mem_filterMap.1 hmem
        cases eq_of_names hids (hpicks q' hq') hm hname' hname
        obtain ⟨c', hc', name', hsent', hdescribes'⟩ := exists_of_forall₂ hrequests.flip hq'
        cases hsent'.2.symm.trans hname'
        have hlocal : LocalAt modules q'.1 := ⟨_, hm, ho⟩
        have hback : ¬ LeadsTo w modules q'.1 q.1 := fun hback =>
          hapart q hq q' hq' ⟨⟨_, hpicks q hq, hsent.1⟩, hlocal, hne.symm, hj, hback⟩
        rw [← hdescribes'.name]
        exact .intro hc' (ih _ (localsLedTo_lt hj hlocal hne hback) q' hq' rfl c' hc' _ hsent'
          hdescribes')
  obtain ⟨q, hq, name, hsent, hdescribes⟩ := exists_of_forall₂ hrequests hc
  exact hall _ q hq rfl c hc name hsent hdescribes

end Digests

end Upload

end Schemata

import Schemata.Proofs.Upload.Digests

/-!
# Uploads to a registry

Modules of a set whose remote modules come from a registry are uploaded to it, if they have names
there, bring along all local modules that they lead to, and do not lead to each other. The keys that
come back have the digests that the set finds out.
-/

namespace Schemata.Upload

open Schemata.Registry (Pushed Push Follows idOf)
open Schemata.ModuleSet (LeadsTo Sound Answer LocalAt HasManifest Mutual)

variable {w w' : World} {s : ModuleSet} {modules : List Module} {picks : Picks}
  {p p' : World × ModuleSet} {client : Client} {positions : List Nat} {labels : List String}
  {verify : Bool} {request : Request} {receipts : List Receipt} {keys : List ModuleKey}

/-! ### The course of an upload -/

/-- The modules of a set at some positions. -/
def picksOf (modules : List Module) (positions : List Nat) : Picks :=
  positions.filterMap fun i => modules[i]?.map fun m => (i, m)

theorem mem_picksOf {q : Nat × Module} :
    q ∈ picksOf modules positions ↔ q.1 ∈ positions ∧ modules[q.1]? = some q.2 := by
  obtain ⟨i, m⟩ := q
  rw [picksOf, List.mem_filterMap]
  constructor
  · rintro ⟨j, hj, h⟩
    obtain ⟨m', hm', heq⟩ := Option.map_eq_some_iff.1 h
    cases heq
    exact ⟨hj, hm'⟩
  · rintro ⟨hi, hm⟩
    exact ⟨i, hi, by rw [hm]; rfl⟩

/-- Sends a request for some modules, and checks the answer. -/
def send (client : Client) (verify : Bool) (picks : Picks) (request : Request) :
    UploadAct (List ModuleKey) := do
  checkReceipts verify picks request (← inWorld (client request))

theorem gives_send : (send client verify picks request).Gives p keys p' ↔
    ∃ receipts w', (client request).run p.1 = (.ok receipts, w') ∧
      (checkReceipts verify picks request receipts).Gives (w', p.2) keys p' := by
  unfold send
  rw [UploadAct.gives_bind]
  constructor
  · rintro ⟨receipts, _, hsent, hcheck⟩
    obtain ⟨w', hrun, rfl⟩ := UploadAct.gives_inWorld.1 hsent
    exact ⟨receipts, w', hrun, hcheck⟩
  · rintro ⟨receipts, w', hrun, hcheck⟩
    exact ⟨receipts, _, UploadAct.gives_inWorld.2 ⟨w', hrun, rfl⟩, hcheck⟩

section Course

variable (hlive : w.live = true) (hne : picksOf s.modules positions ≠ [])

include hlive hne

theorem upload_of_request
    (h : (requestFor (picksOf s.modules positions) labels).run (w, s) = (.ok request, p)) :
    upload client positions labels verify (w, s) =
      (⟨some request, ((send client verify (picksOf s.modules positions) request).run p).1⟩,
        ((send client verify (picksOf s.modules positions) request).run p).2) := by
  have hempty : (picksOf s.modules positions).isEmpty = false := by simpa using hne
  unfold picksOf at h hempty ⊢
  unfold upload
  simp only [bind, StateT.bind, get, getThe, MonadStateOf.get, StateT.get, pure, hlive, hempty, h,
    Bool.not_true, Bool.false_eq_true, if_false]
  rfl

theorem upload_of_refusal {e : Error}
    (h : (requestFor (picksOf s.modules positions) labels).run (w, s) = (.error e, p)) :
    upload client positions labels verify (w, s) = (⟨none, .error e⟩, p) := by
  have hempty : (picksOf s.modules positions).isEmpty = false := by simpa using hne
  unfold picksOf at h hempty
  unfold upload
  simp only [bind, StateT.bind, get, getThe, MonadStateOf.get, StateT.get, pure, hlive, hempty, h,
    Bool.not_true, Bool.false_eq_true, if_false]
  rfl

/-- What is sent, answered and checked when an upload of some modules succeeds. -/
theorem upload_eq_ok {sent : Option Request} :
    upload client positions labels verify (w, s) = (⟨sent, .ok keys⟩, p') ↔
      ∃ request p receipts w', sent = some request ∧
        (requestFor (picksOf s.modules positions) labels).Gives (w, s) request p ∧
        (client request).run p.1 = (.ok receipts, w') ∧
        (checkReceipts verify (picksOf s.modules positions) request receipts).Gives (w', p.2)
          keys p' := by
  constructor
  · intro h
    rcases hrun : (requestFor (picksOf s.modules positions) labels).run (w, s) with ⟨e | request, p⟩
    · rw [upload_of_refusal hlive hne hrun] at h
      cases h
    · rw [upload_of_request hlive hne hrun] at h
      obtain ⟨houtcome, hend⟩ := Prod.mk.inj h
      obtain ⟨rfl, hkeys⟩ := Outcome.mk.inj houtcome
      obtain ⟨receipts, w', hsent, hcheck⟩ := gives_send.1 (Prod.ext hkeys hend)
      exact ⟨request, p, receipts, w', rfl, hrun, hsent, hcheck⟩
  · rintro ⟨request, p, receipts, w', rfl, hrequest, hsent, hcheck⟩
    have hgives := gives_send.2 ⟨receipts, w', hsent, hcheck⟩
    rw [upload_of_request hlive hne hrequest, hgives]

end Course

/-- Without modules nothing is sent. -/
theorem upload_nothing (hlive : w.live = true) (hnone : picksOf s.modules positions = []) :
    upload client positions labels verify (w, s) = (⟨none, .ok []⟩, w, s) := by
  unfold picksOf at hnone
  unfold upload
  simp only [bind, StateT.bind, get, getThe, MonadStateOf.get, StateT.get, pure, hlive, hnone,
    Bool.not_true, Bool.false_eq_true, if_false]
  rfl

/-! ### Receipts that are taken -/

/-- The key of the commit that a receipt is for. -/
def keyFor (r : Receipt) : ModuleKey := ⟨r.name, r.commit, .known r.digest⟩

/-- Keys for the receipts of some pushes are those of the pushes. -/
theorem eq_map_key {α : Type} {xs : List α} {es : List Pushed} {ks : List ModuleKey}
    (hlength : es.length ≤ xs.length)
    (h : List.Forall₂ (fun x k => k = keyFor x.2) (xs.zip (es.map receiptFor)) ks) :
    ks = es.map Pushed.key := by
  have heq : ks = (xs.zip (es.map receiptFor)).map (keyFor ∘ Prod.snd) :=
    List.forall₂_eq_eq_eq ▸ List.forall₂_map_right_iff.2 h.flip
  rw [heq, ← List.map_map, List.map_snd_zip (by rwa [List.length_map]), List.map_map]
  rfl

section Receipts

variable (hlive : w.live = true) (hread : ∀ m ∈ modules, m.Readable w)
  (hverified : ∀ m ∈ modules, m.Verified w) (hids : (modules.map Module.id).Nodup)
  (hkept : w'.store = w.store) (hstill : w'.live = w.live)

include hlive hread hverified hids hkept hstill

/-- The receipt for a push is taken, if its digest is that of the module. -/
theorem exists_checkReceipt (hs : Sound w modules [] s) {i : Nat} (hi : i < modules.length)
    {e : Pushed} (hanswer : Answer w modules i (.ok e.digest)) :
    ∃ t, (checkReceipt verify i e.push.name (receiptFor e)).Gives (w', s) e.key (w', t) ∧
      Sound w modules [] t := by
  have hname : (receiptFor e).name = e.push.name := rfl
  unfold checkReceipt
  simp only
  rw [if_neg (not_not.2 hname)]
  cases verify with
  | false => exact ⟨s, UploadAct.gives_pure.2 ⟨rfl, rfl⟩, hs⟩
  | true =>
    obtain ⟨o, t, hon, ht, ho⟩ := ModuleSet.on_digest hlive hread hverified hids hs hi
    cases ho.unique hids hanswer
    refine ⟨t, UploadAct.gives_bind.2 ⟨e.digest, (w', t), ?_, ?_⟩, ht⟩
    · refine UploadAct.gives_inSet.2 ⟨t, ?_, rfl⟩
      rw [ModuleSet.digest_congr hkept hstill, hon]
    · have hdigest : e.digest = (receiptFor e).digest := rfl
      rw [if_neg (not_not.2 hdigest)]
      exact UploadAct.gives_pure.2 ⟨rfl, rfl⟩

theorem exists_checkReceipts (hs : Sound w modules [] s)
    (hpicks : ∀ q ∈ picks, modules[q.1]? = some q.2) {es : List Pushed}
    (hanswers : List.Forall₂ (fun (q : Nat × Module) e => Answer w modules q.1 (.ok e.digest))
      picks es)
    (hnames : List.Forall₂ (fun c (e : Pushed) => e.push.name = c.name) request.contents es) :
    ∃ t, (checkReceipts verify picks request (es.map receiptFor)).Gives (w', s)
      (es.map Pushed.key) (w', t) ∧ Sound w modules [] t := by
  have hall : List.Forall₂ (fun (x : (Nat × Module) × Content) r =>
      ∃ e, receiptFor e = r ∧ Answer w modules x.1.1 (.ok e.digest) ∧ e.push.name = x.2.name)
      (picks.zip request.contents) (es.map receiptFor) :=
    List.forall₂_map_right_iff.2 ((forall₂_zip_left hanswers hnames).imp fun _ e h => ⟨e, rfl, h⟩)
  obtain ⟨ks, ⟨_, t⟩, hks, ⟨rfl, ht⟩, hkeys⟩ := UploadAct.exists_mapM
    (I := fun p : World × ModuleSet => p.1 = w' ∧ Sound w modules [] p.2)
    (f := fun x : ((Nat × Module) × Content) × Receipt =>
      checkReceipt verify x.1.1.1 x.1.2.name x.2)
    (r := fun x k => k = keyFor x.2)
    (p := (w', s)) ⟨rfl, hs⟩
    fun x (hx : x ∈ (picks.zip request.contents).zip (es.map receiptFor)) p hp => by
      obtain ⟨w₁, s⟩ := p
      obtain ⟨rfl, hs⟩ := hp
      obtain ⟨e, hreceipt, hanswer, hname⟩ := (List.forall₂_iff_zip.1 hall).2 hx
      have hpick := hpicks _ (List.of_mem_zip (List.of_mem_zip hx).1).1
      obtain ⟨t, hgives, ht⟩ := exists_checkReceipt hlive hread hverified hids hkept hstill hs
        (List.getElem?_eq_some_iff.1 hpick).1 hanswer
      rw [hreceipt, hname] at hgives
      exact ⟨_, _, hgives, ⟨rfl, ht⟩, by rw [← hreceipt]; rfl⟩
  have hlength : es.length = (picks.zip request.contents).length := by
    rw [hall.length_eq, List.length_map]
  refine ⟨t, ?_, ht⟩
  unfold checkReceipts
  rw [if_neg (not_not.2 (by rw [List.length_map, hnames.length_eq])),
    ← eq_map_key (Nat.le_of_eq hlength) hkeys]
  exact hks

end Receipts

/-! ### Uploads that succeed -/

/-- Whether the modules of a set come from where they should: they have different IDs, their files
can be read and belong to modules, and the remote ones are those of commits in the registry. -/
structure Supplied (w : World) (modules : List Module) : Prop where
  ids : (modules.map Module.id).Nodup
  readable : ∀ m ∈ modules, m.Readable w
  trimmed : ∀ m ∈ modules, m.Trimmed w
  origins : ∀ m ∈ modules, m.From w

/-- Whether modules of a set can be uploaded together to a registry: they are local and have names
there, they bring along all local modules that they lead to, and no two lead to each other. -/
structure Batch (w : World) (modules : List Module) (host : String) (positions : List Nat) :
    Prop where
  named : ∀ i ∈ positions, ∃ m name, modules[i]? = some m ∧ SentAs m name ∧ name.registry = host
  closed : ∀ i ∈ positions, ∀ j, LeadsTo w modules i j → LocalAt modules j → j ∈ positions
  apart : ∀ i ∈ positions, ∀ j ∈ positions, ¬ Mutual w modules i j

instance : Nonempty ModuleKey :=
  let name : ModuleName := ⟨"registry", "owner", "name", by decide⟩
  let digest : Digest := ⟨.b5, .ofText ""⟩
  ⟨⟨name, idOf name digest, .known digest⟩⟩

/-- Whether a key is that of the commit that a module makes: of its name and its digest. -/
def CommitsTo (w : World) (modules : List Module) (i : Nat) (key : ModuleKey) : Prop :=
  ∃ m name d, modules[i]? = some m ∧ SentAs m name ∧ Answer w modules i (.ok d) ∧
    key = ⟨name, idOf name d, .known d⟩

theorem CommitsTo.unique (hids : (modules.map Module.id).Nodup) {i : Nat} {key key' : ModuleKey}
    (h : CommitsTo w modules i key) (h' : CommitsTo w modules i key') : key = key' := by
  obtain ⟨m, name, d, hm, hsent, hd, rfl⟩ := h
  obtain ⟨m', name', d', hm', hsent', hd', rfl⟩ := h'
  cases hm.symm.trans hm'
  cases hsent.2.symm.trans hsent'.2
  cases hd.unique hids hd'
  rfl

theorem Batch.perm {host : String} {order : List Nat} (h : Batch w modules host positions)
    (hsame : order.Perm positions) : Batch w modules host order :=
  ⟨fun i hi => h.named i (hsame.mem_iff.1 hi),
    fun i hi j hij hj => hsame.mem_iff.2 (h.closed i (hsame.mem_iff.1 hi) j hij hj),
    fun i hi j hj => h.apart i (hsame.mem_iff.1 hi) j (hsame.mem_iff.1 hj)⟩

theorem Batch.map_picksOf {host : String} (h : Batch w modules host positions) :
    (picksOf modules positions).map Prod.fst = positions := by
  have hall : ∀ i ∈ positions, ∃ m, modules[i]? = some m := fun i hi => by
    obtain ⟨m, _, hm, _⟩ := h.named i hi
    exact ⟨m, hm⟩
  clear h
  induction positions with
  | nil => rfl
  | cons i positions ih =>
    obtain ⟨⟨m, hm⟩, hrest⟩ := List.forall_mem_cons.1 hall
    have hpicks : picksOf modules (i :: positions) = (i, m) :: picksOf modules positions := by
      rw [picksOf, List.filterMap_cons, hm]
      rfl
    rw [hpicks, List.map_cons, ih hrest]

/-- All that the modules of a batch lead to can be referred to. -/
theorem Batch.refersTo {host : String} (h : Batch w modules host positions) {i j : Nat}
    (hi : i ∈ positions) (hj : LeadsTo w modules i j) :
    ∃ d, RefersTo modules (sentNames (picksOf modules positions)) j d := by
  have hlt := (ModuleSet.lt_of_leadsTo hj).2
  have hm : modules[j]? = some modules[j] := List.getElem?_eq_getElem hlt
  cases ho : modules[j].origin with
  | fetched key digest => exact ⟨_, .commit hm ho⟩
  | workspace =>
    have hmem := h.closed i hi j hj ⟨_, hm, ho⟩
    obtain ⟨m, name, hm', hsent, _⟩ := h.named j hmem
    cases hm.symm.trans hm'
    refine ⟨.sibling name, .sibling hm ho hsent.2 (List.mem_filterMap.2 ⟨(j, modules[j]), ?_, ?_⟩)⟩
    · exact mem_picksOf.2 ⟨hmem, hm⟩
    · exact hsent.2

theorem Batch.name_of_pick {host : String} (h : Batch w modules host positions) {q : Nat × Module}
    (hq : q ∈ picksOf modules positions) : ∃ name, SentAs q.2 name ∧ name.registry = host := by
  obtain ⟨hi, hq⟩ := mem_picksOf.1 hq
  obtain ⟨m, name, hm, hsent⟩ := h.named _ hi
  cases hm.symm.trans hq
  exact ⟨name, hsent⟩

section Success

variable {host : String} {log : List Pushed} (hfollows : Follows host log w)
  (hlive : w.live = true) (hsupplied : Supplied w modules) (hs : Sound w modules [] s)
  (hbatch : Batch w modules host positions) (hmanifest : ∀ i ∈ positions, HasManifest w modules i)

include hlive hsupplied hs hbatch hmanifest in
theorem exists_request (labels : List String) :
    ∃ request t, (requestFor (picksOf modules positions) labels).Gives (w, s) request (w, t) ∧
      Sound w modules [] t ∧ Requests w modules (picksOf modules positions) request := by
  have hpicks : ∀ q ∈ picksOf modules positions, modules[q.1]? = some q.2 :=
    fun q hq => (mem_picksOf.1 hq).2
  have hfiles : ∀ q ∈ picksOf modules positions, ∃ files, filesOf w q.2 = .ok files := by
    intro q hq
    obtain ⟨hi, hq⟩ := mem_picksOf.1 hq
    obtain ⟨m, manifest, hm, _, hok⟩ := hmanifest _ hi
    cases hm.symm.trans hq
    obtain ⟨files, hfiles, _⟩ := Module.exists_consistsOf hok
    have hmem := List.mem_of_getElem? hm
    exact ⟨_, filesOf_eq_ok (hsupplied.trimmed _ hmem) (hsupplied.readable _ hmem) hfiles⟩
  obtain ⟨request, ⟨w₁, t⟩, hrequest⟩ :=
    exists_requestFor (p := (w, s)) hlive hsupplied.readable hpicks ⟨rfl, hs⟩ labels
      (fun q hq => hbatch.name_of_pick hq) hfiles
      fun q hq j hj _ => hbatch.refersTo (mem_picksOf.1 hq).1 hj
  obtain ⟨⟨hw, ht⟩, _, hrequests⟩ :=
    spec_requestFor (p := (w, s)) hlive hsupplied.readable hpicks ⟨rfl, hs⟩ hrequest
  obtain rfl : w₁ = w := hw
  exact ⟨request, t, hrequest, ht, hrequests⟩

include hfollows hlive hsupplied hbatch hmanifest in
theorem exists_answer (hrequests : Requests w modules (picksOf modules positions) request) :
    ∃ es w', (toRegistry request).run w = (.ok (es.map receiptFor), w') ∧
      Received host log w request es w' := by
  have hpicks : ∀ q ∈ picksOf modules positions, modules[q.1]? = some q.2 :=
    fun q hq => (mem_picksOf.1 hq).2
  have hfits : ∀ c ∈ request.contents, Fits w.registry host c := by
    intro c hc
    refine fits_of_requests hsupplied.readable hsupplied.origins hpicks
      (fun q hq => hsupplied.trimmed _ (List.mem_of_getElem? (hpicks q hq)))
      (fun q hq => hmanifest _ (mem_picksOf.1 hq).1) hrequests (fun q hq name hsent => ?_) hc
    obtain ⟨name', hsent', hhost⟩ := hbatch.name_of_pick hq
    cases hsent.2.symm.trans hsent'.2
    exact hhost
  have hready : ∀ c ∈ request.contents, Ready request.contents c := fun c hc =>
    ready_of_requests hsupplied.ids hpicks hrequests (fun q hq q' hq' =>
      hbatch.apart _ (mem_picksOf.1 hq).1 _ (mem_picksOf.1 hq').1) hc
  obtain ⟨receipts, w', hreceipts⟩ := exists_toRegistry hfollows hlive hready hfits
  obtain ⟨es, hreceived, rfl⟩ := spec_toRegistry hfollows hreceipts
  exact ⟨es, w', hreceipts, hreceived⟩

include hfollows hlive hsupplied hs hbatch hmanifest in
/-- A batch is uploaded, and each module gets the key of the commit that it makes. -/
theorem exists_upload (labels : List String) (verify : Bool) :
    ∃ keys sent w' t, upload toRegistry positions labels verify (w, s) = (⟨sent, .ok keys⟩, w', t) ∧
      List.Forall₂ (CommitsTo w modules) positions keys := by
  have hmodules : s.modules = modules := hs.coherent.modules_eq
  have hpicks : ∀ q ∈ picksOf modules positions, modules[q.1]? = some q.2 :=
    fun q hq => (mem_picksOf.1 hq).2
  by_cases hne : picksOf modules positions = []
  · have hnone := hbatch.map_picksOf
    rw [hne] at hnone
    refine ⟨[], none, w, s, upload_nothing hlive (hmodules ▸ hne), ?_⟩
    rw [← hnone]
    exact .nil
  obtain ⟨request, t, hrequest, ht, hrequests⟩ :=
    exists_request hlive hsupplied hs hbatch hmanifest labels
  obtain ⟨es, w', hanswer, hreceived⟩ :=
    exists_answer hfollows hlive hsupplied hbatch hmanifest hrequests
  have hagree := digests_agree hsupplied.readable hsupplied.ids hsupplied.origins hpicks
    (fun q hq => hsupplied.trimmed _ (List.mem_of_getElem? (hpicks q hq)))
    (fun q hq => hmanifest _ (mem_picksOf.1 hq).1) hreceived hrequests
  obtain ⟨registry, cells, rfl⟩ := hreceived.same
  obtain ⟨t', hchecked, _⟩ := @exists_checkReceipts w { w with registry, cells } t modules _ verify
    request hlive hsupplied.readable (fun m hm => (hsupplied.origins m hm).verified hfollows)
    hsupplied.ids rfl rfl ht hpicks es (hagree.imp fun _ _ h => h.2)
    (hreceived.sends.imp fun _ _ h => h.2.name)
  refine ⟨es.map Pushed.key, some request, _, t',
    (upload_eq_ok hlive (hmodules ▸ hne)).2 ⟨request, (w, t), es.map receiptFor, _, rfl,
      hmodules ▸ hrequest, hanswer, hmodules ▸ hchecked⟩, ?_⟩
  obtain ⟨pushes, hpushed, hsame⟩ := hreceived.follows
  obtain ⟨_, _, hall⟩ := hpushed.keeps
  have hkeys : List.Forall₂ (CommitsTo w modules) ((picksOf modules positions).map Prod.fst)
      (es.map Pushed.key) := by
    refine List.forall₂_map_left_iff.2 (List.forall₂_map_right_iff.2 ?_)
    refine List.forall₂_iff_zip.2 ⟨hagree.length_eq, fun {q e} hqe => ?_⟩
    obtain ⟨hq, he⟩ := List.of_mem_zip hqe
    obtain ⟨hsent, hdigest⟩ := (List.forall₂_iff_zip.1 hagree).2 hqe
    have haccepted := (hall e (List.mem_append_left _ (hsame.mem_iff.1 he))).1
    refine ⟨q.2, e.push.name, e.digest, hpicks q hq, hsent, hdigest, ?_⟩
    rw [Pushed.key, haccepted.id]
  rwa [hbatch.map_picksOf] at hkeys

include hfollows hlive hsupplied hs hbatch hmanifest in
/-- Each module of a batch has a key, of its name and of the digest that the set finds out. In
whatever order they are uploaded, the keys that come back are theirs, in this order. -/
theorem uploads_in_any_order : ∃ keyOf : Nat → ModuleKey,
    (∀ i ∈ positions, ∃ m name d, modules[i]? = some m ∧ m.name = some name ∧
      ((ModuleSet.digest w i).on s).1 = .ok d ∧ keyOf i = ⟨name, idOf name d, .known d⟩) ∧
    ∀ order : List Nat, order.Perm positions → ∀ labels verify, ∃ sent w' t,
      upload toRegistry order labels verify (w, s) = (⟨sent, .ok (order.map keyOf)⟩, w', t) := by
  have hkey : ∀ i, ∃ key, i ∈ positions → CommitsTo w modules i key := by
    intro i
    by_cases hi : i ∈ positions
    · obtain ⟨keys, _, _, _, _, hkeys⟩ :=
        exists_upload hfollows hlive hsupplied hs hbatch hmanifest [] false
      obtain ⟨key, _, hkey⟩ := exists_of_forall₂ hkeys.flip hi
      exact ⟨key, fun _ => hkey⟩
    · exact (inferInstance : Nonempty ModuleKey).elim fun key => ⟨key, fun h => absurd h hi⟩
  obtain ⟨keyOf, hkeyOf⟩ := Classical.skolem.1 hkey
  refine ⟨keyOf, fun i hi => ?_, fun order hsame labels verify => ?_⟩
  · obtain ⟨m, name, d, hm, hsent, hd, hkey⟩ := hkeyOf i hi
    obtain ⟨o, t, hon, _, ho⟩ := ModuleSet.on_digest hlive hsupplied.readable
      (fun m hm => (hsupplied.origins m hm).verified hfollows) hsupplied.ids hs
      (List.getElem?_eq_some_iff.1 hm).1
    refine ⟨m, name, d, hm, hsent.2, ?_, hkey⟩
    rw [hon]
    exact ho.unique hsupplied.ids hd
  · obtain ⟨keys, sent, w', t, hupload, hkeys⟩ := exists_upload hfollows hlive hsupplied hs
      (hbatch.perm hsame) (fun i hi => hmanifest i (hsame.mem_iff.1 hi)) labels verify
    have hmap : List.Forall₂ (fun i key => keyOf i = key) order keys := by
      refine List.forall₂_iff_zip.2 ⟨hkeys.length_eq, fun {i key} hmem => ?_⟩
      have hi := hsame.mem_iff.1 (List.of_mem_zip hmem).1
      exact (hkeyOf i hi).unique hsupplied.ids ((List.forall₂_iff_zip.1 hkeys).2 hmem)
    have heq : order.map keyOf = keys := by
      rw [← List.forall₂_map_left_iff, List.forall₂_eq_eq_eq] at hmap
      exact hmap
    exact ⟨sent, w', t, heq ▸ hupload⟩

end Success

/-! ### Workspaces with names -/

/-- A world in which nothing was pushed to the registry. -/
def startOf (host : String) : World := { World.empty with registry := .empty host }

/-- A local module with a name and some files. -/
def namedModule (name : ModuleName) (files : List (String × String)) : Module :=
  let m := ModuleSet.workspaceModule name.text files
  { m with
    name := some name
    files := (Module.filesOf World.empty.volumes true m.files).toOption.getD m.files }

theorem trimmed_namedModule {host : String} {name : ModuleName} {files : List (String × String)} :
    (namedModule name files).Trimmed (startOf host) := by
  obtain ⟨view, hview, _⟩ := Store.exists_view
    ((Storage.Objects.ofFiles (files.map fun f => (f.1, f.2.toUTF8))).toOption.getD .empty)
  have hsame : (namedModule name files).files = view := by
    unfold namedModule
    simp only [ModuleSet.workspaceModule]
    rw [show Module.filesOf World.empty.volumes true _ = .ok view from hview _]
    rfl
  exact ⟨_, hsame ▸ hview _⟩

theorem from_namedModule {name : ModuleName} {files : List (String × String)} :
    (namedModule name files).From w := by
  intro key digest ho
  cases ho

def appName : ModuleName := ⟨"r.com", "acme", "app", by decide⟩

def libName : ModuleName := ⟨"r.com", "acme", "lib", by decide⟩

/-- Two modules on one registry, of which the first imports from the second. -/
def appWithLib : List Module :=
  [namedModule appName [("app.schema", "import \"lib.schema\";")],
    namedModule libName [("lib.schema", "message Lib \x7b\x7d")]]

/-- A module with a path that no manifest takes. -/
def unlistedLib : List Module := [namedModule libName [("x\ny.schema", "")]]

theorem supplied_appWithLib : Supplied (startOf "r.com") appWithLib where
  ids := by decide +kernel
  readable := by decide +kernel
  trimmed := List.forall_mem_cons.2 ⟨trimmed_namedModule,
    List.forall_mem_singleton.2 trimmed_namedModule⟩
  origins := List.forall_mem_cons.2 ⟨from_namedModule, List.forall_mem_singleton.2 from_namedModule⟩

/-- The first of the modules imports from the second, and nothing leads back. -/
theorem leadsTo_appWithLib {i j : Nat} :
    LeadsTo (startOf "r.com") appWithLib i j ↔ i = 0 ∧ j = 1 := by
  have hfirst : ModuleSet.importsOf (startOf "r.com") appWithLib 0 = [1] := by decide +kernel
  have hlast : ModuleSet.importsOf (startOf "r.com") appWithLib 1 = [] := by decide +kernel
  have hnone : ∀ j, ¬ LeadsTo (startOf "r.com") appWithLib 1 j := by
    intro j hj
    obtain ⟨k, hk, _⟩ := Relation.TransGen.head'_iff.1 hj
    rw [ModuleSet.Imports, hlast] at hk
    cases hk
  constructor
  · intro h
    have hlt := (ModuleSet.lt_of_leadsTo h).1
    have hcases : i = 0 ∨ i = 1 := by
      simp only [appWithLib, List.length_cons, List.length_nil] at hlt
      omega
    rcases hcases with rfl | rfl
    · obtain ⟨k, hk, hrest⟩ := Relation.TransGen.head'_iff.1 h
      rw [ModuleSet.Imports, hfirst] at hk
      cases List.mem_singleton.1 hk
      refine ⟨rfl, ?_⟩
      rcases Relation.reflTransGen_iff_eq_or_transGen.1 hrest with rfl | hrest
      · rfl
      · exact absurd hrest (hnone _)
    · exact absurd h (hnone _)
  · rintro ⟨rfl, rfl⟩
    refine .single ?_
    rw [ModuleSet.Imports, hfirst]
    exact List.mem_singleton_self _

theorem batch_appWithLib : Batch (startOf "r.com") appWithLib "r.com" [0, 1] where
  named := List.forall_mem_cons.2 ⟨⟨_, appName, rfl, ⟨rfl, rfl⟩, rfl⟩,
    List.forall_mem_singleton.2 ⟨_, libName, rfl, ⟨rfl, rfl⟩, rfl⟩⟩
  closed := by
    intro i _ j hij _
    rw [(leadsTo_appWithLib.1 hij).2]
    exact List.mem_cons_of_mem _ (List.mem_singleton_self _)
  apart := by
    rintro i _ j _ ⟨_, _, hne, hij, hji⟩
    obtain ⟨rfl, rfl⟩ := leadsTo_appWithLib.1 hij
    exact hne (leadsTo_appWithLib.1 hji).1.symm

theorem hasManifest_appWithLib : ∀ i ∈ [0, 1], HasManifest (startOf "r.com") appWithLib i := by
  have hall : ∀ m ∈ appWithLib, ∃ manifest,
      Manifest.ofBucket (startOf "r.com").volumes (startOf "r.com").live m.files = .ok manifest := by
    have hsome : ∀ m ∈ appWithLib, (Manifest.ofBucket (startOf "r.com").volumes
        (startOf "r.com").live m.files).toOption.isSome = true := by decide +kernel
    intro m hm
    obtain ⟨manifest, hmanifest⟩ := Option.isSome_iff_exists.1 (hsome m hm)
    exact ⟨manifest, toOption_eq_some.1 hmanifest⟩
  refine List.forall_mem_cons.2 ⟨?_, List.forall_mem_singleton.2 ?_⟩
  · obtain ⟨manifest, hmanifest⟩ := hall _ List.mem_cons_self
    exact ⟨_, manifest, rfl, rfl, hmanifest⟩
  · obtain ⟨manifest, hmanifest⟩ := hall _ (List.mem_cons_of_mem _ List.mem_cons_self)
    exact ⟨_, manifest, rfl, rfl, hmanifest⟩

theorem uploads_appWithLib :
    Follows "r.com" [] (startOf "r.com") ∧ (startOf "r.com").live = true ∧
      Supplied (startOf "r.com") appWithLib ∧
      Sound (startOf "r.com") appWithLib [] (ModuleSet.ofModules appWithLib) ∧
      Batch (startOf "r.com") appWithLib "r.com" [0, 1] ∧
      (∀ i ∈ [0, 1], HasManifest (startOf "r.com") appWithLib i) ∧
      ∃ keyOf : Nat → ModuleKey,
        (∀ i ∈ [0, 1], ∃ m name d, appWithLib[i]? = some m ∧ m.name = some name ∧
          ((ModuleSet.digest (startOf "r.com") i).on (ModuleSet.ofModules appWithLib)).1 = .ok d ∧
          keyOf i = ⟨name, idOf name d, .known d⟩) ∧
        ∀ order : List Nat, order.Perm [0, 1] → ∀ labels verify, ∃ sent w' t,
          upload toRegistry order labels verify (startOf "r.com", ModuleSet.ofModules appWithLib) =
            (⟨sent, .ok (order.map keyOf)⟩, w', t) := by
  have hstart : Follows "r.com" [] (startOf "r.com") := .start rfl
  have hsound := ModuleSet.sound_ofModules (startOf "r.com") appWithLib
  exact ⟨hstart, rfl, supplied_appWithLib, hsound, batch_appWithLib, hasManifest_appWithLib,
    uploads_in_any_order hstart rfl supplied_appWithLib hsound batch_appWithLib
      hasManifest_appWithLib⟩

/-- A path that no manifest takes makes an upload fail, though all files can be read. -/
theorem not_uploads_unlistedLib :
    Follows "r.com" [] (startOf "r.com") ∧ (startOf "r.com").live = true ∧
      Supplied (startOf "r.com") unlistedLib ∧
      Sound (startOf "r.com") unlistedLib [] (ModuleSet.ofModules unlistedLib) ∧
      Batch (startOf "r.com") unlistedLib "r.com" [0] ∧
      ¬ ∃ keys sent w' t, upload toRegistry [0] [] false
        (startOf "r.com", ModuleSet.ofModules unlistedLib) = (⟨sent, .ok keys⟩, w', t) := by
  refine ⟨.start rfl, rfl, ⟨by decide +kernel, by decide +kernel, ?_, ?_⟩,
    ModuleSet.sound_ofModules _ _, ⟨?_, ?_, ?_⟩, ?_⟩
  · exact List.forall_mem_singleton.2 trimmed_namedModule
  · exact List.forall_mem_singleton.2 from_namedModule
  · exact List.forall_mem_singleton.2 ⟨_, libName, rfl, ⟨rfl, rfl⟩, rfl⟩
  · intro i _ j hij _
    have hlt := (ModuleSet.lt_of_leadsTo hij).2
    exact List.mem_singleton.2 (Nat.lt_one_iff.1 hlt)
  · rintro i hi j hj ⟨_, _, hne, _⟩
    exact hne ((List.mem_singleton.1 hi).trans (List.mem_singleton.1 hj).symm)
  · rintro ⟨keys, sent, w', t, h⟩
    have hnone : (upload toRegistry [0] [] false
      (startOf "r.com", ModuleSet.ofModules unlistedLib)).1.keys.toOption = none := by
      decide +kernel
    rw [h] at hnone
    cases hnone

end Schemata.Upload

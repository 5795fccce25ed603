import Schemata.Proofs.Upload.Supply

/-!
# What an upload leaves in the registry

An upload that succeeds has pushed each module with its files and the keys of all that it leads to.
Afterwards the registry has a commit of each of these modules, and of the remote ones among them:
that of the first push of its name and digest.
-/

namespace Schemata

open Storage
open Schemata.Registry (Pushed Push Follows idOf)
open Schemata.ModuleSet (LeadsTo Sound Answer HasManifest)

namespace Upload

variable {host : String} {log : List Pushed} {w w₁ w' : World} {s t : ModuleSet}
  {modules : List Module} {picks : Picks} {positions : List Nat} {labels : List String}
  {verify : Bool} {request : Request} {es : List Pushed} {keys : List ModuleKey} {i j : Nat}
  {p p' : World × ModuleSet}

/-! ### Uploads that succeeded -/

theorem spec_checkReceipt {name : ModuleName} {r : Receipt} {key : ModuleKey}
    (h : (checkReceipt verify i name r).Gives p key p') : p'.1 = p.1 ∧ key = keyFor r := by
  obtain ⟨w, s⟩ := p
  unfold checkReceipt at h
  simp only at h
  split at h
  · obtain ⟨_, _, hthrow, _⟩ := UploadAct.gives_bind.1 h
    exact absurd hthrow UploadAct.not_gives_throw
  split at h
  · obtain ⟨expected, _, hask, h⟩ := UploadAct.gives_bind.1 h
    obtain ⟨t, _, rfl⟩ := UploadAct.gives_inSet.1 hask
    split at h
    · obtain ⟨_, _, hthrow, _⟩ := UploadAct.gives_bind.1 h
      exact absurd hthrow UploadAct.not_gives_throw
    · obtain ⟨rfl, rfl⟩ := UploadAct.gives_pure.1 h
      exact ⟨rfl, rfl⟩
  · obtain ⟨rfl, rfl⟩ := UploadAct.gives_pure.1 h
    exact ⟨rfl, rfl⟩

/-- Receipts for pushes that are taken give the keys of the pushes. -/
theorem spec_checkReceipts (hlength : picks.length = request.contents.length)
    (h : (checkReceipts verify picks request (es.map receiptFor)).Gives p keys p') :
    p'.1 = p.1 ∧ keys = es.map Pushed.key := by
  unfold checkReceipts at h
  split at h
  · obtain ⟨_, _, hthrow, _⟩ := UploadAct.gives_bind.1 h
    exact absurd hthrow UploadAct.not_gives_throw
  rename_i hcount
  rw [not_not, List.length_map] at hcount
  obtain ⟨hworld, hkeys⟩ := UploadAct.spec_mapM (I := fun p' : World × ModuleSet => p'.1 = p.1)
    (r := fun (x : ((Nat × Module) × Content) × Receipt) k => k = keyFor x.2) rfl
    (fun _ _ _ _ _ hp hgives =>
      ⟨(spec_checkReceipt hgives).1.trans hp, (spec_checkReceipt hgives).2⟩) h
  refine ⟨hworld, eq_map_key ?_ hkeys⟩
  rw [List.length_zip, hlength, Nat.min_self, hcount]

/-- A module has a manifest, if its files were sent and can be listed. -/
theorem exists_manifest {m : Module} {files : List (String × ByteArray)}
    (hproper : m.files.Proper w.volumes) (htrimmed : m.Trimmed w)
    (hfiles : filesOf w m = .ok files)
    (hlists : Manifest.Lists (Module.filesAmong (.ofList files))) :
    ∃ manifest, Manifest.ofBucket w.volumes w.live m.files = .ok manifest := by
  obtain ⟨fs, hwalk, hcontents⟩ := bind_eq_ok.1 hfiles
  obtain ⟨infos, hinfos, hpaths⟩ := Module.objects_of_walk hwalk
  have hlist := mapError_eq_ok.1 hinfos
  have hkeys : files.map Prod.fst = infos.map ObjectInfo.path := by
    rw [← hpaths]
    refine map_eq_of_mapM hcontents fun f e hf => ?_
    obtain ⟨_, _, hf⟩ := bind_eq_ok.1 hf
    cases hf
    rfl
  have hordered := pairwise_lt_list hproper Path.isNormal_root hlist
  rw [← hkeys, List.pairwise_map] at hordered
  have hconsists : m.ConsistsOf w ⟨files, hordered⟩ := by
    refine ⟨⟨infos, hlist, hkeys.symm⟩, fun e he => ?_⟩
    obtain ⟨f, _, hf⟩ := exists_of_forall₂ (mapM_eq_ok.1 hcontents) he
    obtain ⟨⟨f', content⟩, hget, hf⟩ := bind_eq_ok.1 hf
    cases hf
    exact Module.read_of_get hget
  rw [Table.ofList_entries ⟨files, hordered⟩, htrimmed.filesAmong hconsists] at hlists
  exact ⟨_, hconsists.ofBucket hlists⟩

/-- An upload of modules of a set that a registry took: each of them was pushed. -/
structure Taken (host : String) (log : List Pushed) (w : World) (modules : List Module)
    (picks : Picks) (request : Request) (es : List Pushed) (w' : World) : Prop where
  follows : Follows host log w
  supplied : Supplied w modules
  places : ∀ q ∈ picks, modules[q.1]? = some q.2
  manifests : ∀ q ∈ picks, HasManifest w modules q.1
  requests : Requests w modules picks request
  received : Received host log w request es w'

theorem received_nothing (h : Follows host log w) (labels : List String) :
    Received host log w ⟨[], labels⟩ [] w :=
  ⟨⟨w.registry, w.cells, rfl⟩, .refl w, .refl _, ⟨[], h, .refl _⟩, .nil⟩

theorem live_of_upload {client : Client} {sent : Option Request}
    (h : upload client positions labels verify (w, s) = (⟨sent, .ok keys⟩, p')) :
    w.live = true := by
  by_contra hlive
  rw [Bool.not_eq_true] at hlive
  unfold upload at h
  simp only [bind, StateT.bind, get, getThe, MonadStateOf.get, StateT.get, pure, hlive,
    Bool.not_false, if_true] at h
  cases h

/-- A module that was pushed has a manifest. -/
theorem hasManifest_of_received (hsupplied : Supplied w modules)
    (hproper : ∀ m ∈ modules, m.files.Proper w.volumes)
    (hplaces : ∀ q ∈ picks, modules[q.1]? = some q.2) (hrequests : Requests w modules picks request)
    (hreceived : Received host log w request es w') {q : Nat × Module} (hq : q ∈ picks) :
    HasManifest w modules q.1 := by
  have hmem := List.mem_of_getElem? (hplaces q hq)
  obtain ⟨c, hc, name, hsent, hdescribes⟩ := exists_of_forall₂ hrequests.flip hq
  obtain ⟨e, he, _, hsends⟩ := exists_of_forall₂ hreceived.sends.flip hc
  obtain ⟨pushes, hfollows, hsame⟩ := hreceived.follows
  have hlisted := (hfollows.keeps.2.2 e (List.mem_append_left _ (hsame.mem_iff.1 he))).1.listed
  rw [Push.moduleFiles, hsends.files] at hlisted
  obtain ⟨manifest, hmanifest⟩ := exists_manifest (hproper _ hmem) (hsupplied.trimmed _ hmem)
    hdescribes.files hlisted
  exact ⟨q.2, manifest, hplaces q hq, hsent.1, hmanifest⟩

/-- An upload that succeeds was taken by the registry, and returns the keys of what was pushed. -/
theorem taken_of_upload (hfollows : Follows host log w) (hsupplied : Supplied w modules)
    (hproper : ∀ m ∈ modules, m.files.Proper w.volumes) (hs : Sound w modules [] s)
    {sent : Option Request}
    (h : upload toRegistry positions labels verify (w, s) = (⟨sent, .ok keys⟩, w', t)) :
    ∃ request es, Taken host log w modules (picksOf modules positions) request es w' ∧
      keys = es.map Pushed.key := by
  have hlive := live_of_upload h
  have hpicks : ∀ q ∈ picksOf modules positions, modules[q.1]? = some q.2 :=
    fun q hq => (mem_picksOf.1 hq).2
  rw [← hs.coherent.modules_eq] at hpicks ⊢
  by_cases hne : picksOf s.modules positions = []
  · rw [upload_nothing hlive hne] at h
    cases h
    rw [hne]
    exact ⟨⟨[], []⟩, [], ⟨hfollows, hs.coherent.modules_eq ▸ hsupplied,
      fun _ hq => absurd hq List.not_mem_nil, fun _ hq => absurd hq List.not_mem_nil, .nil,
      received_nothing hfollows []⟩, rfl⟩
  obtain ⟨request, ⟨w₁, t₁⟩, receipts, w₂, _, hrequest, hanswer, hchecked⟩ :=
    (upload_eq_ok hlive hne).1 h
  rw [hs.coherent.modules_eq] at hne hpicks hrequest hchecked ⊢
  obtain ⟨⟨hw, _⟩, _, hrequests⟩ :=
    spec_requestFor (p := (w, s)) hlive hsupplied.readable hpicks ⟨rfl, hs⟩ hrequest
  obtain rfl : w₁ = w := hw
  obtain ⟨es, hreceived, rfl⟩ := spec_toRegistry hfollows hanswer
  obtain ⟨hworld, hkeys⟩ := spec_checkReceipts hrequests.length_eq hchecked
  obtain rfl : w' = w₂ := hworld
  exact ⟨request, es, ⟨hfollows, hsupplied, hpicks, fun q hq => hasManifest_of_received hsupplied
    hproper hpicks hrequests hreceived hq, hrequests, hreceived⟩, hkeys⟩

/-! ### Keys and commits of modules -/

/-- Whether a key is that of a module of a set: of its name, and of the commit of its digest. -/
def IsKeyOf (w : World) (modules : List Module) (w' : World) (j : Nat) (k : ModuleKey) : Prop :=
  ∃ m d, modules[j]? = some m ∧ m.name = some k.name ∧ Answer w modules j (.ok d) ∧
    k.commit = idOf k.name d ∧ k.Found w' d

/-- Whether keys are those of the modules that a module leads to, of all of them and no others. -/
structure AreDepsOf (w : World) (modules : List Module) (w' : World) (i : Nat)
    (deps : List ModuleKey) : Prop where
  all : ∀ j, LeadsTo w modules i j → j ≠ i → ∃ k ∈ deps, IsKeyOf w modules w' j k
  only : ∀ k ∈ deps, ∃ j, LeadsTo w modules i j ∧ j ≠ i ∧ IsKeyOf w modules w' j k

/-- Whether a push is that of a module of a set, with its files and all that it leads to. -/
structure IsPushOf (w : World) (modules : List Module) (w' : World) (q : Nat × Module)
    (e : Pushed) : Prop where
  key : IsKeyOf w modules w' q.1 e.key
  files : q.2.ConsistsOf w e.push.moduleFiles
  deps : AreDepsOf w modules w' q.1 e.push.deps

/-- Whether a registry has a module of a set as a commit. -/
structure Kept (w : World) (modules : List Module) (w' : World) (j : Nat) (c : Commit) : Prop where
  place : ∃ m, modules[j]? = some m ∧ m.name = some c.name ∧ m.ConsistsOf w c.files
  answer : Answer w modules j (.ok c.digest)
  commit : w'.registry.commit? c.name (idOf c.name c.digest) = some c

/-- Whether no push of the history made another commit than a module would: each push of its key has
had the keys of all that it leads to. -/
def PushedAlike (w : World) (modules : List Module) (log : List Pushed) (i : Nat) : Prop :=
  ∀ e ∈ log, IsKeyOf w modules w i e.key → AreDepsOf w modules w i e.push.deps

def RemoteAt (modules : List Module) (j : Nat) : Prop :=
  ∃ m key digest, modules[j]? = some m ∧ m.origin = .fetched key digest

/-- Whether a module comes from the registry or is sent to it. -/
def Covered (modules : List Module) (picks : Picks) (j : Nat) : Prop :=
  RemoteAt modules j ∨ j ∈ picks.map Prod.fst

section Keys

variable {k k' : ModuleKey} {c : Commit} (hids : (modules.map Module.id).Nodup)

theorem IsKeyOf.mono (h : IsKeyOf w modules w₁ j k) (hw : w₁.Before w') :
    IsKeyOf w modules w' j k := by
  obtain ⟨m, d, hm, hname, hd, hcommit, hfound⟩ := h
  exact ⟨m, d, hm, hname, hd, hcommit, hfound.mono hw⟩

theorem AreDepsOf.mono {deps : List ModuleKey} (h : AreDepsOf w modules w₁ i deps)
    (hw : w₁.Before w') : AreDepsOf w modules w' i deps := by
  refine ⟨fun j hj hne => ?_, fun k hk => ?_⟩
  · obtain ⟨k, hk, hkey⟩ := h.all j hj hne
    exact ⟨k, hk, hkey.mono hw⟩
  · obtain ⟨j, hj, hne, hkey⟩ := h.only k hk
    exact ⟨j, hj, hne, hkey.mono hw⟩

/-- Whether the key of a push is that of a module does not depend on what was found out. -/
theorem isKeyOf_key {e : Pushed} : IsKeyOf w modules w' j e.key ↔
    ∃ m, modules[j]? = some m ∧ m.name = some e.push.name ∧ Answer w modules j (.ok e.digest) ∧
      e.id = idOf e.push.name e.digest := by
  constructor
  · rintro ⟨m, d, hm, hname, hd, hcommit, hfound⟩
    cases hfound.unique (.inl rfl)
    exact ⟨m, hm, hname, hd, hcommit⟩
  · rintro ⟨m, hm, hname, hd, hcommit⟩
    exact ⟨m, e.digest, hm, hname, hd, hcommit, .inl rfl⟩

include hids

/-- Keys of one name are of one module. -/
theorem IsKeyOf.place_eq (h : IsKeyOf w modules w₁ i k) (h' : IsKeyOf w modules w' j k')
    (hsame : k.name = k'.name) : i = j := by
  obtain ⟨m, _, hm, hname, _⟩ := h
  obtain ⟨m', _, hm', hname', _⟩ := h'
  exact eq_of_names hids hm hm' hname (hsame ▸ hname')

/-- Keys of one name are of one commit. -/
theorem IsKeyOf.commit_eq (h : IsKeyOf w modules w₁ i k) (h' : IsKeyOf w modules w' j k')
    (hsame : k.name = k'.name) : k.commit = k'.commit := by
  cases h.place_eq hids h' hsame
  obtain ⟨_, d, _, _, hd, hcommit, _⟩ := h
  obtain ⟨_, d', _, _, hd', hcommit', _⟩ := h'
  cases hd.unique hids hd'
  rw [hcommit, hcommit', hsame]

/-- The key of a module that the registry has stands for its commit. -/
theorem Kept.of_key (h : Kept w modules w' j c) (hk : IsKeyOf w modules w' j k) :
    w'.registry.commit? k.name k.commit = some c ∧ k.Found w' c.digest := by
  obtain ⟨m, hm, hname, _⟩ := h.place
  obtain ⟨m', d, hm', hname', hd, hcommit, hfound⟩ := hk
  cases hm.symm.trans hm'
  cases h.answer.unique hids hd
  rw [hcommit, ← Option.some.inj (hname.symm.trans hname')]
  exact ⟨h.commit, hfound⟩

theorem Kept.unique {c' : Commit} (h : Kept w modules w' j c) (h' : Kept w modules w' j c') :
    c = c' := by
  obtain ⟨m, hm, hname, _⟩ := h.place
  obtain ⟨m', hm', hname', _⟩ := h'.place
  cases hm.symm.trans hm'
  have hcommit := h.commit
  rw [Option.some.inj (hname.symm.trans hname'), Except.ok.inj (h.answer.unique hids h'.answer),
    h'.commit] at hcommit
  exact (Option.some.inj hcommit).symm

end Keys

namespace Taken

variable (h : Taken host log w modules picks request es w')

include h

/-- What the registry did is one more part of its history. -/
theorem accepted {e : Pushed} (he : e ∈ es) : e.Accepted host := by
  obtain ⟨pushes, hfollows, hsame⟩ := h.received.follows
  exact (hfollows.keeps.2.2 e (List.mem_append_left _ (hsame.mem_iff.1 he))).1

theorem trimmed {q : Nat × Module} (hq : q ∈ picks) : q.2.Trimmed w :=
  h.supplied.trimmed _ (List.mem_of_getElem? (h.places q hq))

/-- Each module that was sent has the key of its push. -/
theorem keyed : List.Forall₂ (fun (q : Nat × Module) e => IsKeyOf w modules w' q.1 e.key)
    picks es := by
  have hagree := digests_agree h.supplied.readable h.supplied.ids h.supplied.origins h.places
    (fun q hq => h.trimmed hq) h.manifests h.received h.requests
  refine List.forall₂_iff_zip.2 ⟨hagree.length_eq, fun {q e} hqe => ?_⟩
  obtain ⟨hq, he⟩ := List.of_mem_zip hqe
  obtain ⟨hsent, hanswer⟩ := (List.forall₂_iff_zip.1 hagree).2 hqe
  exact ⟨q.2, e.digest, h.places q hq, hsent.2, hanswer, (h.accepted he).id.symm, .inl rfl⟩

/-- The commits of remote modules are still there. -/
theorem kept_remote (hj : RemoteAt modules j) :
    ∃ c, Kept w modules w j c ∧ Kept w modules w' j c := by
  obtain ⟨m, key, digest, hm, ho⟩ := hj
  obtain ⟨hname, c, hc, rfl, hfiles⟩ := h.supplied.origins m (List.mem_of_getElem? hm) key digest ho
  obtain ⟨hcname, hid⟩ := h.follows.id_eq hc
  rw [← hcname] at hname
  rw [hid, ← hcname] at hc
  exact ⟨c, ⟨⟨m, hm, hname, hfiles⟩, .fetched hm ho, hc⟩,
    ⟨m, hm, hname, hfiles⟩, .fetched hm ho, h.received.grown _ _ _ hc⟩

/-- The key that stands for a dependency is that of the module that is referred to. -/
theorem isKeyOf_of_meets {d : Dependency} {k : ModuleKey}
    (hrefers : RefersTo modules (sentNames picks) j d)
    (hmeets : Meets w'.registry (es.map Pushed.key) d k) : IsKeyOf w modules w' j k := by
  cases hrefers with
  | sibling hm ho hname hsent =>
    cases hmeets with
    | sibling hkey =>
      obtain ⟨e, he, rfl⟩ := List.mem_map.1 hkey
      obtain ⟨q, _, hkeyed⟩ := exists_of_forall₂ h.keyed he
      have ⟨m', _, hm', hname', _⟩ := hkeyed
      cases eq_of_names h.supplied.ids hm hm' hname hname'
      exact hkeyed
  | commit hm ho =>
    obtain ⟨hname, c, hc, rfl, _⟩ := h.supplied.origins _ (List.mem_of_getElem? hm) _ _ ho
    cases hmeets with
    | commit hc' =>
      cases (h.received.grown _ _ _ hc).symm.trans hc'
      obtain ⟨hcname, hid⟩ := h.follows.id_eq hc
      refine ⟨_, c.digest, hm, ?_, .fetched hm ho, ?_, .inl rfl⟩
      · rw [hname, Registry.keyOf, hcname]
      · rw [Registry.keyOf, hcname]
        exact hid

/-- Each module was pushed with its files and the keys of all that it leads to. -/
theorem pushed : List.Forall₂ (IsPushOf w modules w') picks es := by
  have hpushed := h.received.pushedFor h.requests
  refine List.forall₂_iff_zip.2 ⟨hpushed.length_eq, fun {q e} hqe => ?_⟩
  obtain ⟨hq, _⟩ := List.of_mem_zip hqe
  obtain ⟨c, _, _, _, hdescribes, hsends⟩ := ((List.forall₂_iff_zip.1 hpushed).2 hqe).content
  refine ⟨(List.forall₂_iff_zip.1 h.keyed).2 hqe, ?_, fun j hj hne => ?_, fun k hk => ?_⟩
  · obtain ⟨files, hfiles, _, _, hmodule⟩ :=
      exists_files h.supplied.readable h.places (fun q hq => h.trimmed hq) h.manifests hq hdescribes
    rwa [Push.moduleFiles, hsends.files, hmodule]
  · obtain ⟨d, hd, hrefers⟩ := hdescribes.complete j hj hne
    obtain ⟨k, hk, hmeets⟩ := exists_of_forall₂ hsends.deps.flip hd
    exact ⟨k, hk, h.isKeyOf_of_meets hrefers hmeets⟩
  · obtain ⟨d, hd, hmeets⟩ := exists_of_forall₂ hsends.deps hk
    obtain ⟨j, hj, hne, hrefers⟩ := hdescribes.refers d hd
    exact ⟨j, hj, hne, h.isKeyOf_of_meets hrefers hmeets⟩

/-- What a module that was sent leads to comes from the registry or was sent too. -/
theorem covered (hi : i ∈ picks.map Prod.fst) (hj : LeadsTo w modules i j) (hne : j ≠ i) :
    Covered modules picks j := by
  obtain ⟨q, hq, rfl⟩ := List.mem_map.1 hi
  obtain ⟨c, _, _, _, hdescribes⟩ := exists_of_forall₂ h.requests.flip hq
  obtain ⟨d, _, hrefers⟩ := hdescribes.complete j hj hne
  cases hrefers with
  | sibling hm ho hname hsent =>
    obtain ⟨q', hq', hname'⟩ := List.mem_filterMap.1 hsent
    cases eq_of_names h.supplied.ids (h.places q' hq') hm hname' hname
    exact .inr (List.mem_map_of_mem hq')
  | commit hm ho => exact .inl ⟨_, _, _, hm, ho⟩

section Commits

variable {pushes : List Pushed} (hfollows : Follows host (pushes ++ log) w')
  (hsame : es.Perm pushes) (hapart : Registry.Apart (pushes ++ log))

include hfollows hsame hapart

/-- The registry has a module that was sent as the commit of some push, of the same key. -/
theorem exists_kept_sent (hi : i ∈ picks.map Prod.fst) :
    ∃ e ∈ pushes ++ log, IsKeyOf w modules w i e.key ∧ Kept w modules w' i e.commit := by
  obtain ⟨q, hq, rfl⟩ := List.mem_map.1 hi
  obtain ⟨e, he, hpush⟩ := exists_of_forall₂ h.pushed.flip hq
  obtain ⟨_, hkeeps, hall⟩ := hfollows.keeps
  have hmem := List.mem_append_left log (hsame.mem_iff.1 he)
  -- the commit is that of the first push of the ID, which is of the same module
  obtain ⟨first, hfirst, hid, hfind⟩ := hkeeps.find?_commits hmem
  have hequal := hapart.same (fun e he => (hall e he).1) hfirst hmem hid
  have hkey : IsKeyOf w modules w' q.1 first.key := hequal.key ▸ hpush.key
  obtain ⟨m, hm, hname, hanswer, hcommit⟩ := isKeyOf_key.1 hkey
  cases hm.symm.trans (h.places q hq)
  refine ⟨first, hfirst, isKeyOf_key.2 ⟨q.2, hm, hname, hanswer, hcommit⟩,
    ⟨q.2, hm, hname, ?_⟩, hanswer, ?_⟩
  · rw [Pushed.commit, hequal.files]
    exact hpush.files
  · rw [← hid] at hfind
    rw [show idOf first.commit.name first.commit.digest = first.id from hcommit.symm,
      Registry.commit?_of_find? hfind, if_pos rfl]

/-- The registry has all modules that come from it or were sent. -/
theorem exists_kept (hj : Covered modules picks j) : ∃ c, Kept w modules w' j c := by
  rcases hj with hremote | hsent
  · obtain ⟨c, _, hc⟩ := h.kept_remote hremote
    exact ⟨c, hc⟩
  · obtain ⟨e, _, _, he⟩ := h.exists_kept_sent hfollows hsame hapart hsent
    exact ⟨e.commit, he⟩

/-- The commit of a module that was sent depends on all that the module leads to, unless it was
pushed before with other dependencies. -/
theorem deps_of_kept (hearlier : PushedAlike w modules log i) (hi : i ∈ picks.map Prod.fst)
    {c : Commit} (hc : Kept w modules w' i c) : AreDepsOf w modules w' i c.deps := by
  obtain ⟨e, he, hkey, hkept⟩ := h.exists_kept_sent hfollows hsame hapart hi
  rw [hc.unique h.supplied.ids hkept]
  rcases List.mem_append.1 he with hnew | hold
  · obtain ⟨q, hq, hpush⟩ := exists_of_forall₂ h.pushed (hsame.mem_iff.2 hnew)
    rw [hkey.place_eq h.supplied.ids hpush.key rfl]
    exact hpush.deps
  · exact (hearlier e hold hkey).mono h.received.before

end Commits

end Taken

end Upload

end Schemata

import Schemata.Proofs.ModuleName
import Schemata.Proofs.Store.Finding

/-!
# What a push stores

A push that a registry accepts makes a commit of the module files among what was pushed and of the
digests of its dependencies. A push that is refused leaves the registry as it was.
-/

namespace Schemata.Registry

open Storage

variable {w w' : World} {name : ModuleName} {files : List (String × ByteArray)}
  {deps : List ModuleKey} {id : CommitId} {c : Commit}

/-! ### IDs of commits -/

/-- The text whose hash the ID of a commit is taken from. -/
def commitText (name : ModuleName) (x : Digest) : String := name.text ++ ":" ++ x.text

theorem commitText_inj {name' : ModuleName} {x x' : Digest}
    (h : commitText name x = commitText name' x') : name = name' ∧ x = x' := by
  have hcut (n : ModuleName) (y : Digest) :
      Text.cutFirst ':' (commitText n y).toList = some (n.text.toList, y.text.toList) :=
    Text.cutFirst_eq_some.2 ⟨by simp [commitText], n.not_mem_text (by decide) (by decide)⟩
  have hboth := hcut name x
  rw [h, hcut name' x', Option.some.injEq, Prod.mk.injEq, String.toList_inj, String.toList_inj]
    at hboth
  exact ⟨(ModuleName.text_injective hboth.1).symm, (Digest.text_injective hboth.2).symm⟩

/-- Half of a hash is the text of an ID. -/
theorem isCommitId_half (hash : ContentHash) :
    isCommitId (String.ofList (hash.text.toList.take 32)) = true := by
  have hlength : (hash.text.toList.take 32).length = 32 := by
    rw [List.length_take, hash.length_text]
    rfl
  rw [isCommitId, String.toList_ofList, hlength, List.all_eq_true.2 fun d hd => ?_]
  · rfl
  · rw [hash.toList_text] at hd
    exact ContentHash.isLowerHex_of_mem_encodeHex (List.mem_of_mem_take hd)

/-- The ID of the commit of a module with a digest. -/
def idOf (name : ModuleName) (x : Digest) : CommitId :=
  ⟨_, isCommitId_half (.ofText (commitText name x))⟩

theorem idFor_eq (name : ModuleName) (x : Digest) : idFor name x = .ok (idOf name x) := by
  have hparse (hash : ContentHash) : CommitId.parse (String.ofList (hash.text.toList.take 32)) =
      .ok ⟨_, isCommitId_half hash⟩ := dif_pos (isCommitId_half hash)
  unfold idFor
  simp only [hparse]
  rfl

/-! ### The commit of a push -/

/-- The content of the files that a bucket serves. -/
theorem contentsOf_serves {b : Bucket} {table : Table ByteArray} (hlive : w.live = true)
    (h : b.Serves w.volumes table) : contentsOf w b = .ok table.entries := by
  obtain ⟨infos, hlist, hkeys⟩ := h.lists
  refine bind_eq_ok.2 ⟨infos, mapError_eq_ok.2 ?_, mapM_eq_ok_of_keys hkeys ?_⟩
  · rw [hlive]
    exact hlist
  · intro info _ e he hpath
    refine bind_eq_ok.2 ⟨e.2, mapError_eq_ok.2 ?_, ?_⟩
    · rw [hlive, hpath]
      exact (h.reads e.1 e.2).2 he
    · rw [hpath]
      rfl

/-- A commit is made of the module files, the digests of the dependencies and the name. -/
theorem gives_commitFor : (commitFor name files deps).Gives w (id, c) w' ↔
    w.live = true ∧ name.registry = w.registry.host ∧ (∀ f ∈ files, IsObject f.1) ∧
      Manifest.Lists (Module.filesAmong (.ofList files)) ∧
      ∃ ds x, (deps.mapM ModuleKey.resolveDigest).Gives w ds w' ∧
        Digest.b5 (.ofFiles (Module.filesAmong (.ofList files))) ds = .ok x ∧
        idOf name x = id ∧ c = ⟨name, x, Module.filesAmong (.ofList files), deps⟩ := by
  obtain ⟨view, hview, hserves⟩ := Store.exists_view (.ofList files)
  have hcontents (cells : List (Memo Module.Error Digest)) (hlive : w.live = true) :
      contentsOf { w with cells := cells } view =
        .ok (Module.filesAmong (.ofList files)).entries :=
    contentsOf_serves (w := { w with cells := cells }) hlive (hserves w.store)
  constructor
  · intro h
    obtain ⟨⟨⟩, w₁, hcheck, h⟩ := Act.gives_bind.1 h
    obtain ⟨hlive, rfl⟩ := Act.live_of_gives hcheck
    obtain ⟨w₁, w₂, hget, h⟩ := Act.gives_bind.1 h
    cases hget
    simp only at h
    split at h
    · obtain ⟨_, _, hthrow, _⟩ := Act.gives_bind.1 h
      exact absurd hthrow Act.not_gives_throw
    rename_i hhost
    obtain ⟨objects, w₁, haccept, h⟩ := Act.gives_bind.1 h
    obtain ⟨hobjects, rfl⟩ := Act.gives_ofExcept.1 haccept
    obtain ⟨hpaths, rfl⟩ := Objects.ofFiles_eq_ok.1 (mapError_eq_ok.1 hobjects)
    obtain ⟨kept, w₁, hfilter, h⟩ := Act.gives_bind.1 h
    obtain ⟨hkept, rfl⟩ := Act.gives_ofWorld.1 hfilter
    obtain ⟨x, w₁, hdigest, h⟩ := Act.gives_bind.1 h
    obtain ⟨m, ds, hm, hds, hx⟩ := Delivery.gives_digestOf.1 hdigest
    obtain ⟨id', w₂, hname, h⟩ := Act.gives_bind.1 h
    obtain ⟨hid, rfl⟩ := Act.gives_ofExcept.1 hname
    rw [idFor_eq] at hid
    obtain ⟨content, w₂, hread, h⟩ := Act.gives_bind.1 h
    obtain ⟨hcontent, rfl⟩ := Act.gives_ofWorld.1 hread
    obtain ⟨heq, rfl⟩ := Act.gives_pure.1 h
    rw [hlive] at hkept hm
    cases hkept.symm.trans (hview w.store)
    obtain ⟨hlists, rfl⟩ := (Module.ofBucket_filesAmong (hview w.store)).1 hm
    obtain ⟨_, cells, rfl⟩ := ModuleKey.gives_digests hds
    rw [hcontents cells hlive] at hcontent
    cases hcontent
    cases heq
    refine ⟨hlive, not_not.1 hhost, hpaths, hlists, ds, x, hds, hx, Except.ok.inj hid, ?_⟩
    rw [Table.ofList_entries]
  · rintro ⟨hlive, hhost, hpaths, hlists, ds, x, hds, hx, rfl, rfl⟩
    have hkept : Module.filesOf w.volumes w.live (.objects (.ofList files)) = .ok view := by
      rw [hlive]
      exact hview w.store
    have hm : Manifest.ofBucket w.volumes w.live view =
        .ok (.ofFiles (Module.filesAmong (.ofList files))) := by
      rw [hlive]
      exact (Module.ofBucket_filesAmong (hview w.store)).2 ⟨hlists, rfl⟩
    obtain ⟨_, cells, rfl⟩ := ModuleKey.gives_digests hds
    refine Act.gives_bind.2 ⟨(), w, Act.gives_checkLive hlive, Act.gives_bind.2 ⟨w, w, rfl, ?_⟩⟩
    simp only
    rw [if_neg (not_not.2 hhost)]
    refine Act.gives_bind.2 ⟨_, w, Act.gives_ofExcept.2 ⟨mapError_eq_ok.2
      (Objects.ofFiles_eq_ok.2 ⟨hpaths, rfl⟩), rfl⟩, ?_⟩
    refine Act.gives_bind.2 ⟨view, w, Act.gives_ofWorld.2 ⟨hkept, rfl⟩, ?_⟩
    refine Act.gives_bind.2 ⟨x, _, Delivery.gives_digestOf.2 ⟨_, ds, hm, hds, hx⟩, ?_⟩
    refine Act.gives_bind.2 ⟨_, _, Act.gives_ofExcept.2 ⟨idFor_eq name x, rfl⟩, ?_⟩
    refine Act.gives_bind.2 ⟨_, _, Act.gives_ofWorld.2 ⟨hcontents cells hlive, rfl⟩, ?_⟩
    refine Act.gives_pure.2 ⟨?_, rfl⟩
    rw [Table.ofList_entries]

/-- Making a commit does not touch the registry. -/
theorem quiet_commitFor (name : ModuleName) (files : List (String × ByteArray))
    (deps : List ModuleKey) : (commitFor name files deps).Quiet := by
  unfold commitFor
  refine (Act.quiet_ofWorld _).bind fun _ => (Act.quiet_of_same fun _ => rfl).bind fun _ => ?_
  have hrest : (do
      let objects ← Act.ofExcept ((Objects.ofFiles files).mapError .storage)
      let kept ← Act.ofWorld fun w => Module.filesOf w.volumes w.live (.objects objects)
      let digest ← Delivery.digestOf kept deps
      let id ← Act.ofExcept (idFor name digest)
      let content ← Act.ofWorld fun w => contentsOf w kept
      return (id, ⟨name, digest, Table.ofList content, deps⟩) : Act (CommitId × Commit)).Quiet :=
    (Act.quiet_ofExcept _).bind fun _ => (Act.quiet_ofWorld _).bind fun _ =>
      (Delivery.quiet_digestOf _ _).bind fun _ => (Act.quiet_ofExcept _).bind fun _ =>
        (Act.quiet_ofWorld _).bind fun _ => Act.quiet_of_same fun _ => rfl
  simp only
  split
  · exact (Act.quiet_of_same fun _ => rfl).bind fun _ => hrest
  · exact hrest

/-! ### Pushes -/

/-- What is pushed: a module with files, the keys of its dependencies, and labels. -/
structure Push where
  name : ModuleName
  files : List (String × ByteArray)
  deps : List ModuleKey
  labels : List String

namespace Push

variable {p : Push}

def act (p : Push) : Act ModuleKey := push p.name p.files p.deps p.labels

/-- The files of the module that is pushed. -/
def moduleFiles (p : Push) : Table ByteArray := Module.filesAmong (.ofList p.files)

theorem act_eq (p : Push) : p.act = do
    let r ← commitFor p.name p.files p.deps
    modify fun w => { w with registry := w.registry.store r.1 r.2 p.labels }
    return Registry.keyOf r.1 r.2 := rfl

/-- A push that fails leaves the registry as it was. -/
theorem quiet_of_failure {e : Module.Error} (h : p.act.run w = (.error e, w')) :
    w.Before w' ∧ w'.registry = w.registry := by
  obtain ⟨hbefore, cells, hcells⟩ := quiet_commitFor p.name p.files p.deps w
  rw [act_eq] at h
  cases hrun : (commitFor p.name p.files p.deps).run w with
  | mk outcome w₁ =>
    cases outcome with
    | error cause =>
      rw [Act.run_bind_error hrun] at h
      cases h
      rw [hrun] at hbefore hcells
      refine ⟨hbefore, ?_⟩
      rw [show w' = { w with cells := cells } from hcells]
    | ok r =>
      rw [Act.run_bind hrun] at h
      cases h

end Push

/-- A push that succeeded: the digests of its dependencies, and the digest and ID of the commit. -/
structure Pushed where
  push : Push
  digests : List Digest
  digest : Digest
  id : CommitId

namespace Pushed

variable {e : Pushed}

/-- The key that is returned for the push. -/
def key (e : Pushed) : ModuleKey := ⟨e.push.name, e.id, .known e.digest⟩

def commit (e : Pushed) : Commit := ⟨e.push.name, e.digest, e.push.moduleFiles, e.push.deps⟩

/-- Whether a registry on a host accepts a push, and its digest and ID are made of what was
pushed. -/
structure Accepted (host : String) (e : Pushed) : Prop where
  host : e.push.name.registry = host
  paths : ∀ f ∈ e.push.files, IsObject f.1
  listed : Manifest.Lists e.push.moduleFiles
  digest : Digest.b5 (.ofFiles e.push.moduleFiles) e.digests = .ok e.digest
  id : idOf e.push.name e.digest = e.id

end Pushed

/-- What a push with these digests of its dependencies makes, if it is accepted. -/
def Push.pushed (p : Push) (ds : List Digest) : Pushed :=
  let x : Digest := ⟨.b5, .ofText (Digest.b5Text (.ofFiles p.moduleFiles) ds)⟩
  ⟨p, ds, x, idOf p.name x⟩

theorem Push.accepted {p : Push} {host : String} {ds : List Digest} (hhost : p.name.registry = host)
    (hpaths : ∀ f ∈ p.files, IsObject f.1) (hlisted : Manifest.Lists p.moduleFiles)
    (htypes : ∀ d ∈ ds, d.type = .b5) : (p.pushed ds).Accepted host :=
  ⟨hhost, hpaths, hlisted, Digest.b5_eq_ok.2 ⟨htypes, rfl⟩, rfl⟩

theorem Push.gives_act {p : Push} {key : ModuleKey} : p.act.Gives w key w' ↔
    w.live = true ∧ ∃ (e : Pushed) (w₁ : World), e.push = p ∧ e.Accepted w.registry.host ∧
      (p.deps.mapM ModuleKey.resolveDigest).Gives w e.digests w₁ ∧ key = e.key ∧
      w' = { w₁ with registry := w₁.registry.store e.id e.commit p.labels } := by
  rw [act_eq]
  constructor
  · intro h
    obtain ⟨⟨id, c⟩, w₁, hcommit, h⟩ := Act.gives_bind.1 h
    obtain ⟨⟨⟩, w₂, hstore, h⟩ := Act.gives_bind.1 h
    obtain ⟨rfl, rfl⟩ := Act.gives_pure.1 h
    obtain ⟨hlive, hhost, hpaths, hlists, ds, x, hds, hx, hid, rfl⟩ := gives_commitFor.1 hcommit
    cases hstore
    exact ⟨hlive, ⟨p, ds, x, id⟩, w₁, rfl, ⟨hhost, hpaths, hlists, hx, hid⟩, hds, rfl, rfl⟩
  · rintro ⟨hlive, e, w₁, rfl, haccepted, hds, rfl, rfl⟩
    refine Act.gives_bind.2 ⟨(e.id, e.commit), w₁, gives_commitFor.2 ⟨hlive, haccepted.host,
      haccepted.paths, haccepted.listed, e.digests, e.digest, hds, haccepted.digest,
      haccepted.id, rfl⟩, ?_⟩
    exact Act.gives_bind.2 ⟨(), _, rfl, Act.gives_pure.2 ⟨rfl, rfl⟩⟩

end Schemata.Registry

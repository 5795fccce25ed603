import Schemata.Proofs.Module.Tampering
import Schemata.Proofs.ModuleSet.Agreement
import Schemata.Proofs.ModuleSet.Build

/-!
# What the modules of a set serve

A remote module serves the files of a delivery that passed its verification while the set was
built: under the digest of the key that the delivery carries. Its own digest is that of the key it
was fetched for. The two keys have one name; a provider may deliver under another key of that name.
What is read later is not verified again.
-/

namespace Schemata

namespace ModuleKey

def withDigest (k : ModuleKey) (d : Digest) : ModuleKey := { k with digest := .known d }

theorem name_withDigest (k : ModuleKey) (d d' : Digest) :
    (k.withDigest d).name = (k.withDigest d').name := rfl

theorem commit_withDigest (k : ModuleKey) (d d' : Digest) :
    (k.withDigest d).commit = (k.withDigest d').commit := rfl

end ModuleKey

namespace Delivery

variable {w w₁ w₂ : World} {d : Delivery} {c : Contents} {x : Digest}

theorem Passed.found (h : d.Passed c x w₁ w₂ w) : d.key.Found w x := by
  obtain ⟨w₃, hkey, hdigest⟩ := h.verifies.digests
  obtain ⟨m, ds, _, hds, _⟩ := gives_digestOf.1 hdigest
  have hfound := ModuleKey.found_of_gives (h.keys d.key List.mem_cons_self) hkey
  exact hfound.mono ((ModuleKey.gives_digests hds).1.trans h.before)

end Delivery

namespace ModuleSet

/-- The digest of a fetched module of a new set is that of its key. -/
theorem digest_ofModules {modules : List Module} {i : Nat} {m : Module} {key : ModuleKey}
    {answer : Except Module.Error Digest} (hm : modules[i]? = some m)
    (horigin : m.origin = .fetched key answer) (w : World) :
    ((digest w i).on (ofModules modules)).1 = answer := by
  have hcell : (ofModules modules).digests[i]?.getD .unresolved = .unresolved := by
    show (modules.map fun _ => Memo.unresolved)[i]?.getD .unresolved = Memo.unresolved
    rw [List.getElem?_map, hm]
    rfl
  -- nothing was asked of a new set, so this is the first answer of the module
  let marked : ModuleSet :=
    { ofModules modules with digests := (ofModules modules).digests.set i .resolving }
  have hwithin : ∃ t, (digestWithin w (modules.length + 1) i).on (ofModules modules) =
      (answer, t) := by
    rw [digestWithin]
    refine ⟨_, @SetAct.on_once_unresolved _ _ marked _ _ _ _ hcell ?_⟩
    rw [SetAct.on_bind_ok (SetAct.on_get _)]
    simp only [ofModules, hm, horigin]
    exact SetAct.on_answer answer marked
  obtain ⟨t, hwithin⟩ := hwithin
  unfold digest
  rw [SetAct.on_bind_ok (SetAct.on_get _)]
  exact congrArg Prod.fst hwithin

theorem key?_of_origin {m : Module} {key : ModuleKey} {answer : Except Module.Error Digest}
    (h : m.origin = .fetched key answer) : m.key? = some key := by
  unfold Module.key?
  rw [h]

namespace Build

variable {w w₁ w' : World} {f : Fetched}

/-! ### The digests of remote modules -/

theorem eq_of_gives_localModules {locals : List LocalModule} {ls : List Module}
    (h : (locals.mapM localModule).Gives w ls w') : w' = w := by
  induction locals generalizing ls with
  | nil => exact (Act.gives_pure.1 h).2.symm
  | cons l locals ih =>
    rw [List.mapM_cons] at h
    obtain ⟨m, w₁, hm, h⟩ := Act.gives_bind.1 h
    obtain ⟨rest, w₂, hrest, h⟩ := Act.gives_bind.1 h
    obtain ⟨_, rfl⟩ := Act.gives_pure.1 h
    obtain ⟨_, rfl⟩ := Act.gives_ofWorld.1 hm
    exact ih hrest

theorem origin_of_gives_remoteModule (hf : ∀ d ∈ f.deliveries, ∃ c, Verified d c)
    {r : RemoteModule} {m : Module} (h : (remoteModule f r).Gives w m w') :
    (r.key.resolveDigest.run w).2 = w' ∧
      m.origin = .fetched r.key (r.key.resolveDigest.run w).1 := by
  rw [remoteModule] at h
  split at h
  · exact absurd h Act.not_gives_throw
  · rename_i d hd
    obtain ⟨⟨c, d₁⟩, w₁, hcontents, hrest⟩ := Act.gives_bind.1 h
    obtain ⟨c', hc'⟩ := hf d (List.mem_of_find?_eq_some hd)
    have hw₁ : w₁ = w := by
      rcases Delivery.gives_contents hcontents with ⟨_, _, hw⟩ | ⟨hcheck, _, _⟩
      · exact hw
      · cases hcheck.symm.trans hc'
    rw [hw₁] at hrest
    obtain ⟨digest, w₂, hdigest, hmodule⟩ := Act.gives_bind.1 hrest
    have hrun : r.key.resolveDigest.run w = (digest, w₂) := Act.gives_lift.1 hdigest
    obtain ⟨hm, rfl⟩ := Act.gives_ofWorld.1 hmodule
    rw [hrun]
    refine ⟨rfl, ?_⟩
    rcases untargetIfEmpty_eq_ok hm with rfl | ⟨rfl, _⟩
    · rfl
    · rfl

theorem origins_of_gives_finish (hf : ∀ d ∈ f.deliveries, ∃ c, Verified d c)
    {locals : List LocalModule} {s : ModuleSet} (h : (finish locals f).Gives w s w') :
    w.Before w' ∧ ∀ m ∈ s.modules, ∀ key, m.key? = some key → ∃ w₁, w.Before w₁ ∧
      (key.resolveDigest.run w₁).2.Before w' ∧
      m.origin = .fetched key (key.resolveDigest.run w₁).1 := by
  obtain ⟨ls, rs, w₁, hls, hrs, hmake⟩ := finish_steps h
  obtain rfl := eq_of_gives_localModules hls
  have hstep : ∀ r ∈ f.declared, (remoteModule f r).Later := by
    intro r _ v m v' hm
    rw [← (origin_of_gives_remoteModule hf hm).1]
    exact (ModuleKey.run_resolveDigest r.key v).1
  obtain ⟨hbefore, hall⟩ := Act.gives_mapM_between hstep hrs
  refine ⟨hbefore, fun m hm key hkey => ?_⟩
  rw [(make_eq_ok hmake).1] at hm
  rcases List.mem_append.1 hm with hm | hm
  · have hlocals : List.Forall₂ IsModuleOf locals ls :=
      (Act.gives_mapM hls).imp fun _ _ ⟨_, _, hm⟩ => gives_localModule hm
    have hmem : key ∈ ls.filterMap Module.key? := List.mem_filterMap.2 ⟨m, hm, hkey⟩
    rw [(of_localModules hlocals).2.1] at hmem
    exact absurd hmem List.not_mem_nil
  · obtain ⟨r, _, v, v', hv, hgives, hv'⟩ := exists_of_forall₂ hall hm
    obtain ⟨hworld, horigin⟩ := origin_of_gives_remoteModule hf hgives
    have hr : r.key = key := Option.some.inj ((key?_of_origin horigin).symm.trans hkey)
    subst hr
    rw [← hworld] at hv'
    exact ⟨v, hv, hv', horigin⟩

/-! ### The files of remote modules -/

open Delivery Storage

/-- The digest of the files without dependencies. -/
def petsAlone : Digest := ⟨.b5, ContentHash.ofText (Digest.b5Text (.ofFiles petFiles) [])⟩

def lonePets : ModuleKey := pets.withDigest petsAlone

/-- Delivers the one module that there is, whatever is asked for. -/
def shop (b : Bucket) : Provider := fun keys =>
  return keys.map fun _ => .sealed lonePets (.ok b) []

theorem faithful_shop (b : Bucket) : (shop b).Faithful := by
  intro keys w ds w' _ _ h
  obtain ⟨rfl, rfl⟩ := Act.gives_pure.1 h
  refine ⟨.refl w, fun d hd => ?_⟩
  obtain ⟨_, _, rfl⟩ := List.mem_map.1 hd
  refine sound_sealed fun k hk => ?_
  cases List.mem_singleton.1 hk
  exact ModuleKey.in_of_known rfl

theorem contents_shop {b : Bucket} (hlive : w.live = true)
    (hb : Module.HasFiles w.volumes w.live b petFiles) :
    ∃ files, Module.filesOf w.volumes w.live b = .ok files ∧
      (digestOf files []).Gives w petsAlone w ∧
      (Delivery.sealed lonePets (.ok b) []).contents.Gives w
        (⟨files, []⟩, ⟨lonePets, .ok b, [], .settled (.ok ⟨files, []⟩)⟩) w := by
  have hlists : Manifest.Lists petFiles := by decide +kernel
  obtain ⟨files, hview, hm⟩ := Module.ofBucket_of_hasFiles hb hlists
  have hdigest := (@Digest.b5_eq_ok (.ofFiles petFiles) [] _).2
    ⟨fun _ hd => absurd hd List.not_mem_nil, rfl⟩
  have hnone : (([] : List ModuleKey).mapM ModuleKey.resolveDigest).Gives w [] w := rfl
  have hfiles : (digestOf files []).Gives w petsAlone w :=
    gives_digestOf.2 ⟨_, [], hm, hnone, hdigest⟩
  have hkey : lonePets.resolveDigest.Gives w petsAlone w := ModuleKey.run_known rfl
  exact ⟨files, hview, hfiles, gives_contents_of_verify rfl
    (gives_verify.2 ⟨_, hlive, rfl, ⟨b, rfl, hview⟩, w, hkey, hfiles⟩)⟩

def sale (key : ModuleKey) (b files : Bucket) : Fetched :=
  ⟨[⟨key, false, [], []⟩], [⟨lonePets, .ok b, [], .settled (.ok ⟨files, []⟩)⟩], [key]⟩

theorem build_shop {b : Bucket} (hlive : w.live = true)
    (hb : Module.HasFiles w.volumes w.live b petFiles) {remotes : List RemoteModule}
    {key : ModuleKey} {y : Digest}
    (hdeclare : (declareAll [] [] remotes).Gives w [⟨key, false, [], []⟩] w)
    (hname : key.name = lonePets.name) (hkey : key.digest = .known y) :
    ∃ m, (gather (shop b) 1 [] remotes).Gives w (sale key b m.files) w ∧
      (ModuleSet.build (shop b) 1 [] remotes).Gives w (ofModules [m]) w ∧
      m.origin = .fetched key (.ok y) ∧ Module.filesOf w.volumes w.live b = .ok m.files ∧
      (digestOf m.files []).Gives w petsAlone w := by
  obtain ⟨files, hview, hfiles, hcontents⟩ := contents_shop hlive hb
  let f := sale key b files
  let m : Module :=
    { bucketId := "", name := some key.name, commit := some key.commit, label := none
      target := false, origin := .fetched key (.ok y), files := files
      filter := ⟨[], [], none, false⟩, v1Config := none, v1Lock := none }
  have hchecks := Act.gives_checkLive hlive
  have hreceive : (receive [] ⟨[⟨key, false, [], []⟩], [], [key]⟩
      [.sealed lonePets (.ok b) []]).Gives w (f, []) w :=
    Act.gives_bind.2 ⟨_, w, hcontents, rfl⟩
  have hfetch : (fetch (shop b) [] 1 [key] ⟨[⟨key, false, [], []⟩], [], []⟩).Gives w f w := by
    rw [fetch_cons]
    exact Act.gives_bind.2 ⟨_, w, hchecks, Act.gives_bind.2 ⟨_, w, rfl,
      Act.gives_bind.2 ⟨_, w, hreceive, rfl⟩⟩⟩
  have hgather : (gather (shop b) 1 [] remotes).Gives w f w :=
    Act.gives_bind.2 ⟨_, w, hchecks, Act.gives_bind.2 ⟨_, w, rfl,
      Act.gives_bind.2 ⟨_, w, hdeclare, hfetch⟩⟩⟩
  have hremote : (remoteModule f ⟨key, false, [], []⟩).Gives w m w := by
    have hfind : f.deliveries.find? (fun d => d.key.name = key.name) =
        some ⟨lonePets, .ok b, [], .settled (.ok ⟨files, []⟩)⟩ :=
      List.find?_cons_of_pos (decide_eq_true hname.symm)
    have hopen : (⟨lonePets, .ok b, [], .settled (.ok ⟨files, []⟩)⟩ : Delivery).contents.Gives w
        (⟨files, []⟩, ⟨lonePets, .ok b, [], .settled (.ok ⟨files, []⟩)⟩) w :=
      Act.gives_bind.2 ⟨_, w, Act.gives_lift.2 (open?_settled rfl), rfl⟩
    rw [remoteModule, hfind]
    exact Act.gives_bind.2 ⟨_, w, hopen, Act.gives_bind.2 ⟨_, w,
      Act.gives_lift.2 (ModuleKey.run_known hkey), Act.gives_ofWorld.2 ⟨rfl, rfl⟩⟩⟩
  have hfinish : (finish [] f).Gives w (ofModules [m]) w :=
    Act.gives_bind.2 ⟨[], w, rfl, Act.gives_bind.2 ⟨[m], w,
      Act.gives_bind.2 ⟨m, w, hremote, rfl⟩, rfl⟩⟩
  exact ⟨m, hgather, Act.gives_bind.2 ⟨f, w, hgather, hfinish⟩, rfl, hview, hfiles⟩

/-- A digest other than that of the files in the shop. -/
@[irreducible]
def otherDigest : Digest :=
  if petsAlone = digestFilledWith .b5 0 then digestFilledWith .b5 1 else digestFilledWith .b5 0

theorem otherDigest_ne : otherDigest ≠ petsAlone := by
  unfold otherDigest
  split
  · rename_i h
    rw [h]
    decide
  · rename_i h
    exact Ne.symm h

/-- The key that the shop has, and one of its name with another digest. -/
def sold : RemoteModule := ⟨lonePets, false, [], []⟩
def wanted : RemoteModule := ⟨pets.withDigest otherDigest, false, [], []⟩

/-- A store with the files of the module at its root, and the store after a file was replaced. -/
def shelf : World := { World.empty with store := .table petFiles }
end Build

end ModuleSet

end Schemata

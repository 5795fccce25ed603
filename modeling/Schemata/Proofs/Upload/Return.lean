import Schemata.Proofs.ModuleSet.Coverage
import Schemata.Proofs.Registry.Settling
import Schemata.Proofs.Upload.Taken

/-!
# Uploads that come back

A set that is built of a key that an upload returned has the module of this key and all that it
depends on, each as it was in the set that was uploaded from. No earlier commit of the same digest
may stand in the way with other dependencies, and what the key leads to has to be there without
conflicts.
-/

namespace Schemata

open Storage
open Relation (ReflTransGen)
open Schemata.Registry (Pushed Push Follows idOf)
open Schemata.ModuleSet (LeadsTo Sound Answer)

namespace Upload

variable {host : String} {log : List Pushed} {w w₁ w' : World} {s t : ModuleSet}
  {modules : List Module} {picks : Picks} {positions : List Nat} {labels : List String}
  {verify : Bool} {request : Request} {es : List Pushed} {keys : List ModuleKey} {i j : Nat}

/-! ### What keys lead to -/

/-- Whether the commits of remote modules depend on nothing but modules of the set that come from
the registry or are sent to it. Then no local module that stays behind or differs stands in for
what a commit depends on. -/
def Unshadowed (w : World) (modules : List Module) (picks : Picks) : Prop :=
  ∀ j c, RemoteAt modules j → Kept w modules w j c →
    ∀ k ∈ c.deps, ∃ l, Covered modules picks l ∧ IsKeyOf w modules w l k

/-- Keys of the commit that a module was fetched as are of this module. -/
theorem isKeyOf_of_fetched (hfollows : Follows host log w) {f : ModuleSet.Build.Fetched}
    {m : Module} {key k : ModuleKey} {c : Commit} (h : ModuleSet.Build.FetchedAs w f m key c)
    (hm : modules[j]? = some m) (hk : w.registry.commit? k.name k.commit = some c)
    (hfound : k.Found w c.digest) : IsKeyOf w modules w j k := by
  obtain ⟨hname, hcommit⟩ := hfollows.id_eq hk
  refine ⟨m, c.digest, hm, ?_, .fetched hm h.origin, hcommit, hfound⟩
  rw [h.name, ← (hfollows.id_eq h.commit).1, hname]

/-- In a set that is built from a registry, nothing stands in for what a remote module depends on,
if no local module has its name and the registry has all that its commits depend on. -/
theorem unshadowed_of_build {rounds : Nat} {locals : List LocalModule} {remotes : List RemoteModule}
    (hfollows : Follows host log w) (hremotes : ∀ r ∈ remotes, r.key.In w)
    (h : (ModuleSet.build Registry.provider rounds locals remotes).Gives w s w')
    (hheld : ∀ name id c, w.registry.commit? name id = some c → ∀ k ∈ c.deps,
      ∃ x, w.registry.commit? k.name k.commit = some x ∧ k.Found w x.digest)
    (hnames : ∀ m ∈ s.modules, ∀ key, m.key? = some key → ∀ c,
      w.registry.commit? key.name key.commit = some c → ∀ k ∈ c.deps,
        k.name ∉ ModuleSet.Build.namesOf locals) (picks : Picks) :
    Unshadowed w' s.modules picks := by
  obtain ⟨hconsulted, f, hdrawn⟩ := ModuleSet.Build.drawn_of_build hfollows hremotes h
  have hfollows' := hconsulted.follows hfollows
  have hids : (s.modules.map Module.id).Nodup := by
    obtain ⟨_, _, _, hfinish⟩ := Act.gives_bind.1 h
    obtain ⟨_, _, _, _, _, hmake⟩ := ModuleSet.Build.finish_steps hfinish
    obtain ⟨rfl, hids⟩ := ModuleSet.make_eq_ok hmake
    exact hids
  rintro j c ⟨m, key, digest, hm, ho⟩ hkept k hk
  have hmem := List.mem_of_getElem? hm
  have hkey := ModuleSet.key?_of_origin ho
  obtain ⟨c', hfetched⟩ := hdrawn.fetched m hmem key hkey
  have hthis := isKeyOf_of_fetched hfollows' hfetched hm hfetched.commit hfetched.found
  cases (hkept.of_key hids hthis).1.symm.trans hfetched.commit
  have hcommit := (hconsulted.commit? _ _).symm.trans hfetched.commit
  obtain ⟨x, hx, hfound⟩ := hheld _ _ c hcommit k hk
  obtain ⟨d, hd, contents, hverified, hdeps⟩ := hfetched.delivered
  have hx' := (hconsulted.commit? _ _).trans hx
  have hfound' := hfound.mono hconsulted.before
  obtain ⟨m', hm', key', hother⟩ := hdrawn.exists_fetched hfollows'
    ⟨hnames m hmem key hkey c hcommit k hk, .inr ⟨d, hd, contents, hverified, hdeps ▸ hk⟩⟩ hx' hfound'
  obtain ⟨l, hl⟩ := List.mem_iff_getElem?.1 hm'
  exact ⟨l, .inl ⟨m', key', _, hl, hother.origin⟩,
    isKeyOf_of_fetched hfollows' hother hl hx' hfound'⟩

namespace Taken

variable {pushes : List Pushed} (h : Taken host log w modules picks request es w')
  (hfollows : Follows host (pushes ++ log) w') (hsame : es.Perm pushes)
  (hapart : Registry.Apart (pushes ++ log))
  (hearlier : ∀ i ∈ picks.map Prod.fst, PushedAlike w modules log i)
  (hunshadowed : Unshadowed w modules picks)

include h hfollows hsame hapart hearlier hunshadowed

/-- All keys that the key of a module leads to are of modules, unless one that differs stands in
for them. -/
theorem led {key k : ModuleKey} (hi : i ∈ picks.map Prod.fst) (hkey : IsKeyOf w modules w' i key)
    (hled : ReflTransGen w'.registry.Declares key k) :
    ∃ j, Covered modules picks j ∧ IsKeyOf w modules w' j k := by
  induction hled with
  | refl => exact ⟨i, .inr hi, hkey⟩
  | tail _ hstep ih =>
    obtain ⟨j, hj, hkey⟩ := ih
    obtain ⟨c, hc, hdep⟩ := hstep
    rcases hj with hremote | hsent
    · obtain ⟨c', hbefore, hkept⟩ := h.kept_remote hremote
      cases hc.symm.trans (hkept.of_key h.supplied.ids hkey).1
      obtain ⟨l, hl, hdepKey⟩ := hunshadowed j c hremote hbefore _ hdep
      exact ⟨l, hl, hdepKey.mono h.received.before⟩
    · obtain ⟨c', hkept⟩ := h.exists_kept hfollows hsame hapart (.inr hsent)
      cases hc.symm.trans (hkept.of_key h.supplied.ids hkey).1
      obtain ⟨l, hl, hne, hdepKey⟩ :=
        (h.deps_of_kept hfollows hsame hapart (hearlier j hsent) hsent hkept).only _ hdep
      exact ⟨l, h.covered hsent hl hne, hdepKey⟩

theorem settled {key : ModuleKey} (hi : i ∈ picks.map Prod.fst)
    (hkey : IsKeyOf w modules w' i key) : key.Settled w' := by
  have hled {k : ModuleKey} := h.led hfollows hsame hapart hearlier hunshadowed hi hkey (k := k)
  constructor
  · intro k hk
    obtain ⟨j, hj, hkeyed⟩ := hled hk
    obtain ⟨c, hc⟩ := h.exists_kept hfollows hsame hapart hj
    exact ⟨c, hc.of_key h.supplied.ids hkeyed⟩
  · intro k k' hk hk' hname
    obtain ⟨j, _, hkeyed⟩ := hled hk
    obtain ⟨j', _, hkeyed'⟩ := hled hk'
    exact hkeyed.commit_eq h.supplied.ids hkeyed' hname

end Taken

/-! ### Modules that come back -/

/-- Whether a module of a set is in another set too, with its name, its files and its digest. -/
def FoundAgain (w : World) (s : ModuleSet) (j : Nat) (w' : World) (s' : ModuleSet) : Prop :=
  ∃ j' m m' name files d, s.modules[j]? = some m ∧ s'.modules[j']? = some m' ∧
    m.name = some name ∧ m'.name = some name ∧ m.ConsistsOf w files ∧ m'.ConsistsOf w' files ∧
    ((ModuleSet.digest w j).on s).1 = .ok d ∧ ((ModuleSet.digest w' j').on s').1 = .ok d

/-- What can be fetched with a key that was returned for a module of a set. -/
structure Returned (log : List Pushed) (w : World) (s : ModuleSet) (picks : Picks) (w' : World)
    (i : Nat) (key : ModuleKey) : Prop where
  /-- A set of the key alone has the module and, unless the commit was there before with other
  dependencies, all that it depends on. -/
  contained : ∃ deps t, (ModuleSet.dependencies w i).on s = (.ok deps, t) ∧
    ∀ rounds target s' w'',
      (ModuleSet.build Registry.provider rounds [] [⟨key, target, [], []⟩]).Gives w' s' w'' →
        FoundAgain w s i w'' s' ∧ (PushedAlike w s.modules log i →
          ∀ dep ∈ deps, FoundAgain w s dep.position w'' s')
  built : key.Settled w' → ∀ target, ∃ s' w'',
    (ModuleSet.build Registry.provider w'.fetchRounds [] [⟨key, target, [], []⟩]).Gives w' s' w''
  settled : (∀ q ∈ picks, PushedAlike w s.modules log q.1) → Unshadowed w s.modules picks →
    key.Settled w'

theorem Kept.foundAgain (hfollows : Follows host log w) (hlive : w.live = true)
    (hsupplied : Supplied w modules) (hs : Sound w modules [] s) {c : Commit}
    (h : Kept w modules w₁ j c) {s' : ModuleSet} (hoffers : ModuleSet.Build.Offers w' s' c) :
    FoundAgain w s j w' s' := by
  obtain ⟨m, hm, hname, hfiles⟩ := h.place
  obtain ⟨j', m', hm', hname', hfiles', hd'⟩ := hoffers
  obtain ⟨o, t, hon, _, ho⟩ := ModuleSet.on_digest hlive hsupplied.readable
    (fun m hm => (hsupplied.origins m hm).verified hfollows) hsupplied.ids hs
    (List.getElem?_eq_some_iff.1 hm).1
  refine ⟨j', m, m', c.name, c.files, c.digest, ?_, hm', hname, hname', hfiles, hfiles', ?_, hd'⟩
  · rw [hs.coherent.modules_eq, hm]
  · rw [hon]
    exact ho.unique hsupplied.ids h.answer

/-- The keys that an upload returns bring back what was uploaded, if the hash tells it apart from
all that was pushed before: a set of one of the keys alone has the module of this key and, unless
this was pushed before with other dependencies, all that it depends on, with the files and digests
that they had. Such a set is built if all that the key leads to can be fetched as one commit for
each name, as is so unless a module was pushed before with other dependencies or stands in for
another that a remote one depends on. -/
theorem returns_uploaded (hfollows : Follows host log w) (hbuilt : BuiltFrom host w modules)
    (hread : ∀ m ∈ modules, m.Readable w) (hs : Sound w modules [] s) {sent : Option Request}
    (hupload : upload toRegistry positions labels verify (w, s) = (⟨sent, .ok keys⟩, w', t)) :
    ∃ es : List Pushed, keys = es.map Pushed.key ∧
      (∃ pushes, es.Perm pushes ∧ Follows host (pushes ++ log) w') ∧
      List.Forall₂ (IsPushOf w modules w') (picksOf modules positions) es ∧
      (Registry.Apart (es ++ log) →
        List.Forall₂ (fun (q : Nat × Module) key =>
          Returned log w s (picksOf modules positions) w' q.1 key)
          (picksOf modules positions) keys) := by
  obtain ⟨hsupplied, hproper⟩ := supplied_of_built hbuilt hread
  obtain ⟨request, es, htaken, rfl⟩ := taken_of_upload hfollows hsupplied hproper hs hupload
  obtain ⟨pushes, hhistory, hsame⟩ := htaken.received.follows
  refine ⟨es, rfl, ⟨pushes, hsame, hhistory⟩, htaken.pushed, fun hapart => ?_⟩
  have hlive := live_of_upload hupload
  have hapart' : Registry.Apart (pushes ++ log) := fun e he e' he' =>
    hapart e ((hsame.append_right log).mem_iff.2 he) e' ((hsame.append_right log).mem_iff.2 he')
  have hkept {j : Nat} := htaken.exists_kept hhistory hsame hapart' (j := j)
  refine List.forall₂_map_right_iff.2 (((List.forall₂_and_left _ _).2
    ⟨fun q hq => hq, htaken.pushed⟩).imp fun q e ⟨hq, hpush⟩ => ?_)
  have hi : q.1 ∈ (picksOf modules positions).map Prod.fst := List.mem_map_of_mem hq
  obtain ⟨c, hc⟩ := hkept (.inr hi)
  obtain ⟨hcommit, hfound⟩ := hc.of_key hsupplied.ids hpush.key
  constructor
  case contained =>
    obtain ⟨deps, t, hon, _, _, hmem, _⟩ := ModuleSet.on_dependencies hlive hsupplied.readable
      hs.coherent (List.getElem?_eq_some_iff.1 (mem_picksOf.1 hq).2).1
    refine ⟨deps, t, hon, fun rounds target s' w'' hbuild => ?_⟩
    obtain ⟨_, hoffers, hoffersDeps⟩ :=
      ModuleSet.Build.offers_of_build hhistory hcommit hfound hbuild
    refine ⟨hc.foundAgain hfollows hlive hsupplied hs hoffers, fun hearlier dep hdep => ?_⟩
    rw [hs.coherent.modules_eq] at hearlier
    have hdeps := htaken.deps_of_kept hhistory hsame hapart' hearlier hi hc
    obtain ⟨hlead, hne⟩ := (hmem dep.position).1 (List.mem_map_of_mem hdep)
    obtain ⟨k, hk, hkey⟩ := hdeps.all dep.position hlead hne
    obtain ⟨x, hx⟩ := hkept (htaken.covered hi hlead hne)
    obtain ⟨hcommit, hfound⟩ := hx.of_key hsupplied.ids hkey
    exact hx.foundAgain hfollows hlive hsupplied hs (hoffersDeps k hk x hcommit hfound)
  case built =>
    have hlive' : w'.live = true := by
      obtain ⟨_, _, rfl⟩ := htaken.received.same
      exact hlive
    exact fun hsettled target => ModuleSet.Build.exists_build hhistory hlive' hsettled target
  case settled =>
    rw [hs.coherent.modules_eq]
    exact fun hearlier hunshadowed => htaken.settled hhistory hsame hapart'
      (List.forall_mem_map.2 hearlier) hunshadowed hi hpush.key

/-! ### A library that comes back -/

/-- A world in which nothing is known but what some registry has. -/
def startWith (r : Registry) : World := { World.empty with registry := r }

/-- The declaration of a local module with a name and some files. -/
def sourceOf (name : ModuleName) (files : List (String × String)) : LocalModule where
  bucket := (ModuleSet.workspaceModule name.text files).files
  bucketId := name.text
  target := true
  name := some name
  commit := none
  label := none
  filter := .all
  v1Config := none
  v1Lock := none

theorem gives_namedModule (r : Registry) (name : ModuleName) (files : List (String × String)) :
    (ModuleSet.Build.localModule (sourceOf name files)).Gives (startWith r) (namedModule name files)
      (startWith r) := by
  obtain ⟨view, hview, _⟩ := Store.exists_view
    ((Storage.Objects.ofFiles (files.map fun f => (f.1, f.2.toUTF8))).toOption.getD .empty)
  have hfiles : Module.filesOf World.empty.volumes true
      (ModuleSet.workspaceModule name.text files).files = .ok view := hview _
  refine Act.gives_ofWorld.2 ⟨bind_eq_ok.2 ⟨view, hfiles, ?_⟩, rfl⟩
  unfold namedModule
  simp only
  rw [hfiles]
  rfl

theorem proper_sourceOf (name : ModuleName) (files : List (String × String)) (volumes : Volumes) :
    (sourceOf name files).bucket.Proper volumes :=
  ModuleSet.proper_workspaceModule name.text files volumes

theorem built_appWithLib {r : Registry} (hfollows : Follows "r.com" log (startWith r)) :
    BuiltFrom "r.com" (startWith r) appWithLib := by
  let app := sourceOf appName [("app.schema", "import \"lib.schema\";")]
  let lib := sourceOf libName [("lib.schema", "message Lib \x7b\x7d")]
  have hgather : (ModuleSet.Build.gather Registry.provider 0 [app, lib] []).Gives (startWith r)
      ⟨[], [], []⟩ (startWith r) :=
    Act.gives_bind.2 ⟨(), _, Act.gives_checkLive rfl, Act.gives_bind.2 ⟨(), _,
      Act.gives_ofExcept.2 ⟨rfl, rfl⟩, Act.gives_bind.2 ⟨[], _, rfl, rfl⟩⟩⟩
  have hlocals : ([app, lib].mapM ModuleSet.Build.localModule).Gives (startWith r) appWithLib
      (startWith r) := by
    rw [List.mapM_cons]
    refine Act.gives_bind.2 ⟨_, _, gives_namedModule r appName _, Act.gives_bind.2 ⟨[_], _, ?_,
      Act.gives_pure.2 ⟨rfl, rfl⟩⟩⟩
    rw [List.mapM_cons]
    exact Act.gives_bind.2 ⟨_, _, gives_namedModule r libName _, Act.gives_bind.2 ⟨[], _, rfl,
      Act.gives_pure.2 ⟨rfl, rfl⟩⟩⟩
  have hfinish : (ModuleSet.Build.finish [app, lib] ⟨[], [], []⟩).Gives (startWith r)
      (.ofModules appWithLib) (startWith r) :=
    Act.gives_bind.2 ⟨_, _, hlocals, Act.gives_bind.2 ⟨[], _, rfl, Act.gives_ofExcept.2
      ⟨ModuleSet.make_of_nodup supplied_appWithLib.ids, rfl⟩⟩⟩
  refine ⟨log, startWith r, 0, [app, lib], [], _, startWith r, hfollows,
    fun _ hr => absurd hr List.not_mem_nil, ?_, Act.gives_bind.2 ⟨_, _, hgather, hfinish⟩, rfl,
    .refl _, rfl, rfl⟩
  exact List.forall_mem_cons.2 ⟨proper_sourceOf _ _ _,
    List.forall_mem_singleton.2 (proper_sourceOf _ _ _)⟩

theorem readable_appWithLib (r : Registry) : ∀ m ∈ appWithLib, m.Readable (startWith r) :=
  fun m hm => ⟨(supplied_appWithLib.readable m hm).listed, (supplied_appWithLib.readable m hm).read⟩

theorem not_remoteAt_appWithLib : ¬ RemoteAt appWithLib j := by
  rintro ⟨m, key, digest, hm, ho⟩
  have hlocal : ∀ m ∈ appWithLib, m.origin = .workspace :=
    List.forall_mem_cons.2 ⟨rfl, List.forall_mem_singleton.2 rfl⟩
  cases (hlocal m (List.mem_of_getElem? hm)).symm.trans ho

theorem apart_singleton (e : Pushed) : Registry.Apart [e] := by
  intro e₁ he₁ e₂ he₂ _
  rw [List.mem_singleton.1 he₁, List.mem_singleton.1 he₂]
  exact ⟨rfl, .of_same _ fun _ => Iff.rfl⟩

/-- The library of a workspace is uploaded, and a set is built of it alone. -/
theorem returns_lib : ∃ key sent w' t s' w'',
    upload toRegistry [1] [] true (startOf "r.com", ModuleSet.ofModules appWithLib) =
      (⟨sent, .ok [key]⟩, w', t) ∧
    (ModuleSet.build Registry.provider w'.fetchRounds [] [⟨key, true, [], []⟩]).Gives w' s' w'' ∧
    FoundAgain (startOf "r.com") (ModuleSet.ofModules appWithLib) 1 w'' s' := by
  have hstart : Follows "r.com" [] (startOf "r.com") := .start rfl
  have hsound := ModuleSet.sound_ofModules (startOf "r.com") appWithLib
  have hbatch : Batch (startOf "r.com") appWithLib "r.com" [1] := by
    refine ⟨List.forall_mem_singleton.2 ⟨_, libName, rfl, ⟨rfl, rfl⟩, rfl⟩, fun i hi j hij _ => ?_,
      fun i hi j hj h => h.2.2.1 ?_⟩
    · cases List.mem_singleton.1 hi
      cases (leadsTo_appWithLib.1 hij).1
    · rw [List.mem_singleton.1 hi, List.mem_singleton.1 hj]
  obtain ⟨keys, sent, w', t, hupload, hkeys⟩ := exists_upload hstart rfl supplied_appWithLib hsound
    hbatch (fun i hi => hasManifest_appWithLib i (List.mem_cons_of_mem _ hi)) [] true
  obtain ⟨es, rfl, _, hpushed, hreturned⟩ :=
    returns_uploaded hstart (built_appWithLib hstart) supplied_appWithLib.readable hsound hupload
  obtain ⟨e, rfl⟩ : ∃ e, es = [e] := List.length_eq_one_iff.1 hpushed.length_eq.symm
  rcases hreturned (apart_singleton e) with _ | ⟨hreturned, _⟩
  have hsettled := hreturned.settled (fun _ _ _ he => absurd he List.not_mem_nil)
    fun j c hj => absurd hj not_remoteAt_appWithLib
  obtain ⟨s', w'', hbuild⟩ := hreturned.built hsettled true
  obtain ⟨_, _, _, hcontained⟩ := hreturned.contained
  exact ⟨e.key, sent, w', t, s', w'', hupload, hbuild, (hcontained _ _ _ _ hbuild).1⟩

/-! ### A dependency of another name -/

/-- A module can be pushed with its files under any name, and with any dependencies. -/
theorem exists_accepted {m : Module} {files : Table ByteArray} (htrimmed : m.Trimmed w)
    (hfiles : m.ConsistsOf w files) (hlists : Manifest.Lists files) (name : ModuleName)
    (deps : List ModuleKey) (ds : List Digest) (htypes : ∀ d ∈ ds, d.type = .b5) :
    ∃ e : Pushed, e.push = ⟨name, files.entries, deps, []⟩ ∧ e.digests = ds ∧
      e.Accepted name.registry ∧ Digest.b5 (.ofFiles files) ds = .ok e.digest := by
  have hmodule : (⟨name, files.entries, deps, []⟩ : Push).moduleFiles = files := by
    rw [Push.moduleFiles, Table.ofList_entries, htrimmed.filesAmong hfiles]
  have haccepted : ((⟨name, files.entries, deps, []⟩ : Push).pushed ds).Accepted name.registry :=
    Registry.Push.accepted rfl
      (fun f hf => Path.validateObject_eq_ok.1 (hlists f.1 (List.mem_map_of_mem hf)).2)
      (hmodule.symm ▸ hlists) htypes
  refine ⟨_, rfl, rfl, haccepted, ?_⟩
  have hdigest := haccepted.digest
  rwa [show ((⟨name, files.entries, deps, []⟩ : Push).pushed ds).push.moduleFiles = files
    from hmodule] at hdigest

def copyName : ModuleName := ⟨"r.com", "acme", "copy", by decide⟩

theorem exists_files_appWithLib (hi : i ∈ [0, 1]) : ∃ m files, appWithLib[i]? = some m ∧
    m.origin = .workspace ∧ m.ConsistsOf (startOf "r.com") files ∧ Manifest.Lists files := by
  obtain ⟨m, _, hm, ho, hmanifest⟩ := hasManifest_appWithLib i hi
  obtain ⟨files, hfiles, hlists, _⟩ := Module.exists_consistsOf hmanifest
  exact ⟨m, files, hm, ho, hfiles, hlists⟩

/-- The digest of the first module is made of its files and the digest of the second one. -/
theorem answers_appWithLib {m₀ m₁ : Module} {files₀ files₁ : Table ByteArray} {x₀ x₁ : Digest}
    (hm₀ : appWithLib[0]? = some m₀) (hm₁ : appWithLib[1]? = some m₁)
    (ho₀ : m₀.origin = .workspace) (ho₁ : m₁.origin = .workspace)
    (hfiles₀ : m₀.ConsistsOf (startOf "r.com") files₀) (hlists₀ : Manifest.Lists files₀)
    (hfiles₁ : m₁.ConsistsOf (startOf "r.com") files₁) (hlists₁ : Manifest.Lists files₁)
    (h₀ : Digest.b5 (.ofFiles files₀) [x₁] = .ok x₀) (h₁ : Digest.b5 (.ofFiles files₁) [] = .ok x₁)
    (r : Registry) : Answer (startWith r) appWithLib 0 (.ok x₀) := by
  have hids := supplied_appWithLib.ids
  have hlib : Answer (startWith r) appWithLib 1 (.ok x₁) := by
    refine answer_of_digests hids hm₁ ho₁ (hfiles₁.ofBucket hlists₁)
      (fun _ hx => absurd hx List.not_mem_nil) (fun j hj _ => ?_) h₁
    cases (leadsTo_appWithLib.1 hj).1
  refine answer_of_digests hids hm₀ ho₀ (hfiles₀.ofBucket hlists₀)
    (List.forall_mem_singleton.2 ⟨1, leadsTo_appWithLib.2 ⟨rfl, rfl⟩, Nat.one_ne_zero, hlib⟩)
    (fun j hj _ => ?_) h₀
  rw [(leadsTo_appWithLib.1 hj).2]
  exact ⟨x₁, List.mem_singleton_self _, hlib⟩

/-- The first module was pushed before, with a copy of the second one in place of it. -/
theorem exists_renamed : ∃ (app copy : Pushed) (r : Registry),
    Follows "r.com" [app, copy] (startWith r) ∧
      app.push.name = appName ∧ app.push.deps = [copy.key] ∧
      copy.push.name = copyName ∧ copy.push.deps = [] ∧
      CommitsTo (startWith r) appWithLib 0 app.key := by
  obtain ⟨m₀, _, hm₀, ho₀, hfiles₀, hlists₀⟩ := exists_files_appWithLib List.mem_cons_self
  obtain ⟨m₁, _, hm₁, ho₁, hfiles₁, hlists₁⟩ :=
    exists_files_appWithLib (List.mem_cons_of_mem _ List.mem_cons_self)
  have htrimmed := supplied_appWithLib.trimmed
  obtain ⟨copy, hcopy, hnone, hcopyAccepted, hcopyDigest⟩ :=
    exists_accepted (htrimmed m₁ (List.mem_of_getElem? hm₁)) hfiles₁ hlists₁ copyName [] []
      fun _ hd => absurd hd List.not_mem_nil
  obtain ⟨app, happ, hone, happAccepted, happDigest⟩ :=
    exists_accepted (htrimmed m₀ (List.mem_of_getElem? hm₀)) hfiles₀ hlists₀ appName [copy.key]
      [copy.digest] (List.forall_mem_singleton.2 (Digest.type_of_b5 hcopyDigest))
  have hstart : Follows "r.com" [] (startOf "r.com") := .start rfl
  have hfirst := hstart.accept (e := copy) rfl hcopyAccepted (by
    rw [hcopy, hnone]
    exact .nil)
  have hsecond := hfirst.accept (e := app) rfl happAccepted (by
    rw [happ, hone]
    exact .cons (.inl rfl) .nil)
  have hanswer := answers_appWithLib hm₀ hm₁ ho₀ ho₁ hfiles₀ hlists₀ hfiles₁ hlists₁ happDigest
    hcopyDigest
  have hname : app.push.name = appName := congrArg Push.name happ
  refine ⟨app, copy, _, hsecond, hname, congrArg Push.deps happ, congrArg Push.name hcopy,
    congrArg Push.deps hcopy, m₀, appName, app.digest, hm₀, ⟨ho₀, ?_⟩, hanswer _, ?_⟩
  · cases hm₀
    rfl
  · rw [Pushed.key, ← happAccepted.id, hname]

/-- In a history of one push for each name, a key leads on to what was pushed with it. -/
theorem deps_of_declares {e : Pushed} {r : Registry} {k : ModuleKey}
    (hfollows : Follows host log w) (hgrown : w.registry.Grown r)
    (hnames : (log.map fun e => e.push.name).Nodup) (he : e ∈ log) (h : r.Declares e.key k) :
    k ∈ e.push.deps := by
  obtain ⟨c, hc, hdep⟩ := h
  obtain ⟨e', he', hname, rfl⟩ := hfollows.exists_earlier hgrown he hc
  rwa [List.inj_on_of_nodup_map hnames he' he hname] at hdep

/-- After the first push the key of the app leads to the copy and to nothing else. -/
theorem led_of_renamed {app copy : Pushed} {r : Registry}
    (hfollows : Follows host [app, copy] w) (hgrown : w.registry.Grown r)
    (happName : app.push.name = appName) (happ : app.push.deps = [copy.key])
    (hcopyName : copy.push.name = copyName) (hcopy : copy.push.deps = []) {k : ModuleKey}
    (h : ReflTransGen r.Declares app.key k) : k = app.key ∨ k = copy.key := by
  have hnames : ([app, copy].map fun e => e.push.name).Nodup := by
    rw [List.map_cons, List.map_singleton, happName, hcopyName]
    decide
  induction h with
  | refl => exact .inl rfl
  | tail _ hstep ih =>
    rcases ih with rfl | rfl
    · have hdep := deps_of_declares hfollows hgrown hnames List.mem_cons_self hstep
      rw [happ] at hdep
      exact .inr (List.mem_singleton.1 hdep)
    · have hdep := deps_of_declares hfollows hgrown hnames
        (List.mem_cons_of_mem _ (List.mem_singleton_self copy)) hstep
      rw [hcopy] at hdep
      exact absurd hdep List.not_mem_nil

/-- The first module depends on the library, but no set of the key that was returned for it has
the library, if the module was pushed before with a copy in its place. -/
theorem not_returns_appWithLib : ∃ log w, Follows "r.com" log w ∧ BuiltFrom "r.com" w appWithLib ∧
    (∀ m ∈ appWithLib, m.Readable w) ∧
    Sound w appWithLib [] (ModuleSet.ofModules appWithLib) ∧ ∃ key keys sent w' t,
      upload toRegistry [0, 1] [] true (w, ModuleSet.ofModules appWithLib) =
        (⟨sent, .ok (key :: keys)⟩, w', t) ∧ key.name = appName ∧
      (∃ deps t' dep, (ModuleSet.dependencies w 0).on (ModuleSet.ofModules appWithLib) =
        (.ok deps, t') ∧ dep ∈ deps ∧ dep.module.name = some libName) ∧
      ∀ rounds target s' w'',
        (ModuleSet.build Registry.provider rounds [] [⟨key, target, [], []⟩]).Gives w' s' w'' →
          ∀ m ∈ s'.modules, m.name ≠ some libName := by
  obtain ⟨app, copy, r, hfollows, happName, happ, hcopyName, hcopy, hcommits⟩ := exists_renamed
  have hbuilt := built_appWithLib hfollows
  have hread := readable_appWithLib r
  obtain ⟨hsupplied, hproper⟩ := supplied_of_built hbuilt hread
  have hsound := ModuleSet.sound_ofModules (startWith r) appWithLib
  obtain ⟨keys, sent, w', t, hupload, hkeys⟩ := exists_upload hfollows rfl hsupplied hsound
    ⟨batch_appWithLib.named, batch_appWithLib.closed, batch_appWithLib.apart⟩
    hasManifest_appWithLib [] true
  obtain ⟨request, es, htaken, _⟩ :=
    taken_of_upload hfollows hsupplied hproper hsound hupload
  rcases hkeys with _ | ⟨hkey, _⟩
  cases hkey.unique hsupplied.ids hcommits
  refine ⟨_, _, hfollows, hbuilt, hread, hsound, _, _, sent, w', t, hupload,
    happName, ?_, fun rounds target s' w'' hbuild m hm hlib => ?_⟩
  · obtain ⟨deps, t', hon, _, _, hmem, _, hat⟩ :=
      ModuleSet.on_dependencies rfl hsupplied.readable hsound.coherent (i := 0) (Nat.zero_lt_two)
    have hlead : 1 ∈ deps.map ModuleSet.Dependency.position :=
      (hmem 1).2 ⟨leadsTo_appWithLib.2 ⟨rfl, rfl⟩, Nat.one_ne_zero⟩
    obtain ⟨dep, hdep, hposition⟩ := List.mem_map.1 hlead
    have hmodule := (hat dep hdep).1
    rw [hposition] at hmodule
    refine ⟨deps, t', dep, hon, hdep, ?_⟩
    rw [← Option.some.inj hmodule]
    rfl
  · obtain ⟨k, hname, hled⟩ := ModuleSet.Build.led_of_build hbuild m hm
    rw [hlib] at hname
    have hk := Option.some.inj hname
    rcases led_of_renamed hfollows htaken.received.grown happName happ hcopyName hcopy hled with
      rfl | rfl
    · exact absurd (hk.trans happName) (by decide)
    · exact absurd (hk.trans hcopyName) (by decide)

end Upload

end Schemata

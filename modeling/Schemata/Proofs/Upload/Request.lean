import Schemata.Proofs.ModuleSet.OrderFree
import Schemata.Proofs.Module.Reading
import Schemata.Proofs.Store.Finding
import Schemata.Upload.Push

/-!
# What is sent for a module

A module is sent with the files that it consists of, and with a reference to each module that its
imports lead to: local ones by name, remote ones by their commit.
-/

namespace Schemata

open Storage

/-! ### The files of modules -/

namespace Module

variable {w : World} {m : Module} {files files' : Table ByteArray}

/-- Whether a module consists of some files: it lists and reads just these. -/
structure ConsistsOf (w : World) (m : Module) (files : Table ByteArray) : Prop where
  lists : ∃ infos, m.files.list w.volumes w.live "." = .ok infos ∧
    infos.map ObjectInfo.path = files.keys
  reads : ∀ e ∈ files.entries, m.files.read w.volumes w.live e.1 = .ok e.2

theorem ConsistsOf.unique (h : m.ConsistsOf w files) (h' : m.ConsistsOf w files') :
    files = files' := by
  obtain ⟨infos, hlist, hkeys⟩ := h.lists
  obtain ⟨infos', hlist', hkeys'⟩ := h'.lists
  cases hlist.symm.trans hlist'
  refine Table.eq_of_keys (hkeys.symm.trans hkeys') fun k v v' hmem hmem' => ?_
  exact Except.ok.inj ((h.reads _ hmem).symm.trans (h'.reads _ hmem'))

theorem ConsistsOf.ofBucket (h : m.ConsistsOf w files) (hlists : Manifest.Lists files) :
    Manifest.ofBucket w.volumes w.live m.files = .ok (.ofFiles files) :=
  ofBucket_of_reads h.lists h.reads hlists

theorem exists_consistsOf {manifest : Manifest}
    (h : Manifest.ofBucket w.volumes w.live m.files = .ok manifest) :
    ∃ files, m.ConsistsOf w files ∧ Manifest.Lists files ∧ Manifest.ofFiles files = manifest := by
  obtain ⟨files, hlist, hread, hlists, hmanifest⟩ := reads_of_ofBucket h
  exact ⟨files, ⟨hlist, hread⟩, hlists, hmanifest⟩

/-- All files of a module belong to one. -/
theorem Trimmed.filesAmong (h : m.Trimmed w) (hfiles : m.ConsistsOf w files) :
    filesAmong files = files := by
  obtain ⟨b, hb⟩ := h
  obtain ⟨hkinds, hdocs⟩ := Store.kinds_of_hasFiles (hasFiles_of_reads hb hfiles.lists hfiles.reads)
  exact filesAmong_eq_self hkinds hdocs

end Module

namespace Upload

open Schemata.ModuleSet (LeadsTo Sound)

variable {w : World} {m : Module} {files : Table ByteArray}

theorem filesOf_eq_ok (htrimmed : m.Trimmed w) (hread : m.Readable w)
    (hfiles : m.ConsistsOf w files) : filesOf w m = .ok files.entries := by
  obtain ⟨fs, hwalk⟩ := hread.listed
  obtain ⟨infos, hinfos, hpaths⟩ := Module.objects_of_walk hwalk
  obtain ⟨infos', hlist, hkeys⟩ := hfiles.lists
  cases (mapError_eq_ok.1 hinfos).symm.trans hlist
  refine bind_eq_ok.2 ⟨fs, hwalk, mapM_eq_ok_of_keys (hpaths.trans hkeys) ?_⟩
  intro f hf e he hpath
  have hlisted : e.1 ∈ m.paths w := (Module.mem_paths hwalk).2 ⟨f, hf, hpath⟩
  obtain ⟨f', content, hget⟩ :=
    Module.exists_get_of (fun _ _ _ => htrimmed.path_of_get) hread hlisted
  have hcontent := (hfiles.reads e he).symm.trans (Module.read_of_get hget)
  rw [hpath]
  exact bind_eq_ok.2 ⟨_, hget, congrArg Except.ok (Prod.ext rfl (Except.ok.inj hcontent).symm)⟩

/-! ### Steps of an upload -/

namespace UploadAct

variable {α β : Type} {p p' : World × ModuleSet} {s : ModuleSet}

/-- Whether an operation with a set in the world gives an answer and leaves another world and set. -/
def Gives (act : UploadAct α) (p : World × ModuleSet) (a : α) (p' : World × ModuleSet) : Prop :=
  act.run p = (.ok a, p')

theorem gives_pure {a b : α} : Gives (pure a) p b p' ↔ a = b ∧ p = p' := by
  constructor
  · intro h
    cases h
    exact ⟨rfl, rfl⟩
  · rintro ⟨rfl, rfl⟩
    rfl

theorem not_gives_throw {e : Error} {a : α} : ¬ Gives (throw e) p a p' := by
  intro h
  cases h

theorem gives_bind {x : UploadAct α} {f : α → UploadAct β} {b : β} :
    Gives (x >>= f) p b p' ↔ ∃ a p₁, x.Gives p a p₁ ∧ (f a).Gives p₁ b p' := by
  have hbind : (x >>= f).run p = ExceptT.bindCont f (x.run p).1 (x.run p).2 := rfl
  unfold Gives
  rw [hbind]
  obtain ⟨outcome, p₁⟩ := x.run p
  cases outcome with
  | error e =>
    constructor
    · intro h
      cases h
    · rintro ⟨_, _, h, _⟩
      cases h
  | ok a =>
    constructor
    · exact fun h => ⟨a, p₁, rfl, h⟩
    · rintro ⟨_, _, h, h'⟩
      cases h
      exact h'

theorem gives_answer {x : Except Error α} {a : α} :
    Gives (ExceptT.mk (pure x)) p a p' ↔ x = .ok a ∧ p = p' := by
  constructor
  · intro h
    exact ⟨congrArg Prod.fst h, congrArg Prod.snd h⟩
  · rintro ⟨rfl, rfl⟩
    rfl

theorem gives_inSet {ask : World → SetAct α} {a : α} :
    (inSet ask).Gives (w, s) a p' ↔ ∃ t, (ask w).on s = (.ok a, t) ∧ p' = (w, t) := by
  have hrun : (inSet ask).run (w, s) =
      (((ask w).on s).1.mapError .module, w, ((ask w).on s).2) := rfl
  unfold Gives
  rw [hrun]
  constructor
  · intro h
    obtain ⟨hfst, rfl⟩ := Prod.mk.inj h
    exact ⟨_, Prod.ext (mapError_eq_ok.1 hfst) rfl, rfl⟩
  · rintro ⟨t, hon, rfl⟩
    rw [hon]
    rfl

theorem gives_inWorld {act : ExceptT Error (StateM World) α} {a : α} :
    (inWorld act).Gives (w, s) a p' ↔ ∃ w', act.run w = (.ok a, w') ∧ p' = (w', s) := by
  have hrun : (inWorld act).run (w, s) = ((act.run w).1, (act.run w).2, s) := rfl
  unfold Gives
  rw [hrun]
  constructor
  · intro h
    obtain ⟨hfst, rfl⟩ := Prod.mk.inj h
    exact ⟨_, Prod.ext hfst rfl, rfl⟩
  · rintro ⟨w', hact, rfl⟩
    rw [hact]

theorem gives_checkLive {u : Unit} : checkLive.Gives p u p' ↔ p.1.live = true ∧ p = p' := by
  unfold checkLive
  rw [gives_bind]
  constructor
  · rintro ⟨_, _, hget, h⟩
    cases hget
    split at h
    · exact absurd h not_gives_throw
    · rename_i hlive
      exact ⟨by simpa using hlive, (gives_pure.1 h).2⟩
  · rintro ⟨hlive, rfl⟩
    refine ⟨p, p, rfl, ?_⟩
    rw [hlive]
    exact gives_pure.2 ⟨rfl, rfl⟩

variable {I : World × ModuleSet → Prop} {f : α → UploadAct β} {xs : List α}

/-- What holds all along of a row of steps, and of what each of them gives. -/
theorem spec_mapM {r : α → β → Prop} (hp : I p) (hf : ∀ x ∈ xs, ∀ p y p', I p →
      (f x).Gives p y p' → I p' ∧ r x y) {ys : List β} (h : Gives (xs.mapM f) p ys p') :
    I p' ∧ List.Forall₂ r xs ys := by
  induction xs generalizing p ys with
  | nil =>
    obtain ⟨rfl, rfl⟩ := gives_pure.1 h
    exact ⟨hp, .nil⟩
  | cons x xs ih =>
    obtain ⟨hx, hxs⟩ := List.forall_mem_cons.1 hf
    rw [List.mapM_cons] at h
    obtain ⟨y, p₁, hy, h⟩ := gives_bind.1 h
    obtain ⟨rest, p₂, hrest, h⟩ := gives_bind.1 h
    obtain ⟨rfl, rfl⟩ := gives_pure.1 h
    obtain ⟨hp₁, hxy⟩ := hx _ _ _ hp hy
    obtain ⟨hp', hall⟩ := ih hp₁ hxs hrest
    exact ⟨hp', .cons hxy hall⟩

/-- A row of steps succeeds if each does wherever the steps before it lead. -/
theorem exists_mapM {r : α → β → Prop} (hp : I p)
    (hf : ∀ x ∈ xs, ∀ p, I p → ∃ y p', (f x).Gives p y p' ∧ I p' ∧ r x y) :
    ∃ ys p', Gives (xs.mapM f) p ys p' ∧ I p' ∧ List.Forall₂ r xs ys := by
  induction xs generalizing p with
  | nil => exact ⟨[], p, gives_pure.2 ⟨rfl, rfl⟩, hp, .nil⟩
  | cons x xs ih =>
    obtain ⟨hx, hxs⟩ := List.forall_mem_cons.1 hf
    obtain ⟨y, p₁, hy, hp₁, hxy⟩ := hx p hp
    obtain ⟨ys, p', hys, hp', hall⟩ := ih hp₁ hxs
    refine ⟨y :: ys, p', ?_, hp', .cons hxy hall⟩
    rw [List.mapM_cons]
    exact gives_bind.2 ⟨y, p₁, hy, gives_bind.2 ⟨ys, p', hys, gives_pure.2 ⟨rfl, rfl⟩⟩⟩

end UploadAct

/-! ### References to dependencies -/

/-- How one of some modules is referred to: by name if it is local and sent too, and else by its
commit. -/
inductive RefersTo (modules : List Module) (sent : List ModuleName) (j : Nat) : Dependency → Prop
  | sibling {m : Module} {name : ModuleName} (hm : modules[j]? = some m)
    (ho : m.origin = .workspace) (hname : m.name = some name) (hsent : name ∈ sent) :
    RefersTo modules sent j (.sibling name)
  | commit {m : Module} {key : ModuleKey} {digest : Except Module.Error Digest}
    (hm : modules[j]? = some m) (ho : m.origin = .fetched key digest) :
    RefersTo modules sent j (.commit key.name key.commit)

variable {modules : List Module} {sent : List ModuleName} {s : ModuleSet} {i j : Nat}

theorem dependencyOf_eq_ok {dependency : Module} {d : Dependency}
    (hj : modules[j]? = some dependency) :
    dependencyOf sent m dependency = .ok d ↔ RefersTo modules sent j d := by
  unfold dependencyOf Module.key?
  constructor
  · intro h
    cases ho : dependency.origin with
    | fetched key digest =>
      rw [ho] at h
      cases h
      exact .commit hj ho
    | workspace =>
      rw [ho] at h
      simp only at h
      split at h
      · cases h
      · rename_i name hname
        split at h
        · rename_i hsent
          cases h
          exact .sibling hj ho hname (List.contains_iff_mem.1 hsent)
        · cases h
  · intro h
    cases h with
    | sibling hm ho hname hsent =>
      cases hj.symm.trans hm
      simp only [ho, hname]
      exact if_pos (List.contains_iff_mem.2 hsent)
    | commit hm ho =>
      cases hj.symm.trans hm
      simp only [ho]

/-! ### The content of a module -/

/-- Whether a content is that of a module in a set: its files, and references to all modules that
its imports lead to, and to no others. -/
structure Describes (w : World) (modules : List Module) (sent : List ModuleName) (i : Nat)
    (m : Module) (name : ModuleName) (c : Content) : Prop where
  name : c.name = name
  files : filesOf w m = .ok c.files
  refers : ∀ d ∈ c.deps, ∃ j, LeadsTo w modules i j ∧ j ≠ i ∧ RefersTo modules sent j d
  complete : ∀ j, LeadsTo w modules i j → j ≠ i → ∃ d ∈ c.deps, RefersTo modules sent j d

/-- Whether the world is a given one, and the set in it is right. -/
def Steady (w : World) (modules : List Module) (p : World × ModuleSet) : Prop :=
  p.1 = w ∧ Sound w modules [] p.2

section Contents

variable (hlive : w.live = true) (hread : ∀ m ∈ modules, m.Readable w)

include hlive hread

theorem spec_contentOf (hi : modules[i]? = some m) {name : ModuleName} {p p' : World × ModuleSet}
    (hp : Steady w modules p) {c : Content} (h : (contentOf sent i m name).Gives p c p') :
    Steady w modules p' ∧ Describes w modules sent i m name c := by
  obtain ⟨w, s⟩ := p
  obtain ⟨rfl, hs⟩ := hp
  obtain ⟨_, _, hcheck, h⟩ := UploadAct.gives_bind.1 h
  obtain ⟨_, rfl⟩ := UploadAct.gives_checkLive.1 hcheck
  obtain ⟨files, _, hask, h⟩ := UploadAct.gives_bind.1 h
  obtain ⟨t, hon, rfl⟩ := UploadAct.gives_inSet.1 hask
  rw [SetAct.on_answer] at hon
  obtain ⟨hfiles, rfl⟩ := Prod.mk.inj hon
  obtain ⟨found, _, hask, h⟩ := UploadAct.gives_bind.1 h
  obtain ⟨t, hon, rfl⟩ := UploadAct.gives_inSet.1 hask
  obtain ⟨deps, t', hdeps, hcoherent, hdigests, hmem, _, hat⟩ :=
    ModuleSet.on_dependencies hlive hread hs.coherent (List.getElem?_eq_some_iff.1 hi).1
  obtain ⟨heq, rfl⟩ := Prod.mk.inj (hon.symm.trans hdeps)
  cases heq
  obtain ⟨refs, _, hask, h⟩ := UploadAct.gives_bind.1 h
  obtain ⟨hrefs, rfl⟩ := UploadAct.gives_answer.1 hask
  obtain ⟨rfl, rfl⟩ := UploadAct.gives_pure.1 h
  refine ⟨⟨rfl, hs.of_digests hcoherent hdigests⟩, rfl, hfiles, fun d hd => ?_, fun j hj hne => ?_⟩
  · obtain ⟨dep, hdep, hd⟩ := exists_of_forall₂ (mapM_eq_ok.1 hrefs) (mem_sortedSetBy.1 hd)
    have hlead := (hmem dep.position).1 (List.mem_map_of_mem hdep)
    exact ⟨dep.position, hlead.1, hlead.2, (dependencyOf_eq_ok (hat dep hdep).1).1 hd⟩
  · obtain ⟨dep, hdep, rfl⟩ := List.mem_map.1 ((hmem j).2 ⟨hj, hne⟩)
    obtain ⟨d, hd, hdepd⟩ := exists_of_mem_mapM hrefs hdep
    exact ⟨d, mem_sortedSetBy.2 hd, (dependencyOf_eq_ok (hat dep hdep).1).1 hdepd⟩

theorem exists_contentOf (hi : modules[i]? = some m) (name : ModuleName)
    {p : World × ModuleSet} (hp : Steady w modules p)
    (hfiles : ∃ files, filesOf w m = .ok files)
    (hdeps : ∀ j, LeadsTo w modules i j → j ≠ i → ∃ d, RefersTo modules sent j d) :
    ∃ c p', (contentOf sent i m name).Gives p c p' := by
  obtain ⟨w, s⟩ := p
  obtain ⟨rfl, hs⟩ := hp
  obtain ⟨files, hfiles⟩ := hfiles
  obtain ⟨deps, t, hon, _, _, hmem, _, hat⟩ :=
    ModuleSet.on_dependencies hlive hread hs.coherent (List.getElem?_eq_some_iff.1 hi).1
  have hrefs : ∀ dep ∈ deps, ∃ d, dependencyOf sent m dep.module = .ok d := by
    intro dep hdep
    obtain ⟨hlead, hne⟩ := (hmem dep.position).1 (List.mem_map_of_mem hdep)
    obtain ⟨d, hd⟩ := hdeps dep.position hlead hne
    exact ⟨d, (dependencyOf_eq_ok (hat dep hdep).1).2 hd⟩
  obtain ⟨refs, hrefs⟩ := exists_mapM_eq_ok hrefs
  refine ⟨⟨name, files, sortedSetBy Dependency.key refs, m.v1Config, m.v1Lock⟩, (w, t), ?_⟩
  refine UploadAct.gives_bind.2 ⟨(), (w, s), UploadAct.gives_checkLive.2 ⟨hlive, rfl⟩, ?_⟩
  refine UploadAct.gives_bind.2 ⟨files, (w, s), UploadAct.gives_inSet.2 ⟨s, ?_, rfl⟩, ?_⟩
  · rw [SetAct.on_answer, hfiles]
  refine UploadAct.gives_bind.2 ⟨deps, (w, t), UploadAct.gives_inSet.2 ⟨t, hon, rfl⟩, ?_⟩
  refine UploadAct.gives_bind.2 ⟨refs, (w, t), UploadAct.gives_answer.2 ⟨hrefs, rfl⟩, ?_⟩
  exact UploadAct.gives_pure.2 ⟨rfl, rfl⟩

end Contents

/-! ### Requests -/

/-- Whether a module may be sent, under a name. -/
def SentAs (m : Module) (name : ModuleName) : Prop :=
  m.origin = .workspace ∧ m.name = some name

theorem nameOf_eq_ok {name : ModuleName} : nameOf m = .ok name ↔ SentAs m name := by
  unfold nameOf Module.isLocal SentAs
  cases m.origin with
  | fetched key digest => simp
  | workspace =>
    cases m.name with
    | none => simp
    | some n => simp

theorem length_sortedSet_le {xs : List String} {x : String} (h : ∀ y ∈ xs, y = x) :
    (sortedSet xs).length ≤ 1 := by
  have hsub : sortedSet xs ⊆ [x] := fun y hy => List.mem_singleton.2 (h y (mem_sortedSet.1 hy))
  exact (List.subperm_of_subset (nodup_sortedSet xs) hsub).length_le

theorem namesOf_eq_ok {ms : List Module} {names : List ModuleName} :
    namesOf ms = .ok names ↔
      List.Forall₂ SentAs ms names ∧ ¬ (sortedSet (names.map ModuleName.registry)).length > 1 := by
  have hnames : ms.mapM nameOf = .ok names ↔ List.Forall₂ SentAs ms names := by
    rw [mapM_eq_ok]
    exact ⟨fun h => h.imp fun _ _ => nameOf_eq_ok.1, fun h => h.imp fun _ _ => nameOf_eq_ok.2⟩
  unfold namesOf
  rw [bind_eq_ok]
  constructor
  · rintro ⟨found, hfound, h⟩
    simp only at h
    split at h
    · cases h
    · rename_i hone
      cases h
      exact ⟨hnames.1 hfound, hone⟩
  · rintro ⟨hall, hone⟩
    refine ⟨names, hnames.2 hall, ?_⟩
    simp only
    rw [if_neg hone]
    rfl

/-- Some modules of a set with their positions. -/
abbrev Picks := List (Nat × Module)

/-- The names that modules are sent under. -/
def sentNames (picks : Picks) : List ModuleName := picks.filterMap fun q => q.2.name

theorem sentNames_eq {picks : Picks} {names : List ModuleName}
    (h : List.Forall₂ SentAs (picks.map Prod.snd) names) : sentNames picks = names := by
  induction picks generalizing names with
  | nil =>
    cases h
    rfl
  | cons q picks ih =>
    cases h with
    | cons hq hrest => rw [sentNames, List.filterMap_cons, hq.2, ← ih hrest]; rfl

/-- Whether a request has the contents of some modules, in order. -/
def Requests (w : World) (modules : List Module) (picks : Picks) (r : Request) : Prop :=
  List.Forall₂ (fun (q : Nat × Module) c => ∃ name, SentAs q.2 name ∧
    Describes w modules (sentNames picks) q.1 q.2 name c) picks r.contents

section Requests

variable (hlive : w.live = true) (hread : ∀ m ∈ modules, m.Readable w) {picks : Picks}
  (hpicks : ∀ q ∈ picks, modules[q.1]? = some q.2) {p : World × ModuleSet}
  (hp : Steady w modules p)

include hlive hread hpicks hp

theorem spec_requestFor {labels : List String} {r : Request} {p' : World × ModuleSet}
    (h : (requestFor picks labels).Gives p r p') :
    Steady w modules p' ∧ r.labels = sortedSet labels ∧ Requests w modules picks r := by
  obtain ⟨names, _, hask, h⟩ := UploadAct.gives_bind.1 h
  obtain ⟨hnames, rfl⟩ := UploadAct.gives_answer.1 hask
  obtain ⟨contents, p₁, hcontents, h⟩ := UploadAct.gives_bind.1 h
  obtain ⟨rfl, rfl⟩ := UploadAct.gives_pure.1 h
  have hsent := (namesOf_eq_ok.1 hnames).1
  have hnames := sentNames_eq hsent
  obtain ⟨hp', hall⟩ := UploadAct.spec_mapM (I := Steady w modules)
    (r := fun (x : (Nat × Module) × ModuleName) c =>
      Describes w modules names x.1.1 x.1.2 x.2 c) hp
    (fun x hx p c p' hp hc => spec_contentOf hlive hread (hpicks _ (List.of_mem_zip hx).1) hp hc)
    hcontents
  refine ⟨hp', rfl, ?_⟩
  unfold Requests
  rw [hnames]
  exact forall₂_zip (List.forall₂_map_left_iff.1 hsent) (f := id) (by rwa [List.map_id])

theorem exists_requestFor {host : String} (labels : List String)
    (hsent : ∀ q ∈ picks, ∃ name, SentAs q.2 name ∧ name.registry = host)
    (hfiles : ∀ q ∈ picks, ∃ files, filesOf w q.2 = .ok files)
    (hdeps : ∀ q ∈ picks, ∀ j, LeadsTo w modules q.1 j → j ≠ q.1 →
      ∃ d, RefersTo modules (sentNames picks) j d) :
    ∃ r p', (requestFor picks labels).Gives p r p' := by
  have hnames : ∀ m ∈ picks.map Prod.snd, ∃ name, nameOf m = .ok name := by
    intro m hm
    obtain ⟨q, hq, rfl⟩ := List.mem_map.1 hm
    obtain ⟨name, hname, _⟩ := hsent q hq
    exact ⟨name, nameOf_eq_ok.2 hname⟩
  obtain ⟨names, hnames⟩ := exists_mapM_eq_ok hnames
  have hall : List.Forall₂ SentAs (picks.map Prod.snd) names :=
    (mapM_eq_ok.1 hnames).imp fun _ _ => nameOf_eq_ok.1
  have hhost : ∀ x ∈ names.map ModuleName.registry, x = host := by
    intro x hx
    obtain ⟨name, hname, rfl⟩ := List.mem_map.1 hx
    obtain ⟨m, hm, hname⟩ := exists_of_forall₂ hall hname
    obtain ⟨q, hq, rfl⟩ := List.mem_map.1 hm
    obtain ⟨name', hname', hhost⟩ := hsent q hq
    cases hname.2.symm.trans hname'.2
    exact hhost
  have hdeps' : ∀ q ∈ picks, ∀ j, LeadsTo w modules q.1 j → j ≠ q.1 →
      ∃ d, RefersTo modules names j d := by
    rw [← sentNames_eq hall]
    exact hdeps
  obtain ⟨contents, p', hcontents, _⟩ := UploadAct.exists_mapM (I := Steady w modules)
    (f := fun (x : (Nat × Module) × ModuleName) => contentOf names x.1.1 x.1.2 x.2)
    (r := fun x c => Describes w modules names x.1.1 x.1.2 x.2 c)
    hp fun x (hx : x ∈ picks.zip names) p hp => by
      have hq := (List.of_mem_zip hx).1
      obtain ⟨c, p', hc⟩ := exists_contentOf hlive hread (hpicks _ hq) x.2 hp (hfiles _ hq)
        (hdeps' _ hq)
      exact ⟨c, p', hc, spec_contentOf hlive hread (hpicks _ hq) hp hc⟩
  refine ⟨⟨contents, sortedSet labels⟩, p', UploadAct.gives_bind.2 ⟨names, p, ?_, ?_⟩⟩
  · exact UploadAct.gives_answer.2 ⟨namesOf_eq_ok.2 ⟨hall,
      Nat.not_lt.2 (length_sortedSet_le hhost)⟩, rfl⟩
  · exact UploadAct.gives_bind.2 ⟨contents, p', hcontents, UploadAct.gives_pure.2 ⟨rfl, rfl⟩⟩

end Requests

end Upload

end Schemata

import Schemata.Proofs.ModuleSet.Build
import Schemata.Proofs.ModuleSet.Memory
import Schemata.Proofs.Upload.Push

/-!
# What an upload sends and what it takes back

An upload asks its client once at most, and only with a request for modules that may be sent
together. What comes back is taken as a whole or not at all: each receipt has to be for the module
in its place, and to have its digest if that is wanted.
-/

namespace Schemata

namespace ModuleSet

/-- Whether a set is one that was built, apart from what was found out since. -/
structure Proper (s : ModuleSet) : Prop where
  tidy : s.Tidy
  ids : (s.modules.map Module.id).Nodup
  named : ∀ m ∈ s.modules, ∀ key, m.key? = some key → m.name = some key.name

open Build in
theorem proper_of_build {w w' : World} {provider : Provider} {rounds : Nat}
    {locals : List LocalModule} {remotes : List RemoteModule} {s : ModuleSet}
    (h : (ModuleSet.build provider rounds locals remotes).Gives w s w') : s.Proper where
  tidy := by
    obtain ⟨f, w₁, _, hfinish⟩ := Act.gives_bind.1 h
    obtain ⟨ls, rs, w₂, _, _, hmake⟩ := finish_steps hfinish
    rw [(make_eq_ok hmake).1]
    exact tidy_ofModules _
  ids := nodup_ids_of_gives_build h
  named := by
    obtain ⟨f, w₁, _, hfinish⟩ := Act.gives_bind.1 h
    obtain ⟨ls, rs, hfinished⟩ := gives_finish hfinish
    intro m hm key hkey
    obtain ⟨r, _, rfl, hr⟩ := hfinished.fetched hm hkey
    exact hr.name

theorem Proper.later {s t : ModuleSet} (hs : s.Proper) (h : s.Before t) : t.Proper where
  tidy := h.tidy hs.tidy
  ids := h.modules ▸ hs.ids
  named := h.modules ▸ hs.named

end ModuleSet

namespace Upload

open Schemata.ModuleSet (Proper)

variable {α : Type} {w : World} {s t : ModuleSet} {sent : List ModuleName} {i j : Nat}

/-! ### References to different modules -/

theorem Dependency.key_injective : Function.Injective Dependency.key := by
  intro a b h
  cases a with
  | sibling n =>
    cases b with
    | sibling n' => rw [ModuleName.key_injective (List.cons.inj h).2]
    | commit n' id => exact absurd (List.cons.inj h).1 (by decide)
  | commit n id =>
    cases b with
    | sibling n' => exact absurd (List.cons.inj h).1 (by decide)
    | commit n' id' =>
      obtain ⟨hname, hid⟩ := List.append_inj (List.cons.inj h).2 rfl
      rw [ModuleName.key_injective hname, CommitId.text_injective (List.cons.inj hid).1]

/-- What refers to one module refers to no other. -/
theorem RefersTo.inj (hs : s.Proper) {d : Dependency} (h : RefersTo s.modules sent i d)
    (h' : RefersTo s.modules sent j d) : i = j := by
  cases h with
  | sibling hm _ hname =>
    cases h' with
    | sibling hm' _ hname' => exact eq_of_names hs.ids hm hm' hname hname'
  | @commit m key digest hm ho =>
    have hname := hs.named m (List.mem_of_getElem? hm) key (by rw [Module.key?, ho])
    generalize hn : key.name = n at h' hname
    generalize key.commit = c at h'
    cases h' with
    | @commit m' key' digest' hm' ho' =>
      have hname' := hs.named m' (List.mem_of_getElem? hm') key' (by rw [Module.key?, ho'])
      exact eq_of_names hs.ids hm hm' hname hname'

theorem nodup_refs (hs : s.Proper) {positions : List Nat} {refs : List Dependency}
    (hnodup : positions.Nodup) (h : List.Forall₂ (RefersTo s.modules sent) positions refs) :
    refs.Nodup := by
  induction h with
  | nil => exact .nil
  | @cons j r positions refs hj hrest ih =>
    obtain ⟨hfirst, hothers⟩ := List.nodup_cons.1 hnodup
    refine List.nodup_cons.2 ⟨fun hmem => ?_, ih hothers⟩
    obtain ⟨k, hk, hkr⟩ := exists_of_forall₂ hrest hmem
    exact hfirst (hj.inj hs hkr ▸ hk)

/-! ### The course of the questions -/

/-- Whether a set in a world was only asked more: the world is the same, and all stays that was
found out. -/
def AskedOn (p p' : World × ModuleSet) : Prop := p'.1 = p.1 ∧ p.2.Before p'.2

namespace AskedOn

variable {p p₁ p' : World × ModuleSet}

theorem refl (p : World × ModuleSet) : AskedOn p p := ⟨rfl, .refl p.2⟩

theorem trans (h : AskedOn p p₁) (h' : AskedOn p₁ p') : AskedOn p p' :=
  ⟨h'.1.trans h.1, h.2.trans h'.2⟩

variable {α β : Type}

theorem answer (a : Except Error α) : LeadsOn AskedOn (ExceptT.mk (pure a) : UploadAct α) :=
  AskedOn.refl

theorem bind {act : UploadAct α} {f : α → UploadAct β} (h : LeadsOn AskedOn act)
    (hf : ∀ a, LeadsOn AskedOn (f a)) : LeadsOn AskedOn (act >>= f) :=
  leadsOn_bind (r := AskedOn) (fun _ _ _ => AskedOn.trans) h hf

theorem inSet {ask : World → SetAct α} (h : ∀ w, (ask w).Keeps) :
    LeadsOn AskedOn (Upload.inSet ask) := fun (w, s) => ⟨rfl, h w s⟩

theorem mapM {f : α → UploadAct β} (h : ∀ x, LeadsOn AskedOn (f x)) (xs : List α) :
    LeadsOn AskedOn (xs.mapM f) :=
  leadsOn_mapM (r := AskedOn) AskedOn.refl (fun _ _ _ => AskedOn.trans) fun x _ => h x

theorem of_gives {act : UploadAct α} {a : α} (h : LeadsOn AskedOn act) (hgives : act.Gives p a p') :
    AskedOn p p' := by
  have hled := h p
  rwa [show act.run p = (.ok a, p') from hgives] at hled

theorem checkLive : LeadsOn AskedOn Upload.checkLive := by
  refine bind (leadsOn_get (r := AskedOn) AskedOn.refl) fun p => ?_
  split
  · exact answer (.error _)
  · exact answer (.ok _)

theorem contentOf (sent : List ModuleName) (i : Nat) (m : Module) (name : ModuleName) :
    LeadsOn AskedOn (Upload.contentOf sent i m name) :=
  bind checkLive fun _ => bind (inSet fun _ => SetAct.keeps_answer _) fun _ =>
    bind (inSet (ModuleSet.lasts_dependencies i).keeps) fun _ => bind (answer _) fun _ =>
      answer (.ok _)

theorem requestFor (picks : Picks) (labels : List String) :
    LeadsOn AskedOn (Upload.requestFor picks labels) :=
  bind (answer _) fun names => bind
    (mapM (fun x : (Nat × Module) × ModuleName => contentOf names x.1.1 x.1.2 x.2) _)
    fun _ => answer (.ok _)

end AskedOn

/-! ### What is sent -/

/-- Whether a content is what is sent for one of some modules: all its files by their paths, with
what they hold, and one reference to each module that it depends on. Of these the local ones are
among the modules too. -/
structure SentFor (w : World) (s : ModuleSet) (picks : Picks) (q : Nat × Module) (c : Content) :
    Prop where
  sentAs : SentAs q.2 c.name
  files : ∃ infos, q.2.walk w = .ok infos ∧ List.Forall₂ (fun info e => info.path = e.1 ∧
    ∃ info', q.2.get w info.path = .ok (info', e.2)) infos c.files
  filesInOrder : (c.files.map Prod.fst).Pairwise (· ≤ ·)
  deps : ∃ deps, (∀ v, (ModuleSet.dependencies v q.1).on s = (.ok deps, s)) ∧
    (∀ d ∈ deps, d.module.isLocal = true →
      d.module.name.isSome = true ∧ (d.position, d.module) ∈ picks) ∧
    ∃ refs, c.deps.Perm refs ∧ List.Forall₂ (fun (d : ModuleSet.Dependency) r =>
      RefersTo s.modules (sentNames picks) d.position r) deps refs
  depsInOrder : c.deps.Pairwise fun a b => textsLE a.key b.key = true ∧ a ≠ b
  attached : c.v1Config = q.2.v1Config ∧ c.v1Lock = q.2.v1Lock

theorem exists_files_of_filesOf {m : Module} {files : List (String × ByteArray)}
    (h : filesOf w m = .ok files) :
    (∃ infos, m.walk w = .ok infos ∧ List.Forall₂ (fun info e => info.path = e.1 ∧
      ∃ info', m.get w info.path = .ok (info', e.2)) infos files) ∧
      (files.map Prod.fst).Pairwise (· ≤ ·) := by
  obtain ⟨infos, hwalk, h⟩ := bind_eq_ok.1 h
  have hall : List.Forall₂ (fun info e => info.path = e.1 ∧
      ∃ info', m.get w info.path = .ok (info', e.2)) infos files := by
    refine (mapM_eq_ok.1 h).imp fun info e he => ?_
    obtain ⟨⟨info', content⟩, hget, he⟩ := bind_eq_ok.1 he
    cases he
    exact ⟨rfl, info', hget⟩
  refine ⟨⟨infos, hwalk, hall⟩, ?_⟩
  obtain ⟨objects, hobjects, hpaths⟩ := Module.objects_of_walk hwalk
  rw [← map_eq_of_forall₂ hall fun _ _ hpath => hpath.1, hpaths]
  exact Storage.Bucket.pairwise_list (mapError_eq_ok.1 hobjects)

/-- A local module that a sibling refers to is among the modules that are sent. -/
theorem mem_picks_of_refersTo (hs : s.Proper) {picks : Picks}
    (hpicks : ∀ q ∈ picks, s.modules[q.1]? = some q.2) {m : Module} (hj : s.modules[j]? = some m)
    (hlocal : m.isLocal = true) {r : Dependency}
    (h : RefersTo s.modules (sentNames picks) j r) : m.name.isSome = true ∧ (j, m) ∈ picks := by
  cases h with
  | sibling hm _ hname hsent =>
    cases hj.symm.trans hm
    obtain ⟨q, hq, hqname⟩ := List.mem_filterMap.1 hsent
    obtain ⟨k, m'⟩ := q
    have hk := hpicks _ hq
    cases eq_of_names hs.ids hm hk hname hqname
    cases hj.symm.trans hk
    exact ⟨Option.isSome_iff_exists.2 ⟨_, hname⟩, hq⟩
  | commit hm ho =>
    cases hj.symm.trans hm
    rw [Module.isLocal, ho] at hlocal
    cases hlocal

section Contents

variable {picks : Picks} (hs : s.Proper) (hpicks : ∀ q ∈ picks, s.modules[q.1]? = some q.2)

include hs hpicks

theorem sentFor_of_contentOf {q : Nat × Module} {name : ModuleName} {c : Content}
    {p' : World × ModuleSet} (hsent : SentAs q.2 name)
    (h : (contentOf (sentNames picks) q.1 q.2 name).Gives (w, s) c p') :
    SentFor w p'.2 picks q c := by
  obtain ⟨_, _, hcheck, h⟩ := UploadAct.gives_bind.1 h
  obtain ⟨_, rfl⟩ := UploadAct.gives_checkLive.1 hcheck
  obtain ⟨files, _, hask, h⟩ := UploadAct.gives_bind.1 h
  obtain ⟨t, hon, rfl⟩ := UploadAct.gives_inSet.1 hask
  rw [SetAct.on_answer] at hon
  obtain ⟨hfiles, rfl⟩ := Prod.mk.inj hon
  obtain ⟨deps, _, hask, h⟩ := UploadAct.gives_bind.1 h
  obtain ⟨t, hdeps, rfl⟩ := UploadAct.gives_inSet.1 hask
  obtain ⟨refs, _, hask, h⟩ := UploadAct.gives_bind.1 h
  obtain ⟨hrefs, rfl⟩ := UploadAct.gives_answer.1 hask
  obtain ⟨rfl, rfl⟩ := UploadAct.gives_pure.1 h
  have hlasts := ModuleSet.lasts_dependencies q.1
  obtain ⟨hat, hnodup⟩ := ModuleSet.of_dependencies hs.tidy hdeps
  have hrefers : List.Forall₂ (fun (d : ModuleSet.Dependency) r =>
      RefersTo s.modules (sentNames picks) d.position r) deps refs := by
    refine List.forall₂_iff_zip.2 ⟨(mapM_eq_ok.1 hrefs).length_eq, fun {d r} hdr => ?_⟩
    have hd := hat d (List.of_mem_zip hdr).1
    exact (dependencyOf_eq_ok hd).1 ((List.forall₂_iff_zip.1 (mapM_eq_ok.1 hrefs)).2 hdr)
  have hmodules : t.modules = s.modules := ((hlasts.keeps w).of_on hdeps).modules
  obtain ⟨hlisted, hordered⟩ := exists_files_of_filesOf hfiles
  constructor
  case sentAs => exact hsent
  case files => exact hlisted
  case filesInOrder => exact hordered
  case depsInOrder => exact pairwise_sortedSetBy Dependency.key_injective refs
  case attached => exact ⟨rfl, rfl⟩
  case deps =>
    refine ⟨deps, fun v => hlasts.again w s deps t hs.tidy hdeps t (.refl t) v, ?_, refs, ?_, ?_⟩
    · intro d hd hlocal
      obtain ⟨r, _, hr⟩ := exists_of_forall₂ hrefers.flip hd
      exact mem_picks_of_refersTo hs hpicks (hat d hd) hlocal hr
    · exact sortedSetBy_perm Dependency.key_injective
        (nodup_refs hs hnodup (List.forall₂_map_left_iff.2 hrefers))
    · show List.Forall₂ (fun (d : ModuleSet.Dependency) r =>
        RefersTo t.modules (sentNames picks) d.position r) deps refs
      rwa [hmodules]

end Contents

theorem SentFor.later {picks : Picks} {q : Nat × Module} {c : Content} (hs : s.Proper)
    (h : SentFor w s picks q c) (hst : s.Before t) : SentFor w t picks q c := by
  obtain ⟨deps, hdeps, hlocals, refs, hperm, hrefs⟩ := h.deps
  refine { h with deps := ⟨deps, fun v => ?_, hlocals, refs, hperm, hst.modules ▸ hrefs⟩ }
  exact (ModuleSet.lasts_dependencies q.1).again w s deps s hs.tidy (hdeps w) t hst v

/-- Whether a request is what is sent for some modules, with some labels. -/
structure Prepares (w : World) (s : ModuleSet) (picks : Picks) (labels : List String)
    (request : Request) : Prop where
  contents : List.Forall₂ (SentFor w s picks) picks request.contents
  host : ∃ host, ∀ c ∈ request.contents, c.name.registry = host
  labelsInOrder : request.labels.Pairwise (· < ·)
  labels : ∀ label, label ∈ request.labels ↔ label ∈ labels

/-- What a row of steps gives, each by what holds after it and stays. -/
theorem forall₂_of_gives_mapM {α β : Type} {f : α → UploadAct β}
    {r : World × ModuleSet → α → β → Prop} {p₀ p p' : World × ModuleSet} {xs : List α}
    {ys : List β} (hp : AskedOn p₀ p) (hkeep : ∀ x, LeadsOn AskedOn (f x))
    (hmono : ∀ p₁ p₂ x y, AskedOn p₀ p₁ → AskedOn p₁ p₂ → r p₁ x y → r p₂ x y)
    (hstep : ∀ x ∈ xs, ∀ p₁ y p₂, AskedOn p₀ p₁ → (f x).Gives p₁ y p₂ → r p₂ x y)
    (h : UploadAct.Gives (xs.mapM f) p ys p') : List.Forall₂ (r p') xs ys := by
  induction xs generalizing p ys with
  | nil =>
    obtain ⟨rfl, rfl⟩ := UploadAct.gives_pure.1 h
    exact .nil
  | cons x xs ih =>
    obtain ⟨hx, hxs⟩ := List.forall_mem_cons.1 hstep
    rw [List.mapM_cons] at h
    obtain ⟨y, p₁, hy, h⟩ := UploadAct.gives_bind.1 h
    obtain ⟨rest, p₂, hrest, h⟩ := UploadAct.gives_bind.1 h
    obtain ⟨rfl, rfl⟩ := UploadAct.gives_pure.1 h
    have hp₁ := hp.trans (AskedOn.of_gives (hkeep x) hy)
    have hothers := AskedOn.of_gives (AskedOn.mapM hkeep xs) hrest
    exact .cons (hmono p₁ p₂ x y hp₁ hothers (hx p y p₁ hp hy)) (ih hp₁ hxs hrest)

theorem exists_of_length_sortedSet {xs : List String} (h : ¬ (sortedSet xs).length > 1) :
    ∃ x, ∀ y ∈ xs, y = x := by
  rcases hset : sortedSet xs with _ | ⟨x, rest⟩
  · refine ⟨"", fun y hy => ?_⟩
    rw [← mem_sortedSet, hset] at hy
    cases hy
  · refine ⟨x, fun y hy => ?_⟩
    have hrest : rest = [] := by
      rw [hset, List.length_cons] at h
      exact List.eq_nil_of_length_eq_zero (by omega)
    rw [← mem_sortedSet, hset, hrest] at hy
    exact List.mem_singleton.1 hy

section Requests

variable {picks : Picks} (hs : s.Proper) (hpicks : ∀ q ∈ picks, s.modules[q.1]? = some q.2)

include hs hpicks

theorem prepares_of_requestFor {labels : List String} {request : Request} {p' : World × ModuleSet}
    (h : (requestFor picks labels).Gives (w, s) request p') :
    AskedOn (w, s) p' ∧ Prepares w p'.2 picks labels request := by
  refine ⟨AskedOn.of_gives (AskedOn.requestFor picks labels) h, ?_⟩
  obtain ⟨names, _, hask, h⟩ := UploadAct.gives_bind.1 h
  obtain ⟨hnames, rfl⟩ := UploadAct.gives_answer.1 hask
  obtain ⟨contents, p₁, hcontents, h⟩ := UploadAct.gives_bind.1 h
  obtain ⟨rfl, rfl⟩ := UploadAct.gives_pure.1 h
  obtain ⟨hsent, hhosts⟩ := namesOf_eq_ok.1 hnames
  obtain rfl := sentNames_eq hsent
  have hsent := List.forall₂_map_left_iff.1 hsent
  have hall := forall₂_of_gives_mapM (AskedOn.refl (w, s))
    (r := fun p (x : (Nat × Module) × ModuleName) c => SentFor w p.2 picks x.1 c)
    (fun x => AskedOn.contentOf (sentNames picks) x.1.1 x.1.2 x.2)
    (fun p₁ p₂ x c hp₁ hp h => h.later (hs.later hp₁.2) hp.2)
    (fun x hx p₁ c p₂ hp₁ hc => by
      obtain ⟨w₁, s₁⟩ := p₁
      obtain ⟨rfl, hs₁⟩ := hp₁
      have hx' := (List.forall₂_iff_zip.1 hsent).2 hx
      refine sentFor_of_contentOf (hs.later hs₁) (fun q hq => ?_) hx' hc
      rw [hs₁.modules]
      exact hpicks q hq) hcontents
  have hzip : List.Forall₂ (fun (q : Nat × Module) c => ∃ name, SentAs q.2 name ∧
      SentFor w p₁.2 picks q c) picks contents :=
    forall₂_zip hsent (f := id) (by rwa [List.map_id])
  have hcontents : List.Forall₂ (SentFor w p₁.2 picks) picks contents :=
    hzip.imp fun _ _ ⟨_, _, hc⟩ => hc
  constructor
  case contents => exact hcontents
  case host =>
    obtain ⟨host, hhost⟩ := exists_of_length_sortedSet hhosts
    refine ⟨host, fun c hc => ?_⟩
    obtain ⟨q, hq, hqc⟩ := exists_of_forall₂ hcontents hc
    exact hhost _ (List.mem_map_of_mem (List.mem_filterMap.2 ⟨q, hq, hqc.sentAs.2⟩))
  case labelsInOrder => exact pairwise_sortedSet labels
  case labels => exact fun label => mem_sortedSet

end Requests

/-! ### What is taken back -/

/-- Whether a receipt is for one of some modules: for its name and, if that is wanted, for the
digest that the set has for it. -/
def Confirms (verify : Bool) (s : ModuleSet) (q : Nat × Module) (r : Receipt) : Prop :=
  q.2.name = some r.name ∧
    (verify = true → ∀ v, (ModuleSet.digest v q.1).on s = (.ok r.digest, s))

theorem Confirms.later {verify : Bool} {q : Nat × Module} {r : Receipt} (hs : s.Tidy)
    (hq : q.1 < s.modules.length) (h : Confirms verify s q r) (hst : s.Before t) :
    Confirms verify t q r :=
  ⟨h.1, fun hverify v => ModuleSet.digest_lasts hs hq (h.2 hverify v) hst v⟩

theorem run_inSet (ask : World → SetAct α) (w : World) (s : ModuleSet) :
    (inSet ask).run (w, s) = (((ask w).on s).1.mapError .module, w, ((ask w).on s).2) := rfl

/-- A receipt is taken just if it is for its module, as the set knows it afterwards. -/
theorem run_checkReceipt (verify : Bool) {q : Nat × Module} {name : ModuleName} (r : Receipt)
    (hs : s.Tidy) (hq : q.1 < s.modules.length) (hname : q.2.name = some name) :
    ∃ o t, (checkReceipt verify q.1 name r).run (w, s) = (o, w, t) ∧ s.Before t ∧
      (o = .ok (keyFor r) ∧ Confirms verify t q r ∨
        (∃ e, o = .error e) ∧ ¬ Confirms verify t q r) := by
  unfold checkReceipt
  simp only
  by_cases hsame : r.name = name
  case neg =>
    rw [if_pos hsame]
    refine ⟨_, s, rfl, .refl s, .inr ⟨⟨_, rfl⟩, fun h => hsame ?_⟩⟩
    exact Option.some.inj (h.1.symm.trans hname)
  rw [if_neg (not_not.2 hsame)]
  have hnamed : q.2.name = some r.name := hname.trans (congrArg some hsame.symm)
  cases verify with
  | false => exact ⟨_, s, rfl, .refl s, .inl ⟨rfl, hnamed, fun h => by cases h⟩⟩
  | true =>
    rcases hdigest : (ModuleSet.digest w q.1).on s with ⟨o, t⟩
    have hbefore := (ModuleSet.keeps_digest w q.1).of_on hdigest
    have hagain := ModuleSet.digest_again hs hq hdigest
    rw [if_pos rfl, exceptT_run_bind, run_inSet, hdigest]
    cases o with
    | error e =>
      refine ⟨_, t, rfl, hbefore, .inr ⟨⟨_, rfl⟩, fun h => ?_⟩⟩
      cases (h.2 rfl w).symm.trans (hagain w)
    | ok d =>
      by_cases hd : d = r.digest
      · subst hd
        refine ⟨.ok (keyFor r), t, ?_, hbefore, .inl ⟨rfl, hnamed, fun _ => hagain⟩⟩
        simp only [Except.mapError, ne_eq, not_true_eq_false, if_false]
        rfl
      · refine ⟨.error (.digestMismatch name d r.digest), t, ?_, hbefore,
          .inr ⟨⟨_, rfl⟩, fun h => ?_⟩⟩
        · simp only [Except.mapError, ne_eq, hd, not_false_eq_true, if_true]
          rfl
        · cases (h.2 rfl w).symm.trans (hagain w)
          exact hd rfl

/-- A row of receipts is taken just if each is for its module. -/
theorem run_checkReceipt_mapM (verify : Bool) {rows : List (((Nat × Module) × Content) × Receipt)}
    (hs : s.Tidy) (hrows : ∀ x ∈ rows,
      x.1.1.1 < s.modules.length ∧ x.1.1.2.name = some x.1.2.name) :
    ∃ o t, (rows.mapM fun x => checkReceipt verify x.1.1.1 x.1.2.name x.2).run (w, s) = (o, w, t) ∧
      s.Before t ∧ (o = .ok (rows.map fun x => keyFor x.2) ∧
          (∀ x ∈ rows, Confirms verify t x.1.1 x.2) ∨
        (∃ e, o = .error e) ∧ ¬ ∀ x ∈ rows, Confirms verify t x.1.1 x.2) := by
  induction rows generalizing s with
  | nil => exact ⟨.ok [], s, rfl, .refl s, .inl ⟨rfl, fun _ hx => absurd hx List.not_mem_nil⟩⟩
  | cons x rows ih =>
    obtain ⟨⟨hq, hname⟩, hrest⟩ := List.forall_mem_cons.1 hrows
    rw [List.mapM_cons, exceptT_run_bind]
    obtain ⟨o, t, hrun, hst, ⟨rfl, hx⟩ | ⟨⟨e, rfl⟩, hx⟩⟩ := run_checkReceipt verify x.2 hs hq hname
    · rw [hrun]
      have ht := hst.tidy hs
      have hlength : x.1.1.1 < t.modules.length := hst.modules ▸ hq
      obtain ⟨o, u, hrun, htu, hall⟩ := ih ht fun y hy => hst.modules ▸ hrest y hy
      have hx := hx.later ht hlength htu
      simp only
      rw [exceptT_run_bind, hrun]
      rcases hall with ⟨rfl, hall⟩ | ⟨⟨e, rfl⟩, hall⟩
      · exact ⟨_, u, rfl, hst.trans htu, .inl ⟨rfl, List.forall_mem_cons.2 ⟨hx, hall⟩⟩⟩
      · refine ⟨_, u, rfl, hst.trans htu, .inr ⟨⟨e, rfl⟩, fun h => ?_⟩⟩
        exact hall (List.forall_mem_cons.1 h).2
    · rw [hrun]
      exact ⟨_, t, rfl, hst, .inr ⟨⟨e, rfl⟩, fun h => hx (List.forall_mem_cons.1 h).1⟩⟩

/-- The receipts for a request are taken just if there is one for each module, in order. -/
theorem run_checkReceipts (verify : Bool) {picks : Picks} {request : Request}
    (receipts : List Receipt) (hs : s.Tidy) (hpicks : ∀ q ∈ picks, s.modules[q.1]? = some q.2)
    (hnames : List.Forall₂ (fun (q : Nat × Module) c => SentAs q.2 c.name) picks request.contents) :
    ∃ o t, (checkReceipts verify picks request receipts).run (w, s) = (o, w, t) ∧ s.Before t ∧
      (o = .ok (receipts.map keyFor) ∧ List.Forall₂ (Confirms verify t) picks receipts ∨
        (∃ e, o = .error e) ∧ ¬ List.Forall₂ (Confirms verify t) picks receipts) := by
  have hlength := hnames.length_eq
  unfold checkReceipts
  by_cases hcount : receipts.length = request.contents.length
  case neg =>
    rw [if_pos hcount]
    exact ⟨_, s, rfl, .refl s, .inr ⟨⟨_, rfl⟩, fun h => hcount (h.length_eq.symm.trans hlength)⟩⟩
  rw [if_neg (not_not.2 hcount)]
  have hzip : (picks.zip request.contents).length = receipts.length := by
    rw [List.length_zip, hlength, Nat.min_self, hcount]
  have hrows : ∀ x ∈ (picks.zip request.contents).zip receipts,
      x.1.1.1 < s.modules.length ∧ x.1.1.2.name = some x.1.2.name := by
    intro x hx
    have hx := (List.of_mem_zip hx).1
    exact ⟨(List.getElem?_eq_some_iff.1 (hpicks _ (List.of_mem_zip hx).1)).1,
      ((List.forall₂_iff_zip.1 hnames).2 hx).2⟩
  have hkeys : ((picks.zip request.contents).zip receipts).map (fun x => keyFor x.2) =
      receipts.map keyFor := by
    have hsnd : ((picks.zip request.contents).zip receipts).map Prod.snd = receipts :=
      List.map_snd_zip (Nat.le_of_eq hzip.symm)
    conv_rhs => rw [← hsnd, List.map_map]
    rfl
  have hall (u : ModuleSet) : List.Forall₂ (Confirms verify u) picks receipts ↔
      ∀ x ∈ (picks.zip request.contents).zip receipts, Confirms verify u x.1.1 x.2 := by
    have hfst : (picks.zip request.contents).map Prod.fst = picks :=
      List.map_fst_zip (Nat.le_of_eq hlength)
    conv_lhs => rw [← hfst]
    rw [List.forall₂_map_left_iff, List.forall₂_iff_zip]
    exact ⟨fun h x hx => h.2 hx, fun h => ⟨hzip, fun {x r} hx => h (x, r) hx⟩⟩
  obtain ⟨o, t, hrun, hst, hchecked⟩ := run_checkReceipt_mapM (w := w) verify hs hrows
  rw [hkeys, ← hall] at hchecked
  exact ⟨o, t, hrun, hst, hchecked⟩

/-! ### One request -/

/-- What an upload does, also where the client does more than acting in the world. -/
def uploadWith {m : Type → Type} [Monad m] [MonadLiftT (StateM (World × ModuleSet)) m]
    (client : Request → m (Except Error (List Receipt))) (positions : List Nat)
    (labels : List String) (verify : Bool) : m Outcome := do
  let (w, s) ← (get : StateM (World × ModuleSet) (World × ModuleSet))
  let picks := picksOf s.modules positions
  if !w.live then return ⟨none, .error .canceled⟩
  if picks.isEmpty then return ⟨none, .ok []⟩
  match ← (requestFor picks labels).run with
  | .error e => return ⟨none, .error e⟩
  | .ok request =>
    match ← client request with
    | .error e => return ⟨some request, .error e⟩
    | .ok receipts => return ⟨some request, ← (checkReceipts verify picks request receipts).run⟩

/-- A client that notes what it is asked. -/
def noting (client : Client) (request : Request) :
    StateT (List Request) (StateM (World × ModuleSet)) (Except Error (List Receipt)) := do
  modify (· ++ [request])
  (inWorld (client request)).run

theorem uploadWith_inWorld (client : Client) (positions : List Nat) (labels : List String)
    (verify : Bool) : uploadWith (fun request => (inWorld (client request)).run) positions labels
      verify = upload client positions labels verify := by
  unfold uploadWith upload
  refine congrArg (get >>= ·) (funext fun p => ?_)
  obtain ⟨w, s⟩ := p
  simp only [picksOf, ExceptT.run_bind]
  refine ite_congr rfl (fun _ => rfl) fun _ => ite_congr rfl (fun _ => rfl) fun _ => ?_
  refine congrArg ((requestFor _ labels).run >>= ·) (funext fun r => ?_)
  cases r with
  | error e => rfl
  | ok request =>
    simp only [bind_assoc]
    refine congrArg ((inWorld (client request)).run >>= ·) (funext fun r => ?_)
    cases r with
    | error e => rfl
    | ok receipts => rfl

theorem run_noting (client : Client) (positions : List Nat) (labels : List String)
    (verify : Bool) (asked : List Request) :
    (uploadWith (noting client) positions labels verify).run asked = (do
      let o ← upload client positions labels verify
      return (o, asked ++ o.sent.toList)) := by
  rw [← uploadWith_inWorld]
  unfold uploadWith noting
  simp only [StateT.run_bind, StateT.run_monadLift, bind_assoc, bind_pure_comp, bind_map_left,
    map_bind]
  refine congrArg (get >>= ·) (funext fun p => ?_)
  obtain ⟨w, s⟩ := p
  by_cases hlive : (!w.live) = true
  · simp [hlive]
  by_cases hempty : (picksOf s.modules positions).isEmpty = true
  · simp [hlive, hempty]
  simp only [if_neg hlive, if_neg hempty, StateT.run_bind, StateT.run_monadLift, bind_assoc,
    pure_bind, map_bind]
  refine congrArg ((requestFor (picksOf s.modules positions) labels).run >>= ·) (funext fun r => ?_)
  cases r with
  | error e => simp
  | ok request =>
    simp only [StateT.run_bind, StateT.run_modify, StateT.run_monadLift, bind_assoc, pure_bind,
      map_bind]
    refine congrArg ((inWorld (client request)).run >>= ·) (funext fun r => ?_)
    cases r with
    | error e => simp
    | ok receipts => simp

variable {client : Client} {positions : List Nat} {labels : List String} {verify : Bool}

theorem upload_canceled (hlive : w.live = false) :
    upload client positions labels verify (w, s) = (⟨none, .error .canceled⟩, w, s) := by
  unfold upload
  simp only [bind, StateT.bind, get, getThe, MonadStateOf.get, StateT.get, pure, hlive,
    Bool.not_false, if_true]
  rfl

theorem run_inWorld (act : ExceptT Error (StateM World) α) (w : World) (s : ModuleSet) :
    (inWorld act).run (w, s) = ((act.run w).1, (act.run w).2, s) := rfl

/-- What comes back for a request is what the client answers, if each receipt is for the module in
its place. -/
theorem run_send (client : Client) (verify : Bool) (w : World) {picks : Picks} {request : Request}
    (hs : s.Tidy)
    (hpicks : ∀ q ∈ picks, s.modules[q.1]? = some q.2)
    (hnames : List.Forall₂ (fun (q : Nat × Module) c => SentAs q.2 c.name) picks request.contents) :
    ∃ o w' t, (send client verify picks request).run (w, s) = (o, w', t) ∧ s.Before t ∧
      ∀ keys, o = .ok keys ↔ ∃ receipts, ((client request).run w).1 = .ok receipts ∧
        keys = receipts.map keyFor ∧ List.Forall₂ (Confirms verify t) picks receipts := by
  unfold send
  rw [exceptT_run_bind, run_inWorld]
  rcases (client request).run w with ⟨e | receipts, w'⟩
  · refine ⟨_, w', s, rfl, .refl s, fun keys => ⟨fun h => (by cases h), ?_⟩⟩
    rintro ⟨_, h, _⟩
    cases h
  · obtain ⟨o, t, hrun, hst, hchecked⟩ :=
      run_checkReceipts (w := w') verify receipts hs hpicks hnames
    refine ⟨o, w', t, hrun, hst, fun keys => ?_⟩
    rcases hchecked with ⟨rfl, hall⟩ | ⟨⟨e, rfl⟩, hall⟩
    · constructor
      · intro h
        cases h
        exact ⟨receipts, rfl, rfl, hall⟩
      · rintro ⟨_, h, rfl, _⟩
        cases h
        rfl
    · refine ⟨fun h => (by cases h), ?_⟩
      rintro ⟨_, h, _, hconfirmed⟩
      cases h
      exact absurd hconfirmed hall

/-- Whether an outcome is what some modules may come to. What was sent is what the modules and the
labels are, and keys came back just if the client answered with a receipt for each module in order.
Where nothing was sent there were no modules, or the upload failed. -/
structure ComesTo (client : Client) (verify : Bool) (w : World) (s : ModuleSet) (picks : Picks)
    (labels : List String) (o : Outcome) : Prop where
  sent : ∀ request, o.sent = some request → Prepares w s picks labels request
  answered : ∀ request, o.sent = some request → ∀ keys, o.keys = .ok keys ↔
    ∃ receipts, ((client request).run w).1 = .ok receipts ∧ keys = receipts.map keyFor ∧
      List.Forall₂ (Confirms verify s) picks receipts
  unsent : o.sent = none → picks = [] ∧ o.keys = .ok [] ∨ ∃ e, o.keys = .error e

theorem comesTo_unsent {picks : Picks} {keys : Except Error (List ModuleKey)}
    (h : picks = [] ∧ keys = .ok [] ∨ ∃ e, keys = .error e) :
    ComesTo client verify w s picks labels ⟨none, keys⟩ :=
  ⟨fun _ h => (by cases h), fun _ h => (by cases h), fun _ => h⟩

theorem comesTo_of_upload (hs : s.Proper) (client : Client) (positions : List Nat)
    (labels : List String) (verify : Bool) (w : World) :
    ∃ o w' t, upload client positions labels verify (w, s) = (o, w', t) ∧ s.Before t ∧
      ComesTo client verify w t (picksOf s.modules positions) labels o := by
  cases hlive : w.live with
  | false => exact ⟨_, w, s, upload_canceled hlive, .refl s, comesTo_unsent (.inr ⟨_, rfl⟩)⟩
  | true =>
    by_cases hne : picksOf s.modules positions = []
    · exact ⟨_, w, s, upload_nothing hlive hne, .refl s, comesTo_unsent (.inl ⟨hne, rfl⟩)⟩
    have hpicks : ∀ q ∈ picksOf s.modules positions, s.modules[q.1]? = some q.2 :=
      fun q hq => (mem_picksOf.1 hq).2
    have hasked := AskedOn.requestFor (picksOf s.modules positions) labels (w, s)
    rcases hrun : (requestFor (picksOf s.modules positions) labels).run (w, s) with
      ⟨e | request, w₁, t₁⟩
    · rw [hrun] at hasked
      exact ⟨_, w₁, t₁, upload_of_refusal hlive hne hrun, hasked.2, comesTo_unsent (.inr ⟨e, rfl⟩)⟩
    · obtain ⟨⟨rfl, hst₁⟩, hprepares⟩ := prepares_of_requestFor hs hpicks hrun
      have ht₁ := hs.later hst₁
      obtain ⟨o, w', t, hsend, ht₁t, hkeys⟩ := run_send client verify w₁ ht₁.tidy
        (fun q hq => hst₁.modules ▸ hpicks q hq)
        (hprepares.contents.imp fun _ _ hc => hc.sentAs)
      refine ⟨⟨some request, o⟩, w', t, ?_, hst₁.trans ht₁t, ?_⟩
      · rw [upload_of_request hlive hne hrun, hsend]
      · refine ⟨fun _ h => ?_, fun _ h => ?_, fun h => by cases h⟩
        · cases h
          exact { hprepares with
            contents := hprepares.contents.imp fun _ _ hc => hc.later ht₁ ht₁t }
        · cases h
          exact hkeys

/-- An upload asks its client once at most. -/
theorem noting_of_upload {o : Outcome} {p p' : World × ModuleSet}
    (h : upload client positions labels verify p = (o, p')) (asked : List Request) :
    (uploadWith (noting client) positions labels verify).run asked p =
      ((o, asked ++ o.sent.toList), p') := by
  rw [run_noting]
  simp only [bind, StateT.bind, h]
  rfl

/-- An upload asks its client once at most, and only with what is sent for its modules. It gives
the keys of what the client answers if each receipt is for the module in its place, and else it
fails. -/
theorem sends_once (hs : s.Proper) (client : Client) (positions : List Nat) (labels : List String)
    (verify : Bool) (w : World) :
    ∃ o w' t, upload client positions labels verify (w, s) = (o, w', t) ∧ s.Before t ∧
      (uploadWith (noting client) positions labels verify).run [] (w, s) =
        ((o, o.sent.toList), w', t) ∧
      ComesTo client verify w t (picksOf s.modules positions) labels o := by
  obtain ⟨o, w', t, hupload, hst, hcomes⟩ :=
    comesTo_of_upload hs client positions labels verify w
  exact ⟨o, w', t, hupload, hst, noting_of_upload hupload [], hcomes⟩

theorem proper_appWithLib : (ModuleSet.ofModules appWithLib).Proper where
  tidy := ModuleSet.tidy_ofModules appWithLib
  ids := supplied_appWithLib.ids
  named := by
    intro m hm key hkey
    simp only [ModuleSet.ofModules, appWithLib, List.mem_cons, List.not_mem_nil, or_false] at hm
    rcases hm with rfl | rfl <;> cases hkey

theorem sends_once_appWithLib :
    (ModuleSet.ofModules appWithLib).Proper ∧ ∃ o w' t,
      upload toRegistry [0, 1] ["main"] true (startOf "r.com", ModuleSet.ofModules appWithLib) =
        (o, w', t) ∧ (ModuleSet.ofModules appWithLib).Before t ∧
      (uploadWith (noting toRegistry) [0, 1] ["main"] true).run []
        (startOf "r.com", ModuleSet.ofModules appWithLib) = ((o, o.sent.toList), w', t) ∧
      ComesTo toRegistry true (startOf "r.com") t (picksOf appWithLib [0, 1]) ["main"] o :=
  ⟨proper_appWithLib,
    sends_once proper_appWithLib toRegistry [0, 1] ["main"] true (startOf "r.com")⟩

end Upload

end Schemata

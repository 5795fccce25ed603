import Mathlib.Data.List.Pairwise
import Mathlib.Data.List.Perm.Basic
import Schemata.Image.Sources
import Schemata.Proofs.Module.Reading
import Schemata.Proofs.Module.Tables

/-!
# Views of modules in another order

Where no two modules have a file at one path, a view of them shows the same in any order. Only a
failure may come from another module; and where no module refuses a path that another has, what is
shown in one order is shown in every order.
-/

namespace Schemata.Module

variable {w : World}

/-- Whether a module has a file at a path: it lists it, or it says what it is. -/
def Holds (w : World) (m : Module) (path : String) : Prop :=
  path ∈ m.paths w ∨ ∃ f, m.stat w path = .ok f

/-- Whether two modules have no file at one path. -/
def Apart (w : World) (m n : Module) : Prop := ∀ path, ¬ (m.Holds w path ∧ n.Holds w path)

instance (w : World) : Std.Symm (Apart w) := ⟨fun _ _ h path hpath => h path hpath.symm⟩

/-- Whether no two of some modules have a file at one path. -/
def Unshared (w : World) (modules : List Module) : Prop := modules.Pairwise (Apart w)

/-- Whether no module fails at a path that another has, but by not having it. -/
def Unrefused (w : World) (modules : List Module) : Prop :=
  ∀ m ∈ modules, ∀ n ∈ modules, m ≠ n → ∀ path, n.Holds w path →
    ∀ e, m.get w path = .error e → e.isMissing = true

theorem stat_eq_map_get (m : Module) (path : String) :
    m.stat w path = (m.get w path).map Prod.fst := by
  unfold stat get Storage.Bucket.stat
  cases m.files.get w.volumes w.live path with
  | error e => rfl
  | ok r => cases hfile : m.fileOf w r.1 <;> simp [Except.map, Except.mapError, bind, Except.bind,
      hfile, pure, Except.pure]

theorem Holds.of_get {m : Module} {path : String} {r : FileInfo × ByteArray}
    (h : m.get w path = .ok r) : m.Holds w path :=
  .inr ⟨r.1, by rw [stat_eq_map_get, h]; rfl⟩

section Perm

variable {modules modules' : List Module} (hperm : modules.Perm modules')

include hperm in
theorem Unshared.perm (h : Unshared w modules) : Unshared w modules' :=
  (hperm.pairwise_iff fun hmn => Std.Symm.symm _ _ hmn).1 h

include hperm in
theorem Unrefused.perm (h : Unrefused w modules) : Unrefused w modules' := fun m hm n hn =>
  h m (hperm.mem_iff.2 hm) n (hperm.mem_iff.2 hn)

end Perm

theorem Unshared.eq_of_holds {modules : List Module} (h : Unshared w modules) {m n : Module}
    (hm : m ∈ modules) (hn : n ∈ modules) {path : String} (hpath : m.Holds w path)
    (hpath' : n.Holds w path) : m = n := by
  by_contra hne
  exact h.forall hm hn hne path ⟨hpath, hpath'⟩

section Readable

variable (hlive : w.live = true)

include hlive

/-- A module that one can read has files at the paths that it lists. -/
theorem Holds.mem_paths {m : Module} (hproper : m.files.Proper w.volumes) (hread : m.Readable w)
    {path : String} (h : m.Holds w path) : path ∈ m.paths w := by
  rcases h with h | ⟨f, hstat⟩
  · exact h
  · rw [stat_eq_map_get] at hstat
    cases hget : m.get w path with
    | error e =>
      rw [hget] at hstat
      cases hstat
    | ok r => exact (path_of_get hlive hproper hread hget).2

/-- A module with its files in a table only fails at what it does not have. -/
theorem isMissing_of_objects {m : Module} (hread : m.Readable w) {objects : Storage.Objects}
    (hfiles : m.files = .objects objects) {path : String} {e : Error}
    (h : m.get w path = .error e) : e.isMissing = true := by
  cases hfind : objects.find? path with
  | none =>
    have hget : m.files.get w.volumes w.live path = .error (.missing path) := by
      rw [hfiles, hlive, Storage.Bucket.get, Storage.Volume.get, hfind]
      rfl
    unfold get at h
    rw [hget] at h
    cases h
    rfl
  | some content =>
    obtain ⟨files, hwalk⟩ := hread.listed
    obtain ⟨infos, hinfos, hpaths⟩ := @list_objects w.volumes objects
    have hlist : m.objects w = .ok infos := by
      rw [Module.objects, hfiles, hlive, hinfos]
      rfl
    have hkey : path ∈ infos.map Storage.ObjectInfo.path := by
      rw [hpaths]
      exact Table.mem_keys.2 ⟨content, hfind⟩
    obtain ⟨info, hinfo, rfl⟩ := List.mem_map.1 hkey
    rw [walk, hlist] at hwalk
    obtain ⟨f, _, hf⟩ := exists_of_mem_mapM hwalk hinfo
    obtain ⟨kind, target, hkind, htarget, _⟩ := fileOf_eq_ok.1 hf
    have hplain : m.fileOf w (.plain info.path) = .ok ⟨info.path, info.path, kind, target, m⟩ :=
      fileOf_eq_ok.2 ⟨kind, target, hkind, htarget, rfl⟩
    have hget : m.files.get w.volumes w.live info.path = .ok (.plain info.path, content) := by
      rw [hfiles, hlive, Storage.Bucket.get, Storage.Volume.get, hfind]
      rfl
    unfold get at h
    rw [hget] at h
    simp only [Except.mapError, bind, Except.bind, hplain, pure, Except.pure] at h
    cases h

end Readable

/-! ### Answers that agree -/

section Answers

variable {ε ε' α β γ : Type}

/-- Whether two answers are the same if both are given and, where that is sure, one is given only
with the other. -/
structure Agree (sure : Prop) (x : Except ε α) (y : Except ε' α) : Prop where
  same : ∀ a b, x = .ok a → y = .ok b → a = b
  given : sure → ∀ a, x = .ok a ↔ y = .ok a

theorem Agree.refl (sure : Prop) (x : Except ε α) : Agree sure x x :=
  ⟨fun _ _ ha hb => Except.ok.inj (ha.symm.trans hb), fun _ _ => Iff.rfl⟩

theorem Agree.bind {sure : Prop} {x : Except ε α} {y : Except ε' α} {f : α → Except ε β}
    {g : α → Except ε' β} (h : Agree sure x y) (hf : ∀ a, Agree sure (f a) (g a)) :
    Agree sure (x >>= f) (y >>= g) := by
  constructor
  · intro b b' hb hb'
    obtain ⟨a, ha, hb⟩ := bind_eq_ok.1 hb
    obtain ⟨a', ha', hb'⟩ := bind_eq_ok.1 hb'
    cases h.same a a' ha ha'
    exact (hf a).same b b' hb hb'
  · intro hsure b
    rw [bind_eq_ok, bind_eq_ok]
    exact exists_congr fun a => and_congr (h.given hsure a) ((hf a).given hsure b)

theorem Agree.mapError {sure : Prop} {x : Except ε α} {y : Except ε' α} (h : Agree sure x y)
    (f : ε → γ) (g : ε' → γ) : Agree sure (x.mapError f) (y.mapError g) := by
  constructor
  · exact fun a b ha hb => h.same a b (mapError_eq_ok.1 ha) (mapError_eq_ok.1 hb)
  · intro hsure a
    rw [mapError_eq_ok, mapError_eq_ok]
    exact h.given hsure a

theorem agree_mapM {sure : Prop} {f : α → Except ε β} {g : α → Except ε' β}
    (h : ∀ a, Agree sure (f a) (g a)) (xs : List α) : Agree sure (xs.mapM f) (xs.mapM g) := by
  induction xs with
  | nil => exact ⟨fun a b ha hb => by cases ha; cases hb; rfl, fun _ a => by simp [pure, Except.pure]⟩
  | cons x xs ih =>
    rw [List.mapM_cons, List.mapM_cons]
    refine (h x).bind fun b => ih.bind fun bs => ⟨fun a a' ha ha' => ?_, fun _ a => ?_⟩
    · cases ha
      cases ha'
      rfl
    · simp [pure, Except.pure]

end Answers

namespace View

variable {α : Type} {path : String}

/-- The answer to a question about a path that may be missing. -/
def opened (x : Except Error α) : Except Error (Option α) :=
  match x with
  | .ok a => .ok (some a)
  | .error e => if e.isMissing then .ok none else .error e

theorem opened_eq_some {x : Except Error α} {a : α} : opened x = .ok (some a) ↔ x = .ok a := by
  unfold opened
  split
  · simp
  · split <;> simp

theorem opened_eq_none {x : Except Error α} :
    opened x = .ok none ↔ ∃ e, x = .error e ∧ e.isMissing = true := by
  unfold opened
  split
  · simp
  · rename_i e
    cases he : e.isMissing <;> simp [he]

theorem opened_bind {β : Type} (x : Except Error α) (f : α → Except Error β) :
    opened (x >>= f) = opened x >>= fun
      | some a => opened (f a)
      | none => .ok none := by
  cases x with
  | ok a => rfl
  | error e => cases he : e.isMissing <;> simp [opened, bind, Except.bind, he]

/-! ### One path -/

variable {ask : Module → Except Error α} {modules modules' : List Module}

theorem opened_firstOf_cons (m : Module) (ms : List Module) :
    opened (firstOf ask path (m :: ms)) = opened (ask m) >>= fun
      | some a => .ok (some a)
      | none => opened (firstOf ask path ms) := by
  rw [firstOf]
  cases ask m with
  | ok a => rfl
  | error e => cases he : e.isMissing <;> simp [opened, bind, Except.bind, he]

theorem opened_firstOf_eq_none :
    opened (firstOf ask path modules) = .ok none ↔ ∀ m ∈ modules, opened (ask m) = .ok none := by
  induction modules with
  | nil => exact iff_of_true rfl fun m hm => absurd hm List.not_mem_nil
  | cons m ms ih =>
    rw [opened_firstOf_cons, bind_eq_ok, List.forall_mem_cons, ← ih]
    constructor
    · rintro ⟨_ | a, ha, h⟩
      · exact ⟨ha, h⟩
      · cases h
    · exact fun ⟨hm, h⟩ => ⟨none, hm, h⟩

theorem opened_firstOf_eq_some {a : α} (h : opened (firstOf ask path modules) = .ok (some a)) :
    ∃ m ∈ modules, ask m = .ok a := by
  obtain ⟨before, m, after, rfl, hm, _⟩ := firstOf_eq_ok (opened_eq_some.1 h)
  exact ⟨m, List.mem_append_right _ List.mem_cons_self, hm⟩

/-- The only module that does not miss a path is the one that answers. -/
theorem opened_firstOf_of_mem {m : Module} {a : α} (hm : m ∈ modules) (ha : ask m = .ok a)
    (hothers : ∀ n ∈ modules, n ≠ m → opened (ask n) = .ok none) :
    opened (firstOf ask path modules) = .ok (some a) := by
  induction modules with
  | nil => cases hm
  | cons n ms ih =>
    rw [opened_firstOf_cons]
    by_cases hnm : n = m
    · rw [hnm, opened_eq_some.2 ha]
      rfl
    · rw [hothers n List.mem_cons_self hnm]
      refine ih ((List.mem_cons.1 hm).resolve_left fun h => hnm h.symm) fun x hx => ?_
      exact hothers x (List.mem_cons_of_mem _ hx)

/-- What can be asked of modules about a path: only those that have a file there answer. -/
structure Asks (w : World) (ask : Module → Except Error α) (path : String) : Prop where
  holds : ∀ m a, ask m = .ok a → m.Holds w path
  fails : ∀ m e, ask m = .error e → m.get w path = .error e

theorem Asks.given_of_perm (hask : Asks w ask path) (hperm : modules.Perm modules')
    (hshare : Unshared w modules) (hsure : Unrefused w modules) {a : Option α}
    (h : opened (firstOf ask path modules) = .ok a) :
    opened (firstOf ask path modules') = .ok a := by
  cases a with
  | none =>
    rw [opened_firstOf_eq_none] at h ⊢
    exact fun m hm => h m (hperm.mem_iff.2 hm)
  | some a =>
    obtain ⟨m, hm, ha⟩ := opened_firstOf_eq_some h
    refine opened_firstOf_of_mem (hperm.mem_iff.1 hm) ha fun n hn hne => ?_
    have hn := hperm.mem_iff.2 hn
    have hheld := hask.holds m a ha
    cases hanswer : ask n with
    | ok b => exact absurd (hshare.eq_of_holds hn hm (hask.holds n b hanswer) hheld) hne
    | error e =>
      exact opened_eq_none.2 ⟨e, rfl, hsure n hn m hm hne path hheld e (hask.fails n e hanswer)⟩

theorem Asks.agree (hask : Asks w ask path) (hperm : modules.Perm modules')
    (hshare : Unshared w modules) :
    Agree (Unrefused w modules) (opened (firstOf ask path modules))
      (opened (firstOf ask path modules')) := by
  constructor
  · intro a b ha hb
    cases a with
    | none =>
      have hnone : opened (firstOf ask path modules') = .ok none := opened_firstOf_eq_none.2
        fun m hm => opened_firstOf_eq_none.1 ha m (hperm.mem_iff.2 hm)
      exact Except.ok.inj (hnone.symm.trans hb)
    | some a =>
      obtain ⟨m, hm, hanswer⟩ := opened_firstOf_eq_some ha
      cases b with
      | none =>
        have hnone := opened_firstOf_eq_none.1 hb m (hperm.mem_iff.1 hm)
        rw [opened_eq_some.2 hanswer] at hnone
        cases hnone
      | some b =>
        obtain ⟨n, hn, hanswer'⟩ := opened_firstOf_eq_some hb
        have hmn := hshare.eq_of_holds hm (hperm.mem_iff.2 hn) (hask.holds m a hanswer)
          (hask.holds n b hanswer')
        rw [← hmn, hanswer] at hanswer'
        rw [Except.ok.inj hanswer']
  · intro hsure a
    exact ⟨hask.given_of_perm hperm hshare hsure,
      hask.given_of_perm hperm.symm (hshare.perm hperm) (hsure.perm hperm)⟩

theorem asks_get (path : String) : Asks w (fun m => m.get w path) path :=
  ⟨fun _ _ h => .of_get h, fun _ _ h => h⟩

theorem asks_stat (path : String) : Asks w (fun m => m.stat w path) path := by
  refine ⟨fun m f h => .inr ⟨f, h⟩, fun m e h => ?_⟩
  rw [stat_eq_map_get] at h
  cases hget : m.get w path with
  | ok r =>
    rw [hget] at h
    cases h
  | error e' =>
    rw [hget] at h
    cases h
    rfl

/-- Whether two views show the same modules, each in an order of its own. -/
inductive Permuted : View → View → Prop
  | merged {modules modules' : List Module} (selfContained : Bool)
    (h : modules.Perm modules') : Permuted (.merged modules selfContained)
      (.merged modules' selfContained)
  | only (kinds : List FileKind) {v v' : View} (h : Permuted v v') :
    Permuted (.only kinds v) (.only kinds v')

variable {v v' : View}

theorem Permuted.perm (h : v.Permuted v') :
    (Image.modulesOf v).Perm (Image.modulesOf v') := by
  induction h with
  | merged selfContained h => exact h
  | only kinds h ih => exact ih

theorem Permuted.isSelfContained_eq (h : v.Permuted v') :
    v.isSelfContained = v'.isSelfContained := by
  induction h with
  | merged selfContained h => rfl
  | only kinds h ih => exact ih

theorem Permuted.agree_stat (h : v.Permuted v') (hshare : Unshared w (Image.modulesOf v))
    (path : String) : Agree (Unrefused w (Image.modulesOf v)) (opened (v.stat w path))
      (opened (v'.stat w path)) := by
  induction h with
  | merged selfContained h => exact (asks_stat path).agree h hshare
  | only kinds h ih =>
    rw [stat, stat, opened_bind, opened_bind]
    refine (ih hshare).bind fun f => ?_
    exact .refl _ _

theorem Permuted.agree_get (h : v.Permuted v') (hshare : Unshared w (Image.modulesOf v))
    (path : String) : Agree (Unrefused w (Image.modulesOf v)) (opened (v.get w path))
      (opened (v'.get w path)) := by
  induction h with
  | merged selfContained h => exact (asks_get path).agree h hshare
  | @only kinds v v' h ih =>
    rw [get, get, opened_bind, opened_bind]
    refine ((Permuted.only kinds h).agree_stat hshare path).bind fun f => ?_
    cases f with
    | none => exact .refl _ _
    | some f => exact ih hshare

/-! ### All files -/

theorem firstOfPaths_congr {seen seen' : List String} {fs : List FileInfo}
    (h : ∀ f ∈ fs, f.path ∈ seen ↔ f.path ∈ seen') :
    firstOfPaths seen fs = firstOfPaths seen' fs := by
  induction fs generalizing seen seen' with
  | nil => rfl
  | cons f fs ih =>
    obtain ⟨hf, hfs⟩ := List.forall_mem_cons.1 h
    have hnext : ∀ g ∈ fs, g.path ∈ f.path :: seen ↔ g.path ∈ f.path :: seen' := fun g hg => by
      rw [List.mem_cons, List.mem_cons, hfs g hg]
    rw [firstOfPaths, firstOfPaths, ih hfs, ih hnext]
    simp only [List.contains_iff_mem, hf]

/-- Files whose paths differ from those before them are listed as if they stood alone. -/
theorem firstOfPaths_append {seen : List String} {fs gs : List FileInfo}
    (h : ∀ f ∈ fs, ∀ g ∈ gs, f.path ≠ g.path) :
    firstOfPaths seen (fs ++ gs) = firstOfPaths seen fs ++ firstOfPaths seen gs := by
  induction fs generalizing seen with
  | nil => rfl
  | cons f fs ih =>
    obtain ⟨hf, hfs⟩ := List.forall_mem_cons.1 h
    have hgs : firstOfPaths (f.path :: seen) gs = firstOfPaths seen gs :=
      firstOfPaths_congr fun g hg => by simp [(hf g hg).symm]
    rw [List.cons_append, firstOfPaths, firstOfPaths, ih hfs, ih hfs, hgs]
    split
    · rfl
    · rfl

theorem firstOfPaths_flatten {lists : List (List FileInfo)}
    (h : lists.Pairwise fun fs gs => ∀ f ∈ fs, ∀ g ∈ gs, f.path ≠ g.path) :
    firstOfPaths [] lists.flatten = (lists.map (firstOfPaths [])).flatten := by
  induction lists with
  | nil => rfl
  | cons fs lists ih =>
    obtain ⟨hfs, hlists⟩ := List.pairwise_cons.1 h
    have hapart : ∀ f ∈ fs, ∀ g ∈ lists.flatten, f.path ≠ g.path := fun f hf g hg => by
      obtain ⟨gs, hgs, hg⟩ := List.mem_flatten.1 hg
      exact hfs gs hgs f hf g hg
    rw [List.flatten_cons, firstOfPaths_append hapart, ih hlists]
    rfl

/-- What modules without a common path list. -/
theorem pairwise_lists {modules : List Module} {lists : List (List FileInfo)}
    (h : List.Forall₂ (fun m fs => m.walk w = .ok fs) modules lists)
    (hshare : Unshared w modules) :
    lists.Pairwise fun fs gs => ∀ f ∈ fs, ∀ g ∈ gs, f.path ≠ g.path := by
  induction h with
  | nil => exact .nil
  | @cons m fs modules lists hm hrest ih =>
    obtain ⟨hfirst, hothers⟩ := List.pairwise_cons.1 hshare
    refine List.pairwise_cons.2 ⟨fun gs hgs f hf g hg heq => ?_, ih hothers⟩
    obtain ⟨n, hn, hwalk⟩ := exists_of_forall₂ hrest hgs
    exact hfirst n hn f.path ⟨.inl ((mem_paths hm).2 ⟨f, hf, rfl⟩),
      .inl ((mem_paths hwalk).2 ⟨g, hg, heq.symm⟩)⟩

theorem walk_of_perm {modules modules' : List Module} (hperm : modules.Perm modules')
    (hshare : Unshared w modules) (selfContained : Bool) {fs : List FileInfo}
    (h : (View.merged modules selfContained).walk w = .ok fs) :
    (View.merged modules' selfContained).walk w = .ok fs := by
  obtain ⟨lists, hlists, heq⟩ := bind_eq_ok.1 h
  cases heq
  obtain ⟨lists', hlists', hperm'⟩ := List.perm_comp_forall₂ hperm.symm (mapM_eq_ok.1 hlists)
  have hapart := pairwise_lists (mapM_eq_ok.1 hlists) hshare
  have hapart' := pairwise_lists hlists' (hshare.perm hperm)
  refine bind_eq_ok.2 ⟨lists', mapM_eq_ok.2 hlists', congrArg Except.ok ?_⟩
  refine sortedBy_congr ?_ (nodup_firstOfPaths [] lists'.flatten)
  rw [firstOfPaths_flatten hapart, firstOfPaths_flatten hapart']
  exact (hperm'.map _).flatten

theorem Permuted.symm (h : v.Permuted v') : v'.Permuted v := by
  induction h with
  | merged selfContained h => exact .merged selfContained h.symm
  | only kinds h ih => exact .only kinds ih

theorem Permuted.walk_eq_ok (h : v.Permuted v') (hshare : Unshared w (Image.modulesOf v))
    {fs : List FileInfo} (hwalk : v.walk w = .ok fs) : v'.walk w = .ok fs := by
  induction h generalizing fs with
  | merged selfContained h => exact walk_of_perm h hshare selfContained hwalk
  | only kinds h ih =>
    obtain ⟨all, hall, heq⟩ := bind_eq_ok.1 hwalk
    exact bind_eq_ok.2 ⟨all, ih hshare hall, heq⟩

theorem Permuted.agree_walk (h : v.Permuted v') (hshare : Unshared w (Image.modulesOf v))
    (sure : Prop) : Agree sure (v.walk w) (v'.walk w) :=
  ⟨fun _ _ ha hb => Except.ok.inj ((h.walk_eq_ok hshare ha).symm.trans hb), fun _ _ =>
    ⟨h.walk_eq_ok hshare, h.symm.walk_eq_ok (hshare.perm h.perm)⟩⟩

end View

end Schemata.Module

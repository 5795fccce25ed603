import Schemata.Proofs.ModuleSet.OrderFree

/-!
# What a set has found out stays

Operations on a set settle what is found out about its modules and never change it afterwards,
whether they succeed or not. So an answer is given again by the set at any later time, in whatever
world it is asked.
-/

namespace Schemata

open Schemata.Module (Error)

namespace ModuleSet

/-- Whether a set has room for what may be found out about each of its modules, and no module was
found to import twice from another. -/
structure Tidy (s : ModuleSet) : Prop where
  imports : s.imports.length = s.modules.length
  digests : s.digests.length = s.modules.length
  distinct : ∀ i js, importCell s i = .settled (.ok js) → js.Nodup

/-- Whether a set is what another one was before more was found out about its modules. -/
structure Before (s t : ModuleSet) : Prop where
  modules : t.modules = s.modules
  inUse : t.inUse = s.inUse
  tidy : s.Tidy → t.Tidy
  index : ∀ o, s.index = .settled o → t.index = .settled o
  imports : ∀ i o, importCell s i = .settled o → importCell t i = .settled o
  digests : ∀ i o, digestCell s i = .settled o → digestCell t i = .settled o

variable {s t u : ModuleSet} {i : Nat}

theorem Before.refl (s : ModuleSet) : s.Before s :=
  ⟨rfl, rfl, id, fun _ => id, fun _ _ => id, fun _ _ => id⟩

theorem Before.trans (h : s.Before t) (h' : t.Before u) : s.Before u where
  modules := h'.modules.trans h.modules
  inUse := h'.inUse.trans h.inUse
  tidy := h'.tidy ∘ h.tidy
  index := fun o => h'.index o ∘ h.index o
  imports := fun i o => h'.imports i o ∘ h.imports i o
  digests := fun i o => h'.digests i o ∘ h.digests i o

theorem tidy_ofModules (modules : List Module) : (ofModules modules).Tidy := by
  refine ⟨List.length_map _, List.length_map _, fun i js h => ?_⟩
  rw [importCell, ofModules, List.getElem?_map] at h
  cases hm : modules[i]? <;> simp [hm] at h

/-! ### Cells -/

/-- A cell of a list after one of its cells was set. -/
theorem getD_set {α : Type} (cells : List (Memo Error α)) (i j : Nat) (m : Memo Error α) :
    (cells.set i m)[j]?.getD .unresolved =
      if i = j ∧ j < cells.length then m else cells[j]?.getD .unresolved := by
  rw [List.getElem?_set]
  by_cases hij : i = j
  · subst hij
    by_cases hlt : i < cells.length
    · simp [hlt]
    · simp [hlt]
  · simp [hij]

theorem getD_set_of_lt {α : Type} {cells : List (Memo Error α)} (m : Memo Error α)
    (h : i < cells.length) : (cells.set i m)[i]?.getD .unresolved = m := by
  rw [getD_set, if_pos ⟨rfl, h⟩]

/-- Setting a cell that was unresolved before changes no settled one. -/
theorem settled_of_set {α : Type} {old cells : List (Memo Error α)} {m : Memo Error α}
    (hopen : old[i]?.getD Memo.unresolved = .unresolved)
    (hkept : ∀ (j : Nat) (o : Except Error α), old[j]?.getD Memo.unresolved = .settled o →
      cells[j]?.getD Memo.unresolved = .settled o) {j : Nat} {o : Except Error α}
    (h : old[j]?.getD Memo.unresolved = .settled o) :
    (cells.set i m)[j]?.getD Memo.unresolved = .settled o := by
  rw [getD_set, if_neg]
  · exact hkept j o h
  · rintro ⟨rfl, _⟩
    rw [hopen] at h
    cases h

theorem Before.setIndex (hopen : s.index = .unresolved) (h : s.Before t)
    (m : Memo Error FileIndex) : s.Before { t with index := m } where
  modules := h.modules
  inUse := h.inUse
  tidy := fun hs => ⟨(h.tidy hs).imports, (h.tidy hs).digests, (h.tidy hs).distinct⟩
  index := fun o ho => by
    rw [hopen] at ho
    cases ho
  imports := h.imports
  digests := h.digests

theorem Before.setImports (hopen : importCell s i = .unresolved) (h : s.Before t)
    {m : Memo Error (List Nat)} (hm : ∀ js, m = .settled (.ok js) → js.Nodup) :
    s.Before { t with imports := t.imports.set i m } where
  modules := h.modules
  inUse := h.inUse
  tidy := by
    intro hs
    refine ⟨(List.length_set ..).trans (h.tidy hs).imports, (h.tidy hs).digests, fun j js hj => ?_⟩
    rw [importCell, getD_set] at hj
    split at hj
    · exact hm js hj
    · exact (h.tidy hs).distinct j js hj
  index := h.index
  imports := fun _ _ ho => settled_of_set hopen h.imports ho
  digests := h.digests

theorem Before.setDigests (hopen : digestCell s i = .unresolved) (h : s.Before t)
    (m : Memo Error Digest) : s.Before { t with digests := t.digests.set i m } where
  modules := h.modules
  inUse := h.inUse
  tidy := fun hs =>
    ⟨(h.tidy hs).imports, (List.length_set ..).trans (h.tidy hs).digests, (h.tidy hs).distinct⟩
  index := h.index
  imports := h.imports
  digests := fun _ _ ho => settled_of_set hopen h.digests ho

end ModuleSet

/-! ### Operations that lead on -/

section LeadsOn

variable {σ ε α β : Type} {r : σ → σ → Prop}

/-- Whether an operation leads from each state to one in a relation to it, also where it fails. -/
def LeadsOn (r : σ → σ → Prop) (act : ExceptT ε (StateM σ) α) : Prop := ∀ s, r s (act.run s).2

theorem exceptT_run_bind (act : ExceptT ε (StateM σ) α) (f : α → ExceptT ε (StateM σ) β) (s : σ) :
    (act >>= f).run s = match act.run s with
      | (.ok a, t) => (f a).run t
      | (.error e, t) => (.error e, t) := by
  show (act.run >>= ExceptT.bindCont f) s = _
  simp only [bind, StateT.bind]
  rcases act.run s with ⟨_ | _, _⟩ <;> rfl

theorem leadsOn_get (hrefl : ∀ s, r s s) : LeadsOn r (get : ExceptT ε (StateM σ) σ) := hrefl

variable (hrefl : ∀ s, r s s) (htrans : ∀ s t u, r s t → r t u → r s u)

include htrans in
theorem leadsOn_bind {act : ExceptT ε (StateM σ) α} {f : α → ExceptT ε (StateM σ) β}
    (h : LeadsOn r act) (hf : ∀ a, LeadsOn r (f a)) : LeadsOn r (act >>= f) := by
  intro s
  have hfirst := h s
  rw [exceptT_run_bind]
  rcases hact : act.run s with ⟨e | a, t⟩
  · rwa [hact] at hfirst
  · rw [hact] at hfirst
    exact htrans s t _ hfirst (hf a t)

include hrefl htrans

theorem leadsOn_mapM {f : α → ExceptT ε (StateM σ) β} {xs : List α}
    (h : ∀ x ∈ xs, LeadsOn r (f x)) : LeadsOn r (xs.mapM f) := by
  induction xs with
  | nil => exact hrefl
  | cons x xs ih =>
    obtain ⟨hx, hxs⟩ := List.forall_mem_cons.1 h
    rw [List.mapM_cons]
    exact leadsOn_bind htrans hx fun y => leadsOn_bind htrans (ih hxs) fun ys => hrefl

end LeadsOn

/-! ### Operations that keep what was found out -/

namespace SetAct

open ModuleSet (Before)

variable {α β : Type}

theorem on_bind_eq_ok {act : SetAct α} {f : α → SetAct β} {s t : ModuleSet} {b : β} :
    (act >>= f).on s = (.ok b, t) ↔ ∃ a u, act.on s = (.ok a, u) ∧ (f a).on u = (.ok b, t) := by
  rw [on_bind]
  rcases act.on s with ⟨e | a, u⟩
  · exact ⟨fun h => (by cases h), fun ⟨_, _, h, _⟩ => (by cases h)⟩
  · constructor
    · exact fun h => ⟨a, u, rfl, h⟩
    · rintro ⟨_, _, h, hrest⟩
      cases h
      exact hrest

/-- Whether an operation keeps all that a set has found out. -/
def Keeps (act : SetAct α) : Prop := LeadsOn ModuleSet.Before act

theorem Keeps.of_on {act : SetAct α} {s t : ModuleSet} {o : Except Error α} (h : act.Keeps)
    (hon : act.on s = (o, t)) : s.Before t := by
  have hkept : s.Before (act.on s).2 := h s
  rwa [hon] at hkept

theorem keeps_answer (a : Except Error α) : (ModuleSet.answer a).Keeps := Before.refl

theorem keeps_get : (get : SetAct ModuleSet).Keeps := Before.refl

theorem keeps_bind {act : SetAct α} {f : α → SetAct β} (h : act.Keeps) (hf : ∀ a, (f a).Keeps) :
    (act >>= f).Keeps := leadsOn_bind (r := ModuleSet.Before) (fun _ _ _ => Before.trans) h hf

theorem keeps_mapM {f : α → SetAct β} (h : ∀ a, (f a).Keeps) (xs : List α) :
    (xs.mapM f).Keeps :=
  leadsOn_mapM (r := ModuleSet.Before) Before.refl (fun _ _ _ => Before.trans) fun x _ => h x

/-- What is found out once is kept: the mark before and the outcome after go to a cell that was
unresolved. -/
theorem keeps_once {get : ModuleSet → Memo Error α} {set : Memo Error α → ModuleSet → ModuleSet}
    {find : SetAct α} (hfind : find.Keeps)
    (hmark : ∀ s, get s = .unresolved → s.Before (set .resolving s))
    (hsettle : ∀ s t o, get s = .unresolved → find.on (set .resolving s) = (o, t) → s.Before t →
      s.Before (set (.settled o) t)) : (ModuleSet.once get set find).Keeps := by
  intro s
  change s.Before ((ModuleSet.once get set find).on s).2
  cases hcell : get s with
  | settled o =>
    rw [on_once_settled hcell]
    exact .refl s
  | resolving =>
    rw [on_once_resolving hcell]
    exact .refl s
  | unresolved =>
    rcases hon : find.on (set .resolving s) with ⟨o, t⟩
    rw [on_once_unresolved hcell hon]
    exact hsettle s t o hcell hon ((hmark s hcell).trans (hfind.of_on hon))

/-- Asking again for what is found out once gives the same and changes nothing, with whatever
computation. -/
theorem on_once_again {get : ModuleSet → Memo Error α}
    {set : Memo Error α → ModuleSet → ModuleSet} {find : SetAct α} (find' : SetAct α)
    {s t : ModuleSet} {o : Except Error α} (h : (ModuleSet.once get set find).on s = (o, t))
    (hset : get s = .unresolved → ∀ t, find.on (set .resolving s) = (o, t) →
      get (set (.settled o) t) = .settled o) :
    (ModuleSet.once get set find').on t = (o, t) ∧
      (o.toOption.isSome = true → get t = .settled o) := by
  cases hcell : get s with
  | settled o' =>
    rw [on_once_settled hcell] at h
    cases h
    exact ⟨on_once_settled hcell _, fun _ => hcell⟩
  | resolving =>
    rw [on_once_resolving hcell] at h
    cases h
    exact ⟨on_once_resolving hcell _, fun hsome => by cases hsome⟩
  | unresolved =>
    rcases hon : find.on (set .resolving s) with ⟨o', t'⟩
    rw [on_once_unresolved hcell hon] at h
    cases h
    have hsettled := hset hcell t' hon
    exact ⟨on_once_settled hsettled _, fun _ => hsettled⟩

/-- Whether an operation keeps what was found out and, once it gave an answer, gives the same at any
later time and in any world, and changes nothing then. -/
structure Lasts (ask : World → SetAct α) : Prop where
  keeps : ∀ w, (ask w).Keeps
  again : ∀ w s a t, s.Tidy → (ask w).on s = (.ok a, t) → ∀ u, t.Before u →
    ∀ v, (ask v).on u = (.ok a, u)

theorem lasts_pure (a : α) : Lasts fun _ => (pure a : SetAct α) where
  keeps := fun _ => keeps_answer (.ok a)
  again := by
    intro w s b t _ h u _ v
    cases h
    rfl

theorem lasts_bind {ask : World → SetAct α} {f : World → α → SetAct β} (h : Lasts ask)
    (hf : ∀ a, Lasts fun w => f w a) : Lasts fun w => ask w >>= f w where
  keeps := fun w => keeps_bind (h.keeps w) fun a => (hf a).keeps w
  again := by
    intro w s b t hs hon u hu v
    obtain ⟨a, s₁, hask, hon⟩ := on_bind_eq_ok.1 hon
    have hrest := ((hf a).keeps w).of_on hon
    rw [on_bind_ok (h.again w s a s₁ hs hask u (hrest.trans hu) v)]
    exact (hf a).again w s₁ b t (((h.keeps w).of_on hask).tidy hs) hon u hu v

/-- The modules of a set stay, so what only looks at them lasts. -/
theorem lasts_modules (ask : World → List Module → SetAct α) (h : ∀ ms, Lasts fun w => ask w ms) :
    Lasts fun w => (do let s ← get; ask w s.modules) where
  keeps := fun w => keeps_bind keeps_get fun s => (h s.modules).keeps w
  again := by
    intro w s a t hs hon u hu v
    rw [on_bind_ok (on_get s)] at hon
    have hkeeps := ((h s.modules).keeps w).of_on hon
    rw [on_bind_ok (on_get u), hu.modules, hkeeps.modules]
    exact (h s.modules).again w s a t hs hon u hu v

end SetAct

namespace ModuleSet

open SetAct (Keeps Lasts)

variable {s t u : ModuleSet} {w : World} {i : Nat}

/-! ### Imports -/

theorem keeps_member (i : Nat) : (member i).Keeps := by
  refine SetAct.keeps_bind SetAct.keeps_get fun s => ?_
  split
  · exact SetAct.keeps_answer (.error _)
  · split
    · exact SetAct.keeps_answer (.ok _)
    · exact SetAct.keeps_answer (.error _)

theorem on_member_eq_ok {m : Module} :
    (member i).on s = (.ok m, t) ↔ s.modules[i]? = some m ∧ s.inUse = true ∧ s = t := by
  constructor
  · intro h
    unfold member at h
    rw [SetAct.on_bind_ok (SetAct.on_get s)] at h
    split at h
    · cases h
    · split at h
      · rename_i hm hin
        cases h
        exact ⟨hm, hin, rfl⟩
      · cases h
  · rintro ⟨hm, hin, rfl⟩
    exact on_member hm hin

theorem lasts_member (i : Nat) : Lasts fun _ => member i where
  keeps := fun _ => keeps_member i
  again := by
    intro w s m t _ h u hu v
    obtain ⟨hm, hin, rfl⟩ := on_member_eq_ok.1 h
    exact on_member_eq_ok.2 ⟨hu.modules ▸ hm, hu.inUse.trans hin, rfl⟩

theorem keeps_fileIndex (w : World) : (fileIndex w).Keeps := by
  refine SetAct.keeps_once (SetAct.keeps_bind SetAct.keeps_get fun s => SetAct.keeps_answer _) ?_ ?_
  · exact fun s hopen => (Before.refl s).setIndex hopen _
  · exact fun s t o hopen _ h => h.setIndex hopen _

/-- How the imports of a module are found out. -/
def findImports (w : World) (i : Nat) : SetAct (List Nat) := do
  let m ← member i
  let index ← fileIndex w
  let paths ← answer (importedPaths w m)
  let servers := paths.filterMap (server? index i)
  return (List.range index.length).filter servers.contains

theorem directImports_eq (w : World) (i : Nat) : directImports w i =
    once (fun s => importCell s i) (fun m s => { s with imports := s.imports.set i m })
      (findImports w i) := rfl

theorem keeps_findImports (w : World) (i : Nat) : (findImports w i).Keeps :=
  SetAct.keeps_bind (keeps_member i) fun _ => SetAct.keeps_bind (keeps_fileIndex w) fun _ =>
    SetAct.keeps_bind (SetAct.keeps_answer _) fun _ => SetAct.keeps_answer (.ok _)

theorem of_findImports {js : List Nat} (h : (findImports w i).on s = (.ok js, t)) :
    i < s.modules.length ∧ js.Nodup := by
  obtain ⟨m, _, hmember, h⟩ := SetAct.on_bind_eq_ok.1 h
  obtain ⟨index, _, _, h⟩ := SetAct.on_bind_eq_ok.1 h
  obtain ⟨paths, _, _, h⟩ := SetAct.on_bind_eq_ok.1 h
  cases h
  exact ⟨(List.getElem?_eq_some_iff.1 (on_member_eq_ok.1 hmember).1).1, List.nodup_range.filter _⟩

theorem keeps_directImports (w : World) (i : Nat) : (directImports w i).Keeps := by
  rw [directImports_eq]
  refine SetAct.keeps_once (keeps_findImports w i) ?_ ?_
  · exact fun s hopen => (Before.refl s).setImports hopen fun js h => by cases h
  · intro s t o hopen hon h
    refine h.setImports hopen fun js hjs => ?_
    cases hjs
    exact (of_findImports hon).2

theorem importCell_of_directImports {js : List Nat} (hs : s.Tidy)
    (h : (directImports w i).on s = (.ok js, t)) : importCell t i = .settled (.ok js) := by
  rw [directImports_eq] at h
  refine (SetAct.on_once_again (findImports w i) h fun hopen t' hon => ?_).2 rfl
  have hmark := (Before.refl s).setImports hopen (m := .resolving) fun js h => by cases h
  have hafter := hmark.trans ((keeps_findImports w i).of_on hon)
  refine getD_set_of_lt _ ?_
  rw [(hafter.tidy hs).imports, hafter.modules]
  exact (of_findImports hon).1

theorem nodup_of_directImports {js : List Nat} (hs : s.Tidy)
    (h : (directImports w i).on s = (.ok js, t)) : js.Nodup := by
  have ht := ((keeps_directImports w i).of_on h).tidy hs
  exact ht.distinct i js (importCell_of_directImports hs h)

theorem lasts_directImports (i : Nat) : Lasts fun w => directImports w i where
  keeps := fun w => keeps_directImports w i
  again := fun _ _ js _ hs h _ hu v => by
    rw [directImports_eq]
    exact SetAct.on_once_settled (hu.imports i (.ok js) (importCell_of_directImports hs h)) _

/-! ### Dependencies -/

theorem lasts_reachFrom (self steps : Nat) (queue reached : List Nat) :
    Lasts fun w => reachFrom w self steps queue reached := by
  induction steps generalizing queue reached with
  | zero => exact SetAct.lasts_pure reached
  | succ steps ih =>
    cases queue with
    | nil => exact SetAct.lasts_pure reached
    | cons j queue => exact SetAct.lasts_bind (lasts_directImports j) fun js => ih _ _

/-- How the dependencies of a module are found out, given those that it imports from. -/
def reachedFrom (w : World) (i : Nat) (direct : List Nat) (ms : List Module) :
    SetAct (List Dependency) := do
  let reached ← reachFrom w i ms.length direct direct
  return sortedBy (fun d => d.module.id)
    (reached.filterMap fun j => ms[j]?.map fun m => ⟨j, m, direct.contains j⟩)

theorem dependencies_eq (w : World) (i : Nat) : dependencies w i = (do
    let _ ← member i
    let direct ← directImports w i
    let s ← get
    reachedFrom w i direct s.modules) := rfl

theorem lasts_dependencies (i : Nat) : Lasts fun w => dependencies w i := by
  simp only [dependencies_eq]
  refine SetAct.lasts_bind (lasts_member i) fun _ =>
    SetAct.lasts_bind (lasts_directImports i) fun direct =>
      SetAct.lasts_modules (fun w ms => reachedFrom w i direct ms) fun ms => ?_
  exact SetAct.lasts_bind (lasts_reachFrom i ms.length direct direct) fun reached =>
    SetAct.lasts_pure _

/-- What is reached is reached once. -/
theorem nodup_of_reachFrom {self steps : Nat} {queue reached r : List Nat} (hs : s.Tidy)
    (hreached : reached.Nodup) (h : (reachFrom w self steps queue reached).on s = (.ok r, t)) :
    r.Nodup := by
  induction steps generalizing queue reached s with
  | zero =>
    cases h
    exact hreached
  | succ steps ih =>
    cases queue with
    | nil =>
      cases h
      exact hreached
    | cons j queue =>
      obtain ⟨js, u, himports, h⟩ := SetAct.on_bind_eq_ok.1 h
      refine ih (((keeps_directImports w j).of_on himports).tidy hs) ?_ h
      refine hreached.append ((nodup_of_directImports hs himports).filter _) fun x hx hnew => ?_
      have hnew := (List.mem_filter.1 hnew).2
      simp [hx] at hnew

/-- Members of a list at some of its positions, with these. -/
theorem position_of_filterMap {α : Type} {xs : List α} {f : Nat → α → Dependency}
    (hf : ∀ j x, (f j x).position = j) (positions : List Nat) :
    ((positions.filterMap fun j => xs[j]?.map (f j)).map Dependency.position).Sublist
      positions := by
  induction positions with
  | nil => exact .slnil
  | cons j positions ih =>
    rw [List.filterMap_cons]
    cases hx : xs[j]? with
    | none => exact ih.cons j
    | some x =>
      rw [Option.map_some, List.map_cons, hf]
      exact ih.cons_cons j

/-- The dependencies of a module are different modules of the set. -/
theorem of_dependencies {deps : List Dependency} (hs : s.Tidy)
    (h : (dependencies w i).on s = (.ok deps, t)) :
    (∀ d ∈ deps, s.modules[d.position]? = some d.module) ∧
      (deps.map Dependency.position).Nodup := by
  rw [dependencies_eq] at h
  obtain ⟨_, _, hmember, h⟩ := SetAct.on_bind_eq_ok.1 h
  obtain ⟨_, _, rfl⟩ := on_member_eq_ok.1 hmember
  obtain ⟨direct, u, hdirect, h⟩ := SetAct.on_bind_eq_ok.1 h
  rw [SetAct.on_bind_ok (SetAct.on_get u)] at h
  obtain ⟨reached, _, hreached, h⟩ := SetAct.on_bind_eq_ok.1 h
  cases h
  have hkeeps := (keeps_directImports w i).of_on hdirect
  have hnodup := nodup_of_reachFrom (hkeeps.tidy hs) (nodup_of_directImports hs hdirect) hreached
  rw [hkeeps.modules]
  constructor
  · intro d hd
    obtain ⟨j, _, hj⟩ := List.mem_filterMap.1 (mem_sortedBy.1 hd)
    obtain ⟨m, hm, rfl⟩ := Option.map_eq_some_iff.1 hj
    exact hm
  · rw [((sortedBy_perm _ _).map _).nodup_iff]
    exact hnodup.sublist (position_of_filterMap (fun _ _ => rfl) reached)

/-! ### Digests -/

theorem keeps_findDigest (w : World) {ask : Nat → SetAct Digest} (hask : ∀ i, (ask i).Keeps)
    (i : Nat) : (findDigest w ask i).Keeps := by
  refine SetAct.keeps_bind SetAct.keeps_get fun s => ?_
  split
  · exact SetAct.keeps_answer (.error _)
  · split
    · exact SetAct.keeps_answer _
    · exact SetAct.keeps_bind (SetAct.keeps_answer _) fun manifest =>
        SetAct.keeps_bind ((lasts_dependencies i).keeps w) fun deps =>
          SetAct.keeps_bind (SetAct.keeps_mapM (fun d => hask d.position) deps) fun ds =>
            SetAct.keeps_answer _

theorem keeps_digestWithin (w : World) (depth i : Nat) : (digestWithin w depth i).Keeps := by
  induction depth generalizing i with
  | zero => exact SetAct.keeps_answer (.error _)
  | succ depth ih =>
    rw [digestWithin_succ]
    refine SetAct.keeps_once (keeps_findDigest w ih i) ?_ ?_
    · exact fun s hopen => (Before.refl s).setDigests hopen _
    · exact fun s t o hopen _ h => h.setDigests hopen _

theorem keeps_digest (w : World) (i : Nat) : (digest w i).Keeps :=
  SetAct.keeps_bind SetAct.keeps_get fun _ => keeps_digestWithin w _ i

section Again

variable {o : Except Error Digest} (hs : s.Tidy) (hi : i < s.modules.length)
  (h : (digest w i).on s = (o, t))

include hs hi h

theorem again_of_digest (v : World) :
    (digest v i).on t = (o, t) ∧ (o.toOption.isSome = true → digestCell t i = .settled o) := by
  have hkeeps := (keeps_digest w i).of_on h
  rw [digest, SetAct.on_bind_ok (SetAct.on_get s), digestWithin_succ] at h
  rw [digest, SetAct.on_bind_ok (SetAct.on_get t), hkeeps.modules, digestWithin_succ]
  refine SetAct.on_once_again _ h fun hopen t' hon => getD_set_of_lt _ ?_
  have hfound := keeps_findDigest w (fun i => keeps_digestWithin w s.modules.length i) i
  have hafter := ((Before.refl s).setDigests hopen .resolving).trans (hfound.of_on hon)
  rw [(hafter.tidy hs).digests, hafter.modules]
  exact hi

/-- The digest of a module is found out once, with a failure as much as with an answer. -/
theorem digest_again (v : World) : (digest v i).on t = (o, t) := (again_of_digest hs hi h v).1

end Again

theorem digest_lasts {d : Digest} (hs : s.Tidy) (hi : i < s.modules.length)
    (h : (digest w i).on s = (.ok d, t)) (hu : t.Before u) (v : World) :
    (digest v i).on u = (.ok d, u) := by
  have hcell := hu.digests i (.ok d) ((again_of_digest hs hi h v).2 rfl)
  rw [digest, SetAct.on_bind_ok (SetAct.on_get u), digestWithin_succ]
  exact SetAct.on_once_settled hcell _

end ModuleSet

end Schemata

import Mathlib.Logic.Relation
import Mathlib.Data.List.Perm.Subperm
import Schemata.Proofs.ModuleSet.Knowledge
import Schemata.Proofs.Sorted

/-!
# Dependencies are what imports lead to

The dependencies that a set reports for a module are the other modules that a chain of imports
leads to, each once.
-/

namespace Schemata.ModuleSet

open Schemata.Module (Error)
open Relation (TransGen)

def idAt (modules : List Module) (i : Nat) : String := (modules[i]?.map Module.id).getD ""

/-- Whether one of some modules imports from another. -/
def Imports (w : World) (modules : List Module) (i j : Nat) : Prop := j ∈ importsOf w modules i

/-- Whether imports lead from one of some modules to another. -/
def LeadsTo (w : World) (modules : List Module) : Nat → Nat → Prop :=
  TransGen (Imports w modules)

variable {w : World} {modules : List Module} {s : ModuleSet}

theorem lt_of_leadsTo {i j : Nat} (h : LeadsTo w modules i j) :
    i < modules.length ∧ j < modules.length := by
  have source {a b : Nat} (hab : Imports w modules a b) : a < modules.length := by
    by_contra hlt
    have hnone : modules[a]? = none := List.getElem?_eq_none (Nat.le_of_not_lt hlt)
    simp [Imports, importsOf, hnone] at hab
  induction h with
  | single hij => exact ⟨source hij, lt_of_mem_importsOf hij⟩
  | tail _ hjk ih => exact ⟨ih.1, lt_of_mem_importsOf hjk⟩

theorem idAt_inj (hids : (modules.map Module.id).Nodup) {i j : Nat} (hi : i < modules.length)
    (hj : j < modules.length) (h : idAt modules i = idAt modules j) : i = j := by
  have hi' : i < (modules.map Module.id).length := by simpa using hi
  refine (List.getElem?_inj hi' hids).1 ?_
  rw [List.getElem?_map, List.getElem?_map]
  simpa [idAt, List.getElem?_eq_getElem hi, List.getElem?_eq_getElem hj] using h

/-- Whether some positions are reached from a module: they are led to by its imports, and none is
the module itself or repeated. -/
structure Reached (w : World) (modules : List Module) (start : Nat) (reached : List Nat) :
    Prop where
  nodup : reached.Nodup
  leads : ∀ x ∈ reached, LeadsTo w modules start x ∧ x ≠ start

theorem Reached.length_le {start : Nat} {reached : List Nat}
    (h : Reached w modules start reached) : reached.length ≤ modules.length := by
  have hsub : reached ⊆ List.range modules.length := fun x hx =>
    List.mem_range.2 (lt_of_leadsTo (h.leads x hx).1).2
  simpa using (List.subperm_of_subset h.nodup hsub).length_le

theorem Reached.append {start i : Nat} {reached : List Nat} (h : Reached w modules start reached)
    (hi : i ∈ reached) :
    Reached w modules start
      (reached ++ (importsOf w modules i).filter fun j => j ≠ start && !reached.contains j) := by
  constructor
  · rw [List.nodup_append]
    refine ⟨h.nodup, (nodup_importsOf w modules i).filter _, ?_⟩
    rintro a ha b hb rfl
    have hb := (List.mem_filter.1 hb).2
    simp [ha] at hb
  · intro x hx
    rcases List.mem_append.1 hx with hx | hx
    · exact h.leads x hx
    · have hx := List.mem_filter.1 hx
      have hne : x ≠ start := by
        have hx2 := hx.2
        simp only [Bool.and_eq_true, decide_eq_true_eq] at hx2
        exact hx2.1
      exact ⟨(h.leads i hi).1.tail hx.1, hne⟩

/-- Whether nothing is left to reach: imports lead nowhere else, except from positions that are
still in the queue. -/
def ClosedUpTo (w : World) (modules : List Module) (start : Nat) (queue reached : List Nat) : Prop :=
  ∀ x ∈ reached, x ∈ queue ∨ ∀ y, Imports w modules x y → y = start ∨ y ∈ reached

theorem ClosedUpTo.next {start i : Nat} {queue reached : List Nat}
    (h : ClosedUpTo w modules start (i :: queue) reached) :
    let next := (importsOf w modules i).filter fun j => j ≠ start && !reached.contains j
    ClosedUpTo w modules start (queue ++ next) (reached ++ next) := by
  intro next x hx
  rcases List.mem_append.1 hx with hx | hx
  · rcases h x hx with hq | hclosed
    · rcases List.mem_cons.1 hq with rfl | hq
      · right
        intro y hy
        by_cases hself : y = start
        · exact .inl hself
        · refine .inr (List.mem_append.2 ?_)
          by_cases hyr : y ∈ reached
          · exact .inl hyr
          · exact .inr (List.mem_filter.2 ⟨hy, by simp [hself, hyr]⟩)
      · exact .inl (List.mem_append_left _ hq)
    · exact .inr fun y hy => (hclosed y hy).imp_right (List.mem_append_left _)
  · exact .inl (List.mem_append_right _ hx)

theorem on_reachFrom (hlive : w.live = true) (hread : ∀ m ∈ modules, m.Readable w) (start : Nat)
    (steps : Nat) (queue reached : List Nat) (h : Coherent w modules s)
    (hq : ∀ x ∈ queue, x ∈ reached) (hr : Reached w modules start reached)
    (hc : ClosedUpTo w modules start queue reached)
    (hsteps : queue.length + modules.length ≤ steps + reached.length) :
    ∃ r t, (reachFrom w start steps queue reached).on s = (.ok r, t) ∧ Coherent w modules t ∧
      t.digests = s.digests ∧ Reached w modules start r ∧ reached ⊆ r ∧
      ClosedUpTo w modules start [] r := by
  induction steps generalizing queue reached s with
  | zero =>
    have hle := hr.length_le
    have hnil : queue = [] := List.length_eq_zero_iff.1 (by omega)
    subst hnil
    exact ⟨reached, s, rfl, h, rfl, hr, fun _ hx => hx, hc⟩
  | succ steps ih =>
    cases queue with
    | nil => exact ⟨reached, s, rfl, h, rfl, hr, fun _ hx => hx, hc⟩
    | cons i queue =>
      have hi : i ∈ reached := hq i List.mem_cons_self
      obtain ⟨t, ht, hcoh, hdig⟩ :=
        on_directImports hlive hread h (lt_of_leadsTo (hr.leads i hi).1).2
      obtain ⟨r, u, hu, hcoh', hdig', hr', hsub, hc'⟩ := ih (s := t)
        (queue ++ (importsOf w modules i).filter fun j => j ≠ start && !reached.contains j)
        (reached ++ (importsOf w modules i).filter fun j => j ≠ start && !reached.contains j)
        hcoh
        (fun x hx => by
          rcases List.mem_append.1 hx with hx | hx
          · exact List.mem_append_left _ (hq x (List.mem_cons_of_mem _ hx))
          · exact List.mem_append_right _ hx)
        (hr.append hi) hc.next
        (by simp only [List.length_append, List.length_cons] at hsteps ⊢; omega)
      refine ⟨r, u, ?_, hcoh', hdig'.trans hdig, hr',
        fun x hx => hsub (List.mem_append_left _ hx), hc'⟩
      rw [reachFrom, SetAct.on_bind_ok ht]
      exact hu

/-- What imports lead to from a module is reached as soon as nothing is left to reach. -/
theorem mem_of_leadsTo {start : Nat} {r : List Nat} (hdirect : importsOf w modules start ⊆ r)
    (hc : ClosedUpTo w modules start [] r) {y : Nat} (h : LeadsTo w modules start y) :
    y = start ∨ y ∈ r := by
  induction h with
  | single hy => exact .inr (hdirect hy)
  | tail _ hy ih =>
    rcases ih with rfl | hb
    · exact .inr (hdirect hy)
    · exact (hc _ hb).resolve_left List.not_mem_nil _ hy

/-- What a module at a position is listed as among the dependencies of another. -/
def dependencyAt (w : World) (modules : List Module) (i j : Nat) : Option Dependency :=
  modules[j]?.map fun m => ⟨j, m, (importsOf w modules i).contains j⟩

theorem map_position_dependencyAt {i : Nat} {reached : List Nat}
    (h : ∀ j ∈ reached, j < modules.length) :
    (reached.filterMap (dependencyAt w modules i)).map Dependency.position = reached := by
  induction reached with
  | nil => rfl
  | cons j reached ih =>
    have hj := h j List.mem_cons_self
    rw [List.filterMap_cons, dependencyAt, List.getElem?_eq_getElem hj]
    simp only [Option.map_some, List.map_cons]
    rw [ih fun k hk => h k (List.mem_cons_of_mem _ hk)]

theorem exists_reached_dependencies (hlive : w.live = true) (hread : ∀ m ∈ modules, m.Readable w)
    (h : Coherent w modules s) {i : Nat} (hi : i < modules.length) :
    ∃ reached t, (dependencies w i).on s =
        (.ok (sortedBy (fun d => d.module.id) (reached.filterMap (dependencyAt w modules i))), t) ∧
      Coherent w modules t ∧ t.digests = s.digests ∧ Reached w modules i reached ∧
      ∀ j, LeadsTo w modules i j → j ≠ i → j ∈ reached := by
  have hm : s.modules[i]? = some modules[i] := by
    rw [h.modules_eq, List.getElem?_eq_getElem hi]
  obtain ⟨t, ht, hcoh, hdig⟩ := on_directImports hlive hread h hi
  have hreached : Reached w modules i (importsOf w modules i) := by
    refine ⟨nodup_importsOf w modules i, fun x hx => ⟨.single hx, ?_⟩⟩
    rintro rfl
    exact not_mem_importsOf_self w modules x hx
  obtain ⟨r, u, hu, hcoh', hdig', hr, hsub, hc⟩ := on_reachFrom hlive hread i modules.length
    (importsOf w modules i) (importsOf w modules i) hcoh (fun _ hx => hx) hreached
    (fun x hx => .inl hx) (by omega)
  refine ⟨r, u, ?_, hcoh', hdig'.trans hdig, hr, fun j hj hne =>
    (mem_of_leadsTo hsub hc hj).resolve_left hne⟩
  rw [dependencies, SetAct.on_bind_ok (on_member hm h.inUse), SetAct.on_bind_ok ht,
    SetAct.on_bind_ok (SetAct.on_get t), hcoh.modules_eq, SetAct.on_bind_ok hu, SetAct.on_pure]
  rfl

theorem on_dependencies (hlive : w.live = true) (hread : ∀ m ∈ modules, m.Readable w)
    (h : Coherent w modules s) {i : Nat} (hi : i < modules.length) :
    ∃ deps t, (dependencies w i).on s = (.ok deps, t) ∧ Coherent w modules t ∧
      t.digests = s.digests ∧
      (∀ j, j ∈ deps.map Dependency.position ↔ LeadsTo w modules i j ∧ j ≠ i) ∧
      ((deps.map Dependency.position).Pairwise fun j k => idAt modules j ≤ idAt modules k) ∧
      ∀ d ∈ deps, modules[d.position]? = some d.module ∧
        (d.isDirect = true ↔ Imports w modules i d.position) := by
  obtain ⟨r, t, hrun, hcoh, hdig, hr, hall⟩ := exists_reached_dependencies hlive hread h hi
  have hdeps : ∀ d ∈ sortedBy (fun d => d.module.id) (r.filterMap (dependencyAt w modules i)),
      modules[d.position]? = some d.module ∧
        (d.isDirect = true ↔ Imports w modules i d.position) := by
    intro d hd
    obtain ⟨j, _, hj⟩ := List.mem_filterMap.1 (mem_sortedBy.1 hd)
    obtain ⟨m, hm, rfl⟩ := Option.map_eq_some_iff.1 hj
    exact ⟨hm, List.contains_iff_mem⟩
  refine ⟨_, t, hrun, hcoh, hdig, fun j => ?_, ?_, hdeps⟩
  · rw [((sortedBy_perm _ _).map Dependency.position).mem_iff,
      map_position_dependencyAt fun k hk => (lt_of_leadsTo (hr.leads k hk).1).2]
    exact ⟨hr.leads j, fun hj => hall j hj.1 hj.2⟩
  · have hid : ∀ d ∈ sortedBy (fun d => d.module.id) (r.filterMap (dependencyAt w modules i)),
        idAt modules d.position = d.module.id := by
      intro d hd
      simp [idAt, (hdeps d hd).1]
    refine List.pairwise_map.2 ((pairwise_sortedBy _ _).imp_of_mem fun {a b} ha hb hab => ?_)
    rw [hid a ha, hid b hb]
    exact hab

/-- No dependency is listed twice. -/
theorem nodup_dependencies (hlive : w.live = true) (hread : ∀ m ∈ modules, m.Readable w)
    (h : Coherent w modules s) {i : Nat} (hi : i < modules.length) {deps : List Dependency}
    {t : ModuleSet} (hdeps : (dependencies w i).on s = (.ok deps, t)) :
    (deps.map Dependency.position).Nodup := by
  obtain ⟨r, t', hrun, _, _, hr, _⟩ := exists_reached_dependencies hlive hread h hi
  obtain ⟨hlist, -⟩ := Prod.mk.inj (hdeps.symm.trans hrun)
  rw [Except.ok.inj hlist, ((sortedBy_perm _ _).map Dependency.position).nodup_iff,
    map_position_dependencyAt fun k hk => (lt_of_leadsTo (hr.leads k hk).1).2]
  exact hr.nodup

end Schemata.ModuleSet

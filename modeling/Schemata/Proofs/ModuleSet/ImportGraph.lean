import Schemata.Proofs.Graph
import Schemata.Proofs.ModuleSet.Coverage

/-!
# One relation behind dependencies, closures and cycles

Which module uses which is said by the contents of files alone. The dependencies of a module, the
local modules that targets need and the cycles that are refused are all found along this relation.
-/

namespace Schemata.ModuleSet

open Schemata.Module (Error)
open Relation (TransGen ReflTransGen)

variable {w : World} {modules : List Module} {s : ModuleSet} {i j : Nat}

/-! ### What files say -/

/-- Whether a schema file of a module imports a path. -/
def Says (w : World) (m : Module) (path : String) : Prop :=
  ∃ file content, file ∈ m.paths w ∧ Module.kindOf? file = some .schema ∧
    m.files.read w.volumes w.live file = .ok content ∧
    path ∈ Schema.scanImports (Text.lenientText content)

/-- Whether one of some modules uses another: a schema file of it imports a path that it does not
hold itself, and the other is the first that holds it. -/
def Uses (w : World) (modules : List Module) (i j : Nat) : Prop :=
  ∃ m n path, modules[i]? = some m ∧ modules[j]? = some n ∧ Says w m path ∧ path ∉ m.paths w ∧
    path ∈ n.paths w ∧ ∀ k < j, ∀ x : Module, modules[k]? = some x → path ∉ x.paths w

theorem says_of_mem_importedPaths {m : Module} {path : String} {paths : List String}
    (hread : m.Readable w) (hpaths : importedPaths w m = .ok paths) (h : path ∈ paths) :
    Says w m path := by
  obtain ⟨infos, hinfos, hpaths⟩ := bind_eq_ok.1 hpaths
  obtain ⟨imports, himports, hpaths⟩ := bind_eq_ok.1 hpaths
  cases hpaths
  obtain ⟨scanned, hscanned, hpath⟩ := List.mem_flatten.1 h
  obtain ⟨info, hinfo, hscan⟩ := exists_of_forall₂ (mapM_eq_ok.1 himports) hscanned
  obtain ⟨_, _, hscan⟩ := bind_eq_ok.1 hscan
  obtain ⟨content, hcontent, hscan⟩ := bind_eq_ok.1 hscan
  cases hscan
  obtain ⟨hlisted, hschema⟩ := List.mem_filter.1 hinfo
  obtain ⟨files, hwalk⟩ := hread.listed
  obtain ⟨infos', hinfos', hsame⟩ := Module.objects_of_walk hwalk
  cases hinfos.symm.trans hinfos'
  refine ⟨info.path, content, ?_, of_decide_eq_true hschema, mapError_eq_ok.1 hcontent, hpath⟩
  rw [Module.paths, hwalk]
  exact hsame ▸ List.mem_map_of_mem hlisted

/-- The module that serves an import is the first that holds the path, and the importing module
does not hold it. -/
theorem spec_server? {m : Module} {path : String} (hm : modules[i]? = some m)
    (h : server? (indexOf w modules) i path = some j) :
    path ∉ m.paths w ∧ (∃ n, modules[j]? = some n ∧ path ∈ n.paths w) ∧
      ∀ k < j, ∀ x : Module, modules[k]? = some x → path ∉ x.paths w := by
  simp only [server?] at h
  split at h
  case isTrue => cases h
  case isFalse hself =>
    have hholder : j ∈ holders (indexOf w modules) path := List.mem_of_mem_head? h
    have hj : j < modules.length := by
      have hlt := (mem_holders.1 hholder).1
      rwa [indexOf, List.length_map] at hlt
    refine ⟨fun hpath => hself ?_, ⟨modules[j], List.getElem?_eq_getElem hj, ?_⟩, ?_⟩
    · exact List.contains_iff_mem.2 ((mem_holders_indexOf hm).2 hpath)
    · exact (mem_holders_indexOf (List.getElem?_eq_getElem hj)).1 hholder
    · intro k hk x hx hpath
      rw [holders, List.head?_filter, List.find?_range_eq_some] at h
      have hmem := (mem_holders.1 ((mem_holders_indexOf hx).2 hpath)).2
      have hnot := h.2.2 k hk
      rw [List.contains_iff_mem.2 hmem] at hnot
      cases hnot

/-- What is found out about imports is what the files say. -/
theorem imports_iff_uses (hlive : w.live = true) (hread : ∀ m ∈ modules, m.Readable w) :
    Imports w modules i j ↔ Uses w modules i j := by
  constructor
  · intro h
    unfold Imports importsOf at h
    cases hm : modules[i]? with
    | none =>
      rw [hm] at h
      cases h
    | some m =>
      have hmread := hread m (List.mem_of_getElem? hm)
      obtain ⟨paths, hpaths⟩ := importedPaths_of_readable hlive hmread
      simp only [hm, hpaths, Except.toOption, Option.getD_some] at h
      obtain ⟨path, hpath, hserver⟩ :=
        List.mem_filterMap.1 (List.contains_iff_mem.1 (List.mem_filter.1 h).2)
      obtain ⟨hnot, ⟨n, hn, hheld⟩, hfirst⟩ := spec_server? hm hserver
      exact ⟨m, n, path, hm, hn, says_of_mem_importedPaths hmread hpaths hpath, hnot, hheld,
        hfirst⟩
  · rintro ⟨m, n, path, hm, hn, ⟨file, content, hfile, hschema, hcontent, hscan⟩, hnot, hheld,
      hfirst⟩
    exact imports_of_server? hlive (hread m (List.mem_of_getElem? hm)) hm hfile hschema hcontent
      hscan (server?_eq_some hm hn hnot hheld hfirst) (List.getElem?_eq_some_iff.1 hn).1

/-! ### The graph of all modules -/

theorem on_importGraph (hlive : w.live = true) (hread : ∀ m ∈ modules, m.Readable w)
    (h : Coherent w modules s) :
    ∃ t, (importGraph w).on s =
        (.ok ((List.range modules.length).map (importsOf w modules)), t) ∧
      Coherent w modules t := by
  obtain ⟨o, t, hrun, ht, hall⟩ := SetAct.on_mapM (f := directImports w) (I := Coherent w modules)
    (P := fun i o => o = .ok (importsOf w modules i)) (List.range modules.length) h
    fun pre i post hrange _ s hs => by
      have hi : i ∈ List.range modules.length := by simp [hrange]
      obtain ⟨t, ht, hcoh, _⟩ := on_directImports hlive hread hs (List.mem_range.1 hi)
      exact ⟨_, t, ht, hcoh, rfl⟩
  rcases hall with ⟨lists, rfl, hlists⟩ | ⟨_, _, _, _, _, _, hfail, _⟩
  · have heq : List.Forall₂ (· = ·) ((List.range modules.length).map (importsOf w modules)) lists :=
      List.forall₂_map_left_iff.2 (hlists.imp fun _ _ hlist => (Except.ok.inj hlist).symm)
    rw [List.forall₂_eq_eq_eq] at heq
    refine ⟨t, ?_, ht⟩
    rw [importGraph, SetAct.on_bind_ok (SetAct.on_get s), h.modules_eq, hrun, heq]
  · cases hfail

theorem getD_importGraph :
    (fun i => ((List.range modules.length).map (importsOf w modules))[i]?.getD []) =
      importsOf w modules := by
  funext i
  by_cases hi : i < modules.length
  · simp [List.getElem?_map, List.getElem?_range hi]
  · have hnone : modules[i]? = none := List.getElem?_eq_none (Nat.le_of_not_lt hi)
    simp [importsOf, hnone,
      List.getElem?_eq_none (l := List.range modules.length) (by simpa using hi)]

theorem importsOf_subset (i : Nat) : importsOf w modules i ⊆ List.range modules.length :=
  fun _ hj => List.mem_range.2 (lt_of_mem_importsOf hj)

/-! ### What targets need -/

theorem filterMap_getElem?_range {α : Type} (xs : List α) :
    (List.range xs.length).filterMap (fun i => xs[i]?) = xs := by
  induction xs with
  | nil => rfl
  | cons x xs ih =>
    rw [List.length_cons, List.range_succ_eq_map, List.filterMap_cons, List.filterMap_map]
    simpa [Function.comp_def] using ih

/-- The closure of the targets is the local modules that they lead to, in order. -/
theorem on_targetClosure (hlive : w.live = true) (hread : ∀ m ∈ modules, m.Readable w)
    (hids : (modules.map Module.id).Nodup) (h : Coherent w modules s) :
    ∃ closure t, (targetClosure w).on s = (.ok closure, t) ∧ Coherent w modules t ∧
      closure.Sublist modules ∧ ∀ (i : Nat) (m : Module), modules[i]? = some m →
        (m ∈ closure ↔ m.isLocal = true ∧ ∃ (k : Nat) (n : Module), modules[k]? = some n ∧
          n.isLocal = true ∧ n.target = true ∧ ReflTransGen (Imports w modules) k i) := by
  obtain ⟨t, hgraph, ht⟩ := on_importGraph hlive hread h
  let starts := (List.range modules.length).filter fun i =>
    modules[i]?.any fun m => m.isLocal && m.target
  let reached := Graph.reachable (importsOf w modules) modules.length starts
  let closure := (((List.range modules.length).filter reached.contains).filterMap
    fun i => modules[i]?).filter Module.isLocal
  have hreached (i : Nat) : i ∈ reached ↔ ∃ k ∈ starts, ReflTransGen (Imports w modules) k i :=
    Graph.mem_reachable (fun i _ => importsOf_subset i) (fun i hi => (List.mem_filter.1 hi).1)
      (Nat.le_of_eq List.length_range)
  refine ⟨closure, t, ?_, ht, ?_, ?_⟩
  · rw [targetClosure, SetAct.on_bind_ok hgraph, SetAct.on_bind_ok (SetAct.on_get t), ht.modules_eq,
      SetAct.on_pure]
    simp only [getD_importGraph, List.length_map, List.length_range]
    rfl
  · have hsub := ((List.filter_sublist (p := reached.contains)
      (l := List.range modules.length)).filterMap fun i => modules[i]?)
    rw [filterMap_getElem?_range] at hsub
    exact List.filter_sublist.trans hsub
  · intro i m hm
    have hi : i < modules.length := (List.getElem?_eq_some_iff.1 hm).1
    constructor
    · intro hmem
      obtain ⟨hmem, hlocal⟩ := List.mem_filter.1 hmem
      obtain ⟨j, hj, hjm⟩ := List.mem_filterMap.1 hmem
      obtain rfl : i = j := (List.getElem?_inj hi hids.of_map).1 (hm.trans hjm.symm)
      obtain ⟨k, hk, hki⟩ := (hreached i).1 (List.contains_iff_mem.1 (List.mem_filter.1 hj).2)
      obtain ⟨n, hn, htarget⟩ := (Option.any_eq_true _ _).1 (List.mem_filter.1 hk).2
      obtain ⟨hnlocal, hntarget⟩ := Bool.and_eq_true_iff.1 htarget
      exact ⟨hlocal, k, n, hn, hnlocal, hntarget, hki⟩
    · rintro ⟨hlocal, k, n, hn, hnlocal, hntarget, hki⟩
      have hk : k ∈ starts := by
        refine List.mem_filter.2 ⟨List.mem_range.2 (List.getElem?_eq_some_iff.1 hn).1, ?_⟩
        rw [hn, Option.any_some, hnlocal, hntarget]
        rfl
      have hpos : i ∈ (List.range modules.length).filter reached.contains :=
        List.mem_filter.2
          ⟨List.mem_range.2 hi, List.contains_iff_mem.2 ((hreached i).2 ⟨k, hk, hki⟩)⟩
      exact List.mem_filter.2 ⟨List.mem_filterMap.2 ⟨i, hpos, hm⟩, hlocal⟩

/-! ### Cycles -/

theorem edge_reverse (next : Nat → List Nat) :
    Graph.Edge (fun i => (next i).reverse) = Graph.Edge next := by
  funext i j
  exact propext List.mem_reverse

/-- Whether IDs in order are those of a circle of modules: of all that one on a circle leads to and
that lead back to it. -/
def IsCircle (uses : Nat → Nat → Prop) (modules : List Module) (ids : List String) : Prop :=
  ids.Pairwise (· < ·) ∧ ∃ v, TransGen uses v v ∧
    ∀ id, id ∈ ids ↔ ∃ (i : Nat) (m : Module), modules[i]? = some m ∧ m.id = id ∧
      ReflTransGen uses v i ∧ ReflTransGen uses i v

theorem isCircle_of_members (hids : (modules.map Module.id).Nodup) {members : List Nat}
    (hnodup : members.Nodup) {v : Nat} (hcycle : TransGen (Imports w modules) v v)
    (hmembers : ∀ i, i ∈ members ↔ i < modules.length ∧
      ReflTransGen (Imports w modules) v i ∧ ReflTransGen (Imports w modules) i v) :
    IsCircle (Imports w modules) modules
      (sortedBy (fun x => x) (members.filterMap fun i => modules[i]?.map Module.id)) := by
  have hdistinct : (members.filterMap fun i => modules[i]?.map Module.id).Nodup := by
    refine hnodup.filterMap fun i j id hi hj => ?_
    obtain ⟨m, hm, -⟩ := Option.map_eq_some_iff.1 hi
    have hlt : i < (modules.map Module.id).length := by
      simpa using (List.getElem?_eq_some_iff.1 hm).1
    refine (List.getElem?_inj hlt hids).1 ?_
    rw [List.getElem?_map, List.getElem?_map]
    exact (Option.mem_def.1 hi).trans (Option.mem_def.1 hj).symm
  refine ⟨pairwise_lt_of_nodup (pairwise_sortedBy _ _) ((sortedBy_perm _ _).nodup_iff.2 hdistinct),
    v, hcycle, fun id => ?_⟩
  rw [mem_sortedBy, List.mem_filterMap]
  constructor
  · rintro ⟨i, hi, hid⟩
    obtain ⟨m, hm, hid⟩ := Option.map_eq_some_iff.1 hid
    exact ⟨i, m, hm, hid, ((hmembers i).1 hi).2⟩
  · rintro ⟨i, m, hm, rfl, hreach⟩
    exact ⟨i, (hmembers i).2 ⟨(List.getElem?_eq_some_iff.1 hm).1, hreach⟩, by rw [hm]; rfl⟩

theorem on_checkAcyclic (hlive : w.live = true) (hread : ∀ m ∈ modules, m.Readable w)
    (hids : (modules.map Module.id).Nodup) (h : Coherent w modules s) :
    ∃ o t, (checkAcyclic w).on s = (o, t) ∧ Coherent w modules t ∧
      ((o = .ok () ∧ ∀ i, ¬ TransGen (Imports w modules) i i) ∨
        ∃ ids, o = .error (.cycle (ids ++ ids.take 1)) ∧
          IsCircle (Imports w modules) modules ids) := by
  obtain ⟨t, hgraph, ht⟩ := on_importGraph hlive hread h
  let next : Nat → List Nat := fun i => (importsOf w modules i).reverse
  have hedge : Graph.Edge next = Imports w modules := edge_reverse (importsOf w modules)
  have hclosed : ∀ i ∈ List.range modules.length, next i ⊆ List.range modules.length :=
    fun i _ j hj => importsOf_subset i (List.mem_reverse.1 hj)
  have hnext : (fun i => (((List.range modules.length).map (importsOf w modules))[i]?.getD
      []).reverse) = next := by
    funext i
    exact congrArg List.reverse (congrFun getD_importGraph i)
  rw [checkAcyclic, SetAct.on_bind_ok hgraph, SetAct.on_bind_ok (SetAct.on_get t), ht.modules_eq,
    List.length_map, List.length_range, hnext]
  cases hcycles : Graph.cycles next (List.range modules.length) with
  | nil =>
    refine ⟨.ok (), t, rfl, ht, .inl ⟨rfl, fun i hi => ?_⟩⟩
    refine (Graph.cycles_eq_nil List.nodup_range hclosed).1 hcycles i
      (List.mem_range.2 (lt_of_leadsTo hi).1) ?_
    rw [Graph.OnCycle, hedge]
    exact hi
  | cons members others =>
    refine ⟨_, t, rfl, ht, .inr ⟨_, rfl, ?_⟩⟩
    obtain ⟨hnodup, v, -, hcycle, hmembers⟩ :=
      Graph.component_of_mem_cycles List.nodup_range hclosed
      (hcycles ▸ List.mem_cons_self : members ∈ Graph.cycles next _)
    simp only [Graph.OnCycle, Graph.Reaches, hedge] at hcycle hmembers
    exact isCircle_of_members hids hnodup hcycle fun i => (hmembers i).trans (by
      rw [List.mem_range])

/-! ### All along one relation -/

theorem imports_eq_uses (hlive : w.live = true) (hread : ∀ m ∈ modules, m.Readable w) :
    Imports w modules = Uses w modules := by
  funext i j
  exact propext (imports_iff_uses hlive hread)

theorem pairwise_lt_id_dependencies (hids : (modules.map Module.id).Nodup)
    {deps : List Dependency} (hdeps : ∀ d ∈ deps, modules[d.position]? = some d.module)
    (hnodup : (deps.map Dependency.position).Nodup)
    (hsorted : (deps.map Dependency.position).Pairwise fun j k => idAt modules j ≤ idAt modules k) :
    (deps.map fun d => d.module.id).Pairwise (· < ·) := by
  have hid : deps.map (fun d => d.module.id) =
      (deps.map Dependency.position).map (idAt modules) := by
    rw [List.map_map]
    exact List.map_congr_left fun d hd => by simp [idAt, hdeps d hd]
  have hlt : ∀ j ∈ deps.map Dependency.position, j < modules.length := by
    intro j hj
    obtain ⟨d, hd, rfl⟩ := List.mem_map.1 hj
    exact (List.getElem?_eq_some_iff.1 (hdeps d hd)).1
  rw [hid]
  refine pairwise_lt_of_nodup (List.pairwise_map.2 hsorted) ?_
  exact hnodup.map_on fun j hj k hk heq => idAt_inj hids (hlt j hj) (hlt k hk) heq

/-- In a set whose files can be read the dependencies of a module are the others that it leads to,
by ID, and are direct where it uses them; the closure of the targets is the local modules that they
lead to, in order; and the set is refused exactly if modules lead back to themselves, with the IDs
of one circle, the first of them once more at the end. -/
theorem along_uses (hlive : w.live = true) (hread : ∀ m ∈ modules, m.Readable w)
    (hids : (modules.map Module.id).Nodup) (h : Coherent w modules s) :
    (∀ i < modules.length, ∃ deps t, (dependencies w i).on s = (.ok deps, t) ∧
      Coherent w modules t ∧
      (∀ j, j ∈ deps.map Dependency.position ↔ TransGen (Uses w modules) i j ∧ j ≠ i) ∧
      (deps.map fun d => d.module.id).Pairwise (· < ·) ∧
      ∀ d ∈ deps, modules[d.position]? = some d.module ∧
        (d.isDirect = true ↔ Uses w modules i d.position)) ∧
    (∃ closure t, (targetClosure w).on s = (.ok closure, t) ∧ Coherent w modules t ∧
      closure.Sublist modules ∧ ∀ (i : Nat) (m : Module), modules[i]? = some m →
        (m ∈ closure ↔ m.isLocal = true ∧ ∃ (k : Nat) (n : Module), modules[k]? = some n ∧
          n.isLocal = true ∧ n.target = true ∧ ReflTransGen (Uses w modules) k i)) ∧
    ∃ o t, (checkAcyclic w).on s = (o, t) ∧ Coherent w modules t ∧
      ((o = .ok () ∧ ∀ i, ¬ TransGen (Uses w modules) i i) ∨
        ∃ ids, o = .error (.cycle (ids ++ ids.take 1)) ∧
          IsCircle (Uses w modules) modules ids) := by
  rw [← imports_eq_uses hlive hread]
  refine ⟨fun i hi => ?_, on_targetClosure hlive hread hids h, on_checkAcyclic hlive hread hids h⟩
  obtain ⟨deps, t, hrun, hcoh, _, hmem, hsorted, hdeps⟩ := on_dependencies hlive hread h hi
  have hlt := pairwise_lt_id_dependencies hids (fun d hd => (hdeps d hd).1)
    (nodup_dependencies hlive hread h hi hrun) hsorted
  exact ⟨deps, t, hrun, hcoh, hmem, hlt, hdeps⟩

/-- Two modules that use each other, one that leads to them, and two that hold the same path. Only
the first is a target. -/
def entangled : List Module :=
  [workspaceModule "app" [("app.schema", "import \"b.schema\";")],
    { workspaceModule "b" [("b.schema", "import \"c.schema\"; import \"shared.schema\";")] with
      target := false },
    { workspaceModule "c" [("c.schema", "import \"b.schema\";")] with target := false },
    { workspaceModule "d" [("shared.schema", "")] with target := false },
    { workspaceModule "e" [("shared.schema", "")] with target := false }]

theorem along_uses_entangled :
    World.empty.live = true ∧ (∀ m ∈ entangled, m.Readable World.empty) ∧
      (entangled.map Module.id).Nodup ∧ Coherent World.empty entangled (ofModules entangled) ∧
      TransGen (Uses World.empty entangled) 0 3 ∧ ¬ TransGen (Uses World.empty entangled) 0 4 ∧
      IsCircle (Uses World.empty entangled) entangled ["b", "c"] := by
  have hread : ∀ m ∈ entangled, m.Readable World.empty := by decide +kernel
  have hids : (entangled.map Module.id).Nodup := by decide +kernel
  have hcoherent := coherent_ofModules World.empty entangled
  obtain ⟨hdeps, -, o, t, hrefused, -, hcircle⟩ := along_uses rfl hread hids hcoherent
  obtain ⟨deps, _, hrun, -, hmem, -⟩ := hdeps 0 (by decide)
  have hpositions : deps.map Dependency.position = [1, 2, 3] := by
    have hfound : ((dependencies World.empty 0).on (ofModules entangled)).1.toOption.map
        (List.map Dependency.position) = some [1, 2, 3] := by decide +kernel
    rw [hrun] at hfound
    exact Option.some.inj hfound
  rw [hpositions] at hmem
  refine ⟨rfl, hread, hids, hcoherent, ((hmem 3).1 (by decide)).1, fun h => ?_, ?_⟩
  · exact absurd ((hmem 4).2 ⟨h, by decide⟩) (by decide)
  · have hids : ((checkAcyclic World.empty).on (ofModules entangled)).1 =
        .error (.cycle ["b", "c", "b"]) := by decide +kernel
    rw [hrefused] at hids
    rcases hcircle with ⟨hok, -⟩ | ⟨ids, heq, hcircle⟩
    · cases hok.symm.trans hids
    · have hrepeated : ids ++ ids.take 1 = ["b", "c", "b"] :=
        Error.cycle.inj (Except.error.inj (heq.symm.trans hids))
      match ids with
      | [] => cases hrepeated
      | id :: ids =>
        have hcut : (id :: ids ++ [id]).dropLast = ["b", "c"] := congrArg List.dropLast hrepeated
        rw [List.dropLast_concat] at hcut
        rwa [hcut] at hcircle

end Schemata.ModuleSet

import Mathlib.Data.List.Nodup
import Schemata.Image.Compilation
import Schemata.Proofs.Graph
import Schemata.Proofs.Sorted

/-!
# Imports among loaded files

The files that were read are the nodes of two graphs: of their imports, and of their public imports.
The circles that are reported are the cycles of the first; a file may refer to what its imports
reach in the second.
-/

namespace Schemata.Image

open Source
open Schemata.Graph (Edge Reaches OnCycle)

variable {s : Sources}

/-! ### Numbers of paths -/

theorem number?_eq_some (hnodup : (s.files.map SourceFile.path).Nodup) {path : String} {n : Nat} :
    s.number? path = some n ↔ ∃ f, s.files[n]? = some f ∧ f.path = path := by
  rw [Sources.number?, List.findIdx?_eq_some_iff_getElem]
  constructor
  · rintro ⟨hn, hpath, _⟩
    exact ⟨s.files[n], List.getElem?_eq_getElem hn, of_decide_eq_true hpath⟩
  · rintro ⟨f, hf, hpath⟩
    obtain ⟨hn, rfl⟩ := List.getElem?_eq_some_iff.1 hf
    refine ⟨hn, decide_eq_true hpath, fun j hj hjpath => ?_⟩
    have hjn : j < s.files.length := by omega
    have heq : (s.files.map SourceFile.path)[j]? = (s.files.map SourceFile.path)[n]? := by
      simp only [List.getElem?_map, List.getElem?_eq_getElem hjn, List.getElem?_eq_getElem hn,
        Option.map_some, of_decide_eq_true hjpath, hpath]
    have hsame := (List.getElem?_inj (by simpa using hjn) hnodup).1 heq
    omega

theorem number?_eq_none {path : String} :
    s.number? path = none ↔ path ∉ s.files.map SourceFile.path := by
  simp [Sources.number?]

theorem number?_inj {p q : String} {n : Nat} (hp : s.number? p = some n)
    (hq : s.number? q = some n) : p = q := by
  rw [Sources.number?, List.findIdx?_eq_some_iff_getElem] at hp hq
  obtain ⟨_, hp, _⟩ := hp
  obtain ⟨_, hq, _⟩ := hq
  exact (of_decide_eq_true hp).symm.trans (of_decide_eq_true hq)

theorem number?_lt {path : String} {n : Nat} (h : s.number? path = some n) :
    n < s.files.length := by
  rw [Sources.number?, List.findIdx?_eq_some_iff_getElem] at h
  exact h.1

/-! ### The two graphs -/

/-- The files that a file imports, by number. -/
def imports (s : Sources) : Nat → List Nat := Graph.successors (importLists s)

/-- The files that a file imports publicly, by number. -/
def publicly (s : Sources) : Nat → List Nat :=
  Graph.successors (s.files.map s.publicImports).toArray

theorem mem_imports {n m : Nat} :
    m ∈ imports s n ↔
      ∃ f, s.files[n]? = some f ∧ ∃ i ∈ f.file.imports, s.number? i.path = some m := by
  simp only [imports, Graph.successors, importLists, List.getElem?_toArray, List.getElem?_map]
  cases s.files[n]? with
  | none => simp
  | some f => simp [Sources.importsOf]

theorem mem_publicly {n m : Nat} :
    m ∈ publicly s n ↔
      ∃ f, s.files[n]? = some f ∧
        ∃ i ∈ f.file.imports, i.isPublic = true ∧ s.number? i.path = some m := by
  simp only [publicly, Graph.successors, List.getElem?_toArray, List.getElem?_map]
  cases s.files[n]? with
  | none => simp
  | some f => simp [Sources.publicImports, and_assoc]

theorem imports_closed : ∀ n ∈ List.range s.files.length,
    imports s n ⊆ List.range s.files.length := by
  intro n _ m hm
  obtain ⟨_, _, _, _, hnumber⟩ := mem_imports.1 hm
  exact List.mem_range.2 (number?_lt hnumber)

theorem publicly_closed : ∀ n ∈ List.range s.files.length,
    publicly s n ⊆ List.range s.files.length := by
  intro n _ m hm
  obtain ⟨_, _, _, _, _, hnumber⟩ := mem_publicly.1 hm
  exact List.mem_range.2 (number?_lt hnumber)

/-! ### Missing imports -/

theorem missingImports_eq_nil :
    missingImports s = [] ↔
      ∀ f ∈ s.files, ∀ i ∈ f.file.imports, i.path ∈ s.files.map SourceFile.path := by
  simp only [missingImports, List.flatMap_eq_nil_iff, List.map_eq_nil_iff, List.filter_eq_nil_iff,
    Option.isNone_iff_eq_none, number?_eq_none, not_not]

theorem isError_missingImports : ∀ d ∈ missingImports s, d.isError = true := by
  intro d hd
  obtain ⟨f, _, hd⟩ := List.mem_flatMap.1 hd
  obtain ⟨i, _, rfl⟩ := List.mem_map.1 hd
  rfl

/-! ### Circles -/

theorem isError_importCycle? {members : List FileId} {d : Diagnostic}
    (h : importCycle? s members = some d) : d.isError = true := by
  obtain ⟨first, _, rfl⟩ := Option.map_eq_some_iff.1 h
  rfl

theorem isError_importCycles : ∀ d ∈ importCycles s, d.isError = true := by
  intro d hd
  obtain ⟨members, _, hd⟩ := List.mem_filterMap.1 hd
  exact isError_importCycle? hd

theorem importCycle?_ne_none {members : List FileId} (hne : members ≠ [])
    (hrange : members ⊆ List.range s.files.length) : importCycle? s members ≠ none := by
  obtain ⟨n, hn⟩ := List.exists_mem_of_ne_nil _ hne
  have hlt : n < s.files.length := List.mem_range.1 (hrange hn)
  have hmem : s.files[n] ∈ sortedBy SourceFile.path (members.filterMap fun n => s.files[n]?) :=
    mem_sortedBy.2 (List.mem_filterMap.2 ⟨n, hn, List.getElem?_eq_getElem hlt⟩)
  simp only [importCycle?, ne_eq, Option.map_eq_none_iff, List.head?_eq_none_iff]
  exact List.ne_nil_of_mem hmem

theorem importCycles_eq_nil :
    importCycles s = [] ↔ ∀ n < s.files.length, ¬ OnCycle (imports s) n := by
  have hcycles := Graph.cycles_eq_nil List.nodup_range (imports_closed (s := s))
  simp only [List.mem_range] at hcycles
  rw [← hcycles]
  constructor
  · intro h
    rw [List.eq_nil_iff_forall_not_mem]
    intro members hmembers
    obtain ⟨hne, hrange⟩ := Graph.mem_cycles hmembers
    exact importCycle?_ne_none hne hrange (List.filterMap_eq_nil_iff.1 h members hmembers)
  · intro h
    show List.filterMap (importCycle? s) (Graph.cycles (imports s) _) = []
    rw [h]
    rfl

/-! ### Visibility -/

theorem mem_passedOn {t n : Nat} (ht : t < s.files.length) :
    n ∈ Graph.successors s.passedOn t ↔ Reaches (publicly s) t n := by
  have hstarts : [t] ⊆ List.range s.files.length :=
    List.cons_subset.2 ⟨List.mem_range.2 ht, List.nil_subset _⟩
  have hreach := Graph.mem_reachable (x := n) publicly_closed hstarts (Nat.le_of_eq List.length_range)
  simp only [Graph.successors, Sources.passedOn, List.getElem?_toArray, List.getElem?_map,
    List.getElem?_range ht, Option.map_some, Option.getD_some]
  refine hreach.trans ⟨?_, fun h => ⟨t, List.mem_singleton_self t, h⟩⟩
  rintro ⟨v, hv, h⟩
  exact List.mem_singleton.1 hv ▸ h

theorem mem_visibleThrough {f : SourceFile} {n : Nat} :
    (∃ files ∈ s.visibleThrough s.passedOn f, n ∈ files) ↔
      ∃ i ∈ f.file.imports, ∃ t, s.number? i.path = some t ∧ Reaches (publicly s) t n := by
  simp only [Sources.visibleThrough, Sources.importsOf, List.map_map, List.mem_map,
    Function.comp_apply]
  constructor
  · rintro ⟨_, ⟨i, hi, rfl⟩, hn⟩
    cases ht : s.number? i.path with
    | none =>
      rw [ht] at hn
      cases hn
    | some t =>
      rw [ht] at hn
      exact ⟨i, hi, t, ht, (mem_passedOn (number?_lt ht)).1 hn⟩
  · rintro ⟨i, hi, t, ht, hreach⟩
    refine ⟨_, ⟨i, hi, rfl⟩, ?_⟩
    rw [ht]
    exact (mem_passedOn (number?_lt ht)).2 hreach

end Schemata.Image

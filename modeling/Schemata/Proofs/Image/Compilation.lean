import Schemata.Proofs.Image.Imports
import Schemata.Proofs.Image.Linking

/-!
# Compiling without errors

Compiling sources gives no errors exactly when none of its passes finds any: reading, looking up
imports, looking for circles, collecting symbols and linking each file.
-/

namespace Schemata.Image

open Source
open Schemata.Graph (OnCycle Reaches)

/-! ### Errors in order -/

theorem ordered_eq_nil {ds : List Diagnostic} (h : ∀ d ∈ ds, d.isError = true) :
    ordered ds = [] ↔ ds = [] := by
  have hfilter : ds.filter Diagnostic.isError = ds := List.filter_eq_self.2 h
  have hperm := sortedWith_perm (fun a b => (compareDiagnostics a b).isLE) ds
  rw [ordered, hfilter]
  constructor
  · intro hnil
    rw [hnil] at hperm
    exact List.nil_perm.1 hperm
  · intro hnil
    rw [hnil] at hperm ⊢
    exact List.perm_nil.1 hperm

theorem countErrors_pos {ds : List Diagnostic} (h : ∀ d ∈ ds, d.isError = true) :
    Diagnostic.countErrors ds > 0 ↔ ds ≠ [] := by
  rw [Diagnostic.countErrors, gt_iff_lt, List.countP_pos_iff]
  constructor
  · rintro ⟨d, hd, _⟩
    exact List.ne_nil_of_mem hd
  · intro hne
    obtain ⟨d, hd⟩ := List.exists_mem_of_ne_nil ds hne
    exact ⟨d, hd, h d hd⟩

/-! ### Passes -/

variable {s : Sources}

theorem mem_zipIdx {f : SourceFile} {n : Nat} :
    (f, n) ∈ s.files.zipIdx ↔ s.files[n]? = some f := List.mem_zipIdx_iff_getElem?

theorem errors_linkAll (symbols : Table Symbol) (keepPlaces : Bool) :
    ((linkAll s symbols keepPlaces).flatMap fun (_, l) => l.errors) = [] ↔
      ∀ (n : Nat) f, s.files[n]? = some f → ∀ m ∈ messagesOf f.file,
        (contextOf s symbols n f).Links m := by
  simp only [linkAll, List.flatMap_eq_nil_iff, List.forall_mem_map, errors_linkFile_eq_nil]
  constructor
  · intro h n f hf
    exact h (f, n) (mem_zipIdx.2 hf)
  · rintro h ⟨f, n⟩ hf
    exact h n f (mem_zipIdx.1 hf)

theorem isError_linkAll (symbols : Table Symbol) (keepPlaces : Bool) :
    ∀ d ∈ (linkAll s symbols keepPlaces).flatMap fun (_, l) => l.errors, d.isError = true := by
  intro d hd
  obtain ⟨_, hl, hd⟩ := List.mem_flatMap.1 hd
  obtain ⟨⟨f, n⟩, _, rfl⟩ := List.mem_map.1 hl
  exact isError_linkFile s symbols keepPlaces n f d hd

/-- Whether no pass finds an error in sources. -/
structure Sound (s : Sources) : Prop where
  parses : s.errors = []
  present : ∀ f ∈ s.files, ∀ i ∈ f.file.imports, i.path ∈ s.files.map SourceFile.path
  acyclic : ∀ n < s.files.length, ¬ OnCycle (imports s) n
  names : ((Symbols.declarationsOfAll s).map Prod.fst).Nodup
  links : ∀ (n : Nat) f, s.files[n]? = some f → ∀ m ∈ messagesOf f.file,
    (contextOf s (Symbols.ofSources s).table n f).Links m

theorem errors_compile (hparse : ∀ d ∈ s.errors, d.isError = true) (requested : List String)
    (keepPlaces : Bool) : (s.compile requested keepPlaces).errors = [] ↔ Sound s := by
  have hmissing := isError_missingImports (s := s)
  rw [Sources.compile]
  split
  · rename_i hcount
    have hne := (countErrors_pos hparse).1 hcount
    have hall : ∀ d ∈ s.errors ++ missingImports s, d.isError = true :=
      List.forall_mem_append.2 ⟨hparse, hmissing⟩
    simp only [ordered_eq_nil hall, List.append_eq_nil_iff]
    exact ⟨fun h => absurd h.1 hne, fun h => absurd h.parses hne⟩
  · have hall : ∀ d ∈ s.errors ++ missingImports s ++ importCycles s ++
        (Symbols.ofSources s).errors ++
        (linkAll s (Symbols.ofSources s).table keepPlaces).flatMap fun (_, l) => l.errors,
        d.isError = true := by
      simp only [List.forall_mem_append]
      exact ⟨⟨⟨⟨hparse, hmissing⟩, isError_importCycles⟩, Symbols.isError_ofSources s⟩,
        isError_linkAll _ _⟩
    have hnil : ordered (s.errors ++ missingImports s ++ importCycles s ++
        (Symbols.ofSources s).errors ++
        (linkAll s (Symbols.ofSources s).table keepPlaces).flatMap fun (_, l) => l.errors) = [] ↔
        Sound s := by
      rw [ordered_eq_nil hall]
      simp only [List.append_eq_nil_iff, missingImports_eq_nil, importCycles_eq_nil,
        Symbols.errors_ofSources, errors_linkAll]
      exact ⟨fun ⟨⟨⟨⟨h₁, h₂⟩, h₃⟩, h₄⟩, h₅⟩ => ⟨h₁, h₂, h₃, h₄, h₅⟩,
        fun h => ⟨⟨⟨⟨h.parses, h.present⟩, h.acyclic⟩, h.names⟩, h.links⟩⟩
    simp only
    split
    · rename_i hempty
      exact iff_of_true rfl (hnil.1 (List.isEmpty_iff.1 hempty))
    · exact hnil

end Schemata.Image

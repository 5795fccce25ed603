import Schemata.Image.Build
import Schemata.Proofs.Image.WellFormed
import Schemata.Proofs.Module.Targets

/-!
# Images hold what their targets need

When the files compile, they are put into an image without complaint: the targets and all that they
import, each once and after its imports. The stack visits files in the order in which a recursion
over their imports does.
-/

namespace Schemata.Image

open Source
open Schemata.Graph (Edge OnCycle Reaches Visits)
open Relation (ReflTransGen TransGen)

/-! ### Requested order -/

def CompiledFile.path (f : CompiledFile) : String := f.descriptor.path

section Slots

variable {paths : List String} {positions : Table Nat}

/-- Files with different paths find their slots free and fill them. -/
theorem fillSlots_eq_ok (hpositions : ∀ p (n : Nat), positions.find? p = some n ↔ paths[n]? = some p)
    {files : List CompiledFile} {slots : List (Option CompiledFile)}
    (hlength : slots.length = paths.length) (hpaths : ∀ f ∈ files, f.path ∈ paths)
    (hnodup : (files.map CompiledFile.path).Nodup)
    (hfree : ∀ f ∈ files, ∀ n : Nat, paths[n]? = some f.path → slots[n]? = some none) :
    ∃ slots', fillSlots positions files slots = .ok slots' ∧ slots'.length = paths.length ∧
      (∀ f ∈ files, ∀ n : Nat, paths[n]? = some f.path → slots'[n]? = some (some f)) ∧
      ∀ n : Nat, (∀ f ∈ files, paths[n]? ≠ some f.path) → slots'[n]? = slots[n]? := by
  induction files generalizing slots with
  | nil =>
    exact ⟨slots, rfl, hlength, fun _ hf => absurd hf List.not_mem_nil, fun _ _ => rfl⟩
  | cons f files ih =>
    rw [List.map_cons, List.nodup_cons] at hnodup
    obtain ⟨n, hn⟩ := List.mem_iff_getElem?.1 (hpaths f List.mem_cons_self)
    have hslot := hfree f List.mem_cons_self n hn
    have hposition : positions.find? f.descriptor.path = some n := (hpositions _ n).2 hn
    have hunique : ∀ m, paths[m]? = some f.path → m = n := by
      intro m hm
      have hm' := (hpositions _ m).2 hm
      rw [(hpositions _ n).2 hn] at hm'
      exact (Option.some.inj hm').symm
    have hother : ∀ g ∈ files, paths[n]? ≠ some g.path := by
      intro g hg hgn
      rw [hn] at hgn
      exact hnodup.1 (Option.some.inj hgn ▸ List.mem_map_of_mem hg)
    have hlength₁ : (slots.set n (some f)).length = paths.length := by
      rw [List.length_set, hlength]
    have hfree₁ : ∀ g ∈ files, ∀ m : Nat, paths[m]? = some g.path →
        (slots.set n (some f))[m]? = some none := by
      intro g hg m hm
      have hne : n ≠ m := fun h => hother g hg (h ▸ hm)
      rw [List.getElem?_set_ne hne]
      exact hfree g (List.mem_cons_of_mem _ hg) m hm
    obtain ⟨slots', hfill, hlength', hin, hout⟩ := ih hlength₁
      (fun g hg => hpaths g (List.mem_cons_of_mem _ hg)) hnodup.2 hfree₁
    have hlt : n < slots.length := (List.getElem?_eq_some_iff.1 hslot).1
    refine ⟨slots', ?_, hlength', fun g hg m hm => ?_, fun m hm => ?_⟩
    · rw [fillSlots, hposition]
      simp only [hslot]
      exact hfill
    · rcases List.mem_cons.1 hg with rfl | hg
      · rw [hunique m hm, hout n hother, List.getElem?_set_self hlt]
      · exact hin g hg m hm
    · have hne : n ≠ m := fun h => hm f List.mem_cons_self (h ▸ hn)
      rw [hout m fun g hg => hm g (List.mem_cons_of_mem _ hg), List.getElem?_set_ne hne]

theorem find?_zipIdx (hnodup : paths.Nodup) {p : String} {n : Nat} :
    (Table.ofList paths.zipIdx).find? p = some n ↔ paths[n]? = some p := by
  have hkeys : (paths.zipIdx.map Prod.fst).Nodup := by
    rw [List.zipIdx_map_fst]
    exact hnodup
  rw [Table.find?_ofList hkeys]
  exact List.mem_zipIdx_iff_getElem?

theorem slotFile_self (f : CompiledFile) : slotFile (some f) f.path = .ok f := by
  have hfilter : (some f).filter (fun g => g.descriptor.path = f.path) = some f := by
    simp [Option.filter, CompiledFile.path]
  rw [slotFile, hfilter]

theorem path_of_slotFile {slot : Option CompiledFile} {path : String} {f : CompiledFile}
    (h : slotFile slot path = .ok f) : f.path = path := by
  unfold slotFile at h
  split at h
  · rename_i g hg
    cases h
    exact of_decide_eq_true (Option.mem_filter_iff.1 hg).2
  · cases h

theorem inRequestedOrder_eq_ok (hnodup : paths.Nodup) {files : List CompiledFile}
    (hfiles : (files.map CompiledFile.path).Perm paths) :
    ∃ requested, inRequestedOrder paths files = .ok requested ∧
      requested.map CompiledFile.path = paths := by
  have hlength : files.length = paths.length := by
    rw [← hfiles.length_eq, List.length_map]
  have hfree : ∀ f ∈ files, ∀ n : Nat, paths[n]? = some f.path →
      (List.replicate paths.length (none : Option CompiledFile))[n]? = some none := by
    intro f _ n hn
    rw [List.getElem?_replicate, if_pos (List.getElem?_eq_some_iff.1 hn).1]
  obtain ⟨slots, hfill, hslots, hin, _⟩ := fillSlots_eq_ok (fun p n => find?_zipIdx hnodup)
    List.length_replicate (fun f hf => hfiles.subset (List.mem_map_of_mem hf))
    (hfiles.nodup_iff.2 hnodup) hfree
  have hslot : ∀ e ∈ slots.zip paths, ∃ f, slotFile e.1 e.2 = .ok f := by
    rintro ⟨slot, path⟩ he
    obtain ⟨n, hn⟩ := List.mem_iff_getElem?.1 he
    obtain ⟨hslot, hpath⟩ := List.getElem?_zip_eq_some.1 hn
    obtain ⟨f, hf, rfl⟩ := List.mem_map.1 (hfiles.symm.subset (List.mem_of_getElem? hpath))
    rw [hin f hf n hpath] at hslot
    cases hslot
    exact ⟨f, slotFile_self f⟩
  obtain ⟨requested, hrequested⟩ := exists_mapM_eq_ok hslot
  refine ⟨requested, ?_, ?_⟩
  · rw [inRequestedOrder, if_neg (not_not_intro hlength)]
    exact bind_eq_ok.2 ⟨slots, hfill, hrequested⟩
  · have hsnd : (slots.zip paths).map Prod.snd = paths :=
      List.map_snd_zip (Nat.le_of_eq hslots.symm)
    have hpaths : requested.map CompiledFile.path = (slots.zip paths).map Prod.snd :=
      map_eq_of_mapM hrequested fun _ _ h => path_of_slotFile h
    rw [hpaths, hsnd]

end Slots

/-! ### The stack -/

section Stack

variable {all : Table CompiledFile} {next : String → List String}

/-- Whether compiled files are closed under their imports, which a function lists by path. -/
structure ClosedUnder (all : Table CompiledFile) (next : String → List String) : Prop where
  dependencies : ∀ path f, all.find? path = some f → f.descriptor.dependencies = next path
  found : ∀ path f, all.find? path = some f → ∀ d ∈ next path, ∃ g, all.find? d = some g

theorem emit_nil (e : Emission) : emit all [] e = .ok e := by rw [emit]

theorem emit_done (f : CompiledFile) (stack : List Frame) (e : Emission) :
    emit all ((f, []) :: stack) e = emit all stack { e with order := f :: e.order } := by
  rw [emit]

theorem emit_skip {d : String} {g : CompiledFile} {e : Emission} (hg : all.find? d = some g)
    (hseen : d ∈ e.visited) (f : CompiledFile) (ds : List String) (stack : List Frame) :
    emit all ((f, d :: ds) :: stack) e = emit all ((f, ds) :: stack) e := by
  rw [emit.eq_def]
  simp only
  split
  · rename_i hnone
    rw [hg] at hnone
    cases hnone
  · exact dif_pos (List.contains_iff_mem.2 hseen)

theorem emit_enter {d : String} {g : CompiledFile} {e : Emission} (hg : all.find? d = some g)
    (hnew : d ∉ e.visited) (f : CompiledFile) (ds : List String) (stack : List Frame) :
    emit all ((f, d :: ds) :: stack) e =
      emit all ((g, g.descriptor.dependencies) :: (f, ds) :: stack)
        { e with visited := d :: e.visited } := by
  rw [emit.eq_def]
  simp only
  split
  · rename_i hnone
    rw [hg] at hnone
    cases hnone
  · rename_i g' hg'
    rw [hg] at hg'
    cases hg'
    exact dif_neg fun h => hnew (List.contains_iff_mem.1 h)

/-- A file on the stack is done with its imports when they have been visited in turn. -/
theorem emit_visits (hclosed : ClosedUnder all next) {seen ds seen' out : List String}
    (h : Visits next seen ds seen' out) (hds : ∀ d ∈ ds, ∃ g, all.find? d = some g)
    (f : CompiledFile) (stack : List Frame) (order : List CompiledFile) :
    emit all ((f, ds) :: stack) ⟨seen, order⟩ =
      emit all ((f, []) :: stack) ⟨seen', (out.filterMap all.find?).reverse ++ order⟩ := by
  induction h generalizing f stack order with
  | done seen => rfl
  | @skip d ds seen seen' out hseen _ ih =>
    obtain ⟨g, hg⟩ := hds d List.mem_cons_self
    rw [emit_skip hg hseen]
    exact ih (fun d hd => hds d (List.mem_cons_of_mem _ hd)) f stack order
  | @enter d ds seen seen₁ seen₂ inner out hnew _ _ ihinner ihrest =>
    obtain ⟨g, hg⟩ := hds d List.mem_cons_self
    rw [emit_enter hg hnew, hclosed.dependencies d g hg, ihinner (hclosed.found d g hg), emit_done,
      ihrest fun d hd => hds d (List.mem_cons_of_mem _ hd)]
    simp [List.filterMap_append, hg]

/-- The stack leaves the files in the order of visits. -/
theorem emitEach_visits (hclosed : ClosedUnder all next) {roots : List CompiledFile}
    (hroots : ∀ f ∈ roots, ∃ g, all.find? f.path = some g) {seen seen' out : List String}
    (h : Visits next seen (roots.map CompiledFile.path) seen' out)
    (order : List CompiledFile) :
    emitEach all roots ⟨seen, order⟩ = .ok ⟨seen', (out.filterMap all.find?).reverse ++ order⟩ := by
  induction roots generalizing seen out order with
  | nil =>
    cases h
    rfl
  | cons root roots ih =>
    obtain ⟨g, hg⟩ := hroots root List.mem_cons_self
    have hrest : ∀ f ∈ roots, ∃ g, all.find? f.path = some g := fun f hf =>
      hroots f (List.mem_cons_of_mem _ hf)
    have hfind : all.find? root.descriptor.path = some g := hg
    rw [emitEach, hfind]
    simp only
    cases h with
    | skip hseen hvisits =>
      have hmem : seen.contains root.descriptor.path = true :=
        List.contains_iff_mem.2 hseen
      rw [if_pos hmem]
      exact ih hrest hvisits order
    | @enter _ _ _ seen₁ _ inner out hnew hinner hvisits =>
      have hemit : emit all [(g, g.descriptor.dependencies)] ⟨root.path :: seen, order⟩ =
          .ok ⟨seen₁, g :: ((inner.filterMap all.find?).reverse ++ order)⟩ := by
        rw [hclosed.dependencies _ g hg, emit_visits hclosed hinner (hclosed.found _ g hg), emit_done,
          emit_nil]
      have hfresh : ¬ seen.contains root.descriptor.path = true := fun h =>
        hnew (List.contains_iff_mem.1 h)
      rw [if_neg hfresh]
      refine bind_eq_ok.2 ⟨_, hemit, ?_⟩
      rw [ih hrest hvisits]
      simp [List.filterMap_append, hg]

end Stack

/-! ### Making an image -/

theorem repeatedPath?_eq_none {seen : List String} {files : List ImageFile}
    (hnodup : (files.map ImageFile.path).Nodup) (hseen : ∀ f ∈ files, f.path ∉ seen) :
    repeatedPath? seen files = none := by
  induction files generalizing seen with
  | nil => rfl
  | cons f files ih =>
    rw [List.map_cons, List.nodup_cons] at hnodup
    have hnew : ¬ seen.contains f.path = true := fun h =>
      hseen f List.mem_cons_self (List.contains_iff_mem.1 h)
    rw [repeatedPath?, if_neg hnew]
    refine ih hnodup.2 fun g hg hmem => ?_
    rcases List.mem_cons.1 hmem with heq | hmem
    · exact hnodup.1 (heq ▸ List.mem_map_of_mem hg)
    · exact hseen g (List.mem_cons_of_mem _ hg) hmem

theorem misplaced?_eq_none {files : List ImageFile}
    (h : ∀ pre f post, files = pre ++ f :: post → ∀ d ∈ f.descriptor.dependencies,
      d ∉ post.map ImageFile.path) : misplaced? files = none := by
  induction files with
  | nil => rfl
  | cons f files ih =>
    have hfirst : (f.descriptor.dependencies.find? fun d => files.any fun g => g.path = d) = none := by
      rw [List.find?_eq_none]
      intro d hd hany
      obtain ⟨g, hg, hpath⟩ := List.any_eq_true.1 hany
      exact h [] f files rfl d hd (List.mem_map.2 ⟨g, hg, of_decide_eq_true hpath⟩)
    rw [misplaced?, hfirst]
    exact ih fun pre g post heq => h (f :: pre) g post (heq ▸ rfl)

theorem make_eq_ok {files : List ImageFile} (hnodup : (files.map ImageFile.path).Nodup)
    (hafter : ∀ pre f post, files = pre ++ f :: post →
      f.descriptor.dependencies ⊆ pre.map ImageFile.path) : make files = .ok ⟨files⟩ := by
  have hrepeated := repeatedPath?_eq_none hnodup fun _ _ => List.not_mem_nil
  have hmisplaced : misplaced? files = none := by
    refine misplaced?_eq_none fun pre f post heq d hd hpost => ?_
    rw [heq, List.map_append, List.nodup_append] at hnodup
    exact hnodup.2.2 d (hafter pre f post heq hd) d (List.mem_cons_of_mem _ hpost) rfl
  rw [make, hrepeated, hmisplaced]

/-! ### Compiled files -/

variable {w : World} {v : Module.View} {requested : List String} {s : Sources}

/-- What linking makes of a file that was read. -/
def compiledOf (s : Sources) (keepPlaces : Bool) (n : FileId) (f : SourceFile) : CompiledFile :=
  ⟨(linkFile s (Symbols.ofSources s).table s.passedOn keepPlaces n f).descriptor, f.external,
    f.module, f.commit⟩

/-- The compiled files by path, in the order they were read. -/
def entriesOf (s : Sources) (keepPlaces : Bool) : List (String × CompiledFile) :=
  s.files.zipIdx.map fun e => (e.1.path, compiledOf s keepPlaces e.2 e.1)

theorem compile_of_sound (h : Sound s) (hparse : ∀ d ∈ s.errors, d.isError = true)
    (requested : List String) (keepPlaces : Bool) :
    (s.compile requested keepPlaces).files =
        ((entriesOf s keepPlaces).filter fun e => requested.contains e.1).map Prod.snd ∧
      (s.compile requested keepPlaces).all = Table.ofList (entriesOf s keepPlaces) := by
  have herrors := (errors_compile hparse requested keepPlaces).2 h
  have hcount : ¬ Diagnostic.countErrors s.errors > 0 := fun hcount =>
    (countErrors_pos hparse).1 hcount h.parses
  have hentries {g : SourceFile × LinkedFile → String × CompiledFile} (hg : ∀ f l, g (f, l) =
      (f.path, ⟨l.descriptor, f.external, f.module, f.commit⟩)) :
      (linkAll s (Symbols.ofSources s).table keepPlaces).map g = entriesOf s keepPlaces := by
    rw [linkAll, List.map_map]
    exact List.map_congr_left fun e _ => hg e.1 _
  rw [Sources.compile, if_neg hcount] at herrors ⊢
  simp only at herrors ⊢
  split
  · rw [hentries fun _ _ => rfl]
    exact ⟨rfl, rfl⟩
  · rename_i hempty
    rw [if_neg hempty] at herrors
    exact absurd (List.isEmpty_iff.2 herrors) hempty

theorem keys_entriesOf (s : Sources) (keepPlaces : Bool) :
    (entriesOf s keepPlaces).map Prod.fst = s.files.map SourceFile.path := by
  conv_rhs => rw [← List.zipIdx_map_fst 0 s.files, List.map_map]
  rw [entriesOf, List.map_map]
  rfl

theorem path_of_mem_entriesOf {keepPlaces : Bool} {e : String × CompiledFile}
    (he : e ∈ entriesOf s keepPlaces) : e.2.path = e.1 := by
  obtain ⟨⟨f, n⟩, _, rfl⟩ := List.mem_map.1 he
  rfl

/-! ### Imports by path -/

/-- The imports of the file at a path, in the order they are written. -/
def importPaths (w : World) (v : Module.View) (path : String) : List String :=
  ((textAt? w v path).map fun text => (parsedFile text).imports.map Schema.Import.path).getD []

theorem mem_importPaths {p q : String} : q ∈ importPaths w v p ↔ Imports w v p q := by
  simp only [importPaths, Imports, hasText_iff]
  cases textAt? w v p with
  | none => simp
  | some text => simp

theorem edge_importPaths (w : World) (v : Module.View) : Edge (importPaths w v) = Imports w v :=
  funext₂ fun _ _ => propext mem_importPaths

namespace Loaded

variable (hs : Loaded w v requested s)
include hs

theorem importPaths_eq {f : SourceFile} (hf : f ∈ s.files) :
    importPaths w v f.path = f.file.imports.map Schema.Import.path := by
  rw [importPaths, hasText_iff.1 (hs.faithful.hasText hf), hs.faithful.paths hf]
  rfl

theorem importPaths_closed
    (hpresent : ∀ f ∈ s.files, ∀ i ∈ f.file.imports, i.path ∈ s.files.map SourceFile.path) :
    ∀ p ∈ s.files.map SourceFile.path, importPaths w v p ⊆ s.files.map SourceFile.path := by
  intro p hp q hq
  obtain ⟨f, hf, rfl⟩ := List.mem_map.1 hp
  rw [hs.importPaths_eq hf] at hq
  obtain ⟨i, hi, rfl⟩ := List.mem_map.1 hq
  exact hpresent f hf i hi

theorem find?_entriesOf {keepPlaces : Bool} {p : String} {g : CompiledFile} :
    (Table.ofList (entriesOf s keepPlaces)).find? p = some g ↔ (p, g) ∈ entriesOf s keepPlaces :=
  Table.find?_ofList (by rw [keys_entriesOf]; exact hs.nodup)

theorem exists_find?_entriesOf (keepPlaces : Bool) {p : String}
    (hp : p ∈ s.files.map SourceFile.path) :
    ∃ g, (Table.ofList (entriesOf s keepPlaces)).find? p = some g := by
  rw [← keys_entriesOf s keepPlaces] at hp
  obtain ⟨⟨p, g⟩, hmem, rfl⟩ := List.mem_map.1 hp
  exact ⟨g, hs.find?_entriesOf.2 hmem⟩

theorem closedUnder
    (hpresent : ∀ f ∈ s.files, ∀ i ∈ f.file.imports, i.path ∈ s.files.map SourceFile.path)
    (keepPlaces : Bool) :
    ClosedUnder (Table.ofList (entriesOf s keepPlaces)) (importPaths w v) where
  dependencies := by
    intro p g hg
    obtain ⟨⟨f, n⟩, hf, heq⟩ := List.mem_map.1 (hs.find?_entriesOf.1 hg)
    cases heq
    exact (hs.importPaths_eq (List.mem_of_getElem? (mem_zipIdx.1 hf))).symm
  found := by
    intro p g hg d hd
    have hp : p ∈ s.files.map SourceFile.path := by
      rw [← keys_entriesOf s keepPlaces]
      exact List.mem_map_of_mem (hs.find?_entriesOf.1 hg)
    exact hs.exists_find?_entriesOf keepPlaces (hs.importPaths_closed hpresent p hp hd)

theorem requested_perm (hnodup : requested.Nodup) (keepPlaces : Bool) :
    ((((entriesOf s keepPlaces).filter fun e => requested.contains e.1).map Prod.snd).map
      CompiledFile.path).Perm requested := by
  have hkeys : ((entriesOf s keepPlaces).filter fun e => requested.contains e.1).map
      (CompiledFile.path ∘ Prod.snd) =
      (s.files.map SourceFile.path).filter fun p => requested.contains p := by
    rw [← keys_entriesOf s keepPlaces, List.filter_map]
    refine List.map_congr_left fun e he => ?_
    exact path_of_mem_entriesOf (List.mem_of_mem_filter he)
  rw [List.map_map, hkeys, List.perm_ext_iff_of_nodup (hs.nodup.filter _) hnodup]
  intro p
  rw [List.mem_filter, List.contains_iff_mem]
  exact ⟨fun h => h.2, fun h => ⟨hs.requested p h, h⟩⟩

end Loaded

/-! ### The image -/

/-- Whether an image is what some targets need: the targets and all that they import, each once and
after its imports, in the order of visits, with marks on those that are no targets. -/
structure Collects (w : World) (v : Module.View) (targets : List String) (image : Image) :
    Prop where
  nodup : image.paths.Nodup
  mem_paths : ∀ p, p ∈ image.paths ↔ ∃ t ∈ targets, ReflTransGen (Imports w v) t p
  after : ∀ pre f post, image.files = pre ++ f :: post →
    ∀ q, Imports w v f.path q → q ∈ pre.map ImageFile.path
  isImport : ∀ f ∈ image.files, f.isImport = true ↔ f.path ∉ targets
  order : ∃ seen, Visits (importPaths w v) [] targets seen image.paths

section Assemble

variable {all : Table CompiledFile} {next : String → List String}

theorem paths_filterMap (hpath : ∀ p g, all.find? p = some g → g.path = p) {out : List String}
    (hout : ∀ p ∈ out, ∃ g, all.find? p = some g) :
    (out.filterMap all.find?).map CompiledFile.path = out := by
  induction out with
  | nil => rfl
  | cons p out ih =>
    obtain ⟨g, hg⟩ := hout p List.mem_cons_self
    rw [List.filterMap_cons, hg, List.map_cons, hpath p g hg,
      ih fun q hq => hout q (List.mem_cons_of_mem _ hq)]

/-- Compiled files in an order of visits that puts imports first make an image of these paths. -/
theorem make_filterMap (hpath : ∀ p g, all.find? p = some g → g.path = p)
    (hclosed : ClosedUnder all next) {out : List String} (hnodup : out.Nodup)
    (hout : ∀ p ∈ out, ∃ g, all.find? p = some g)
    (hafter : ∀ a p b, out = a ++ p :: b → next p ⊆ a) (targets : List String)
    (warnings : List Warning) :
    ∃ image, make ((out.filterMap all.find?).map (fileOf targets warnings)) = .ok image ∧
      image.paths = out ∧
      (∀ pre f post, image.files = pre ++ f :: post → next f.path ⊆ pre.map ImageFile.path) ∧
      ∀ f ∈ image.files, f.isImport = true ↔ f.path ∉ targets := by
  have hpaths : ((out.filterMap all.find?).map (fileOf targets warnings)).map ImageFile.path =
      out := by
    rw [List.map_map]
    exact paths_filterMap hpath hout
  have hbefore : ∀ pre f post,
      (out.filterMap all.find?).map (fileOf targets warnings) = pre ++ f :: post →
        next f.path ⊆ pre.map ImageFile.path := by
    intro pre f post heq
    rw [heq, List.map_append, List.map_cons] at hpaths
    exact hafter _ _ _ hpaths.symm
  have hfile : ∀ f ∈ (out.filterMap all.find?).map (fileOf targets warnings),
      ∃ g, all.find? f.path = some g ∧ fileOf targets warnings g = f := by
    intro f hf
    obtain ⟨g, hg, rfl⟩ := List.mem_map.1 hf
    obtain ⟨p, _, hfind⟩ := List.mem_filterMap.1 hg
    have hp : (fileOf targets warnings g).path = p := hpath p g hfind
    exact ⟨g, hp.symm ▸ hfind, rfl⟩
  refine ⟨_, make_eq_ok (hpaths.symm ▸ hnodup) ?_, hpaths, hbefore, ?_⟩
  · intro pre f post heq
    obtain ⟨g, hg, rfl⟩ := hfile f (heq ▸ List.mem_append_right _ List.mem_cons_self)
    have hdeps := hclosed.dependencies _ g hg
    exact hdeps.symm ▸ hbefore pre _ post heq
  · intro f hf
    obtain ⟨g, _, rfl⟩ := hfile f hf
    simp [fileOf, ImageFile.path]

end Assemble

theorem Loaded.assemble_eq_ok (hs : Loaded w v requested s) (h : Sound s)
    (hnodup : requested.Nodup) (keepPlaces : Bool) :
    ∃ files image,
      inRequestedOrder requested (s.compile requested keepPlaces).files = .ok files ∧
      assemble requested files (s.compile requested keepPlaces) = .ok image ∧
      Collects w v requested image := by
  obtain ⟨hfiles, hall⟩ := compile_of_sound h hs.faithful.isError requested keepPlaces
  obtain ⟨files, hordered, hpaths⟩ := inRequestedOrder_eq_ok hnodup
    (hs.requested_perm hnodup keepPlaces)
  have hclosed := hs.importPaths_closed h.present
  have hunder := hs.closedUnder h.present keepPlaces
  have hsize := Nat.le_refl (s.files.map SourceFile.path).length
  have hvisits := Graph.visits_postorder hclosed hs.requested hsize
  have hmem {p : String} := Graph.mem_postorder (x := p) hclosed hs.requested hsize
  have hout := Graph.nodup_postorder hclosed hs.requested hsize
  have hacyclic : ∀ p ∈ s.files.map SourceFile.path, ¬ OnCycle (importPaths w v) p := by
    intro p hp hcycle
    rw [OnCycle, edge_importPaths] at hcycle
    exact hs.acyclic_iff.1 h.acyclic p ((hs.mem_paths p).1 hp).1 hcycle
  have hafter {a b : List String} {p : String} :=
    Graph.mem_before_of_postorder (a := a) (x := p) (b := b) hclosed hs.requested hsize hacyclic
  generalize Graph.postorder (importPaths w v) (s.files.map SourceFile.path).length requested = out
    at hvisits hmem hout hafter
  have hfound : ∀ p ∈ out, ∃ g, (Table.ofList (entriesOf s keepPlaces)).find? p = some g := by
    intro p hp
    obtain ⟨t, ht, hreach⟩ := hmem.1 hp
    exact hs.exists_find?_entriesOf keepPlaces
      (Graph.mem_of_reaches hclosed (hs.requested t ht) hreach)
  obtain ⟨image, hmake, himage, hbefore, hflags⟩ := make_filterMap
    (fun p g hg => path_of_mem_entriesOf (hs.find?_entriesOf.1 hg)) hunder hout hfound
    (fun a p b => hafter) requested (s.compile requested keepPlaces).warnings
  have hroots : ∀ f ∈ files, ∃ g, (Table.ofList (entriesOf s keepPlaces)).find? f.path = some g :=
    fun f hf => hs.exists_find?_entriesOf keepPlaces
      (hs.requested f.path (hpaths ▸ List.mem_map_of_mem hf))
  have hemit := emitEach_visits hunder hroots (hpaths.symm ▸ hvisits) []
  refine ⟨files, image, hfiles.symm ▸ hordered, ?_, ?_⟩
  · rw [assemble, hall]
    refine bind_eq_ok.2 ⟨_, hemit, ?_⟩
    rw [List.append_nil, List.reverse_reverse]
    exact hmake
  · exact {
      nodup := himage.symm ▸ hout
      mem_paths := fun p => by
        rw [himage, hmem]
        simp only [Reaches, edge_importPaths]
      after := fun pre f post heq q hq => hbefore pre f post heq (mem_importPaths.2 hq)
      isImport := hflags
      order := ⟨_, himage.symm ▸ hvisits⟩ }

/-! ### Building -/

theorem live_of_load (hne : requested ≠ []) (h : Sources.load w v requested = .ok s) :
    w.live = true := by
  obtain ⟨p, hp⟩ := List.exists_mem_of_ne_nil _ hne
  rw [Sources.load] at h
  cases hwave : sortedSet requested with
  | nil =>
    have hmem : p ∈ sortedSet requested := mem_sortedSet.2 hp
    rw [hwave] at hmem
    cases hmem
  | cons q wave =>
    rw [hwave, loadWaves_cons] at h
    obtain ⟨_, hcheck, _⟩ := bind_eq_ok.1 h
    rw [checkLive] at hcheck
    split at hcheck
    · assumption
    · cases hcheck

theorem not_needed_nil {p : String} : ¬ Needed w v [] p := by
  intro h
  induction h with
  | requested hp => cases hp
  | imported _ _ _ ih => exact ih

/-- What is loaded is all that is needed. Nothing is read when nothing is requested, so then a
cancellation goes unnoticed. -/
theorem Loaded.of_load (h : Sources.load w v requested = .ok s) : Loaded w v requested s := by
  by_cases hne : requested = []
  · subst hne
    cases h
    exact ⟨faithful_nil, .nil, fun p => iff_of_false List.not_mem_nil fun h => not_needed_nil h.1,
      fun _ hp => absurd hp List.not_mem_nil⟩
  · exact loaded_of_load (live_of_load hne h) h

/-- The paths of the schema files among some files. -/
def schemaPaths (files : List FileInfo) : List String :=
  (files.filter fun f => f.kind = .schema).map FileInfo.path

theorem pairwise_schemaPaths (hself : v.isSelfContained = true) {targets : List FileInfo}
    (h : v.targets w = .ok targets) : (schemaPaths targets).Pairwise (· < ·) :=
  (Module.View.pairwise_targets hself h).sublist (List.filter_sublist.map FileInfo.path)

/-- When the target schema files of a view compile without errors, their image is built: its files
are the targets, which are visited in order of their paths, and all that they import. -/
theorem build_eq_built (hself : v.isSelfContained = true) {targets : List FileInfo}
    (htargets : v.targets w = .ok targets) (hne : schemaPaths targets ≠ []) {keepPlaces : Bool}
    {c : Compilation} (hcompile : compile w v (schemaPaths targets) keepPlaces = .ok c)
    (herrors : c.errors = []) :
    (schemaPaths targets).Pairwise (· < ·) ∧
      ∃ image, build w v keepPlaces = .ok (.built image) ∧
        Collects w v (schemaPaths targets) image := by
  have hsorted := pairwise_schemaPaths hself htargets
  refine ⟨hsorted, ?_⟩
  obtain ⟨s, hload, hc⟩ := compile_eq_ok.1 hcompile
  have hs := loaded_of_load (live_of_load hne hload) hload
  have hsound : Sound s := (errors_compile hs.faithful.isError _ keepPlaces).1 (hc ▸ herrors)
  obtain ⟨files, image, hordered, hassemble, hcollects⟩ :=
    hs.assemble_eq_ok hsound (nodup_of_pairwise_lt hsorted) keepPlaces
  rw [hc] at hordered hassemble
  refine ⟨image, ?_, hcollects⟩
  have hkinds : (targets.filter fun f => f.kind = .schema).map FileInfo.path =
      schemaPaths targets := rfl
  have hnonempty : ¬ (schemaPaths targets).isEmpty = true := fun h => hne (List.isEmpty_iff.1 h)
  rw [build, hself, htargets]
  simp only [Bool.not_true, Bool.false_eq_true, if_false]
  refine bind_eq_ok.2 ⟨targets, rfl, ?_⟩
  rw [hkinds, if_neg hnonempty]
  refine bind_eq_ok.2 ⟨c, hcompile, ?_⟩
  rw [herrors]
  simp only [List.isEmpty_nil, Bool.not_true, Bool.false_eq_true, if_false]
  exact bind_eq_ok.2 ⟨files, hordered, bind_eq_ok.2 ⟨image, hassemble, rfl⟩⟩

theorem build_pairView :
    pairView.isSelfContained = true ∧ ∃ targets c, pairView.targets World.empty = .ok targets ∧
      schemaPaths targets = ["a.schema"] ∧
      compile World.empty pairView (schemaPaths targets) false = .ok c ∧ c.errors = [] ∧
      (schemaPaths targets).Pairwise (· < ·) ∧
        ∃ image, build World.empty pairView false = .ok (.built image) ∧
          Collects World.empty pairView (schemaPaths targets) image := by
  have hpaths : ((pairView.targets World.empty).toOption.map schemaPaths) = some ["a.schema"] := by
    decide +kernel
  have hcompile : ((compile World.empty pairView ["a.schema"] false).toOption.map
      fun c => c.errors.length) = some 0 := by
    decide +kernel
  obtain ⟨targets, htargets, hschema⟩ := Option.map_eq_some_iff.1 hpaths
  obtain ⟨c, hc, hlength⟩ := Option.map_eq_some_iff.1 hcompile
  have hok := toOption_eq_some.1 htargets
  have hcok := toOption_eq_some.1 hc
  rw [← hschema] at hcok
  have herrors : c.errors = [] := List.length_eq_zero_iff.1 hlength
  have hne : schemaPaths targets ≠ [] := by
    rw [hschema]
    exact List.cons_ne_nil _ _
  exact ⟨rfl, targets, c, hok, hschema, hcok, herrors,
    build_eq_built rfl hok hne hcok herrors⟩

end Schemata.Image

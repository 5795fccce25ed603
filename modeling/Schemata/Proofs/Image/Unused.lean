import Schemata.Proofs.Image.Resolution

/-!
# Unused imports

Linking marks the import that each type reference needs: the first that makes the file of the type
visible. A compilation without errors advises against the imports that are not public and have no
mark. So an import goes unmarked when imports before it give all that it gives, also the types of
the imported file itself.
-/

namespace Schemata.Image

open Source
open Relation (ReflTransGen TransGen)
open Schemata.Graph (OnCycle Reaches)

/-! ### Marks -/

section Marks

variable {α β : Type} {P Q : Nat → Prop}

/-- Whether a step marks the imports of some positions, whatever was marked before. -/
def Marks (P : Nat → Prop) (act : LinkStep α) : Prop :=
  ∀ (l : Link) (i : Nat), i ∈ (act l).2.used ↔ i ∈ l.used ∨ P i

/-- Whether a step marks nothing. -/
abbrev Unmarking (act : LinkStep α) : Prop := Marks (fun _ => False) act

theorem Marks.congr {act : LinkStep α} (h : Marks P act) (hpq : ∀ i, P i ↔ Q i) : Marks Q act :=
  fun l i => by rw [h l i, hpq i]

theorem unmarking_pure (a : α) : Unmarking (pure a : LinkStep α) :=
  fun _ _ => (or_iff_left not_false).symm

theorem Marks.bind {act : LinkStep α} {f : α → LinkStep β} (h : Marks P act)
    (hf : ∀ a, Marks Q (f a)) : Marks (fun i => P i ∨ Q i) (act >>= f) := by
  intro l i
  have hnext := hf (act l).1 (act l).2 i
  rw [h l i, or_assoc] at hnext
  exact hnext

theorem Marks.andThen {act : LinkStep α} {f : α → LinkStep β} (h : Marks P act)
    (hf : ∀ a, Unmarking (f a)) : Marks P (act >>= f) :=
  (h.bind hf).congr fun _ => or_iff_left not_false

theorem Marks.after {act : LinkStep α} {f : α → LinkStep β} (h : Unmarking act)
    (hf : ∀ a, Marks P (f a)) : Marks P (act >>= f) :=
  (h.bind hf).congr fun _ => or_iff_right not_false

namespace LinkContext

theorem unmarking_report (d : Diagnostic) : Unmarking (report d) := unmarking_pure ()

theorem unmarking_reportSome (o : Option β) (complaint : β → Diagnostic) :
    Unmarking (reportSome o complaint) := by
  cases o with
  | none => exact unmarking_pure ()
  | some b => exact unmarking_report (complaint b)

variable (c : LinkContext)

theorem unmarking_record (symbol : String) (span : Span) : Unmarking (c.record symbol span) :=
  unmarking_pure ()

/-- Whether a type reference inside a message needs the import at a position. -/
def Needs (message : String) (type : Schema.TypeRef) (i : Nat) : Prop :=
  ∃ names fullName symbol, meanings? message type = some names ∧
    c.lookup? names = some (fullName, symbol, .imported i)

theorem marks_resolve (message : String) (type : Schema.TypeRef) :
    Marks (c.Needs message type) (c.resolve message type) := by
  cases type with
  | scalar type span =>
    refine (unmarking_pure _).congr fun i => iff_of_false not_false ?_
    rintro ⟨_, _, _, hnames, _⟩
    cases hnames
  | named name absolute span =>
    intro l i
    have hneeds : c.Needs message (.named name absolute span) i ↔
        ∃ fullName symbol,
          c.lookup? (candidates message name absolute) = some (fullName, symbol, .imported i) := by
      simp only [Needs, meanings?, Option.some.injEq]
      constructor
      · rintro ⟨_, fullName, symbol, rfl, hlookup⟩
        exact ⟨fullName, symbol, hlookup⟩
      · rintro ⟨fullName, symbol, hlookup⟩
        exact ⟨_, fullName, symbol, rfl, hlookup⟩
    rw [hneeds]
    cases hlookup : c.lookup? (candidates message name absolute) with
    | none =>
      rw [c.resolve_of_none message absolute span l hlookup]
      simp
    | some found =>
      obtain ⟨fullName, symbol, a⟩ := found
      rw [c.resolve_of_some message absolute span l hlookup]
      cases a with
      | own => simp [Access.position?]
      | imported position => simp [Access.position?, or_comm, eq_comm]
      | hidden => simp [Access.position?]

theorem marks_linkFields (message : String) (before fs : List Schema.Field) :
    Marks (fun i => ∃ f ∈ fs, c.Needs message f.type i) (c.linkFields message before fs) := by
  induction fs generalizing before with
  | nil =>
    rw [linkFields]
    exact (unmarking_pure _).congr fun i => iff_of_false not_false (by simp)
  | cons f fs ih =>
    rw [linkFields_cons]
    refine Marks.congr ?_ fun i => (List.exists_mem_cons_iff _ _ _).symm
    refine Marks.after (unmarking_reportSome _ _) fun _ => ?_
    refine Marks.after (unmarking_reportSome _ _) fun _ => ?_
    refine Marks.after (c.unmarking_record _ _) fun _ => ?_
    refine (c.marks_resolve message f.type).bind fun _ => ?_
    exact (ih (before ++ [f])).andThen fun _ => unmarking_pure _

theorem unmarking_linkEnum (scope : String) (decl : Schema.EnumDecl) :
    Unmarking (c.linkEnum scope decl) :=
  Marks.after (c.unmarking_record _ _) fun _ => unmarking_pure _

/-- Whether a type reference in some messages needs the import at a position. -/
def NeededIn (ms : List (String × Schema.MessageDecl)) (i : Nat) : Prop :=
  ∃ m ∈ ms, ∃ f ∈ m.2.fields, c.Needs m.1 f.type i

theorem neededIn_append {ms ms' : List (String × Schema.MessageDecl)} {i : Nat} :
    c.NeededIn (ms ++ ms') i ↔ c.NeededIn ms i ∨ c.NeededIn ms' i := by
  simp only [NeededIn, List.mem_append, or_and_right, exists_or]

mutual

theorem marks_linkItem (scope : String) : (item : Schema.Item) →
    Marks (c.NeededIn (messages scope item)) (c.linkItem scope item)
  | .message decl nested => by
    rw [linkItem, messages]
    refine Marks.congr ?_ fun i => (List.exists_mem_cons_iff _ _ _).symm
    refine Marks.after (c.unmarking_record _ _) fun _ => ?_
    refine (c.marks_linkFields (qualify scope decl.name) [] decl.fields).bind fun _ => ?_
    exact (marks_linkItems (qualify scope decl.name) nested).andThen fun _ => unmarking_pure _
  | .enumeration decl => by
    rw [linkItem, messages]
    refine Marks.congr ?_ fun i => iff_of_false not_false (by simp [NeededIn])
    exact Marks.after (c.unmarking_linkEnum scope decl) fun _ => unmarking_pure _

theorem marks_linkItems (scope : String) : (items : List Schema.Item) →
    Marks (c.NeededIn (messagesIn scope items)) (c.linkItems scope items)
  | [] => by
    rw [linkItems, messagesIn]
    exact (unmarking_pure _).congr fun i => iff_of_false not_false (by simp [NeededIn])
  | item :: items => by
    rw [linkItems, messagesIn]
    refine Marks.congr ?_ fun i => c.neededIn_append.symm
    refine (marks_linkItem scope item).bind fun _ => ?_
    exact (marks_linkItems scope items).andThen fun _ => unmarking_pure _

end

end LinkContext

theorem mem_used_linkFile (s : Sources) (symbols : Table Symbol) (keepPlaces : Bool) (n : FileId)
    (f : SourceFile) (i : Nat) :
    i ∈ (linkFile s symbols s.passedOn keepPlaces n f).used ↔
      (contextOf s symbols n f).NeededIn (messagesOf f.file) i := by
  have hmarks := (contextOf s symbols n f).marks_linkItems f.file.packageName f.file.items
    ⟨[], [], []⟩ i
  exact hmarks.trans (or_iff_right List.not_mem_nil)

end Marks

/-! ### Imports by path -/

variable {w : World} {v : Module.View} {requested : List String} {s : Sources}

/-- Whether a type reference of the file at a path refers to a type that the file at another
declares. -/
def RefersInto (w : World) (v : Module.View) (p q : String) : Prop :=
  ∃ text, HasText w v p text ∧ ∃ m ∈ messagesOf (parsedFile text), ∃ f ∈ m.2.fields,
    ∃ name absolute span fullName, f.type = .named name absolute span ∧
      RefersTo w v p m.1 name absolute fullName ∧ Visible w v p q ∧ Declares w v q fullName

/-- Whether the import at a position of the file at a path is another file or leads to it through
public imports. -/
def Opens (w : World) (v : Module.View) (p : String) (i : Nat) (q : String) : Prop :=
  ∃ text imp, HasText w v p text ∧ (parsedFile text).imports[i]? = some imp ∧
    ReflTransGen (ImportsPublicly w v) imp.path q

/-- A file that does not lead back to itself is not opened by its imports. -/
theorem Opens.ne {p q : String} {i : Nat} (h : Opens w v p i q)
    (hacyclic : ¬ TransGen (Imports w v) p p) : q ≠ p := by
  rintro rfl
  obtain ⟨text, imp, ht, himp, hreach⟩ := h
  exact hacyclic
    (.head' ⟨text, ht, imp, List.mem_of_getElem? himp, rfl⟩ (imports_of_publicly hreach))

theorem getElem?_imports_of_bare {f g : Schema.File} (h : f.bare = g.bare) {i : Nat} {path : String}
    {isPublic : Bool} :
    (∃ imp, f.imports[i]? = some imp ∧ imp.path = path ∧ imp.isPublic = isPublic) ↔
      ∃ imp, g.imports[i]? = some imp ∧ imp.path = path ∧ imp.isPublic = isPublic := by
  have hall (f : Schema.File) :
      (∃ imp, f.imports[i]? = some imp ∧ imp.path = path ∧ imp.isPublic = isPublic) ↔
        ∃ imp, (f.imports.map Schema.Import.bare)[i]? = some imp ∧ imp.path = path ∧
          imp.isPublic = isPublic := by
    simp only [List.getElem?_map, Option.map_eq_some_iff, Schema.Import.bare,
      exists_exists_and_eq_and]
  rw [hall f, hall g, imports_of_bare h]

theorem importOf?_eq_some {visible : List (List FileId)} {file : FileId} {i : Nat} :
    importOf? visible file = some i ↔
      (∃ files, visible[i]? = some files ∧ file ∈ files) ∧
        ∀ j < i, ∀ files, visible[j]? = some files → file ∉ files := by
  rw [importOf?, List.findIdx?_eq_some_iff_getElem]
  constructor
  · rintro ⟨hi, hmem, hbefore⟩
    refine ⟨⟨_, List.getElem?_eq_getElem hi, List.contains_iff_mem.1 hmem⟩, ?_⟩
    intro j hj files hfiles hin
    obtain ⟨_, rfl⟩ := List.getElem?_eq_some_iff.1 hfiles
    exact hbefore j hj (List.contains_iff_mem.2 hin)
  · rintro ⟨⟨files, hfiles, hmem⟩, hbefore⟩
    obtain ⟨hi, rfl⟩ := List.getElem?_eq_some_iff.1 hfiles
    refine ⟨hi, List.contains_iff_mem.2 hmem, fun j hj hin => ?_⟩
    exact hbefore j hj _ (List.getElem?_eq_getElem (hj.trans hi)) (List.contains_iff_mem.1 hin)

theorem access_eq_imported (s : Sources) (symbols : Table Symbol) (n : FileId) (f : SourceFile)
    (m : FileId) (i : Nat) :
    (contextOf s symbols n f).access m = .imported i ↔
      m ≠ n ∧ importOf? (s.visibleThrough s.passedOn f) m = some i := by
  rw [LinkContext.access]
  split
  · rename_i hown
    refine iff_of_false (fun h => ?_) fun h => h.1 hown
    cases h
  · rename_i hother
    have hne : m ≠ n := hother
    rw [and_iff_right hne]
    cases hposition : importOf? (s.visibleThrough s.passedOn f) m with
    | none => simp [contextOf, hposition]
    | some j => simp [contextOf, hposition]

theorem exists_messages_of_bare {f g : Schema.File} (h : f.bare = g.bare)
    {P : String × Schema.MessageDecl → Prop} (hP : ∀ m, P (m.1, m.2.bare) ↔ P m) :
    (∃ m ∈ messagesOf f, P m) ↔ ∃ m ∈ messagesOf g, P m := by
  have hnot := forall_messages_of_bare h (P := fun m => ¬ P m) fun m => not_congr (hP m)
  simpa only [not_forall, not_not, exists_prop] using not_congr hnot

namespace Loaded

variable (hs : Loaded w v requested s)
include hs

/-- The files that an import makes visible are those that it opens. -/
theorem opens_iff {n m : Nat} {f : SourceFile} (hf : s.files[n]? = some f) {q : String}
    (hq : s.number? q = some m) {i : Nat} :
    (∃ files, (s.visibleThrough s.passedOn f)[i]? = some files ∧ m ∈ files) ↔
      Opens w v f.path i q := by
  have hmem := List.mem_of_getElem? hf
  have hbare := hs.faithful.bare hf
  simp only [Sources.visibleThrough, Sources.importsOf, List.map_map, List.getElem?_map,
    Option.map_eq_some_iff, Function.comp_apply]
  constructor
  · rintro ⟨_, ⟨imp, himp, rfl⟩, hm⟩
    obtain ⟨t, ht⟩ : ∃ t, s.number? imp.path = some t := by
      rw [← Option.ne_none_iff_exists']
      intro hnone
      rw [hnone] at hm
      cases hm
    rw [ht] at hm
    have hreach := (mem_passedOn (number?_lt ht)).1 hm
    obtain ⟨imp', himp', hpath, _⟩ := (getElem?_imports_of_bare hbare).1 ⟨imp, himp, rfl, rfl⟩
    refine ⟨f.text, imp', hs.faithful.hasText hmem, himp', ?_⟩
    rw [hpath]
    exact (hs.numbered_publicly.reaches_iff ht hq).1 hreach
  · rintro ⟨text, imp', ht, himp', hreach⟩
    rw [ht.unique (hs.faithful.hasText hmem)] at himp'
    obtain ⟨imp, himp, hpath, _⟩ := (getElem?_imports_of_bare hbare).2 ⟨imp', himp', rfl, rfl⟩
    rw [← hpath] at hreach
    have himport : Imports w v f.path imp.path :=
      (hs.exists_import hmem).2 ⟨imp, List.mem_of_getElem? himp, rfl⟩
    obtain ⟨t, ht⟩ := hs.numbered_imports.number_of_reaches (hs.number?_file hf) himport
      (imports_of_publicly hreach) hq
    refine ⟨_, ⟨imp, himp, rfl⟩, ?_⟩
    rw [ht]
    exact (mem_passedOn (number?_lt ht)).2
      ((hs.numbered_publicly.reaches_iff ht hq).2 hreach)

theorem number_eq_iff {n m : Nat} {f g : SourceFile} (hf : s.files[n]? = some f)
    (hg : s.files[m]? = some g) : m = n ↔ g.path = f.path := by
  constructor
  · rintro rfl
    rw [hf] at hg
    cases hg
    rfl
  · intro hpath
    have hnumber := hs.number?_file hg
    rw [hpath, hs.number?_file hf] at hnumber
    exact (Option.some.inj hnumber).symm

/-- A file is seen through the first import that opens it. -/
theorem access_iff (symbols : Table Symbol) {n m : Nat} {f g : SourceFile}
    (hf : s.files[n]? = some f) (hg : s.files[m]? = some g) {i : Nat} :
    (contextOf s symbols n f).access m = .imported i ↔
      g.path ≠ f.path ∧ Opens w v f.path i g.path ∧ ∀ j < i, ¬ Opens w v f.path j g.path := by
  have hopens (j : Nat) := hs.opens_iff hf (hs.number?_file hg) (i := j)
  rw [access_eq_imported, importOf?_eq_some, hopens, ne_eq, hs.number_eq_iff hf hg]
  refine and_congr_right fun _ => and_congr_right fun _ => forall₂_congr fun j _ => ?_
  rw [← hopens, not_exists]
  exact forall_congr' fun files => not_and.symm

variable (hnames : (Symbols.ofSources s).errors = []) {n : Nat} {f : SourceFile}
  (hf : s.files[n]? = some f)
include hnames hf

/-- A type reference needs the first import that opens the file of the type. -/
theorem needs_iff {message : String} {type : Schema.TypeRef} {i : Nat} :
    (contextOf s (Symbols.ofSources s).table n f).Needs message type i ↔
      ∃ name absolute span fullName q, type = .named name absolute span ∧
        RefersTo w v f.path message name absolute fullName ∧ Visible w v f.path q ∧
        Declares w v q fullName ∧ q ≠ f.path ∧ Opens w v f.path i q ∧
        ∀ j < i, ¬ Opens w v f.path j q := by
  have hapart := (hs.names_iff.1 ((Symbols.errors_ofSources s).1 hnames)).2
  have hneeded := hs.needed_of_number? (hs.number?_file hf)
  constructor
  · rintro ⟨names, fullName, symbol, hmeanings, hlookup⟩
    cases type with
    | scalar _ _ => cases hmeanings
    | named name absolute span =>
      cases hmeanings
      obtain ⟨hrefers, g, hg, hvisible, hdeclares⟩ := hs.lookup?_spec hnames hf hlookup
      obtain ⟨_, _, himported, _⟩ := LinkContext.lookup?_eq_some _ hlookup
      obtain ⟨hne, hopens, hfirst⟩ := (hs.access_iff _ hf hg).1 himported
      exact ⟨name, absolute, span, fullName, g.path, rfl, hrefers, hvisible, hdeclares.declares, hne,
        hopens, hfirst⟩
  · rintro ⟨name, absolute, span, fullName, q, rfl, hrefers, hvisible, hdeclares, hne, hopens,
      hfirst⟩
    obtain ⟨⟨fullName', symbol, a⟩, hlookup⟩ := Option.ne_none_iff_exists'.1
      ((hs.lookup?_ne_none_iff hnames hf).2 ⟨fullName, hrefers⟩)
    obtain ⟨hrefers', g, hg, hvisible', hdeclares'⟩ := hs.lookup?_spec hnames hf hlookup
    obtain ⟨_, _, ha, _⟩ := LinkContext.lookup?_eq_some _ hlookup
    cases hrefers'.unique hrefers
    have hpath := hapart _ _ _ (hneeded.of_visible hvisible') (hneeded.of_visible hvisible)
      hdeclares'.declares hdeclares
    subst hpath
    rw [(hs.access_iff _ hf hg).2 ⟨hne, hopens, hfirst⟩] at ha
    exact ⟨_, fullName, symbol, rfl, ha ▸ hlookup⟩

/-- The marked imports are those that are the first to open a file that is referred to. -/
theorem neededIn_iff (hacyclic : ¬ TransGen (Imports w v) f.path f.path) {i : Nat} :
    (contextOf s (Symbols.ofSources s).table n f).NeededIn (messagesOf f.file) i ↔
      ∃ q, RefersInto w v f.path q ∧ Opens w v f.path i q ∧ ∀ j < i, ¬ Opens w v f.path j q := by
  have hbare := exists_messages_of_bare (hs.faithful.bare hf)
    (P := fun m => ∃ fld ∈ m.2.fields,
      (contextOf s (Symbols.ofSources s).table n f).Needs m.1 fld.type i)
    fun m => by
      simp only [Schema.MessageDecl.bare, List.mem_map, exists_exists_and_eq_and,
        Schema.Field.bare, LinkContext.Needs, meanings?_bare]
  rw [LinkContext.NeededIn, hbare]
  simp only [hs.needs_iff hnames hf]
  constructor
  · rintro ⟨m, hm, fld, hfld, name, absolute, span, fullName, q, htype, hrefers, hvisible,
      hdeclares, _, hopens, hfirst⟩
    exact ⟨q, ⟨f.text, hs.faithful.hasText (List.mem_of_getElem? hf), m, hm, fld, hfld, name,
      absolute, span, fullName, htype, hrefers, hvisible, hdeclares⟩, hopens, hfirst⟩
  · rintro ⟨q, ⟨text, ht, m, hm, fld, hfld, name, absolute, span, fullName, htype, hrefers,
      hvisible, hdeclares⟩, hopens, hfirst⟩
    rw [ht.unique (hs.faithful.hasText (List.mem_of_getElem? hf))] at hm
    exact ⟨m, hm, fld, hfld, name, absolute, span, fullName, q, htype, hrefers, hvisible,
      hdeclares, hopens.ne hacyclic, hopens, hfirst⟩

end Loaded

/-! ### Advice -/

theorem warnings_compile (h : s.errors = []) (requested : List String) (keepPlaces : Bool) :
    (s.compile requested keepPlaces).warnings =
      sortedWith (fun a b => (Warning.compareWarnings a b).isLE)
        ((linkAll s (Symbols.ofSources s).table keepPlaces).flatMap fun (f, l) =>
          warningsOf s f l) := by
  have hcount : ¬ Diagnostic.countErrors s.errors > 0 := by
    rw [h]
    exact Nat.lt_irrefl 0
  rw [Sources.compile, if_neg hcount]
  simp only
  split
  · rfl
  · rfl

theorem unusedImport_mem_warningsOf {f : SourceFile} {l : LinkedFile} {p d : String} {i : Nat} :
    .unusedImport p i d ∈ warningsOf s f l ↔
      f.path = p ∧ ∃ imp, f.file.imports[i]? = some imp ∧ imp.path = d ∧ imp.isPublic = false ∧
        (s.number? imp.path).isSome ∧ i ∉ l.used := by
  unfold warningsOf
  rw [List.mem_append, or_iff_right (by split <;> simp)]
  simp only [List.mem_filterMap, Prod.exists, List.mem_zipIdx_iff_getElem?]
  constructor
  · rintro ⟨imp, j, himp, hwarning⟩
    split at hwarning
    · rename_i hcondition
      cases hwarning
      simp only [Bool.and_eq_true, Bool.not_eq_true', List.contains_eq_mem, decide_eq_false_iff_not]
        at hcondition
      exact ⟨rfl, imp, himp, rfl, hcondition.1.1, hcondition.1.2, hcondition.2⟩
    · cases hwarning
  · rintro ⟨rfl, imp, himp, rfl, hprivate, hthere, hunmarked⟩
    refine ⟨imp, i, himp, if_pos ?_⟩
    simp [hprivate, hthere, hunmarked]

/-- A compilation without errors advises against an import exactly when it is not public and each
file that it opens and that is referred to is opened by an import before it too. -/
theorem unusedImport_iff {keepPlaces : Bool} {c : Compilation}
    (hcompile : compile w v requested keepPlaces = .ok c) (herrors : c.errors = []) (p : String)
    (i : Nat) (d : String) :
    .unusedImport p i d ∈ c.warnings ↔
      Needed w v requested p ∧ ∃ text imp, HasText w v p text ∧
        (parsedFile text).imports[i]? = some imp ∧ imp.path = d ∧ imp.isPublic = false ∧
        ∀ q, RefersInto w v p q → Opens w v p i q → ∃ j < i, Opens w v p j q := by
  obtain ⟨s, hload, rfl⟩ := compile_eq_ok.1 hcompile
  have hs := Loaded.of_load hload
  have hsound : Sound s := (errors_compile hs.faithful.isError _ keepPlaces).1 herrors
  have hnames := (Symbols.errors_ofSources s).2 hsound.names
  rw [warnings_compile hsound.parses, (sortedWith_perm _ _).mem_iff, linkAll, List.flatMap_map,
    List.mem_flatMap]
  have hunmarked {n : Nat} {f : SourceFile} (hf : s.files[n]? = some f) :
      i ∉ (linkFile s (Symbols.ofSources s).table s.passedOn keepPlaces n f).used ↔
        ∀ q, RefersInto w v f.path q → Opens w v f.path i q → ∃ j < i, Opens w v f.path j q := by
    have hacyclic := hs.acyclic_iff.1 hsound.acyclic f.path
      (hs.needed_of_number? (hs.number?_file hf))
    rw [mem_used_linkFile, hs.neededIn_iff hnames hf hacyclic]
    push Not
    rfl
  constructor
  · rintro ⟨⟨f, n⟩, hmem, hwarning⟩
    have hf := mem_zipIdx.1 hmem
    obtain ⟨rfl, imp, himp, rfl, hprivate, _, hnot⟩ := unusedImport_mem_warningsOf.1 hwarning
    obtain ⟨imp', himp', hpath, hprivate'⟩ :=
      (getElem?_imports_of_bare (hs.faithful.bare hf)).1 ⟨imp, himp, rfl, hprivate⟩
    exact ⟨hs.needed_of_number? (hs.number?_file hf), f.text, imp',
      hs.faithful.hasText (List.mem_of_getElem? hf), himp', hpath, hprivate', (hunmarked hf).1 hnot⟩
  · rintro ⟨hneeded, text, imp', ht, himp', rfl, hprivate, hnot⟩
    obtain ⟨f, hmem, rfl⟩ := List.mem_map.1 ((hs.mem_paths p).2 ⟨hneeded, text, ht⟩)
    obtain ⟨n, hf⟩ := List.mem_iff_getElem?.1 hmem
    rw [ht.unique (hs.faithful.hasText hmem)] at himp'
    obtain ⟨imp, himp, hpath, hprivate'⟩ :=
      (getElem?_imports_of_bare (hs.faithful.bare hf)).2 ⟨imp', himp', rfl, hprivate⟩
    obtain ⟨m, hm⟩ := hs.exists_number? (hsound.present f hmem imp (List.mem_of_getElem? himp))
    exact ⟨(f, n), mem_zipIdx.2 hf, unusedImport_mem_warningsOf.2 ⟨rfl, imp, himp, hpath, hprivate',
      by rw [hm]; rfl, (hunmarked hf).2 hnot⟩⟩

/-! ### Two ways to a file -/

open ModuleSet (ofModules workspaceModule)

/-- A file that imports what another of its imports passes on. -/
def overlappingView : Module.View := (ofModules [workspaceModule "m" [
  ("a.schema", "import \"b.schema\"; import \"c.schema\"; message A \x7b .C c = 1; \x7d"),
  ("b.schema", "import public \"c.schema\";"),
  ("c.schema", "message C \x7b\x7d")]]).schemaView

theorem compile_overlappingView :
    ∃ c, compile World.empty overlappingView ["a.schema"] false = .ok c ∧ c.errors = [] ∧
      .unusedImport "a.schema" 1 "c.schema" ∈ c.warnings := by
  have hcompile : ((compile World.empty overlappingView ["a.schema"] false).toOption.map fun c =>
      (c.errors.length, decide (.unusedImport "a.schema" 1 "c.schema" ∈ c.warnings))) =
        some (0, true) := by
    decide +kernel
  obtain ⟨c, hc, heq⟩ := Option.map_eq_some_iff.1 hcompile
  obtain ⟨hlength, hmem⟩ := Prod.mk.inj heq
  exact ⟨c, toOption_eq_some.1 hc, List.length_eq_zero_iff.1 hlength, of_decide_eq_true hmem⟩

/-- Each file that is referred to is opened by the first import already. -/
theorem unusedImport_iff_overlappingView :
    ∃ c, compile World.empty overlappingView ["a.schema"] false = .ok c ∧ c.errors = [] ∧
      .unusedImport "a.schema" 1 "c.schema" ∈ c.warnings ∧
      ∀ q, RefersInto World.empty overlappingView "a.schema" q →
        Opens World.empty overlappingView "a.schema" 1 q →
          ∃ j < 1, Opens World.empty overlappingView "a.schema" j q := by
  obtain ⟨c, hc, herrors, hwarning⟩ := compile_overlappingView
  obtain ⟨_, _, _, _, _, _, _, hall⟩ := (unusedImport_iff hc herrors _ _ _).1 hwarning
  exact ⟨c, hc, herrors, hwarning, hall⟩

/-- An import can be advised against although its file declares a type that is referred to. -/
theorem unusedImport_of_referred :
    ∃ c, compile World.empty overlappingView ["a.schema"] false = .ok c ∧ c.errors = [] ∧
      .unusedImport "a.schema" 1 "c.schema" ∈ c.warnings ∧
      ∃ text imp, HasText World.empty overlappingView "a.schema" text ∧
        (parsedFile text).imports[1]? = some imp ∧ imp.path = "c.schema" ∧ imp.isPublic = false ∧
        RefersInto World.empty overlappingView "a.schema" "c.schema" := by
  obtain ⟨c, hc, herrors, hwarning⟩ := compile_overlappingView
  have hfile : (textAt? World.empty overlappingView "a.schema").any (fun text =>
      (parsedFile text).imports[1]?.any (fun imp => imp.path = "c.schema" ∧ imp.isPublic = false) ∧
      ∃ m ∈ messagesOf (parsedFile text), ∃ f ∈ m.2.fields,
        f.type = .named "C" true ⟨0, 50, 52⟩) = true := by
    decide +kernel
  have hdeclares : (textAt? World.empty overlappingView "c.schema").any (fun text =>
      "C" ∈ declaredNames (parsedFile text)) = true := by
    decide +kernel
  obtain ⟨text, htext, hall⟩ := (Option.any_eq_true _ _).1 hfile
  obtain ⟨himport, m, hm, f, hf, htype⟩ := of_decide_eq_true hall
  obtain ⟨imp, himp, hpath⟩ := (Option.any_eq_true _ _).1 himport
  obtain ⟨hpath, hprivate⟩ := of_decide_eq_true hpath
  obtain ⟨text', htext', hname⟩ := (Option.any_eq_true _ _).1 hdeclares
  have ht := hasText_iff.2 htext
  have hvisible : Visible World.empty overlappingView "a.schema" "c.schema" :=
    .inr ⟨"c.schema", ⟨text, ht, imp, List.mem_of_getElem? himp, hpath⟩, .refl⟩
  have hdeclared : Declares World.empty overlappingView "c.schema" "C" :=
    ⟨text', hasText_iff.2 htext', of_decide_eq_true hname⟩
  exact ⟨c, hc, herrors, hwarning, text, imp, ht, himp, hpath, hprivate, text, ht, m, hm, f, hf,
    "C", true, _, "C", htype, .absolute ⟨"c.schema", hvisible, hdeclared⟩, hvisible, hdeclared⟩

end Schemata.Image

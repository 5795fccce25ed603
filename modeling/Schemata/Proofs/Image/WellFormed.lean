import Mathlib.Data.List.Pairwise
import Schemata.Proofs.Image.Compilation
import Schemata.Proofs.Image.Loading

/-!
# Well-formed files

Files are well-formed with all that they need when they parse, their imports are there and not in
circles, their types have different names, the fields of each message differ, and each type
reference means something visible. Compiling reports no errors exactly for well-formed files.
-/

namespace Schemata.Image

open Source
open Relation (ReflTransGen TransGen)
open Schemata.Graph (Edge Reaches OnCycle)

/-! ### Files of a view -/

/-- Whether a view has a file at a path. -/
def HasFile (w : World) (v : Module.View) (path : String) : Prop :=
  ∃ info content, v.get w path = .ok (info, content)

/-- What reading a text gives. -/
def parsedFile (text : String) : Schema.File := (Schema.parse 0 text).file

/-- Whether the file at a path imports another. -/
def Imports (w : World) (v : Module.View) (p q : String) : Prop :=
  ∃ text, HasText w v p text ∧ ∃ i ∈ (parsedFile text).imports, i.path = q

/-- Whether the file at a path imports another publicly. -/
def ImportsPublicly (w : World) (v : Module.View) (p q : String) : Prop :=
  ∃ text, HasText w v p text ∧ ∃ i ∈ (parsedFile text).imports, i.isPublic = true ∧ i.path = q

/-- Whether the file at a path declares a type of a full name. -/
def Declares (w : World) (v : Module.View) (p name : String) : Prop :=
  ∃ text, HasText w v p text ∧ name ∈ declaredNames (parsedFile text)

/-- Whether a file may refer to the types of another: it is that file, imports it, or imports one
that leads to it through public imports. -/
def Visible (w : World) (v : Module.View) (p q : String) : Prop :=
  q = p ∨ ∃ d, Imports w v p d ∧ ReflTransGen (ImportsPublicly w v) d q

/-- Whether requested files and all that they need make sense together. -/
structure WellFormed (w : World) (v : Module.View) (requested : List String) : Prop where
  parses : ∀ p text, Needed w v requested p → HasText w v p text →
    (Schema.parse 0 text).errors = []
  imports : ∀ p q, Needed w v requested p → Imports w v p q → HasFile w v q
  acyclic : ∀ p, Needed w v requested p → ¬ TransGen (Imports w v) p p
  names : ∀ p text, Needed w v requested p → HasText w v p text →
    (declaredNames (parsedFile text)).Nodup
  apart : ∀ p q name, Needed w v requested p → Needed w v requested q →
    Declares w v p name → Declares w v q name → p = q
  fields : ∀ p text, Needed w v requested p → HasText w v p text →
    ∀ m ∈ messagesOf (parsedFile text), FieldsDiffer m.2.fields
  references : ∀ p text, Needed w v requested p → HasText w v p text →
    ∀ m ∈ messagesOf (parsedFile text), ∀ f ∈ m.2.fields,
      ∀ names, meanings? m.1 f.type = some names →
        ∃ name ∈ names, ∃ q, Visible w v p q ∧ Declares w v q name

/-! ### Files of loaded sources -/

variable {w : World} {v : Module.View} {requested : List String} {s : Sources}

theorem ImportsPublicly.imports {p q : String} (h : ImportsPublicly w v p q) :
    Imports w v p q := by
  obtain ⟨text, ht, i, hi, _, hq⟩ := h
  exact ⟨text, ht, i, hi, hq⟩

/-- What public imports lead to, imports lead to. -/
theorem imports_of_publicly {p q : String} (h : ReflTransGen (ImportsPublicly w v) p q) :
    ReflTransGen (Imports w v) p q :=
  ReflTransGen.mono (fun _ _ => ImportsPublicly.imports) _ _ h

theorem Needed.of_imports {p q : String} (h : Needed w v requested p) (hpq : Imports w v p q) :
    Needed w v requested q := by
  obtain ⟨text, ht, i, hi, rfl⟩ := hpq
  exact .imported h ht hi

theorem Needed.of_visible {p q : String} (h : Needed w v requested p) (hpq : Visible w v p q) :
    Needed w v requested q := by
  rcases hpq with rfl | ⟨d, himport, hreach⟩
  · exact h
  · induction hreach with
    | refl => exact h.of_imports himport
    | tail _ hedge ih => exact ih.of_imports hedge.imports

theorem Faithful.bare (hs : Faithful w v s) {n : Nat} {f : SourceFile}
    (hf : s.files[n]? = some f) : f.file.bare = (parsedFile f.text).bare := by
  rw [(hs.file n f hf).2]
  exact (Schema.alike_parse n 0 f.text).file

theorem Faithful.bare_of_mem (hs : Faithful w v s) {f : SourceFile} (hf : f ∈ s.files) :
    f.file.bare = (parsedFile f.text).bare := by
  obtain ⟨n, hn⟩ := List.mem_iff_getElem?.1 hf
  exact hs.bare hn

theorem imports_of_bare {f g : Schema.File} (h : f.bare = g.bare) :
    f.imports.map Schema.Import.bare = g.imports.map Schema.Import.bare := by
  simp only [Schema.File.bare, Schema.File.mk.injEq] at h
  exact h.2.2.1

theorem exists_import_of_bare {f g : Schema.File} (h : f.bare = g.bare) {P : String → Bool → Prop} :
    (∃ i ∈ f.imports, P i.path i.isPublic) ↔ ∃ i ∈ g.imports, P i.path i.isPublic := by
  have hall (f : Schema.File) : (∃ i ∈ f.imports, P i.path i.isPublic) ↔
      ∃ i ∈ f.imports.map Schema.Import.bare, P i.path i.isPublic := by
    simp [Schema.Import.bare]
  rw [hall f, hall g, imports_of_bare h]

theorem forall_messages_of_bare {f g : Schema.File} (h : f.bare = g.bare)
    {P : String × Schema.MessageDecl → Prop} (hP : ∀ m, P (m.1, m.2.bare) ↔ P m) :
    (∀ m ∈ messagesOf f, P m) ↔ ∀ m ∈ messagesOf g, P m := by
  have hall (f : Schema.File) : (∀ m ∈ messagesOf f, P m) ↔ ∀ m ∈ messagesOf f.bare, P m := by
    rw [messagesOf_bare, List.forall_mem_map]
    exact forall₂_congr fun m _ => (hP m).symm
  rw [hall f, hall g, h]

namespace Loaded

variable (hs : Loaded w v requested s)
include hs

theorem forall_files {P : String → String → Prop} :
    (∀ p text, Needed w v requested p → HasText w v p text → P p text) ↔
      ∀ f ∈ s.files, P f.path f.text := by
  constructor
  · intro h f hf
    have hneeded := ((hs.mem_paths f.path).1 (List.mem_map_of_mem hf)).1
    exact h f.path f.text hneeded (hs.faithful.hasText hf)
  · intro h p text hneeded ht
    obtain ⟨f, hf, rfl⟩ := List.mem_map.1 ((hs.mem_paths p).2 ⟨hneeded, text, ht⟩)
    rw [ht.unique (hs.faithful.hasText hf)]
    exact h f hf

theorem number?_file {n : Nat} {f : SourceFile} (hf : s.files[n]? = some f) :
    s.number? f.path = some n := (number?_eq_some hs.nodup).2 ⟨f, hf, rfl⟩

/-! ### Paths and numbers -/

theorem exists_import_iff (R : Bool → Prop) {p q : String} {n m : Nat}
    (hp : s.number? p = some n) (hq : s.number? q = some m) :
    (∃ f, s.files[n]? = some f ∧
      ∃ i ∈ f.file.imports, R i.isPublic ∧ s.number? i.path = some m) ↔
    ∃ text, HasText w v p text ∧ ∃ i ∈ (parsedFile text).imports, R i.isPublic ∧ i.path = q := by
  obtain ⟨f, hf, rfl⟩ := (number?_eq_some hs.nodup).1 hp
  have hmem := List.mem_of_getElem? hf
  have hbare := exists_import_of_bare (hs.faithful.bare hf) (P := fun path b => R b ∧ path = q)
  have hnumber {i : Schema.Import} : s.number? i.path = some m ↔ i.path = q :=
    ⟨fun h => number?_inj h hq, fun h => h ▸ hq⟩
  simp only [hnumber]
  constructor
  · rintro ⟨f', hf', himport⟩
    rw [hf] at hf'
    cases hf'
    exact ⟨f.text, hs.faithful.hasText hmem, hbare.1 himport⟩
  · rintro ⟨text, ht, himport⟩
    rw [ht.unique (hs.faithful.hasText hmem)] at himport
    exact ⟨f, hf, hbare.2 himport⟩

theorem mem_imports_iff {p q : String} {n m : Nat} (hp : s.number? p = some n)
    (hq : s.number? q = some m) : m ∈ imports s n ↔ Imports w v p q := by
  have h := hs.exists_import_iff (fun _ => True) hp hq
  simp only [true_and] at h
  exact mem_imports.trans h

theorem mem_publicly_iff {p q : String} {n m : Nat} (hp : s.number? p = some n)
    (hq : s.number? q = some m) : m ∈ publicly s n ↔ ImportsPublicly w v p q :=
  mem_publicly.trans (hs.exists_import_iff (fun b => b = true) hp hq)

theorem exists_number? {p : String} (hp : p ∈ s.files.map SourceFile.path) :
    ∃ n, s.number? p = some n := by
  obtain ⟨f, hf, rfl⟩ := List.mem_map.1 hp
  obtain ⟨n, hn⟩ := List.mem_iff_getElem?.1 hf
  exact ⟨n, hs.number?_file hn⟩

theorem exists_path {n : Nat} (hn : n < s.files.length) : ∃ p, s.number? p = some n :=
  ⟨_, hs.number?_file (List.getElem?_eq_getElem hn)⟩

end Loaded

/-! ### Reaching paths and numbers -/

/-- Whether a relation of numbers stands for a relation of paths. A path that leads on has a
number, if one leads to it that has one. -/
structure Numbered (s : Sources) (E : Nat → Nat → Prop) (R : String → String → Prop) : Prop where
  iff : ∀ {p q n m}, s.number? p = some n → s.number? q = some m → (E n m ↔ R p q)
  path : ∀ {n m}, E n m → ∃ q, s.number? q = some m
  number : ∀ {p q r n}, s.number? p = some n → R p q → R q r → ∃ m, s.number? q = some m

namespace Numbered

variable {E : Nat → Nat → Prop} {R : String → String → Prop} {p q : String} {n m : Nat}

theorem number_of_reaches {r : String} (h : Numbered s E R) (hp : s.number? p = some n)
    (hpq : R p q) (hqr : ReflTransGen R q r) (hr : s.number? r = some m) :
    ∃ k, s.number? q = some k := by
  rcases hqr.cases_head with rfl | ⟨x, hqx, _⟩
  · exact ⟨m, hr⟩
  · exact h.number hp hpq hqx

theorem reaches_path (h : Numbered s E R) (hp : s.number? p = some n) (hnm : ReflTransGen E n m) :
    ∃ q, s.number? q = some m ∧ ReflTransGen R p q := by
  induction hnm with
  | refl => exact ⟨p, hp, .refl⟩
  | tail _ hedge ih =>
    obtain ⟨q, hq, hpq⟩ := ih
    obtain ⟨q', hq'⟩ := h.path hedge
    exact ⟨q', hq', hpq.tail ((h.iff hq hq').1 hedge)⟩

theorem reaches_number (h : Numbered s E R) (hp : s.number? p = some n)
    (hpq : ReflTransGen R p q) (hq : s.number? q = some m) : ReflTransGen E n m := by
  induction hpq using ReflTransGen.head_induction_on generalizing n with
  | refl =>
    rw [hq] at hp
    exact Option.some.inj hp ▸ .refl
  | head hedge hrest ih =>
    obtain ⟨k, hk⟩ := h.number_of_reaches hp hedge hrest hq
    exact .head ((h.iff hp hk).2 hedge) (ih hk)

theorem reaches_iff (h : Numbered s E R) (hp : s.number? p = some n) (hq : s.number? q = some m) :
    ReflTransGen E n m ↔ ReflTransGen R p q := by
  constructor
  · intro hnm
    obtain ⟨q', hq', hpq⟩ := h.reaches_path hp hnm
    exact number?_inj hq' hq ▸ hpq
  · exact fun hpq => h.reaches_number hp hpq hq

theorem cycle_iff (h : Numbered s E R) (hp : s.number? p = some n) :
    TransGen E n n ↔ TransGen R p p := by
  simp only [Relation.TransGen.head'_iff]
  constructor
  · rintro ⟨m, hnm, hmn⟩
    obtain ⟨q, hq⟩ := h.path hnm
    exact ⟨q, (h.iff hp hq).1 hnm, (h.reaches_iff hq hp).1 hmn⟩
  · rintro ⟨q, hpq, hqp⟩
    obtain ⟨m, hm⟩ := h.number_of_reaches hp hpq hqp hp
    exact ⟨m, (h.iff hp hm).2 hpq, (h.reaches_iff hm hp).2 hqp⟩

end Numbered

namespace Loaded

variable (hs : Loaded w v requested s)
include hs

theorem exists_import {f : SourceFile} (hf : f ∈ s.files) {q : String} :
    Imports w v f.path q ↔ ∃ i ∈ f.file.imports, i.path = q := by
  have hbare := exists_import_of_bare (hs.faithful.bare_of_mem hf) (P := fun path _ => path = q)
  rw [hbare]
  constructor
  · rintro ⟨text, ht, himport⟩
    rw [ht.unique (hs.faithful.hasText hf)] at himport
    exact himport
  · exact fun himport => ⟨f.text, hs.faithful.hasText hf, himport⟩

theorem needed_of_number? {p : String} {n : Nat} (hp : s.number? p = some n) :
    Needed w v requested p := by
  obtain ⟨f, hf, rfl⟩ := (number?_eq_some hs.nodup).1 hp
  exact ((hs.mem_paths f.path).1 (List.mem_map_of_mem (List.mem_of_getElem? hf))).1

theorem number?_of_imports {p q : String} (hneeded : Needed w v requested p)
    (himport : Imports w v p q) : ∃ n, s.number? p = some n := by
  obtain ⟨text, ht, _⟩ := himport
  exact hs.exists_number? ((hs.mem_paths p).2 ⟨hneeded, text, ht⟩)

theorem numbered_imports : Numbered s (Edge (imports s)) (Imports w v) where
  iff := hs.mem_imports_iff
  path := fun hedge => by
    obtain ⟨_, _, _, _, hm⟩ := mem_imports.1 hedge
    exact hs.exists_path (number?_lt hm)
  number := fun hp hpq hqr => hs.number?_of_imports ((hs.needed_of_number? hp).of_imports hpq) hqr

theorem numbered_publicly : Numbered s (Edge (publicly s)) (ImportsPublicly w v) where
  iff := hs.mem_publicly_iff
  path := fun hedge => by
    obtain ⟨_, _, _, _, _, hm⟩ := mem_publicly.1 hedge
    exact hs.exists_path (number?_lt hm)
  number := fun hp hpq hqr =>
    hs.number?_of_imports ((hs.needed_of_number? hp).of_imports hpq.imports) hqr.imports

/-! ### What the passes check, for paths -/

theorem errors_eq_nil : s.errors = [] ↔ ∀ f ∈ s.files, (Schema.parse 0 f.text).errors = [] := by
  have hnumber (n : FileId) (text : String) :
      (Schema.parse n text).errors = [] ↔ (Schema.parse 0 text).errors = [] := by
    have hlength := (Schema.alike_parse n 0 text).errors.length_eq
    rw [← List.length_eq_zero_iff, hlength, List.length_eq_zero_iff]
  simp only [hs.faithful.errors, List.flatMap_eq_nil_iff, hnumber]
  constructor
  · intro h f hf
    obtain ⟨n, hn⟩ := List.mem_iff_getElem?.1 hf
    exact h (f, n) (mem_zipIdx.2 hn)
  · rintro h ⟨f, n⟩ hf
    exact h f (List.mem_of_getElem? (mem_zipIdx.1 hf))

theorem present_iff
    (hutf8 : ∀ p, Needed w v requested p → ∀ info content, v.get w p = .ok (info, content) →
      ∃ text, String.fromUTF8? content = some text) :
    (∀ f ∈ s.files, ∀ i ∈ f.file.imports, i.path ∈ s.files.map SourceFile.path) ↔
      ∀ p q, Needed w v requested p → Imports w v p q → HasFile w v q := by
  constructor
  · rintro h p q hp himport
    have hfile : p ∈ s.files.map SourceFile.path :=
      (hs.mem_paths p).2 ⟨hp, himport.imp fun _ h => h.1⟩
    obtain ⟨f, hf, rfl⟩ := List.mem_map.1 hfile
    obtain ⟨i, hi, rfl⟩ := (hs.exists_import hf).1 himport
    obtain ⟨_, text, info, content, hget, _⟩ := (hs.mem_paths i.path).1 (h f hf i hi)
    exact ⟨info, content, hget⟩
  · intro h f hf i hi
    have himport : Imports w v f.path i.path := (hs.exists_import hf).2 ⟨i, hi, rfl⟩
    have hp := ((hs.mem_paths f.path).1 (List.mem_map_of_mem hf)).1
    have hneeded : Needed w v requested i.path := hp.of_imports himport
    obtain ⟨info, content, hget⟩ := h f.path i.path hp himport
    obtain ⟨text, htext⟩ := hutf8 i.path hneeded info content hget
    exact (hs.mem_paths i.path).2 ⟨hneeded, text, info, content, hget, htext⟩

theorem acyclic_iff :
    (∀ n < s.files.length, ¬ OnCycle (imports s) n) ↔
      ∀ p, Needed w v requested p → ¬ TransGen (Imports w v) p p := by
  constructor
  · intro h p hneeded hcycle
    obtain ⟨q, himport, _⟩ := Relation.TransGen.head'_iff.1 hcycle
    obtain ⟨n, hn⟩ := hs.number?_of_imports hneeded himport
    exact h n (number?_lt hn) ((hs.numbered_imports.cycle_iff hn).2 hcycle)
  · intro h n hn hcycle
    obtain ⟨p, hp⟩ := hs.exists_path hn
    exact h p (hs.needed_of_number? hp) ((hs.numbered_imports.cycle_iff hp).1 hcycle)

theorem names_declarationsOfAll :
    (Symbols.declarationsOfAll s).map Prod.fst =
      s.files.flatMap fun f => declaredNames (parsedFile f.text) := by
  have hnames : ∀ e ∈ s.files.zipIdx, (declarationsOf e.2 e.1.file).map Prod.fst =
      declaredNames (parsedFile e.1.text) := by
    rintro ⟨f, n⟩ he
    exact names_declarationsOf (hs.faithful.bare (mem_zipIdx.1 he)) n
  rw [Symbols.declarationsOfAll, Symbols.declarationsFrom, List.map_flatMap,
    List.flatMap_congr hnames]
  conv_rhs => rw [← List.zipIdx_map_fst 0 s.files, List.flatMap_map]

theorem declares_iff {f : SourceFile} (hf : f ∈ s.files) {name : String} :
    Declares w v f.path name ↔ name ∈ declaredNames (parsedFile f.text) := by
  constructor
  · rintro ⟨text, ht, hname⟩
    exact ht.unique (hs.faithful.hasText hf) ▸ hname
  · exact fun hname => ⟨f.text, hs.faithful.hasText hf, hname⟩

theorem names_iff :
    ((Symbols.declarationsOfAll s).map Prod.fst).Nodup ↔
      (∀ f ∈ s.files, (declaredNames (parsedFile f.text)).Nodup) ∧
      ∀ p q name, Needed w v requested p → Needed w v requested q →
        Declares w v p name → Declares w v q name → p = q := by
  have hpath : s.files.Pairwise fun f g => f.path ≠ g.path := List.pairwise_map.1 hs.nodup
  rw [hs.names_declarationsOfAll, List.nodup_flatMap]
  refine and_congr_right fun _ => ?_
  constructor
  · intro hdisjoint p q name hp hq hpname hqname
    obtain ⟨f, hf, rfl⟩ := List.mem_map.1 ((hs.mem_paths p).2 ⟨hp, hpname.imp fun _ h => h.1⟩)
    obtain ⟨g, hg, rfl⟩ := List.mem_map.1 ((hs.mem_paths q).2 ⟨hq, hqname.imp fun _ h => h.1⟩)
    by_contra hne
    have hsymm : Std.Symm (Function.onFun List.Disjoint fun f : SourceFile =>
        declaredNames (parsedFile f.text)) := ⟨fun _ _ h => h.symm⟩
    have hapart := hdisjoint.forall hf hg fun h => hne (h ▸ rfl)
    exact hapart ((hs.declares_iff hf).1 hpname) ((hs.declares_iff hg).1 hqname)
  · intro hapart
    refine hpath.imp_of_mem fun {f g} hf hg hne name hfname hgname => hne ?_
    have hneeded {f : SourceFile} (hf : f ∈ s.files) : Needed w v requested f.path :=
      ((hs.mem_paths f.path).1 (List.mem_map_of_mem hf)).1
    exact hapart f.path g.path name (hneeded hf) (hneeded hg) ((hs.declares_iff hf).2 hfname)
      ((hs.declares_iff hg).2 hgname)

theorem mem_declarationsOfAll {name : String} {V : Bool → FileId → Prop} :
    (∃ symbol, (name, symbol) ∈ Symbols.declarationsOfAll s ∧ V symbol.isMessage symbol.file) ↔
      ∃ (n : Nat) (f : SourceFile) (isMessage : Bool), s.files[n]? = some f ∧
        (name, isMessage) ∈ declaredTypes (parsedFile f.text) ∧ V isMessage n := by
  simp only [Symbols.declarationsOfAll, Symbols.declarationsFrom, List.mem_flatMap]
  constructor
  · rintro ⟨symbol, ⟨⟨f, n⟩, hf, hmem⟩, hV⟩
    have hfile := mem_zipIdx.1 hf
    have hnumber : symbol.file = n := file_declarationsIn n _ _ _ hmem
    refine ⟨n, f, symbol.isMessage, hfile, ?_, hnumber ▸ hV⟩
    rw [← types_declarationsOf (hs.faithful.bare hfile) n]
    exact List.mem_map_of_mem (f := namedType) hmem
  · rintro ⟨n, f, isMessage, hf, htype, hV⟩
    rw [← types_declarationsOf (hs.faithful.bare hf) n] at htype
    obtain ⟨⟨_, symbol⟩, hmem, heq⟩ := List.mem_map.1 htype
    cases heq
    have hnumber : symbol.file = n := file_declarationsIn n _ _ _ hmem
    exact ⟨symbol, ⟨(f, n), mem_zipIdx.2 hf, hmem⟩, hnumber.symm ▸ hV⟩

theorem visible_iff {f : SourceFile} {q : String} {n m : Nat} (hf : s.files[n]? = some f)
    (hq : s.number? q = some m) :
    (m = n ∨ ∃ i ∈ f.file.imports, ∃ t, s.number? i.path = some t ∧ Reaches (publicly s) t m) ↔
      Visible w v f.path q := by
  have hmem := List.mem_of_getElem? hf
  have hn := hs.number?_file hf
  have hown : m = n ↔ q = f.path := by
    constructor
    · intro heq
      exact number?_inj hq (heq ▸ hn)
    · rintro rfl
      rw [hq] at hn
      exact Option.some.inj hn
  refine or_congr hown ?_
  constructor
  · rintro ⟨i, hi, t, ht, hreach⟩
    exact ⟨i.path, (hs.exists_import hmem).2 ⟨i, hi, rfl⟩,
      (hs.numbered_publicly.reaches_iff ht hq).1 hreach⟩
  · rintro ⟨d, himport, hreach⟩
    obtain ⟨t, ht⟩ :=
      hs.numbered_imports.number_of_reaches hn himport (imports_of_publicly hreach) hq
    obtain ⟨i, hi, rfl⟩ := (hs.exists_import hmem).1 himport
    exact ⟨i, hi, t, ht, (hs.numbered_publicly.reaches_iff ht hq).2 hreach⟩

theorem knows_iff (hnames : (Symbols.ofSources s).errors = []) {f : SourceFile} {n : Nat}
    (hf : s.files[n]? = some f) {name : String} :
    (contextOf s (Symbols.ofSources s).table n f).Knows name ↔
      ∃ q, Visible w v f.path q ∧ Declares w v q name := by
  have hknows : (contextOf s (Symbols.ofSources s).table n f).Knows name ↔
      ∃ symbol, (name, symbol) ∈ Symbols.declarationsOfAll s ∧ (symbol.file = n ∨
        ∃ i ∈ f.file.imports, ∃ t, s.number? i.path = some t ∧
          Reaches (publicly s) t symbol.file) := by
    refine exists_congr fun symbol => and_congr (Symbols.find?_ofSources hnames) ?_
    rw [access_ne_hidden, mem_visibleThrough]
  rw [hknows, hs.mem_declarationsOfAll (V := fun _ m => m = n ∨
    ∃ i ∈ f.file.imports, ∃ t, s.number? i.path = some t ∧ Reaches (publicly s) t m)]
  constructor
  · rintro ⟨m, g, isMessage, hg, htype, hvisible⟩
    exact ⟨g.path, (hs.visible_iff hf (hs.number?_file hg)).1 hvisible,
      (hs.declares_iff (List.mem_of_getElem? hg)).2 (mem_declaredNames.2 ⟨isMessage, htype⟩)⟩
  · rintro ⟨q, hvisible, text, ht, hname⟩
    have hneeded := (hs.needed_of_number? (hs.number?_file hf)).of_visible hvisible
    obtain ⟨g, hg, rfl⟩ := List.mem_map.1 ((hs.mem_paths q).2 ⟨hneeded, text, ht⟩)
    obtain ⟨m, hm⟩ := List.mem_iff_getElem?.1 hg
    obtain ⟨isMessage, htype⟩ := mem_declaredNames.1 ((hs.declares_iff hg).1 ⟨text, ht, hname⟩)
    exact ⟨m, g, isMessage, hm, htype, (hs.visible_iff hf (hs.number?_file hm)).2 hvisible⟩

theorem links_iff (hnames : (Symbols.ofSources s).errors = []) {f : SourceFile} {n : Nat}
    (hf : s.files[n]? = some f) :
    (∀ m ∈ messagesOf f.file, (contextOf s (Symbols.ofSources s).table n f).Links m) ↔
      ∀ m ∈ messagesOf (parsedFile f.text), FieldsDiffer m.2.fields ∧
        ∀ fld ∈ m.2.fields, ∀ names, meanings? m.1 fld.type = some names →
          ∃ name ∈ names, ∃ q, Visible w v f.path q ∧ Declares w v q name := by
  simp only [LinkContext.Links, LinkContext.Resolves, hs.knows_iff hnames hf]
  refine forall_messages_of_bare (hs.faithful.bare hf) fun m => and_congr ?_ ?_
  · simp only [FieldsDiffer, Schema.MessageDecl.bare, List.map_map]
    rfl
  · simp only [Schema.MessageDecl.bare, List.forall_mem_map, Schema.Field.bare, meanings?_bare]

/-- No pass finds an error exactly when the requested files are well-formed. -/
theorem sound_iff
    (hutf8 : ∀ p, Needed w v requested p → ∀ info content, v.get w p = .ok (info, content) →
      ∃ text, String.fromUTF8? content = some text) :
    Sound s ↔ WellFormed w v requested := by
  have hpresent := hs.present_iff hutf8
  constructor
  · intro h
    have hnames := (Symbols.errors_ofSources s).2 h.names
    exact {
      parses := hs.forall_files.2 (hs.errors_eq_nil.1 h.parses)
      imports := hpresent.1 h.present
      acyclic := hs.acyclic_iff.1 h.acyclic
      names := hs.forall_files.2 (hs.names_iff.1 h.names).1
      apart := (hs.names_iff.1 h.names).2
      fields := hs.forall_files.2 fun f hf m hm => by
        obtain ⟨n, hn⟩ := List.mem_iff_getElem?.1 hf
        exact ((hs.links_iff hnames hn).1 (h.links n f hn) m hm).1
      references := hs.forall_files.2 fun f hf m hm => by
        obtain ⟨n, hn⟩ := List.mem_iff_getElem?.1 hf
        exact ((hs.links_iff hnames hn).1 (h.links n f hn) m hm).2 }
  · intro h
    have hthere := hpresent.2 h.imports
    have hnodup := hs.names_iff.2 ⟨hs.forall_files.1 h.names, h.apart⟩
    have hnames := (Symbols.errors_ofSources s).2 hnodup
    exact {
      parses := hs.errors_eq_nil.2 (hs.forall_files.1 h.parses)
      present := hthere
      acyclic := hs.acyclic_iff.2 h.acyclic
      names := hnodup
      links := fun n f hf => (hs.links_iff hnames hf).2 fun m hm =>
        ⟨hs.forall_files.1 h.fields f (List.mem_of_getElem? hf) m hm,
          hs.forall_files.1 h.references f (List.mem_of_getElem? hf) m hm⟩ }

end Loaded

/-! ### Compiling -/

theorem Faithful.isError (hs : Faithful w v s) : ∀ d ∈ s.errors, d.isError = true := by
  intro d hd
  rw [hs.errors] at hd
  obtain ⟨e, _, hd⟩ := List.mem_flatMap.1 hd
  exact Schema.isError_of_mem_errors d hd

theorem readFile_of_missing {path : String} {e : Module.Error} (hlive : w.live = true)
    (h : v.get w path = .error e) (he : e.isMissing = true) :
    Sources.readFile w v path = .ok none := by
  unfold Sources.readFile
  rw [h, checkLive, hlive]
  simp only [if_true, he]
  rfl

/-- Whether a view says that a path is not there. -/
def IsMissing (w : World) (v : Module.View) (path : String) : Prop :=
  ∃ e, v.get w path = .error e ∧ e.isMissing = true

theorem compile_eq_ok {keepPlaces : Bool} {c : Compilation} :
    compile w v requested keepPlaces = .ok c ↔
      ∃ s, Sources.load w v requested = .ok s ∧ s.compile requested keepPlaces = c := by
  unfold compile
  rw [bind_eq_ok]
  exact exists_congr fun s => and_congr_right fun _ => ⟨Except.ok.inj, fun h => congrArg _ h⟩

/-- Compiling requested files that are there, when all that they need is valid text, reports no
errors exactly when they are well-formed; and it ends if every other import is there or missing. -/
theorem compile_iff_wellFormed (hlive : w.live = true) (hthere : ∀ p ∈ requested, HasFile w v p)
    (hutf8 : ∀ p, Needed w v requested p → ∀ info content, v.get w p = .ok (info, content) →
      ∃ text, String.fromUTF8? content = some text) (keepPlaces : Bool) :
    ((∃ c, compile w v requested keepPlaces = .ok c ∧ c.errors = []) ↔
      WellFormed w v requested) ∧
    ((∀ p, Needed w v requested p → HasFile w v p ∨ IsMissing w v p) →
      ∃ c, compile w v requested keepPlaces = .ok c) := by
  have htext : ∀ p, Needed w v requested p → HasFile w v p → ∃ text, HasText w v p text := by
    rintro p hp ⟨info, content, hget⟩
    obtain ⟨text, htext⟩ := hutf8 p hp info content hget
    exact ⟨text, info, content, hget, htext⟩
  have herrors {s : Sources} (hload : Sources.load w v requested = .ok s) :
      (s.compile requested keepPlaces).errors = [] ↔ WellFormed w v requested := by
    have hs := loaded_of_load hlive hload
    rw [errors_compile hs.faithful.isError, hs.sound_iff hutf8]
  refine ⟨⟨?_, fun h => ?_⟩, fun h => ?_⟩
  · rintro ⟨c, hc, hnil⟩
    obtain ⟨s, hload, rfl⟩ := compile_eq_ok.1 hc
    exact (herrors hload).1 hnil
  · have hfile : ∀ p, Needed w v requested p → HasFile w v p := by
      intro p hp
      cases hp with
      | requested hp => exact hthere p hp
      | imported hp ht hi => exact h.imports _ _ hp ⟨_, ht, _, hi, rfl⟩
    obtain ⟨s, hload⟩ := exists_load hlive fun p hp => .inl (htext p hp (hfile p hp))
    exact ⟨_, compile_eq_ok.2 ⟨s, hload, rfl⟩, (herrors hload).2 h⟩
  · have hreadable : ∀ p, Needed w v requested p → Readable w v requested p := by
      intro p hp
      rcases h p hp with hfile | ⟨e, hget, he⟩
      · exact .inl (htext p hp hfile)
      · refine .inr ⟨fun hreq => ?_, readFile_of_missing hlive hget he⟩
        obtain ⟨info, content, hget'⟩ := hthere p hreq
        rw [hget] at hget'
        cases hget'
    obtain ⟨s, hload⟩ := exists_load hlive hreadable
    exact ⟨_, compile_eq_ok.2 ⟨s, hload, rfl⟩⟩

/-! ### Two files -/

def textAt? (w : World) (v : Module.View) (path : String) : Option String :=
  match v.get w path with
  | .ok (_, content) => String.fromUTF8? content
  | .error _ => none

theorem hasText_iff {path text : String} : HasText w v path text ↔ textAt? w v path = some text := by
  unfold textAt?
  constructor
  · rintro ⟨info, content, hget, htext⟩
    rw [hget]
    exact htext
  · intro h
    split at h
    · rename_i info content hget
      exact ⟨info, content, hget, h⟩
    · cases h

/-- Paths that lead only to each other are all that is needed. -/
theorem Needed.mem_of_closed {paths : List String} (hreq : ∀ p ∈ requested, p ∈ paths)
    (hclosed : ∀ p ∈ paths, ∀ text ∈ textAt? w v p,
      ∀ i ∈ (Schema.parse 0 text).file.imports, i.path ∈ paths) {p : String}
    (h : Needed w v requested p) : p ∈ paths := by
  induction h with
  | requested hp => exact hreq _ hp
  | imported _ ht hi ih => exact hclosed _ ih _ (hasText_iff.1 ht) _ hi

/-- A view of a local module with a target file and another that it needs. -/
def pairView : Module.View := .merged [{
  bucketId := "pair"
  name := none
  commit := none
  label := none
  target := true
  origin := .workspace
  files := .objects <| (Storage.Objects.ofFiles [
    ("a.schema", "import \"b.schema\"; message A \x7b B b = 1; \x7d".toUTF8),
    ("b.schema", "message B \x7b\x7d".toUTF8)]).toOption.getD .empty
  filter := ⟨["a.schema"], [], none, false⟩
  v1Config := none
  v1Lock := none }] true

theorem wellFormed_pairView :
    World.empty.live = true ∧ (∀ p ∈ ["a.schema"], HasFile World.empty pairView p) ∧
      (∀ p, Needed World.empty pairView ["a.schema"] p → ∀ info content,
        pairView.get World.empty p = .ok (info, content) →
          ∃ text, String.fromUTF8? content = some text) ∧
      (∃ c, compile World.empty pairView ["a.schema"] false = .ok c ∧ c.errors = []) ∧
      WellFormed World.empty pairView ["a.schema"] := by
  have htexts : ∀ p ∈ ["a.schema", "b.schema"], (textAt? World.empty pairView p).isSome := by
    decide +kernel
  have hclosed : ∀ p ∈ ["a.schema", "b.schema"], ∀ text ∈ textAt? World.empty pairView p,
      ∀ i ∈ (Schema.parse 0 text).file.imports, i.path ∈ ["a.schema", "b.schema"] := by
    decide +kernel
  have hthere : ∀ p ∈ ["a.schema"], HasFile World.empty pairView p := by
    intro p hp
    obtain ⟨text, htext⟩ := Option.isSome_iff_exists.1 (htexts p (List.mem_cons.2
      (.inl (List.mem_singleton.1 hp))))
    obtain ⟨info, content, hget, _⟩ := hasText_iff.2 htext
    exact ⟨info, content, hget⟩
  have hutf8 : ∀ p, Needed World.empty pairView ["a.schema"] p → ∀ info content,
      pairView.get World.empty p = .ok (info, content) →
        ∃ text, String.fromUTF8? content = some text := by
    intro p hp info content hget
    have hmem := hp.mem_of_closed (by decide +kernel) hclosed
    obtain ⟨text, htext⟩ := Option.isSome_iff_exists.1 (htexts p hmem)
    obtain ⟨info', content', hget', htext'⟩ := hasText_iff.2 htext
    rw [hget] at hget'
    cases hget'
    exact ⟨text, htext'⟩
  have hcompile : ((compile World.empty pairView ["a.schema"] false).toOption.map
      fun c => c.errors.length) = some 0 := by
    decide +kernel
  have hok : ∃ c, compile World.empty pairView ["a.schema"] false = .ok c ∧ c.errors = [] := by
    cases hc : compile World.empty pairView ["a.schema"] false with
    | error e =>
      rw [hc] at hcompile
      cases hcompile
    | ok c =>
      rw [hc] at hcompile
      exact ⟨c, rfl, List.length_eq_zero_iff.1 (Option.some.inj hcompile)⟩
  exact ⟨rfl, hthere, hutf8, hok, (compile_iff_wellFormed rfl hthere hutf8 false).1.1 hok⟩

end Schemata.Image

import Schemata.Image.Linking
import Schemata.Proofs.Image.Declarations

/-!
# What linking complains about

A step of linking complains unless a condition holds, whatever was found before. The conditions of
the steps add up to that of a file: in each message, fields have different numbers and names, and
every type reference means something that the file may refer to.
-/

namespace Schemata.Image

open Source

/-! ### Steps -/

variable {α β : Type} {P Q : Prop}

/-- Whether a step complains exactly when a condition fails, and then with errors. -/
structure Checks (P : Prop) (act : LinkStep α) : Prop where
  errors : ∀ l : Link, (act l).2.errors = [] ↔ l.errors = [] ∧ P
  isError : ∀ l : Link, (∀ d ∈ l.errors, d.isError = true) →
    ∀ d ∈ (act l).2.errors, d.isError = true

theorem Checks.congr {act : LinkStep α} (h : Checks P act) (hpq : P ↔ Q) : Checks Q act :=
  ⟨fun l => by rw [h.errors l, hpq], h.isError⟩

theorem checks_pure (a : α) : Checks True (pure a : LinkStep α) :=
  ⟨fun _ => (and_iff_left trivial).symm, fun _ h => h⟩

theorem Checks.bind {act : LinkStep α} {f : α → LinkStep β} (h : Checks P act)
    (hf : ∀ a, Checks Q (f a)) : Checks (P ∧ Q) (act >>= f) := by
  constructor
  · intro l
    have hnext := (hf (act l).1).errors (act l).2
    rw [h.errors l, and_assoc] at hnext
    exact hnext
  · intro l hl
    exact (hf (act l).1).isError (act l).2 (h.isError l hl)

theorem Checks.andThen {act : LinkStep α} {f : α → LinkStep β} (h : Checks P act)
    (hf : ∀ a, Checks True (f a)) : Checks P (act >>= f) :=
  (h.bind hf).congr (and_iff_left trivial)

theorem Checks.before {act : LinkStep α} {f : α → LinkStep β} (h : Checks True act)
    (hf : ∀ a, Checks P (f a)) : Checks P (act >>= f) :=
  (h.bind hf).congr (and_iff_right trivial)

namespace LinkContext

theorem checks_report {d : Diagnostic} (hd : d.isError = true) : Checks False (report d) := by
  constructor
  · intro l
    simp [report, modify, modifyGet, MonadStateOf.modifyGet, StateT.modifyGet, pure]
  · intro l hl e he
    rcases List.mem_cons.1 he with rfl | he
    · exact hd
    · exact hl e he

theorem checks_modify {g : Link → Link} (h : ∀ l, (g l).errors = l.errors) :
    Checks True (modify g : LinkStep PUnit) := by
  constructor
  · intro l
    rw [and_iff_left trivial, ← h l]
    rfl
  · intro l hl
    have heq : ((modify g : LinkStep PUnit) l).2.errors = l.errors := h l
    rw [heq]
    exact hl

theorem checks_record (c : LinkContext) (symbol : String) (span : Span) :
    Checks True (c.record symbol span) := checks_modify fun _ => rfl

/-- Complains about what was found, if anything. -/
def reportSome (o : Option β) (complaint : β → Diagnostic) : LinkStep Unit :=
  match o with
  | some b => report (complaint b)
  | none => pure ()

theorem checks_reportSome {o : Option β} {complaint : β → Diagnostic}
    (hd : ∀ b, (complaint b).isError = true) : Checks (o = none) (reportSome o complaint) := by
  cases o with
  | none => exact (checks_pure ()).congr (iff_of_true trivial rfl)
  | some b => exact (checks_report (hd b)).congr (iff_of_false not_false (fun h => nomatch h))

/-! ### Type references -/

variable (c : LinkContext)

/-- Whether a file may refer to a declared type of that name. -/
def Knows (name : String) : Prop :=
  ∃ symbol, c.symbols.find? name = some symbol ∧ c.access symbol.file ≠ .hidden

/-- Whether a type reference inside a message means something. -/
def Resolves (message : String) (type : Schema.TypeRef) : Prop :=
  ∀ names, meanings? message type = some names → ∃ name ∈ names, c.Knows name

theorem lookup?_ne_none {names : List String} :
    c.lookup? names ≠ none ↔ ∃ name ∈ names, c.Knows name := by
  induction names with
  | nil => simp [lookup?]
  | cons name names ih =>
    rw [lookup?]
    cases hfind : c.symbols.find? name with
    | none =>
      have hunknown : ¬ c.Knows name := fun ⟨symbol, hsymbol, _⟩ => by
        rw [hfind] at hsymbol
        cases hsymbol
      simp only [ih, List.exists_mem_cons_iff, hunknown, false_or]
    | some symbol =>
      have hknows : c.Knows name ↔ c.access symbol.file ≠ .hidden := by
        constructor
        · rintro ⟨symbol', hsymbol, haccess⟩
          rw [hfind] at hsymbol
          cases hsymbol
          exact haccess
        · exact fun haccess => ⟨symbol, hfind, haccess⟩
      rw [List.exists_mem_cons_iff, hknows]
      simp only
      split
      · rename_i hhidden
        rw [ih]
        simp [hhidden]
      · rename_i hnot
        exact ⟨fun _ => .inl hnot, fun _ h => nomatch h⟩

theorem isError_unresolved (name : String) (names : List String) (span : Span) :
    (c.unresolved name names span).isError = true := by
  rw [unresolved]
  split
  · rfl
  · rfl

theorem span_unresolved (name : String) (names : List String) (span : Span) :
    (c.unresolved name names span).span = span := by
  rw [unresolved]
  split
  · rfl
  · rfl

theorem checks_resolve (message : String) (type : Schema.TypeRef) :
    Checks (c.Resolves message type) (c.resolve message type) := by
  cases type with
  | scalar type span => exact (checks_pure _).congr (by simp [Resolves, meanings?])
  | named name absolute span =>
    have hcond : c.Resolves message (.named name absolute span) ↔
        c.lookup? (candidates message name absolute) ≠ none := by
      rw [lookup?_ne_none]
      exact ⟨fun h => h _ rfl, fun h names hnames => Option.some.inj hnames ▸ h⟩
    refine Checks.congr ?_ hcond.symm
    rw [resolve]
    cases hlookup : c.lookup? (candidates message name absolute) with
    | none =>
      refine Checks.congr ?_ (iff_of_false not_false (fun h => h rfl))
      exact (checks_report (c.isError_unresolved _ _ _)).andThen fun _ => checks_pure _
    | some found =>
      obtain ⟨fullName, symbol, a⟩ := found
      refine Checks.congr ?_ (iff_of_true trivial (Option.some_ne_none _))
      cases a with
      | imported position =>
        have hused : Checks True
            (modify fun l : Link => { l with used := position :: l.used }) :=
          checks_modify fun _ => rfl
        exact hused.before fun _ => checks_pure _
      | own => exact checks_pure _
      | hidden => exact checks_pure _

/-! ### Declarations -/

/-- Whether linking has nothing to say against a message. -/
def Links (m : String × Schema.MessageDecl) : Prop :=
  FieldsDiffer m.2.fields ∧ ∀ f ∈ m.2.fields, c.Resolves m.1 f.type

theorem isError_duplicateNumber (message : String) (f first : Schema.Field) :
    (duplicateNumber message f first).isError = true := rfl

theorem isError_duplicateName (message : String) (f first : Schema.Field) :
    (duplicateName message f first).isError = true := rfl

/-- Whether linking has nothing to say against fields that come after others. -/
structure LinksAfter (message : String) (before fs : List Schema.Field) : Prop where
  new : ∀ f ∈ fs, ∀ g ∈ before, g.number ≠ f.number ∧ g.name ≠ f.name
  differ : FieldsDiffer fs
  resolve : ∀ f ∈ fs, c.Resolves message f.type

theorem linksAfter_cons {message : String} {before fs : List Schema.Field} {f : Schema.Field} :
    c.LinksAfter message before (f :: fs) ↔
      (before.find? fun g => g.number = f.number) = none ∧
      (before.find? fun g => g.name = f.name) = none ∧
      c.Resolves message f.type ∧ c.LinksAfter message (before ++ [f]) fs := by
  simp only [List.find?_eq_none, decide_eq_true_eq]
  constructor
  · rintro ⟨hnew, ⟨hnumbers, hnames⟩, hresolve⟩
    rw [List.map_cons, List.nodup_cons] at hnumbers hnames
    have hf := hnew f List.mem_cons_self
    refine ⟨fun g hg => (hf g hg).1, fun g hg => (hf g hg).2, hresolve f List.mem_cons_self, ?_,
      ⟨hnumbers.2, hnames.2⟩, fun h hh => hresolve h (List.mem_cons_of_mem _ hh)⟩
    intro h hh g hg
    rcases List.mem_append.1 hg with hg | hg
    · exact hnew h (List.mem_cons_of_mem _ hh) g hg
    · rw [List.mem_singleton.1 hg]
      exact ⟨fun heq => hnumbers.1 (heq ▸ List.mem_map_of_mem hh),
        fun heq => hnames.1 (heq ▸ List.mem_map_of_mem hh)⟩
  · rintro ⟨hnumber, hname, hf, hnew, ⟨hnumbers, hnames⟩, hresolve⟩
    have hlast {h : Schema.Field} (hh : h ∈ fs) :=
      hnew h hh f (List.mem_append_right _ List.mem_cons_self)
    refine ⟨?_, ⟨?_, ?_⟩, ?_⟩
    · intro h hh g hg
      rcases List.mem_cons.1 hh with rfl | hh
      · exact ⟨hnumber g hg, hname g hg⟩
      · exact hnew h hh g (List.mem_append_left _ hg)
    · rw [List.map_cons, List.nodup_cons]
      refine ⟨fun hmem => ?_, hnumbers⟩
      obtain ⟨h, hh, heq⟩ := List.mem_map.1 hmem
      exact (hlast hh).1 heq.symm
    · rw [List.map_cons, List.nodup_cons]
      refine ⟨fun hmem => ?_, hnames⟩
      obtain ⟨h, hh, heq⟩ := List.mem_map.1 hmem
      exact (hlast hh).2 heq.symm
    · intro h hh
      rcases List.mem_cons.1 hh with rfl | hh
      · exact hf
      · exact hresolve h hh

theorem linkFields_cons (message : String) (before fs : List Schema.Field) (f : Schema.Field) :
    c.linkFields message before (f :: fs) = (do
      reportSome (before.find? fun g => g.number = f.number) (duplicateNumber message f)
      reportSome (before.find? fun g => g.name = f.name) (duplicateName message f)
      c.record (message ++ "." ++ f.name) f.span
      let type ← c.resolve message f.type
      return ⟨f.name, f.number, f.label, type⟩ :: (← c.linkFields message (before ++ [f]) fs)) := by
  rw [linkFields]
  cases before.find? fun g => g.number = f.number with
  | none =>
    cases before.find? fun g => g.name = f.name with
    | none => rfl
    | some _ => rfl
  | some _ =>
    cases before.find? fun g => g.name = f.name with
    | none => rfl
    | some _ => rfl

/-- Fields are compared with all fields before them. -/
theorem checks_linkFields (message : String) (before fs : List Schema.Field) :
    Checks (c.LinksAfter message before fs) (c.linkFields message before fs) := by
  induction fs generalizing before with
  | nil =>
    rw [linkFields]
    refine (checks_pure _).congr (iff_of_true trivial ⟨?_, ⟨.nil, .nil⟩, ?_⟩)
    · exact fun f hf => absurd hf List.not_mem_nil
    · exact fun f hf => absurd hf List.not_mem_nil
  | cons f fs ih =>
    rw [linkFields_cons]
    refine Checks.congr ?_ c.linksAfter_cons.symm
    refine (checks_reportSome (isError_duplicateNumber message f)).bind fun _ => ?_
    refine (checks_reportSome (isError_duplicateName message f)).bind fun _ => ?_
    refine (c.checks_record _ _).before fun _ => ?_
    refine (c.checks_resolve message f.type).bind fun _ => ?_
    exact (ih (before ++ [f])).andThen fun _ => checks_pure _

theorem linksAfter_nil {message : String} {fs : List Schema.Field} :
    c.LinksAfter message [] fs ↔ FieldsDiffer fs ∧ ∀ f ∈ fs, c.Resolves message f.type :=
  ⟨fun h => ⟨h.differ, h.resolve⟩,
    fun h => ⟨fun _ _ _ hg => absurd hg List.not_mem_nil, h.1, h.2⟩⟩

theorem checks_linkEnum (scope : String) (decl : Schema.EnumDecl) :
    Checks True (c.linkEnum scope decl) :=
  (c.checks_record _ _).before fun _ => checks_pure _

mutual

theorem checks_linkItem (scope : String) : (item : Schema.Item) →
    Checks (∀ m ∈ messages scope item, c.Links m) (c.linkItem scope item)
  | .message decl nested => by
    rw [linkItem, messages]
    refine Checks.congr ?_ List.forall_mem_cons.symm
    refine (c.checks_record _ _).before fun _ => ?_
    have hfields := (c.checks_linkFields (qualify scope decl.name) [] decl.fields).congr
      c.linksAfter_nil
    refine hfields.bind fun _ => ?_
    exact (checks_linkItems (qualify scope decl.name) nested).andThen fun _ => checks_pure _
  | .enumeration decl => by
    rw [linkItem]
    refine Checks.congr ?_ (iff_of_true trivial fun m hm => absurd hm List.not_mem_nil)
    exact (c.checks_linkEnum scope decl).before fun _ => checks_pure _

theorem checks_linkItems (scope : String) : (items : List Schema.Item) →
    Checks (∀ m ∈ messagesIn scope items, c.Links m) (c.linkItems scope items)
  | [] => by
    rw [linkItems]
    exact (checks_pure _).congr (iff_of_true trivial fun m hm => absurd hm List.not_mem_nil)
  | item :: items => by
    rw [linkItems, messagesIn]
    refine Checks.congr ?_ List.forall_mem_append.symm
    refine (checks_linkItem scope item).bind fun _ => ?_
    exact (checks_linkItems scope items).andThen fun _ => checks_pure _

end

end LinkContext

/-! ### Files -/

/-- What linking a file goes by. -/
def contextOf (s : Sources) (symbols : Table Symbol) (number : FileId) (f : SourceFile) :
    LinkContext :=
  ⟨s, symbols, number, s.visibleThrough s.passedOn f, Document.ofText f.path f.external f.text⟩

variable (s : Sources) (symbols : Table Symbol) (keepPlaces : Bool) (number : FileId)
  (f : SourceFile)

theorem errors_linkFile_eq_nil :
    (linkFile s symbols s.passedOn keepPlaces number f).errors = [] ↔
      ∀ m ∈ messagesOf f.file, (contextOf s symbols number f).Links m := by
  have hcheck := ((contextOf s symbols number f).checks_linkItems f.file.packageName
    f.file.items).errors ⟨[], [], []⟩
  show List.reverse _ = [] ↔ _
  rw [List.reverse_eq_nil_iff]
  exact hcheck.trans (and_iff_right rfl)

theorem isError_linkFile :
    ∀ d ∈ (linkFile s symbols s.passedOn keepPlaces number f).errors, d.isError = true := by
  intro d hd
  have hcheck := ((contextOf s symbols number f).checks_linkItems f.file.packageName
    f.file.items).isError ⟨[], [], []⟩ fun _ hd => absurd hd List.not_mem_nil
  exact hcheck d (List.mem_reverse.1 hd)

theorem access_ne_hidden (n : FileId) :
    (contextOf s symbols number f).access n ≠ .hidden ↔
      n = number ∨ ∃ files ∈ s.visibleThrough s.passedOn f, n ∈ files := by
  have himport : (importOf? (s.visibleThrough s.passedOn f) n).isSome ↔
      ∃ files ∈ s.visibleThrough s.passedOn f, n ∈ files := by
    simp [importOf?]
  rw [LinkContext.access, ← himport]
  split
  · rename_i hown
    exact iff_of_true (fun h => nomatch h) (.inl hown)
  · rename_i hother
    have hne : n ≠ number := hother
    cases hposition : importOf? (s.visibleThrough s.passedOn f) n with
    | none => simp [contextOf, hposition, hne]
    | some position => simp [contextOf, hposition]

end Schemata.Image

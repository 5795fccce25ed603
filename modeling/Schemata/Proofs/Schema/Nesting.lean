import Schemata.Proofs.Schema.Layout
import Schemata.Proofs.Schema.Stretches
import Schemata.Source.Document

/-!
# How the places of declarations are nested

Tokens stand in their text one after the other, and each declaration goes from one of them to
another. So what is read without a complaint has its places in good order: a declaration lies inside
the one that it belongs to, those of one declaration lie side by side, and a name is what stands in
the text at its place.
-/

namespace Schemata.Source.Span

/-! ### Spans inside and beside each other -/

/-- Whether a span is not empty and lies inside another. -/
structure Within (s t : Span) : Prop where
  file : s.file = t.file
  start : t.start ≤ s.start
  filled : s.start < s.stop
  stop : s.stop ≤ t.stop

/-- Whether a span ends before another one of its file starts. -/
structure Before (s t : Span) : Prop where
  file : s.file = t.file
  stop : s.stop ≤ t.start

/-- Whether spans of one file have nothing in common. -/
def Apart (s t : Span) : Prop := s.Before t ∨ t.Before s

theorem Apart.symm {s t : Span} (h : s.Apart t) : t.Apart s := Or.symm h

end Schemata.Source.Span

namespace Schemata.Schema

open Source

/-! ### Declarations in good order -/

/-- Whether a name is what stands in a text at a place. -/
def Spells (text : String) (span : Span) (name : String) : Prop :=
  ∀ d : Document, d.text = text → d.slice span.start span.stop = name

/-- Whether the places of a field lie inside it, in the order in which they are written. -/
structure Field.Nested (text : String) (f : Field) : Prop where
  type : f.type.span.Within f.span
  name : f.nameSpan.Within f.span
  number : f.numberSpan.Within f.span
  typeFirst : f.type.span.Before f.nameSpan
  numberLast : f.nameSpan.Before f.numberSpan
  named : Spells text f.nameSpan f.name

def Item.span : Item → Span
  | .message decl _ => decl.span
  | .enumeration decl => decl.span

/-- Whether the places of a declared type are in good order, and inside the span of the file. -/
inductive Item.Nested (text : String) (whole : Span) : Item → Prop
  | message {decl : MessageDecl} {nested : List Item} (file : decl.span.Within whole)
      (name : decl.nameSpan.Within decl.span) (named : Spells text decl.nameSpan decl.name)
      (fields : ∀ f ∈ decl.fields,
        f.Nested text ∧ f.span.Within decl.span ∧ f.span.Within whole)
      (inner : ∀ item ∈ nested, item.Nested text whole)
      (within : ∀ item ∈ nested, item.span.Within decl.span)
      (apart : (decl.fields.map Field.span ++ nested.map Item.span).Pairwise Span.Apart)
      (fieldsInOrder : (decl.fields.map Field.span).Pairwise Span.Before)
      (nestedInOrder : (nested.map Item.span).Pairwise Span.Before) :
      Item.Nested text whole (.message decl nested)
  | enumeration {decl : EnumDecl} (file : decl.span.Within whole)
      (name : decl.nameSpan.Within decl.span) (named : Spells text decl.nameSpan decl.name)
      (values : ∀ v ∈ decl.values, v.span.Within decl.span ∧ v.span.Within whole)
      (inOrder : (decl.values.map EnumValue.span).Pairwise Span.Before) :
      Item.Nested text whole (.enumeration decl)

/-- The spans of all statements of a file. -/
def File.spans (file : File) : List Span :=
  (file.syntaxDecl.map SyntaxDecl.span).toList ++ ((file.package.map PackageDecl.span).toList ++
    (file.imports.map Import.span ++ file.items.map Item.span))

/-- Whether all places of a file are in good order. -/
structure File.Nested (text : String) (file : File) : Prop where
  items : ∀ item ∈ file.items, item.Nested text file.span
  within : ∀ span ∈ file.spans, span.Within file.span
  apart : file.spans.Pairwise Span.Apart
  importsInOrder : (file.imports.map Import.span).Pairwise Span.Before
  itemsInOrder : (file.items.map Item.span).Pairwise Span.Before

/-! ### Spans among tokens -/

/-- Whether tokens stand in a text one after the other, and names with the characters that they have
there. -/
structure Laid (n : FileId) (text : String) (ts : List Token) : Prop where
  file : ∀ t ∈ ts, t.span.file = n
  filled : ∀ t ∈ ts, t.span.start < t.span.stop
  ordered : ts.Pairwise fun t u => t.span.stop ≤ u.span.start
  named : ∀ t ∈ ts, t.kind.isName = true → Spells text t.span t.text

/-- Whether a span goes from one of some tokens to another. -/
structure Among (n : FileId) (ts : List Token) (span : Span) : Prop where
  file : span.file = n
  filled : span.start < span.stop
  first : ∃ t ∈ ts, t.span.start = span.start
  last : ∃ t ∈ ts, t.span.stop = span.stop

/-- Whether all that lies among some tokens lies inside a span. -/
def Around (n : FileId) (ts : List Token) (whole : Span) : Prop :=
  ∀ span, Among n ts span → span.Within whole

variable {n : FileId} {text : String} {ts us : List Token} {span span' whole : Span}

theorem Laid.sublist (h : Laid n text ts) (hsub : us.Sublist ts) : Laid n text us :=
  ⟨fun t ht => h.file t (hsub.subset ht), fun t ht => h.filled t (hsub.subset ht),
    h.ordered.sublist hsub, fun t ht => h.named t (hsub.subset ht)⟩

theorem Laid.left (h : Laid n text (us ++ ts)) : Laid n text us :=
  h.sublist (List.sublist_append_left us ts)

theorem Laid.right (h : Laid n text (us ++ ts)) : Laid n text ts :=
  h.sublist (List.sublist_append_right us ts)

theorem Among.mono (h : Among n us span) (hsub : us ⊆ ts) : Among n ts span := by
  obtain ⟨first, hfirst, hstart⟩ := h.first
  obtain ⟨last, hlast, hstop⟩ := h.last
  exact ⟨h.file, h.filled, ⟨first, hsub hfirst, hstart⟩, ⟨last, hsub hlast, hstop⟩⟩

theorem Laid.among {t : Token} (h : Laid n text ts) (ht : t ∈ ts) : Among n ts t.span :=
  ⟨h.file t ht, h.filled t ht, ⟨t, ht, rfl⟩, ⟨t, ht, rfl⟩⟩

theorem Among.before (hlaid : Laid n text (us ++ ts)) (h : Among n us span)
    (h' : Among n ts span') : span.Before span' := by
  obtain ⟨last, hlast, hstop⟩ := h.last
  obtain ⟨first, hfirst, hstart⟩ := h'.first
  refine ⟨h.file.trans h'.file.symm, ?_⟩
  rw [← hstop, ← hstart]
  exact (List.pairwise_append.1 hlaid.ordered).2.2 last hlast first hfirst

/-- The first of some tokens starts before all of them and the last stops behind all of them. -/
theorem Laid.bounds {first last : Token} (h : Laid n text ts) (hfirst : ts.head? = some first)
    (hlast : ts.getLast? = some last) :
    ∀ t ∈ ts, first.span.start ≤ t.span.start ∧ t.span.stop ≤ last.span.stop := by
  intro t ht
  constructor
  · obtain ⟨after, rfl⟩ := List.head?_eq_some_iff.1 hfirst
    rcases List.mem_cons.1 ht with rfl | hmem
    · exact Nat.le_refl _
    · have hstop := (List.pairwise_cons.1 h.ordered).1 t hmem
      exact Nat.le_trans (Nat.le_of_lt (h.filled first List.mem_cons_self)) hstop
  · obtain ⟨before, rfl⟩ := List.getLast?_eq_some_iff.1 hlast
    rcases List.mem_append.1 ht with hmem | hmem
    · have hstop := (List.pairwise_append.1 h.ordered).2.2 t hmem last (List.mem_singleton_self _)
      exact Nat.le_trans hstop (Nat.le_of_lt (h.filled last (List.mem_append_right _
        (List.mem_singleton_self _))))
    · rw [List.mem_singleton.1 hmem]

theorem Covers.eq (h : Covers span ts) (hlaid : Laid n text ts) :
    ∃ first last, ts.head? = some first ∧ ts.getLast? = some last ∧
      span = ⟨n, first.span.start, last.span.stop⟩ := by
  obtain ⟨first, last, hfirst, hlast, rfl⟩ := h
  have hmem := List.mem_of_head? hfirst
  have hmem' := List.mem_of_getLast? hlast
  have hbounds := hlaid.bounds hfirst hlast
  refine ⟨first, last, hfirst, hlast, ?_⟩
  rw [Span.hull, if_pos ((hlaid.file first hmem).trans (hlaid.file last hmem').symm),
    hlaid.file first hmem, Nat.min_eq_left (hbounds last hmem').1,
    Nat.max_eq_right (hbounds first hmem).2]

theorem Covers.among (h : Covers span ts) (hlaid : Laid n text ts) : Among n ts span := by
  obtain ⟨first, last, hfirst, hlast, rfl⟩ := h.eq hlaid
  have hmem := List.mem_of_head? hfirst
  refine ⟨rfl, ?_, ⟨first, hmem, rfl⟩, ⟨last, List.mem_of_getLast? hlast, rfl⟩⟩
  exact Nat.lt_of_lt_of_le (hlaid.filled first hmem) (hlaid.bounds hfirst hlast first hmem).2

theorem Covers.around (h : Covers span ts) (hlaid : Laid n text ts) : Around n ts span := by
  obtain ⟨first, last, hfirst, hlast, rfl⟩ := h.eq hlaid
  have hbounds := hlaid.bounds hfirst hlast
  rintro span' ⟨hfile, hfilled, ⟨t, ht, hstart⟩, ⟨u, hu, hstop⟩⟩
  exact ⟨hfile, hstart ▸ (hbounds t ht).1, hfilled, hstop ▸ (hbounds u hu).2⟩

theorem Around.mono (h : Around n ts whole) (hsub : us ⊆ ts) : Around n us whole :=
  fun span hspan => h span (hspan.mono hsub)

theorem SpansOver.among {spans : List Span} (h : SpansOver ts spans) (hlaid : Laid n text ts) :
    ∀ span ∈ spans, Among n ts span := by
  induction h with
  | nil => exact List.forall_mem_nil _
  | skip _ ih =>
    exact fun span hspan => (ih hlaid.right span hspan).mono (List.subset_append_right _ _)
  | cons hcovers _ ih =>
    refine List.forall_mem_cons.2
      ⟨(hcovers.among hlaid.left).mono (List.subset_append_left _ _), fun span hspan => ?_⟩
    exact (ih hlaid.right span hspan).mono (List.subset_append_right _ _)

theorem SpansOver.ordered {spans : List Span} (h : SpansOver ts spans) (hlaid : Laid n text ts) :
    spans.Pairwise Span.Before := by
  induction h with
  | nil => exact .nil
  | skip _ ih => exact ih hlaid.right
  | cons hcovers hrest ih =>
    refine List.pairwise_cons.2 ⟨fun span hspan => ?_, ih hlaid.right⟩
    exact (hcovers.among hlaid.left).before hlaid (hrest.among hlaid.right span hspan)

theorem NamedBy.among {t : Token} {name : String} (h : NamedBy t name span)
    (hlaid : Laid n text ts) (ht : t ∈ ts) : Among n ts span := by
  rw [h.span]
  exact hlaid.among ht

theorem NamedBy.spells {t : Token} {name : String} (h : NamedBy t name span)
    (hlaid : Laid n text ts) (ht : t ∈ ts) : Spells text span name := by
  rw [h.span, h.name]
  exact hlaid.named t ht h.kind

/-! ### Fields and declared types -/

theorem FieldOver.nested {f : Field} (h : FieldOver ts f) (hlaid : Laid n text ts) :
    f.Nested text := by
  obtain ⟨before, types, name, between, number, after, rfl, htypes, hname, hnumber⟩ := h.parts
  have haround := h.span.around hlaid
  have htype : Among n (before ++ types) f.type.span :=
    (htypes.among hlaid.left.right).mono (List.subset_append_right before types)
  have hrest : Laid n text ([name] ++ (between ++ number :: after)) := hlaid.right
  have hnamed := hname.among hrest.left (List.mem_singleton_self name)
  have hnumbered : Among n (between ++ number :: after) f.numberSpan :=
    hnumber ▸ hrest.right.among (by simp)
  have hlater : Among n ([name] ++ (between ++ number :: after)) f.nameSpan :=
    hnamed.mono (List.subset_append_left _ _)
  constructor
  case type => exact haround _ (htype.mono (List.subset_append_left _ _))
  case name => exact haround _ (hlater.mono (List.subset_append_right _ _))
  case number =>
    have hrested := hnumbered.mono (List.subset_append_right [name] _)
    exact haround _ (hrested.mono (List.subset_append_right (before ++ types) _))
  case typeFirst => exact htype.before hlaid hlater
  case numberLast => exact hnamed.before hrest hnumbered
  case named => exact hname.spells hrest.left (List.mem_singleton_self name)

theorem ItemOver.covers {item : Item} (h : ItemOver ts item) : Covers item.span ts := by
  cases h with
  | message _ _ hspan => exact hspan
  | enumeration h => exact h.span

/-- What stands in a message, in the order in which it is written. -/
theorem BodyOver.spans {ts : List Token} {fields : List Field} {nested : List Item} :
    BodyOver ts fields nested →
      ∃ spans, SpansOver ts spans ∧ (fields.map Field.span).Sublist spans ∧
        (nested.map Item.span).Sublist spans ∧
        spans.Perm (fields.map Field.span ++ nested.map Item.span)
  | .nil => ⟨[], .nil, .slnil, .slnil, .nil⟩
  | .empty t h => by
    obtain ⟨spans, hspans, hfields, hnested, hall⟩ := h.spans
    have hskip : SpansOver ([t] ++ _) spans := .skip hspans
    exact ⟨spans, hskip, hfields, hnested, hall⟩
  | .field hfield h => by
    obtain ⟨spans, hspans, hfields, hnested, hall⟩ := h.spans
    exact ⟨_, .cons hfield.span hspans, hfields.cons_cons _, hnested.cons _, hall.cons _⟩
  | .item hitem h => by
    obtain ⟨spans, hspans, hfields, hnested, hall⟩ := h.spans
    refine ⟨_, .cons hitem.covers hspans, hfields.cons _, hnested.cons_cons _, ?_⟩
    exact (hall.cons _).trans List.perm_middle.symm

theorem BodyOver.field_mem {ts : List Token} {fields : List Field} {nested : List Item} :
    BodyOver ts fields nested → ∀ f ∈ fields, ∃ us, us.Sublist ts ∧ FieldOver us f
  | .nil => List.forall_mem_nil _
  | .empty t h => fun f hf => by
    obtain ⟨us, hsub, hover⟩ := h.field_mem f hf
    exact ⟨us, hsub.cons t, hover⟩
  | .field hfield h => by
    refine List.forall_mem_cons.2 ⟨⟨_, List.sublist_append_left _ _, hfield⟩, fun f hf => ?_⟩
    obtain ⟨us, hsub, hover⟩ := h.field_mem f hf
    exact ⟨us, hsub.trans (List.sublist_append_right _ _), hover⟩
  | .item hitem h => fun f hf => by
    obtain ⟨us, hsub, hover⟩ := h.field_mem f hf
    exact ⟨us, hsub.trans (List.sublist_append_right _ _), hover⟩

theorem pairwise_apart {spans spans' : List Span} (h : spans.Pairwise Span.Before)
    (hperm : spans'.Perm spans) : spans'.Pairwise Span.Apart :=
  (hperm.pairwise_iff fun h => Span.Apart.symm h).2 (h.imp fun h => .inl h)

theorem sublist_body (word name opening closing : Token) (body : List Token) :
    body.Sublist (word :: name :: opening :: (body ++ [closing])) :=
  (((List.sublist_append_left body [closing]).cons opening).cons name).cons word

theorem EnumOver.nested {decl : EnumDecl} (h : EnumOver ts decl) (hlaid : Laid n text ts)
    (hwhole : Around n ts whole) : Item.Nested text whole (.enumeration decl) := by
  obtain ⟨word, name, opening, body, closing, rfl, hname, hvalues⟩ := h.parts
  have haround := h.span.around hlaid
  have hmem : name ∈ word :: name :: opening :: (body ++ [closing]) := by simp
  have hsub := sublist_body word name opening closing body
  have hlaidBody := hlaid.sublist hsub
  refine .enumeration (hwhole _ (h.span.among hlaid)) (haround _ (hname.among hlaid hmem))
    (hname.spells hlaid hmem) (fun v hv => ?_) (hvalues.ordered hlaidBody)
  have hvalue := (hvalues.among hlaidBody v.span (List.mem_map_of_mem hv)).mono hsub.subset
  exact ⟨haround _ hvalue, hwhole _ hvalue⟩

mutual

theorem ItemOver.nested {ts : List Token} {item : Item} (hlaid : Laid n text ts)
    (hwhole : Around n ts whole) : ItemOver ts item → item.Nested text whole
  | .enumeration h => h.nested hlaid hwhole
  | @ItemOver.message word name opening closing body _ _ hname hbody hspan => by
    have hsub := sublist_body word name opening closing body
    have hlaidBody := hlaid.sublist hsub
    have haround := hspan.around hlaid
    have hmem : name ∈ word :: name :: opening :: (body ++ [closing]) := by simp
    obtain ⟨spans, hspans, hfields, hnested, hall⟩ := hbody.spans
    have hordered := hspans.ordered hlaidBody
    have hmember : ∀ span ∈ spans, Among n _ span := fun span hspan =>
      (hspans.among hlaidBody span hspan).mono hsub.subset
    refine .message (hwhole _ (hspan.among hlaid)) (haround _ (hname.among hlaid hmem))
      (hname.spells hlaid hmem) (fun f hf => ?_)
      (hbody.nested hlaidBody (hwhole.mono hsub.subset)) (fun item hitem => ?_)
      (pairwise_apart hordered hall.symm) (hordered.sublist hfields) (hordered.sublist hnested)
    · obtain ⟨us, hus, hfield⟩ := hbody.field_mem f hf
      have hspan := hmember f.span (hfields.subset (List.mem_map_of_mem hf))
      exact ⟨hfield.nested (hlaidBody.sublist hus), haround _ hspan, hwhole _ hspan⟩
    · exact haround _ (hmember item.span (hnested.subset (List.mem_map_of_mem hitem)))

theorem BodyOver.nested {ts : List Token} {fields : List Field} {nested : List Item}
    (hlaid : Laid n text ts) (hwhole : Around n ts whole) :
    BodyOver ts fields nested → ∀ item ∈ nested, item.Nested text whole
  | .nil => List.forall_mem_nil _
  | .empty t h => h.nested (hlaid.sublist (List.sublist_cons_self t _))
    (hwhole.mono (List.subset_cons_self t _))
  | .field hfield h => h.nested hlaid.right (hwhole.mono (List.subset_append_right _ _))
  | .item hitem h => by
    have hrest := h.nested hlaid.right (hwhole.mono (List.subset_append_right _ _))
    have hfirst := hitem.nested hlaid.left (hwhole.mono (List.subset_append_left _ _))
    exact List.forall_mem_cons.2 ⟨hfirst, hrest⟩

end

/-! ### Files -/

theorem SpansOver.append {spans spans' : List Span} (h : SpansOver us spans)
    (h' : SpansOver ts spans') : SpansOver (us ++ ts) (spans ++ spans') := by
  induction h with
  | nil => exact h'
  | skip _ ih =>
    rw [List.append_assoc]
    exact .skip ih
  | cons hspan _ ih =>
    rw [List.append_assoc]
    exact .cons hspan ih

/-- Whether a file has become another by statements with some spans, among them some imports and
declared types; what was added latest is first. -/
structure File.Gains (file : File) (spans : List Span) (imports : List Import) (items : List Item)
    (result : File) : Prop where
  all : result.spans.Perm (spans ++ file.spans)
  importSpans : (imports.map Import.span).Sublist spans
  itemSpans : (items.map Item.span).Sublist spans
  imports : result.imports = imports.reverse ++ file.imports
  items : result.items = items.reverse ++ file.items

theorem File.Gains.refl (file : File) : file.Gains [] [] [] file :=
  ⟨.refl _, .slnil, .slnil, rfl, rfl⟩

theorem File.Gains.trans {file next result : File} {spans spans' : List Span}
    {imports imports' : List Import} {items items' : List Item}
    (h : file.Gains spans imports items next) (h' : next.Gains spans' imports' items' result) :
    file.Gains (spans ++ spans') (imports ++ imports') (items ++ items') result := by
  refine ⟨?_, ?_, ?_, ?_, ?_⟩
  · have hall := h'.all.trans (h.all.append_left spans')
    rw [← List.append_assoc] at hall
    exact hall.trans (List.perm_append_comm.append_right _)
  · rw [List.map_append]
    exact h.importSpans.append h'.importSpans
  · rw [List.map_append]
    exact h.itemSpans.append h'.itemSpans
  · rw [h'.imports, h.imports, List.reverse_append, List.append_assoc]
  · rw [h'.items, h.items, List.reverse_append, List.append_assoc]

theorem StatementOver.gains {file next : File} (h : StatementOver file us next) :
    ∃ spans imports items, SpansOver us spans ∧ file.Gains spans imports items next ∧
      ∀ item ∈ items, ItemOver us item := by
  -- a statement covers all of its tokens
  have hone {span : Span} (hspan : Covers span us) : SpansOver us [span] := by
    have hcons : SpansOver (us ++ []) [span] := .cons hspan .nil
    rwa [List.append_nil] at hcons
  cases h with
  | empty t =>
    have hskip : SpansOver ([t] ++ []) [] := .skip .nil
    exact ⟨[], [], [], hskip, .refl file, List.forall_mem_nil _⟩
  | @specified _ decl hnone hdecl =>
    refine ⟨_, [], [], hone hdecl, ⟨?_, List.nil_sublist _, List.nil_sublist _, rfl, rfl⟩,
      List.forall_mem_nil _⟩
    simp [File.spans, hnone]
  | @package _ decl hnone hdecl =>
    refine ⟨_, [], [], hone hdecl, ⟨?_, List.nil_sublist _, List.nil_sublist _, rfl, rfl⟩,
      List.forall_mem_nil _⟩
    simp [File.spans, hnone, List.perm_middle]
  | @imported _ decl hdecl =>
    refine ⟨_, [decl], [], hone hdecl, ⟨?_, .refl _, List.nil_sublist _, rfl, rfl⟩,
      List.forall_mem_nil _⟩
    simp only [File.spans, List.map_cons, List.cons_append, List.nil_append]
    exact (List.perm_middle.append_left _).trans List.perm_middle
  | @declared _ item hitem =>
    refine ⟨_, [], [item], hone hitem.covers, ⟨?_, List.nil_sublist _, .refl _, rfl, rfl⟩,
      List.forall_mem_singleton.2 hitem⟩
    simp only [File.spans, List.map_cons, List.cons_append, List.nil_append, ← List.append_assoc]
    exact List.perm_middle

theorem StatementsOver.gains {file result : File} (h : StatementsOver file ts result) :
    ∃ spans imports items, SpansOver ts spans ∧ file.Gains spans imports items result ∧
      ∀ item ∈ items, ∃ us, us.Sublist ts ∧ ItemOver us item := by
  induction h with
  | nil => exact ⟨[], [], [], .nil, .refl _, List.forall_mem_nil _⟩
  | @cons us ts file next result hfirst _ ih =>
    obtain ⟨spans, imports, items, hspans, hgains, hitems⟩ := hfirst.gains
    obtain ⟨spans', imports', items', hspans', hgains', hitems'⟩ := ih
    refine ⟨_, _, _, hspans.append hspans', hgains.trans hgains', fun item hitem => ?_⟩
    rcases List.mem_append.1 hitem with hmem | hmem
    · exact ⟨us, List.sublist_append_left us ts, hitems item hmem⟩
    · obtain ⟨vs, hvs, hover⟩ := hitems' item hmem
      exact ⟨vs, hvs.trans (List.sublist_append_right us ts), hover⟩

/-- There is nothing among no tokens. -/
theorem Among.ne_nil (h : Among n ts span) : ts ≠ [] := by
  obtain ⟨t, ht, _⟩ := h.first
  exact List.ne_nil_of_mem ht

theorem FileOver.nested {file : File} (h : FileOver ts file) (hlaid : Laid n text ts) :
    file.Nested text := by
  have haround : Around n ts file.span := fun span hspan =>
    (h.covers hspan.ne_nil).around hlaid span hspan
  obtain ⟨start, read, hread, hsyntax, hpackage, himports, hitems⟩ := h.statements
  obtain ⟨spans, imports, items, hspans, hgains, hover⟩ := hread.gains
  have hordered := hspans.ordered hlaid
  have hallImports : file.imports = imports := by
    rw [himports, hgains.imports, List.append_nil, List.reverse_reverse]
  have hallItems : file.items = items := by
    rw [hitems, hgains.items, List.append_nil, List.reverse_reverse]
  have hall : file.spans.Perm spans := by
    -- reading starts with an empty file, and what it keeps latest first is turned round at the end
    have hnone : File.spans ⟨none, none, [], [], start⟩ = [] := rfl
    have hread := hgains.all
    rw [hnone, List.append_nil] at hread
    refine List.Perm.trans ?_ hread
    simp only [File.spans, hsyntax, hpackage, himports, hitems, List.map_reverse]
    refine (List.Perm.append_left _ (List.Perm.append_left _ ?_))
    exact (List.reverse_perm _).append (List.reverse_perm _)
  constructor
  case items =>
    intro item hitem
    obtain ⟨us, hus, hitem⟩ := hover item (hallItems ▸ hitem)
    exact hitem.nested (hlaid.sublist hus) (haround.mono hus.subset)
  case within => exact fun span hspan => haround span (hspans.among hlaid span (hall.subset hspan))
  case apart => exact pairwise_apart hordered hall
  case importsInOrder => exact hallImports ▸ hordered.sublist hgains.importSpans
  case itemsInOrder => exact hallItems ▸ hordered.sublist hgains.itemSpans

/-! ### Texts -/

theorem extract_middle (a b c : ByteArray) :
    (a ++ (b ++ c)).extract a.size (a.size + b.size) = b := by
  have hskip := ByteArray.extract_append_size_add (a := a) (b := b ++ c) (i := 0) (j := b.size)
  rw [Nat.add_zero] at hskip
  exact hskip.trans (ByteArray.extract_append_eq_left rfl)

/-- The bytes between other characters of a text are those of the characters that stand there. -/
theorem extract_chars {before middle after : List Char}
    (h : text.toList = before ++ middle ++ after) :
    text.toUTF8.extract (byteLength before) (byteLength before + byteLength middle) =
        (String.ofList middle).toByteArray ∧
      byteLength before + byteLength middle ≤ text.toUTF8.size := by
  have htext : text = String.ofList before ++ (String.ofList middle ++ String.ofList after) := by
    rw [← String.ofList_toList (s := text), h, List.append_assoc, String.ofList_append,
      String.ofList_append]
  have hbytes : text.toUTF8 = (String.ofList before).toByteArray ++
      ((String.ofList middle).toByteArray ++ (String.ofList after).toByteArray) := by
    rw [htext, String.toUTF8, String.toByteArray_append, String.toByteArray_append]
  have hsize (cs : List Char) : (String.ofList cs).toByteArray.size = byteLength cs := by
    rw [String.size_toByteArray, utf8ByteSize_ofList]
  constructor
  · rw [hbytes, ← hsize before, ← hsize middle]
    exact extract_middle _ _ _
  · rw [hbytes, ByteArray.size_append, ByteArray.size_append, hsize, hsize]
    omega

theorem slice_middle {d : Document} {before middle after : List Char}
    (h : d.text.toList = before ++ middle ++ after) :
    d.slice (byteLength before) (byteLength before + byteLength middle) =
      String.ofList middle := by
  obtain ⟨hextract, hbound⟩ := extract_chars h
  unfold Document.slice
  simp only [hextract]
  rw [if_pos ⟨Nat.le_add_right _ _, hbound⟩, String.fromUTF8?,
    dif_pos (String.ofList middle).isValidUTF8]
  rfl

/-- A literal that breaks off is an invalid token. -/
theorem breaksOff_lexFrom (n : FileId) (pos : Nat) (cs : List Char) :
    ∀ t ∈ (lexFrom n pos cs).tokens, t.breaksOff = true → t.kind = .invalid := by
  refine forall_mem_lexFrom (fun _ hbreaks => absurd hbreaks Bool.false_ne_true)
    (fun c cs span hbreaks => ?_) pos cs
  rw [Token.breaksOff, String.toList_ofList] at hbreaks
  exact ((takes_cutToken c cs).last hbreaks).2

theorem Token.StandsIn.spells {t : Token} (h : t.StandsIn n 0 text.toList)
    (hwhole : t.breaksOff = false) : Spells text t.span t.text := by
  rintro d rfl
  obtain ⟨before, after, hcs, _, _, hstart, hstop, _⟩ := h
  rw [hwhole] at hstop
  rw [hstop, hstart, Nat.zero_add]
  exact (slice_middle hcs).trans (String.ofList_toList ..)

/-- The tokens of a text before its end are laid out over it. -/
theorem laid_lex (n : FileId) (text : String) {ts : List Token} {stop : Token}
    (htokens : (lex n text).tokens = ts ++ [stop]) : Laid n text ts := by
  have hlaid := laidFrom_lexFrom n 0 text.toList
  have hsub : ts.Sublist (lex n text).tokens := htokens ▸ List.sublist_append_left ts [stop]
  have hkind : ∀ t ∈ ts, t.kind ≠ .endOfFile := by
    obtain ⟨body, last, hbody, _, hnot⟩ := (lexFrom_tokens n 0 text.toList).1
    obtain ⟨rfl, -⟩ := List.append_inj' (htokens.symm.trans hbody) rfl
    exact hnot
  have hstands : ∀ t ∈ ts, t.StandsIn n 0 text.toList := fun t ht =>
    hlaid.stands t (hsub.subset ht) (hkind t ht)
  constructor
  case file => exact fun t ht => (in_lexFrom n 0 text.toList).tokens t (hsub.subset ht)
  case filled => exact fun t ht => (hstands t ht).start_lt_stop
  case ordered => exact hlaid.ordered.sublist hsub
  case named =>
    intro t ht hname
    refine (hstands t ht).spells (Bool.eq_false_iff.2 fun hbreaks => ?_)
    rw [breaksOff_lexFrom n 0 text.toList t (hsub.subset ht) hbreaks] at hname
    cases hname

/-- What is read without a complaint has its places in good order. -/
theorem nested_parse (n : FileId) (text : String) (h : (parse n text).errors = []) :
    (parse n text).file.Nested text := by
  obtain ⟨hlexed, hread⟩ := List.append_eq_nil_iff.1 h
  obtain ⟨hended, hvalid⟩ := lexFrom_tokens n 0 text.toList
  obtain ⟨ts, stop, htokens, _, hover⟩ := fileOver_of_parseTokens hended (hvalid hlexed) hread
  exact hover.nested (laid_lex n text htokens)

/-- A message with types and fields mixed, comments at its edges, and a statement after it. -/
def mixedText : String :=
  "/* first */ syntax = \"schema2\";; message A \x7b repeated B b = 1; enum E \x7b Z = -1; \x7d " ++
  "message B \x7b \x7d .A.B c = 2; \x7d // last\nimport \"a.schema\";"

theorem nested_mixedText :
    (parse 0 mixedText).errors = [] ∧ (parse 0 mixedText).file.Nested mixedText ∧
      (parse 0 mixedText).file.span = ⟨0, 12, 136⟩ ∧
      (parse 0 mixedText).file.spans = [⟨0, 12, 31⟩, ⟨0, 118, 136⟩, ⟨0, 33, 109⟩] := by
  have hread : (parse 0 mixedText).errors = [] := by decide +kernel
  refine ⟨hread, nested_parse 0 mixedText hread, ?_, ?_⟩
  · decide +kernel
  · decide +kernel

end Schemata.Schema

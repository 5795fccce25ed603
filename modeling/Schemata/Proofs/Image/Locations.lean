import Schemata.Proofs.Image.Distinct
import Schemata.Proofs.Image.Resolution
import Schemata.Proofs.Schema.Names

/-!
# Where declarations stand

Linking notes the span of each declaration under its full name: a message before its fields, and
these before the types inside it. A place is looked up by the full name and the first one counts.
Fields and the types inside their message share the names, so a field takes the place of a type
with its name; all other declarations are found at their own places.
-/

namespace Schemata.Image

open Source
open Schema (Undotted)

/-! ### What is noted -/

/-- The spans of fields under their full names. -/
def fieldSpans (message : String) (fs : List Schema.Field) : List (String × Span) :=
  fs.map fun f => (message ++ "." ++ f.name, f.span)

mutual

/-- The spans of a declared type, of its fields and of the types inside it, in the order in which
they are noted. -/
def spans (scope : String) : Schema.Item → List (String × Span)
  | .message decl nested =>
    (qualify scope decl.name, decl.span) ::
      (fieldSpans (qualify scope decl.name) decl.fields ++ spansIn (qualify scope decl.name) nested)
  | .enumeration decl => [(qualify scope decl.name, decl.span)]

def spansIn (scope : String) : List Schema.Item → List (String × Span)
  | [] => []
  | item :: items => spans scope item ++ spansIn scope items

end

def spansOf (f : Schema.File) : List (String × Span) := spansIn f.packageName f.items

/-- A place in the words of users. -/
def locationIn (d : Document) (e : String × Span) : Descriptor.Location :=
  ⟨e.1, d.position e.2.start, d.lastPosition e.2⟩

section Notes

variable {α β : Type} {d : Document} {es es' : List (String × Span)}

/-- Whether a step notes some spans, whatever was noted before. -/
def Notes (d : Document) (es : List (String × Span)) (act : LinkStep α) : Prop :=
  ∀ l : Link, (act l).2.places = (es.map (locationIn d)).reverse ++ l.places

theorem notes_pure (a : α) : Notes d [] (pure a : LinkStep α) := fun _ => rfl

theorem Notes.bind {act : LinkStep α} {f : α → LinkStep β} (h : Notes d es act)
    (hf : ∀ a, Notes d es' (f a)) : Notes d (es ++ es') (act >>= f) := by
  intro l
  rw [List.map_append, List.reverse_append, List.append_assoc, ← h l]
  exact hf (act l).1 (act l).2

theorem Notes.andThen {act : LinkStep α} {f : α → LinkStep β} (h : Notes d es act)
    (hf : ∀ a, Notes d [] (f a)) : Notes d es (act >>= f) :=
  List.append_nil es ▸ h.bind hf

theorem Notes.after {act : LinkStep α} {f : α → LinkStep β} (h : Notes d [] act)
    (hf : ∀ a, Notes d es (f a)) : Notes d es (act >>= f) :=
  h.bind hf

namespace LinkContext

theorem notes_reportSome (o : Option β) (complaint : β → Diagnostic) :
    Notes d [] (reportSome o complaint) := by
  cases o with
  | none => exact notes_pure ()
  | some b => exact fun _ => rfl

variable (c : LinkContext)

theorem notes_record (symbol : String) (span : Span) :
    Notes c.document [(symbol, span)] (c.record symbol span) := fun _ => rfl

theorem notes_resolve (message : String) (type : Schema.TypeRef) :
    Notes c.document [] (c.resolve message type) := by
  cases type with
  | scalar type span => exact notes_pure _
  | named name absolute span =>
    intro l
    cases hlookup : c.lookup? (candidates message name absolute) with
    | none => rw [c.resolve_of_none message absolute span l hlookup]; rfl
    | some found => rw [c.resolve_of_some message absolute span l hlookup]; rfl

theorem notes_linkFields (message : String) (before fs : List Schema.Field) :
    Notes c.document (fieldSpans message fs) (c.linkFields message before fs) := by
  induction fs generalizing before with
  | nil =>
    rw [linkFields]
    exact notes_pure _
  | cons f fs ih =>
    rw [linkFields_cons]
    refine (notes_reportSome _ _).after fun _ => ?_
    refine (notes_reportSome _ _).after fun _ => ?_
    refine (c.notes_record _ _).bind fun _ => ?_
    refine (c.notes_resolve message f.type).after fun _ => ?_
    exact (ih (before ++ [f])).andThen fun _ => notes_pure _

theorem notes_linkEnum (scope : String) (decl : Schema.EnumDecl) :
    Notes c.document [(qualify scope decl.name, decl.span)] (c.linkEnum scope decl) :=
  (c.notes_record _ _).andThen fun _ => notes_pure _

mutual

theorem notes_linkItem (scope : String) : (item : Schema.Item) →
    Notes c.document (spans scope item) (c.linkItem scope item)
  | .message decl nested => by
    rw [linkItem, spans]
    refine (c.notes_record _ _).bind fun _ => ?_
    refine (c.notes_linkFields (qualify scope decl.name) [] decl.fields).bind fun _ => ?_
    exact (notes_linkItems (qualify scope decl.name) nested).andThen fun _ => notes_pure _
  | .enumeration decl => by
    rw [linkItem, spans]
    exact (c.notes_linkEnum scope decl).andThen fun _ => notes_pure _

theorem notes_linkItems (scope : String) : (items : List Schema.Item) →
    Notes c.document (spansIn scope items) (c.linkItems scope items)
  | [] => by
    rw [linkItems, spansIn]
    exact notes_pure _
  | item :: items => by
    rw [linkItems, spansIn]
    refine (notes_linkItem scope item).bind fun _ => ?_
    exact (notes_linkItems scope items).andThen fun _ => notes_pure _

end

end LinkContext

end Notes

theorem locations_linkFile (s : Sources) (symbols : Table Symbol) (n : FileId) (f : SourceFile) :
    (linkFile s symbols s.passedOn true n f).descriptor.locations =
      some ((spansOf f.file).map (locationIn (Document.ofText f.path f.external f.text))) := by
  have hnotes := (contextOf s symbols n f).notes_linkItems f.file.packageName f.file.items
    ⟨[], [], []⟩
  rw [List.append_nil, ← List.reverse_eq_iff] at hnotes
  exact congrArg some hnotes

/-- A place is looked up among the spans of the declarations. -/
theorem location?_linkFile (s : Sources) (symbols : Table Symbol) (n : FileId) (f : SourceFile)
    (symbol : String) :
    (linkFile s symbols s.passedOn true n f).descriptor.location? symbol =
      ((spansOf f.file).find? fun e => e.1 = symbol).map
        (locationIn (Document.ofText f.path f.external f.text)) := by
  rw [Descriptor.File.location?, locations_linkFile, Option.bind_some, List.find?_map]
  rfl

/-! ### Names that are taken apart -/

theorem length_lt_append (outer name : String) : outer.length < (outer ++ "." ++ name).length := by
  rw [String.length_append, String.length_append, show ".".length = 1 from rfl]
  omega

theorem length_lt_qualify (scope name : String) :
    scope = "" ∨ scope.length < (qualify scope name).length := by
  unfold qualify
  split
  · exact .inl ‹_›
  · exact .inr (length_lt_append scope name)

mutual

/-- What is inside a scope has a longer name. -/
theorem length_messages (scope : String) : (item : Schema.Item) →
    ∀ m ∈ messages scope item, scope = "" ∨ scope.length < m.1.length
  | .message decl nested => by
    rw [messages, List.forall_mem_cons]
    refine ⟨length_lt_qualify scope decl.name, fun m hm => ?_⟩
    refine (length_lt_qualify scope decl.name).imp_right fun hlt => ?_
    rcases length_messagesIn (qualify scope decl.name) nested m hm with hempty | hlt'
    · rw [hempty] at hlt
      exact absurd hlt (Nat.not_lt_zero _)
    · exact hlt.trans hlt'
  | .enumeration decl => List.forall_mem_nil _

theorem length_messagesIn (scope : String) : (items : List Schema.Item) →
    ∀ m ∈ messagesIn scope items, scope = "" ∨ scope.length < m.1.length
  | [] => List.forall_mem_nil _
  | item :: items => by
    rw [messagesIn, List.forall_mem_append]
    exact ⟨length_messages scope item, length_messagesIn scope items⟩

end

theorem ne_append_self (outer name : String) : outer ≠ outer ++ "." ++ name :=
  ne_of_apply_ne String.length (length_lt_append outer name).ne

theorem ne_append_of_mem {scope : String} {items : List Schema.Item}
    {m : String × Schema.MessageDecl} (hm : m ∈ messagesIn scope items) (name : String) :
    scope ≠ m.1 ++ "." ++ name := by
  have hlt := length_lt_append m.1 name
  rcases length_messagesIn scope items m hm with rfl | hlt'
  · exact ne_of_apply_ne String.length (Nat.zero_le _ |>.trans_lt hlt).ne
  · exact ne_of_apply_ne String.length (hlt'.trans hlt).ne

/-- Whether a name is that of a scope, or that of one of some messages. -/
def Encloses (scope : String) (ms : List (String × Schema.MessageDecl)) (outer : String) : Prop :=
  scope ≠ "" ∧ outer = scope ∨ outer ∈ ms.map Prod.fst

theorem Encloses.mono {scope outer : String} {ms ms' : List (String × Schema.MessageDecl)}
    (h : Encloses scope ms outer) (hsub : ms ⊆ ms') : Encloses scope ms' outer :=
  h.imp_right fun hmem => List.map_subset _ hsub hmem

theorem eq_of_qualify_eq {scope outer name last : String} (hname : Undotted name)
    (hlast : Undotted last) (h : qualify scope name = outer ++ "." ++ last) :
    scope ≠ "" ∧ outer = scope := by
  unfold qualify at h
  split at h
  · exact absurd h hname.ne_append
  · exact ⟨‹_›, ((hname.append_inj hlast).1 h).1.symm⟩

mutual

/-- What is noted under a full name with a dot stands in what has the name before the last dot. -/
theorem encloses_spans {outer last : String} (hlast : Undotted last) (scope : String) :
    (item : Schema.Item) → (∀ name ∈ item.names, Undotted name) →
    ∀ e ∈ spans scope item, e.1 = outer ++ "." ++ last →
      Encloses scope (messages scope item) outer
  | .message decl nested, hnames => by
    rw [Schema.Item.names, List.forall_mem_cons, List.forall_mem_append, List.forall_mem_map]
      at hnames
    obtain ⟨hname, hfields, hnested⟩ := hnames
    rw [spans, messages, List.forall_mem_cons, List.forall_mem_append, fieldSpans,
      List.forall_mem_map]
    refine ⟨fun h => .inl (eq_of_qualify_eq hname hlast h), fun f hf h => ?_, fun e he h => ?_⟩
    · rw [← (((hfields f hf).append_inj hlast).1 h).1]
      exact .inr List.mem_cons_self
    · rcases encloses_spansIn hlast (qualify scope decl.name) nested hnested e he h with
        ⟨_, rfl⟩ | hmem
      · exact .inr List.mem_cons_self
      · exact .inr (List.mem_cons_of_mem _ hmem)
  | .enumeration decl, hnames => by
    rw [spans, List.forall_mem_singleton]
    exact fun h => .inl (eq_of_qualify_eq (List.forall_mem_singleton.1 hnames) hlast h)

theorem encloses_spansIn {outer last : String} (hlast : Undotted last) (scope : String) :
    (items : List Schema.Item) → (∀ name ∈ Schema.namesOf items, Undotted name) →
    ∀ e ∈ spansIn scope items, e.1 = outer ++ "." ++ last →
      Encloses scope (messagesIn scope items) outer
  | [], _ => List.forall_mem_nil _
  | item :: items, hnames => by
    rw [Schema.namesOf, List.forall_mem_append] at hnames
    rw [spansIn, messagesIn, List.forall_mem_append]
    refine ⟨fun e he h => ?_, fun e he h => ?_⟩
    · exact (encloses_spans hlast scope item hnames.1 e he h).mono (List.subset_append_left _ _)
    · exact (encloses_spansIn hlast scope items hnames.2 e he h).mono
        (List.subset_append_right _ _)

end

/-! ### Fields -/

theorem find?_cons_of_ne {e : String × Span} {es : List (String × Span)} {symbol : String}
    (h : e.1 ≠ symbol) :
    (e :: es).find? (fun e => e.1 = symbol) = es.find? fun e => e.1 = symbol :=
  List.find?_cons_of_neg (mt of_decide_eq_true h)

theorem find?_fieldSpans {message : String} {fs : List Schema.Field} {f : Schema.Field}
    (hundotted : ∀ g ∈ fs, Undotted g.name) (hdiffer : (fs.map Schema.Field.name).Nodup)
    (hf : f ∈ fs) : (fieldSpans message fs).find? (fun e => e.1 = message ++ "." ++ f.name) =
      some (message ++ "." ++ f.name, f.span) := by
  refine (find?_eq_some_of_unique fun e he e' he' h h' => ?_).2
    ⟨List.mem_map_of_mem hf, decide_eq_true rfl⟩
  obtain ⟨g, hg, rfl⟩ := List.mem_map.1 he
  obtain ⟨g', hg', rfl⟩ := List.mem_map.1 he'
  have hname := (of_decide_eq_true h).trans (of_decide_eq_true h').symm
  rw [((hundotted g hg).append_inj (hundotted g' hg')).1 hname |>.2 |>
    List.inj_on_of_nodup_map hdiffer hg hg']

mutual

theorem mem_names (scope : String) : (item : Schema.Item) →
    ∀ m ∈ messages scope item, ∀ f ∈ m.2.fields, f.name ∈ item.names
  | .message decl nested => by
    rw [messages, Schema.Item.names, List.forall_mem_cons]
    refine ⟨fun f hf => ?_, fun m hm f hf => ?_⟩
    · exact List.mem_cons_of_mem _ (List.mem_append_left _ (List.mem_map_of_mem hf))
    · exact List.mem_cons_of_mem _ (List.mem_append_right _
        (mem_namesOf (qualify scope decl.name) nested m hm f hf))
  | .enumeration _ => List.forall_mem_nil _

theorem mem_namesOf (scope : String) : (items : List Schema.Item) →
    ∀ m ∈ messagesIn scope items, ∀ f ∈ m.2.fields, f.name ∈ Schema.namesOf items
  | [] => List.forall_mem_nil _
  | item :: items => by
    rw [messagesIn, Schema.namesOf, List.forall_mem_append]
    refine ⟨fun m hm f hf => ?_, fun m hm f hf => ?_⟩
    · exact List.mem_append_left _ (mem_names scope item m hm f hf)
    · exact List.mem_append_right _ (mem_namesOf scope items m hm f hf)

end

/-- Whether the names of some messages are apart: no dots in them, and no two full names and no two
names of fields of a message alike. -/
structure Apart (names : List String) (ms : List (String × Schema.MessageDecl)) : Prop where
  undotted : ∀ name ∈ names, Undotted name
  nodup : (ms.map Prod.fst).Nodup
  differ : ∀ m ∈ ms, (m.2.fields.map Schema.Field.name).Nodup

mutual

/-- A field is found at its own place. -/
theorem find?_spans (scope : String) : (item : Schema.Item) →
    Apart item.names (messages scope item) → ∀ m ∈ messages scope item, ∀ f ∈ m.2.fields,
      (spans scope item).find? (fun e => e.1 = m.1 ++ "." ++ f.name) =
        some (m.1 ++ "." ++ f.name, f.span)
  | .message decl nested, h => by
    intro m hm f hf
    have hundotted := h.undotted f.name (mem_names scope _ m hm f hf)
    rw [Schema.Item.names, messages] at h
    have hfields := fun g (hg : g ∈ decl.fields) => h.undotted g.name
      (List.mem_cons_of_mem _ (List.mem_append_left _ (List.mem_map_of_mem hg)))
    have hnodup := List.nodup_cons.1 h.nodup
    rw [messages] at hm
    have hhead : qualify scope decl.name ≠ m.1 ++ "." ++ f.name := by
      rcases List.mem_cons.1 hm with rfl | hm
      · exact ne_append_self _ _
      · exact ne_append_of_mem hm f.name
    rw [spans, find?_cons_of_ne hhead, List.find?_append]
    rcases List.mem_cons.1 hm with rfl | hm
    · rw [find?_fieldSpans hfields (h.differ _ List.mem_cons_self) hf, Option.some_or]
    · have hnone : (fieldSpans (qualify scope decl.name) decl.fields).find?
          (fun e => e.1 = m.1 ++ "." ++ f.name) = none := by
        refine List.find?_eq_none.2 (List.forall_mem_map.2 fun g hg heq => ?_)
        have houter := ((hfields g hg).append_inj hundotted).1 (of_decide_eq_true heq)
        exact hnodup.1 (List.mem_map.2 ⟨m, hm, houter.1.symm⟩)
      rw [hnone, Option.none_or]
      refine find?_spansIn (qualify scope decl.name) nested ⟨fun name hname => ?_, hnodup.2,
        fun m hm => h.differ m (List.mem_cons_of_mem _ hm)⟩ m hm f hf
      exact h.undotted name (List.mem_cons_of_mem _ (List.mem_append_right _ hname))
  | .enumeration decl, _ => List.forall_mem_nil _

theorem find?_spansIn (scope : String) : (items : List Schema.Item) →
    Apart (Schema.namesOf items) (messagesIn scope items) →
    ∀ m ∈ messagesIn scope items, ∀ f ∈ m.2.fields,
      (spansIn scope items).find? (fun e => e.1 = m.1 ++ "." ++ f.name) =
        some (m.1 ++ "." ++ f.name, f.span)
  | [], _ => List.forall_mem_nil _
  | item :: items, h => by
    intro m hm f hf
    have hundotted := h.undotted f.name (mem_namesOf scope _ m hm f hf)
    rw [Schema.namesOf, messagesIn] at h
    obtain ⟨hnames, hnames'⟩ := List.forall_mem_append.1 h.undotted
    obtain ⟨hnodup, hnodup', hapart⟩ := List.nodup_append.1 (List.map_append ▸ h.nodup)
    obtain ⟨hdiffer, hdiffer'⟩ := List.forall_mem_append.1 h.differ
    rw [spansIn, List.find?_append]
    rcases List.mem_append.1 hm with hm | hm
    · rw [find?_spans scope item ⟨hnames, hnodup, hdiffer⟩ m hm f hf, Option.some_or]
    · have hnone : (spans scope item).find? (fun e => e.1 = m.1 ++ "." ++ f.name) = none := by
        refine List.find?_eq_none.2 fun e he heq => ?_
        rcases encloses_spans hundotted scope item hnames e he (of_decide_eq_true heq) with
          ⟨hne, hscope⟩ | hmem
        · have hlt := (length_messagesIn scope items m hm).resolve_left hne
          rw [hscope] at hlt
          exact absurd hlt (Nat.lt_irrefl _)
        · exact hapart _ hmem _ (List.mem_map_of_mem hm) rfl
      rw [hnone, Option.none_or]
      exact find?_spansIn scope items ⟨hnames', hnodup', hdiffer'⟩ m hm f hf

end

/-! ### Messages -/

/-- What may be noted under a full name, given the declared types and the messages among them. -/
inductive NotedAs (ds : List (String × Symbol)) (ms : List (String × Schema.MessageDecl))
    (e : String × Span) : Prop
  | message {decl : Schema.MessageDecl} (h : (e.1, decl) ∈ ms) (hspan : decl.span = e.2)
  | enumeration {symbol : Symbol} (h : (e.1, symbol) ∈ ds) (henum : symbol.isMessage = false)
  | field {m : String × Schema.MessageDecl} {f : Schema.Field} (hm : m ∈ ms) (hf : f ∈ m.2.fields)
    (hname : m.1 ++ "." ++ f.name = e.1)

theorem NotedAs.mono {ds ds' : List (String × Symbol)} {ms ms' : List (String × Schema.MessageDecl)}
    {e : String × Span} (h : NotedAs ds ms e) (hds : ds ⊆ ds') (hms : ms ⊆ ms') :
    NotedAs ds' ms' e := by
  cases h with
  | message h hspan => exact .message (hms h) hspan
  | enumeration h henum => exact .enumeration (hds h) henum
  | field hm hf hname => exact .field (hms hm) hf hname

mutual

theorem notedAs_spans (n : FileId) (scope : String) : (item : Schema.Item) →
    ∀ e ∈ spans scope item, NotedAs (declarations n scope item) (messages scope item) e
  | .message decl nested => by
    rw [spans, declarations, messages, List.forall_mem_cons, List.forall_mem_append, fieldSpans,
      List.forall_mem_map]
    refine ⟨.message List.mem_cons_self rfl, fun f hf => .field List.mem_cons_self hf rfl,
      fun e he => ?_⟩
    exact (notedAs_spansIn n (qualify scope decl.name) nested e he).mono (List.subset_cons_self _ _)
      (List.subset_cons_self _ _)
  | .enumeration decl => by
    rw [spans, declarations, List.forall_mem_singleton]
    exact .enumeration (List.mem_singleton_self _) rfl

theorem notedAs_spansIn (n : FileId) (scope : String) : (items : List Schema.Item) →
    ∀ e ∈ spansIn scope items, NotedAs (declarationsIn n scope items) (messagesIn scope items) e
  | [] => List.forall_mem_nil _
  | item :: items => by
    rw [spansIn, declarationsIn, messagesIn, List.forall_mem_append]
    refine ⟨fun e he => ?_, fun e he => ?_⟩
    · exact (notedAs_spans n scope item e he).mono (List.subset_append_left _ _)
        (List.subset_append_left _ _)
    · exact (notedAs_spansIn n scope items e he).mono (List.subset_append_right _ _)
        (List.subset_append_right _ _)

end

mutual

theorem mem_spans (n : FileId) (scope : String) : (item : Schema.Item) →
    ∀ m ∈ messages scope item, (m.1, m.2.span) ∈ spans scope item ∧
      (m.1, ⟨true, n, m.2.nameSpan⟩) ∈ declarations n scope item
  | .message decl nested => by
    rw [messages, spans, declarations, List.forall_mem_cons]
    refine ⟨⟨List.mem_cons_self, List.mem_cons_self⟩, fun m hm => ?_⟩
    obtain ⟨hspan, hdeclared⟩ := mem_spansIn n (qualify scope decl.name) nested m hm
    exact ⟨List.mem_cons_of_mem _ (List.mem_append_right _ hspan), List.mem_cons_of_mem _ hdeclared⟩
  | .enumeration decl => List.forall_mem_nil _

theorem mem_spansIn (n : FileId) (scope : String) : (items : List Schema.Item) →
    ∀ m ∈ messagesIn scope items, (m.1, m.2.span) ∈ spansIn scope items ∧
      (m.1, ⟨true, n, m.2.nameSpan⟩) ∈ declarationsIn n scope items
  | [] => List.forall_mem_nil _
  | item :: items => by
    rw [messagesIn, spansIn, declarationsIn, List.forall_mem_append]
    refine ⟨fun m hm => ?_, fun m hm => ?_⟩
    · exact (mem_spans n scope item m hm).imp (List.mem_append_left _) (List.mem_append_left _)
    · exact (mem_spansIn n scope items m hm).imp (List.mem_append_right _)
        (List.mem_append_right _)

end

/-- A message is found at its own place, unless a field has its full name. -/
theorem find?_message {n : FileId} {scope : String} {items : List Schema.Item}
    (h : ((declarationsIn n scope items).map Prod.fst).Nodup) {m : String × Schema.MessageDecl}
    (hm : m ∈ messagesIn scope items)
    (hfree : ∀ p ∈ messagesIn scope items, ∀ f ∈ p.2.fields, p.1 ++ "." ++ f.name ≠ m.1) :
    (spansIn scope items).find? (fun e => e.1 = m.1) = some (m.1, m.2.span) := by
  obtain ⟨hspan, hdeclared⟩ := mem_spansIn n scope items m hm
  have hnames : ((messagesIn scope items).map Prod.fst).Nodup :=
    h.sublist (names_messagesIn n scope items)
  have hown : ∀ e ∈ spansIn scope items, e.1 = m.1 → e = (m.1, m.2.span) := by
    rintro ⟨name, span⟩ he rfl
    cases notedAs_spansIn n scope items _ he with
    | @message decl hdecl hown =>
      have heq := List.inj_on_of_nodup_map hnames hdecl hm rfl
      exact Prod.ext rfl (hown.symm.trans (congrArg (fun p => p.2.span) heq))
    | enumeration hsymbol henum =>
      have heq := List.inj_on_of_nodup_map h hsymbol hdeclared rfl
      rw [(Prod.mk.inj heq).2] at henum
      cases henum
    | field hp hf hname => exact absurd hname (hfree _ hp _ hf)
  refine (find?_eq_some_of_unique fun e he e' he' h h' => ?_).2 ⟨hspan, decide_eq_true rfl⟩
  rw [hown e he (of_decide_eq_true h), hown e' he' (of_decide_eq_true h')]

/-! ### Files -/

section Sound

variable {w : World} {v : Module.View} {s : Sources} (h : Sound s) (hs : Faithful w v s) {n : Nat}
  {f : SourceFile} (hf : s.files[n]? = some f)
include h hs hf

theorem Sound.parse : Schema.parse n f.text = ⟨f.file, []⟩ := by
  have hall := hs.errors.symm.trans h.parses
  have herrors := List.flatMap_eq_nil_iff.1 hall (f, n) (mem_zipIdx.2 hf)
  rw [(hs.file n f hf).2]
  exact congrArg (Schema.Parsed.mk _) herrors

theorem Sound.apart : ((declarationsOf n f.file).map Prod.fst).Nodup ∧
    Apart (Schema.namesOf f.file.items) (messagesOf f.file) := by
  have hnodup := h.nodup_declarationsOf hf
  refine ⟨hnodup, ?_, hnodup.sublist (names_messagesIn n _ _),
    fun m hm => (h.links n f hf m hm).1.2⟩
  have hundotted := Schema.undotted_of_parse (congrArg Schema.Parsed.errors (h.parse hs hf))
  rwa [h.parse hs hf] at hundotted

end Sound

end Schemata.Image

import Schemata.Proofs.Schema.Recognition

/-!
# Names in schema files

The types and fields of a file that is read without a complaint are named by single words. A word
has no dot in it, so a full name can be taken apart at its last dot.
-/

namespace Schemata.Schema

open Source

/-- Whether a name has no dot in it. -/
def Undotted (name : String) : Prop := '.' ∉ name.toList

theorem append_cons_inj {α : Type} {sep : α} {as as' bs bs' : List α} (hbs : sep ∉ bs)
    (hbs' : sep ∉ bs') : as ++ sep :: bs = as' ++ sep :: bs' ↔ as = as' ∧ bs = bs' := by
  constructor
  · rw [List.append_eq_append_iff]
    rintro (⟨cs, rfl, h⟩ | ⟨cs, rfl, h⟩)
    · cases cs with
      | nil => exact ⟨(List.append_nil _).symm, (List.cons.inj h).2⟩
      | cons c cs => exact absurd ((List.cons.inj h).2 ▸ by simp) hbs
    · cases cs with
      | nil => exact ⟨List.append_nil _, (List.cons.inj h).2.symm⟩
      | cons c cs => exact absurd ((List.cons.inj h).2 ▸ by simp) hbs'
  · rintro ⟨rfl, rfl⟩
    rfl

/-- A full name has one last part. -/
theorem Undotted.append_inj {outer outer' name name' : String} (hname : Undotted name)
    (hname' : Undotted name') :
    outer ++ "." ++ name = outer' ++ "." ++ name' ↔ outer = outer' ∧ name = name' := by
  simp only [← String.toList_inj, String.toList_append, List.append_assoc]
  exact append_cons_inj hname hname'

theorem Undotted.ne_append {outer name name' : String} (h : Undotted name) :
    name ≠ outer ++ "." ++ name' := by
  rintro rfl
  exact h (by simp)

/-! ### Words -/

theorem undotted_of_isWordPart {word : List Char} (h : ∀ c ∈ word, isWordPart c = true) :
    '.' ∉ word :=
  fun hdot => absurd (h '.' hdot) (by decide)

/-- A token that may serve as a name is a word. -/
theorem undotted_cutToken (c : Char) (cs : List Char)
    (h : (cutToken c cs).kind.isName = true) : '.' ∉ (cutToken c cs).taken := by
  unfold cutToken at h ⊢
  split at h
  case isTrue hstart =>
    rw [if_pos hstart]
    refine undotted_of_isWordPart (List.forall_mem_cons.2 ⟨?_, fun d hd => ?_⟩)
    · rw [isWordStart, Bool.or_eq_true] at hstart
      rw [isWordPart, Bool.or_eq_true, Char.isAlphanum, Bool.or_eq_true]
      exact hstart.imp_left Or.inl
    · exact List.all_eq_true.1 List.all_takeWhile _ hd
  split at h
  case isTrue =>
    simp only at h
    split at h
    · split at h <;> cases h
    · cases h
  split at h
  case isTrue =>
    simp only at h
    split at h <;> cases h
  case isFalse =>
    split at h
    case h_1 kind hkind =>
      unfold punctuation? at hkind
      have hname : kind.isName = true := h
      grind [TokenKind.isName]
    case h_2 => cases h

theorem undotted_lexFrom (file : FileId) (pos : Nat) (cs : List Char) :
    ∀ t ∈ (lexFrom file pos cs).tokens, t.kind.isName = true → Undotted t.text := by
  refine forall_mem_lexFrom (fun _ hname => by cases hname) (fun c cs span hname => ?_) pos cs
  rw [Undotted, String.toList_ofList]
  exact undotted_cutToken c cs hname

/-! ### Names of declarations -/

mutual

/-- The names that a declared type gives: its own, those of its fields, and those of the types
inside it. -/
def Item.names : Item → List String
  | .message decl nested => decl.name :: (decl.fields.map Field.name ++ namesOf nested)
  | .enumeration decl => [decl.name]

def namesOf : List Item → List String
  | [] => []
  | item :: items => item.names ++ namesOf items

end

mutual

theorem names_bare : (item : Item) → item.bare.names = item.names
  | .message decl nested => by
    simp only [Item.bare, MessageDecl.bare, Item.names, namesOf_bareItems nested, List.map_map]
    rfl
  | .enumeration decl => rfl

theorem namesOf_bareItems : (items : List Item) → namesOf (bareItems items) = namesOf items
  | [] => rfl
  | item :: items => by
    simp only [bareItems, namesOf, names_bare item, namesOf_bareItems items]

end

/-- Whether names are texts of tokens that may serve as names. -/
def NamedIn (ts : List Token) (names : List String) : Prop :=
  ∀ name ∈ names, ∃ t ∈ ts, t.kind.isName = true ∧ t.text = name

variable {ts us : List Token} {names names' : List String}

theorem NamedIn.mono (h : NamedIn ts names) (hsub : ts ⊆ us) : NamedIn us names := fun name hname =>
  let ⟨t, ht, hname⟩ := h name hname
  ⟨t, hsub ht, hname⟩

theorem namedIn_cons {t : Token} (ht : t ∈ ts) (hname : t.kind.isName = true)
    (h : NamedIn ts names) : NamedIn ts (t.text :: names) :=
  List.forall_mem_cons.2 ⟨⟨t, ht, hname, rfl⟩, h⟩

theorem NamedIn.append (h : NamedIn ts names) (h' : NamedIn us names') :
    NamedIn (ts ++ us) (names ++ names') :=
  List.forall_mem_append.2 ⟨h.mono (List.subset_append_left _ _),
    h'.mono (List.subset_append_right _ _)⟩

theorem FieldForm.namedIn {field : Field} (h : FieldForm ts field) : NamedIn ts [field.name] := by
  cases h with
  | @field head number _ _ name equals semicolon _ hhead hname =>
    exact namedIn_cons (by simp) hname (List.forall_mem_nil _)

theorem EnumForm.namedIn {decl : EnumDecl} (h : EnumForm ts decl) : NamedIn ts [decl.name] := by
  cases h with
  | enumeration hword hname => exact namedIn_cons (by simp) hname (List.forall_mem_nil _)

mutual

theorem MessageForm.namedIn {ts : List Token} {item : Item} :
    MessageForm ts item → NamedIn ts item.names
  | .message hword hname hopening hbody hclosing =>
    namedIn_cons (by simp) hname (hbody.namedIn.mono fun t ht => by simp [ht])

theorem MessageBody.namedIn {ts : List Token} {fields : List Field} {nested : List Item} :
    MessageBody ts fields nested → NamedIn ts (fields.map Field.name ++ namesOf nested)
  | .nil => List.forall_mem_nil _
  | .semicolon ht h => h.namedIn.mono (List.subset_cons_self _ _)
  | .field hfield h => hfield.namedIn.append h.namedIn
  | .message hitem h => by
    intro name hname
    have hnames := hitem.namedIn.append h.namedIn
    refine hnames name ?_
    simp only [namesOf, List.mem_append] at hname ⊢
    tauto
  | .enumeration hdecl h => by
    intro name hname
    have hnames := hdecl.namedIn.append h.namedIn
    refine hnames name ?_
    simp only [namesOf, Item.names, List.mem_append] at hname ⊢
    tauto

end

theorem StatementForm.namedIn {said : Statement} (h : StatementForm ts said) :
    NamedIn ts (namesOf said.item?.toList) := by
  cases h with
  | empty => exact List.forall_mem_nil _
  | package => exact List.forall_mem_nil _
  | imported => exact List.forall_mem_nil _
  | importedPublicly => exact List.forall_mem_nil _
  | message h => simpa [Statement.item?, namesOf] using h.namedIn
  | enumeration h => simpa [Statement.item?, namesOf, Item.names] using h.namedIn

theorem Statements.namedIn {said : List Statement} (h : Statements ts said) :
    NamedIn ts (namesOf (said.filterMap Statement.item?)) := by
  induction h with
  | nil => exact List.forall_mem_nil _
  | @cons ts rest said others h _ ih =>
    have hnames := h.namedIn.append ih
    cases hitem : said.item? with
    | none => simpa [hitem, namesOf] using hnames
    | some item => simpa [hitem, namesOf] using hnames

theorem FileForm.namedIn {file : File} (h : FileForm ts file) :
    NamedIn ts (namesOf file.items) := by
  cases h with
  | file hhead hbody => exact hbody.namedIn.mono fun t ht => by simp [ht]

/-- No type or field of a file that is read without a complaint has a dot in its name. -/
theorem undotted_of_parse {n : FileId} {text : String} (h : (parse n text).errors = []) :
    ∀ name ∈ namesOf (parse n text).file.items, Undotted name := by
  intro name hname
  obtain ⟨hlex, hread⟩ : (lex n text).errors = [] ∧ (parseTokens (lex n text).tokens).errors = [] :=
    List.append_eq_nil_iff.1 h
  obtain ⟨hended, hvalid⟩ := lexFrom_tokens n 0 text.toList
  have hform := fileForm_of_parseTokens hended (hvalid hlex) hread
  have hnamed : name ∈ namesOf (parseTokens (lex n text).tokens).file.bare.items := by
    rwa [File.bare, namesOf_bareItems]
  obtain ⟨t, ht, hword, rfl⟩ := hform.namedIn name hnamed
  exact undotted_lexFrom n 0 text.toList t ht hword

end Schemata.Schema

import Mathlib.Data.List.Forall2
import Schemata.Schema.Parser

/-!
# Reading without places

The number of a file shows only in the places that reading notes. Two files with the same text are
read to the same declarations with the same complaints, each of them an error, but for the places.
-/

namespace Schemata.Schema

open Source

/-! ### Declarations without their places -/

/-- The type without its place. -/
def TypeRef.bare : TypeRef → TypeRef
  | .scalar type _ => .scalar type .nowhere
  | .named name absolute _ => .named name absolute .nowhere

/-- The field without its places. -/
def Field.bare (f : Field) : Field :=
  ⟨f.label, f.type.bare, f.name, .nowhere, f.number, .nowhere, .nowhere⟩

/-- The enum value without its place. -/
def EnumValue.bare (v : EnumValue) : EnumValue := ⟨v.name, v.number, .nowhere⟩

/-- The enum without its places. -/
def EnumDecl.bare (d : EnumDecl) : EnumDecl :=
  ⟨d.name, .nowhere, d.values.map EnumValue.bare, .nowhere⟩

/-- The message without its places. -/
def MessageDecl.bare (d : MessageDecl) : MessageDecl :=
  ⟨d.name, .nowhere, d.fields.map Field.bare, .nowhere⟩

mutual

/-- The declared type without its places. -/
def Item.bare : Item → Item
  | .message decl nested => .message decl.bare (bareItems nested)
  | .enumeration decl => .enumeration decl.bare

/-- Declared types without their places. -/
def bareItems : List Item → List Item
  | [] => []
  | item :: items => item.bare :: bareItems items

end

/-- The import without its place. -/
def Import.bare (i : Import) : Import := ⟨i.path, i.isPublic, .nowhere⟩

/-- The syntax statement without its place. -/
def SyntaxDecl.bare (d : SyntaxDecl) : SyntaxDecl := ⟨d.value, .nowhere⟩

/-- The package statement without its place. -/
def PackageDecl.bare (d : PackageDecl) : PackageDecl := ⟨d.name, .nowhere⟩

/-- The file without its places. -/
def File.bare (f : File) : File :=
  ⟨f.syntaxDecl.map SyntaxDecl.bare, f.package.map PackageDecl.bare, f.imports.map Import.bare,
    bareItems f.items, .nowhere⟩

/-- The token without its place. -/
def Token.bare (t : Token) : Token := ⟨t.kind, t.text, .nowhere⟩

theorem bareItems_eq_map (items : List Item) : bareItems items = items.map Item.bare := by
  induction items with
  | nil => rfl
  | cons item items ih => rw [bareItems, ih, List.map_cons]

/-- Whether two complaints are the same error, at whatever places. -/
structure SameError (d e : Diagnostic) : Prop where
  left : d.isError = true
  right : e.isError = true
  code : d.code = e.code
  message : d.message = e.message

theorem sameError_error (code : Code) (message : String) (span span' : Span) :
    SameError (.error code message span) (.error code message span') := ⟨rfl, rfl, rfl, rfl⟩

/-! ### Tokens -/

/-- Whether two texts give the same tokens and errors, at whatever places. -/
structure Lexed.Alike (l l' : Lexed) : Prop where
  tokens : l.tokens.map Token.bare = l'.tokens.map Token.bare
  errors : List.Forall₂ SameError l.errors l'.errors

theorem Lexed.Alike.addError {l l' : Lexed} (h : l.Alike l') {d d' : Diagnostic}
    (hd : SameError d d') : (l.addError d).Alike (l'.addError d') :=
  ⟨h.tokens, .cons hd h.errors⟩

theorem Lexed.Alike.addToken {l l' : Lexed} (h : l.Alike l') {t t' : Token}
    (ht : t.bare = t'.bare) : (l.addToken t).Alike (l'.addToken t') := by
  refine ⟨?_, h.errors⟩
  show (t :: l.tokens).map Token.bare = (t' :: l'.tokens).map Token.bare
  rw [List.map_cons, List.map_cons, ht, h.tokens]

theorem alike_lexFrom (file file' : FileId) (pos : Nat) (cs : List Char) :
    (lexFrom file pos cs).Alike (lexFrom file' pos cs) := by
  fun_induction lexFrom file pos cs with
  | case1 pos =>
    rw [lexFrom_nil]
    exact ⟨rfl, .nil⟩
  | case2 pos c cs hspace ih =>
    rw [lexFrom_space hspace]
    exact ih
  | case3 pos c cs hspace hline ih =>
    rw [lexFrom_line hspace hline]
    exact ih
  | case4 pos c cs hspace hline hblock comment rest hsplit ih =>
    rw [lexFrom_block hspace hline hblock hsplit]
    exact ih
  | case5 pos c cs hspace hline hblock hsplit stop ih =>
    rw [lexFrom_unended hspace hline hblock hsplit]
    exact ih.addError (sameError_error _ _ _ _)
  | case6 pos c cs hspace hline hblock cut span following flaw hflaw ih =>
    rw [lexFrom_token hspace hline hblock]
    simp only
    rw [hflaw]
    have hfollowing : following.Alike ((lexFrom file' (pos + cut.width) cut.rest).addToken
        ⟨cut.kind, String.ofList cut.taken, ⟨file', pos, pos + cut.width⟩⟩) := ih.addToken rfl
    exact hfollowing.addError (sameError_error lexCode flaw _ _)
  | case7 pos c cs hspace hline hblock cut span following hflaw ih =>
    rw [lexFrom_token hspace hline hblock]
    simp only
    rw [hflaw]
    exact ih.addToken rfl

/-! ### Steps that read alike -/

/-- Whether two cursors are before the same tokens after the same complaints, at whatever places. -/
structure Cursor.Alike (s t : Cursor) : Prop where
  rest : s.rest.map Token.bare = t.rest.map Token.bare
  errors : List.Forall₂ SameError s.errors t.errors

namespace Cursor.Alike

variable {s t : Cursor}

theorem left (h : s.Alike t) : s.left = t.left := by
  have hlen := congrArg List.length h.rest
  rw [s.left_eq, t.left_eq]
  simpa using hlen

/-- Either nothing is to come, or tokens of one kind and text. -/
theorem cases (h : s.Alike t) : s.rest = [] ∧ t.rest = [] ∨
    ∃ a b as bs, s.rest = a :: as ∧ t.rest = b :: bs ∧ a.kind = b.kind ∧ a.text = b.text ∧
      as.map Token.bare = bs.map Token.bare := by
  have hrest := h.rest
  cases hs : s.rest with
  | nil =>
    rw [hs, List.map_nil] at hrest
    exact .inl ⟨rfl, List.map_eq_nil_iff.1 hrest.symm⟩
  | cons a as =>
    rw [hs, List.map_cons] at hrest
    obtain ⟨b, bs, hbs, hb, hrest'⟩ := List.map_eq_cons_iff.1 hrest.symm
    simp only [Token.bare, Token.mk.injEq] at hb
    exact .inr ⟨a, b, as, bs, rfl, hbs, hb.1.symm, hb.2.1.symm, hrest'.symm⟩

theorem kind (h : s.Alike t) : s.kind = t.kind := by
  rcases h.cases with ⟨hs, ht⟩ | ⟨a, b, as, bs, hs, ht, hk, _, _⟩
  · simp only [Cursor.kind, hs, ht]
  · simp only [Cursor.kind, hs, ht, hk]

theorem text (h : s.Alike t) : s.text = t.text := by
  rcases h.cases with ⟨hs, ht⟩ | ⟨a, b, as, bs, hs, ht, _, htext, _⟩
  · simp only [Cursor.text, hs, ht]
  · simp only [Cursor.text, hs, ht, htext]

theorem atEnd (h : s.Alike t) : s.atEnd = t.atEnd := by rw [Cursor.atEnd, Cursor.atEnd, h.kind]

theorem rest_advance (s : Cursor) :
    s.advance.rest = if s.kind = .endOfFile then s.rest else s.rest.tail := by
  unfold Cursor.advance Cursor.kind
  split
  · rename_i a as has
    simp only [has]
    split
    · exact has
    · rfl
  · rename_i hnil
    simp only [hnil]
    rfl

theorem errors_advance (s : Cursor) : s.advance.errors = s.errors := by
  unfold Cursor.advance
  split
  · split
    · rfl
    · rfl
  · rfl

theorem advance (h : s.Alike t) : s.advance.Alike t.advance := by
  refine ⟨?_, ?_⟩
  · rw [rest_advance, rest_advance, h.kind]
    split
    · exact h.rest
    · rw [List.map_tail, List.map_tail, h.rest]
  · rw [errors_advance, errors_advance]
    exact h.errors

theorem report (h : s.Alike t) {d e : Diagnostic} (hd : SameError d e) :
    (s.report d).Alike (t.report e) := ⟨h.rest, .cons hd h.errors⟩

theorem opensDeclaration_eq (s : Cursor) : s.opensDeclaration =
    match s.rest.map Token.kind with
    | _ :: name :: brace :: _ => name.isName && brace = .openBrace
    | _ => false := by
  unfold Cursor.opensDeclaration
  rcases s.rest with _ | ⟨a, _ | ⟨b, _ | ⟨c, as⟩⟩⟩
  · rfl
  · rfl
  · rfl
  · rfl

theorem opensDeclaration (h : s.Alike t) : s.opensDeclaration = t.opensDeclaration := by
  have hkinds : s.rest.map Token.kind = t.rest.map Token.kind := by
    have hmap := congrArg (List.map Token.kind) h.rest
    simpa [List.map_map, Function.comp_def, Token.bare] using hmap
  rw [opensDeclaration_eq, opensDeclaration_eq, hkinds]

end Cursor.Alike

/-- Whether two steps read alike: from like cursors they give related results. -/
def Alike {α β : Type} (R : α → β → Prop) (f : Step α) (g : Step β) : Prop :=
  ∀ s t : Cursor, s.Alike t → R (f s).1 (g t).1 ∧ (f s).2.Alike (g t).2

variable {α β γ δ : Type}

theorem Alike.run {R : α → β → Prop} {f : Step α} {g : Step β} (h : Alike R f g) {s t s₁ : Cursor}
    (hst : s.Alike t) {a : α} (hs : f s = (a, s₁)) :
    ∃ b t₁, g t = (b, t₁) ∧ R a b ∧ s₁.Alike t₁ := by
  have hr := h s t hst
  rw [hs] at hr
  exact ⟨(g t).1, (g t).2, rfl, hr.1, hr.2⟩

theorem alike_pure {R : α → β → Prop} {a : α} {b : β} (h : R a b) :
    Alike R (pure a : Step α) (pure b) := fun _ _ hst => ⟨h, hst⟩

theorem alike_bind {R : α → β → Prop} {S : γ → δ → Prop} {f : Step α} {g : Step β}
    {k : α → Step γ} {l : β → Step δ} (h : Alike R f g)
    (hk : ∀ a b, R a b → Alike S (k a) (l b)) : Alike S (f >>= k) (g >>= l) := by
  intro s t hst
  obtain ⟨hr, hst'⟩ := h s t hst
  exact hk _ _ hr _ _ hst'

theorem alike_get : Alike Cursor.Alike (get : Step Cursor) get := fun _ _ h => ⟨h, h⟩

theorem alike_modify {f g : Cursor → Cursor} (h : ∀ s t : Cursor, s.Alike t → (f s).Alike (g t)) :
    Alike Eq (modify f : Step Unit) (modify g) := fun s t hst => ⟨rfl, h s t hst⟩

theorem alike_advance : Alike Eq (modify Cursor.advance : Step Unit) (modify Cursor.advance) :=
  alike_modify fun _ _ h => h.advance

theorem alike_report {d e : Diagnostic} (h : SameError d e) :
    Alike Eq (modify (Cursor.report d) : Step Unit) (modify (Cursor.report e)) :=
  alike_modify fun _ _ hst => hst.report h

/-! ### Single tokens -/

theorem alike_complain (what : String) : Alike Eq (complain what) (complain what) := by
  refine alike_modify fun s t h => ?_
  rw [h.kind, h.text]
  split
  · exact h
  · exact h.report (sameError_error _ _ _ _)

theorem alike_skipStatement {s t : Cursor} (h : s.Alike t) :
    s.skipStatement.Alike t.skipStatement := by
  fun_induction Cursor.skipStatement s generalizing t with
  | case1 s hend =>
    rw [Cursor.skipStatement.eq_def t]
    rw [h.kind] at hend
    rw [dif_pos hend]
    exact h
  | case2 s hend hsemi =>
    rw [Cursor.skipStatement.eq_def t]
    rw [h.kind] at hend hsemi
    rw [dif_neg hend, if_pos hsemi]
    exact h.advance
  | case3 s hend hsemi ih =>
    rw [Cursor.skipStatement.eq_def t]
    rw [h.kind] at hend hsemi
    rw [dif_neg hend, if_neg hsemi]
    exact ih h.advance

theorem alike_recover : Alike Eq recover recover := alike_modify fun _ _ => alike_skipStatement

theorem alike_giveUp {R : Option α → Option β → Prop} (h : R none none) :
    Alike R (giveUp : Step (Option α)) (giveUp : Step (Option β)) :=
  alike_bind alike_recover fun _ _ _ => alike_pure h

theorem alike_eat (kind : TokenKind) : Alike Eq (eat kind) (eat kind) := by
  refine alike_bind alike_get fun s t h => ?_
  rw [h.kind]
  split
  · exact alike_bind alike_advance fun _ _ _ => alike_pure rfl
  · exact alike_pure rfl

theorem alike_expect (kind : TokenKind) : Alike Eq (expect kind) (expect kind) := by
  refine alike_bind (alike_eat kind) fun there _ hthere => ?_
  subst hthere
  cases there with
  | true => exact alike_pure rfl
  | false => exact alike_bind (alike_complain _) fun _ _ _ => alike_pure rfl

/-- Two names with their places are related when the names are the same. -/
def SameName (a b : String × Span) : Prop := a.1 = b.1

theorem alike_expectName : Alike (Option.Rel SameName) expectName expectName := by
  refine alike_bind alike_get fun s t h => ?_
  rw [h.kind]
  split
  · exact alike_bind alike_advance fun _ _ _ => alike_pure (.some h.text)
  · exact alike_bind (alike_complain _) fun _ _ _ => alike_pure .none

theorem alike_expectString : Alike Eq expectString expectString := by
  refine alike_bind alike_get fun s t h => ?_
  rw [h.kind, h.text]
  split
  · exact alike_bind alike_advance fun _ _ _ => alike_pure rfl
  · exact alike_bind (alike_complain _) fun _ _ _ => alike_pure rfl

theorem alike_declaredName : Alike SameName declaredName declaredName := by
  refine alike_bind alike_expectName fun a b hab => ?_
  cases hab with
  | some h => exact alike_pure h
  | none => exact alike_bind alike_get fun _ _ _ => alike_pure rfl

theorem alike_spanFrom (start start' : Span) :
    Alike (fun _ _ => True) (spanFrom start) (spanFrom start') :=
  alike_bind alike_get fun _ _ _ => alike_pure trivial

theorem alike_parseInteger : Alike Eq parseInteger parseInteger := by
  refine alike_bind alike_get fun _ _ _ => ?_
  refine alike_bind (alike_eat .minus) fun negative _ hneg => ?_
  subst hneg
  refine alike_bind alike_get fun s t h => ?_
  rw [h.kind, h.text]
  split
  · exact alike_bind (alike_complain _) fun _ _ _ => alike_pure rfl
  · refine alike_bind alike_advance fun _ _ _ => ?_
    split
    · exact alike_pure rfl
    · refine alike_bind (alike_spanFrom _ _) fun _ _ _ => ?_
      exact alike_bind (alike_report (sameError_error _ _ _ _)) fun _ _ _ => alike_pure rfl

/-! ### Names and types -/

theorem alike_dottedRest (name : String) : Alike Eq (dottedRest name) (dottedRest name) := by
  intro s t h
  fun_induction dottedRest name s generalizing t with
  | case1 name s s₁ hs =>
    obtain ⟨_, t₁, ht, rfl, h₁⟩ := (alike_eat .dot).run h hs
    rw [dottedRest, ht]
    exact ⟨rfl, h₁⟩
  | case2 name s s₁ hs s₂ hs₂ =>
    obtain ⟨_, t₁, ht, rfl, h₁⟩ := (alike_eat .dot).run h hs
    obtain ⟨_, t₂, ht₂, hname, h₂⟩ := alike_expectName.run h₁ hs₂
    cases hname
    rw [dottedRest, ht]
    simp only [ht₂]
    exact ⟨trivial, h₂⟩
  | case3 name s s₁ hs part span s₂ hs₂ hlt ih =>
    obtain ⟨_, t₁, ht, rfl, h₁⟩ := (alike_eat .dot).run h hs
    obtain ⟨_, t₂, ht₂, hname, h₂⟩ := alike_expectName.run h₁ hs₂
    rcases hname with ⟨rfl⟩ | _
    rw [h.left, h₂.left] at hlt
    rw [dottedRest.eq_def name t, ht]
    simp only [ht₂, dif_pos hlt]
    exact ih t₂ h₂
  | case4 name s s₁ hs part span s₂ hs₂ hlt =>
    obtain ⟨_, t₁, ht, rfl, h₁⟩ := (alike_eat .dot).run h hs
    obtain ⟨_, t₂, ht₂, hname, h₂⟩ := alike_expectName.run h₁ hs₂
    rcases hname with ⟨hpart⟩ | _
    rw [h.left, h₂.left] at hlt
    rw [dottedRest, ht]
    simp only [ht₂, dif_neg hlt]
    exact ⟨trivial, h₂⟩

theorem alike_parseDottedName : Alike Eq parseDottedName parseDottedName := by
  refine alike_bind alike_expectName fun a b hab => ?_
  cases hab with
  | some h =>
    simp only
    rw [h]
    exact alike_dottedRest _
  | none => exact alike_pure rfl

/-- Whether two values are the same without their places. -/
def SameBare (bare : α → β) (a b : α) : Prop := bare a = bare b

theorem bare_typeOfName (name : String) (absolute : Bool) (span span' : Span) :
    (typeOfName name absolute span).bare = (typeOfName name absolute span').bare := by
  unfold typeOfName
  split
  · rfl
  · rfl

theorem alike_parseType : Alike (SameBare (Option.map TypeRef.bare)) parseType parseType := by
  refine alike_bind alike_get fun _ _ _ => ?_
  refine alike_bind (alike_eat .dot) fun absolute _ habs => ?_
  subst habs
  refine alike_bind alike_parseDottedName fun name _ hname => ?_
  subst hname
  cases name with
  | none => exact alike_pure rfl
  | some name =>
    refine alike_bind (alike_spanFrom _ _) fun span span' _ => alike_pure ?_
    exact congrArg some (bare_typeOfName name absolute span span')

/-! ### Statements without a body -/

theorem alike_parseSyntax : Alike (SameBare (Option.map SyntaxDecl.bare)) parseSyntax parseSyntax := by
  refine alike_bind alike_get fun _ _ _ => ?_
  refine alike_bind alike_advance fun _ _ _ => ?_
  refine alike_bind (alike_expect .equals) fun there _ hthere => ?_
  subst hthere
  cases there with
  | false => exact alike_bind (alike_giveUp rfl) fun _ _ h => alike_pure h
  | true =>
    refine alike_bind alike_get fun _ _ _ => ?_
    refine alike_bind alike_expectString fun value _ hvalue => ?_
    subst hvalue
    cases value with
    | none => exact alike_giveUp rfl
    | some value =>
      refine alike_bind (alike_expect .semicolon) fun _ _ _ => ?_
      simp only
      split
      · refine alike_bind (alike_report (sameError_error _ _ _ _)) fun _ _ _ => ?_
        exact alike_bind (alike_spanFrom _ _) fun _ _ _ => alike_pure rfl
      · exact alike_bind (alike_spanFrom _ _) fun _ _ _ => alike_pure rfl

theorem alike_parsePackage :
    Alike (SameBare (Option.map PackageDecl.bare)) parsePackage parsePackage := by
  refine alike_bind alike_get fun _ _ _ => ?_
  refine alike_bind alike_advance fun _ _ _ => ?_
  refine alike_bind alike_parseDottedName fun name _ hname => ?_
  subst hname
  cases name with
  | none => exact alike_giveUp rfl
  | some name =>
    refine alike_bind (alike_expect .semicolon) fun _ _ _ => ?_
    exact alike_bind (alike_spanFrom _ _) fun _ _ _ => alike_pure rfl

theorem alike_parseImport : Alike (SameBare (Option.map Import.bare)) parseImport parseImport := by
  refine alike_bind alike_get fun _ _ _ => ?_
  refine alike_bind alike_advance fun _ _ _ => ?_
  refine alike_bind (alike_eat _) fun isPublic _ hpublic => ?_
  subst hpublic
  refine alike_bind alike_expectString fun path _ hpath => ?_
  subst hpath
  cases path with
  | none => exact alike_giveUp rfl
  | some path =>
    refine alike_bind (alike_expect .semicolon) fun _ _ _ => ?_
    exact alike_bind (alike_spanFrom _ _) fun _ _ _ => alike_pure rfl

/-! ### Fields and enum values -/

theorem alike_parseLabel : Alike Eq parseLabel parseLabel := by
  refine alike_bind (alike_eat _) fun there _ hthere => ?_
  subst hthere
  cases there with
  | true => exact alike_pure rfl
  | false =>
    refine alike_bind (alike_eat _) fun there _ hthere => ?_
    subst hthere
    cases there with
    | true => exact alike_pure rfl
    | false => exact alike_pure rfl

theorem alike_parseFieldNumber : Alike Eq parseFieldNumber parseFieldNumber := by
  refine alike_bind alike_get fun _ _ _ => ?_
  refine alike_bind alike_parseInteger fun value _ hvalue => ?_
  subst hvalue
  cases value with
  | none => exact alike_pure rfl
  | some value =>
    simp only
    split
    · exact alike_pure rfl
    · exact alike_bind (alike_report (sameError_error _ _ _ _)) fun _ _ _ => alike_pure rfl

theorem alike_parseField : Alike (SameBare (Option.map Field.bare)) parseField parseField := by
  refine alike_bind alike_get fun _ _ _ => ?_
  refine alike_bind alike_parseLabel fun label _ hlabel => ?_
  subst hlabel
  refine alike_bind alike_parseType fun type type' htype => ?_
  cases type with
  | none =>
    cases type' with
    | none => exact alike_giveUp rfl
    | some type' => cases htype
  | some type =>
    cases type' with
    | none => cases htype
    | some type' =>
      refine alike_bind alike_expectName fun name name' hname => ?_
      cases hname with
      | none => exact alike_giveUp rfl
      | some hname =>
        refine alike_bind (alike_expect .equals) fun there _ hthere => ?_
        subst hthere
        cases there with
        | false => exact alike_bind (alike_giveUp rfl) fun _ _ h => alike_pure h
        | true =>
          refine alike_bind alike_get fun _ _ _ => ?_
          refine alike_bind alike_parseFieldNumber fun number _ hnumber => ?_
          subst hnumber
          cases number with
          | none => exact alike_giveUp rfl
          | some number =>
            refine alike_bind (alike_expect .semicolon) fun _ _ _ => ?_
            refine alike_bind (alike_spanFrom _ _) fun _ _ _ => alike_pure ?_
            have htype : type.bare = type'.bare := Option.some.inj htype
            have hname : _ = _ := hname
            simp only [SameBare, Option.map_some, Field.bare, htype, hname]

theorem alike_parseEnumNumber : Alike Eq parseEnumNumber parseEnumNumber := by
  refine alike_bind alike_get fun _ _ _ => ?_
  refine alike_bind alike_parseInteger fun value _ hvalue => ?_
  subst hvalue
  cases value with
  | none => exact alike_pure rfl
  | some value =>
    simp only
    split
    · exact alike_pure rfl
    · exact alike_bind (alike_report (sameError_error _ _ _ _)) fun _ _ _ => alike_pure rfl

theorem alike_parseEnumValue :
    Alike (SameBare (Option.map EnumValue.bare)) parseEnumValue parseEnumValue := by
  refine alike_bind alike_get fun _ _ _ => ?_
  refine alike_bind alike_expectName fun name name' hname => ?_
  cases hname with
  | none => exact alike_giveUp rfl
  | some hname =>
    refine alike_bind (alike_expect .equals) fun there _ hthere => ?_
    subst hthere
    cases there with
    | false => exact alike_bind (alike_giveUp rfl) fun _ _ h => alike_pure h
    | true =>
      refine alike_bind alike_parseEnumNumber fun number _ hnumber => ?_
      subst hnumber
      cases number with
      | none => exact alike_giveUp rfl
      | some number =>
        refine alike_bind (alike_expect .semicolon) fun _ _ _ => ?_
        refine alike_bind (alike_spanFrom _ _) fun _ _ _ => alike_pure ?_
        have hname : _ = _ := hname
        simp only [SameBare, Option.map_some, EnumValue.bare, hname]

/-! ### Enums -/

theorem map_toList_append {bare : α → β} {a b : Option α} {as bs : List α}
    (hab : a.map bare = b.map bare) (habs : as.map bare = bs.map bare) :
    (a.toList ++ as).map bare = (b.toList ++ bs).map bare := by
  have hlist : a.toList.map bare = b.toList.map bare := by
    rw [← Option.toList_map, ← Option.toList_map, hab]
  rw [List.map_append, List.map_append, hlist, habs]

theorem alike_enumBody {values values' : List EnumValue} (s t : Cursor) (h : s.Alike t)
    (hv : values.map EnumValue.bare = values'.map EnumValue.bare) :
    (enumBody values s).1.map EnumValue.bare = (enumBody values' t).1.map EnumValue.bare ∧
      (enumBody values s).2.Alike (enumBody values' t).2 := by
  induction hn : s.left using Nat.strongRecOn generalizing values values' s t with
  | ind n ih =>
    rw [enumBody.eq_def values s, enumBody.eq_def values' t, h.atEnd, h.kind]
    split
    · exact ⟨hv, h⟩
    · have hstep : ∃ a b s₁ t₁,
          (if t.kind = .semicolon then (none, s.advance) else parseEnumValue s) = (a, s₁) ∧
          (if t.kind = .semicolon then (none, t.advance) else parseEnumValue t) = (b, t₁) ∧
          a.map EnumValue.bare = b.map EnumValue.bare ∧ s₁.Alike t₁ := by
        split
        · exact ⟨_, _, _, _, rfl, rfl, rfl, h.advance⟩
        · have hvalue := alike_parseEnumValue s t h
          exact ⟨_, _, _, _, rfl, rfl, hvalue.1, hvalue.2⟩
      obtain ⟨a, b, s₁, t₁, hs, ht, hab, h₁⟩ := hstep
      simp only [hs, ht]
      rw [h.left, h₁.left]
      split
      · rename_i hlt
        exact ih s₁.left (by rw [← hn, h.left, h₁.left]; exact hlt) s₁ t₁ h₁
          (map_toList_append hab hv) rfl
      · exact ⟨map_toList_append hab hv, h₁⟩

theorem alike_parseEnum : Alike (SameBare EnumDecl.bare) parseEnum parseEnum := by
  refine alike_bind alike_get fun _ _ _ => ?_
  refine alike_bind alike_advance fun _ _ _ => ?_
  refine alike_bind alike_declaredName fun name name' hname => ?_
  have hname : name.1 = name'.1 := hname
  refine alike_bind (alike_expect .openBrace) fun there _ hthere => ?_
  subst hthere
  cases there with
  | true =>
    have hbody : Alike (SameBare (List.map EnumValue.bare)) (enumBody []) (enumBody []) :=
      fun s t h => alike_enumBody s t h rfl
    refine alike_bind hbody fun values values' hvalues => ?_
    refine alike_bind (alike_expect .closeBrace) fun _ _ _ => ?_
    refine alike_bind (alike_spanFrom _ _) fun _ _ _ => alike_pure ?_
    have hvalues : values.map EnumValue.bare = values'.map EnumValue.bare := hvalues
    simp only [SameBare, EnumDecl.bare, hname, List.map_reverse, hvalues]
  | false =>
    refine alike_bind alike_recover fun _ _ _ => ?_
    refine alike_bind (alike_spanFrom _ _) fun _ _ _ => alike_pure ?_
    simp only [SameBare, EnumDecl.bare, hname]

/-! ### Messages -/

/-- Whether the members of two messages are the same without their places. -/
structure Members.Alike (m m' : Members) : Prop where
  fields : m.fields.map Field.bare = m'.fields.map Field.bare
  nested : m.nested.map Item.bare = m'.nested.map Item.bare

theorem Members.Alike.addItem {m m' : Members} (h : m.Alike m') {item item' : Item}
    (hi : item.bare = item'.bare) :
    ({ m with nested := item :: m.nested } : Members).Alike
      { m' with nested := item' :: m'.nested } :=
  ⟨h.fields, by simp only [List.map_cons, hi, h.nested]⟩

theorem Members.Alike.addField {m m' : Members} (h : m.Alike m') {field field' : Option Field}
    (hf : field.map Field.bare = field'.map Field.bare) :
    ({ m with fields := field.toList ++ m.fields } : Members).Alike
      { m' with fields := field'.toList ++ m'.fields } :=
  ⟨map_toList_append hf h.fields, h.nested⟩

/-- Takes one member of a message, given how a message at this place is read. -/
def memberStep (message : Item × Cursor) (members : Members) (s : Cursor) : Members × Cursor :=
  if s.kind = .keyword .messageWord ∧ s.opensDeclaration then
    ({ members with nested := message.1 :: members.nested }, message.2)
  else if s.kind = .keyword .enumWord ∧ s.opensDeclaration then
    ({ members with nested := .enumeration (parseEnum s).1 :: members.nested }, (parseEnum s).2)
  else if s.kind = .semicolon then (members, s.advance)
  else ({ members with fields := (parseField s).1.toList ++ members.fields }, (parseField s).2)

theorem messageBody_eq (members : Members) (s : Cursor) : messageBody members s =
    if s.atEnd ∨ s.kind = .closeBrace then (members, s)
    else
      let next := memberStep (parseMessage s) members s
      if next.2.left < s.left then messageBody next.1 next.2 else next := by
  rw [messageBody.eq_def]
  split
  · rfl
  · simp only [memberStep, dite_eq_ite]
    split
    · rfl
    · split
      · rfl
      · split
        · rfl
        · rfl

/-- The members after an opening brace. -/
def bodyAfter (s s₂ : Cursor) : Members × Cursor :=
  if s₂.left < s.left then messageBody ⟨[], []⟩ s₂ else (⟨[], []⟩, s₂)

/-- A message with its members and its end. -/
def closedMessage (name : String × Span) (start : Span) (body : Members × Cursor) : Item × Cursor :=
  let close := (do let _ ← expect .closeBrace; spanFrom start : Step Span) body.2
  (.message ⟨name.1, name.2, body.1.fields.reverse, close.1⟩ body.1.nested.reverse, close.2)

theorem parseMessage_of {s s₁ s₂ : Cursor} {name : String × Span} {there : Bool}
    (hname : declaredName s.advance = (name, s₁)) (hopen : expect .openBrace s₁ = (there, s₂)) :
    parseMessage s =
      if there then closedMessage name s.span (bodyAfter s s₂)
      else
        let close := (do recover; spanFrom s.span : Step Span) s₂
        (.message ⟨name.1, name.2, [], close.1⟩ [], close.2) := by
  rw [parseMessage.eq_def]
  simp only [hname, hopen, dite_eq_ite]
  cases there with
  | false => rfl
  | true => rfl

theorem alike_memberStep {message message' : Item × Cursor} {members members' : Members}
    {s t : Cursor} (h : s.Alike t) (hm : members.Alike members')
    (hi : message.1.bare = message'.1.bare) (hs : message.2.Alike message'.2) :
    (memberStep message members s).1.Alike (memberStep message' members' t).1 ∧
      (memberStep message members s).2.Alike (memberStep message' members' t).2 := by
  unfold memberStep
  rw [h.kind, h.opensDeclaration]
  split
  · exact ⟨hm.addItem hi, hs⟩
  · split
    · have hdecl := alike_parseEnum s t h
      exact ⟨hm.addItem (congrArg Item.enumeration hdecl.1), hdecl.2⟩
    · split
      · exact ⟨hm, h.advance⟩
      · have hfield := alike_parseField s t h
        exact ⟨hm.addField hfield.1, hfield.2⟩

theorem alike_closedMessage {name name' : String × Span} {start start' : Span}
    {body body' : Members × Cursor} (hname : name.1 = name'.1) (hm : body.1.Alike body'.1)
    (hs : body.2.Alike body'.2) :
    (closedMessage name start body).1.bare = (closedMessage name' start' body').1.bare ∧
      (closedMessage name start body).2.Alike (closedMessage name' start' body').2 := by
  have hend : Alike (fun _ _ => True)
      (do let _ ← expect .closeBrace; spanFrom start : Step Span)
      (do let _ ← expect .closeBrace; spanFrom start') :=
    alike_bind (alike_expect .closeBrace) fun _ _ _ => alike_spanFrom _ _
  refine ⟨?_, (hend _ _ hs).2⟩
  simp only [closedMessage, Item.bare, MessageDecl.bare, bareItems_eq_map, List.map_reverse, hname,
    hm.fields, hm.nested]

mutual

theorem alike_parseMessage (s t : Cursor) (h : s.Alike t) :
    (parseMessage s).1.bare = (parseMessage t).1.bare ∧
      (parseMessage s).2.Alike (parseMessage t).2 := by
  rcases hs₁ : declaredName s.advance with ⟨name, s₁⟩
  obtain ⟨name', t₁, ht₁, hname, h₁⟩ := alike_declaredName.run h.advance hs₁
  rcases hs₂ : expect .openBrace s₁ with ⟨there, s₂⟩
  obtain ⟨_, t₂, ht₂, rfl, h₂⟩ := (alike_expect .openBrace).run h₁ hs₂
  rw [parseMessage_of hs₁ hs₂, parseMessage_of ht₁ ht₂]
  split
  · have hbody : (bodyAfter s s₂).1.Alike (bodyAfter t t₂).1 ∧
        (bodyAfter s s₂).2.Alike (bodyAfter t t₂).2 := by
      unfold bodyAfter
      rw [← h.left, ← h₂.left]
      split
      · exact alike_messageBody ⟨[], []⟩ ⟨[], []⟩ s₂ t₂ h₂ ⟨rfl, rfl⟩
      · exact ⟨⟨rfl, rfl⟩, h₂⟩
    exact alike_closedMessage hname hbody.1 hbody.2
  · have hend : Alike (fun _ _ => True) (do recover; spanFrom s.span : Step Span)
        (do recover; spanFrom t.span) :=
      alike_bind alike_recover fun _ _ _ => alike_spanFrom _ _
    have hname : name.1 = name'.1 := hname
    refine ⟨?_, (hend s₂ t₂ h₂).2⟩
    simp only [Item.bare, MessageDecl.bare, hname]
termination_by (s.left, 0)

theorem alike_messageBody (members members' : Members) (s t : Cursor) (h : s.Alike t)
    (hm : members.Alike members') :
    (messageBody members s).1.Alike (messageBody members' t).1 ∧
      (messageBody members s).2.Alike (messageBody members' t).2 := by
  have hmessage := alike_parseMessage s t h
  have hstep := alike_memberStep h hm hmessage.1 hmessage.2
  rw [messageBody_eq members s, messageBody_eq members' t, h.atEnd, h.kind]
  split
  · exact ⟨hm, h⟩
  · simp only
    rw [← h.left, ← hstep.2.left]
    split
    · exact alike_messageBody _ _ _ _ hstep.2 hstep.1
    · exact hstep
termination_by (s.left, 1)

end

/-! ### Files -/

theorem alike_fileSyntax (first : Bool) {file file' : File} (hf : file.bare = file'.bare) :
    Alike (SameBare File.bare) (fileSyntax first file) (fileSyntax first file') := by
  refine alike_bind alike_parseSyntax fun decl decl' hdecl => ?_
  cases decl with
  | none =>
    cases decl' with
    | none => exact alike_pure hf
    | some decl' => cases hdecl
  | some decl =>
    cases decl' with
    | none => cases hdecl
    | some decl' =>
      simp only
      split
      · refine alike_pure ?_
        have hdecl : some decl.bare = some decl'.bare := hdecl
        simp only [File.bare, File.mk.injEq] at hf
        simp only [SameBare, File.bare, Option.map_some, hdecl, hf]
      · exact alike_bind (alike_report (sameError_error _ _ _ _)) fun _ _ _ => alike_pure hf

theorem sameError_withRemark {d e : Diagnostic} (h : SameError d e) (span span' : Span)
    (message : String) : SameError (d.withRemark span message) (e.withRemark span' message) :=
  ⟨h.left, h.right, h.code, h.message⟩

theorem alike_filePackage {file file' : File} (hf : file.bare = file'.bare) :
    Alike (SameBare File.bare) (filePackage file) (filePackage file') := by
  refine alike_bind alike_parsePackage fun decl decl' hdecl => ?_
  cases decl with
  | none =>
    cases decl' with
    | none => exact alike_pure hf
    | some decl' => cases hdecl
  | some decl =>
    cases decl' with
    | none => cases hdecl
    | some decl' =>
      have hdecl : some decl.bare = some decl'.bare := hdecl
      have hf' := hf
      simp only [File.bare, File.mk.injEq] at hf'
      cases hp : file.package with
      | none =>
        have hp' : file'.package = none := by
          have h := hf'.2.1
          rw [hp] at h
          exact Option.map_eq_none_iff.1 h.symm
        simp only [hp']
        refine alike_pure ?_
        simp only [SameBare, File.bare, Option.map_some, hdecl, hf']
      | some earlier =>
        obtain ⟨earlier', hp'⟩ : ∃ earlier', file'.package = some earlier' := by
          have h := hf'.2.1
          rw [hp] at h
          obtain ⟨earlier', hp', _⟩ := Option.map_eq_some_iff.1 h.symm
          exact ⟨earlier', hp'⟩
        simp only [hp']
        refine alike_bind (alike_report ?_) fun _ _ _ => alike_pure hf
        exact sameError_withRemark (sameError_error _ _ _ _) _ _ _

theorem alike_skipStray : Alike Eq skipStray skipStray := by
  refine alike_bind (alike_complain _) fun _ _ _ => ?_
  refine alike_bind alike_advance fun _ _ _ => ?_
  refine alike_bind alike_recover fun _ _ _ => ?_
  exact alike_bind (alike_eat .closeBrace) fun _ _ _ => alike_pure rfl

theorem File.bare_addItem {file file' : File} (hf : file.bare = file'.bare) {item item' : Item}
    (hi : item.bare = item'.bare) :
    ({ file with items := item :: file.items } : File).bare =
      ({ file' with items := item' :: file'.items } : File).bare := by
  simp only [File.bare, File.mk.injEq] at hf
  simp only [File.bare, bareItems, hi, hf]

theorem alike_statement (first : Bool) {file file' : File} (hf : file.bare = file'.bare) :
    Alike (SameBare File.bare) (statement first file) (statement first file') := by
  refine alike_bind alike_get fun s t h => ?_
  rw [h.kind]
  split
  · exact alike_fileSyntax first hf
  · exact alike_filePackage hf
  · refine alike_bind alike_parseImport fun decl decl' hdecl => alike_pure ?_
    simp only [File.bare, File.mk.injEq] at hf
    have himports := map_toList_append hdecl hf.2.2.1
    simp only [SameBare, File.bare, himports, hf]
  · have hmessage : Alike (SameBare Item.bare) parseMessage parseMessage := alike_parseMessage
    exact alike_bind hmessage fun item item' hi => alike_pure (File.bare_addItem hf hi)
  · refine alike_bind alike_parseEnum fun decl decl' hdecl => alike_pure ?_
    exact File.bare_addItem hf (congrArg Item.enumeration hdecl)
  · exact alike_bind alike_advance fun _ _ _ => alike_pure hf
  · exact alike_bind alike_skipStray fun _ _ _ => alike_pure hf

theorem alike_statements (first : Bool) {file file' : File} (s t : Cursor) (h : s.Alike t)
    (hf : file.bare = file'.bare) :
    (statements first file s).1.bare = (statements first file' t).1.bare ∧
      (statements first file s).2.Alike (statements first file' t).2 := by
  induction hn : s.left using Nat.strongRecOn generalizing first file file' s t with
  | ind n ih =>
    rw [statements.eq_def first file s, statements.eq_def first file' t, h.atEnd]
    split
    · exact ⟨hf, h⟩
    · rcases hs : statement first file s with ⟨f, s₁⟩
      obtain ⟨f', t₁, ht, hf', h₁⟩ := (alike_statement first hf).run h hs
      simp only [ht]
      rw [← h.left, ← h₁.left]
      split
      · rename_i hlt
        exact ih s₁.left (by omega) false s₁ t₁ h₁ hf' rfl
      · exact ⟨hf', h₁⟩

/-- Whether two files are read the same, but for the places. -/
structure Parsed.Alike (p p' : Parsed) : Prop where
  file : p.file.bare = p'.file.bare
  errors : List.Forall₂ SameError p.errors p'.errors

theorem alike_parseTokens {tokens tokens' : List Token}
    (h : tokens.map Token.bare = tokens'.map Token.bare) :
    (parseTokens tokens).Alike (parseTokens tokens') := by
  have hstart : (Cursor.start tokens).Alike (Cursor.start tokens') := ⟨h, .nil⟩
  have hall := alike_statements true _ _ hstart
    (show (⟨none, none, [], [], (Cursor.start tokens).span⟩ : File).bare =
      (⟨none, none, [], [], (Cursor.start tokens').span⟩ : File).bare from rfl)
  refine ⟨?_, List.rel_reverse hall.2.errors⟩
  have hf := hall.1
  simp only [File.bare, File.mk.injEq, bareItems_eq_map] at hf
  simp only [parseTokens, File.bare, bareItems_eq_map, List.map_reverse, hf]

/-- The number of a file shows only in the places. -/
theorem alike_parse (file file' : FileId) (text : String) :
    (parse file text).Alike (parse file' text) := by
  have hlex := alike_lexFrom file file' 0 text.toList
  have htokens := alike_parseTokens hlex.tokens
  exact ⟨htokens.file, List.rel_append hlex.errors htokens.errors⟩

/-- A file imports the same paths whatever its number. -/
theorem paths_parse (n m : FileId) (text : String) :
    (parse n text).file.imports.map Import.path = (parse m text).file.imports.map Import.path := by
  have h := (alike_parse n m text).file
  simp only [File.bare, File.mk.injEq] at h
  have hpath := congrArg (List.map Import.path) h.2.2.1
  simpa [List.map_map, Function.comp_def, Import.bare] using hpath

theorem isError_of_sameErrors {ds es : List Diagnostic} (h : List.Forall₂ SameError ds es) :
    ∀ d ∈ ds, d.isError = true := by
  induction h with
  | nil => exact fun _ hd => absurd hd List.not_mem_nil
  | cons hde _ ih =>
    intro d hd
    rcases List.mem_cons.1 hd with rfl | hd
    · exact hde.left
    · exact ih d hd

theorem isError_of_mem_errors {file : FileId} {text : String} :
    ∀ d ∈ (parse file text).errors, d.isError = true :=
  isError_of_sameErrors (alike_parse file file text).errors

end Schemata.Schema

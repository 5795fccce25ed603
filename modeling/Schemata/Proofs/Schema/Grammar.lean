import Schemata.Proofs.Schema.Bare

/-!
# The grammar of schema files

Which token lists are schema files, and which declarations they stand for. The grammar is stated
over whole token lists and knows nothing of reading; the declarations come without places. Keywords
serve as names. At the start of a field `repeated` and `optional` are the label, also where a type
could be meant.
-/

namespace Schemata.Schema

open Source

/-! ### Numbers and names -/

/-- The number that decimal digits stand for. -/
def numeral (digits : List Char) : Nat :=
  digits.foldl (fun n c => 10 * n + (c.toNat - '0'.toNat)) 0

/-- An integer with an optional minus. -/
inductive IntegerForm : List Token → Int → Prop
  | plain {t : Token} (ht : t.kind = .integer) : IntegerForm [t] (numeral t.text.toList)
  | negative {minus t : Token} (hminus : minus.kind = .minus) (ht : t.kind = .integer) :
      IntegerForm [minus, t] (-(numeral t.text.toList : Int))

/-- Names with dots between them. -/
inductive DottedName : List Token → String → Prop
  | single {t : Token} (ht : t.kind.isName = true) : DottedName [t] t.text
  | dotted {ts : List Token} {name : String} {dot part : Token} (h : DottedName ts name)
      (hdot : dot.kind = .dot) (hpart : part.kind.isName = true) :
      DottedName (ts ++ [dot, part]) (name ++ "." ++ part.text)

/-- A type is a scalar, or it is named from here or, after a dot, from the outermost scope. -/
inductive TypeForm : List Token → TypeRef → Prop
  | scalar {t : Token} {type : ScalarType} (ht : t.kind.isName = true) (htext : t.text = type.text) :
      TypeForm [t] (.scalar type .nowhere)
  | relative {ts : List Token} {name : String} (h : DottedName ts name)
      (hname : ∀ type : ScalarType, name ≠ type.text) : TypeForm ts (.named name false .nowhere)
  | absolute {dot : Token} {ts : List Token} {name : String} (hdot : dot.kind = .dot)
      (h : DottedName ts name) : TypeForm (dot :: ts) (.named name true .nowhere)

/-! ### Fields and enums -/

/-- Whether a token is read as a label where a field starts. -/
def Token.IsLabel (t : Token) : Prop :=
  t.kind = .keyword .repeatedWord ∨ t.kind = .keyword .optionalWord

/-- The label and the type of a field. -/
inductive FieldHead : List Token → FieldLabel → TypeRef → Prop
  | single {t : Token} {ts : List Token} {type : TypeRef} (h : TypeForm (t :: ts) type)
      (ht : ¬ t.IsLabel) : FieldHead (t :: ts) .single type
  | repeated {t : Token} {ts : List Token} {type : TypeRef} (h : TypeForm ts type)
      (ht : t.kind = .keyword .repeatedWord) : FieldHead (t :: ts) .repeated type
  | optional {t : Token} {ts : List Token} {type : TypeRef} (h : TypeForm ts type)
      (ht : t.kind = .keyword .optionalWord) : FieldHead (t :: ts) .optional type

inductive FieldForm : List Token → Field → Prop
  | field {head number : List Token} {label : FieldLabel} {type : TypeRef}
      {name equals semicolon : Token} {n : Nat} (hhead : FieldHead head label type)
      (hname : name.kind.isName = true) (hequals : equals.kind = .equals)
      (hnumber : IntegerForm number n) (hrange : 1 ≤ n ∧ n ≤ 536870911)
      (hsemicolon : semicolon.kind = .semicolon) :
      FieldForm (head ++ name :: equals :: (number ++ [semicolon]))
        ⟨label, type, name.text, .nowhere, n, .nowhere, .nowhere⟩

inductive EnumValueForm : List Token → EnumValue → Prop
  | value {number : List Token} {name equals semicolon : Token} {n : Int}
      (hname : name.kind.isName = true) (hequals : equals.kind = .equals)
      (hnumber : IntegerForm number n) (hrange : -2147483648 ≤ n ∧ n ≤ 2147483647)
      (hsemicolon : semicolon.kind = .semicolon) :
      EnumValueForm (name :: equals :: (number ++ [semicolon])) ⟨name.text, n, .nowhere⟩

inductive EnumBody : List Token → List EnumValue → Prop
  | nil : EnumBody [] []
  | semicolon {t : Token} {ts : List Token} {values : List EnumValue} (ht : t.kind = .semicolon)
      (h : EnumBody ts values) : EnumBody (t :: ts) values
  | value {vs ts : List Token} {v : EnumValue} {values : List EnumValue} (hv : EnumValueForm vs v)
      (h : EnumBody ts values) : EnumBody (vs ++ ts) (v :: values)

inductive EnumForm : List Token → EnumDecl → Prop
  | enumeration {word name opening closing : Token} {body : List Token} {values : List EnumValue}
      (hword : word.kind = .keyword .enumWord) (hname : name.kind.isName = true)
      (hopening : opening.kind = .openBrace) (hbody : EnumBody body values)
      (hclosing : closing.kind = .closeBrace) :
      EnumForm (word :: name :: opening :: (body ++ [closing]))
        ⟨name.text, .nowhere, values, .nowhere⟩

/-! ### Messages -/

mutual

inductive MessageForm : List Token → Item → Prop
  | message {word name opening closing : Token} {body : List Token} {fields : List Field}
      {nested : List Item} (hword : word.kind = .keyword .messageWord)
      (hname : name.kind.isName = true) (hopening : opening.kind = .openBrace)
      (hbody : MessageBody body fields nested) (hclosing : closing.kind = .closeBrace) :
      MessageForm (word :: name :: opening :: (body ++ [closing]))
        (.message ⟨name.text, .nowhere, fields, .nowhere⟩ nested)

inductive MessageBody : List Token → List Field → List Item → Prop
  | nil : MessageBody [] [] []
  | semicolon {t : Token} {ts : List Token} {fields : List Field} {nested : List Item}
      (ht : t.kind = .semicolon) (h : MessageBody ts fields nested) :
      MessageBody (t :: ts) fields nested
  | field {fs ts : List Token} {field : Field} {fields : List Field} {nested : List Item}
      (hfield : FieldForm fs field) (h : MessageBody ts fields nested) :
      MessageBody (fs ++ ts) (field :: fields) nested
  | message {ms ts : List Token} {item : Item} {fields : List Field} {nested : List Item}
      (hitem : MessageForm ms item) (h : MessageBody ts fields nested) :
      MessageBody (ms ++ ts) fields (item :: nested)
  | enumeration {es ts : List Token} {decl : EnumDecl} {fields : List Field} {nested : List Item}
      (hdecl : EnumForm es decl) (h : MessageBody ts fields nested) :
      MessageBody (es ++ ts) fields (.enumeration decl :: nested)

end

/-! ### Files -/

/-- What a statement of a file says, apart from the syntax statement. -/
inductive Statement
  | empty
  | package (decl : PackageDecl)
  | imported (decl : Import)
  | declared (item : Item)

namespace Statement

def package? : Statement → Option PackageDecl
  | .package decl => some decl
  | _ => none

def import? : Statement → Option Import
  | .imported decl => some decl
  | _ => none

def item? : Statement → Option Item
  | .declared item => some item
  | _ => none

end Statement

inductive StatementForm : List Token → Statement → Prop
  | empty {t : Token} (ht : t.kind = .semicolon) : StatementForm [t] .empty
  | package {word semicolon : Token} {ts : List Token} {name : String}
      (hword : word.kind = .keyword .packageWord) (h : DottedName ts name)
      (hsemicolon : semicolon.kind = .semicolon) :
      StatementForm (word :: (ts ++ [semicolon])) (.package ⟨name, .nowhere⟩)
  | imported {word path semicolon : Token} (hword : word.kind = .keyword .importWord)
      (hpath : path.kind = .string) (hsemicolon : semicolon.kind = .semicolon) :
      StatementForm [word, path, semicolon] (.imported ⟨unquote path.text, false, .nowhere⟩)
  | importedPublicly {word isPublic path semicolon : Token}
      (hword : word.kind = .keyword .importWord) (hpublic : isPublic.kind = .keyword .publicWord)
      (hpath : path.kind = .string) (hsemicolon : semicolon.kind = .semicolon) :
      StatementForm [word, isPublic, path, semicolon] (.imported ⟨unquote path.text, true, .nowhere⟩)
  | message {ts : List Token} {item : Item} (h : MessageForm ts item) :
      StatementForm ts (.declared item)
  | enumeration {ts : List Token} {decl : EnumDecl} (h : EnumForm ts decl) :
      StatementForm ts (.declared (.enumeration decl))

inductive Statements : List Token → List Statement → Prop
  | nil : Statements [] []
  | cons {ts rest : List Token} {said : Statement} {others : List Statement}
      (h : StatementForm ts said) (hrest : Statements rest others) :
      Statements (ts ++ rest) (said :: others)

/-- A syntax statement, or none. -/
inductive SyntaxForm : List Token → Option SyntaxDecl → Prop
  | unspecified : SyntaxForm [] none
  | specified {word equals value semicolon : Token} (hword : word.kind = .keyword .syntaxWord)
      (hequals : equals.kind = .equals) (hvalue : value.kind = .string)
      (hknown : unquote value.text = "schema1" ∨ unquote value.text = "schema2")
      (hsemicolon : semicolon.kind = .semicolon) :
      SyntaxForm [word, equals, value, semicolon] (some ⟨unquote value.text, .nowhere⟩)

inductive FileForm : List Token → File → Prop
  | file {head body : List Token} {decl : Option SyntaxDecl} {said : List Statement} {stop : Token}
      (hhead : SyntaxForm head decl) (hbody : Statements body said)
      (hpackage : (said.filterMap Statement.package?).length ≤ 1)
      (hstop : stop.kind = .endOfFile) :
      FileForm (head ++ body ++ [stop])
        ⟨decl, (said.filterMap Statement.package?).head?, said.filterMap Statement.import?,
          said.filterMap Statement.item?, .nowhere⟩

/-! ### Numbers and scalar types as they are read -/

theorem le_foldl_numeral (digits : List Char) (n : Nat) :
    n ≤ digits.foldl (fun n c => 10 * n + (c.toNat - '0'.toNat)) n := by
  induction digits generalizing n with
  | nil => exact Nat.le_refl n
  | cons c digits ih =>
    have hrest := ih (10 * n + (c.toNat - '0'.toNat))
    simp only [List.foldl_cons]
    omega

theorem decimalValue?_eq (digits : List Char) :
    decimalValue? digits = if numeral digits ≤ maxInteger then some (numeral digits) else none := by
  unfold decimalValue? numeral
  generalize hstart : (0 : Nat) = n
  have hn : n ≤ maxInteger := by omega
  clear hstart
  induction digits generalizing n with
  | nil => simp [hn]
  | cons c digits ih =>
    have hle := le_foldl_numeral digits (10 * n + (c.toNat - '0'.toNat))
    rw [List.foldlM_cons, List.foldl_cons]
    by_cases hnext : 10 * n + (c.toNat - '0'.toNat) ≤ maxInteger
    · simp only [hnext, if_true, Option.bind_eq_bind, Option.bind_some]
      exact ih _ hnext
    · have hgreat : ¬ digits.foldl (fun n c => 10 * n + (c.toNat - '0'.toNat))
          (10 * n + (c.toNat - '0'.toNat)) ≤ maxInteger := by omega
      simp only [hnext, hgreat, if_false, Option.bind_eq_bind, Option.bind_none]

theorem ScalarType.text_of_ofText? {s : String} {type : ScalarType} (h : ofText? s = some type) :
    s = type.text := by
  have htext := List.find?_some h
  exact (eq_of_beq htext).symm

theorem ScalarType.ofText?_eq_none {s : String} :
    ofText? s = none ↔ ∀ type : ScalarType, s ≠ type.text := by
  constructor
  · intro h type hs
    rw [hs, ofText?_text] at h
    cases h
  · intro h
    cases hs : ofText? s with
    | none => rfl
    | some type => exact absurd (text_of_ofText? hs) (h type)

theorem ScalarType.dot_not_mem_text (type : ScalarType) : '.' ∉ type.text.toList := by
  cases type <;> decide

theorem ScalarType.ne_text_of_dot (name part : String) (type : ScalarType) :
    name ++ "." ++ part ≠ type.text := by
  intro h
  have hdot : '.' ∈ (name ++ "." ++ part).toList := by simp
  rw [h] at hdot
  exact type.dot_not_mem_text hdot

/-- The type that names stand for, as reading makes it. -/
theorem typeForm_of_dottedName {ts : List Token} {name : String} (h : DottedName ts name) :
    TypeForm ts (typeOfName name false .nowhere) := by
  unfold typeOfName
  simp only [Bool.false_eq_true, if_false]
  cases h with
  | single ht =>
    split
    · rename_i hscalar
      exact .scalar ht (ScalarType.text_of_ofText? hscalar)
    · rename_i hnone
      exact .relative (.single ht) (ScalarType.ofText?_eq_none.1 hnone)
  | @dotted _ name _ part h hdot hpart =>
    rw [ScalarType.ofText?_eq_none.2 (ScalarType.ne_text_of_dot name part.text)]
    exact .relative (.dotted h hdot hpart) (ScalarType.ne_text_of_dot name part.text)

/-! ### Tokens of a text -/

/-- Whether tokens are ended by the end of the file, and by no other. -/
def Ended (tokens : List Token) : Prop :=
  ∃ body stop, tokens = body ++ [stop] ∧ stop.kind = .endOfFile ∧ ∀ t ∈ body, t.kind ≠ .endOfFile

/-- Whether all tokens are well shaped. -/
def Valid (tokens : List Token) : Prop := ∀ t ∈ tokens, t.kind ≠ .invalid

theorem wordKind_ne (word : List Char) :
    wordKind word ≠ .endOfFile ∧ wordKind word ≠ .invalid := by
  unfold wordKind
  split <;> exact ⟨nofun, nofun⟩

theorem punctuation?_ne {c : Char} {kind : TokenKind} (h : punctuation? c = some kind) :
    kind ≠ .endOfFile ∧ kind ≠ .invalid := by
  unfold punctuation? at h
  grind

/-- A token that is cut off is never the end, and where it is invalid something is wrong. -/
theorem kind_cutToken (c : Char) (cs : List Char) :
    (cutToken c cs).kind ≠ .endOfFile ∧
      ((cutToken c cs).flaw = none → (cutToken c cs).kind ≠ .invalid) := by
  unfold cutToken
  split
  · exact ⟨(wordKind_ne _).1, fun _ => (wordKind_ne _).2⟩
  · split
    · simp only
      split
      · split
        · exact ⟨nofun, nofun⟩
        · exact ⟨nofun, nofun⟩
      · exact ⟨nofun, nofun⟩
    · split
      · simp only
        split
        · exact ⟨nofun, nofun⟩
        · exact ⟨nofun, nofun⟩
      · split
        · rename_i kind hkind
          exact ⟨(punctuation?_ne hkind).1, fun _ => (punctuation?_ne hkind).2⟩
        · exact ⟨nofun, nofun⟩

theorem Ended.cons {tokens : List Token} (h : Ended tokens) {t : Token}
    (ht : t.kind ≠ .endOfFile) : Ended (t :: tokens) := by
  obtain ⟨body, stop, rfl, hstop, hbody⟩ := h
  exact ⟨t :: body, stop, rfl, hstop, List.forall_mem_cons.2 ⟨ht, hbody⟩⟩

theorem lexFrom_tokens (file : FileId) (pos : Nat) (cs : List Char) :
    Ended (lexFrom file pos cs).tokens ∧
      ((lexFrom file pos cs).errors = [] → Valid (lexFrom file pos cs).tokens) := by
  fun_induction lexFrom file pos cs with
  | case1 pos => exact ⟨⟨[], _, rfl, rfl, List.forall_mem_nil _⟩, fun _ => by simp [Valid]⟩
  | case2 pos c cs hspace ih => exact ih
  | case3 pos c cs hspace hline ih => exact ih
  | case4 pos c cs hspace hline hblock comment rest hsplit ih => exact ih
  | case5 pos c cs hspace hline hblock hsplit stop ih => exact ⟨ih.1, fun herrors => absurd herrors (List.cons_ne_nil _ _)⟩
  | case6 pos c cs hspace hline hblock cut span following flaw hflaw ih =>
    exact ⟨ih.1.cons (kind_cutToken c cs).1, fun herrors => absurd herrors (List.cons_ne_nil _ _)⟩
  | case7 pos c cs hspace hline hblock cut span following hflaw ih =>
    refine ⟨ih.1.cons (kind_cutToken c cs).1, fun herrors => ?_⟩
    exact List.forall_mem_cons.2 ⟨(kind_cutToken c cs).2 hflaw, ih.2 herrors⟩

end Schemata.Schema

import Schemata.Proofs.Schema.Recognition

/-!
# Places that reading notes

All that reading a file complains about is in that file, and so are the places of the fields that it
gives.
-/

namespace Schemata.Schema

open Source

variable {n : FileId}

theorem Span.file_hull (s t : Span) : (s.hull t).file = s.file := by
  unfold Span.hull
  split
  · rfl
  · rfl

/-! ### Declarations -/

/-- Whether the places of a field are in a file. -/
structure Field.In (n : FileId) (f : Field) : Prop where
  type : f.type.span.file = n
  name : f.nameSpan.file = n
  number : f.numberSpan.file = n

/-- Whether the places of all fields of a declared type are in a file. -/
inductive Item.In (n : FileId) : Item → Prop
  | message {decl : MessageDecl} {nested : List Item} (fields : ∀ f ∈ decl.fields, f.In n)
    (inner : ∀ item ∈ nested, item.In n) : Item.In n (.message decl nested)
  | enumeration (decl : EnumDecl) : Item.In n (.enumeration decl)

/-- Whether the places of all fields of some members are in a file. -/
structure Members.In (n : FileId) (m : Members) : Prop where
  fields : ∀ f ∈ m.fields, f.In n
  nested : ∀ item ∈ m.nested, item.In n

theorem Members.In.none : (⟨[], []⟩ : Members).In n :=
  ⟨fun _ hf => absurd hf List.not_mem_nil, fun _ hi => absurd hi List.not_mem_nil⟩

theorem Members.In.addItem {m : Members} (h : m.In n) {item : Item} (hitem : item.In n) :
    ({ m with nested := item :: m.nested } : Members).In n :=
  ⟨h.fields, List.forall_mem_cons.2 ⟨hitem, h.nested⟩⟩

theorem Members.In.addField {m : Members} (h : m.In n) {field : Option Field}
    (hfield : ∀ f ∈ field, f.In n) :
    ({ m with fields := field.toList ++ m.fields } : Members).In n := by
  refine ⟨fun f hf => ?_, h.nested⟩
  rcases List.mem_append.1 hf with hf | hf
  · exact hfield f (Option.mem_toList.1 hf)
  · exact h.fields f hf

/-! ### Tokens -/

/-- Whether all tokens and errors are in a file, and there are tokens. -/
structure Lexed.In (n : FileId) (l : Lexed) : Prop where
  some : l.tokens ≠ []
  tokens : ∀ t ∈ l.tokens, t.span.file = n
  errors : ∀ d ∈ l.errors, d.span.file = n

theorem Lexed.In.addError {l : Lexed} (h : l.In n) {d : Diagnostic} (hd : d.span.file = n) :
    (l.addError d).In n :=
  ⟨h.some, h.tokens, List.forall_mem_cons.2 ⟨hd, h.errors⟩⟩

theorem Lexed.In.addToken {l : Lexed} (h : l.In n) {t : Token} (ht : t.span.file = n) :
    (l.addToken t).In n :=
  ⟨List.cons_ne_nil _ _, List.forall_mem_cons.2 ⟨ht, h.tokens⟩, h.errors⟩

theorem in_lexFrom (n : FileId) (pos : Nat) (cs : List Char) : (lexFrom n pos cs).In n := by
  fun_induction lexFrom n pos cs with
  | case1 pos =>
    exact ⟨List.cons_ne_nil _ _, List.forall_mem_cons.2 ⟨rfl, fun _ ht => absurd ht List.not_mem_nil⟩,
      fun _ hd => absurd hd List.not_mem_nil⟩
  | case2 pos c cs hspace ih => exact ih
  | case3 pos c cs hspace hline ih => exact ih
  | case4 pos c cs hspace hline hblock comment rest hsplit ih => exact ih
  | case5 pos c cs hspace hline hblock hsplit stop ih => exact ih.addError rfl
  | case6 pos c cs hspace hline hblock cut span following flaw hflaw ih =>
    exact (ih.addToken rfl).addError rfl
  | case7 pos c cs hspace hline hblock cut span following hflaw ih => exact ih.addToken rfl

/-! ### Steps that stay in a file -/

/-- Whether a cursor is in a file, with all that it has complained about. -/
structure Cursor.In (n : FileId) (s : Cursor) : Prop where
  tokens : ∀ t ∈ s.rest, t.span.file = n
  previous : ∀ p ∈ s.previous, p.file = n
  here : s.span.file = n
  errors : ∀ d ∈ s.errors, d.span.file = n

namespace Cursor.In

variable {s : Cursor}

theorem report (h : s.In n) {d : Diagnostic} (hd : d.span.file = n) : (s.report d).In n :=
  ⟨h.tokens, h.previous, h.here, List.forall_mem_cons.2 ⟨hd, h.errors⟩⟩

theorem advance (h : s.In n) : s.advance.In n := by
  unfold Cursor.advance
  split
  · rename_i t ts hrest
    have htokens := h.tokens
    rw [hrest] at htokens
    obtain ⟨ht, hts⟩ := List.forall_mem_cons.1 htokens
    split
    · exact h
    · refine ⟨hts, fun p hp => ?_, ?_, h.errors⟩
      · cases hp
        exact ht
      · cases ts with
        | nil => exact ht
        | cons t' ts => exact hts t' List.mem_cons_self
  · exact h

theorem skipStatement (h : s.In n) : s.skipStatement.In n := by
  fun_induction Cursor.skipStatement s with
  | case1 s hend => exact h
  | case2 s hend hsemicolon => exact h.advance
  | case3 s hend hsemicolon ih => exact ih h.advance

end Cursor.In

theorem Lexed.In.start {l : Lexed} (h : l.In n) : (Cursor.start l.tokens).In n := by
  refine ⟨h.tokens, fun p hp => (by cases hp), ?_, fun d hd => absurd hd List.not_mem_nil⟩
  cases htokens : l.tokens with
  | nil => exact absurd htokens h.some
  | cons t ts => exact h.tokens t (htokens ▸ List.mem_cons_self)

/-- Whether a step stays in a file and gives a result with a property. -/
def Stays {α : Type} (n : FileId) (f : Step α) (Q : α → Prop) : Prop :=
  ∀ s : Cursor, s.In n → Q (f s).1 ∧ (f s).2.In n

variable {α β : Type} {Q R : α → Prop}

theorem stays_pure {a : α} (h : Q a) : Stays n (pure a) Q := fun _ hs => ⟨h, hs⟩

theorem stays_bind {f : Step α} {k : α → Step β} {Q' : β → Prop} (hf : Stays n f Q)
    (hk : ∀ a, Q a → Stays n (k a) Q') : Stays n (f >>= k) Q' := fun s hs =>
  hk _ (hf s hs).1 _ (hf s hs).2

theorem stays_get : Stays n (get : Step Cursor) (Cursor.In n) := fun _ hs => ⟨hs, hs⟩

theorem stays_modify {f : Cursor → Cursor} (h : ∀ s : Cursor, s.In n → (f s).In n) :
    Stays n (modify f : Step Unit) fun _ => True := fun s hs => ⟨trivial, h s hs⟩

theorem stays_advance : Stays n (modify Cursor.advance : Step Unit) fun _ => True :=
  stays_modify fun _ hs => hs.advance

theorem stays_report {d : Diagnostic} (h : d.span.file = n) :
    Stays n (modify (Cursor.report d) : Step Unit) fun _ => True :=
  stays_modify fun _ hs => hs.report h

/-! ### Single tokens -/

theorem stays_complain (what : String) : Stays n (complain what) fun _ => True := by
  refine stays_modify fun s hs => ?_
  split
  · exact hs
  · exact hs.report hs.here

theorem stays_recover : Stays n recover fun _ => True := stays_modify fun _ hs => hs.skipStatement

theorem stays_giveUp {Q : Option α → Prop} (h : Q none) : Stays n giveUp Q :=
  stays_bind stays_recover fun _ _ => stays_pure h

theorem stays_eat (kind : TokenKind) : Stays n (eat kind) fun _ => True := by
  refine stays_bind stays_get fun s _ => ?_
  split
  · exact stays_bind stays_advance fun _ _ => stays_pure trivial
  · exact stays_pure trivial

theorem stays_expect (kind : TokenKind) : Stays n (expect kind) fun _ => True := by
  refine stays_bind (stays_eat kind) fun there _ => ?_
  cases there with
  | true => exact stays_pure trivial
  | false => exact stays_bind (stays_complain _) fun _ _ => stays_pure trivial

theorem stays_expectName : Stays n expectName fun name => ∀ p ∈ name, p.2.file = n := by
  refine stays_bind stays_get fun s hs => ?_
  split
  · refine stays_bind stays_advance fun _ _ => stays_pure fun p hp => ?_
    cases hp
    exact hs.here
  · exact stays_bind (stays_complain _) fun _ _ => stays_pure fun p hp => by cases hp

theorem stays_expectString : Stays n expectString fun _ => True := by
  refine stays_bind stays_get fun s _ => ?_
  split
  · exact stays_bind stays_advance fun _ _ => stays_pure trivial
  · exact stays_bind (stays_complain _) fun _ _ => stays_pure trivial

theorem stays_declaredName : Stays n declaredName fun _ => True := by
  refine stays_bind stays_expectName fun name _ => ?_
  cases name with
  | some name => exact stays_pure trivial
  | none => exact stays_bind stays_get fun _ _ => stays_pure trivial

theorem stays_spanFrom {start : Span} (h : start.file = n) :
    Stays n (spanFrom start) fun span => span.file = n :=
  stays_bind stays_get fun _ _ => stays_pure ((Span.file_hull start _).trans h)

theorem stays_parseInteger : Stays n parseInteger fun _ => True := by
  refine stays_bind stays_get fun start hstart => ?_
  refine stays_bind (stays_eat .minus) fun negative _ => ?_
  refine stays_bind stays_get fun s _ => ?_
  split
  · exact stays_bind (stays_complain _) fun _ _ => stays_pure trivial
  · refine stays_bind stays_advance fun _ _ => ?_
    split
    · exact stays_pure trivial
    · refine stays_bind (stays_spanFrom hstart.here) fun _ hspan => ?_
      exact stays_bind (stays_report hspan) fun _ _ => stays_pure trivial

/-! ### Names and types -/

theorem stays_dottedRest (name : String) : Stays n (dottedRest name) fun _ => True := by
  intro s hs
  fun_induction dottedRest name s with
  | case1 name s s₁ heat =>
    have h₁ := (stays_eat .dot s hs).2
    rw [heat] at h₁
    exact ⟨trivial, h₁⟩
  | case2 name s s₁ heat s₂ hname =>
    have h₁ := (stays_eat .dot s hs).2
    rw [heat] at h₁
    have h₂ := (stays_expectName s₁ h₁).2
    rw [hname] at h₂
    exact ⟨trivial, h₂⟩
  | case3 name s s₁ heat part span s₂ hname hlt ih =>
    have h₁ := (stays_eat .dot s hs).2
    rw [heat] at h₁
    have h₂ := (stays_expectName s₁ h₁).2
    rw [hname] at h₂
    exact ih h₂
  | case4 name s s₁ heat part span s₂ hname hlt =>
    have h₁ := (stays_eat .dot s hs).2
    rw [heat] at h₁
    have h₂ := (stays_expectName s₁ h₁).2
    rw [hname] at h₂
    exact ⟨trivial, h₂⟩

theorem stays_parseDottedName : Stays n parseDottedName fun _ => True := by
  refine stays_bind stays_expectName fun name _ => ?_
  cases name with
  | none => exact stays_pure trivial
  | some name => exact stays_dottedRest _

theorem span_typeOfName (name : String) (absolute : Bool) (span : Span) :
    (typeOfName name absolute span).span = span := by
  unfold typeOfName
  split
  · rfl
  · rfl

theorem stays_parseType : Stays n parseType fun type => ∀ t ∈ type, t.span.file = n := by
  refine stays_bind stays_get fun start hstart => ?_
  refine stays_bind (stays_eat .dot) fun absolute _ => ?_
  refine stays_bind stays_parseDottedName fun name _ => ?_
  cases name with
  | none => exact stays_pure fun t ht => by cases ht
  | some name =>
    refine stays_bind (stays_spanFrom hstart.here) fun span hspan => stays_pure fun t ht => ?_
    cases ht
    rw [span_typeOfName]
    exact hspan

/-! ### Statements without a body -/

theorem stays_parseSyntax :
    Stays n parseSyntax fun decl => ∀ d ∈ decl, d.span.file = n := by
  refine stays_bind stays_get fun start hstart => ?_
  refine stays_bind stays_advance fun _ _ => ?_
  refine stays_bind (stays_expect .equals) fun there _ => ?_
  have hnone : ∀ d ∈ (none : Option SyntaxDecl), d.span.file = n := fun d hd => by cases hd
  cases there with
  | false => exact stays_bind (f := giveUp) (stays_giveUp hnone) fun _ h => stays_pure h
  | true =>
    refine stays_bind stays_get fun value hvalue => ?_
    refine stays_bind stays_expectString fun text _ => ?_
    cases text with
    | none => exact stays_giveUp hnone
    | some text =>
      refine stays_bind (stays_expect .semicolon) fun _ _ => ?_
      have hend : Stays n (do return some ⟨text, ← spanFrom start.span⟩ : Step (Option SyntaxDecl))
          fun decl => ∀ d ∈ decl, d.span.file = n :=
        stays_bind (stays_spanFrom hstart.here) fun span hspan => stays_pure fun d hd => by
          cases hd
          exact hspan
      split
      · exact stays_bind (stays_report hvalue.here) fun _ _ => hend
      · exact hend

theorem stays_parsePackage :
    Stays n parsePackage fun decl => ∀ d ∈ decl, d.span.file = n := by
  refine stays_bind stays_get fun start hstart => ?_
  refine stays_bind stays_advance fun _ _ => ?_
  refine stays_bind stays_parseDottedName fun name _ => ?_
  cases name with
  | none => exact stays_giveUp fun d hd => by cases hd
  | some name =>
    refine stays_bind (stays_expect .semicolon) fun _ _ => ?_
    refine stays_bind (stays_spanFrom hstart.here) fun span hspan => stays_pure fun d hd => ?_
    cases hd
    exact hspan

theorem stays_parseImport : Stays n parseImport fun _ => True := by
  refine stays_bind stays_get fun start hstart => ?_
  refine stays_bind stays_advance fun _ _ => ?_
  refine stays_bind (stays_eat _) fun isPublic _ => ?_
  refine stays_bind stays_expectString fun path _ => ?_
  cases path with
  | none => exact stays_giveUp trivial
  | some path =>
    refine stays_bind (stays_expect .semicolon) fun _ _ => ?_
    exact stays_bind (stays_spanFrom hstart.here) fun _ _ => stays_pure trivial

/-! ### Fields and enum values -/

theorem stays_parseLabel : Stays n parseLabel fun _ => True := by
  refine stays_bind (stays_eat _) fun isRepeated _ => ?_
  cases isRepeated with
  | true => exact stays_pure trivial
  | false =>
    refine stays_bind (stays_eat _) fun isOptional _ => ?_
    cases isOptional with
    | true => exact stays_pure trivial
    | false => exact stays_pure trivial

theorem stays_parseFieldNumber : Stays n parseFieldNumber fun _ => True := by
  refine stays_bind stays_get fun start hstart => ?_
  refine stays_bind stays_parseInteger fun value _ => ?_
  cases value with
  | none => exact stays_pure trivial
  | some value =>
    simp only
    split
    · exact stays_pure trivial
    · exact stays_bind (stays_report hstart.here) fun _ _ => stays_pure trivial

theorem stays_parseField : Stays n parseField fun field => ∀ f ∈ field, f.In n := by
  have hnone : ∀ f ∈ (none : Option Field), f.In n := fun f hf => by cases hf
  refine stays_bind stays_get fun start hstart => ?_
  refine stays_bind stays_parseLabel fun label _ => ?_
  refine stays_bind stays_parseType fun type htype => ?_
  cases type with
  | none => exact stays_giveUp hnone
  | some type =>
    refine stays_bind stays_expectName fun name hname => ?_
    cases name with
    | none => exact stays_giveUp hnone
    | some name =>
      refine stays_bind (stays_expect .equals) fun there _ => ?_
      cases there with
      | false => exact stays_bind (f := giveUp) (stays_giveUp hnone) fun _ h => stays_pure h
      | true =>
        refine stays_bind stays_get fun numberAt hnumberAt => ?_
        refine stays_bind stays_parseFieldNumber fun number _ => ?_
        cases number with
        | none => exact stays_giveUp hnone
        | some number =>
          refine stays_bind (stays_expect .semicolon) fun _ _ => ?_
          refine stays_bind (stays_spanFrom hstart.here) fun span _ => stays_pure fun f hf => ?_
          cases hf
          exact ⟨htype type rfl, hname name rfl, hnumberAt.here⟩

theorem stays_parseEnumNumber : Stays n parseEnumNumber fun _ => True := by
  refine stays_bind stays_get fun start hstart => ?_
  refine stays_bind stays_parseInteger fun value _ => ?_
  cases value with
  | none => exact stays_pure trivial
  | some value =>
    simp only
    split
    · exact stays_pure trivial
    · exact stays_bind (stays_report hstart.here) fun _ _ => stays_pure trivial

theorem stays_parseEnumValue : Stays n parseEnumValue fun _ => True := by
  refine stays_bind stays_get fun start hstart => ?_
  refine stays_bind stays_expectName fun name _ => ?_
  cases name with
  | none => exact stays_giveUp trivial
  | some name =>
    refine stays_bind (stays_expect .equals) fun there _ => ?_
    cases there with
    | false => exact stays_bind (f := giveUp) (stays_giveUp (Q := fun _ => True) trivial) fun _ _ => stays_pure trivial
    | true =>
      refine stays_bind stays_parseEnumNumber fun number _ => ?_
      cases number with
      | none => exact stays_giveUp trivial
      | some number =>
        refine stays_bind (stays_expect .semicolon) fun _ _ => ?_
        exact stays_bind (stays_spanFrom hstart.here) fun _ _ => stays_pure trivial

/-! ### Bodies -/

/-- A step that is made again, as long as it takes tokens. -/
theorem stays_repeatedly {step : Step α} {next : α → Step β} {stop : α → β} {P : β → Prop}
    {s : Cursor} (hs : s.In n) (hstep : Stays n step Q) (hstop : ∀ a, Q a → P (stop a))
    (hnext : ∀ a (s₁ : Cursor), s₁.left < s.left → Q a → s₁.In n →
      P (next a s₁).1 ∧ (next a s₁).2.In n) :
    P (repeatedly step next stop s).1 ∧ (repeatedly step next stop s).2.In n := by
  obtain ⟨ha, hs₁⟩ := hstep s hs
  unfold repeatedly
  split
  · rename_i hlt
    exact hnext _ _ hlt ha hs₁
  · exact ⟨hstop _ ha, hs₁⟩

theorem stays_enumMember : Stays n enumMember fun _ => True := by
  intro s hs
  unfold enumMember
  split
  · exact ⟨trivial, hs.advance⟩
  · exact stays_parseEnumValue s hs

theorem stays_enumBody (values : List EnumValue) : Stays n (enumBody values) fun _ => True := by
  intro s hs
  induction hleft : s.left using Nat.strongRecOn generalizing values s with
  | ind left ih =>
    rw [enumBody_eq]
    split
    · exact ⟨trivial, hs⟩
    · exact stays_repeatedly (P := fun _ => True) hs stays_enumMember (fun _ _ => trivial)
        fun value s₁ hlt _ hs₁ => ih s₁.left (hleft ▸ hlt) _ s₁ hs₁ rfl

theorem stays_parseEnum : Stays n parseEnum fun _ => True := by
  refine stays_bind stays_get fun start hstart => ?_
  refine stays_bind stays_advance fun _ _ => ?_
  refine stays_bind stays_declaredName fun name _ => ?_
  refine stays_bind (stays_expect .openBrace) fun there _ => ?_
  cases there with
  | true =>
    refine stays_bind (stays_enumBody []) fun values _ => ?_
    refine stays_bind (stays_expect .closeBrace) fun _ _ => ?_
    exact stays_bind (stays_spanFrom hstart.here) fun _ _ => stays_pure trivial
  | false =>
    refine stays_bind stays_recover fun _ _ => ?_
    exact stays_bind (stays_spanFrom hstart.here) fun _ _ => stays_pure trivial

theorem in_memberStep {message : Item × Cursor} {members : Members} {s : Cursor} (hs : s.In n)
    (hmembers : members.In n) (hitem : message.1.In n) (hend : message.2.In n) :
    (memberStep message members s).1.In n ∧ (memberStep message members s).2.In n := by
  unfold memberStep
  split
  · exact ⟨hmembers.addItem hitem, hend⟩
  · split
    · exact ⟨hmembers.addItem (.enumeration _), (stays_parseEnum s hs).2⟩
    · split
      · exact ⟨hmembers, hs.advance⟩
      · obtain ⟨hfield, hend⟩ := stays_parseField s hs
        exact ⟨hmembers.addField hfield, hend⟩

theorem in_closedMessage {name : String × Span} {start : Span} {body : Members × Cursor}
    (hstart : start.file = n) (hmembers : body.1.In n) (hend : body.2.In n) :
    (closedMessage name start body).1.In n ∧ (closedMessage name start body).2.In n := by
  have hclose : Stays n (do let _ ← expect .closeBrace; spanFrom start : Step Span) fun _ => True :=
    stays_bind (stays_expect .closeBrace) fun _ _ s hs => ⟨trivial, (stays_spanFrom hstart s hs).2⟩
  refine ⟨.message (fun f hf => ?_) (fun item hitem => ?_), (hclose _ hend).2⟩
  · exact hmembers.fields f (List.mem_reverse.1 hf)
  · exact hmembers.nested item (List.mem_reverse.1 hitem)

mutual

theorem stays_parseMessage (s : Cursor) (hs : s.In n) :
    (parseMessage s).1.In n ∧ (parseMessage s).2.In n := by
  rcases hname : declaredName s.advance with ⟨name, s₁⟩
  rcases hopen : expect .openBrace s₁ with ⟨there, s₂⟩
  have h₁ := (stays_declaredName s.advance hs.advance).2
  rw [hname] at h₁
  have h₂ := (stays_expect .openBrace s₁ h₁).2
  rw [hopen] at h₂
  rw [parseMessage_of hname hopen]
  split
  · have hbody : (bodyAfter s s₂).1.In n ∧ (bodyAfter s s₂).2.In n := by
      unfold bodyAfter
      split
      · exact stays_messageBody ⟨[], []⟩ s₂ h₂ .none
      · exact ⟨.none, h₂⟩
    exact in_closedMessage hs.here hbody.1 hbody.2
  · have hend : Stays n (do recover; spanFrom s.span : Step Span) fun _ => True :=
      stays_bind stays_recover fun _ _ s' hs' => ⟨trivial, (stays_spanFrom hs.here s' hs').2⟩
    exact ⟨.message (fun _ hf => absurd hf List.not_mem_nil)
      (fun _ hitem => absurd hitem List.not_mem_nil), (hend s₂ h₂).2⟩
termination_by (s.left, 0)

theorem stays_messageBody (members : Members) (s : Cursor) (hs : s.In n)
    (hmembers : members.In n) :
    (messageBody members s).1.In n ∧ (messageBody members s).2.In n := by
  obtain ⟨hitem, hend⟩ := stays_parseMessage s hs
  have hstep := in_memberStep hs hmembers hitem hend
  rw [messageBody_eq]
  split
  · exact ⟨hmembers, hs⟩
  · simp only
    split
    · exact stays_messageBody _ _ hstep.2 hstep.1
    · exact hstep
termination_by (s.left, 1)

end

/-! ### Files -/

/-- Whether the places of all fields that a file declares have the number of a file. -/
def File.In (n : FileId) (file : File) : Prop := ∀ item ∈ file.items, item.In n

theorem stays_fileSyntax (first : Bool) {file : File} (hfile : file.In n) :
    Stays n (fileSyntax first file) (File.In n) := by
  refine stays_bind stays_parseSyntax fun decl hdecl => ?_
  cases decl with
  | none => exact stays_pure hfile
  | some decl =>
    simp only
    split
    · exact stays_pure hfile
    · exact stays_bind (stays_report (hdecl decl rfl)) fun _ _ => stays_pure hfile

theorem stays_filePackage {file : File} (hfile : file.In n) :
    Stays n (filePackage file) (File.In n) := by
  refine stays_bind stays_parsePackage fun decl hdecl => ?_
  cases decl with
  | none => exact stays_pure hfile
  | some decl =>
    cases hpackage : file.package with
    | none =>
      simp only
      exact stays_pure hfile
    | some earlier =>
      simp only
      exact stays_bind (stays_report (hdecl decl rfl)) fun _ _ => stays_pure hfile

theorem stays_skipStray : Stays n skipStray fun _ => True := by
  refine stays_bind (stays_complain _) fun _ _ => ?_
  refine stays_bind stays_advance fun _ _ => ?_
  refine stays_bind stays_recover fun _ _ => ?_
  exact stays_bind (stays_eat .closeBrace) fun _ _ => stays_pure trivial

theorem File.In.addItem {file : File} (h : file.In n) {item : Item} (hitem : item.In n) :
    ({ file with items := item :: file.items } : File).In n :=
  List.forall_mem_cons.2 ⟨hitem, h⟩

theorem stays_statement (first : Bool) {file : File} (hfile : file.In n) :
    Stays n (statement first file) (File.In n) := by
  refine stays_bind stays_get fun s _ => ?_
  split
  · exact stays_fileSyntax first hfile
  · exact stays_filePackage hfile
  · exact stays_bind stays_parseImport fun _ _ => stays_pure hfile
  · have hmessage : Stays n parseMessage (Item.In n) := stays_parseMessage
    exact stays_bind hmessage fun _ hitem => stays_pure (hfile.addItem hitem)
  · exact stays_bind stays_parseEnum fun _ _ => stays_pure (hfile.addItem (.enumeration _))
  · exact stays_bind stays_advance fun _ _ => stays_pure hfile
  · exact stays_bind stays_skipStray fun _ _ => stays_pure hfile

theorem stays_statements (first : Bool) {file : File} (hfile : file.In n) :
    Stays n (statements first file) (File.In n) := by
  intro s hs
  induction hleft : s.left using Nat.strongRecOn generalizing first file s with
  | ind left ih =>
    rw [statements_eq]
    split
    · exact ⟨hfile, hs⟩
    · exact stays_repeatedly hs (stays_statement first hfile) (fun _ h => h)
        fun next s₁ hlt hnext hs₁ => ih s₁.left (hleft ▸ hlt) false hnext s₁ hs₁ rfl

/-- Whether what a file is read to is in that file: all that is complained about, and the fields. -/
structure Parsed.In (n : FileId) (p : Parsed) : Prop where
  errors : ∀ d ∈ p.errors, d.span.file = n
  file : p.file.In n

theorem in_parse (n : FileId) (text : String) : (parse n text).In n := by
  have hlexed := in_lexFrom n 0 text.toList
  have hempty (span : Span) : File.In n ⟨none, none, [], [], span⟩ :=
    fun _ hitem => absurd hitem List.not_mem_nil
  obtain ⟨hfile, hend⟩ := stays_statements true (hempty _) _ hlexed.start
  refine ⟨fun d hd => ?_, fun item hitem => ?_⟩
  · rcases List.mem_append.1 hd with hd | hd
    · exact hlexed.errors d hd
    · exact hend.errors d (List.mem_reverse.1 hd)
  · exact hfile item (List.mem_reverse.1 hitem)

end Schemata.Schema

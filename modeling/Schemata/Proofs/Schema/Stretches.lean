import Schemata.Proofs.Schema.Places
import Schemata.Proofs.Schema.Progress

/-!
# The tokens that spans cover

Reading notes a span by its first token and by the token that was taken last. So what is read
without a complaint has the form of the grammar with its places: each declaration covers its tokens,
and what it consists of covers parts of them, one after the other.
-/

namespace Schemata.Schema

open Source

variable {α β : Type} {s s' s₁ s₂ : Cursor} {ts us : List Token} {span : Span}

/-! ### Spans over tokens -/

/-- Whether a span goes from the first of some tokens to the last. -/
def Covers (span : Span) (ts : List Token) : Prop :=
  ∃ first last, ts.head? = some first ∧ ts.getLast? = some last ∧ span = first.span.hull last.span

theorem Covers.ne_nil (h : Covers span ts) : ts ≠ [] := by
  obtain ⟨first, _, hfirst, _⟩ := h
  rintro rfl
  cases hfirst

/-- Whether spans cover parts of some tokens, one after the other. -/
inductive SpansOver : List Token → List Span → Prop
  | nil : SpansOver [] []
  | skip {us ts : List Token} {spans : List Span} (h : SpansOver ts spans) :
      SpansOver (us ++ ts) spans
  | cons {us ts : List Token} {span : Span} {spans : List Span} (hspan : Covers span us)
      (h : SpansOver ts spans) : SpansOver (us ++ ts) (span :: spans)

/-! ### The grammar with its places -/

/-- Whether a name is that of a token, at its place. -/
structure NamedBy (t : Token) (name : String) (span : Span) : Prop where
  kind : t.kind.isName = true
  name : name = t.text
  span : span = t.span

/-- Whether a field covers tokens, and its type, its name and its number stand among them in this
order. -/
structure FieldOver (ts : List Token) (f : Field) : Prop where
  span : Covers f.span ts
  parts : ∃ before types name between number after,
    ts = before ++ types ++ name :: (between ++ number :: after) ∧ Covers f.type.span types ∧
      NamedBy name f.name f.nameSpan ∧ f.numberSpan = number.span

/-- Whether an enum covers tokens, with its name and its values in this order among them. -/
structure EnumOver (ts : List Token) (d : EnumDecl) : Prop where
  span : Covers d.span ts
  parts : ∃ word name opening body closing, ts = word :: name :: opening :: (body ++ [closing]) ∧
    NamedBy name d.name d.nameSpan ∧ SpansOver body (d.values.map EnumValue.span)

mutual

/-- Whether a declared type covers tokens, with its name and its members among them. -/
inductive ItemOver : List Token → Item → Prop
  | message {word name opening closing : Token} {body : List Token} {decl : MessageDecl}
      {nested : List Item} (hname : NamedBy name decl.name decl.nameSpan)
      (hbody : BodyOver body decl.fields nested)
      (hspan : Covers decl.span (word :: name :: opening :: (body ++ [closing]))) :
      ItemOver (word :: name :: opening :: (body ++ [closing])) (.message decl nested)
  | enumeration {ts : List Token} {decl : EnumDecl} (h : EnumOver ts decl) :
      ItemOver ts (.enumeration decl)

/-- Whether fields and declared types cover parts of some tokens, one after the other. -/
inductive BodyOver : List Token → List Field → List Item → Prop
  | nil : BodyOver [] [] []
  | empty (t : Token) {ts : List Token} {fields : List Field} {nested : List Item}
      (h : BodyOver ts fields nested) : BodyOver (t :: ts) fields nested
  | field {us ts : List Token} {field : Field} {fields : List Field} {nested : List Item}
      (hfield : FieldOver us field) (h : BodyOver ts fields nested) :
      BodyOver (us ++ ts) (field :: fields) nested
  | item {us ts : List Token} {item : Item} {fields : List Field} {nested : List Item}
      (hitem : ItemOver us item) (h : BodyOver ts fields nested) :
      BodyOver (us ++ ts) fields (item :: nested)

end

/-! ### Tokens that are taken -/

/-- On the way from one cursor to another tokens are taken, and the other cursor knows the last of
them. -/
theorem Cursor.Moves.taken (h : s.Moves s') :
    ∃ ts, s.rest = ts ++ s'.rest ∧
      s'.previous = (ts.getLast?.map Token.span).or s.previous := by
  induction h with
  | refl => exact ⟨[], rfl, rfl⟩
  | @advance s' _ ih =>
    obtain ⟨ts, hrest, hprevious⟩ := ih
    unfold Cursor.advance
    split
    · rename_i t us hcons
      split
      · exact ⟨ts, hrest, hprevious⟩
      · refine ⟨ts ++ [t], ?_, by rw [List.getLast?_concat]; rfl⟩
        rw [List.append_assoc]
        exact hrest.trans (congrArg (ts ++ ·) hcons)
    · exact ⟨ts, hrest, hprevious⟩
  | report _ _ ih => exact ih

theorem previous_of_moves {t : Token} (h : s.Moves s') (hrest : s.rest = ts ++ [t] ++ s'.rest) :
    s'.previous = some t.span := by
  obtain ⟨us, hus, hprevious⟩ := h.taken
  obtain rfl : us = ts ++ [t] := List.append_cancel_right (hus.symm.trans hrest)
  rw [hprevious, List.getLast?_concat]
  rfl

theorem span_of_rest {t : Token} (h : s.rest = t :: ts) : s.span = t.span := by
  unfold Cursor.span
  rw [h]

/-- From where a stretch of tokens starts to the last token that is taken. -/
theorem covers_of_moves (h : s.Moves s') (hrest : s.rest = ts ++ s'.rest) (hts : ts ≠ []) :
    Covers (s.span.hull s'.previousSpan) ts := by
  obtain ⟨before, last, hlast⟩ := (List.eq_nil_or_concat ts).resolve_left hts
  rw [List.concat_eq_append] at hlast
  obtain ⟨first, after, rfl⟩ := List.exists_cons_of_ne_nil hts
  have hprevious : s'.previous = some last.span := previous_of_moves h (hlast ▸ hrest)
  refine ⟨first, last, rfl, ?_, ?_⟩
  · rw [hlast, List.getLast?_concat]
  · rw [span_of_rest (hrest.trans (List.cons_append ..)), Cursor.previousSpan, hprevious]
    rfl

/-- Where the last of the tokens is one that is expected. -/
theorem covers_expect {start : Cursor} {kind : TokenKind} {there : Bool} {closing : Token}
    (hexpect : expect kind s₁ = (there, s₂)) (hclosing : s₁.rest = [closing] ++ s₂.rest)
    (hmoves : start.Moves s₁) (hrest : start.rest = ts ++ s₁.rest) :
    Covers (start.span.hull s₂.previousSpan) (ts ++ [closing]) := by
  refine covers_of_moves (hmoves.trans ((moving_expect _).of_eq hexpect)) ?_ (by simp)
  rw [hrest, hclosing, List.append_assoc]

/-! ### Single tokens -/

theorem over_advance (h : s.kind ≠ .endOfFile) :
    s.Reads (modify Cursor.advance) fun ts _ =>
      ∃ t, ts = [t] ∧ t.kind = s.kind ∧ t.text = s.text ∧ t.span = s.span := by
  refine ⟨before_advance s, fun _ _ => ?_⟩
  obtain ⟨t, hrest, hkind, htext⟩ := exists_token rfl h
  exact ⟨[t], hrest, t, rfl, hkind, htext.symm, (span_of_rest hrest).symm⟩

theorem over_expectName :
    s.Reads expectName fun ts name =>
      ∃ t name' span, ts = [t] ∧ name = some (name', span) ∧ NamedBy t name' span := by
  refine reads_get ?_
  split
  · rename_i hs
    have hend : s.kind ≠ .endOfFile := by
      intro hend
      rw [hend] at hs
      cases hs
    refine reads_bind (over_advance hend) fun _ _ _ => reads_pure fun ts _ ht => ?_
    obtain ⟨t, rfl, hkind, htext, hspan⟩ := ht
    exact ⟨t, s.text, s.span, rfl, rfl, hkind ▸ hs, htext.symm, hspan.symm⟩
  · exact reads_bind (reads_complain _) fun _ _ _ => reads_pure fun _ _ h => False.elim h

theorem over_declaredName :
    s.Reads declaredName fun ts name => ∃ t, ts = [t] ∧ NamedBy t name.1 name.2 := by
  refine reads_bind over_expectName fun name _ _ => ?_
  cases name with
  | none => exact reads_get (reads_pure (by simp))
  | some name =>
    refine reads_pure fun ts _ ⟨t, _, _, hts, hname, hnamed⟩ => ⟨t, by simpa using hts, ?_⟩
    cases hname
    exact hnamed

theorem over_spanFrom (start : Span) :
    s.Reads (spanFrom start) fun ts span => ts = [] ∧ span = start.hull s.previousSpan :=
  reads_get (reads_pure ⟨rfl, rfl⟩)

/-- A statement that ends with a token that is expected covers what it has taken up to there. -/
theorem over_closed {start : Cursor} {kind : TokenKind} {g : Span → β}
    (hkind : kind ≠ .endOfFile) (hmoves : start.Moves s) :
    s.Reads (do let _ ← expect kind; return g (← spanFrom start.span)) fun us b =>
      ∃ closing span, us = [closing] ∧ b = g span ∧
        ∀ ts, start.rest = ts ++ s.rest → Covers span (ts ++ [closing]) := by
  refine reads_bind (reads_expect hkind) fun _ s₁ hexpect => ?_
  refine reads_bind (over_spanFrom _) fun span _ _ => reads_pure ?_
  rintro es _ ⟨hes, hspan⟩ cs hrest ⟨_, closing, hcs, _⟩
  refine ⟨closing, span, by rw [hes, hcs]; rfl, rfl, fun ts hts => ?_⟩
  rw [hspan]
  exact covers_expect hexpect (hcs ▸ hrest) hmoves hts

theorem IntegerForm.exists_cons {n : Int} (h : IntegerForm ts n) : ∃ t us, ts = t :: us := by
  cases h with
  | plain => exact ⟨_, _, rfl⟩
  | negative => exact ⟨_, _, rfl⟩

theorem DottedName.ne_nil {name : String} (h : DottedName ts name) : ts ≠ [] := by
  cases h with
  | single => exact List.cons_ne_nil _ _
  | dotted => simp

/-! ### Types, fields and enum values -/

theorem over_parseType :
    s.Reads parseType fun ts type => ∃ t, type = some t ∧ Covers t.span ts := by
  refine reads_get (reads_bind (reads_eat (by decide)) fun absolute s₁ hdot => ?_)
  refine reads_bind reads_parseDottedName fun name s₂ hname => ?_
  cases name with
  | none => exact reads_pure (by simp)
  | some name =>
    refine reads_bind (over_spanFrom _) fun span _ _ => reads_pure ?_
    rintro es _ ⟨hes, hspan⟩ parts hparts ⟨_, _, hdotted⟩ dots hdots _
    refine ⟨_, rfl, ?_⟩
    rw [span_typeOfName, hspan, hes, List.append_nil, List.append_nil]
    have hmoves := ((moving_eat _).of_eq hdot).trans (moving_parseDottedName.of_eq hname)
    refine covers_of_moves hmoves ?_ (by simp [hdotted.ne_nil])
    rw [hdots, hparts, List.append_assoc]

theorem over_parseField :
    s.Reads parseField fun ts field => ∃ f, field = some f ∧ FieldOver ts f := by
  refine reads_get (reads_bind reads_parseLabel fun label s₁ hlabel => ?_)
  refine reads_bind over_parseType fun type s₂ htype => ?_
  cases type with
  | none => exact reads_giveUp (by simp)
  | some type =>
    refine reads_bind over_expectName fun name s₃ hname => ?_
    cases name with
    | none => exact reads_giveUp (by simp)
    | some name =>
      refine reads_bind (reads_expect (by decide)) fun there s₄ hequals => ?_
      refine reads_unless (by simp +contextual) fun _ => ?_
      refine reads_get (reads_bind reads_parseFieldNumber fun number s₅ hnumber => ?_)
      cases number with
      | none => exact reads_giveUp (by simp)
      | some number =>
        have hmoves : s.Moves s₅ :=
          ((((moving_parseLabel.of_eq hlabel).trans (moving_parseType.of_eq htype)).trans
            (moving_expectName.of_eq hname)).trans ((moving_expect _).of_eq hequals)).trans
            (moving_parseFieldNumber.of_eq hnumber)
        -- each step's facts are about the tokens before the next step, so the last come first
        refine (over_closed (by decide) hmoves).mono ?_
        rintro us result ⟨semi, span, hsemi, hresult, hcovers⟩ ns hrest₄ ⟨_, _, hform, _⟩
          eqs hrest₃ ⟨_, eq, heqs, _⟩ names hrest₂ ⟨nameToken, _, _, hnames, hnamed, hplace⟩
          types hrest₁ ⟨_, htyped, htypes⟩ labels hrest₀ _
        cases htyped
        cases hnamed
        obtain ⟨first, more, rfl⟩ := hform.exists_cons
        have hrest : s.rest = labels ++ types ++ names ++ eqs ++ (first :: more) ++ s₅.rest := by
          rw [hrest₀, hrest₁, hrest₂, hrest₃, hrest₄]
          simp only [List.append_assoc]
        refine ⟨_, hresult, ⟨?_, labels, types, nameToken, [eq], first, more ++ [semi], ?_, htypes,
          hplace, span_of_rest hrest₄⟩⟩
        · simpa only [hsemi, List.append_assoc] using hcovers _ hrest
        · rw [hsemi, hnames, heqs]
          simp only [List.append_assoc, List.cons_append, List.nil_append]

theorem over_parseEnumValue :
    s.Reads parseEnumValue fun ts value => ∃ v, value = some v ∧ Covers v.span ts := by
  refine reads_get (reads_bind over_expectName fun name s₁ hname => ?_)
  cases name with
  | none => exact reads_giveUp (by simp)
  | some name =>
    refine reads_bind (reads_expect (by decide)) fun there s₂ hequals => ?_
    refine reads_unless (by simp +contextual) fun _ => ?_
    refine reads_bind reads_parseEnumNumber fun number s₃ hnumber => ?_
    cases number with
    | none => exact reads_giveUp (by simp)
    | some number =>
      have hmoves : s.Moves s₃ :=
        ((moving_expectName.of_eq hname).trans ((moving_expect _).of_eq hequals)).trans
          (moving_parseEnumNumber.of_eq hnumber)
      refine (over_closed (by decide) hmoves).mono ?_
      rintro us result ⟨semi, span, hsemi, hresult, hcovers⟩ ns hrest₂ _ eqs hrest₁ _
        names hrest₀ _
      have hrest : s.rest = names ++ eqs ++ ns ++ s₃.rest := by
        rw [hrest₀, hrest₁, hrest₂]
        simp only [List.append_assoc]
      exact ⟨_, hresult, by simpa only [hsemi, List.append_assoc] using hcovers _ hrest⟩

/-! ### Enums -/

theorem over_enumMember (hs : s.kind ≠ .endOfFile) :
    s.Reads enumMember fun ts value => ts ≠ [] ∧ ∀ v ∈ value, Covers v.span ts := by
  by_cases hsemicolon : s.kind = .semicolon
  · have hskip : s.Reads (modify Cursor.advance >>= fun _ => pure (none : Option EnumValue))
        fun ts value => ts ≠ [] ∧ ∀ v ∈ value, Covers v.span ts := by
      refine reads_bind (reads_advance hs) fun _ _ _ => reads_pure fun ts _ ⟨t, hts, _⟩ => ?_
      exact ⟨by simp [hts], by simp⟩
    exact hskip.congr (if_pos hsemicolon)
  · refine (over_parseEnumValue.mono fun ts value hvalue => ?_).congr (if_neg hsemicolon)
    obtain ⟨v, rfl, hv⟩ := hvalue
    refine ⟨hv.ne_nil, fun v' hv' => ?_⟩
    cases hv'
    exact hv

theorem over_enumBody (values : List EnumValue) (s : Cursor) :
    s.Reads (enumBody values) fun ts result =>
      ∃ more : List EnumValue, result = more.reverse ++ values ∧
        SpansOver ts (more.map EnumValue.span) := by
  induction hn : s.left using Nat.strongRecOn generalizing values s with
  | ind n ih =>
    by_cases hstop : s.atEnd ∨ s.kind = .closeBrace
    · have hnone : s.Reads (pure values : Step (List EnumValue)) fun ts result =>
          ∃ more : List EnumValue, result = more.reverse ++ values ∧
            SpansOver ts (more.map EnumValue.span) := reads_pure ⟨[], rfl, .nil⟩
      exact hnone.congr (by rw [enumBody_eq, if_pos hstop]; rfl)
    · refine Cursor.Reads.congr ?_ (by rw [enumBody_eq, if_neg hstop])
      refine reads_repeatedly (over_enumMember (kind_ne_of_not_stopped hstop).1)
        (fun _ _ h => h.1) fun value s₁ hlt => ?_
      refine (ih s₁.left (hn ▸ hlt) _ s₁ rfl).mono fun us result hus ts ⟨_, hvalue⟩ => ?_
      obtain ⟨more, hresult, hmore⟩ := hus
      cases value with
      | none => exact ⟨more, hresult, .skip hmore⟩
      | some v => exact ⟨v :: more, by simp [hresult], .cons (hvalue v rfl) hmore⟩

theorem over_parseEnum (hs : s.kind ≠ .endOfFile) : s.Reads parseEnum EnumOver := by
  refine reads_get (reads_bind (reads_advance hs) fun _ s₁ hadvance => ?_)
  refine reads_bind over_declaredName fun name s₂ hname => ?_
  refine reads_bind (reads_expect (by decide)) fun there s₃ hopen => ?_
  cases there with
  | true =>
    refine reads_bind (over_enumBody [] s₃) fun values s₄ hvalues => ?_
    cases hadvance
    have hmoves : s.Moves s₄ :=
      (moves_opening hname hopen).trans ((moving_enumBody []).of_eq hvalues)
    refine (over_closed (by decide) hmoves).mono ?_
    rintro us result ⟨closing, span, rfl, rfl, hcovers⟩ body hrest₃ ⟨more, hmore, hbody⟩
      os hrest₂ ⟨_, opening, rfl, _⟩ names hrest₁ ⟨nameToken, rfl, hnamed⟩
      words hrest₀ ⟨word, rfl, _⟩
    have hrest : s.rest = word :: nameToken :: opening :: body ++ s₄.rest := by
      rw [hrest₀, hrest₁, hrest₂, hrest₃]
      rfl
    refine ⟨hcovers _ hrest, word, nameToken, opening, body, closing, rfl, hnamed, ?_⟩
    simpa [hmore] using hbody
  | false =>
    refine reads_bind reads_recover fun _ _ _ => ?_
    refine reads_bind (reads_spanFrom _) fun span _ _ => reads_pure ?_
    simp

/-! ### Messages -/

/-- Whether tokens stand for what is added to the members of a message, or for nothing. -/
inductive MemberOver (members : Members) : List Token → Members → Prop
  | empty (t : Token) : MemberOver members [t] members
  | field {ts : List Token} {field : Field} (h : FieldOver ts field) :
      MemberOver members ts { members with fields := field :: members.fields }
  | item {ts : List Token} {item : Item} (h : ItemOver ts item) :
      MemberOver members ts { members with nested := item :: members.nested }

theorem ItemOver.ne_nil {item : Item} (h : ItemOver ts item) : ts ≠ [] := by
  cases h with
  | message _ _ hspan => exact hspan.ne_nil
  | enumeration h => exact h.span.ne_nil

theorem MemberOver.ne_nil {members result : Members} (h : MemberOver members ts result) :
    ts ≠ [] := by
  cases h with
  | empty t => exact List.cons_ne_nil _ _
  | field h => exact h.span.ne_nil
  | item h => exact h.ne_nil

theorem over_messageMember (members : Members) (hs : s.kind ≠ .endOfFile)
    (hmessage : s.Reads parseMessage ItemOver) :
    s.Reads (messageMember members) (MemberOver members) := by
  by_cases hopens : s.kind = .keyword .messageWord ∧ s.opensDeclaration
  · have hadd : s.Reads (parseMessage >>= fun item =>
        pure { members with nested := item :: members.nested }) (MemberOver members) :=
      reads_bind hmessage fun item _ _ => reads_pure fun ts _ hts => by
        simpa using MemberOver.item hts
    exact hadd.congr (if_pos hopens)
  by_cases henum : s.kind = .keyword .enumWord ∧ s.opensDeclaration
  · have hadd : s.Reads (parseEnum >>= fun decl =>
        pure { members with nested := .enumeration decl :: members.nested }) (MemberOver members) :=
      reads_bind (over_parseEnum hs) fun decl _ _ => reads_pure fun ts _ hts => by
        simpa using MemberOver.item (.enumeration hts)
    exact hadd.congr ((if_neg hopens).trans (if_pos henum))
  by_cases hsemicolon : s.kind = .semicolon
  · have hskip : s.Reads (modify Cursor.advance >>= fun _ => pure members)
        (MemberOver members) := by
      refine reads_bind (reads_advance hs) fun _ _ _ => reads_pure fun ts _ ⟨t, hts, _⟩ => ?_
      rw [hts]
      exact .empty t
    exact hskip.congr ((if_neg hopens).trans ((if_neg henum).trans (if_pos hsemicolon)))
  · have hadd : s.Reads (parseField >>= fun field =>
        pure { members with fields := field.toList ++ members.fields }) (MemberOver members) := by
      refine reads_bind over_parseField fun field _ _ => reads_pure fun ts _ ⟨f, hf, hts⟩ => ?_
      rw [hf]
      simpa using MemberOver.field hts
    exact hadd.congr ((if_neg hopens).trans ((if_neg henum).trans (if_neg hsemicolon)))

mutual

theorem over_parseMessage (s : Cursor) (hs : s.kind ≠ .endOfFile) :
    s.Reads parseMessage ItemOver := by
  refine Cursor.Reads.congr ?_ (parseMessage_eq hs)
  refine reads_get (reads_bind (reads_advance hs) fun _ s₁ hadvance => ?_)
  refine reads_bind over_declaredName fun name s₂ hname => ?_
  refine reads_bind (reads_expect (by decide)) fun there s₃ hopen => ?_
  cases hadvance
  cases there with
  | true =>
    have hlt : s₃.left < s.left := left_lt_of_opening hs hname hopen
    refine reads_bind (over_messageBody ⟨[], []⟩ s₃) fun members s₄ hmembers => ?_
    have hmoves : s.Moves s₄ := by
      have hrun := (run_messageBody ⟨[], []⟩ s₃).moves
      rw [hmembers] at hrun
      exact (moves_opening hname hopen).trans hrun
    refine (over_closed (by decide) hmoves).mono ?_
    rintro us result ⟨closing, span, rfl, rfl, hcovers⟩
      body hrest₃ ⟨fields, nested, hfields, hnested, hbody⟩
      os hrest₂ ⟨_, opening, rfl, _⟩ names hrest₁ ⟨nameToken, rfl, hnamed⟩
      words hrest₀ ⟨word, rfl, _⟩
    have hrest : s.rest = word :: nameToken :: opening :: body ++ s₄.rest := by
      rw [hrest₀, hrest₁, hrest₂, hrest₃]
      rfl
    have hitem : ItemOver _ (.message ⟨name.1, name.2, fields, span⟩ nested) :=
      .message hnamed hbody (hcovers _ hrest)
    simpa [hfields, hnested] using hitem
  | false =>
    refine reads_bind reads_recover fun _ _ _ => ?_
    refine reads_bind (reads_spanFrom _) fun span _ _ => reads_pure ?_
    simp
termination_by (s.left, 0)
decreasing_by exact Prod.Lex.left _ _ hlt

theorem over_messageBody (members : Members) (s : Cursor) :
    s.Reads (messageBody members) fun ts result =>
      ∃ (fields : List Field) (nested : List Item),
        result.fields = fields.reverse ++ members.fields ∧
        result.nested = nested.reverse ++ members.nested ∧ BodyOver ts fields nested := by
  by_cases hstop : s.atEnd ∨ s.kind = .closeBrace
  · have hnone : s.Reads (pure members : Step Members) fun ts result =>
        ∃ (fields : List Field) (nested : List Item),
          result.fields = fields.reverse ++ members.fields ∧
          result.nested = nested.reverse ++ members.nested ∧ BodyOver ts fields nested :=
      reads_pure ⟨[], [], rfl, rfl, .nil⟩
    exact hnone.congr (by rw [messageBody_eq_repeatedly, if_pos hstop]; rfl)
  · have hend := (kind_ne_of_not_stopped hstop).1
    refine Cursor.Reads.congr ?_ (by rw [messageBody_eq_repeatedly, if_neg hstop])
    refine reads_repeatedly (over_messageMember members hend (over_parseMessage s hend))
      (fun _ _ h => h.ne_nil) fun next s₁ hlt => ?_
    refine (over_messageBody next s₁).mono ?_
    rintro us result ⟨fields, nested, hfields, hnested, hbody⟩ ts hts
    cases hts with
    | empty t => exact ⟨fields, nested, hfields, hnested, .empty t hbody⟩
    | @field _ field h =>
      exact ⟨field :: fields, nested, by simpa using hfields, hnested, .field h hbody⟩
    | @item _ item h =>
      exact ⟨fields, item :: nested, hfields, by simpa using hnested, .item h hbody⟩
termination_by (s.left, 1)

end

/-! ### Statements -/

theorem over_parseSyntax (hs : s.kind ≠ .endOfFile) :
    s.Reads parseSyntax fun ts decl => ∃ d, decl = some d ∧ Covers d.span ts := by
  refine reads_get (reads_bind (reads_advance hs) fun _ s₁ hadvance => ?_)
  refine reads_bind (reads_expect (by decide)) fun there s₂ hequals => ?_
  refine reads_unless (by simp +contextual) fun _ => reads_get ?_
  refine reads_bind reads_expectString fun value s₃ hvalue => ?_
  cases value with
  | none => exact reads_giveUp (by simp)
  | some value =>
    refine reads_bind (reads_expect (by decide)) fun _ s₄ hsemicolon => ?_
    split
    · exact reads_bind (reads_report _) fun _ _ _ =>
        reads_bind (reads_spanFrom _) fun _ _ _ => reads_pure fun _ _ _ _ _ h => False.elim h
    · refine reads_bind (over_spanFrom _) fun span _ _ => reads_pure ?_
      rintro es _ ⟨hes, hspan⟩ semis hrest₃ ⟨_, semi, hsemis, _⟩ values hrest₂ _ eqs hrest₁ _
        words hrest₀ _
      cases hadvance
      have hmoves : s.Moves s₃ := ((moving_advance s).trans ((moving_expect _).of_eq hequals)).trans
        (moving_expectString.of_eq hvalue)
      have hrest : s.rest = words ++ eqs ++ values ++ s₃.rest := by
        rw [hrest₀, List.append_assoc, List.append_assoc, ← hrest₂, ← hrest₁]
      have hcovers := covers_expect hsemicolon (hsemis ▸ hrest₃) hmoves hrest
      rw [← hspan] at hcovers
      refine ⟨_, rfl, ?_⟩
      simpa only [hes, hsemis, List.append_nil, List.append_assoc] using hcovers

theorem over_parsePackage (hs : s.kind ≠ .endOfFile) :
    s.Reads parsePackage fun ts decl => ∃ d, decl = some d ∧ Covers d.span ts := by
  refine reads_get (reads_bind (reads_advance hs) fun _ s₁ hadvance => ?_)
  refine reads_bind reads_parseDottedName fun name s₂ hname => ?_
  cases name with
  | none => exact reads_giveUp (by simp)
  | some name =>
    cases hadvance
    have hmoves : s.Moves s₂ := (moving_advance s).trans (moving_parseDottedName.of_eq hname)
    refine (over_closed (by decide) hmoves).mono ?_
    rintro us result ⟨semi, span, hsemi, hresult, hcovers⟩ names hrest₁ _ words hrest₀ _
    have hrest : s.rest = words ++ names ++ s₂.rest := by
      rw [hrest₀, List.append_assoc, ← hrest₁]
    exact ⟨_, hresult, by simpa only [hsemi, List.append_assoc] using hcovers _ hrest⟩

theorem over_parseImport (hs : s.kind ≠ .endOfFile) :
    s.Reads parseImport fun ts decl => ∃ d, decl = some d ∧ Covers d.span ts := by
  refine reads_get (reads_bind (reads_advance hs) fun _ s₁ hadvance => ?_)
  refine reads_bind (reads_eat (by decide)) fun isPublic s₂ hpublic => ?_
  refine reads_bind reads_expectString fun path s₃ hpath => ?_
  cases path with
  | none => exact reads_giveUp (by simp)
  | some path =>
    cases hadvance
    have hmoves : s.Moves s₃ := ((moving_advance s).trans ((moving_eat _).of_eq hpublic)).trans
      (moving_expectString.of_eq hpath)
    refine (over_closed (by decide) hmoves).mono ?_
    rintro us result ⟨semi, span, hsemi, hresult, hcovers⟩ paths hrest₂ _ publics hrest₁ _
      words hrest₀ _
    have hrest : s.rest = words ++ publics ++ paths ++ s₃.rest := by
      rw [hrest₀, List.append_assoc, List.append_assoc, ← hrest₂, ← hrest₁]
    exact ⟨_, hresult, by simpa only [hsemi, List.append_assoc] using hcovers _ hrest⟩

/-- Whether tokens stand for what is added to a file, or for nothing. -/
inductive StatementOver (file : File) : List Token → File → Prop
  | empty (t : Token) : StatementOver file [t] file
  | specified {ts : List Token} {decl : SyntaxDecl} (hnone : file.syntaxDecl = none)
      (h : Covers decl.span ts) : StatementOver file ts { file with syntaxDecl := some decl }
  | package {ts : List Token} {decl : PackageDecl} (hnone : file.package = none)
      (h : Covers decl.span ts) : StatementOver file ts { file with package := some decl }
  | imported {ts : List Token} {decl : Import} (h : Covers decl.span ts) :
      StatementOver file ts { file with imports := decl :: file.imports }
  | declared {ts : List Token} {item : Item} (h : ItemOver ts item) :
      StatementOver file ts { file with items := item :: file.items }

inductive StatementsOver : File → List Token → File → Prop
  | nil {file : File} : StatementsOver file [] file
  | cons {us ts : List Token} {file next result : File} (h : StatementOver file us next)
      (hrest : StatementsOver next ts result) : StatementsOver file (us ++ ts) result

theorem StatementOver.ne_nil {file next : File} (h : StatementOver file ts next) : ts ≠ [] := by
  cases h with
  | empty t => exact List.cons_ne_nil _ _
  | specified _ h => exact h.ne_nil
  | package _ h => exact h.ne_nil
  | imported h => exact h.ne_nil
  | declared h => exact h.ne_nil

theorem over_fileSyntax {first : Bool} {file : File} (hs : s.kind ≠ .endOfFile)
    (hfirst : first = true → file.syntaxDecl = none) :
    s.Reads (fileSyntax first file) (StatementOver file) := by
  refine reads_bind (over_parseSyntax hs) fun decl s₁ _ => ?_
  cases decl with
  | none => exact reads_pure (by simp)
  | some decl =>
    simp only
    split
    · rename_i hfirst'
      refine reads_pure fun ts _ ⟨d, hd, hts⟩ => ?_
      cases hd
      simpa using StatementOver.specified (hfirst hfirst') hts
    · exact reads_bind (reads_report _) fun _ _ _ => reads_pure fun _ _ h => False.elim h

theorem over_filePackage (file : File) (hs : s.kind ≠ .endOfFile) :
    s.Reads (filePackage file) (StatementOver file) := by
  refine reads_bind (over_parsePackage hs) fun decl s₁ _ => ?_
  cases decl with
  | none => exact reads_pure (by simp)
  | some decl =>
    cases hpackage : file.package with
    | none =>
      simp only
      refine reads_pure fun ts _ ⟨d, hd, hts⟩ => ?_
      cases hd
      simpa using StatementOver.package hpackage hts
    | some earlier =>
      exact reads_bind (reads_report _) fun _ _ _ => reads_pure fun _ _ h => False.elim h

theorem over_statement {first : Bool} {file : File} (hs : s.kind ≠ .endOfFile)
    (hfirst : first = true → file.syntaxDecl = none) :
    s.Reads (statement first file) (StatementOver file) := by
  refine reads_get ?_
  split
  · exact over_fileSyntax hs hfirst
  · exact over_filePackage file hs
  · refine reads_bind (over_parseImport hs) fun decl _ _ => reads_pure fun ts _ ⟨d, hd, hts⟩ => ?_
    rw [hd]
    simpa using StatementOver.imported hts
  · refine reads_bind (over_parseMessage s hs) fun item _ _ => reads_pure fun ts _ hts => ?_
    simpa using StatementOver.declared hts
  · refine reads_bind (over_parseEnum hs) fun decl _ _ => reads_pure fun ts _ hts => ?_
    simpa using StatementOver.declared (.enumeration hts)
  · refine reads_bind (reads_advance hs) fun _ _ _ => reads_pure fun ts _ ⟨t, hts, _⟩ => ?_
    rw [hts]
    exact .empty t
  · exact reads_bind reads_skipStray fun _ _ _ => reads_pure fun _ _ h => False.elim h

theorem over_statements {first : Bool} {file : File} (s : Cursor)
    (hfirst : first = true → file.syntaxDecl = none) :
    s.Reads (statements first file) (StatementsOver file) := by
  induction hn : s.left using Nat.strongRecOn generalizing first file s with
  | ind n ih =>
    by_cases hend : s.atEnd
    · have hnone : s.Reads (pure file : Step File) (StatementsOver file) := reads_pure .nil
      exact hnone.congr (by rw [statements_eq, if_pos hend]; rfl)
    · have hkind : s.kind ≠ .endOfFile := fun h => hend (decide_eq_true h)
      refine Cursor.Reads.congr ?_ (by rw [statements_eq, if_neg hend])
      refine reads_repeatedly (over_statement hkind hfirst) (fun _ _ h => h.ne_nil) ?_
      intro next s₁ hlt
      have hlater : false = true → next.syntaxDecl = none := fun h => absurd h Bool.false_ne_true
      exact (ih s₁.left (hn ▸ hlt) s₁ hlater rfl).mono fun us result hus ts hts => .cons hts hus

/-- Whether a file is read from tokens before the end of the file: it covers them, if there are any,
and has what the statements among them add. -/
structure FileOver (ts : List Token) (file : File) : Prop where
  covers : ts ≠ [] → Covers file.span ts
  statements : ∃ span read, StatementsOver ⟨none, none, [], [], span⟩ ts read ∧
    file.syntaxDecl = read.syntaxDecl ∧ file.package = read.package ∧
    file.imports = read.imports.reverse ∧ file.items = read.items.reverse

/-- Tokens that are read without a complaint are a file at its places and the end of the file. -/
theorem fileOver_of_parseTokens {tokens : List Token} (hended : Ended tokens)
    (hvalid : Valid tokens) (h : (parseTokens tokens).errors = []) :
    ∃ ts stop, tokens = ts ++ [stop] ∧ stop.kind = .endOfFile ∧
      FileOver ts (parseTokens tokens).file := by
  let start := Cursor.start tokens
  let file : File := ⟨none, none, [], [], start.span⟩
  have herrors : (statements true file start).2.errors = [] := List.reverse_eq_nil_iff.1 h
  have hreads : start.Reads (statements true file) (StatementsOver file) :=
    over_statements start fun _ => rfl
  obtain ⟨ts, hts, hover⟩ := hreads.taken hvalid herrors
  obtain ⟨stop, hrest, hstop⟩ := (hreads.before.ended hended).eq_singleton
    (kind_after_statements true file start hvalid herrors)
  have hmoves : start.Moves (statements true file start).2 :=
    (rounds_statements true file start).moves
  refine ⟨ts, stop, hts.trans (congrArg (ts ++ ·) hrest), hstop, covers_of_moves hmoves hts, ?_⟩
  exact ⟨start.span, _, hover, rfl, rfl, rfl, rfl⟩

end Schemata.Schema

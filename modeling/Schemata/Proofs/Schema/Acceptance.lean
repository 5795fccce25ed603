import Schemata.Proofs.Schema.Recognition

/-!
# What the grammar derives is read

Before tokens of a form, and what may follow them, a step takes just these tokens, complains about
nothing and gives what the form stands for. What follows matters in two places only: a dot goes on
with a name, and what opens a declaration is no field.
-/

namespace Schemata.Schema

open Source

variable {α β : Type} {s : Cursor} {t : Token} {rest mid : List Token}

/-- Whether a step, started here, leaves some tokens, complains about nothing and gives a value of
a kind. -/
def Cursor.Accepts (s : Cursor) (f : Step α) (rest : List Token) (given : α → Prop) : Prop :=
  ∃ a s', f s = (a, s') ∧ given a ∧ s'.rest = rest ∧ s'.errors = s.errors

theorem accepts_pure {a : α} {given : α → Prop} (hs : s.rest = rest) (h : given a) :
    s.Accepts (pure a) rest given := ⟨a, s, rfl, h, hs, rfl⟩

theorem accepts_bind {f : Step α} {k : α → Step β} {given : α → Prop} {given' : β → Prop}
    (hf : s.Accepts f mid given)
    (hk : ∀ a (s' : Cursor), given a → s'.rest = mid → s'.Accepts (k a) rest given') :
    s.Accepts (f >>= k) rest given' := by
  obtain ⟨a, s₁, hs₁, ha, hrest, herrors⟩ := hf
  obtain ⟨b, s₂, hs₂, hb, hrest', herrors'⟩ := hk a s₁ ha hrest
  exact ⟨b, s₂, (run_bind_of hs₁).trans hs₂, hb, hrest', herrors'.trans herrors⟩

theorem accepts_get {k : Cursor → Step α} {given : α → Prop} (h : s.Accepts (k s) rest given) :
    s.Accepts (get >>= k) rest given := h

theorem Cursor.Accepts.mono {f : Step α} {given given' : α → Prop} (h : s.Accepts f rest given)
    (hgiven : ∀ a, given a → given' a) : s.Accepts f rest given' := by
  obtain ⟨a, s', hs', ha, hrest, herrors⟩ := h
  exact ⟨a, s', hs', hgiven a ha, hrest, herrors⟩

theorem Cursor.Accepts.congr {f g : Step α} {given : α → Prop} (h : s.Accepts f rest given)
    (hg : g s = f s) : s.Accepts g rest given := by
  obtain ⟨a, s', hs', ha⟩ := h
  exact ⟨a, s', hg.trans hs', ha⟩

/-! ### Single tokens -/

theorem kind_of_cons (hs : s.rest = t :: rest) : s.kind = t.kind := by
  unfold Cursor.kind
  rw [hs]

theorem text_of_cons (hs : s.rest = t :: rest) : s.text = t.text := by
  unfold Cursor.text
  rw [hs]

theorem accepts_advance (hs : s.rest = t :: rest) (ht : t.kind ≠ .endOfFile) :
    s.Accepts (modify Cursor.advance) rest fun _ => True := by
  refine ⟨(), s.advance, rfl, trivial, ?_, Cursor.Alike.errors_advance s⟩
  rw [Cursor.Alike.rest_advance, kind_of_cons hs, if_neg ht, hs]
  rfl

theorem accepts_eat {kind : TokenKind} (hs : s.rest = t :: rest) (ht : t.kind = kind)
    (hkind : kind ≠ .endOfFile) : s.Accepts (eat kind) rest (· = true) := by
  obtain ⟨_, s', hadvance, _, hrest, herrors⟩ := accepts_advance hs (by rwa [ht])
  refine ⟨true, s.advance, ?_, rfl, ?_, Cursor.Alike.errors_advance s⟩
  · rw [eat_eq, if_pos ((kind_of_cons hs).trans ht)]
  · cases hadvance
    exact hrest

theorem accepts_eat_other {kind : TokenKind} (hs : s.rest = t :: rest) (ht : t.kind ≠ kind) :
    s.Accepts (eat kind) (t :: rest) (· = false) := by
  refine ⟨false, s, ?_, rfl, hs, rfl⟩
  rw [eat_eq, if_neg (by rwa [kind_of_cons hs])]

theorem accepts_expect {kind : TokenKind} (hs : s.rest = t :: rest) (ht : t.kind = kind)
    (hkind : kind ≠ .endOfFile) : s.Accepts (expect kind) rest (· = true) := by
  refine accepts_bind (accepts_eat hs ht hkind) fun there s' hthere hs' => ?_
  subst hthere
  exact accepts_pure hs' rfl

theorem accepts_expectName (hs : s.rest = t :: rest) (ht : t.kind.isName = true) :
    s.Accepts expectName rest fun name => ∃ span, name = some (t.text, span) := by
  refine accepts_get ?_
  have hend : t.kind ≠ .endOfFile := by
    intro h
    simp [h, TokenKind.isName] at ht
  rw [if_pos (by rwa [kind_of_cons hs])]
  refine accepts_bind (accepts_advance hs hend) fun _ s' _ hs' => ?_
  rw [text_of_cons hs]
  exact accepts_pure hs' ⟨_, rfl⟩

theorem accepts_expectString (hs : s.rest = t :: rest) (ht : t.kind = .string) :
    s.Accepts expectString rest (· = some (unquote t.text)) := by
  refine accepts_get ?_
  rw [if_pos ((kind_of_cons hs).trans ht)]
  refine accepts_bind (accepts_advance hs (by rw [ht]; decide)) fun _ s' _ hs' => ?_
  rw [text_of_cons hs]
  exact accepts_pure hs' rfl

theorem accepts_declaredName (hs : s.rest = t :: rest) (ht : t.kind.isName = true) :
    s.Accepts declaredName rest fun name => name.1 = t.text := by
  refine accepts_bind (accepts_expectName hs ht) fun name s' hname hs' => ?_
  obtain ⟨span, rfl⟩ := hname
  exact accepts_pure hs' rfl

theorem accepts_spanFrom (start : Span) (hs : s.rest = rest) :
    s.Accepts (spanFrom start) rest fun _ => True := accepts_get (accepts_pure hs trivial)

/-! ### Numbers, names and types -/

theorem accepts_parseInteger {ts : List Token} {n : Int} (h : IntegerForm ts n)
    (hmax : n.natAbs ≤ maxInteger) (hs : s.rest = ts ++ rest) :
    s.Accepts parseInteger rest (· = some n) := by
  obtain ⟨sign, t, ht, hn, hsign⟩ : ∃ (sign : Bool) (t : Token), t.kind = .integer ∧
      n = (if sign then -(numeral t.text.toList : Int) else numeral t.text.toList) ∧
      s.Accepts (eat .minus) (t :: rest) (· = sign) := by
    cases h with
    | plain ht => exact ⟨false, _, ht, rfl, accepts_eat_other hs (by rw [ht]; decide)⟩
    | negative hminus ht => exact ⟨true, _, ht, rfl, accepts_eat hs hminus (by decide)⟩
  have hvalue : decimalValue? t.text.toList = some (numeral t.text.toList) := by
    rw [decimalValue?_eq, if_pos]
    cases sign with
    | true =>
      simp only [if_true] at hn
      omega
    | false =>
      simp only [Bool.false_eq_true, if_false] at hn
      omega
  refine accepts_get (accepts_bind hsign fun negative s₁ hnegative hs₁ => accepts_get ?_)
  have hkind : s₁.kind = .integer := (kind_of_cons hs₁).trans ht
  rw [if_neg (not_not.2 hkind)]
  refine accepts_bind (accepts_advance hs₁ (by rw [ht]; decide)) fun _ s₂ _ hs₂ => ?_
  rw [text_of_cons hs₁, hvalue]
  refine accepts_pure hs₂ ?_
  rw [hn, hnegative]

/-- A dotted name is taken up to its end, where more parts may follow. -/
theorem parseDottedName_of {ts : List Token} {name : String} (h : DottedName ts name)
    (hs : s.rest = ts ++ rest) :
    ∃ s' : Cursor, parseDottedName s = dottedRest name s' ∧ s'.rest = rest ∧
      s'.errors = s.errors := by
  induction h generalizing rest with
  | single ht =>
    obtain ⟨name, s', hname, ⟨span, rfl⟩, hrest, herrors⟩ := accepts_expectName hs ht
    exact ⟨s', run_bind_of hname, hrest, herrors⟩
  | @dotted ts name dot part h hdot hpart ih =>
    obtain ⟨s₁, hbefore, hrest, herrors⟩ := @ih (dot :: part :: rest) (by simpa using hs)
    obtain ⟨there, s₂, hthere, rfl, hrest₂, herrors₂⟩ := accepts_eat hrest hdot (by decide)
    obtain ⟨next, s₃, hnext, ⟨span, rfl⟩, hrest₃, herrors₃⟩ := accepts_expectName hrest₂ hpart
    refine ⟨s₃, ?_, hrest₃, herrors₃.trans (herrors₂.trans herrors)⟩
    rw [hbefore, dottedRest_eq]
    exact (run_bind_of hthere).trans (run_bind_of hnext)

theorem accepts_parseDottedName {ts : List Token} {name : String} (h : DottedName ts name)
    (hs : s.rest = ts ++ t :: rest) (ht : t.kind ≠ .dot) :
    s.Accepts parseDottedName (t :: rest) (· = some name) := by
  obtain ⟨s', hname, hrest, herrors⟩ := parseDottedName_of h hs
  obtain ⟨there, s'', hthere, rfl, hrest', herrors'⟩ := accepts_eat_other hrest ht
  refine ⟨some name, s'', ?_, rfl, hrest', herrors'.trans herrors⟩
  rw [hname, dottedRest_eq]
  exact run_bind_of hthere

/-- A dotted name starts with a name; where it goes on, it does with a dot. -/
theorem DottedName.cases_tail {ts : List Token} {name : String} (h : DottedName ts name) :
    ∃ t us, ts = t :: us ∧ t.kind.isName = true ∧
      (us = [] ∨ ∃ dot vs, us = dot :: vs ∧ dot.kind = .dot) := by
  induction h with
  | single ht => exact ⟨_, [], rfl, ht, .inl rfl⟩
  | @dotted _ _ dot part h hdot hpart ih =>
    obtain ⟨t, us, rfl, ht, rfl | ⟨dot', vs, rfl, hdot'⟩⟩ := ih
    · exact ⟨t, [dot, part], rfl, ht, .inr ⟨dot, [part], rfl, hdot⟩⟩
    · exact ⟨t, _, rfl, ht, .inr ⟨dot', vs ++ [dot, part], rfl, hdot'⟩⟩

theorem ne_of_isName {kind kind' : TokenKind} (h : kind.isName = true)
    (h' : kind'.isName = false) : kind ≠ kind' := by
  intro heq
  rw [heq, h'] at h
  cases h

theorem accepts_parseType {ts : List Token} {type : TypeRef} (h : TypeForm ts type)
    (hs : s.rest = ts ++ t :: rest) (ht : t.kind ≠ .dot) :
    s.Accepts parseType (t :: rest) fun result => result.map TypeRef.bare = some type := by
  obtain ⟨absolute, names, name, hname, htype, hdots⟩ : ∃ absolute names name,
      DottedName names name ∧ typeOfName name absolute .nowhere = type ∧
      s.Accepts (eat .dot) (names ++ t :: rest) (· = absolute) := by
    have hrelative {names : List Token} {name : String} (h : DottedName names name)
        (hs : s.rest = names ++ t :: rest) :
        s.Accepts (eat .dot) (names ++ t :: rest) (· = false) := by
      obtain ⟨first, others, rfl, hfirst, _⟩ := h.cases_tail
      exact accepts_eat_other hs (ne_of_isName hfirst rfl)
    cases h with
    | @scalar _ type hname htext =>
      refine ⟨false, _, _, .single hname, ?_, hrelative (.single hname) hs⟩
      simp [typeOfName, htext, ScalarType.ofText?_text]
    | relative h hscalar =>
      refine ⟨false, _, _, h, ?_, hrelative h hs⟩
      simp [typeOfName, ScalarType.ofText?_eq_none.2 hscalar]
    | absolute hdot h => exact ⟨true, _, _, h, rfl, accepts_eat hs hdot (by decide)⟩
  refine accepts_get (accepts_bind hdots fun _ s₁ habsolute hs₁ => ?_)
  subst habsolute
  refine accepts_bind (accepts_parseDottedName hname hs₁ ht) fun _ s₂ hresult hs₂ => ?_
  subst hresult
  refine accepts_bind (accepts_spanFrom _ hs₂) fun span s₃ _ hs₃ => ?_
  refine accepts_pure hs₃ ?_
  rw [Option.map_some, bare_typeOfName_eq, htype]

/-! ### Fields and enum values -/

theorem accepts_parseLabel {head us : List Token} {label : FieldLabel} {type : TypeRef}
    (h : FieldHead head label type) (hs : s.rest = head ++ us) :
    ∃ types, TypeForm types type ∧ s.Accepts parseLabel (types ++ us) (· = label) := by
  cases h with
  | @single t ts _ htype ht =>
    refine ⟨t :: ts, htype, ?_⟩
    have hrepeated : t.kind ≠ .keyword .repeatedWord := fun h => ht (.inl h)
    have hoptional : t.kind ≠ .keyword .optionalWord := fun h => ht (.inr h)
    refine accepts_bind (accepts_eat_other hs hrepeated) fun there s₁ hthere hs₁ => ?_
    subst hthere
    refine accepts_bind (accepts_eat_other hs₁ hoptional) fun there s₂ hthere hs₂ => ?_
    subst hthere
    exact accepts_pure hs₂ rfl
  | repeated htype ht =>
    refine ⟨_, htype, accepts_bind (accepts_eat hs ht (by decide)) fun there s₁ hthere hs₁ => ?_⟩
    subst hthere
    exact accepts_pure hs₁ rfl
  | optional htype ht =>
    refine ⟨_, htype, ?_⟩
    have hrepeated : s.Accepts (eat (.keyword .repeatedWord)) s.rest (· = false) := by
      rw [hs]
      exact accepts_eat_other hs (by rw [ht]; decide)
    refine accepts_bind hrepeated fun there s₁ hthere hs₁ => ?_
    subst hthere
    refine accepts_bind (accepts_eat (hs₁.trans hs) ht (by decide)) fun there s₂ hthere hs₂ => ?_
    subst hthere
    exact accepts_pure hs₂ rfl

theorem accepts_parseFieldNumber {number : List Token} {n : Nat} (h : IntegerForm number n)
    (hrange : 1 ≤ n ∧ n ≤ 536870911) (hs : s.rest = number ++ rest) :
    s.Accepts parseFieldNumber rest (· = some n) := by
  have hmax : (n : Int).natAbs ≤ maxInteger := by
    unfold maxInteger
    omega
  refine accepts_get (accepts_bind (accepts_parseInteger h hmax hs) fun value s₁ hvalue hs₁ => ?_)
  subst hvalue
  have hin : 1 ≤ (n : Int) ∧ (n : Int) ≤ maxFieldNumber := by
    unfold maxFieldNumber
    omega
  simp only [hin, and_self, if_true]
  exact accepts_pure hs₁ rfl

theorem accepts_parseEnumNumber {number : List Token} {n : Int} (h : IntegerForm number n)
    (hrange : -2147483648 ≤ n ∧ n ≤ 2147483647) (hs : s.rest = number ++ rest) :
    s.Accepts parseEnumNumber rest (· = some n) := by
  have hmax : n.natAbs ≤ maxInteger := by
    unfold maxInteger
    omega
  refine accepts_get (accepts_bind (accepts_parseInteger h hmax hs) fun value s₁ hvalue hs₁ => ?_)
  subst hvalue
  have hin : -2147483648 ≤ n ∧ n < 2147483648 := by omega
  simp only [hin, and_self, if_true]
  exact accepts_pure hs₁ rfl

theorem accepts_parseField {ts : List Token} {field : Field} (h : FieldForm ts field)
    (hs : s.rest = ts ++ rest) :
    s.Accepts parseField rest fun result => result.map Field.bare = some field := by
  cases h with
  | @field head number label type name equals semicolon n hhead hname hequals hnumber hrange
      hsemicolon =>
    have hs : s.rest = head ++ name :: equals :: (number ++ semicolon :: rest) := by simpa using hs
    obtain ⟨types, htypes, hlabel⟩ := accepts_parseLabel hhead hs
    refine accepts_get (accepts_bind hlabel fun _ s₁ hlabel hs₁ => ?_)
    subst hlabel
    have hdot : name.kind ≠ .dot := ne_of_isName hname rfl
    refine accepts_bind (accepts_parseType htypes hs₁ hdot) fun result s₂ htype hs₂ => ?_
    obtain ⟨written, rfl, rfl⟩ := Option.map_eq_some_iff.1 htype
    refine accepts_bind (accepts_expectName hs₂ hname) fun result s₃ hresult hs₃ => ?_
    obtain ⟨span, rfl⟩ := hresult
    refine accepts_bind (accepts_expect hs₃ hequals (by decide)) fun there s₄ hthere hs₄ => ?_
    subst hthere
    refine accepts_get ?_
    refine accepts_bind (accepts_parseFieldNumber hnumber hrange hs₄) fun result s₅ hresult hs₅ => ?_
    subst hresult
    refine accepts_bind (accepts_expect hs₅ hsemicolon (by decide)) fun _ s₆ _ hs₆ => ?_
    refine accepts_bind (accepts_spanFrom _ hs₆) fun span s₇ _ hs₇ => ?_
    exact accepts_pure hs₇ rfl

theorem accepts_parseEnumValue {ts : List Token} {value : EnumValue} (h : EnumValueForm ts value)
    (hs : s.rest = ts ++ rest) :
    s.Accepts parseEnumValue rest fun result => result.map EnumValue.bare = some value := by
  cases h with
  | @value number name equals semicolon n hname hequals hnumber hrange hsemicolon =>
    have hs : s.rest = name :: equals :: (number ++ semicolon :: rest) := by simpa using hs
    refine accepts_get (accepts_bind (accepts_expectName hs hname) fun result s₁ hresult hs₁ => ?_)
    obtain ⟨span, rfl⟩ := hresult
    refine accepts_bind (accepts_expect hs₁ hequals (by decide)) fun there s₂ hthere hs₂ => ?_
    subst hthere
    refine accepts_bind (accepts_parseEnumNumber hnumber hrange hs₂) fun result s₃ hresult hs₃ => ?_
    subst hresult
    refine accepts_bind (accepts_expect hs₃ hsemicolon (by decide)) fun _ s₄ _ hs₄ => ?_
    refine accepts_bind (accepts_spanFrom _ hs₄) fun span s₅ _ hs₅ => ?_
    exact accepts_pure hs₅ rfl

/-! ### Enums -/

theorem accepts_repeatedly {given : α → Prop} {given' : β → Prop} {step : Step α}
    {next : α → Step β} {stop : α → β} (hstep : s.Accepts step mid given)
    (hmid : mid.length < s.rest.length)
    (hnext : ∀ a (s' : Cursor), given a → s'.rest = mid → s'.Accepts (next a) rest given') :
    s.Accepts (repeatedly step next stop) rest given' := by
  refine (accepts_bind hstep hnext).congr ?_
  obtain ⟨a, s', hs', _, hrest, _⟩ := hstep
  have hlt : (step s).2.left < s.left := by
    rw [hs', s.left_eq, Cursor.left_eq]
    show s'.rest.length < s.rest.length
    rwa [hrest]
  exact if_pos hlt

theorem length_lt_of_append {ts : List Token} (hs : s.rest = ts ++ mid) (hts : ts ≠ []) :
    mid.length < s.rest.length := by
  have hpos := List.length_pos_iff.2 hts
  rw [hs, List.length_append]
  omega

theorem kind_ne_of_cons {kind : TokenKind} (hs : s.rest = t :: rest) (ht : t.kind ≠ kind) :
    s.kind ≠ kind := by rwa [kind_of_cons hs]

/-- Before a token that ends no body, the body goes on. -/
theorem not_stopped (hs : s.rest = t :: rest) (hend : t.kind ≠ .endOfFile)
    (hclose : t.kind ≠ .closeBrace) : ¬ (s.atEnd ∨ s.kind = .closeBrace) := by
  rw [Cursor.atEnd, kind_of_cons hs, decide_eq_true_iff]
  exact fun h => h.elim hend hclose

theorem accepts_enumMember_semicolon (hs : s.rest = t :: rest) (ht : t.kind = .semicolon) :
    s.Accepts enumMember rest (· = none) := by
  have hskip : s.Accepts (modify Cursor.advance >>= fun _ => pure (none : Option EnumValue)) rest
      (· = none) :=
    accepts_bind (accepts_advance hs (by rw [ht]; decide)) fun _ s' _ hs' => accepts_pure hs' rfl
  exact hskip.congr (if_pos ((kind_of_cons hs).trans ht))

theorem EnumValueForm.exists_cons {ts : List Token} {value : EnumValue}
    (h : EnumValueForm ts value) : ∃ t us, ts = t :: us ∧ t.kind.isName = true := by
  cases h with
  | value hname => exact ⟨_, _, rfl, hname⟩

theorem accepts_enumBody {body : List Token} {values : List EnumValue} (h : EnumBody body values)
    {closing : Token} (hclosing : closing.kind = .closeBrace) {before : List EnumValue}
    (hs : s.rest = body ++ closing :: rest) :
    s.Accepts (enumBody before) (closing :: rest) fun result =>
      result.map EnumValue.bare = values.reverse ++ before.map EnumValue.bare := by
  induction h generalizing s before with
  | nil =>
    have hstop : s.atEnd ∨ s.kind = .closeBrace := .inr ((kind_of_cons hs).trans hclosing)
    refine ⟨before, s, ?_, rfl, hs, rfl⟩
    rw [enumBody_eq, if_pos hstop]
  | @semicolon t ts values ht h ih =>
    have hgo := not_stopped hs (by rw [ht]; decide) (by rw [ht]; decide)
    refine Cursor.Accepts.congr ?_ ((enumBody_eq before s).trans (if_neg hgo))
    refine accepts_repeatedly (accepts_enumMember_semicolon hs ht) (by simp [hs]) ?_
    intro value s' hvalue hs'
    subst hvalue
    exact ih hs'
  | @value vs ts v values hv h ih =>
    have hs : s.rest = vs ++ (ts ++ closing :: rest) := by rw [hs, List.append_assoc]
    obtain ⟨t, us, rfl, ht⟩ := hv.exists_cons
    have hgo := not_stopped hs (ne_of_isName ht rfl) (ne_of_isName ht rfl)
    have hsemicolon : s.kind ≠ .semicolon := kind_ne_of_cons hs (ne_of_isName ht rfl)
    refine Cursor.Accepts.congr ?_ ((enumBody_eq before s).trans (if_neg hgo))
    refine accepts_repeatedly ((accepts_parseEnumValue hv hs).congr (if_neg hsemicolon)) ?_ ?_
    · exact length_lt_of_append hs (List.cons_ne_nil _ _)
    · intro value s' hvalue hs'
      obtain ⟨written, rfl, rfl⟩ := Option.map_eq_some_iff.1 hvalue
      refine (ih hs').mono fun result hresult => ?_
      rw [hresult]
      simp

theorem accepts_parseEnum {ts : List Token} {decl : EnumDecl} (h : EnumForm ts decl)
    (hs : s.rest = ts ++ rest) : s.Accepts parseEnum rest fun result => result.bare = decl := by
  cases h with
  | @enumeration word name opening closing body values hword hname hopening hbody hclosing =>
    have hs : s.rest = word :: name :: opening :: (body ++ closing :: rest) := by simpa using hs
    have hend : word.kind ≠ .endOfFile := by rw [hword]; decide
    refine accepts_get (accepts_bind (accepts_advance hs hend) fun _ s₁ _ hs₁ => ?_)
    refine accepts_bind (accepts_declaredName hs₁ hname) fun written s₂ hwritten hs₂ => ?_
    refine accepts_bind (accepts_expect hs₂ hopening (by decide)) fun there s₃ hthere hs₃ => ?_
    subst hthere
    refine accepts_bind (accepts_enumBody hbody hclosing hs₃) fun result s₄ hresult hs₄ => ?_
    refine accepts_bind (accepts_expect hs₄ hclosing (by decide)) fun _ s₅ _ hs₅ => ?_
    refine accepts_bind (accepts_spanFrom _ hs₅) fun span s₆ _ hs₆ => accepts_pure hs₆ ?_
    simp only [List.map_nil, List.append_nil] at hresult
    simp only [EnumDecl.bare, List.map_reverse, hresult, List.reverse_reverse, hwritten]

/-! ### Messages -/

/-- After a word that opens a declaration come a name and an opening brace. -/
theorem opensDeclaration_of {word name opening : Token}
    (hs : s.rest = word :: name :: opening :: rest) (hname : name.kind.isName = true)
    (hopening : opening.kind = .openBrace) : s.opensDeclaration = true := by
  unfold Cursor.opensDeclaration
  rw [hs]
  simp [hname, hopening]

theorem opensDeclaration_eq_false {first second : Token} (hs : s.rest = first :: second :: rest)
    (h : second.kind.isName = false ∨ ∃ third us, rest = third :: us ∧ third.kind ≠ .openBrace) :
    s.opensDeclaration = false := by
  unfold Cursor.opensDeclaration
  rw [hs]
  rcases h with h | ⟨third, us, rfl, h⟩
  · cases rest <;> simp [h]
  · simp [h]

/-- Where the type of a field starts with a keyword, a dot or the name and the equals sign of the
field come next. -/
theorem opensDeclaration_of_type {types us : List Token} {type : TypeRef} {name equals : Token}
    (h : TypeForm types type) (hs : s.rest = types ++ name :: equals :: us)
    (hequals : equals.kind = .equals) :
    s.kind = .dot ∨ s.kind.isName = true ∧ s.opensDeclaration = false := by
  have hthird : equals.kind ≠ .openBrace := by rw [hequals]; decide
  have hnames {names : List Token} {first : String} (h : DottedName names first)
      (hs : s.rest = names ++ name :: equals :: us) :
      s.kind = .dot ∨ s.kind.isName = true ∧ s.opensDeclaration = false := by
    obtain ⟨t, ts, rfl, ht, hts⟩ := h.cases_tail
    refine .inr ⟨by rwa [kind_of_cons hs], ?_⟩
    rcases hts with rfl | ⟨dot, vs, rfl, hdot⟩
    · exact opensDeclaration_eq_false hs (.inr ⟨equals, us, rfl, hthird⟩)
    · exact opensDeclaration_eq_false hs (.inl (by rw [hdot]; rfl))
  cases h with
  | scalar ht => exact hnames (.single ht) hs
  | relative h => exact hnames h hs
  | absolute hdot => exact .inl ((kind_of_cons hs).trans hdot)

/-- Where a field starts, neither a body ends, nor an empty statement or a declaration starts. -/
theorem FieldForm.start {ts : List Token} {field : Field} (h : FieldForm ts field)
    (hs : s.rest = ts ++ rest) :
    (s.kind = .dot ∨ s.kind.isName = true) ∧ ∀ word : Keyword,
      word = .messageWord ∨ word = .enumWord →
        ¬ (s.kind = .keyword word ∧ s.opensDeclaration = true) := by
  cases h with
  | @field head number label type name equals semicolon n hhead hname hequals hnumber hrange
      hsemicolon =>
    have hs : s.rest = head ++ name :: equals :: (number ++ semicolon :: rest) := by simpa using hs
    cases hhead with
    | single htype ht =>
      rcases opensDeclaration_of_type htype hs hequals with hdot | ⟨hname', hopens⟩
      · exact ⟨.inl hdot, fun word _ hopen => by simp [hdot] at hopen⟩
      · exact ⟨.inr hname', fun word _ hopen => by simp [hopens] at hopen⟩
    | repeated htype ht =>
      rw [kind_of_cons hs, ht]
      exact ⟨.inr rfl, fun word hword hopen => by grind⟩
    | optional htype ht =>
      rw [kind_of_cons hs, ht]
      exact ⟨.inr rfl, fun word hword hopen => by grind⟩

/-- Whether members have become others by fields and declarations, places aside; what was added
latest is first. -/
structure Added (fields : List Field) (nested : List Item) (members result : Members) : Prop where
  fields : result.fields.map Field.bare = fields.reverse ++ members.fields.map Field.bare
  nested : result.nested.map Item.bare = nested.reverse ++ members.nested.map Item.bare

theorem Added.refl (members : Members) : Added [] [] members members := ⟨rfl, rfl⟩

theorem Added.trans {fields more : List Field} {nested others : List Item}
    {members next result : Members} (h : Added fields nested members next)
    (h' : Added more others next result) :
    Added (fields ++ more) (nested ++ others) members result := by
  constructor
  · rw [h'.fields, h.fields, List.reverse_append, List.append_assoc]
  · rw [h'.nested, h.nested, List.reverse_append, List.append_assoc]

theorem accepts_field {ts : List Token} {field : Field} {members : Members}
    (h : FieldForm ts field) (hs : s.rest = ts ++ rest) :
    s.Accepts (messageMember members) rest (Added [field] [] members) := by
  obtain ⟨hkind, hopens⟩ := h.start hs
  have hsemicolon : s.kind ≠ .semicolon := by
    intro hkind'
    simp [hkind', TokenKind.isName] at hkind
  have hadd : s.Accepts (parseField >>= fun field =>
      pure { members with fields := field.toList ++ members.fields }) rest
      (Added [field] [] members) := by
    refine accepts_bind (accepts_parseField h hs) fun result s' hresult hs' => ?_
    obtain ⟨written, rfl, rfl⟩ := Option.map_eq_some_iff.1 hresult
    exact accepts_pure hs' ⟨rfl, rfl⟩
  refine hadd.congr ((if_neg ?_).trans ((if_neg ?_).trans (if_neg hsemicolon)))
  · exact hopens .messageWord (.inl rfl)
  · exact hopens .enumWord (.inr rfl)

theorem EnumForm.opens {ts : List Token} {decl : EnumDecl} (h : EnumForm ts decl)
    (hs : s.rest = ts ++ rest) : s.kind = .keyword .enumWord ∧ s.opensDeclaration = true := by
  cases h with
  | enumeration hword hname hopening =>
    exact ⟨(kind_of_cons hs).trans hword, opensDeclaration_of hs hname hopening⟩

theorem accepts_semicolon {members : Members} (hs : s.rest = t :: rest)
    (ht : t.kind = .semicolon) :
    s.Accepts (messageMember members) rest (Added [] [] members) := by
  have hkind : s.kind = .semicolon := (kind_of_cons hs).trans ht
  have hskip : s.Accepts (modify Cursor.advance >>= fun _ => pure members) rest
      (Added [] [] members) :=
    accepts_bind (accepts_advance hs (by rw [ht]; decide)) fun _ s' _ hs' =>
      accepts_pure hs' (.refl members)
  refine hskip.congr ((if_neg ?_).trans ((if_neg ?_).trans (if_pos hkind)))
  · simp [hkind]
  · simp [hkind]

theorem accepts_enumeration {ts : List Token} {decl : EnumDecl} {members : Members}
    (h : EnumForm ts decl) (hs : s.rest = ts ++ rest) :
    s.Accepts (messageMember members) rest (Added [] [.enumeration decl] members) := by
  have hopens := h.opens hs
  have hadd : s.Accepts (parseEnum >>= fun decl =>
      pure { members with nested := .enumeration decl :: members.nested }) rest
      (Added [] [.enumeration decl] members) := by
    refine accepts_bind (accepts_parseEnum h hs) fun written s' hwritten hs' => ?_
    subst hwritten
    exact accepts_pure hs' ⟨rfl, rfl⟩
  refine hadd.congr ((if_neg ?_).trans (if_pos hopens))
  simp [hopens.1]

theorem accepts_messageBody_of {members : Members} {fields more : List Field}
    {nested others : List Item} (hgo : ¬ (s.atEnd ∨ s.kind = .closeBrace))
    (hmember : s.Accepts (messageMember members) mid (Added fields nested members))
    (hmid : mid.length < s.rest.length)
    (hbody : ∀ next (s' : Cursor), s'.rest = mid → s'.rest.length < s.rest.length →
      s'.Accepts (messageBody next) rest (Added more others next)) :
    s.Accepts (messageBody members) rest (Added (fields ++ more) (nested ++ others) members) := by
  refine Cursor.Accepts.congr ?_ ((messageBody_eq_repeatedly members s).trans (if_neg hgo))
  refine accepts_repeatedly hmember hmid fun next s' hnext hs' => ?_
  exact (hbody next s' hs' (hs' ▸ hmid)).mono fun result hresult => hnext.trans hresult

theorem MessageForm.opens {ts : List Token} {item : Item} (h : MessageForm ts item)
    (hs : s.rest = ts ++ rest) :
    s.kind = .keyword .messageWord ∧ s.opensDeclaration = true := by
  cases h with
  | message hword hname hopening =>
    exact ⟨(kind_of_cons hs).trans hword, opensDeclaration_of hs hname hopening⟩

theorem accepts_message {ts : List Token} {item : Item} {members : Members}
    (h : MessageForm ts item) (hs : s.rest = ts ++ rest)
    (hread : s.Accepts parseMessage rest fun result => result.bare = item) :
    s.Accepts (messageMember members) rest (Added [] [item] members) := by
  have hadd : s.Accepts (parseMessage >>= fun item =>
      pure { members with nested := item :: members.nested }) rest (Added [] [item] members) := by
    refine accepts_bind hread fun written s' hwritten hs' => ?_
    subst hwritten
    exact accepts_pure hs' ⟨rfl, rfl⟩
  exact hadd.congr (if_pos (h.opens hs))

mutual

theorem accepts_parseMessage {ts : List Token} {item : Item} (h : MessageForm ts item)
    (s : Cursor) (rest : List Token) (hs : s.rest = ts ++ rest) :
    s.Accepts parseMessage rest fun result => result.bare = item := by
  cases h with
  | @message word name opening closing body fields nested hword hname hopening hbody hclosing =>
    have hs : s.rest = word :: name :: opening :: (body ++ closing :: rest) := by simpa using hs
    have hend : word.kind ≠ .endOfFile := by rw [hword]; decide
    refine Cursor.Accepts.congr ?_ (parseMessage_eq (kind_ne_of_cons hs hend))
    refine accepts_get (accepts_bind (accepts_advance hs hend) fun _ s₁ _ hs₁ => ?_)
    refine accepts_bind (accepts_declaredName hs₁ hname) fun written s₂ hwritten hs₂ => ?_
    refine accepts_bind (accepts_expect hs₂ hopening (by decide)) fun there s₃ hthere hs₃ => ?_
    subst hthere
    have hlt : s₃.rest.length < s.rest.length := by
      simp only [hs₃, hs, List.length_cons]
      omega
    refine accepts_bind (accepts_messageBody hbody hclosing ⟨[], []⟩ s₃ rest hs₃)
      fun members s₄ hmembers hs₄ => ?_
    refine accepts_bind (accepts_expect hs₄ hclosing (by decide)) fun _ s₅ _ hs₅ => ?_
    refine accepts_bind (accepts_spanFrom _ hs₅) fun span s₆ _ hs₆ => accepts_pure hs₆ ?_
    have hfields := hmembers.fields
    have hnested := hmembers.nested
    simp only [List.map_nil, List.append_nil] at hfields hnested
    simp only [Item.bare, MessageDecl.bare, bareItems_eq_map, List.map_reverse, hfields, hnested,
      List.reverse_reverse, hwritten]
termination_by (s.rest.length, 0)
decreasing_by exact Prod.Lex.left _ _ hlt

theorem accepts_messageBody {body : List Token} {fields : List Field} {nested : List Item}
    (h : MessageBody body fields nested) {closing : Token} (hclosing : closing.kind = .closeBrace)
    (members : Members) (s : Cursor) (rest : List Token) (hs : s.rest = body ++ closing :: rest) :
    s.Accepts (messageBody members) (closing :: rest) (Added fields nested members) := by
  cases h with
  | nil =>
    have hstop : s.atEnd ∨ s.kind = .closeBrace := .inr ((kind_of_cons hs).trans hclosing)
    refine ⟨members, s, ?_, .refl members, hs, rfl⟩
    rw [messageBody_eq_repeatedly, if_pos hstop]
  | semicolon ht h =>
    have hgo := not_stopped hs (by rw [ht]; decide) (by rw [ht]; decide)
    refine accepts_messageBody_of hgo (accepts_semicolon hs ht) (by simp [hs]) ?_
    exact fun next s' hs' hlt => accepts_messageBody h hclosing next s' rest hs'
  | field hfield h =>
    have hs := hs.trans (List.append_assoc _ _ _)
    have hgo : ¬ (s.atEnd ∨ s.kind = .closeBrace) := by
      obtain ⟨hkind, _⟩ := hfield.start hs
      rintro (hend | hclose)
      · simp [of_decide_eq_true hend, TokenKind.isName] at hkind
      · simp [hclose, TokenKind.isName] at hkind
    have hmid := length_lt_of_append hs hfield.ne_nil
    refine accepts_messageBody_of hgo (accepts_field hfield hs) hmid ?_
    exact fun next s' hs' hlt => accepts_messageBody h hclosing next s' rest hs'
  | message hitem h =>
    have hs := hs.trans (List.append_assoc _ _ _)
    have hmid := length_lt_of_append hs hitem.ne_nil
    have hread := accepts_parseMessage hitem s _ hs
    have hgo : ¬ (s.atEnd ∨ s.kind = .closeBrace) := by simp [Cursor.atEnd, (hitem.opens hs).1]
    refine accepts_messageBody_of hgo (accepts_message hitem hs hread) hmid ?_
    exact fun next s' hs' hlt => accepts_messageBody h hclosing next s' rest hs'
  | enumeration hdecl h =>
    have hs := hs.trans (List.append_assoc _ _ _)
    have hmid := length_lt_of_append hs hdecl.ne_nil
    have hgo : ¬ (s.atEnd ∨ s.kind = .closeBrace) := by
      cases hdecl with
      | enumeration hword =>
        exact not_stopped hs (by rw [hword]; decide) (by rw [hword]; decide)
    refine accepts_messageBody_of hgo (accepts_enumeration hdecl hs) hmid ?_
    exact fun next s' hs' hlt => accepts_messageBody h hclosing next s' rest hs'
termination_by (s.rest.length, 1)
decreasing_by
  all_goals first
    | exact Prod.Lex.left _ _ hlt
    | exact Prod.Lex.right _ Nat.zero_lt_one

end

/-! ### Files -/

theorem accepts_parseSyntax {ts : List Token} {decl : SyntaxDecl} (h : SyntaxForm ts (some decl))
    (hs : s.rest = ts ++ rest) :
    s.Accepts parseSyntax rest fun result => result.map SyntaxDecl.bare = some decl := by
  cases h with
  | @specified word equals value semicolon hword hequals hvalue hknown hsemicolon =>
    have hend : word.kind ≠ .endOfFile := by rw [hword]; decide
    have hcontains : File.knownSyntaxes.contains (unquote value.text) = true := by
      simpa [File.knownSyntaxes] using hknown
    refine accepts_get (accepts_bind (accepts_advance hs hend) fun _ s₁ _ hs₁ => ?_)
    refine accepts_bind (accepts_expect hs₁ hequals (by decide)) fun there s₂ hthere hs₂ => ?_
    subst hthere
    refine accepts_get ?_
    refine accepts_bind (accepts_expectString hs₂ hvalue) fun result s₃ hresult hs₃ => ?_
    subst hresult
    refine accepts_bind (accepts_expect hs₃ hsemicolon (by decide)) fun _ s₄ _ hs₄ => ?_
    simp only [hcontains, Bool.not_true, Bool.false_eq_true, if_false]
    exact accepts_bind (accepts_spanFrom _ hs₄) fun span s₅ _ hs₅ => accepts_pure hs₅ rfl

theorem accepts_parsePackage {ts : List Token} {decl : PackageDecl}
    (h : StatementForm ts (.package decl)) (hs : s.rest = ts ++ rest) :
    s.Accepts parsePackage rest fun result => result.map PackageDecl.bare = some decl := by
  cases h with
  | @package word semicolon ts name hword hname hsemicolon =>
    have hs : s.rest = word :: (ts ++ semicolon :: rest) := by simpa using hs
    have hend : word.kind ≠ .endOfFile := by rw [hword]; decide
    have hdot : semicolon.kind ≠ .dot := by rw [hsemicolon]; decide
    refine accepts_get (accepts_bind (accepts_advance hs hend) fun _ s₁ _ hs₁ => ?_)
    refine accepts_bind (accepts_parseDottedName hname hs₁ hdot) fun result s₂ hresult hs₂ => ?_
    subst hresult
    refine accepts_bind (accepts_expect hs₂ hsemicolon (by decide)) fun _ s₃ _ hs₃ => ?_
    exact accepts_bind (accepts_spanFrom _ hs₃) fun span s₄ _ hs₄ => accepts_pure hs₄ rfl

theorem accepts_parseImport {ts : List Token} {decl : Import}
    (h : StatementForm ts (.imported decl)) (hs : s.rest = ts ++ rest) :
    s.Accepts parseImport rest fun result => result.map Import.bare = some decl := by
  obtain ⟨word, path, semicolon, us, hword, hpath, hsemicolon, hs, hpublic, hdecl⟩ :
      ∃ word path semicolon us, word.kind = .keyword .importWord ∧ path.kind = .string ∧
        semicolon.kind = .semicolon ∧ s.rest = word :: us ∧
        (∀ {s : Cursor}, s.rest = us →
          s.Accepts (eat (.keyword .publicWord)) (path :: semicolon :: rest) (· = decl.isPublic)) ∧
        decl = ⟨unquote path.text, decl.isPublic, .nowhere⟩ := by
    cases h with
    | imported hword hpath hsemicolon =>
      refine ⟨_, _, _, _, hword, hpath, hsemicolon, hs, fun hs => ?_, rfl⟩
      exact accepts_eat_other hs (by rw [hpath]; decide)
    | importedPublicly hword hpublic hpath hsemicolon =>
      refine ⟨_, _, _, _, hword, hpath, hsemicolon, hs, fun hs => ?_, rfl⟩
      exact accepts_eat hs hpublic (by decide)
  have hend : word.kind ≠ .endOfFile := by rw [hword]; decide
  refine accepts_get (accepts_bind (accepts_advance hs hend) fun _ s₁ _ hs₁ => ?_)
  refine accepts_bind (hpublic hs₁) fun isPublic s₂ hisPublic hs₂ => ?_
  subst hisPublic
  refine accepts_bind (accepts_expectString hs₂ hpath) fun result s₃ hresult hs₃ => ?_
  subst hresult
  refine accepts_bind (accepts_expect hs₃ hsemicolon (by decide)) fun _ s₄ _ hs₄ => ?_
  refine accepts_bind (accepts_spanFrom _ hs₄) fun span s₅ _ hs₅ => accepts_pure hs₅ ?_
  rw [hdecl]
  rfl

theorem accepts_statement {ts : List Token} {said : Statement} (h : StatementForm ts said)
    (first : Bool) (file : File) (hfile : said.package? ≠ none → file.package = none)
    (hs : s.rest = ts ++ rest) : s.Accepts (statement first file) rest (Grown file [said]) := by
  refine accepts_get ?_
  cases h with
  | empty ht =>
    rw [(kind_of_cons hs).trans ht]
    exact accepts_bind (accepts_advance hs (by rw [ht]; decide)) fun _ s' _ hs' =>
      accepts_pure hs' (.unpackaged rfl rfl rfl rfl rfl)
  | package hword hname hsemicolon =>
    rw [(kind_of_cons hs).trans hword]
    refine accepts_bind (accepts_parsePackage (.package hword hname hsemicolon) hs) ?_
    intro result s' hresult hs'
    obtain ⟨written, rfl, hwritten⟩ := Option.map_eq_some_iff.1 hresult
    rw [← hwritten, hfile nofun]
    exact accepts_pure hs' (.packaged (hfile nofun))
  | imported hword hpath hsemicolon =>
    rw [(kind_of_cons hs).trans hword]
    refine accepts_bind (accepts_parseImport (.imported hword hpath hsemicolon) hs) ?_
    intro result s' hresult hs'
    obtain ⟨written, rfl, hwritten⟩ := Option.map_eq_some_iff.1 hresult
    rw [← hwritten]
    exact accepts_pure hs' (.unpackaged rfl rfl rfl rfl rfl)
  | importedPublicly hword hpublic hpath hsemicolon =>
    rw [(kind_of_cons hs).trans hword]
    refine accepts_bind
      (accepts_parseImport (.importedPublicly hword hpublic hpath hsemicolon) hs) ?_
    intro result s' hresult hs'
    obtain ⟨written, rfl, hwritten⟩ := Option.map_eq_some_iff.1 hresult
    rw [← hwritten]
    exact accepts_pure hs' (.unpackaged rfl rfl rfl rfl rfl)
  | message h =>
    rw [(h.opens hs).1]
    refine accepts_bind (accepts_parseMessage h s rest hs) fun written s' hwritten hs' => ?_
    subst hwritten
    exact accepts_pure hs' (.unpackaged rfl rfl rfl rfl rfl)
  | enumeration h =>
    rw [(h.opens hs).1]
    refine accepts_bind (accepts_parseEnum h hs) fun written s' hwritten hs' => ?_
    subst hwritten
    exact accepts_pure hs' (.unpackaged rfl rfl rfl rfl rfl)

theorem StatementForm.start {ts : List Token} {said : Statement} (h : StatementForm ts said)
    (hs : s.rest = ts ++ rest) : ¬ s.atEnd := by
  have hkind : s.kind ≠ .endOfFile := by
    cases h with
    | empty ht => rw [(kind_of_cons hs).trans ht]; decide
    | package hword => rw [(kind_of_cons hs).trans hword]; decide
    | imported hword => rw [(kind_of_cons hs).trans hword]; decide
    | importedPublicly hword => rw [(kind_of_cons hs).trans hword]; decide
    | message h => rw [(h.opens hs).1]; decide
    | enumeration h => rw [(h.opens hs).1]; decide
  simpa [Cursor.atEnd] using hkind

theorem accepts_statements {ts : List Token} {said : List Statement} (h : Statements ts said)
    {stop : Token} (hstop : stop.kind = .endOfFile) (first : Bool) (file : File)
    (hsingle : ((file.package.map PackageDecl.bare).toList ++
      said.filterMap Statement.package?).length ≤ 1) (hs : s.rest = ts ++ [stop]) :
    s.Accepts (statements first file) [stop] (Grown file said) := by
  induction h generalizing s first file with
  | nil =>
    refine ⟨file, s, ?_, .refl file, hs, rfl⟩
    have hend : s.atEnd := decide_eq_true ((kind_of_cons hs).trans hstop)
    rw [statements_eq, if_pos hend]
  | @cons ts us said others h hothers ih =>
    have hs := hs.trans (List.append_assoc _ _ _)
    have hfile : said.package? ≠ none → file.package = none := by
      intro hsaid
      obtain ⟨decl, hdecl⟩ := Option.ne_none_iff_exists'.1 hsaid
      rw [List.filterMap_cons_some hdecl] at hsingle
      cases hp : file.package with
      | none => rfl
      | some earlier => simp [hp] at hsingle
    refine Cursor.Accepts.congr ?_ ((statements_eq first file s).trans (if_neg (h.start hs)))
    refine accepts_repeatedly (accepts_statement h first file hfile hs)
      (length_lt_of_append hs h.ne_nil) fun next s' hnext hs' => ?_
    have hsplit : ((next.package.map PackageDecl.bare).toList ++
        others.filterMap Statement.package?).length ≤ 1 := by
      rw [hnext.package, toList_head? hnext.single, List.append_assoc, ← List.filterMap_append]
      exact hsingle
    exact (ih false next hsplit hs').mono fun result hresult => hnext.append hresult

/-- The statements of a file, whether or not the first specifies the syntax. -/
theorem accepts_file {head body : List Token} {decl : Option SyntaxDecl} {said : List Statement}
    {stop : Token} (hhead : SyntaxForm head decl) (hbody : Statements body said)
    (hpackage : (said.filterMap Statement.package?).length ≤ 1) (hstop : stop.kind = .endOfFile)
    (span : Span) (hs : s.rest = head ++ body ++ [stop]) :
    s.Accepts (statements true ⟨none, none, [], [], span⟩) [stop] fun result =>
      ∃ written, written.map SyntaxDecl.bare = decl ∧
        Grown ⟨written, none, [], [], span⟩ said result := by
  cases hhead with
  | unspecified =>
    refine (accepts_statements hbody hstop true ⟨none, none, [], [], span⟩ hpackage hs).mono fun result hresult => ?_
    exact ⟨none, rfl, hresult⟩
  | @specified word equals value semicolon hword hequals hvalue hknown hsemicolon =>
    have hkind : s.kind = .keyword .syntaxWord := (kind_of_cons hs).trans hword
    have hgo : ¬ s.atEnd := by simp [Cursor.atEnd, hkind]
    have hform := SyntaxForm.specified hword hequals hvalue hknown hsemicolon
    have hfirst : s.Accepts (statement true ⟨none, none, [], [], span⟩) (body ++ [stop])
        fun next => ∃ written : SyntaxDecl, written.bare = ⟨unquote value.text, .nowhere⟩ ∧
          next = ⟨some written, none, [], [], span⟩ := by
      refine accepts_get ?_
      rw [hkind]
      refine accepts_bind (accepts_parseSyntax hform hs) fun result s' hresult hs' => ?_
      obtain ⟨written, rfl, hwritten⟩ := Option.map_eq_some_iff.1 hresult
      exact accepts_pure hs' ⟨written, hwritten, rfl⟩
    refine Cursor.Accepts.congr ?_ ((statements_eq true _ s).trans (if_neg hgo))
    refine accepts_repeatedly hfirst (by simp [hs]) fun next s' hnext hs' => ?_
    obtain ⟨written, hwritten, rfl⟩ := hnext
    refine (accepts_statements hbody hstop false ⟨some written, none, [], [], span⟩ hpackage
      hs').mono fun result hresult => ?_
    exact ⟨some written, congrArg some hwritten, hresult⟩

/-- A file of the grammar is read without a complaint, as the file it stands for. -/
theorem parseTokens_of_fileForm {tokens : List Token} {file : File} (h : FileForm tokens file) :
    (parseTokens tokens).errors = [] ∧ (parseTokens tokens).file.bare = file := by
  cases h with
  | @file head body decl said stop hhead hbody hpackage hstop =>
    obtain ⟨result, s', hrun, ⟨written, hwritten, hgrown⟩, hrest, herrors⟩ :=
      accepts_file (s := Cursor.start (head ++ body ++ [stop])) hhead hbody hpackage hstop
        (Cursor.start (head ++ body ++ [stop])).span rfl
    unfold parseTokens
    simp only [hrun]
    refine ⟨?_, ?_⟩
    · rw [herrors]
      rfl
    · rw [hgrown.bare_eq, hgrown.syntaxDecl, hwritten]

/-! ### Reading and the grammar -/

/-- A text whose tokens are well shaped is read without a complaint exactly if its tokens are a file
of the grammar, and then as the file that they stand for. -/
theorem parse_errors_eq_nil_iff (file : FileId) (text : String) (h : (lex file text).errors = []) :
    ((parse file text).errors = [] ↔ ∃ f, FileForm (lex file text).tokens f) ∧
      ∀ f, FileForm (lex file text).tokens f → (parse file text).file.bare = f := by
  have herrors : (parse file text).errors = (parseTokens (lex file text).tokens).errors := by
    show (lex file text).errors ++ _ = _
    rw [h, List.nil_append]
  rw [herrors]
  refine ⟨⟨fun hread => ?_, fun ⟨f, hf⟩ => (parseTokens_of_fileForm hf).1⟩,
    fun f hf => (parseTokens_of_fileForm hf).2⟩
  have htokens := lexFrom_tokens file 0 text.toList
  exact ⟨_, fileForm_of_parseTokens htokens.1 (htokens.2 h) hread⟩

/-- Words of the language as names, a type from the outermost scope and a negative value. -/
def wordyText : String :=
  "syntax = \"schema1\"; message message \x7b repeated .a.repeated enum = 7; message b = 1; \x7d" ++
  "enum E \x7b A = -1; ; \x7d"

theorem parse_wordyText :
    (lex 0 wordyText).errors = [] ∧ (parse 0 wordyText).errors = [] ∧
      FileForm (lex 0 wordyText).tokens (parse 0 wordyText).file.bare ∧
      (lex 0 "message A \x7b B b = 0; \x7d").errors = [] ∧
      ¬ ∃ f, FileForm (lex 0 "message A \x7b B b = 0; \x7d").tokens f := by
  have hwordy : (lex 0 wordyText).errors = [] := by decide +kernel
  have hread : (parse 0 wordyText).errors = [] := by decide +kernel
  have hzero : (lex 0 "message A \x7b B b = 0; \x7d").errors = [] := by decide +kernel
  have hrefused : (parse 0 "message A \x7b B b = 0; \x7d").errors ≠ [] := by decide +kernel
  obtain ⟨hiff, hbare⟩ := parse_errors_eq_nil_iff 0 wordyText hwordy
  obtain ⟨f, hf⟩ := hiff.1 hread
  have hform : FileForm (lex 0 wordyText).tokens (parse 0 wordyText).file.bare := by
    rw [hbare f hf]
    exact hf
  refine ⟨hwordy, hread, hform, hzero, fun hderived => ?_⟩
  exact hrefused ((parse_errors_eq_nil_iff 0 _ hzero).1.2 hderived)

end Schemata.Schema

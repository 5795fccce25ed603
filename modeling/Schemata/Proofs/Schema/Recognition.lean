import Schemata.Proofs.Schema.Grammar

/-!
# What is read without a complaint

Reading only takes tokens and only adds complaints. So where it ends with the complaints it started
with, no step on the way complained, and the tokens that were taken have the form that the step is
for. The forms of the steps add up to the grammar.
-/

namespace Schemata.Schema

open Source

variable {α β : Type}

/-! ### Steps and the tokens that they take -/

/-- Whether reading can come from one cursor to another. -/
structure Cursor.Before (s s' : Cursor) : Prop where
  rest : s'.rest <:+ s.rest
  errors : s.errors <:+ s'.errors
  ended : Ended s.rest → Ended s'.rest

/-- Whether a step, started here, only takes tokens and adds complaints, and takes tokens of a form
when it adds none. -/
structure Cursor.Reads (s : Cursor) (f : Step α) (form : List Token → α → Prop) : Prop where
  before : s.Before (f s).2
  taken : Valid s.rest → (f s).2.errors = s.errors →
    ∃ ts, s.rest = ts ++ (f s).2.rest ∧ form ts (f s).1

variable {s s' s'' : Cursor} {form form' : List Token → α → Prop}

theorem Cursor.Before.refl (s : Cursor) : s.Before s :=
  ⟨List.suffix_refl _, List.suffix_refl _, id⟩

theorem Cursor.Before.trans (h : s.Before s') (h' : s'.Before s'') : s.Before s'' :=
  ⟨h'.rest.trans h.rest, h.errors.trans h'.errors, fun hended => h'.ended (h.ended hended)⟩

/-- Complaints only grow: where there are none in the end, there were none in between. -/
theorem Cursor.Before.errors_eq (h : s.Before s') (h' : s'.Before s'')
    (herrors : s''.errors = s.errors) : s'.errors = s.errors := by
  have hback : s'.errors <:+ s.errors := by
    rw [← herrors]
    exact h'.errors
  exact hback.eq_of_length_le h.errors.length_le

theorem Cursor.Before.left_le (h : s.Before s') : s'.left ≤ s.left := by
  rw [s.left_eq, s'.left_eq]
  exact h.rest.length_le

theorem Valid.of_suffix {ts us : List Token} (h : Valid us) (hsuffix : ts <:+ us) : Valid ts :=
  fun t ht => h t (hsuffix.subset ht)

theorem before_report (d : Diagnostic) (s : Cursor) : s.Before (s.report d) :=
  ⟨List.suffix_refl _, List.suffix_cons _ _, id⟩

theorem before_advance (s : Cursor) : s.Before s.advance := by
  refine ⟨?_, ?_, fun hended => ?_⟩
  · rw [Cursor.Alike.rest_advance]
    split
    · exact List.suffix_refl _
    · exact List.tail_suffix _
  · exact (Cursor.Alike.errors_advance s) ▸ List.suffix_refl _
  · rw [Cursor.Alike.rest_advance]
    split
    · exact hended
    · rename_i hkind
      obtain ⟨body, stop, hrest, hstop, hbody⟩ := hended
      cases body with
      | nil =>
        simp [Cursor.kind, hrest, hstop] at hkind
      | cons t body =>
        exact ⟨body, stop, by rw [hrest]; rfl, hstop, (List.forall_mem_cons.1 hbody).2⟩

theorem before_skipStatement (s : Cursor) : s.Before s.skipStatement := by
  fun_induction Cursor.skipStatement s with
  | case1 s hend => exact .refl s
  | case2 s hend hsemicolon => exact before_advance s
  | case3 s hend hsemicolon ih => exact (before_advance s).trans ih

theorem run_bind_of {f : Step α} {k : α → Step β} {a : α} (h : f s = (a, s')) :
    (f >>= k) s = k a s' := by
  show k (f s).1 (f s).2 = k a s'
  rw [h]

theorem reads_pure {a : α} (h : form [] a) : s.Reads (pure a) form :=
  ⟨.refl s, fun _ _ => ⟨[], rfl, h⟩⟩

theorem reads_bind {form' : List Token → β → Prop} {f : Step α} {k : α → Step β}
    (hf : s.Reads f form)
    (hk : ∀ a s', f s = (a, s') →
      s'.Reads (k a) fun us b =>
        ∀ ts, s.rest = ts ++ s'.rest → form ts a → form' (ts ++ us) b) :
    s.Reads (f >>= k) form' := by
  have hnext := hk (f s).1 (f s).2 rfl
  refine ⟨hf.before.trans hnext.before, fun hvalid herrors => ?_⟩
  have hmiddle := hf.before.errors_eq hnext.before herrors
  obtain ⟨ts, hts, hform⟩ := hf.taken hvalid hmiddle
  obtain ⟨us, hus, hform'⟩ := hnext.taken (hvalid.of_suffix hf.before.rest)
    (Eq.trans herrors hmiddle.symm)
  refine ⟨ts ++ us, ?_, hform' ts hts hform⟩
  rw [hts, hus, List.append_assoc]
  rfl

theorem Cursor.Reads.mono {f : Step α} (h : s.Reads f form)
    (hform : ∀ ts a, form ts a → form' ts a) : s.Reads f form' := by
  refine ⟨h.before, fun hvalid herrors => ?_⟩
  obtain ⟨ts, hts, ha⟩ := h.taken hvalid herrors
  exact ⟨ts, hts, hform ts _ ha⟩

theorem Cursor.Reads.congr {f g : Step α} (h : s.Reads f form) (hg : g s = f s) :
    s.Reads g form := by
  have hbefore := h.before
  have htaken := h.taken
  rw [← hg] at hbefore htaken
  exact ⟨hbefore, htaken⟩

theorem reads_get {k : Cursor → Step α} (h : s.Reads (k s) form) : s.Reads (get >>= k) form :=
  ⟨h.before, h.taken⟩

/-- Where nothing is said about the tokens, it is enough that they are taken. -/
theorem reads_modify {g : Cursor → Cursor} (h : s.Before (g s)) :
    s.Reads (modify g) fun _ _ => True := by
  refine ⟨h, fun _ _ => ?_⟩
  obtain ⟨ts, hts⟩ := h.rest
  exact ⟨ts, hts.symm, trivial⟩

theorem reads_report (d : Diagnostic) : s.Reads (modify (Cursor.report d)) fun _ _ => False :=
  ⟨before_report d s, fun _ herrors => absurd herrors (List.cons_ne_self _ _)⟩

/-! ### Single tokens -/

/-- Before the end of the file there is a token of the kind. -/
theorem exists_token {kind : TokenKind} (h : s.kind = kind) (hkind : kind ≠ .endOfFile) :
    ∃ t, s.rest = t :: s.advance.rest ∧ t.kind = kind ∧ s.text = t.text := by
  have hne : s.kind ≠ .endOfFile := fun hend => hkind (h.symm.trans hend)
  rw [Cursor.Alike.rest_advance, if_neg hne]
  unfold Cursor.kind at h
  unfold Cursor.text
  cases hrest : s.rest with
  | nil =>
    rw [hrest] at h
    exact absurd h.symm hkind
  | cons t ts =>
    rw [hrest] at h
    exact ⟨t, rfl, h, rfl⟩

theorem reads_advance (h : s.kind ≠ .endOfFile) :
    s.Reads (modify Cursor.advance) fun ts _ =>
      ∃ t, ts = [t] ∧ t.kind = s.kind ∧ t.text = s.text := by
  refine ⟨before_advance s, fun _ _ => ?_⟩
  obtain ⟨t, hrest, hkind, htext⟩ := exists_token rfl h
  exact ⟨[t], hrest, t, rfl, hkind, htext.symm⟩

theorem reads_complain (what : String) : s.Reads (complain what) fun _ _ => False := by
  unfold complain
  by_cases hinvalid : s.kind = .invalid
  · refine ⟨?_, fun hvalid _ => ?_⟩
    · show s.Before (if s.kind = .invalid then s else _)
      rw [if_pos hinvalid]
      exact .refl s
    · obtain ⟨t, hrest, hkind, _⟩ := exists_token hinvalid nofun
      exact absurd hkind (hvalid t (by rw [hrest]; exact List.mem_cons_self))
  · let found := if s.kind = .identifier then "'" ++ s.text ++ "'" else s.kind.describe
    refine (reads_report ?_).congr ?_
    · exact .error expectedCode s!"expected {what}, found {found}" s.span
    · exact congrArg (Prod.mk PUnit.unit) (if_neg hinvalid)

theorem reads_recover : s.Reads recover fun _ _ => True := reads_modify (before_skipStatement s)

/-- Giving up comes after a complaint, so whatever it skips has any form. -/
theorem reads_giveUp {form : List Token → Option α → Prop} (h : ∀ ts, form ts none) :
    s.Reads giveUp form :=
  reads_bind reads_recover fun _ _ _ => reads_pure fun _ _ _ => h _

/-- Where a token is missing, the statement is given up. -/
theorem reads_unless {there : Bool} {k : Step (Option α)} {form : List Token → Option α → Prop}
    (hmissing : there = false → ∀ ts, form ts none) (h : there = true → s.Reads k form) :
    s.Reads (if !there then (do return ← giveUp) else k) form := by
  cases there with
  | true => exact h rfl
  | false =>
    show s.Reads ((giveUp : Step (Option α)) >>= pure) form
    have hgiveUp : s.Reads (giveUp : Step (Option α)) fun _ result => result = none :=
      reads_giveUp fun _ => rfl
    refine reads_bind hgiveUp fun result _ _ => reads_pure fun ts _ hresult => ?_
    rw [hresult]
    exact hmissing rfl _

theorem eat_eq (kind : TokenKind) (s : Cursor) :
    eat kind s = if s.kind = kind then (true, s.advance) else (false, s) := by
  show (if s.kind = kind then _ else _ : Step Bool) s = _
  split
  · rfl
  · rfl

theorem reads_eat {kind : TokenKind} (hkind : kind ≠ .endOfFile) :
    s.Reads (eat kind) fun ts there =>
      if there then ∃ t, ts = [t] ∧ t.kind = kind else ts = [] := by
  refine reads_get ?_
  split
  · rename_i hs
    refine reads_bind (reads_advance (by rwa [hs])) fun _ _ _ => reads_pure fun ts _ ht => ?_
    obtain ⟨t, rfl, ht, _⟩ := ht
    exact ⟨t, rfl, ht.trans hs⟩
  · exact reads_pure rfl

theorem reads_expect {kind : TokenKind} (hkind : kind ≠ .endOfFile) :
    s.Reads (expect kind) fun ts there => there = true ∧ ∃ t, ts = [t] ∧ t.kind = kind := by
  refine reads_bind (reads_eat hkind) fun there _ _ => ?_
  cases there with
  | true => exact reads_pure fun ts _ ht => ⟨rfl, by simpa using ht⟩
  | false => exact reads_bind (reads_complain _) fun _ _ _ => reads_pure fun _ _ h => False.elim h

theorem reads_expectName :
    s.Reads expectName fun ts name =>
      ∃ t span, ts = [t] ∧ t.kind.isName = true ∧ name = some (t.text, span) := by
  refine reads_get ?_
  split
  · rename_i hs
    have hend : s.kind ≠ .endOfFile := by
      rintro hend
      simp [hend, TokenKind.isName] at hs
    refine reads_bind (reads_advance hend) fun _ _ _ => reads_pure fun ts _ ht => ?_
    obtain ⟨t, rfl, hkind, htext⟩ := ht
    exact ⟨t, s.span, rfl, by rw [hkind, hs], by rw [htext]⟩
  · exact reads_bind (reads_complain _) fun _ _ _ => reads_pure fun _ _ h => False.elim h

theorem reads_expectString :
    s.Reads expectString fun ts value =>
      ∃ t, ts = [t] ∧ t.kind = .string ∧ value = some (unquote t.text) := by
  refine reads_get ?_
  split
  · rename_i hs
    refine reads_bind (reads_advance (by rw [hs]; decide)) fun _ _ _ => reads_pure fun ts _ ht => ?_
    obtain ⟨t, rfl, hkind, htext⟩ := ht
    exact ⟨t, rfl, hkind.trans hs, by rw [htext]⟩
  · exact reads_bind (reads_complain _) fun _ _ _ => reads_pure fun _ _ h => False.elim h

theorem reads_declaredName :
    s.Reads declaredName fun ts name => ∃ t, ts = [t] ∧ t.kind.isName = true ∧ name.1 = t.text := by
  refine reads_bind reads_expectName fun name _ _ => ?_
  cases name with
  | none => exact reads_get (reads_pure fun _ _ ⟨_, _, _, _, h⟩ => nomatch h)
  | some name =>
    refine reads_pure fun ts _ ⟨t, span, hts, ht, hname⟩ => ⟨t, by simpa using hts, ht, ?_⟩
    rw [Option.some.inj hname]

/-- The place up to the token before takes no token. -/
theorem reads_spanFrom (start : Span) : s.Reads (spanFrom start) fun ts _ => ts = [] :=
  reads_get (reads_pure rfl)

/-! ### Numbers, names and types -/

theorem reads_parseInteger :
    s.Reads parseInteger fun ts value => ∃ n, value = some n ∧ IntegerForm ts n := by
  refine reads_get (reads_bind (reads_eat (by decide)) fun negative s₁ _ => reads_get ?_)
  split
  · exact reads_bind (reads_complain _) fun _ _ _ => reads_pure fun _ _ h => False.elim h
  · rename_i hs
    have hinteger : s₁.kind = .integer := not_not.1 hs
    refine reads_bind (reads_advance (by rw [hinteger]; decide)) fun _ _ _ => ?_
    rw [decimalValue?_eq]
    by_cases hmax : numeral s₁.text.toList ≤ maxInteger
    · rw [if_pos hmax]
      refine reads_pure fun ts _ ⟨t, hts, hkind, htext⟩ sign _ hsign => ⟨_, rfl, ?_⟩
      rw [List.append_nil, hts, ← htext]
      cases negative with
      | true =>
        obtain ⟨minus, rfl, hminus⟩ : ∃ minus, sign = [minus] ∧ minus.kind = .minus := by
          simpa using hsign
        exact .negative hminus (hkind.trans hinteger)
      | false =>
        obtain rfl : sign = [] := by simpa using hsign
        exact .plain (hkind.trans hinteger)
    · rw [if_neg hmax]
      refine reads_bind (reads_spanFrom _) fun _ _ _ => ?_
      exact reads_bind (reads_report _) fun _ _ _ => reads_pure fun _ _ h => False.elim h

theorem left_lt_of_taken {s s' : Cursor} {ts : List Token} (h : s.rest = ts ++ s'.rest)
    (hts : ts ≠ []) : s'.left < s.left := by
  have hlength := congrArg List.length h
  have hpos := List.length_pos_iff.2 hts
  rw [List.length_append] at hlength
  rw [s.left_eq, s'.left_eq]
  omega

theorem left_lt_of_eat {kind : TokenKind} {s' : Cursor} (h : eat kind s = (true, s'))
    (hkind : kind ≠ .endOfFile) : s'.left < s.left := by
  rw [eat_eq] at h
  split at h
  · rename_i hs
    cases h
    exact Cursor.left_advance_lt (by rwa [hs])
  · cases h

theorem left_le_of_expectName {name : Option (String × Span)} {s' : Cursor}
    (h : expectName s = (name, s')) : s'.left ≤ s.left := by
  have hbefore := (reads_expectName (s := s)).before
  rw [h] at hbefore
  exact hbefore.left_le

/-- Parts are taken for as long as dots follow. -/
theorem dottedRest_eq (name : String) (s : Cursor) :
    dottedRest name s =
      (do
        if ← eat .dot then
          match ← expectName with
          | some (part, _) => dottedRest (name ++ "." ++ part)
          | none => return none
        else return some name : Step (Option String)) s := by
  rw [dottedRest.eq_def]
  show _ = (if (eat .dot s).1 then _ else _ : Step (Option String)) (eat .dot s).2
  rcases hdot : eat .dot s with ⟨_ | _, s₁⟩
  · rfl
  · simp only [if_true]
    show _ = (match (expectName s₁).1 with
      | some (part, _) => dottedRest (name ++ "." ++ part)
      | none => pure none : Step (Option String)) (expectName s₁).2
    rcases hpart : expectName s₁ with ⟨_ | ⟨part, span⟩, s₂⟩
    · rfl
    · have hlt : s₂.left < s.left :=
        Nat.lt_of_le_of_lt (left_le_of_expectName hpart) (left_lt_of_eat hdot (by decide))
      simp only [dif_pos hlt]

/-- After a name, names with dots between them go on. -/
theorem reads_dottedRest (name : String) (s : Cursor) :
    s.Reads (dottedRest name) fun us result =>
      ∀ ts, DottedName ts name → ∃ full, result = some full ∧ DottedName (ts ++ us) full := by
  induction hn : s.left using Nat.strongRecOn generalizing name s with
  | ind n ih =>
    refine Cursor.Reads.congr ?_ (dottedRest_eq name s)
    refine reads_bind (reads_eat (by decide)) fun there s₁ hthere => ?_
    cases there with
    | false =>
      refine reads_pure fun us _ hus ts hts => ⟨name, rfl, ?_⟩
      obtain rfl : us = [] := by simpa using hus
      simpa using hts
    | true =>
      refine reads_bind reads_expectName fun next s₂ hnext => ?_
      cases next with
      | none => exact reads_pure fun _ _ ⟨_, _, _, _, h⟩ => nomatch h
      | some next =>
        have hlt : s₂.left < s.left :=
          Nat.lt_of_le_of_lt (left_le_of_expectName hnext) (left_lt_of_eat hthere (by decide))
        refine (ih s₂.left (hn ▸ hlt) (name ++ "." ++ next.1) s₂ rfl).mono ?_
        intro us result hus qs _ ⟨part, span, hqs, hpart, hsome⟩ ps _ hps ts hts
        cases hsome
        obtain ⟨dot, rfl, hdot⟩ : ∃ dot, ps = [dot] ∧ dot.kind = .dot := by simpa using hps
        obtain ⟨full, hresult, hfull⟩ := hus _ (.dotted hts hdot hpart)
        refine ⟨full, hresult, ?_⟩
        rw [hqs]
        simpa using hfull

theorem reads_parseDottedName :
    s.Reads parseDottedName fun ts result => ∃ name, result = some name ∧ DottedName ts name := by
  refine reads_bind reads_expectName fun first s₁ _ => ?_
  cases first with
  | none => exact reads_pure fun _ _ ⟨_, _, _, _, h⟩ => nomatch h
  | some first =>
    refine (reads_dottedRest first.1 s₁).mono fun us result hus ts _ ⟨t, _, hts, ht, hfirst⟩ => ?_
    cases hfirst
    rw [hts]
    exact hus [t] (.single ht)

/-- Whether tokens have a form with a value that a result is, but for the places. -/
def Given (form : List Token → α → Prop) (bare : β → α) (ts : List Token) (result : Option β) :
    Prop := ∃ b, result = some b ∧ form ts (bare b)

theorem bare_typeOfName_eq (name : String) (absolute : Bool) (span : Span) :
    (typeOfName name absolute span).bare = typeOfName name absolute .nowhere := by
  unfold typeOfName
  split
  · rfl
  · rfl

theorem reads_parseType : s.Reads parseType (Given TypeForm TypeRef.bare) := by
  refine reads_get (reads_bind (reads_eat (by decide)) fun absolute s₁ _ => ?_)
  refine reads_bind reads_parseDottedName fun name s₂ _ => ?_
  cases name with
  | none => exact reads_pure fun _ _ ⟨_, h, _⟩ => nomatch h
  | some name =>
    refine reads_bind (reads_spanFrom _) fun span _ _ => reads_pure ?_
    intro us _ hus ts _ ⟨_, hname, hts⟩ dots _ hdots
    cases hname
    refine ⟨_, rfl, ?_⟩
    rw [bare_typeOfName_eq, hus, List.append_nil, List.append_nil]
    cases absolute with
    | true =>
      obtain ⟨dot, rfl, hdot⟩ : ∃ dot, dots = [dot] ∧ dot.kind = .dot := by simpa using hdots
      exact .absolute hdot hts
    | false =>
      obtain rfl : dots = [] := by simpa using hdots
      exact typeForm_of_dottedName hts

/-! ### Fields and enum values -/

/-- What a label takes. Without a label, the cursor stays before a token that is none. -/
theorem reads_parseLabel :
    s.Reads parseLabel fun ts label =>
      match label with
      | .repeated => ∃ t, ts = [t] ∧ t.kind = .keyword .repeatedWord
      | .optional => ∃ t, ts = [t] ∧ t.kind = .keyword .optionalWord
      | .single => ts = [] ∧ s.kind ≠ .keyword .repeatedWord ∧ s.kind ≠ .keyword .optionalWord := by
  refine reads_bind (reads_eat (by decide)) fun there s₁ hthere => ?_
  rw [eat_eq] at hthere
  cases there with
  | true => exact reads_pure fun ts _ hts => by simpa using hts
  | false =>
    split at hthere
    · cases hthere
    · rename_i hrepeated
      cases hthere
      refine reads_bind (reads_eat (by decide)) fun there s₂ hthere => ?_
      rw [eat_eq] at hthere
      cases there with
      | true =>
        refine reads_pure fun ts _ hts us _ hus => ?_
        obtain rfl : us = [] := by simpa using hus
        simpa using hts
      | false =>
        split at hthere
        · cases hthere
        · rename_i hoptional
          refine reads_pure fun ts _ hts us _ hus => ⟨?_, hrepeated, hoptional⟩
          obtain rfl : us = [] := by simpa using hus
          simpa using hts

theorem reads_parseFieldNumber :
    s.Reads parseFieldNumber fun ts number =>
      ∃ n : Nat, number = some n ∧ IntegerForm ts n ∧ 1 ≤ n ∧ n ≤ 536870911 := by
  refine reads_get (reads_bind reads_parseInteger fun value s₁ _ => ?_)
  cases value with
  | none => exact reads_pure fun _ _ ⟨_, h, _⟩ => nomatch h
  | some value =>
    simp only
    split
    · rename_i hrange
      refine reads_pure fun ts _ ⟨_, hvalue, hts⟩ => ⟨value.toNat, rfl, ?_⟩
      cases hvalue
      have hnat : (value.toNat : Int) = value := Int.toNat_of_nonneg (by omega)
      rw [List.append_nil, hnat]
      refine ⟨hts, ?_, ?_⟩
      · omega
      · have hmax : value ≤ 536870911 := hrange.2
        omega
    · exact reads_bind (reads_report _) fun _ _ _ => reads_pure fun _ _ h => False.elim h

theorem reads_parseEnumNumber :
    s.Reads parseEnumNumber fun ts number =>
      ∃ n : Int, number = some n ∧ IntegerForm ts n ∧ -2147483648 ≤ n ∧ n ≤ 2147483647 := by
  refine reads_get (reads_bind reads_parseInteger fun value s₁ _ => ?_)
  cases value with
  | none => exact reads_pure fun _ _ ⟨_, h, _⟩ => nomatch h
  | some value =>
    simp only
    split
    · rename_i hrange
      refine reads_pure fun ts _ ⟨_, hvalue, hts⟩ => ⟨value, rfl, ?_⟩
      cases hvalue
      rw [List.append_nil]
      exact ⟨hts, hrange.1, by omega⟩
    · exact reads_bind (reads_report _) fun _ _ _ => reads_pure fun _ _ h => False.elim h

theorem TypeForm.ne_nil {ts : List Token} {type : TypeRef} (h : TypeForm ts type) : ts ≠ [] := by
  have hname {ts : List Token} {name : String} (h : DottedName ts name) : ts ≠ [] := by
    cases h with
    | single ht => simp
    | dotted h hdot hpart => simp
  cases h with
  | scalar ht htext => simp
  | relative h hn => exact hname h
  | absolute hdot h => simp

theorem kind_of_rest {t : Token} {ts us : List Token} (h : s.rest = t :: ts ++ us) :
    s.kind = t.kind := by
  unfold Cursor.kind
  rw [h]
  rfl

theorem fieldHead_of {labels types us : List Token} {label : FieldLabel} {type : TypeRef}
    (hrest : s.rest = labels ++ (types ++ us))
    (hlabel : match label with
      | .repeated => ∃ t, labels = [t] ∧ t.kind = .keyword .repeatedWord
      | .optional => ∃ t, labels = [t] ∧ t.kind = .keyword .optionalWord
      | .single =>
        labels = [] ∧ s.kind ≠ .keyword .repeatedWord ∧ s.kind ≠ .keyword .optionalWord)
    (htype : TypeForm types type) : FieldHead (labels ++ types) label type := by
  cases label with
  | repeated =>
    obtain ⟨t, rfl, ht⟩ := hlabel
    exact .repeated htype ht
  | optional =>
    obtain ⟨t, rfl, ht⟩ := hlabel
    exact .optional htype ht
  | single =>
    obtain ⟨rfl, hrepeated, hoptional⟩ := hlabel
    obtain ⟨t, ts, rfl⟩ := List.exists_cons_of_ne_nil htype.ne_nil
    have hkind : s.kind = t.kind := kind_of_rest hrest
    rw [hkind] at hrepeated hoptional
    exact .single htype fun h => h.elim hrepeated hoptional

theorem reads_parseField : s.Reads parseField (Given FieldForm Field.bare) := by
  refine reads_get (reads_bind reads_parseLabel fun label s₁ hlabel => ?_)
  refine reads_bind reads_parseType fun type s₂ _ => ?_
  cases type with
  | none => exact reads_giveUp fun _ _ _ ⟨_, h, _⟩ => nomatch h
  | some type =>
    refine reads_bind reads_expectName fun name s₃ _ => ?_
    cases name with
    | none => exact reads_giveUp fun _ _ _ ⟨_, _, _, _, h⟩ => nomatch h
    | some name =>
      refine reads_bind (reads_expect (by decide)) fun there s₄ _ => ?_
      refine reads_unless (fun h _ _ _ ⟨hthere, _⟩ => nomatch h.symm.trans hthere) fun _ => ?_
      refine reads_get (reads_bind reads_parseFieldNumber fun number s₅ _ => ?_)
      cases number with
      | none => exact reads_giveUp fun _ _ _ ⟨_, h, _⟩ => nomatch h
      | some number =>
        refine reads_bind (reads_expect (by decide)) fun _ _ _ => ?_
        refine reads_bind (reads_spanFrom _) fun span _ _ => reads_pure ?_
        intro es _ hes semis _ ⟨_, semi, hsemis, hsemi⟩ ns _ ⟨n, hn, hnumber, hlow, hhigh⟩
          eqs _ ⟨_, eq, heqs, heq⟩ names _ ⟨nameToken, _, hnames, hname, hnamed⟩
          types hrest ⟨_, htype, htypes⟩ labels hstart hlabels
        cases htype
        cases hn
        cases hnamed
        have hhead : FieldHead (labels ++ types) label type.bare :=
          fieldHead_of (hstart.trans (congrArg (labels ++ ·) hrest)) hlabels htypes
        refine ⟨_, rfl, ?_⟩
        rw [hnames, heqs, hsemis, hes]
        have hform := FieldForm.field hhead hname heq hnumber ⟨hlow, hhigh⟩ hsemi
        simpa [Field.bare] using hform

theorem reads_parseEnumValue : s.Reads parseEnumValue (Given EnumValueForm EnumValue.bare) := by
  refine reads_get (reads_bind reads_expectName fun name s₁ _ => ?_)
  cases name with
  | none => exact reads_giveUp fun _ _ _ ⟨_, _, _, _, h⟩ => nomatch h
  | some name =>
    refine reads_bind (reads_expect (by decide)) fun there s₂ _ => ?_
    refine reads_unless (fun h _ _ _ ⟨hthere, _⟩ => nomatch h.symm.trans hthere) fun _ => ?_
    refine reads_bind reads_parseEnumNumber fun number s₃ _ => ?_
    cases number with
    | none => exact reads_giveUp fun _ _ _ ⟨_, h, _⟩ => nomatch h
    | some number =>
      refine reads_bind (reads_expect (by decide)) fun _ _ _ => ?_
      refine reads_bind (reads_spanFrom _) fun span _ _ => reads_pure ?_
      intro es _ hes semis _ ⟨_, semi, hsemis, hsemi⟩ ns _ ⟨n, hn, hnumber, hlow, hhigh⟩
        eqs _ ⟨_, eq, heqs, heq⟩ names _ ⟨nameToken, _, hnames, hname, hnamed⟩
      cases hn
      cases hnamed
      refine ⟨_, rfl, ?_⟩
      rw [hnames, heqs, hsemis, hes]
      have hform := EnumValueForm.value hname heq hnumber ⟨hlow, hhigh⟩ hsemi
      simpa [EnumValue.bare] using hform

/-! ### Enums -/

/-- A step, and what comes after it if it took tokens. -/
def repeatedly (step : Step α) (next : α → Step β) (stop : α → β) : Step β := fun s =>
  if (step s).2.left < s.left then next (step s).1 (step s).2
  else (stop (step s).1, (step s).2)

/-- A step that takes no tokens has complained. -/
theorem reads_repeatedly {form' : List Token → β → Prop} {step : Step α} {next : α → Step β}
    {stop : α → β} (hstep : s.Reads step form) (hform : ∀ ts a, form ts a → ts ≠ [])
    (hnext : ∀ a (s₁ : Cursor), s₁.left < s.left →
      s₁.Reads (next a) fun us b => ∀ ts, form ts a → form' (ts ++ us) b) :
    s.Reads (repeatedly step next stop) form' := by
  by_cases hlt : (step s).2.left < s.left
  · have hboth : s.Reads (step >>= next) form' := by
      refine reads_bind hstep fun a s₁ hs => ?_
      rw [hs] at hlt
      exact (hnext a s₁ hlt).mono fun us b h ts _ => h ts
    exact hboth.congr (if_pos hlt)
  · have hstop : s.Reads (step >>= fun a => pure (stop a)) form' := by
      refine reads_bind hstep fun a s₁ hs => reads_pure fun ts hts hts' => ?_
      rw [hs] at hlt
      exact absurd (left_lt_of_taken hts (hform ts a hts')) hlt
    exact hstop.congr (if_neg hlt)

/-- What may stand in an enum. A semicolon gives no value. -/
def enumMember : Step (Option EnumValue) := fun s =>
  if s.kind = .semicolon then (none, s.advance) else parseEnumValue s

theorem enumBody_eq (values : List EnumValue) (s : Cursor) :
    enumBody values s =
      if s.atEnd ∨ s.kind = .closeBrace then (values, s)
      else repeatedly enumMember (fun value => enumBody (value.toList ++ values))
        (fun value => value.toList ++ values) s := by
  rw [enumBody.eq_def]
  split
  · rfl
  · simp only [dite_eq_ite]
    rfl

/-- What stands in an enum gives a value, or nothing where it is a semicolon. -/
inductive EnumMemberForm : List Token → Option EnumValue → Prop
  | semicolon {t : Token} (ht : t.kind = .semicolon) : EnumMemberForm [t] none
  | value {ts : List Token} {v : EnumValue} (h : EnumValueForm ts v.bare) :
      EnumMemberForm ts (some v)

theorem EnumMemberForm.ne_nil {ts : List Token} {value : Option EnumValue}
    (h : EnumMemberForm ts value) : ts ≠ [] := by
  cases h with
  | semicolon ht => simp
  | value h =>
    generalize EnumValue.bare _ = v at h
    cases h with
    | value => simp

theorem reads_enumMember (hs : s.kind ≠ .endOfFile) : s.Reads enumMember EnumMemberForm := by
  by_cases hsemicolon : s.kind = .semicolon
  · have hskip : s.Reads (modify Cursor.advance >>= fun _ => pure (none : Option EnumValue))
        EnumMemberForm := by
      refine reads_bind (reads_advance hs) fun _ _ _ => reads_pure fun ts _ ⟨t, hts, ht, _⟩ => ?_
      rw [hts]
      exact .semicolon (ht.trans hsemicolon)
    exact hskip.congr (if_pos hsemicolon)
  · refine (reads_parseEnumValue.mono fun ts value hvalue => ?_).congr (if_neg hsemicolon)
    obtain ⟨v, rfl, hv⟩ := hvalue
    exact .value hv

theorem reads_enumBody (values : List EnumValue) (s : Cursor) :
    s.Reads (enumBody values) fun ts result =>
      ∃ more : List EnumValue, result = more.reverse ++ values ∧
        EnumBody ts (more.map EnumValue.bare) := by
  induction hn : s.left using Nat.strongRecOn generalizing values s with
  | ind n ih =>
    by_cases hstop : s.atEnd ∨ s.kind = .closeBrace
    · have hnone : s.Reads (pure values : Step (List EnumValue)) fun ts result =>
          ∃ more : List EnumValue, result = more.reverse ++ values ∧
            EnumBody ts (more.map EnumValue.bare) := reads_pure ⟨[], rfl, .nil⟩
      exact hnone.congr (by rw [enumBody_eq, if_pos hstop]; rfl)
    · have hend : s.kind ≠ .endOfFile := fun h => hstop (.inl (by simp [Cursor.atEnd, h]))
      refine Cursor.Reads.congr ?_ (by rw [enumBody_eq, if_neg hstop])
      refine reads_repeatedly (reads_enumMember hend) (fun _ _ h => h.ne_nil) fun value s₁ hlt => ?_
      refine (ih s₁.left (hn ▸ hlt) _ s₁ rfl).mono fun us result hus ts hts => ?_
      obtain ⟨more, hresult, hmore⟩ := hus
      cases hts with
      | semicolon ht => exact ⟨more, hresult, .semicolon ht hmore⟩
      | @value _ v hv =>
        refine ⟨v :: more, ?_, .value hv hmore⟩
        rw [hresult]
        simp

theorem reads_parseEnum (hs : s.kind = .keyword .enumWord) :
    s.Reads parseEnum fun ts decl => EnumForm ts decl.bare := by
  have hend : s.kind ≠ .endOfFile := by rw [hs]; decide
  refine reads_get (reads_bind (reads_advance hend) fun _ _ _ => ?_)
  refine reads_bind reads_declaredName fun name s₂ _ => ?_
  refine reads_bind (reads_expect (by decide)) fun there s₃ _ => ?_
  cases there with
  | true =>
    refine reads_bind (reads_enumBody [] s₃) fun values s₄ _ => ?_
    refine reads_bind (reads_expect (by decide)) fun _ _ _ => ?_
    refine reads_bind (reads_spanFrom _) fun span _ _ => reads_pure ?_
    rintro es _ hes cs _ ⟨_, closing, hcs, hclosing⟩ body _ ⟨more, hvalues, hbody⟩
      os _ ⟨_, opening, hos, hopening⟩ names _ ⟨nameToken, hnames, hname, hnamed⟩
      words _ ⟨word, hwords, hword, _⟩
    have hform := EnumForm.enumeration (hword.trans hs) hname hopening hbody hclosing
    rw [hwords, hnames, hos, hcs, hes]
    simpa [EnumDecl.bare, hvalues, hnamed] using hform
  | false =>
    refine reads_bind reads_recover fun _ _ _ => ?_
    refine reads_bind (reads_spanFrom _) fun span _ _ => reads_pure ?_
    rintro _ _ _ _ _ _ _ _ ⟨h, _⟩
    cases h

/-! ### Messages -/

theorem left_expect_le (kind : TokenKind) (s : Cursor) (hkind : kind ≠ .endOfFile) :
    (expect kind s).2.left ≤ s.left := (reads_expect hkind).before.left_le

theorem left_lt_of_opening {name : String × Span} {there : Bool} {s₁ s₂ : Cursor}
    (hs : s.kind ≠ .endOfFile) (hname : declaredName s.advance = (name, s₁))
    (hopen : expect .openBrace s₁ = (there, s₂)) : s₂.left < s.left := by
  have hadvance := Cursor.left_advance_lt hs
  have hdeclared := (reads_declaredName (s := s.advance)).before.left_le
  have hexpect := left_expect_le .openBrace s₁ (by decide)
  rw [hname] at hdeclared
  rw [hopen] at hexpect
  exact Nat.lt_of_le_of_lt (Nat.le_trans hexpect hdeclared) hadvance

theorem parseMessage_eq (hs : s.kind ≠ .endOfFile) :
    parseMessage s =
      (do
        let start := (← get).span
        modify Cursor.advance
        let name ← declaredName
        if ← expect .openBrace then
          let members ← messageBody ⟨[], []⟩
          let _ ← expect .closeBrace
          let span ← spanFrom start
          return Item.message ⟨name.1, name.2, members.fields.reverse, span⟩ members.nested.reverse
        else
          recover
          return Item.message ⟨name.1, name.2, [], ← spanFrom start⟩ [] : Step Item) s := by
  rcases hname : declaredName s.advance with ⟨name, s₁⟩
  rcases hopen : expect .openBrace s₁ with ⟨there, s₂⟩
  have hlt := left_lt_of_opening hs hname hopen
  refine (parseMessage_of hname hopen).trans (Eq.symm ?_)
  refine (run_bind_of rfl).trans ((run_bind_of rfl).trans ?_)
  refine (run_bind_of hname).trans ((run_bind_of hopen).trans ?_)
  cases there with
  | true =>
    simp only [if_true, bodyAfter, if_pos hlt]
    rfl
  | false => rfl

/-- What stands in a message adds a field or a declaration to its members, or nothing. -/
inductive MemberForm (members : Members) : List Token → Members → Prop
  | semicolon {t : Token} (ht : t.kind = .semicolon) : MemberForm members [t] members
  | field {ts : List Token} {field : Field} (h : FieldForm ts field.bare) :
      MemberForm members ts { members with fields := field :: members.fields }
  | message {ts : List Token} {item : Item} (h : MessageForm ts item.bare) :
      MemberForm members ts { members with nested := item :: members.nested }
  | enumeration {ts : List Token} {decl : EnumDecl} (h : EnumForm ts decl.bare) :
      MemberForm members ts { members with nested := .enumeration decl :: members.nested }

theorem FieldForm.ne_nil {ts : List Token} {field : Field} (h : FieldForm ts field) : ts ≠ [] := by
  cases h
  simp

theorem EnumForm.ne_nil {ts : List Token} {decl : EnumDecl} (h : EnumForm ts decl) : ts ≠ [] := by
  cases h
  simp

theorem MessageForm.ne_nil {ts : List Token} {item : Item} (h : MessageForm ts item) : ts ≠ [] := by
  cases h
  simp

theorem MemberForm.ne_nil {members result : Members} {ts : List Token}
    (h : MemberForm members ts result) : ts ≠ [] := by
  cases h with
  | semicolon ht => simp
  | field h => exact h.ne_nil
  | message h => exact h.ne_nil
  | enumeration h => exact h.ne_nil

/-- Takes what stands in a message. -/
def messageMember (members : Members) : Step Members := fun s =>
  memberStep (parseMessage s) members s

theorem messageBody_eq_repeatedly (members : Members) (s : Cursor) :
    messageBody members s =
      if s.atEnd ∨ s.kind = .closeBrace then (members, s)
      else repeatedly (messageMember members) messageBody id s := messageBody_eq members s

theorem reads_messageMember (members : Members) (hs : s.kind ≠ .endOfFile)
    (hmessage : s.kind = .keyword .messageWord →
      s.Reads parseMessage fun ts item => MessageForm ts item.bare) :
    s.Reads (messageMember members) (MemberForm members) := by
  by_cases hopens : s.kind = .keyword .messageWord ∧ s.opensDeclaration
  · have hadd : s.Reads (parseMessage >>= fun item =>
        pure { members with nested := item :: members.nested }) (MemberForm members) :=
      reads_bind (hmessage hopens.1) fun item _ _ => reads_pure fun ts _ hts => by
        simpa using MemberForm.message hts
    exact hadd.congr (if_pos hopens)
  by_cases henum : s.kind = .keyword .enumWord ∧ s.opensDeclaration
  · have hadd : s.Reads (parseEnum >>= fun decl =>
        pure { members with nested := .enumeration decl :: members.nested }) (MemberForm members) :=
      reads_bind (reads_parseEnum henum.1) fun decl _ _ => reads_pure fun ts _ hts => by
        simpa using MemberForm.enumeration hts
    exact hadd.congr ((if_neg hopens).trans (if_pos henum))
  by_cases hsemicolon : s.kind = .semicolon
  · have hskip : s.Reads (modify Cursor.advance >>= fun _ => pure members) (MemberForm members) := by
      refine reads_bind (reads_advance hs) fun _ _ _ => reads_pure fun ts _ ⟨t, hts, ht, _⟩ => ?_
      rw [hts]
      exact .semicolon (ht.trans hsemicolon)
    exact hskip.congr ((if_neg hopens).trans ((if_neg henum).trans (if_pos hsemicolon)))
  · have hadd : s.Reads (parseField >>= fun field =>
        pure { members with fields := field.toList ++ members.fields }) (MemberForm members) := by
      refine reads_bind reads_parseField fun field _ _ => reads_pure fun ts _ ⟨f, hf, hts⟩ => ?_
      rw [hf]
      simpa using MemberForm.field hts
    exact hadd.congr ((if_neg hopens).trans ((if_neg henum).trans (if_neg hsemicolon)))

mutual

theorem reads_parseMessage (s : Cursor) (hs : s.kind = .keyword .messageWord) :
    s.Reads parseMessage fun ts item => MessageForm ts item.bare := by
  have hend : s.kind ≠ .endOfFile := by rw [hs]; decide
  refine Cursor.Reads.congr ?_ (parseMessage_eq hend)
  refine reads_get (reads_bind (reads_advance hend) fun _ s₁ hadvance => ?_)
  refine reads_bind reads_declaredName fun name s₂ hdeclared => ?_
  refine reads_bind (reads_expect (by decide)) fun there s₃ hexpect => ?_
  cases there with
  | true =>
    cases hadvance
    have hlt : s₃.left < s.left := left_lt_of_opening hend hdeclared hexpect
    refine reads_bind (reads_messageBody ⟨[], []⟩ s₃) fun members s₄ _ => ?_
    refine reads_bind (reads_expect (by decide)) fun _ _ _ => ?_
    refine reads_bind (reads_spanFrom _) fun span _ _ => reads_pure ?_
    intro es _ hes cs _ ⟨_, closing, hcs, hclosing⟩ body _ ⟨fields, nested, hfields, hnested, hbody⟩
      os _ ⟨_, opening, hos, hopening⟩ names _ ⟨nameToken, hnames, hname, hnamed⟩
      words _ ⟨word, hwords, hword, _⟩
    have hform := MessageForm.message (hword.trans hs) hname hopening hbody hclosing
    rw [hwords, hnames, hos, hcs, hes]
    simpa [Item.bare, MessageDecl.bare, bareItems_eq_map, hfields, hnested, hnamed] using hform
  | false =>
    refine reads_bind reads_recover fun _ _ _ => ?_
    refine reads_bind (reads_spanFrom _) fun span _ _ => reads_pure ?_
    exact fun _ _ _ _ _ _ _ _ ⟨h, _⟩ => nomatch h
termination_by (s.left, 0)
decreasing_by exact Prod.Lex.left _ _ hlt

theorem reads_messageBody (members : Members) (s : Cursor) :
    s.Reads (messageBody members) fun ts result =>
      ∃ (fields : List Field) (nested : List Item),
        result.fields = fields.reverse ++ members.fields ∧
        result.nested = nested.reverse ++ members.nested ∧
        MessageBody ts (fields.map Field.bare) (nested.map Item.bare) := by
  by_cases hstop : s.atEnd ∨ s.kind = .closeBrace
  · have hnone : s.Reads (pure members : Step Members) fun ts result =>
        ∃ (fields : List Field) (nested : List Item),
          result.fields = fields.reverse ++ members.fields ∧
          result.nested = nested.reverse ++ members.nested ∧
          MessageBody ts (fields.map Field.bare) (nested.map Item.bare) :=
      reads_pure ⟨[], [], rfl, rfl, .nil⟩
    exact hnone.congr (by rw [messageBody_eq_repeatedly, if_pos hstop]; rfl)
  · have hend : s.kind ≠ .endOfFile := fun h => hstop (.inl (by simp [Cursor.atEnd, h]))
    refine Cursor.Reads.congr ?_ (by rw [messageBody_eq_repeatedly, if_neg hstop])
    refine reads_repeatedly (reads_messageMember members hend (reads_parseMessage s))
      (fun _ _ h => h.ne_nil) fun next s₁ hlt => ?_
    refine (reads_messageBody next s₁).mono ?_
    intro us result ⟨fields, nested, hfields, hnested, hbody⟩ ts hts
    cases hts with
    | semicolon ht => exact ⟨fields, nested, hfields, hnested, .semicolon ht hbody⟩
    | @field _ field h =>
      exact ⟨field :: fields, nested, by simpa using hfields, hnested, .field h hbody⟩
    | @message _ item h =>
      exact ⟨fields, item :: nested, hfields, by simpa using hnested, .message h hbody⟩
    | @enumeration _ decl h =>
      exact ⟨fields, .enumeration decl :: nested, hfields, by simpa using hnested,
        .enumeration h hbody⟩
termination_by (s.left, 1)

end

/-! ### Files -/

/-- What a statement adds to a file, given whether it is the first. -/
inductive Adds (first : Bool) (file : File) : List Token → File → Prop
  | specified {ts : List Token} {decl : SyntaxDecl} (hfirst : first = true)
      (h : SyntaxForm ts (some decl.bare)) (hts : ts ≠ []) :
      Adds first file ts { file with syntaxDecl := some decl }
  | package {ts : List Token} {decl : PackageDecl} (hnone : file.package = none)
      (h : StatementForm ts (.package decl.bare)) :
      Adds first file ts { file with package := some decl }
  | imported {ts : List Token} {decl : Import} (h : StatementForm ts (.imported decl.bare)) :
      Adds first file ts { file with imports := decl :: file.imports }
  | declared {ts : List Token} {item : Item} (h : StatementForm ts (.declared item.bare)) :
      Adds first file ts { file with items := item :: file.items }
  | empty {ts : List Token} (h : StatementForm ts .empty) : Adds first file ts file

theorem reads_parseSyntax (hs : s.kind = .keyword .syntaxWord) :
    s.Reads parseSyntax fun ts decl =>
      ∃ d, decl = some d ∧ ts ≠ [] ∧ SyntaxForm ts (some d.bare) := by
  have hend : s.kind ≠ .endOfFile := by rw [hs]; decide
  refine reads_get (reads_bind (reads_advance hend) fun _ _ _ => ?_)
  refine reads_bind (reads_expect (by decide)) fun there s₂ _ => ?_
  refine reads_unless (fun h _ _ _ ⟨hthere, _⟩ => nomatch h.symm.trans hthere) fun _ => ?_
  refine reads_get (reads_bind reads_expectString fun value s₃ _ => ?_)
  cases value with
  | none => exact reads_giveUp fun _ _ _ ⟨_, _, _, h⟩ => nomatch h
  | some value =>
    refine reads_bind (reads_expect (by decide)) fun _ s₄ _ => ?_
    simp only
    split
    · exact reads_bind (reads_report _) fun _ _ _ => reads_bind (reads_spanFrom _) fun _ _ _ =>
        reads_pure fun _ _ _ _ _ h => False.elim h
    · rename_i hknown
      refine reads_bind (reads_spanFrom _) fun span _ _ => reads_pure ?_
      intro es _ hes semis _ ⟨_, semi, hsemis, hsemi⟩ values _ ⟨valueToken, hvalues, hvalue, hv⟩
        eqs _ ⟨_, eq, heqs, heq⟩ words _ ⟨word, hwords, hword, _⟩
      cases hv
      have hone : unquote valueToken.text = "schema1" ∨ unquote valueToken.text = "schema2" := by
        rw [or_iff_not_imp_left]
        simpa [File.knownSyntaxes] using hknown
      rw [hwords, heqs, hvalues, hsemis, hes]
      exact ⟨_, rfl, by simp, .specified (hword.trans hs) heq hvalue hone hsemi⟩

theorem reads_parsePackage (hs : s.kind = .keyword .packageWord) :
    s.Reads parsePackage fun ts decl =>
      ∃ d, decl = some d ∧ StatementForm ts (.package d.bare) := by
  have hend : s.kind ≠ .endOfFile := by rw [hs]; decide
  refine reads_get (reads_bind (reads_advance hend) fun _ _ _ => ?_)
  refine reads_bind reads_parseDottedName fun name s₂ _ => ?_
  cases name with
  | none => exact reads_giveUp fun _ _ _ ⟨_, h, _⟩ => nomatch h
  | some name =>
    refine reads_bind (reads_expect (by decide)) fun _ _ _ => ?_
    refine reads_bind (reads_spanFrom _) fun span _ _ => reads_pure ?_
    intro es _ hes semis _ ⟨_, semi, hsemis, hsemi⟩ names _ ⟨_, hname, hnames⟩
      words _ ⟨word, hwords, hword, _⟩
    cases hname
    have hform := StatementForm.package (hword.trans hs) hnames hsemi
    rw [hwords, hsemis, hes]
    exact ⟨_, rfl, by simpa [PackageDecl.bare] using hform⟩

theorem reads_parseImport (hs : s.kind = .keyword .importWord) :
    s.Reads parseImport fun ts decl =>
      ∃ d, decl = some d ∧ StatementForm ts (.imported d.bare) := by
  have hend : s.kind ≠ .endOfFile := by rw [hs]; decide
  refine reads_get (reads_bind (reads_advance hend) fun _ _ _ => ?_)
  refine reads_bind (reads_eat (by decide)) fun isPublic s₂ _ => ?_
  refine reads_bind reads_expectString fun path s₃ _ => ?_
  cases path with
  | none => exact reads_giveUp fun _ _ _ ⟨_, _, _, h⟩ => nomatch h
  | some path =>
    refine reads_bind (reads_expect (by decide)) fun _ _ _ => ?_
    refine reads_bind (reads_spanFrom _) fun span _ _ => reads_pure ?_
    intro es _ hes semis _ ⟨_, semi, hsemis, hsemi⟩ paths _ ⟨pathToken, hpaths, hpath, hp⟩
      publics _ hpublics words _ ⟨word, hwords, hword, _⟩
    cases hp
    rw [hwords, hpaths, hsemis, hes]
    refine ⟨_, rfl, ?_⟩
    cases isPublic with
    | true =>
      obtain ⟨t, rfl, ht⟩ : ∃ t, publics = [t] ∧ t.kind = .keyword .publicWord := by
        simpa using hpublics
      exact .importedPublicly (hword.trans hs) ht hpath hsemi
    | false =>
      obtain rfl : publics = [] := by simpa using hpublics
      exact .imported (hword.trans hs) hpath hsemi

theorem reads_fileSyntax (first : Bool) (file : File) (hs : s.kind = .keyword .syntaxWord) :
    s.Reads (fileSyntax first file) (Adds first file) := by
  refine reads_bind (reads_parseSyntax hs) fun decl s₁ _ => ?_
  cases decl with
  | none => exact reads_pure fun _ _ ⟨_, h, _⟩ => nomatch h
  | some decl =>
    simp only
    split
    · rename_i hfirst
      refine reads_pure fun ts _ ⟨d, hd, hne, hts⟩ => ?_
      cases hd
      simpa using Adds.specified hfirst hts hne
    · exact reads_bind (reads_report _) fun _ _ _ => reads_pure fun _ _ h => False.elim h

theorem reads_filePackage (first : Bool) (file : File) (hs : s.kind = .keyword .packageWord) :
    s.Reads (filePackage file) (Adds first file) := by
  refine reads_bind (reads_parsePackage hs) fun decl s₁ _ => ?_
  cases decl with
  | none => exact reads_pure fun _ _ ⟨_, h, _⟩ => nomatch h
  | some decl =>
    cases hp : file.package with
    | none =>
      simp only
      refine reads_pure fun ts _ ⟨d, hd, hts⟩ => ?_
      cases hd
      simpa using Adds.package hp hts
    | some earlier =>
      exact reads_bind (reads_report _) fun _ _ _ => reads_pure fun _ _ h => False.elim h

theorem reads_skipStray : s.Reads skipStray fun _ _ => False := by
  refine reads_bind (reads_complain _) fun _ s₁ _ => ?_
  have hadvance : s₁.Reads (modify Cursor.advance) fun _ _ => True :=
    reads_modify (before_advance s₁)
  refine reads_bind hadvance fun _ _ _ => reads_bind reads_recover fun _ _ _ => ?_
  refine reads_bind (reads_eat (by decide)) fun _ _ _ => reads_pure ?_
  exact fun _ _ _ _ _ _ _ _ _ _ _ h => h

theorem reads_statement (first : Bool) (file : File) (hs : s.kind ≠ .endOfFile) :
    s.Reads (statement first file) (Adds first file) := by
  refine reads_get ?_
  split
  · rename_i hkind
    exact reads_fileSyntax first file hkind
  · rename_i hkind
    exact reads_filePackage first file hkind
  · rename_i hkind
    refine reads_bind (reads_parseImport hkind) fun decl _ _ => reads_pure fun ts _ ⟨d, hd, hts⟩ => ?_
    rw [hd]
    simpa using Adds.imported hts
  · rename_i hkind
    refine reads_bind (reads_parseMessage s hkind) fun item _ _ => reads_pure fun ts _ hts => ?_
    simpa using Adds.declared (.message hts)
  · rename_i hkind
    refine reads_bind (reads_parseEnum hkind) fun decl _ _ => reads_pure fun ts _ hts => ?_
    have hitem : StatementForm ts (.declared (Item.enumeration decl).bare) := .enumeration hts
    simpa using Adds.declared hitem
  · rename_i hkind
    refine reads_bind (reads_advance hs) fun _ _ _ => reads_pure fun ts _ ⟨t, hts, ht, _⟩ => ?_
    rw [hts]
    exact .empty (.empty (ht.trans hkind))
  · exact reads_bind reads_skipStray fun _ _ _ => reads_pure fun _ _ h => False.elim h

theorem StatementForm.ne_nil {ts : List Token} {said : Statement} (h : StatementForm ts said) :
    ts ≠ [] := by
  cases h with
  | empty => simp
  | package => simp
  | imported => simp
  | importedPublicly => simp
  | message h => exact h.ne_nil
  | enumeration h => exact h.ne_nil

theorem Adds.ne_nil {first : Bool} {file result : File} {ts : List Token}
    (h : Adds first file ts result) : ts ≠ [] := by
  cases h with
  | specified _ _ hts => exact hts
  | package _ h => exact h.ne_nil
  | imported h => exact h.ne_nil
  | declared h => exact h.ne_nil
  | empty h => exact h.ne_nil

/-- Whether a file has become another by statements, places aside; what was added latest is first.
There was at most one package statement in all. -/
structure Grown (file : File) (said : List Statement) (result : File) : Prop where
  syntaxDecl : result.syntaxDecl = file.syntaxDecl
  package : result.package.map PackageDecl.bare =
    ((file.package.map PackageDecl.bare).toList ++ said.filterMap Statement.package?).head?
  single : ((file.package.map PackageDecl.bare).toList ++
    said.filterMap Statement.package?).length ≤ 1
  imports : result.imports.map Import.bare =
    (said.filterMap Statement.import?).reverse ++ file.imports.map Import.bare
  items : result.items.map Item.bare =
    (said.filterMap Statement.item?).reverse ++ file.items.map Item.bare

theorem Grown.refl (file : File) : Grown file [] file := by
  refine ⟨rfl, ?_, ?_, by simp, by simp⟩
  · cases file.package <;> rfl
  · cases file.package <;> simp

theorem toList_head? {l : List α} (h : l.length ≤ 1) : l.head?.toList = l := by
  match l, h with
  | [], _ => rfl
  | [a], _ => rfl

theorem Grown.append {file next result : File} {said others : List Statement}
    (h : Grown file said next) (h' : Grown next others result) :
    Grown file (said ++ others) result := by
  have hnext : (next.package.map PackageDecl.bare).toList =
      (file.package.map PackageDecl.bare).toList ++ said.filterMap Statement.package? := by
    rw [h.package, toList_head? h.single]
  have hpackage := h'.package
  have hsingle := h'.single
  rw [hnext] at hpackage hsingle
  refine ⟨h'.syntaxDecl.trans h.syntaxDecl, ?_, ?_, ?_, ?_⟩
  · rw [hpackage, List.filterMap_append, List.append_assoc]
  · rwa [List.filterMap_append, ← List.append_assoc]
  · rw [h'.imports, h.imports, List.filterMap_append, List.reverse_append, List.append_assoc]
  · rw [h'.items, h.items, List.filterMap_append, List.reverse_append, List.append_assoc]

/-- A statement that is no package statement leaves the package as it is. -/
theorem Grown.unpackaged {file next : File} {said : Statement} (hsaid : said.package? = none)
    (hdecl : next.syntaxDecl = file.syntaxDecl) (hpackage : next.package = file.package)
    (himports : next.imports.map Import.bare =
      said.import?.toList ++ file.imports.map Import.bare)
    (hitems : next.items.map Item.bare = said.item?.toList ++ file.items.map Item.bare) :
    Grown file [said] next := by
  have hnone : [said].filterMap Statement.package? = [] := by simp [hsaid]
  refine ⟨hdecl, ?_, ?_, ?_, ?_⟩
  · rw [hnone, hpackage]
    exact (Grown.refl file).package
  · rw [hnone]
    exact (Grown.refl file).single
  · rw [himports]
    cases said <;> rfl
  · rw [hitems]
    cases said <;> rfl

theorem Grown.packaged {file : File} {decl : PackageDecl} (h : file.package = none) :
    Grown file [.package decl.bare] { file with package := some decl } := by
  refine ⟨rfl, ?_, ?_, rfl, rfl⟩
  · simp [h, Statement.package?]
  · simp [h, Statement.package?]

theorem Adds.grown {file next : File} {ts : List Token} (h : Adds false file ts next) :
    ∃ said, StatementForm ts said ∧ Grown file [said] next := by
  cases h with
  | specified hfirst => cases hfirst
  | package hnone h => exact ⟨_, h, .packaged hnone⟩
  | imported h => exact ⟨_, h, .unpackaged rfl rfl rfl rfl rfl⟩
  | declared h => exact ⟨_, h, .unpackaged rfl rfl rfl rfl rfl⟩
  | empty h => exact ⟨_, h, .unpackaged rfl rfl rfl rfl rfl⟩

theorem statements_eq (first : Bool) (file : File) (s : Cursor) :
    statements first file s =
      if s.atEnd then (file, s)
      else repeatedly (statement first file) (statements false) id s := by
  rw [statements.eq_def]
  split
  · rfl
  · simp only [dite_eq_ite]
    rfl

theorem reads_statements (file : File) (s : Cursor) :
    s.Reads (statements false file) fun ts result =>
      ∃ said, Statements ts said ∧ Grown file said result := by
  induction hn : s.left using Nat.strongRecOn generalizing file s with
  | ind n ih =>
    by_cases hend : s.atEnd
    · have hnone : s.Reads (pure file : Step File) fun ts result =>
          ∃ said, Statements ts said ∧ Grown file said result :=
        reads_pure ⟨[], .nil, .refl file⟩
      exact hnone.congr (by rw [statements_eq, if_pos hend]; rfl)
    · have hkind : s.kind ≠ .endOfFile := fun h => hend (by simp [Cursor.atEnd, h])
      refine Cursor.Reads.congr ?_ (by rw [statements_eq, if_neg hend])
      refine reads_repeatedly (reads_statement false file hkind) (fun _ _ h => h.ne_nil) ?_
      intro next s₁ hlt
      refine (ih s₁.left (hn ▸ hlt) next s₁ rfl).mono ?_
      intro us result ⟨said, hsaid, hgrown⟩ ts hts
      obtain ⟨first, hfirst, hnext⟩ := hts.grown
      exact ⟨first :: said, .cons hfirst hsaid, hnext.append hgrown⟩

/-- The first statement may be a syntax statement. -/
theorem Adds.of_first {file next : File} {ts : List Token} (h : Adds true file ts next) :
    Adds false file ts next ∨
      ∃ decl : SyntaxDecl, SyntaxForm ts (some decl.bare) ∧
        next = { file with syntaxDecl := some decl } := by
  cases h with
  | specified hfirst h hts => exact .inr ⟨_, h, rfl⟩
  | package hnone h => exact .inl (.package hnone h)
  | imported h => exact .inl (.imported h)
  | declared h => exact .inl (.declared h)
  | empty h => exact .inl (.empty h)

theorem reads_file (file : File) (hfile : file.syntaxDecl = none) (s : Cursor) :
    s.Reads (statements true file) fun ts result =>
      ∃ head body decl said, ts = head ++ body ∧ SyntaxForm head decl ∧ Statements body said ∧
        result.syntaxDecl.map SyntaxDecl.bare = decl ∧
        Grown { file with syntaxDecl := result.syntaxDecl } said result := by
  by_cases hend : s.atEnd
  · have hnone : s.Reads (pure file : Step File) fun ts result =>
        ∃ head body decl said, ts = head ++ body ∧ SyntaxForm head decl ∧ Statements body said ∧
          result.syntaxDecl.map SyntaxDecl.bare = decl ∧
          Grown { file with syntaxDecl := result.syntaxDecl } said result := by
      refine reads_pure ⟨[], [], none, [], rfl, .unspecified, .nil, ?_, .refl file⟩
      rw [hfile]
      rfl
    exact hnone.congr (by rw [statements_eq, if_pos hend]; rfl)
  · have hkind : s.kind ≠ .endOfFile := fun h => hend (by simp [Cursor.atEnd, h])
    refine Cursor.Reads.congr ?_ (by rw [statements_eq, if_neg hend])
    refine reads_repeatedly (reads_statement true file hkind) (fun _ _ h => h.ne_nil) ?_
    intro next s₁ hlt
    refine (reads_statements next s₁).mono fun us result ⟨said, hsaid, hgrown⟩ ts hts => ?_
    rcases hts.of_first with hts | ⟨decl, hdecl, rfl⟩
    · obtain ⟨first, hfirst, hnext⟩ := hts.grown
      have hall : Grown file (first :: said) result := hnext.append hgrown
      refine ⟨[], ts ++ us, none, first :: said, rfl, .unspecified, .cons hfirst hsaid, ?_, ?_⟩
      · rw [hall.syntaxDecl, hfile]
        rfl
      · rw [hall.syntaxDecl]
        exact hall
    · refine ⟨ts, us, some decl.bare, said, rfl, hdecl, hsaid, ?_, ?_⟩
      · rw [hgrown.syntaxDecl]
        rfl
      · rw [hgrown.syntaxDecl]
        exact hgrown

/-- Statements are taken up to the end of the file. -/
theorem kind_after_statements (first : Bool) (file : File) (s : Cursor) (hvalid : Valid s.rest)
    (herrors : (statements first file s).2.errors = s.errors) :
    (statements first file s).2.kind = .endOfFile := by
  induction hn : s.left using Nat.strongRecOn generalizing first file s with
  | ind n ih =>
    rw [statements_eq] at herrors ⊢
    by_cases hend : s.atEnd
    · rw [if_pos hend]
      simpa [Cursor.atEnd] using hend
    · have hkind : s.kind ≠ .endOfFile := fun h => hend (by simp [Cursor.atEnd, h])
      have hstep := reads_statement first file hkind
      rw [if_neg hend] at herrors ⊢
      unfold repeatedly at herrors ⊢
      by_cases hlt : (statement first file s).2.left < s.left
      · rw [if_pos hlt] at herrors ⊢
        have hlast := (reads_statements (statement first file s).1 (statement first file s).2).before
        have hmiddle := hstep.before.errors_eq hlast herrors
        exact ih _ (hn ▸ hlt) false _ _ (hvalid.of_suffix hstep.before.rest)
          (herrors.trans hmiddle.symm) rfl
      · rw [if_neg hlt] at herrors
        obtain ⟨ts, hts, hadds⟩ := hstep.taken hvalid herrors
        exact absurd (left_lt_of_taken hts hadds.ne_nil) hlt

/-- Before the end of the file, only that is left. -/
theorem Ended.eq_singleton (h : Ended s.rest) (hs : s.kind = .endOfFile) :
    ∃ stop, s.rest = [stop] ∧ stop.kind = .endOfFile := by
  obtain ⟨body, stop, hrest, hstop, hbody⟩ := h
  cases body with
  | nil => exact ⟨stop, hrest, hstop⟩
  | cons t body =>
    have hkind : s.kind = t.kind := kind_of_rest hrest
    exact absurd (hkind.symm.trans hs) (hbody t List.mem_cons_self)

/-- The file of the grammar that statements were added to. -/
theorem Grown.bare_eq {span span' : Span} {syntaxDecl : Option SyntaxDecl} {said : List Statement}
    {result : File} (h : Grown ⟨syntaxDecl, none, [], [], span⟩ said result) :
    ({ result with
        imports := result.imports.reverse
        items := result.items.reverse
        span := span' } : File).bare =
      ⟨result.syntaxDecl.map SyntaxDecl.bare, (said.filterMap Statement.package?).head?,
        said.filterMap Statement.import?, said.filterMap Statement.item?, .nowhere⟩ := by
  have hpackage := h.package
  have himports := h.imports
  have hitems := h.items
  simp only [Option.map_none, Option.toList_none, List.nil_append, List.map_nil,
    List.append_nil] at hpackage himports hitems
  simp only [File.bare, bareItems_eq_map, List.map_reverse, hpackage, himports, hitems,
    List.reverse_reverse]

/-- Tokens that are read without a complaint are a file of the grammar. -/
theorem fileForm_of_parseTokens {tokens : List Token} (hended : Ended tokens)
    (hvalid : Valid tokens) (h : (parseTokens tokens).errors = []) :
    FileForm tokens (parseTokens tokens).file.bare := by
  have herrors : (statements true ⟨none, none, [], [], (Cursor.start tokens).span⟩
      (Cursor.start tokens)).2.errors = [] := List.reverse_eq_nil_iff.1 h
  have hreads := reads_file ⟨none, none, [], [], (Cursor.start tokens).span⟩ rfl
    (Cursor.start tokens)
  obtain ⟨ts, hts, head, body, decl, said, rfl, hhead, hbody, hdecl, hgrown⟩ :=
    hreads.taken hvalid herrors
  obtain ⟨stop, hrest, hstop⟩ := (hreads.before.ended hended).eq_singleton
    (kind_after_statements true _ (Cursor.start tokens) hvalid herrors)
  have htokens : tokens = head ++ body ++ [stop] := hts.trans (congrArg (head ++ body ++ ·) hrest)
  have hform := FileForm.file hhead hbody hgrown.single hstop
  rw [← hdecl, ← htokens] at hform
  unfold parseTokens
  rw [hgrown.bare_eq]
  exact hform

end Schemata.Schema

import Schemata.Proofs.Schema.Recognition

/-!
# Reading makes progress

Reading is a sequence of small moves, each of which goes on by a token or reports something. So it
stays among its tokens, whatever they are. Its loops end since each round of them that is not the
last takes a token. A statement that is given up is no exception: what is skipped reaches beyond the
place where the statement started, unless that is before a closing brace or the end of the file, and
there no loop makes a round.
-/

namespace Schemata.Schema

open Source

variable {α β : Type} {s s' s₁ s₂ : Cursor}

/-! ### Moves -/

/-- Whether reading can come from one cursor to another by going on and by reporting. -/
inductive Cursor.Moves (s : Cursor) : Cursor → Prop
  | refl : s.Moves s
  | advance {s' : Cursor} (h : s.Moves s') : s.Moves s'.advance
  | report {s' : Cursor} (h : s.Moves s') (d : Diagnostic) : s.Moves (s'.report d)

namespace Cursor.Moves

theorem trans (h : s.Moves s₁) (h' : s₁.Moves s₂) : s.Moves s₂ := by
  induction h' with
  | refl => exact h
  | advance _ ih => exact ih.advance
  | report _ d ih => exact ih.report d

theorem before (h : s.Moves s') : s.Before s' := by
  induction h with
  | refl => exact .refl s
  | advance _ ih => exact ih.trans (before_advance _)
  | report _ d ih => exact ih.trans (before_report d _)

theorem left_le (h : s.Moves s') : s'.left ≤ s.left := h.before.left_le

/-- Where no token has been taken, the cursor is before the same token. -/
theorem kind_eq (h : s.Moves s') (hleft : s'.left = s.left) : s'.kind = s.kind := by
  have hrest : s'.rest = s.rest := by
    refine h.before.rest.eq_of_length ?_
    rw [← s'.left_eq, ← s.left_eq, hleft]
  unfold Cursor.kind
  rw [hrest]

end Cursor.Moves

/-- Whether a step moves the cursor, wherever it is made. -/
def Moving (f : Step α) : Prop := ∀ s : Cursor, s.Moves (f s).2

/-- Whether a step that is made before the end of the file moves the cursor and takes a token. -/
def Taking (f : Step α) : Prop :=
  ∀ s : Cursor, s.kind ≠ .endOfFile → s.Moves (f s).2 ∧ (f s).2.left < s.left

theorem Moving.of_eq {f : Step α} (h : Moving f) {a : α} (hf : f s = (a, s')) : s.Moves s' := by
  have hs := h s
  rwa [hf] at hs

theorem moving_pure {a : α} : Moving (pure a) := fun _ => .refl

theorem moving_bind {f : Step α} {k : α → Step β} (hf : Moving f) (hk : ∀ a, Moving (k a)) :
    Moving (f >>= k) := fun s => (hf s).trans (hk _ _)

theorem moving_get {k : Cursor → Step α} (h : ∀ s, Moving (k s)) : Moving (get >>= k) :=
  fun s => h s s

theorem moving_advance : Moving (modify Cursor.advance) := fun _ => .advance .refl

theorem moving_report (d : Diagnostic) : Moving (modify (Cursor.report d)) :=
  fun _ => .report .refl d

theorem taking_get {k : Cursor → Step α} (h : ∀ s, Taking (k s)) : Taking (get >>= k) :=
  fun s => h s s

theorem Taking.bind {f : Step α} {k : α → Step β} (hf : Taking f) (hk : ∀ a, Moving (k a)) :
    Taking (f >>= k) := fun s hs =>
  ⟨(hf s hs).1.trans (hk _ _), Nat.lt_of_le_of_lt (hk _ _).left_le (hf s hs).2⟩

theorem taking_advance : Taking (modify Cursor.advance) := fun s hs =>
  ⟨moving_advance s, Cursor.left_advance_lt hs⟩

/-! ### Rounds -/

/-- What a round of a loop comes to: the loop stops with a result, or it goes on. -/
inductive Turn (σ ρ : Type)
  | stop (result : ρ) (s : Cursor)
  | again (state : σ) (s : Cursor)

/-- Whether a loop, started with a state and a cursor, stops with a result and a cursor. All rounds
but the last take a token. -/
inductive Rounds {σ ρ : Type} (turn : σ → Cursor → Turn σ ρ) : σ → Cursor → ρ → Cursor → Prop
  | stop {state : σ} {s s' : Cursor} {result : ρ} (h : turn state s = .stop result s')
      (hmoves : s.Moves s') : Rounds turn state s result s'
  | again {state state' : σ} {s s₁ s' : Cursor} {result : ρ} (h : turn state s = .again state' s₁)
      (hmoves : s.Moves s₁) (hlt : s₁.left < s.left) (hrest : Rounds turn state' s₁ result s') :
      Rounds turn state s result s'

theorem Rounds.moves {σ ρ : Type} {turn : σ → Cursor → Turn σ ρ} {state : σ} {result : ρ}
    (h : Rounds turn state s result s') : s.Moves s' := by
  induction h with
  | stop _ hmoves => exact hmoves
  | again _ hmoves _ _ ih => exact hmoves.trans ih

/-! ### Skipping -/

/-- A round of skipping the rest of a faulty statement. -/
def skipTurn (_ : Unit) (s : Cursor) : Turn Unit Unit :=
  if s.kind = .endOfFile ∨ s.kind = .closeBrace then .stop () s
  else if s.kind = .semicolon then .stop () s.advance
  else .again () s.advance

theorem rounds_skipStatement (s : Cursor) : Rounds skipTurn () s () s.skipStatement := by
  fun_induction Cursor.skipStatement s with
  | case1 s hend => exact .stop (if_pos hend) .refl
  | case2 s hend hsemicolon =>
    exact .stop ((if_neg hend).trans (if_pos hsemicolon)) (.advance .refl)
  | case3 s hend hsemicolon ih =>
    have hlt : s.advance.left < s.left := Cursor.left_advance_lt fun h => hend (.inl h)
    exact .again ((if_neg hend).trans (if_neg hsemicolon)) (.advance .refl) hlt ih

theorem moving_recover : Moving recover := fun s => (rounds_skipStatement s).moves

/-- Skipping takes a token unless it has nothing to skip. -/
theorem left_skipStatement_lt (hend : s.kind ≠ .endOfFile) (hclose : s.kind ≠ .closeBrace) :
    s.skipStatement.left < s.left := by
  have hlt := Cursor.left_advance_lt hend
  rw [Cursor.skipStatement, dif_neg (not_or.2 ⟨hend, hclose⟩)]
  split
  · exact hlt
  · exact Nat.lt_of_le_of_lt (rounds_skipStatement s.advance).moves.left_le hlt

/-- Whether a step that is made somewhere behind a cursor has taken a token in the end, unless the
cursor is before a closing brace or the end of the file. -/
def Cursor.Passes (start : Cursor) (f : Step α) : Prop :=
  ∀ s : Cursor, start.Moves s → start.Moves (f s).2 ∧
    (start.kind ≠ .endOfFile → start.kind ≠ .closeBrace → (f s).2.left < start.left)

theorem passes_bind {start : Cursor} {f : Step α} {k : α → Step β} (hf : Moving f)
    (hk : ∀ a, start.Passes (k a)) : start.Passes (f >>= k) := fun s hs =>
  hk _ _ (hs.trans (hf s))

theorem passes_get {start : Cursor} {k : Cursor → Step α} (h : ∀ s, start.Passes (k s)) :
    start.Passes (get >>= k) := fun s hs => h s s hs

/-- Either something has been taken before a statement is given up, or skipping takes something. -/
theorem passes_giveUp (start : Cursor) : start.Passes (giveUp : Step (Option α)) := by
  intro s hs
  refine ⟨hs.trans (moving_recover s), fun hend hclose => ?_⟩
  show s.skipStatement.left < start.left
  rcases Nat.lt_or_eq_of_le hs.left_le with hlt | heq
  · exact Nat.lt_of_le_of_lt (moving_recover s).left_le hlt
  · rw [← heq]
    have hkind := hs.kind_eq heq
    exact left_skipStatement_lt (hkind ▸ hend) (hkind ▸ hclose)

/-! ### Single tokens -/

theorem moving_complain (what : String) : Moving (complain what) := by
  intro s
  show s.Moves (if s.kind = .invalid then s else _)
  split
  · exact .refl
  · exact .report .refl _

theorem moving_giveUp : Moving (giveUp : Step (Option α)) :=
  moving_bind moving_recover fun _ => moving_pure

theorem moving_eat (kind : TokenKind) : Moving (eat kind) := by
  refine moving_get fun s => ?_
  split
  · exact moving_bind moving_advance fun _ => moving_pure
  · exact moving_pure

theorem moving_expect (kind : TokenKind) : Moving (expect kind) := by
  refine moving_bind (moving_eat kind) fun there => ?_
  split
  · exact moving_bind (moving_complain _) fun _ => moving_pure
  · exact moving_pure

theorem moving_expectName : Moving expectName := by
  refine moving_get fun s => ?_
  split
  · exact moving_bind moving_advance fun _ => moving_pure
  · exact moving_bind (moving_complain _) fun _ => moving_pure

theorem moving_expectString : Moving expectString := by
  refine moving_get fun s => ?_
  split
  · exact moving_bind moving_advance fun _ => moving_pure
  · exact moving_bind (moving_complain _) fun _ => moving_pure

theorem moving_declaredName : Moving declaredName := by
  refine moving_bind moving_expectName fun name => ?_
  split
  · exact moving_pure
  · exact moving_get fun _ => moving_pure

theorem moving_spanFrom (start : Span) : Moving (spanFrom start) := moving_get fun _ => moving_pure

/-- The end of what is declared: its last token, and its span up to there. -/
theorem moving_closed {kind : TokenKind} (start : Span) {g : Span → β} :
    Moving (do let _ ← expect kind; return g (← spanFrom start)) :=
  moving_bind (moving_expect kind) fun _ => moving_bind (moving_spanFrom start) fun _ => moving_pure

theorem moving_reported (d : Diagnostic) {a : α} :
    Moving (do modify (Cursor.report d); return a) :=
  moving_bind (moving_report d) fun _ => moving_pure

/-- A name that is there is taken. -/
theorem left_lt_of_expectName {name : String × Span} (h : expectName s = (some name, s')) :
    s'.left < s.left := by
  change (if s.kind.isName then _ else _ : Step (Option (String × Span))) s = _ at h
  split at h
  · rename_i hname
    cases h
    refine Cursor.left_advance_lt fun hend => ?_
    rw [hend] at hname
    cases hname
  · cases h

/-- With its name a statement has taken a token, and without one it is given up. -/
theorem passes_named {start : Cursor} {k : Option (String × Span) → Step (Option α)}
    (hnone : k none = giveUp) (hsome : ∀ name, Moving (k (some name))) :
    start.Passes (expectName >>= k) := by
  intro s hs
  rcases hname : expectName s with ⟨_ | name, s₁⟩
  · rw [run_bind_of hname, hnone]
    exact passes_giveUp start s₁ (hs.trans (moving_expectName.of_eq hname))
  · rw [run_bind_of hname]
    have hmoves := hs.trans (moving_expectName.of_eq hname)
    have hlt : s₁.left < start.left := Nat.lt_of_lt_of_le (left_lt_of_expectName hname) hs.left_le
    exact ⟨hmoves.trans (hsome name s₁),
      fun _ _ => Nat.lt_of_le_of_lt (hsome name s₁).left_le hlt⟩

theorem moving_parseInteger : Moving parseInteger := by
  refine moving_get fun start => moving_bind (moving_eat _) fun negative => moving_get fun s => ?_
  split
  · exact moving_bind (moving_complain _) fun _ => moving_pure
  · refine moving_bind moving_advance fun _ => ?_
    split
    · exact moving_pure
    · exact moving_bind (moving_spanFrom _) fun span => moving_reported _

/-! ### Names and types -/

/-- A round of taking the parts of a dotted name. -/
def dotTurn (name : String) (s : Cursor) : Turn String (Option String) :=
  match eat .dot s with
  | (false, s₁) => .stop (some name) s₁
  | (true, s₁) =>
    match expectName s₁ with
    | (none, s₂) => .stop none s₂
    | (some part, s₂) => .again (name ++ "." ++ part.1) s₂

theorem rounds_dottedRest (name : String) (s : Cursor) :
    Rounds dotTurn name s (dottedRest name s).1 (dottedRest name s).2 := by
  fun_induction dottedRest name s with
  | case1 name s s₁ heat =>
    exact .stop (by rw [dotTurn, heat]) ((moving_eat _).of_eq heat)
  | case2 name s s₁ heat s₂ hname =>
    have hmoves := ((moving_eat _).of_eq heat).trans (moving_expectName.of_eq hname)
    exact .stop (by simp only [dotTurn, heat, hname]) hmoves
  | case3 name s s₁ heat part span s₂ hname hlt ih =>
    have hmoves := ((moving_eat _).of_eq heat).trans (moving_expectName.of_eq hname)
    exact .again (by simp only [dotTurn, heat, hname]) hmoves hlt ih
  | case4 name s s₁ heat part span s₂ hname hlt =>
    -- a round that takes nothing cannot occur: a dot and a name are two tokens
    have hpart : s₂.left < s₁.left := left_lt_of_expectName hname
    exact absurd (Nat.lt_trans hpart (left_lt_of_eat heat (by decide))) hlt

theorem moving_dottedRest (name : String) : Moving (dottedRest name) := fun s =>
  (rounds_dottedRest name s).moves

theorem moving_parseDottedName : Moving parseDottedName := by
  refine moving_bind moving_expectName fun name => ?_
  split
  · exact moving_pure
  · exact moving_dottedRest _

theorem moving_parseType : Moving parseType := by
  refine moving_get fun start => moving_bind (moving_eat _) fun absolute => ?_
  refine moving_bind moving_parseDottedName fun name => ?_
  split
  · exact moving_pure
  · exact moving_bind (moving_spanFrom _) fun _ => moving_pure

/-! ### Statements without a body -/

/-- A statement whose keyword is taken before anything else. -/
theorem taking_keyword {k : Cursor → Step α} (h : ∀ start, Moving (k start)) :
    Taking (do let start ← get; modify Cursor.advance; k start) :=
  fun s => (taking_advance.bind fun _ => h s) s

/-- A statement is given up where a token is missing. -/
theorem moving_unless {kind : TokenKind} {k : Step (Option α)} (h : Moving k) :
    Moving (do
      let there ← expect kind
      if !there then (do return ← giveUp) else k) := by
  refine moving_bind (moving_expect kind) fun there => ?_
  cases there with
  | true => exact h
  | false => exact moving_bind (f := (giveUp : Step (Option α))) moving_giveUp fun _ => moving_pure

theorem taking_parseSyntax : Taking parseSyntax := by
  refine taking_keyword fun start => moving_unless (moving_get fun value => ?_)
  refine moving_bind moving_expectString fun text => ?_
  cases text with
  | none => exact moving_giveUp
  | some text =>
    have hend : Moving (do return some ⟨text, ← spanFrom start.span⟩ : Step (Option SyntaxDecl)) :=
      moving_bind (moving_spanFrom _) fun _ => moving_pure
    refine moving_bind (moving_expect _) fun _ => ?_
    split
    · exact moving_bind (moving_report _) fun _ => hend
    · exact hend

theorem taking_parsePackage : Taking parsePackage := by
  refine taking_keyword fun start => moving_bind moving_parseDottedName fun name => ?_
  split
  · exact moving_giveUp
  · exact moving_closed _

theorem taking_parseImport : Taking parseImport := by
  refine taking_keyword fun start => moving_bind (moving_eat _) fun isPublic => ?_
  refine moving_bind moving_expectString fun path => ?_
  split
  · exact moving_giveUp
  · exact moving_closed _

/-! ### Fields and enum values -/

theorem moving_parseLabel : Moving parseLabel := by
  refine moving_bind (moving_eat _) fun isRepeated => ?_
  split
  · exact moving_pure
  · refine moving_bind (moving_eat _) fun isOptional => ?_
    split
    · exact moving_pure
    · exact moving_pure

theorem moving_parseFieldNumber : Moving parseFieldNumber := by
  refine moving_get fun start => moving_bind moving_parseInteger fun value => ?_
  split
  · exact moving_pure
  · split
    · exact moving_pure
    · exact moving_reported _

theorem moving_parseEnumNumber : Moving parseEnumNumber := by
  refine moving_get fun start => moving_bind moving_parseInteger fun value => ?_
  split
  · exact moving_pure
  · split
    · exact moving_pure
    · exact moving_reported _

theorem passes_parseField (start : Cursor) : start.Passes parseField := by
  refine passes_get fun s => passes_bind moving_parseLabel fun label => ?_
  refine passes_bind moving_parseType fun type => ?_
  split
  · exact passes_giveUp start
  · refine passes_named rfl fun name => moving_unless (moving_get fun number => ?_)
    refine moving_bind moving_parseFieldNumber fun number => ?_
    split
    · exact moving_giveUp
    · exact moving_closed _

theorem passes_parseEnumValue (start : Cursor) : start.Passes parseEnumValue := by
  refine passes_get fun s => passes_named rfl fun name => moving_unless ?_
  refine moving_bind moving_parseEnumNumber fun number => ?_
  split
  · exact moving_giveUp
  · exact moving_closed _

/-! ### Enums -/

/-- A round of taking the values of an enum. -/
def enumTurn (values : List EnumValue) (s : Cursor) : Turn (List EnumValue) (List EnumValue) :=
  if s.atEnd ∨ s.kind = .closeBrace then .stop values s
  else .again ((enumMember s).1.toList ++ values) (enumMember s).2

theorem kind_ne_of_not_stopped (h : ¬ (s.atEnd ∨ s.kind = .closeBrace)) :
    s.kind ≠ .endOfFile ∧ s.kind ≠ .closeBrace :=
  ⟨fun hend => h (.inl (decide_eq_true hend)), fun hclose => h (.inr hclose)⟩

theorem takes_enumMember (h : ¬ (s.atEnd ∨ s.kind = .closeBrace)) :
    s.Moves (enumMember s).2 ∧ (enumMember s).2.left < s.left := by
  obtain ⟨hend, hclose⟩ := kind_ne_of_not_stopped h
  unfold enumMember
  split
  · exact taking_advance s hend
  · obtain ⟨hmoves, hlt⟩ := passes_parseEnumValue s s .refl
    exact ⟨hmoves, hlt hend hclose⟩

theorem rounds_enumBody (values : List EnumValue) (s : Cursor) :
    Rounds enumTurn values s (enumBody values s).1 (enumBody values s).2 := by
  induction hn : s.left using Nat.strongRecOn generalizing values s with
  | ind n ih =>
    rw [enumBody_eq]
    split
    · rename_i hstop
      exact .stop (if_pos hstop) .refl
    · rename_i hgo
      obtain ⟨hmoves, hlt⟩ := takes_enumMember hgo
      rw [repeatedly, if_pos hlt]
      exact .again (if_neg hgo) hmoves hlt (ih _ (hn ▸ hlt) _ _ rfl)

theorem moving_enumBody (values : List EnumValue) : Moving (enumBody values) := fun s =>
  (rounds_enumBody values s).moves

theorem taking_parseEnum : Taking parseEnum := by
  refine taking_keyword fun start => moving_bind moving_declaredName fun name => ?_
  refine moving_bind (moving_expect _) fun there => ?_
  split
  · exact moving_bind (moving_enumBody []) fun values => moving_closed _
  · refine moving_bind moving_recover fun _ => ?_
    exact moving_bind (moving_spanFrom _) fun _ => moving_pure

/-! ### Messages -/

mutual

/-- Whether a message that starts at a cursor is read to its end. Where its members start, fewer
tokens are left than at the message. -/
inductive MessageRun : Cursor → Item → Cursor → Prop
  | unopened {s s₁ s₂ s' : Cursor} {name : String × Span} {span : Span}
      (hname : declaredName s.advance = (name, s₁)) (hopen : expect .openBrace s₁ = (false, s₂))
      (hlt : s₂.left < s.left) (hend : (do recover; spanFrom s.span : Step Span) s₂ = (span, s')) :
      MessageRun s (.message ⟨name.1, name.2, [], span⟩ []) s'
  | opened {s s₁ s₂ s₃ s' : Cursor} {name : String × Span} {members : Members} {span : Span}
      (hname : declaredName s.advance = (name, s₁)) (hopen : expect .openBrace s₁ = (true, s₂))
      (hlt : s₂.left < s.left) (hbody : BodyRun ⟨[], []⟩ s₂ members s₃)
      (hend : (do let _ ← expect .closeBrace; spanFrom s.span : Step Span) s₃ = (span, s')) :
      MessageRun s
        (.message ⟨name.1, name.2, members.fields.reverse, span⟩ members.nested.reverse) s'

/-- Whether the members of a message, from some members and a cursor on, are read to their end. All
of them take a token; those that are no messages need no reading of messages. -/
inductive BodyRun : Members → Cursor → Members → Cursor → Prop
  | stop {members : Members} {s : Cursor} (hstop : s.atEnd ∨ s.kind = .closeBrace) :
      BodyRun members s members s
  | message {members result : Members} {item : Item} {s s₁ s' : Cursor}
      (hgo : ¬ (s.atEnd ∨ s.kind = .closeBrace))
      (hopens : s.kind = .keyword .messageWord ∧ s.opensDeclaration) (hitem : MessageRun s item s₁)
      (hlt : s₁.left < s.left)
      (hrest : BodyRun { members with nested := item :: members.nested } s₁ result s') :
      BodyRun members s result s'
  | other {members next result : Members} {s s₁ s' : Cursor}
      (hgo : ¬ (s.atEnd ∨ s.kind = .closeBrace))
      (hopens : ¬ (s.kind = .keyword .messageWord ∧ s.opensDeclaration))
      (hmember : ∀ message, memberStep message members s = (next, s₁)) (hmoves : s.Moves s₁)
      (hlt : s₁.left < s.left) (hrest : BodyRun next s₁ result s') : BodyRun members s result s'

end

theorem moves_opening {name : String × Span} {there : Bool}
    (hname : declaredName s.advance = (name, s₁)) (hopen : expect .openBrace s₁ = (there, s₂)) :
    s.Moves s₂ := by
  have hdeclared := Cursor.Moves.refl.advance.trans (moving_declaredName.of_eq hname)
  exact hdeclared.trans ((moving_expect _).of_eq hopen)

theorem moving_skipped (start : Span) : Moving (do recover; spanFrom start) :=
  moving_bind moving_recover fun _ => moving_spanFrom start

theorem moving_body (start : Span) : Moving (do let _ ← expect .closeBrace; spanFrom start) :=
  moving_bind (moving_expect _) fun _ => moving_spanFrom start

mutual

theorem MessageRun.moves {s s' : Cursor} {item : Item} : MessageRun s item s' → s.Moves s'
  | .unopened hname hopen _ hend =>
    (moves_opening hname hopen).trans ((moving_skipped _).of_eq hend)
  | .opened hname hopen _ hbody hend =>
    ((moves_opening hname hopen).trans hbody.moves).trans ((moving_body _).of_eq hend)

theorem BodyRun.moves {s s' : Cursor} {members result : Members} :
    BodyRun members s result s' → s.Moves s'
  | .stop _ => .refl
  | .message _ _ hitem _ hrest => hitem.moves.trans hrest.moves
  | .other _ _ _ hmoves _ hrest => hmoves.trans hrest.moves

end

theorem MessageRun.left_lt {item : Item} (h : MessageRun s item s') : s'.left < s.left := by
  cases h with
  | unopened _ _ hlt hend =>
    exact Nat.lt_of_le_of_lt ((moving_skipped _).of_eq hend).left_le hlt
  | opened _ _ hlt hbody hend =>
    exact Nat.lt_of_le_of_lt (hbody.moves.trans ((moving_body _).of_eq hend)).left_le hlt

/-- What stands in a message and is none takes a token, without reading messages. -/
theorem takes_memberStep (members : Members) (hgo : ¬ (s.atEnd ∨ s.kind = .closeBrace))
    (hopens : ¬ (s.kind = .keyword .messageWord ∧ s.opensDeclaration)) :
    ∃ next s₁, (∀ message, memberStep message members s = (next, s₁)) ∧ s.Moves s₁ ∧
      s₁.left < s.left := by
  obtain ⟨hend, hclose⟩ := kind_ne_of_not_stopped hgo
  simp only [memberStep, if_neg hopens]
  split
  · exact ⟨_, _, fun _ => rfl, taking_parseEnum s hend⟩
  · split
    · exact ⟨_, _, fun _ => rfl, taking_advance s hend⟩
    · obtain ⟨hmoves, hlt⟩ := passes_parseField s s .refl
      exact ⟨_, _, fun _ => rfl, hmoves, hlt hend hclose⟩

mutual

theorem run_parseMessage (s : Cursor) (hs : s.kind ≠ .endOfFile) :
    MessageRun s (parseMessage s).1 (parseMessage s).2 := by
  rcases hname : declaredName s.advance with ⟨name, s₁⟩
  rcases hopen : expect .openBrace s₁ with ⟨there, s₂⟩
  have hlt : s₂.left < s.left := left_lt_of_opening hs hname hopen
  rw [parseMessage_of hname hopen]
  cases there with
  | true =>
    rw [if_pos rfl, bodyAfter, if_pos hlt]
    exact .opened hname hopen hlt (run_messageBody ⟨[], []⟩ s₂) rfl
  | false => exact .unopened hname hopen hlt rfl
termination_by (s.left, 0)

theorem run_messageBody (members : Members) (s : Cursor) :
    BodyRun members s (messageBody members s).1 (messageBody members s).2 := by
  rw [messageBody_eq]
  by_cases hstop : s.atEnd ∨ s.kind = .closeBrace
  · rw [if_pos hstop]
    exact .stop hstop
  rw [if_neg hstop]
  by_cases hopens : s.kind = .keyword .messageWord ∧ s.opensDeclaration
  · have hitem := run_parseMessage s (kind_ne_of_not_stopped hstop).1
    have hlt := hitem.left_lt
    -- a message that is opened has taken tokens, so the loop does not stop for lack of progress
    simp only [memberStep, if_pos hopens, if_pos hlt]
    exact .message hstop hopens hitem hlt (run_messageBody _ _)
  · obtain ⟨next, s₁, hmember, hmoves, hlt⟩ := takes_memberStep members hstop hopens
    simp only [hmember, if_pos hlt]
    exact .other hstop hopens hmember hmoves hlt (run_messageBody next s₁)
termination_by (s.left, 1)

end

theorem taking_parseMessage : Taking parseMessage := fun s hs =>
  ⟨(run_parseMessage s hs).moves, (run_parseMessage s hs).left_lt⟩

/-! ### Files -/

theorem taking_fileSyntax (first : Bool) (file : File) : Taking (fileSyntax first file) := by
  refine taking_parseSyntax.bind fun decl => ?_
  split
  · exact moving_pure
  · split
    · exact moving_pure
    · exact moving_reported _

theorem taking_filePackage (file : File) : Taking (filePackage file) := by
  refine taking_parsePackage.bind fun decl => ?_
  split
  · exact moving_pure
  · split
    · exact moving_pure
    · exact moving_reported _

/-- What is reported here does not move the cursor on. -/
theorem left_complain (what : String) (s : Cursor) : (complain what s).2.left = s.left := by
  show (if s.kind = .invalid then s else _ : Cursor).left = s.left
  split
  · rfl
  · rfl

theorem taking_skipStray : Taking skipStray := by
  intro s hs
  have hcomplain := moving_complain "'syntax', 'package', 'import', 'message' or 'enum'" s
  have hleft := left_complain "'syntax', 'package', 'import', 'message' or 'enum'" s
  have hskip : Taking (do modify Cursor.advance; recover; let _ ← eat .closeBrace) :=
    taking_advance.bind fun _ => moving_bind moving_recover fun _ =>
      moving_bind (moving_eat _) fun _ => moving_pure
  obtain ⟨hmoves, hlt⟩ := hskip _ ((hcomplain.kind_eq hleft).symm ▸ hs)
  rw [hleft] at hlt
  exact ⟨hcomplain.trans hmoves, hlt⟩

theorem taking_statement (first : Bool) (file : File) : Taking (statement first file) := by
  refine taking_get fun s => ?_
  split
  · exact taking_fileSyntax first file
  · exact taking_filePackage file
  · exact taking_parseImport.bind fun _ => moving_pure
  · exact taking_parseMessage.bind fun _ => moving_pure
  · exact taking_parseEnum.bind fun _ => moving_pure
  · exact taking_advance.bind fun _ => moving_pure
  · exact taking_skipStray.bind fun _ => moving_pure

/-- A round of taking the statements of a file, with whether it takes the first. -/
def fileTurn (state : Bool × File) (s : Cursor) : Turn (Bool × File) File :=
  if s.atEnd then .stop state.2 s
  else .again (false, (statement state.1 state.2 s).1) (statement state.1 state.2 s).2

theorem rounds_statements (first : Bool) (file : File) (s : Cursor) :
    Rounds fileTurn (first, file) s (statements first file s).1 (statements first file s).2 := by
  induction hn : s.left using Nat.strongRecOn generalizing first file s with
  | ind n ih =>
    rw [statements_eq]
    split
    · rename_i hstop
      exact .stop (if_pos hstop) .refl
    · rename_i hgo
      have hend : s.kind ≠ .endOfFile := fun hend => hgo (decide_eq_true hend)
      obtain ⟨hmoves, hlt⟩ := taking_statement first file s hend
      rw [repeatedly, if_pos hlt]
      exact .again (if_neg hgo) hmoves hlt (ih _ (hn ▸ hlt) _ _ _ rfl)

/-! ### Positions -/

/-- Whether a cursor is at a position among tokens: the position is not beyond their end, and unless
it is the first there is a token before it, which the cursor knows the place of. -/
structure Cursor.At (tokens : List Token) (pos : Nat) (s : Cursor) : Prop where
  within : pos ≤ tokens.length
  rest : s.rest = tokens.drop pos
  first : pos = 0 → s.previous = none
  before : 0 < pos → ∃ t, tokens[pos - 1]? = some t ∧ s.previous = some t.span

variable {tokens : List Token} {pos : Nat}

theorem at_start (tokens : List Token) : (Cursor.start tokens).At tokens 0 :=
  ⟨Nat.zero_le _, rfl, fun _ => rfl, fun h => absurd h (Nat.lt_irrefl 0)⟩

theorem Cursor.At.advance (h : s.At tokens pos) : ∃ pos', s.advance.At tokens pos' := by
  unfold Cursor.advance
  split
  · rename_i t ts hrest
    split
    · exact ⟨pos, h⟩
    · have hdrop : tokens.drop pos = t :: ts := h.rest.symm.trans hrest
      have hpos : pos < tokens.length := by
        rw [← Nat.not_le, ← List.drop_eq_nil_iff, hdrop]
        exact List.cons_ne_nil _ _
      have htoken : tokens[pos]? = some t := by
        rw [← List.head?_drop, hdrop, List.head?_cons]
      refine ⟨pos + 1, hpos, ?_, by simp, fun _ => ⟨t, htoken, rfl⟩⟩
      rw [← List.tail_drop, hdrop, List.tail_cons]
  · exact ⟨pos, h⟩

theorem Cursor.Moves.at (h : (Cursor.start tokens).Moves s) : ∃ pos, s.At tokens pos := by
  induction h with
  | refl => exact ⟨0, at_start tokens⟩
  | advance _ ih =>
    obtain ⟨pos, hpos⟩ := ih
    exact hpos.advance
  | report _ _ ih =>
    obtain ⟨pos, hpos⟩ := ih
    exact ⟨pos, hpos.within, hpos.rest, hpos.first, hpos.before⟩

/-! ### Reading any tokens -/

/-- What holds of reading some tokens, with no assumption about them. -/
structure Progresses (tokens : List Token) : Prop where
  /-- Reading stays among the tokens. -/
  within : ∀ s, (Cursor.start tokens).Moves s → ∃ pos, s.At tokens pos
  /-- Every loop ends, wherever it is started, with what reading makes of it. -/
  skipping : ∀ s, Rounds skipTurn () s () s.skipStatement
  names : ∀ name s, Rounds dotTurn name s (dottedRest name s).1 (dottedRest name s).2
  enums : ∀ values s, Rounds enumTurn values s (enumBody values s).1 (enumBody values s).2
  messages : ∀ s, s.kind ≠ .endOfFile → MessageRun s (parseMessage s).1 (parseMessage s).2
  bodies : ∀ members s, BodyRun members s (messageBody members s).1 (messageBody members s).2
  /-- The file is what the loop over its statements comes to. -/
  file : ∃ file s,
    Rounds fileTurn (true, ⟨none, none, [], [], (Cursor.start tokens).span⟩) (Cursor.start tokens)
        file s ∧
      parseTokens tokens = ⟨{ file with
        imports := file.imports.reverse
        items := file.items.reverse
        span := (Cursor.start tokens).span.hull s.previousSpan }, s.errors.reverse⟩

theorem reading_progresses (tokens : List Token) : Progresses tokens where
  within _ h := h.at
  skipping := rounds_skipStatement
  names := rounds_dottedRest
  enums := rounds_enumBody
  messages := run_parseMessage
  bodies := run_messageBody
  file := ⟨_, _, rounds_statements true _ (Cursor.start tokens), rfl⟩

end Schemata.Schema

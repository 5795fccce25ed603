import Mathlib.Data.List.Forall2
import Schemata.Check.Engine
import Schemata.Proofs.Except
import Schemata.Proofs.Sorted
import Schemata.Proofs.Table

/-!
# What checks report

An engine refuses settings that mention an ID or category which it does not know. Otherwise it
reports what the selected rules find and the settings do not hold back, each notice once and in
order; so the order of the rules and of the entries of the settings makes no difference.
-/

namespace Schemata

/-! ### Notices in order -/

namespace Notice

/-- Whether a notice stands before another in a report. -/
def Before (a b : Notice) : Prop := compareFields a b = .lt

theorem compareTexts?_eq : compareTexts? = compare := by
  funext a b
  cases a with
  | none => cases b <;> rfl
  | some a => cases b <;> rfl

theorem compareFields_eq : compareFields =
    compareLex (compareOn path) (compareLex (compareOn external)
      (compareLex (compareLex (compareOn fun n => n.first.line) (compareOn fun n => n.first.column))
        (compareLex (compareLex (compareOn fun n => n.last.line) (compareOn fun n => n.last.column))
          (compareLex (compareOn Notice.type) (compareOn message))))) := by
  funext a b
  rw [compareFields, compareTexts?_eq]
  rfl

instance : Std.TransCmp compareFields := by
  rw [compareFields_eq]
  infer_instance

theorem eq_of_compareFields {a b : Notice} (h : compareFields a b = .eq) : a = b := by
  rw [compareFields, compareTexts?_eq] at h
  simp only [comparePositions, Ordering.then_eq_eq, Std.LawfulEqCmp.compare_eq_iff_eq] at h
  obtain ⟨hpath, hexternal, ⟨hline, hcolumn⟩, ⟨hline', hcolumn'⟩, htype, hmessage⟩ := h
  obtain ⟨path, external, ⟨line, column⟩, ⟨line', column'⟩, type, message⟩ := a
  obtain ⟨path₂, external₂, ⟨line₂, column₂⟩, ⟨line₂', column₂'⟩, type₂, message₂⟩ := b
  cases hpath
  cases hexternal
  cases hline
  cases hcolumn
  cases hline'
  cases hcolumn'
  cases htype
  cases hmessage
  rfl

theorem Before.trans {a b c : Notice} (hab : a.Before b) (hbc : b.Before c) : a.Before c :=
  Std.TransCmp.lt_trans hab hbc

theorem compareFields_swap (a b : Notice) : compareFields b a = (compareFields a b).swap :=
  Std.OrientedCmp.eq_swap

theorem Before.asymm {a b : Notice} (hab : a.Before b) : ¬ b.Before a := by
  intro hba
  rw [Before, compareFields_swap, hab] at hba
  cases hba

theorem mem_sortDistinct {as : List Notice} {n : Notice} : n ∈ sortDistinct as ↔ n ∈ as := by
  rw [sortDistinct, mem_eraseReps]
  exact (sortedWith_perm _ _).mem_iff

theorem pairwise_sortDistinct (as : List Notice) : (sortDistinct as).Pairwise Before := by
  have htotal (a b : Notice) :
      (compareFields a b).isLE = true ∨ (compareFields b a).isLE = true := by
    rw [compareFields_swap a b]
    cases compareFields a b with
    | lt => exact .inl rfl
    | eq => exact .inl rfl
    | gt => exact .inr rfl
  have hsorted : (sortedWith (fun a b => (compareFields a b).isLE) as).Pairwise
      fun a b => (compareFields a b).isLE = true :=
    pairwise_sortedWith (fun _ _ _ => Std.TransCmp.isLE_trans) htotal as
  refine pairwise_eraseReps _ (hsorted.imp fun {a b} hab => ?_) fun _ _ _ => Before.trans
  cases hcompare : compareFields a b with
  | lt => exact .inr hcompare
  | eq => exact .inl (eq_of_compareFields hcompare)
  | gt =>
    rw [hcompare] at hab
    cases hab

/-- A report in order depends on what is reported alone. -/
theorem eq_of_pairwise_before {as bs : List Notice} (ha : as.Pairwise Before)
    (hb : bs.Pairwise Before) (h : ∀ n, n ∈ as ↔ n ∈ bs) : as = bs := by
  have hnodup {as : List Notice} (ha : as.Pairwise Before) : as.Nodup :=
    ha.imp fun {a b} hab heq => (heq ▸ hab).asymm (heq ▸ hab)
  have hperm := (List.perm_ext_iff_of_nodup (hnodup ha) (hnodup hb)).2 h
  exact hperm.eq_of_pairwise (fun _ _ _ _ hab hba => absurd hba hab.asymm) ha hb

end Notice

namespace Check

open Settings (CheckSettings LintSettings BreakingSettings)

variable {α : Type} (rules : List (Rule α)) (s : CheckSettings)

/-! ### Entries of the settings -/

/-- Whether settings mention an ID or a category. -/
def Mentions (s : CheckSettings) (entry : String) : Prop :=
  entry ∈ s.use ∨ entry ∈ s.except ∨ entry ∈ s.ignoreOnly.keys

/-- Whether an entry is the ID or a category of a rule, or a category that always exists. -/
def Knows (entry : String) : Prop :=
  (∃ r ∈ rules, r.id = entry ∨ entry ∈ r.categories) ∨ entry ∈ knownCategories

/-- Whether an entry stands for a rule ID: for itself if a rule has it as its ID, and otherwise for
the IDs of the rules of that category. -/
def StandsFor (entry id : String) : Prop :=
  (∃ r ∈ rules, r.id = entry) ∧ id = entry ∨
    (¬ ∃ r ∈ rules, r.id = entry) ∧ ∃ r ∈ rules, entry ∈ r.categories ∧ r.id = id

theorem expandId_spec (entry : String) :
    (∃ ids, expandId rules entry = .ok ids ∧ Knows rules entry ∧
      ∀ id, id ∈ ids ↔ StandsFor rules entry id) ∨
    ¬ Knows rules entry ∧ expandId rules entry = .error (.unknownRule entry) := by
  have hany : (rules.any fun r => r.id = entry) = true ↔ ∃ r ∈ rules, r.id = entry := by simp
  have hmembers {id : String} :
      id ∈ (rules.filter fun r => r.categories.contains entry).map Rule.id ↔
        ∃ r ∈ rules, entry ∈ r.categories ∧ r.id = id := by
    simp [and_assoc]
  rw [expandId]
  by_cases hid : ∃ r ∈ rules, r.id = entry
  · rw [if_pos (hany.2 hid)]
    refine .inl ⟨_, rfl, .inl (hid.imp fun r hr => ⟨hr.1, .inl hr.2⟩), fun id => ?_⟩
    rw [List.mem_singleton, StandsFor, and_iff_right hid, or_iff_left fun h => h.1 hid]
  · rw [if_neg (mt hany.1 hid)]
    have hcategory : Knows rules entry ↔
        (∃ r ∈ rules, entry ∈ r.categories) ∨ entry ∈ knownCategories := by
      refine or_congr_left (exists_congr fun r => and_congr_right fun hr => ?_)
      exact or_iff_right fun h => hid ⟨r, hr, h⟩
    have hstands (id : String) : StandsFor rules entry id ↔
        ∃ r ∈ rules, entry ∈ r.categories ∧ r.id = id := by
      rw [StandsFor, or_iff_right fun h => hid h.1, and_iff_right hid]
    have hunknown : (((rules.filter fun r => r.categories.contains entry).map Rule.id).isEmpty &&
        !knownCategories.contains entry) = true ↔ ¬ Knows rules entry := by
      rw [hcategory]
      simp [not_or]
    by_cases hknows : Knows rules entry
    · rw [if_neg fun h => hunknown.1 h hknows]
      exact .inl ⟨_, rfl, hknows, fun id => hmembers.trans (hstands id).symm⟩
    · rw [if_pos (hunknown.2 hknows)]
      exact .inr ⟨hknows, rfl⟩

theorem expand_spec (entries : List String) :
    (∃ ids, expand rules entries = .ok ids ∧ (∀ e ∈ entries, Knows rules e) ∧
      ∀ id, id ∈ ids ↔ ∃ e ∈ entries, StandsFor rules e id) ∨
    ∃ e ∈ entries, ¬ Knows rules e ∧ expand rules entries = .error (.unknownRule e) := by
  induction entries with
  | nil => exact .inl ⟨[], rfl, by simp, by simp⟩
  | cons entry entries ih =>
    have hcons : expand rules (entry :: entries) = (do
        let ids ← expandId rules entry
        return ids ++ (← expand rules entries)) := by
      simp only [expand, List.mapM_cons]
      cases expandId rules entry with
      | error _ => rfl
      | ok ids =>
        cases entries.mapM (expandId rules) with
        | error _ => rfl
        | ok _ => rfl
    rw [hcons]
    rcases expandId_spec rules entry with ⟨ids, hids, hknows, hmem⟩ | ⟨hunknown, herror⟩
    · rw [hids]
      rcases ih with ⟨rest, hrest, hall, hmem'⟩ | ⟨e, he, hunknown, herror⟩
      · rw [hrest]
        refine .inl ⟨ids ++ rest, rfl, List.forall_mem_cons.2 ⟨hknows, hall⟩, fun id => ?_⟩
        rw [List.mem_append, hmem, hmem', List.exists_mem_cons_iff]
      · rw [herror]
        exact .inr ⟨e, List.mem_cons_of_mem _ he, hunknown, rfl⟩
    · rw [herror]
      exact .inr ⟨entry, List.mem_cons_self, hunknown, rfl⟩

/-- Whether settings select one of some rules: it is used, not excepted, and not turned off with all
that come with the program. -/
structure Selected (r : Rule α) : Prop where
  mem : r ∈ rules
  enabled : s.disableBuiltin = true → r.builtin = false
  used : ∃ entry ∈ s.use, StandsFor rules entry r.id
  kept : ¬ ∃ entry ∈ s.except, StandsFor rules entry r.id

theorem select_spec :
    (∃ selected, select rules s = .ok selected ∧ (∀ entry, Mentions s entry → Knows rules entry) ∧
      ∀ r, r ∈ selected ↔ Selected rules s r) ∨
    ∃ entry, Mentions s entry ∧ ¬ Knows rules entry ∧
      select rules s = .error (.unknownRule entry) := by
  rw [select]
  rcases expand_spec rules s.use with ⟨used, hused, huse, hmem⟩ | ⟨e, he, hunknown, herror⟩
  · rcases expand_spec rules s.except with
      ⟨excepted, hexcepted, hexcept, hmem'⟩ | ⟨e, he, hunknown, herror⟩
    · rcases expand_spec rules s.ignoreOnly.keys with
        ⟨ids, hids, hkeys, _⟩ | ⟨e, he, hunknown, herror⟩
      · rw [hused, hexcepted, hids]
        refine .inl ⟨_, rfl, ?_, fun r => ?_⟩
        · rintro entry (h | h | h)
          · exact huse entry h
          · exact hexcept entry h
          · exact hkeys entry h
        · simp only [List.mem_filter, Bool.and_eq_true, Bool.not_eq_true', List.contains_eq_mem,
            decide_eq_true_eq, decide_eq_false_iff_not, hmem, hmem', Bool.and_eq_false_imp]
          exact ⟨fun ⟨hr, ⟨henabled, hused⟩, hkept⟩ => ⟨hr, henabled, hused, hkept⟩,
            fun ⟨hr, henabled, hused, hkept⟩ => ⟨hr, ⟨henabled, hused⟩, hkept⟩⟩
      · rw [hused, hexcepted, herror]
        exact .inr ⟨e, .inr (.inr he), hunknown, rfl⟩
    · rw [hused, herror]
      exact .inr ⟨e, .inr (.inl he), hunknown, rfl⟩
  · rw [herror]
    exact .inr ⟨e, .inl he, hunknown, rfl⟩

/-! ### Findings -/

/-- Whether settings hold back what a rule finds in a file: the file is in an ignored place, or in
one that is ignored for the rule or a category of it. -/
def HeldBack (r : Rule α) (path : String) : Prop :=
  (∃ dir ∈ s.ignore, Path.covers dir path = true) ∨
    ∃ entry dirs, s.ignoreOnly.find? entry = some dirs ∧
      (entry = r.id ∨ entry ∈ r.categories) ∧ ∃ dir ∈ dirs, Path.covers dir path = true

theorem isIgnored_iff {r : Rule α} {path : String} :
    isIgnored s r path = true ↔ HeldBack s r path := by
  simp only [isIgnored, HeldBack, Bool.or_eq_true, List.any_eq_true, Prod.exists, Bool.and_eq_true,
    decide_eq_true_eq, List.contains_iff_mem, Table.mem_entries]

theorem mem_noticesOf {r : Rule α} {subject : α} {n : Notice} :
    n ∈ noticesOf s r subject ↔
      ∃ d ∈ r.check subject, ¬ HeldBack s r d.path ∧ n = noticeOf r d := by
  simp only [noticesOf, List.mem_map, List.mem_filter, ← isIgnored_iff, Bool.not_eq_true',
    Bool.not_eq_true, and_assoc, eq_comm (a := n)]

theorem path_noticeOf (r : Rule α) (d : Finding) : (noticeOf r d).path = some d.path := by
  rw [noticeOf]
  split
  · rfl
  · rfl

/-! ### Reports -/

/-- Whether an outcome is a report: settings that mention something unknown are refused, a
cancellation stops checks that have something to do, and otherwise all that is to be reported is
there, in order. -/
structure Reports (live : Bool) (work : Prop) (reported : Notice → Prop)
    (outcome : Except Error (List Notice)) : Prop where
  refused : (∃ entry, outcome = .error (.unknownRule entry)) ↔
    ∃ entry, Mentions s entry ∧ ¬ Knows rules entry
  canceled : outcome = .error .canceled ↔
    (∀ entry, Mentions s entry → Knows rules entry) ∧ live = false ∧ work
  given : (∀ entry, Mentions s entry → Knows rules entry) → (live = true ∨ ¬ work) →
    ∃ l, outcome = .ok l ∧ l.Pairwise Notice.Before ∧ ∀ n, n ∈ l ↔ reported n

/-- Selecting rules and running them is a report of what the selected rules give. -/
theorem reports_of_select (works : List (Rule α) → Bool)
    (notices : List (Rule α) → List Notice) {live : Bool} {work : Prop} {reported : Notice → Prop}
    (hworks : ∀ selected, (∀ r, r ∈ selected ↔ Selected rules s r) →
      (works selected = true ↔ work))
    (hnotices : ∀ selected, (∀ r, r ∈ selected ↔ Selected rules s r) →
      ∀ n, n ∈ notices selected ↔ reported n) :
    Reports rules s live work reported (do
      let selected ← select rules s
      if works selected then checkLive live
      return Notice.sortDistinct (notices selected)) := by
  rcases select_spec rules s with ⟨selected, hselect, hknows, hmem⟩ | ⟨e, he, hunknown, herror⟩
  · have hrefused : ¬ ∃ entry, Mentions s entry ∧ ¬ Knows rules entry :=
      fun ⟨entry, hentry, hnot⟩ => hnot (hknows entry hentry)
    rw [hselect]
    show Reports rules s live work reported (if works selected = true then
      checkLive live >>= fun _ => .ok (Notice.sortDistinct (notices selected))
      else .ok (Notice.sortDistinct (notices selected)))
    by_cases hstop : works selected = true ∧ live = false
    · obtain ⟨hwork, rfl⟩ := hstop
      rw [if_pos hwork]
      have hwork := (hworks selected hmem).1 hwork
      exact {
        refused := iff_of_false (fun ⟨_, h⟩ => by cases h) hrefused
        canceled := iff_of_true rfl ⟨hknows, rfl, hwork⟩
        given := fun _ h => absurd hwork (h.resolve_left Bool.false_ne_true) }
    · have houtcome : (if works selected = true then
          checkLive live >>= fun _ => Except.ok (Notice.sortDistinct (notices selected))
          else .ok (Notice.sortDistinct (notices selected))) =
          .ok (Notice.sortDistinct (notices selected)) := by
        split
        · rename_i hwork
          rw [eq_true_of_ne_false fun h => hstop ⟨hwork, h⟩]
          rfl
        · rfl
      rw [houtcome]
      exact {
        refused := iff_of_false (fun ⟨_, h⟩ => by cases h) hrefused
        canceled := iff_of_false (fun h => by cases h) fun h =>
          hstop ⟨(hworks selected hmem).2 h.2.2, h.2.1⟩
        given := fun _ _ => ⟨_, rfl, Notice.pairwise_sortDistinct _, fun n =>
          Notice.mem_sortDistinct.trans (hnotices selected hmem n)⟩ }
  · rw [herror]
    exact {
      refused := iff_of_true ⟨e, rfl⟩ ⟨e, he, hunknown⟩
      canceled := iff_of_false (fun h => by cases h) fun h => hunknown (h.1 e he)
      given := fun h _ => absurd (h e he) hunknown }

section Change

variable {rules s} {rules' : List (Rule α)} {s' : CheckSettings} {live : Bool} {work work' : Prop}
  {reported reported' : Notice → Prop} {outcome outcome' : Except Error (List Notice)}

theorem Reports.ok_iff (h : Reports rules s live work reported outcome) {l : List Notice} :
    outcome = .ok l ↔ (∀ entry, Mentions s entry → Knows rules entry) ∧ (live = true ∨ ¬ work) ∧
      l.Pairwise Notice.Before ∧ ∀ n, n ∈ l ↔ reported n := by
  constructor
  · intro hl
    have hknows : ∀ entry, Mentions s entry → Knows rules entry := by
      by_contra hnot
      push Not at hnot
      obtain ⟨_, herror⟩ := h.refused.2 hnot
      rw [hl] at herror
      cases herror
    have hlive : live = true ∨ ¬ work := by
      by_contra hnot
      push Not at hnot
      have herror := h.canceled.2 ⟨hknows, Bool.eq_false_iff.2 hnot.1, hnot.2⟩
      rw [hl] at herror
      cases herror
    obtain ⟨l', hl', hsorted, hmem⟩ := h.given hknows hlive
    rw [hl] at hl'
    cases hl'
    exact ⟨hknows, hlive, hsorted, hmem⟩
  · rintro ⟨hknows, hlive, hsorted, hmem⟩
    obtain ⟨l', hl', hsorted', hmem'⟩ := h.given hknows hlive
    rw [hl', Notice.eq_of_pairwise_before hsorted' hsorted fun n => (hmem' n).trans (hmem n).symm]

/-- Settings that have the same entries, in whatever order. -/
structure SameEntries (s s' : CheckSettings) : Prop where
  use : ∀ entry, entry ∈ s.use ↔ entry ∈ s'.use
  except : ∀ entry, entry ∈ s.except ↔ entry ∈ s'.except
  ignore : ∀ dir, dir ∈ s.ignore ↔ dir ∈ s'.ignore
  ignoreOnly : ∀ entry, entry ∈ s.ignoreOnly.keys ↔ entry ∈ s'.ignoreOnly.keys
  dirs : ∀ entry dir, (∃ dirs, s.ignoreOnly.find? entry = some dirs ∧ dir ∈ dirs) ↔
    ∃ dirs, s'.ignoreOnly.find? entry = some dirs ∧ dir ∈ dirs
  disableBuiltin : s.disableBuiltin = s'.disableBuiltin

theorem SameEntries.refl (s : CheckSettings) : SameEntries s s :=
  ⟨fun _ => .rfl, fun _ => .rfl, fun _ => .rfl, fun _ => .rfl, fun _ _ => .rfl, rfl⟩

variable (hrules : ∀ r, r ∈ rules ↔ r ∈ rules') (hs : SameEntries s s')

theorem SameEntries.mentions (hs : SameEntries s s') (entry : String) :
    Mentions s entry ↔ Mentions s' entry :=
  or_congr (hs.use entry) (or_congr (hs.except entry) (hs.ignoreOnly entry))

theorem SameEntries.heldBack (hs : SameEntries s s') (r : Rule α) (path : String) :
    HeldBack s r path ↔ HeldBack s' r path := by
  have hdirs (s : CheckSettings) : HeldBack s r path ↔
      (∃ dir ∈ s.ignore, Path.covers dir path = true) ∨ ∃ entry dir,
        (∃ dirs, s.ignoreOnly.find? entry = some dirs ∧ dir ∈ dirs) ∧
          (entry = r.id ∨ entry ∈ r.categories) ∧ Path.covers dir path = true := by
    refine or_congr_right (exists_congr fun entry => ?_)
    constructor
    · rintro ⟨dirs, hfind, hentry, dir, hdir, hcovers⟩
      exact ⟨dir, ⟨dirs, hfind, hdir⟩, hentry, hcovers⟩
    · rintro ⟨dir, ⟨dirs, hfind, hdir⟩, hentry, hcovers⟩
      exact ⟨dirs, hfind, hentry, dir, hdir, hcovers⟩
  rw [hdirs s, hdirs s']
  simp only [hs.ignore, hs.dirs]

include hrules

theorem knows_congr (entry : String) : Knows rules entry ↔ Knows rules' entry := by
  simp only [Knows, hrules]

theorem standsFor_congr (entry id : String) :
    StandsFor rules entry id ↔ StandsFor rules' entry id := by
  simp only [StandsFor, hrules]

include hs

theorem selected_congr (r : Rule α) : Selected rules s r ↔ Selected rules' s' r := by
  have hstands := standsFor_congr hrules
  constructor
  · rintro ⟨hr, henabled, hused, hkept⟩
    simp only [hs.use, hs.except, hstands, hs.disableBuiltin, hrules] at hr henabled hused hkept
    exact ⟨hr, henabled, hused, hkept⟩
  · rintro ⟨hr, henabled, hused, hkept⟩
    simp only [← hs.use, ← hs.except, ← hstands, ← hs.disableBuiltin, ← hrules]
      at hr henabled hused hkept
    exact ⟨hr, henabled, hused, hkept⟩

/-- Reports of the same rules under the same entries are the same. -/
theorem Reports.congr (h : Reports rules s live work reported outcome)
    (h' : Reports rules' s' live work' reported' outcome') (hwork : work ↔ work')
    (hreported : ∀ n, reported n ↔ reported' n) (l : List Notice) :
    outcome = .ok l ↔ outcome' = .ok l := by
  rw [h.ok_iff, h'.ok_iff]
  simp only [hs.mentions, knows_congr hrules, hwork, hreported]

end Change

/-! ### Engines -/

/-- Whether the rules for single files have something to report about the target files. -/
def LintReport (e : Engine) (image : Image) (s : LintSettings) (n : Notice) : Prop :=
  ∃ r, Selected e.lint s.checks r ∧ ∃ f ∈ image.targets, ∃ d ∈ r.check (f, image),
    ¬ HeldBack s.checks r d.path ∧ n = noticeOf r d

/-- Whether the rules for changes have something to report, unless it is about an unstable package
and these are passed over. -/
def BreakingReport (e : Engine) (c : Change) (s : BreakingSettings) (n : Notice) : Prop :=
  ∃ r, Selected e.breaking s.checks r ∧ ∃ d ∈ r.check c, ¬ HeldBack s.checks r d.path ∧
    ¬ (s.ignoreUnstable = true ∧ isUnstableFile c d.path = true) ∧ n = noticeOf r d

theorem reports_lintImage (e : Engine) (live : Bool) (image : Image) (s : LintSettings) :
    Reports e.lint s.checks live (image.targets ≠ []) (LintReport e image s)
      (e.lintImage live image s) := by
  refine reports_of_select e.lint s.checks (fun _ => !image.targets.isEmpty)
    (fun selected => image.targets.flatMap fun f =>
      selected.flatMap fun r => noticesOf s.checks r (f, image))
    (fun _ _ => ?_) fun selected hmem n => ?_
  · simp
  · simp only [List.mem_flatMap, mem_noticesOf, hmem, LintReport]
    constructor
    · rintro ⟨f, hf, r, hr, hd⟩
      exact ⟨r, hr, f, hf, hd⟩
    · rintro ⟨r, hr, f, hf, hd⟩
      exact ⟨f, hf, r, hr, hd⟩

theorem reports_compareImages (e : Engine) (live : Bool) (c : Change) (s : BreakingSettings) :
    Reports e.breaking s.checks live (∃ r, Selected e.breaking s.checks r) (BreakingReport e c s)
      (e.compareImages live c s) := by
  refine reports_of_select e.breaking s.checks (fun selected => !selected.isEmpty)
    (fun selected => (selected.flatMap fun r => noticesOf s.checks r c).filter fun n =>
      !(s.ignoreUnstable && n.path.any (isUnstableFile c)))
    (fun selected hmem => ?_) fun selected hmem n => ?_
  · simp only [← hmem, Bool.not_eq_true', List.isEmpty_eq_false_iff_exists_mem]
  · have hstable (r : BreakingRule) (d : Finding) :
        (!(s.ignoreUnstable && (noticeOf r d).path.any (isUnstableFile c))) = true ↔
          ¬ (s.ignoreUnstable = true ∧ isUnstableFile c d.path = true) := by
      rw [path_noticeOf]
      cases s.ignoreUnstable with
      | false => simp
      | true => simp
    simp only [List.mem_filter, List.mem_flatMap, mem_noticesOf, hmem, BreakingReport]
    constructor
    · rintro ⟨⟨r, hr, d, hd, hkept, rfl⟩, hunfiltered⟩
      exact ⟨r, hr, d, hd, hkept, (hstable r d).1 hunfiltered, rfl⟩
    · rintro ⟨r, hr, d, hd, hkept, hunfiltered, rfl⟩
      exact ⟨⟨r, hr, d, hd, hkept, rfl⟩, (hstable r d).2 hunfiltered⟩

/-- An engine refuses settings exactly when they mention something unknown, and otherwise reports
what the selected rules find and the settings do not hold back; neither the order of the rules nor
that of the entries of the settings changes a report. -/
theorem reports_engine (e : Engine) (live : Bool) (image : Image) (c : Change) (ls : LintSettings)
    (bs : BreakingSettings) :
    Reports e.lint ls.checks live (image.targets ≠ []) (LintReport e image ls)
        (e.lintImage live image ls) ∧
      Reports e.breaking bs.checks live (∃ r, Selected e.breaking bs.checks r)
        (BreakingReport e c bs) (e.compareImages live c bs) ∧
      (∀ (e' : Engine) (ls' : LintSettings), e.lint.Perm e'.lint →
        SameEntries ls.checks ls'.checks →
        ∀ l, e.lintImage live image ls = .ok l ↔ e'.lintImage live image ls' = .ok l) ∧
      ∀ (e' : Engine) (bs' : BreakingSettings), e.breaking.Perm e'.breaking →
        SameEntries bs.checks bs'.checks → bs.ignoreUnstable = bs'.ignoreUnstable →
        ∀ l, e.compareImages live c bs = .ok l ↔ e'.compareImages live c bs' = .ok l := by
  have hlint := reports_lintImage e live image ls
  have hbreaking := reports_compareImages e live c bs
  refine ⟨hlint, hbreaking, fun e' ls' hperm hsame => ?_, fun e' bs' hperm hsame hunstable => ?_⟩
  · have hrules (r : LintRule) : r ∈ e.lint ↔ r ∈ e'.lint := hperm.mem_iff
    refine hlint.congr hrules hsame (reports_lintImage e' live image ls') .rfl fun n => ?_
    simp only [LintReport, selected_congr hrules hsame, hsame.heldBack]
  · have hrules (r : BreakingRule) : r ∈ e.breaking ↔ r ∈ e'.breaking := hperm.mem_iff
    have hselected := selected_congr hrules hsame
    refine hbreaking.congr hrules hsame (reports_compareImages e' live c bs') ?_ fun n => ?_
    · simp only [hselected]
    · simp only [BreakingReport, hselected, hsame.heldBack, hunstable]

/-! ### Rules the other way round -/

/-- A file that has no package and names no syntax. -/
def plainImage : Image := ⟨[{
  descriptor := ⟨"a.schema", "", "schema1", [], [], [.mk "m" "m" [] [] []], [], none⟩
  external := "a.schema"
  module := none
  commit := none
  isImport := false
  syntaxUnspecified := true
  unusedDependencies := [] }]⟩

def checksUsing (use : List String) : CheckSettings :=
  { CheckSettings.using .v2 use with except := ["SYNTAX_SPECIFIED"] }

theorem reports_engine_reversed :
    Engine.standard.lint.Perm Engine.standard.lint.reverse ∧
      Engine.standard.breaking.Perm Engine.standard.breaking.reverse ∧
      SameEntries (checksUsing ["MINIMAL", "MESSAGE_PASCAL_CASE"])
        (checksUsing ["MESSAGE_PASCAL_CASE", "MINIMAL"]) ∧
      (∃ l, l.map Notice.type = ["MESSAGE_PASCAL_CASE", "PACKAGE_DEFINED"] ∧
        Engine.standard.lintImage true plainImage
          ⟨checksUsing ["MINIMAL", "MESSAGE_PASCAL_CASE"], false⟩ = .ok l ∧
        (Engine.mk Engine.standard.lint.reverse []).lintImage true plainImage
          ⟨checksUsing ["MESSAGE_PASCAL_CASE", "MINIMAL"], false⟩ = .ok l) ∧
      ∃ l, l.map Notice.type = ["FILE_NO_DELETE"] ∧
        Engine.standard.compareImages true ⟨⟨[]⟩, plainImage⟩ (.default .v2) = .ok l ∧
        (Engine.mk [] Engine.standard.breaking.reverse).compareImages true ⟨⟨[]⟩, plainImage⟩
          (.default .v2) = .ok l := by
  have hperm {α : Type} (rules : List (Rule α)) : rules.Perm rules.reverse :=
    (List.reverse_perm rules).symm
  have hsame : SameEntries (checksUsing ["MINIMAL", "MESSAGE_PASCAL_CASE"])
      (checksUsing ["MESSAGE_PASCAL_CASE", "MINIMAL"]) :=
    { SameEntries.refl (checksUsing []) with
      use := fun entry => (List.Perm.swap "MESSAGE_PASCAL_CASE" "MINIMAL" []).mem_iff }
  have hlint : ((Engine.standard.lintImage true plainImage
      ⟨checksUsing ["MINIMAL", "MESSAGE_PASCAL_CASE"], false⟩).toOption.map fun l =>
        l.map Notice.type) = some ["MESSAGE_PASCAL_CASE", "PACKAGE_DEFINED"] := by
    decide +kernel
  have hbreaking : ((Engine.standard.compareImages true ⟨⟨[]⟩, plainImage⟩
      (.default .v2)).toOption.map fun l => l.map Notice.type) = some ["FILE_NO_DELETE"] := by
    decide +kernel
  obtain ⟨l, hl, hltypes⟩ := Option.map_eq_some_iff.1 hlint
  obtain ⟨b, hb, hbtypes⟩ := Option.map_eq_some_iff.1 hbreaking
  obtain ⟨_, _, hlints, hbreaks⟩ := reports_engine Engine.standard true plainImage
    ⟨⟨[]⟩, plainImage⟩ ⟨checksUsing ["MINIMAL", "MESSAGE_PASCAL_CASE"], false⟩ (.default .v2)
  exact ⟨hperm _, hperm _, hsame,
    ⟨l, hltypes, toOption_eq_some.1 hl,
      (hlints ⟨_, []⟩ ⟨_, false⟩ (hperm _) hsame l).1 (toOption_eq_some.1 hl)⟩,
    ⟨b, hbtypes, toOption_eq_some.1 hb,
      (hbreaks ⟨[], _⟩ (.default .v2) (hperm _) (.refl _) rfl b).1 (toOption_eq_some.1 hb)⟩⟩

end Check

end Schemata

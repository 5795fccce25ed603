import Mathlib
import Schemata.Check.Rule

/-!
# Suggested names are in style

The two naming styles have plain descriptions, and a name is in a style if and only if it is what
the style suggests for it. What is suggested for any name is in the style, so the rule that suggests
it has nothing more to say, and it differs from the name in its underscores and in the case of ASCII
letters alone.
-/

namespace Schemata.Check

/-! ### Styles -/

/-- Whether characters are in lower snake case. -/
structure IsLowerSnake (cs : List Char) : Prop where
  noCapital : ∀ c ∈ cs, c.isUpper = false
  notLeading : cs.head? ≠ some '_'
  notTrailing : cs.getLast? ≠ some '_'
  notDoubled : ¬ ['_', '_'] <:+: cs

/-- Whether characters are in Pascal case. -/
structure IsPascal (cs : List Char) : Prop where
  noUnderscore : '_' ∉ cs
  notSmall : ∀ c ∈ cs.head?, c.isLower = false

/-- The characters of a name without its underscores, and without the case of ASCII letters. -/
def caselessLetters (name : String) : List Char :=
  (name.toList.filter (· ≠ '_')).map Char.toLower

theorem toLower_eq_underscore {c : Char} : c.toLower = '_' ↔ c = '_' := by
  constructor
  · intro h
    have halpha : c.isAlpha = false := by
      rw [← Char.isAlpha_toLower_eq_isAlpha, h]
      decide
    have hupper : ¬ c.isUpper = true := by
      rw [Char.isAlpha, Bool.or_eq_false_iff] at halpha
      rw [halpha.1]
      exact Bool.false_ne_true
    rwa [Char.toLower_eq_of_not_isUpper hupper] at h
  · rintro rfl
    decide

theorem map_toLower_eq_self {cs : List Char} (h : ∀ c ∈ cs, c.isUpper = false) :
    cs.map Char.toLower = cs := by
  have hsame : ∀ c ∈ cs, c.toLower = id c := by
    intro c hc
    refine Char.toLower_eq_of_not_isUpper ?_
    rw [h c hc]
    exact Bool.false_ne_true
  rw [List.map_congr_left hsame, List.map_id]

/-! ### Words -/

variable {word cs : List Char} {ws : List (List Char)}

/-- Whether characters may be a word in lower snake case. -/
structure IsWord (w : List Char) : Prop where
  some : w ≠ []
  noUnderscore : '_' ∉ w
  noCapital : ∀ c ∈ w, c.isUpper = false

theorem IsWord.isLowerSnake {w : List Char} (h : IsWord w) : IsLowerSnake w where
  noCapital := h.noCapital
  notLeading hlead := h.noUnderscore (List.mem_of_head? hlead)
  notTrailing htrail := h.noUnderscore (List.mem_of_getLast? htrail)
  notDoubled hdoubled := h.noUnderscore (hdoubled.subset List.mem_cons_self)

/-- An underscore between two stretches is single if neither has one beside it. -/
theorem not_doubled_append {w : List Char} (hw : '_' ∉ w) (hlead : cs.head? ≠ some '_')
    (hcs : ¬ ['_', '_'] <:+: cs) : ¬ ['_', '_'] <:+: w ++ '_' :: cs := by
  induction w with
  | nil =>
    rw [List.nil_append, List.infix_cons_iff]
    rintro (hbegins | hin)
    · obtain ⟨rest, rfl⟩ := (List.cons_prefix_cons.1 hbegins).2
      exact hlead rfl
    · exact hcs hin
  | cons c w ih =>
    rw [List.mem_cons, not_or] at hw
    rw [List.cons_append, List.infix_cons_iff]
    rintro (hbegins | hin)
    · exact hw.1 (List.cons_prefix_cons.1 hbegins).1
    · exact ih hw.2 hin

/-- A word may be put before a name that is not empty. -/
theorem IsWord.join {w : List Char} (hw : IsWord w) (h : IsLowerSnake cs) (hcs : cs ≠ []) :
    IsLowerSnake (w ++ '_' :: cs) := by
  constructor
  case noCapital =>
    exact List.forall_mem_append.2
      ⟨hw.noCapital, List.forall_mem_cons.2 ⟨by decide, h.noCapital⟩⟩
  case notLeading =>
    rw [List.head?_append_of_ne_nil _ hw.some]
    exact fun hlead => hw.noUnderscore (List.mem_of_head? hlead)
  case notTrailing =>
    rw [List.getLast?_append_of_ne_nil _ (List.cons_ne_nil _ _), List.getLast?_cons_of_ne_nil hcs]
    exact h.notTrailing
  case notDoubled => exact not_doubled_append hw.noUnderscore h.notLeading h.notDoubled

theorem isLowerSnake_intercalate (h : ∀ w ∈ ws, IsWord w) :
    IsLowerSnake (List.intercalate ['_'] ws) := by
  induction ws with
  | nil => constructor <;> simp [List.intercalate]
  | cons w ws ih =>
    obtain ⟨hw, hws⟩ := List.forall_mem_cons.1 h
    cases ws with
    | nil =>
      rw [List.intercalate_singleton]
      exact hw.isLowerSnake
    | cons w' ws =>
      have hsome : List.intercalate ['_'] (w' :: ws) ≠ [] := by
        have hw' := (hws w' List.mem_cons_self).some
        cases ws with
        | nil => rwa [List.intercalate_singleton]
        | cons => simp [List.intercalate_cons_cons, hw']
      rw [List.intercalate_cons_cons, List.append_assoc]
      exact hw.join (ih hws) hsome

theorem filter_intercalate (h : ∀ w ∈ ws, '_' ∉ w) :
    (List.intercalate ['_'] ws).filter (· ≠ '_') = ws.flatten := by
  have hfree {w : List Char} (hw : '_' ∉ w) : w.filter (· ≠ '_') = w :=
    List.filter_eq_self.2 fun c hc => decide_eq_true fun heq => hw (heq ▸ hc)
  induction ws with
  | nil => rfl
  | cons w ws ih =>
    obtain ⟨hw, hws⟩ := List.forall_mem_cons.1 h
    cases ws with
    | nil => rw [List.intercalate_singleton, hfree hw, List.flatten_singleton]
    | cons w' ws =>
      rw [List.intercalate_cons_cons, List.filter_append, List.filter_append, ih hws, hfree hw,
        List.flatten_cons]
      simp

/-- Splitting a name into words takes nothing but underscores away. -/
theorem flatten_wordsFrom (previous : Option Char) (word cs : List Char) :
    (wordsFrom previous word cs).flatten = word ++ cs.filter (· ≠ '_') := by
  fun_induction wordsFrom previous word cs with
  | case1 => rfl
  | case2 previous word hword => simp
  | case3 previous cs ih => simpa using ih
  | case4 previous word cs hword ih => simp [ih]
  | case5 previous word c cs hc hstarts ih => simp [hc, ih]
  | case6 previous word c cs hc hstays ih => simp [hc, ih]

theorem ne_nil_of_mem_wordsFrom (previous : Option Char) (word cs : List Char) :
    ∀ w ∈ wordsFrom previous word cs, w ≠ [] := by
  fun_induction wordsFrom previous word cs with
  | case1 => exact fun _ hw => absurd hw List.not_mem_nil
  | case2 previous word hword => exact List.forall_mem_singleton.2 hword
  | case3 previous cs ih => exact ih
  | case4 previous word cs hword ih => exact List.forall_mem_cons.2 ⟨hword, ih⟩
  | case5 previous word c cs hc hstarts ih =>
    have hword : word ≠ [] := by
      rintro rfl
      simp at hstarts
    exact List.forall_mem_cons.2 ⟨hword, ih⟩
  | case6 previous word c cs hc hstays ih => exact ih

/-- What follows an underscore is in lower snake case if the whole is, and it is not empty. -/
theorem IsLowerSnake.after (h : IsLowerSnake (word ++ '_' :: cs)) : IsLowerSnake cs ∧ cs ≠ [] := by
  have hsuffix : '_' :: cs <:+ word ++ '_' :: cs := List.suffix_append _ _
  have hcs : cs ≠ [] := by
    rintro rfl
    exact h.notTrailing (by simp)
  refine ⟨⟨fun c hc => h.noCapital c (hsuffix.subset (List.mem_cons_of_mem _ hc)), ?_, ?_, ?_⟩, hcs⟩
  · intro hlead
    obtain ⟨rest, rfl⟩ := List.head?_eq_some_iff.1 hlead
    exact h.notDoubled ⟨word, rest, by simp⟩
  · intro htrail
    refine h.notTrailing ?_
    rwa [List.getLast?_append_of_ne_nil _ (List.cons_ne_nil _ _),
      List.getLast?_cons_of_ne_nil hcs]
  · exact fun hin => h.notDoubled (hin.trans ((List.suffix_cons _ _).trans hsuffix).isInfix)

/-- A name in lower snake case is put together again from its words. -/
theorem intercalate_wordsFrom (previous : Option Char) (h : IsLowerSnake (word ++ cs))
    (hword : '_' ∉ word) :
    List.intercalate ['_'] (wordsFrom previous word cs) = word ++ cs := by
  -- The word read so far and what is left are in the style together, whatever came before them.
  induction cs generalizing previous word with
  | nil =>
    rw [wordsFrom, List.append_nil]
    split
    · rename_i hnone
      rw [hnone]
      rfl
    · exact List.intercalate_singleton
  | cons c cs ih =>
    by_cases hc : c = '_'
    · subst hc
      have hsome : word ≠ [] := by
        rintro rfl
        exact h.notLeading rfl
      obtain ⟨hafter, hcs⟩ := h.after
      have hrest : List.intercalate ['_'] (wordsFrom (some '_') [] cs) = cs :=
        ih (some '_') hafter List.not_mem_nil
      have hwords : wordsFrom (some '_') [] cs ≠ [] := by
        intro hnone
        rw [hnone] at hrest
        exact hcs hrest.symm
      rw [wordsFrom, if_pos rfl, if_neg hsome, List.intercalate_cons_of_ne_nil hwords, hrest,
        List.append_assoc, List.singleton_append]
    · have hsmall : c.isUpper = false := h.noCapital c (by simp)
      have hstays : ¬ (c.isUpper && word ≠ [] && startsWord previous cs.head?) = true := by
        rw [hsmall]
        simp
      have hlonger : '_' ∉ word ++ [c] := by
        simp [hword, Ne.symm hc]
      rw [wordsFrom, if_neg hc, if_neg hstays, ih (some c) (by simpa using h) hlonger]
      simp

/-! ### Lower snake case -/

/-- The words of a name in small letters. -/
def smallWords (name : String) : List (List Char) := (words name).map fun w => w.map Char.toLower

theorem toList_toLowerSnakeCase (name : String) :
    (toLowerSnakeCase name).toList = List.intercalate ['_'] (smallWords name) :=
  String.toList_ofList

theorem flatten_smallWords (name : String) : (smallWords name).flatten = caselessLetters name := by
  rw [smallWords, ← List.map_flatten, words, flatten_wordsFrom, List.nil_append, caselessLetters]

theorem isWord_of_mem_smallWords {name : String} {w : List Char} (h : w ∈ smallWords name) :
    IsWord w := by
  have hsub : w ⊆ caselessLetters name := by
    rw [← flatten_smallWords]
    exact fun c hc => List.mem_flatten_of_mem h hc
  obtain ⟨v, hv, rfl⟩ := List.mem_map.1 h
  constructor
  case some => exact mt List.map_eq_nil_iff.1 (ne_nil_of_mem_wordsFrom _ _ _ v hv)
  case noUnderscore =>
    intro hunder
    obtain ⟨c, hc, hlower⟩ := List.mem_map.1 (hsub hunder)
    exact of_decide_eq_true (List.mem_filter.1 hc).2 (toLower_eq_underscore.1 hlower)
  case noCapital =>
    refine List.forall_mem_map.2 fun c _ => Char.isUpper_toLower_eq_false c

theorem isLowerSnake_toLowerSnakeCase (name : String) :
    IsLowerSnake (toLowerSnakeCase name).toList := by
  rw [toList_toLowerSnakeCase]
  exact isLowerSnake_intercalate fun _ hw => isWord_of_mem_smallWords hw

theorem toLowerSnakeCase_eq_self {name : String} (h : IsLowerSnake name.toList) :
    toLowerSnakeCase name = name := by
  have hsame : ∀ w ∈ words name, w.map Char.toLower = id w := by
    intro w hw
    refine map_toLower_eq_self fun c hc => h.noCapital c ?_
    have hmem : c ∈ (words name).flatten := List.mem_flatten_of_mem hw hc
    rw [words, flatten_wordsFrom] at hmem
    exact (List.mem_filter.1 hmem).1
  have hsmall : smallWords name = words name := by
    rw [smallWords, List.map_congr_left hsame, List.map_id]
  have hwhole : IsLowerSnake ([] ++ name.toList) := h
  refine String.toList_inj.1 ?_
  rw [toList_toLowerSnakeCase, hsmall, words]
  exact intercalate_wordsFrom none hwhole List.not_mem_nil

theorem isLowerSnakeCase_iff {name : String} :
    isLowerSnakeCase name = true ↔ IsLowerSnake name.toList := by
  rw [isLowerSnakeCase, decide_eq_true_eq]
  constructor
  · intro h
    rw [h]
    exact isLowerSnake_toLowerSnakeCase name
  · exact fun h => (toLowerSnakeCase_eq_self h).symm

theorem caselessLetters_toLowerSnakeCase (name : String) :
    caselessLetters (toLowerSnakeCase name) = caselessLetters name := by
  have hfree : ∀ w ∈ smallWords name, '_' ∉ w := fun _ hw =>
    (isWord_of_mem_smallWords hw).noUnderscore
  rw [caselessLetters, toList_toLowerSnakeCase, filter_intercalate hfree, flatten_smallWords,
    caselessLetters, List.map_map]
  exact List.map_congr_left fun c _ => Char.toLower_toLower_eq_toLower c

/-! ### Pascal case -/

theorem flatten_splitOn (cs : List Char) : (cs.splitOn '_').flatten = cs.filter (· ≠ '_') := by
  induction cs with
  | nil => rfl
  | cons c cs ih =>
    obtain ⟨first, rest, hsplit⟩ := List.exists_cons_of_ne_nil (List.splitOn_ne_nil '_' cs)
    rw [hsplit, List.flatten_cons] at ih
    rw [List.splitOn_cons_eq_if_modifyHead, hsplit]
    by_cases hc : c = '_'
    · simp [hc, ih]
    · simp [hc, ih]

theorem map_toLower_capitalized (cs : List Char) :
    (capitalized cs).map Char.toLower = cs.map Char.toLower := by
  cases cs with
  | nil => rfl
  | cons c cs => rw [capitalized, List.map_cons, List.map_cons, Char.toLower_toUpper_eq_toLower]

/-- Putting parts together with capitals changes no more than their case. -/
theorem map_toLower_toPascalCase (name : String) :
    (toPascalCase name).toList.map Char.toLower = caselessLetters name := by
  rw [toPascalCase, String.toList_ofList, List.map_flatMap, caselessLetters, ← flatten_splitOn,
    List.map_flatten, List.flatMap_def]
  congr 1
  exact List.map_congr_left fun part _ => map_toLower_capitalized part

theorem isLower_head?_flatMap (parts : List (List Char)) :
    ∀ c ∈ (parts.flatMap capitalized).head?, c.isLower = false := by
  induction parts with
  | nil =>
    intro c hc
    cases hc
  | cons part parts ih =>
    cases part with
    | nil => exact ih
    | cons c cs =>
      rintro _ ⟨⟩
      exact Char.isLower_toUpper_eq_false c

theorem isPascal_toPascalCase (name : String) : IsPascal (toPascalCase name).toList := by
  constructor
  case noUnderscore =>
    intro hunder
    have hmem : Char.toLower '_' ∈ caselessLetters name := by
      rw [← map_toLower_toPascalCase]
      exact List.mem_map_of_mem hunder
    obtain ⟨c, hc, hlower⟩ := List.mem_map.1 hmem
    exact of_decide_eq_true (List.mem_filter.1 hc).2 (toLower_eq_underscore.1 hlower)
  case notSmall =>
    rw [toPascalCase, String.toList_ofList]
    exact isLower_head?_flatMap _

theorem toPascalCase_eq_self {name : String} (h : IsPascal name.toList) :
    toPascalCase name = name := by
  refine String.toList_inj.1 ?_
  rw [toPascalCase, String.toList_ofList, List.splitOn_eq_singleton h.noUnderscore]
  have hsmall := h.notSmall
  cases hname : name.toList with
  | nil => rfl
  | cons c cs =>
    rw [hname] at hsmall
    have hc : ¬ c.isLower = true := by
      rw [hsmall c rfl]
      exact Bool.false_ne_true
    rw [List.flatMap_singleton, capitalized, Char.toUpper_eq_of_not_isLower hc]

theorem isPascalCase_iff {name : String} : isPascalCase name = true ↔ IsPascal name.toList := by
  rw [isPascalCase, decide_eq_true_eq]
  constructor
  · intro h
    rw [h]
    exact isPascal_toPascalCase name
  · exact fun h => (toPascalCase_eq_self h).symm

theorem caselessLetters_toPascalCase (name : String) :
    caselessLetters (toPascalCase name) = caselessLetters name := by
  have hall : (toPascalCase name).toList.filter (· ≠ '_') = (toPascalCase name).toList :=
    List.filter_eq_self.2 fun c hc => decide_eq_true fun heq =>
      (isPascal_toPascalCase name).noUnderscore (heq ▸ hc)
  rw [caselessLetters, hall, map_toLower_toPascalCase]

/-! ### Rules about names -/

/-- The names of all messages of a file. -/
def messageNames (f : ImageFile) : List String := f.descriptor.allMessages.map Descriptor.Message.name

/-- The names of all fields of a file. -/
def fieldNames (f : ImageFile) : List String :=
  f.descriptor.allMessages.flatMap fun m => m.fields.map Descriptor.Field.name

/-- Whether a rule finds each name that is not what is suggested for it, with advice about it, and
lets every name pass that is suggested for any. -/
structure Advises (r : LintRule) (names : ImageFile → List String) (suggested : String → String)
    (advice : String → String) : Prop where
  found : ∀ f image, (r.check (f, image)).map Finding.message =
    ((names f).filter fun name => name ≠ suggested name).map advice
  passed : ∀ f image, (∀ name ∈ names f, ∃ other, name = suggested other) →
    r.check (f, image) = []

theorem advises_of {r : LintRule} {names : ImageFile → List String}
    {suggested advice : String → String}
    (hidem : ∀ name, suggested (suggested name) = suggested name)
    (hfound : ∀ f image, (r.check (f, image)).map Finding.message =
      ((names f).filter fun name => name ≠ suggested name).map advice) :
    Advises r names suggested advice := by
  refine ⟨hfound, fun f image hnames => ?_⟩
  have hnone : (names f).filter (fun name => name ≠ suggested name) = [] := by
    refine List.filter_eq_nil_iff.2 fun name hname => ?_
    obtain ⟨other, rfl⟩ := hnames name hname
    simp [hidem]
  have h := hfound f image
  rw [hnone, List.map_nil] at h
  exact List.map_eq_nil_iff.1 h

def messageAdvice (name : String) : String :=
  s!"Message name \"{name}\" should be PascalCase, such as \"{toPascalCase name}\"."

def fieldAdvice (name : String) : String :=
  s!"Field name \"{name}\" should be lower_snake_case, such as \"{toLowerSnakeCase name}\"."

theorem found_messagePascalCase (f : ImageFile) (image : Image) :
    (messagePascalCase.check (f, image)).map Finding.message =
      ((messageNames f).filter fun name => name ≠ toPascalCase name).map messageAdvice := by
  simp only [messagePascalCase, messageNames, List.filter_map, List.map_map]
  congr 1
  exact List.filter_congr fun m _ => by simp [isPascalCase]

theorem found_fieldLowerSnakeCase (f : ImageFile) (image : Image) :
    (fieldLowerSnakeCase.check (f, image)).map Finding.message =
      ((fieldNames f).filter fun name => name ≠ toLowerSnakeCase name).map fieldAdvice := by
  simp only [fieldLowerSnakeCase, fieldNames, List.filter_flatMap, List.map_flatMap,
    List.filter_map, List.map_map]
  refine List.flatMap_congr fun m _ => ?_
  congr 1
  exact List.filter_congr fun g _ => by simp [isLowerSnakeCase]

/-- What is suggested for a name is the same when it is suggested again, is in the style, and has
the letters of the name. A name is in a style if and only if it is its own suggestion. So the rules
about names, which find all other names and say what to take for them, find nothing where the names
are suggested ones. -/
theorem suggestions_pass :
    (∀ name, toLowerSnakeCase (toLowerSnakeCase name) = toLowerSnakeCase name ∧
      toPascalCase (toPascalCase name) = toPascalCase name) ∧
    Advises fieldLowerSnakeCase fieldNames toLowerSnakeCase fieldAdvice ∧
    Advises messagePascalCase messageNames toPascalCase messageAdvice ∧
    (∀ name, IsLowerSnake (toLowerSnakeCase name).toList ∧ IsPascal (toPascalCase name).toList) ∧
    (∀ name, (isLowerSnakeCase name = true ↔ IsLowerSnake name.toList) ∧
      (isPascalCase name = true ↔ IsPascal name.toList)) ∧
    ∀ name, caselessLetters (toLowerSnakeCase name) = caselessLetters name ∧
      caselessLetters (toPascalCase name) = caselessLetters name := by
  have hsnake (name : String) : toLowerSnakeCase (toLowerSnakeCase name) = toLowerSnakeCase name :=
    toLowerSnakeCase_eq_self (isLowerSnake_toLowerSnakeCase name)
  have hpascal (name : String) : toPascalCase (toPascalCase name) = toPascalCase name :=
    toPascalCase_eq_self (isPascal_toPascalCase name)
  refine ⟨fun name => ⟨hsnake name, hpascal name⟩, advises_of hsnake found_fieldLowerSnakeCase,
    advises_of hpascal found_messagePascalCase, ?_, ?_, ?_⟩
  · exact fun name => ⟨isLowerSnake_toLowerSnakeCase name, isPascal_toPascalCase name⟩
  · exact fun name => ⟨isLowerSnakeCase_iff, isPascalCase_iff⟩
  · exact fun name => ⟨caselessLetters_toLowerSnakeCase name, caselessLetters_toPascalCase name⟩

example : toLowerSnakeCase "_HTTPServer__id2Value" = "http_server_id2_value" := by decide

end Schemata.Check

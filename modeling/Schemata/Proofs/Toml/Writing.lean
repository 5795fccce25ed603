import Mathlib.Data.List.TakeWhile
import Schemata.Toml.Document

/-!
# What is written is read back

Of the kinds of strings, writing takes one that holds the text, so reading gives the text again.
This is said of texts without line breaks, and of assignments of such texts to bare keys.
-/

namespace Schemata.Toml

variable {k : StringKind} {s rest : List Char} {c q : Char}

/-! ### Escapes -/

theorem hexNumber?_of_lt {n : Nat} (h : n < 128) :
    hexNumber? ['0', '0', Nat.digitChar (n / 16), (Nat.digitChar (n % 16)).toUpper] = some n := by
  revert n
  decide

theorem digits_ne_return {n : Nat} (h : n < 128) :
    Nat.digitChar (n / 16) ≠ '\r' ∧ (Nat.digitChar (n % 16)).toUpper ≠ '\r' := by
  revert n
  decide

theorem codePoint?_of_lt {n : Nat} (h : n < 128) (rest : List Char) :
    codePoint? 4 ('0' :: '0' :: Nat.digitChar (n / 16) :: (Nat.digitChar (n % 16)).toUpper :: rest) =
      some (Char.ofNat n) := by
  have hpasses : (guard n.isValidChar : Option Unit) = some () := if_pos (.inl (by omega))
  show Option.bind (hexNumber? ['0', '0', Nat.digitChar (n / 16), (Nat.digitChar (n % 16)).toUpper])
    (fun m => Option.bind (guard m.isValidChar) fun _ => some (Char.ofNat m)) = _
  rw [hexNumber?_of_lt h]
  show Option.bind (guard n.isValidChar) (fun _ => some (Char.ofNat n)) = _
  rw [hpasses]
  rfl

/-- A character is written as it is, or as an escape that stands for it. -/
theorem escapeOf_cases (c : Char) :
    (escapeOf c = [c] ∧ c ≠ '"' ∧ c ≠ '\\' ∧ isShown c = true) ∨
      ∃ t, escapeOf c = '\\' :: t ∧ '\r' ∉ t ∧
        ∀ rest, escaped? (t ++ rest) = some (c, t.length) := by
  unfold escapeOf
  split
  · exact .inr ⟨_, rfl, by decide, fun rest => by simp [escaped?, *]⟩
  split
  · exact .inr ⟨_, rfl, by decide, fun rest => by simp [escaped?, *]⟩
  split
  · exact .inr ⟨_, rfl, by decide, fun rest => by simp [escaped?, *]⟩
  split
  · exact .inr ⟨_, rfl, by decide, fun rest => by simp [escaped?, *]⟩
  split
  · exact .inr ⟨_, rfl, by decide, fun rest => by simp [escaped?, *]⟩
  split
  · exact .inr ⟨_, rfl, by decide, fun rest => by simp [escaped?, *]⟩
  split
  · exact .inr ⟨_, rfl, by decide, fun rest => by simp [escaped?, *]⟩
  split
  · rename_i hescape
    have hlow : c.toNat < 128 := by
      simp only [needsEscape, isShown, Bool.and_eq_true, Bool.not_eq_true', Bool.or_eq_false_iff,
        Bool.and_eq_false_iff, decide_eq_false_iff_not] at hescape
      omega
    obtain ⟨hhigh, hlowDigit⟩ := digits_ne_return hlow
    refine .inr ⟨_, rfl, by simp [hhigh.symm, hlowDigit.symm], fun rest => ?_⟩
    have hpoint := codePoint?_of_lt hlow rest
    rw [Char.ofNat_toNat] at hpoint
    exact congrArg (Option.map fun c => (c, 5)) hpoint
  · rename_i hbreak _ _ hquote hslash hplain
    refine .inl ⟨rfl, hquote, hslash, ?_⟩
    simpa [needsEscape, hbreak] using hplain

/-! ### Bodies of strings -/

namespace StringKind

theorem body_close {r : List Char × List Char} (h : k.close? s = some r) : k.body s = some r := by
  rw [body.eq_def, h]

theorem body_escape (hlong : k.long = false) (hk : k.hasEscapes = true)
    (hopen : k.close? ('\\' :: s) = none) {n : Nat} (h : escaped? s = some (c, n)) :
    k.body ('\\' :: s) = (k.body (s.drop n)).map fun r => (c :: r.1, r.2) := by
  rw [body.eq_def, hopen]
  simp only [hk, Bool.and_self, decide_true, if_true]
  split
  · rename_i hbreak
    simp [hlong] at hbreak
  · rw [h]

theorem body_plain (hopen : k.close? (c :: s) = none) (hc : c = '\\' → k.hasEscapes = false)
    (haccepts : k.accepts c = true) :
    k.body (c :: s) = (k.body s).map fun r => (c :: r.1, r.2) := by
  have hnoescape : (c = '\\' && k.hasEscapes) = false := by
    by_cases h : c = '\\'
    · simp [h, hc h]
    · simp [h]
  rw [body.eq_def, hopen]
  simp [hnoescape, haccepts]

/-- A text that may stand as it is, and that nothing in it closes, is taken off the front. -/
theorem body_append {tail : List Char} {r : List Char × List Char}
    (hopen : ∀ t, t <:+ s → t ≠ [] → k.close? (t ++ tail) = none)
    (hslash : k.hasEscapes = true → '\\' ∉ s) (haccepts : ∀ c ∈ s, k.accepts c = true)
    (h : k.body tail = some r) : k.body (s ++ tail) = some (s ++ r.1, r.2) := by
  induction s with
  | nil => exact h
  | cons c s ih =>
    obtain ⟨hc, hs⟩ := List.forall_mem_cons.1 haccepts
    have hnoescape : c = '\\' → k.hasEscapes = false := by
      rintro rfl
      exact Bool.eq_false_iff.2 fun hk => hslash hk List.mem_cons_self
    have hfirst : k.close? (c :: (s ++ tail)) = none :=
      hopen _ (List.suffix_refl _) (List.cons_ne_nil _ _)
    rw [List.cons_append, body_plain hfirst hnoescape hc, ih (fun t ht => hopen t (ht.trans (List.suffix_cons c s)))
      (fun hk hmem => hslash hk (List.mem_cons_of_mem _ hmem)) hs]
    rfl

theorem close?_short (q : Char) (rest : List Char) :
    (⟨q, false⟩ : StringKind).close? (q :: rest) = some ([], rest) := by
  simp [close?]

theorem close?_short_of_ne (h : c ≠ q) : (⟨q, false⟩ : StringKind).close? (c :: rest) = none := by
  simp [close?, h]

/-- In single quotes a text is as it is. -/
theorem body_short (hquote : q ∉ s) (hslash : q = '"' → '\\' ∉ s)
    (hshown : ∀ c ∈ s, isShown c = true) :
    (⟨q, false⟩ : StringKind).body (s ++ q :: rest) = some (s, rest) := by
  have happend : (⟨q, false⟩ : StringKind).body (s ++ q :: rest) = some (s ++ [], rest) :=
    body_append (r := ([], rest)) (fun t ht hne => ?_) (fun hk => hslash (by simpa [hasEscapes] using hk))
    (fun c hc => by simp [accepts, hshown c hc]) (body_close (close?_short q rest))
  · simpa using happend
  · obtain ⟨c, t, rfl⟩ := List.exists_cons_of_ne_nil hne
    refine close?_short_of_ne ?_
    rintro rfl
    exact hquote (ht.subset List.mem_cons_self)

theorem body_escaped (s rest : List Char) :
    (⟨'"', false⟩ : StringKind).body (s.flatMap escapeOf ++ '"' :: rest) = some (s, rest) := by
  induction s with
  | nil => exact body_close (close?_short '"' rest)
  | cons c s ih =>
    rw [List.flatMap_cons, List.append_assoc]
    rcases escapeOf_cases c with ⟨hplain, hquote, hslash, hshown⟩ | ⟨t, hescape, _, hread⟩
    · rw [hplain, List.singleton_append, body_plain (close?_short_of_ne hquote)
        (fun h => absurd h hslash) (by simp [accepts, hshown]), ih]
      rfl
    · rw [hescape, List.cons_append, body_escape rfl rfl (close?_short_of_ne (by decide)) (hread _),
        List.drop_left, ih]
      rfl

end StringKind

/-! ### Runs of quotes -/

theorem run_le_foldl (x : Char) (s : List Char) (run best : Nat) :
    best ≤ (s.foldl (fun (acc : Nat × Nat) c =>
        if c = x then (acc.1 + 1, max acc.2 (acc.1 + 1)) else (0, acc.2)) (run, best)).2 ∧
      ((s.takeWhile (· = x)).length ≠ 0 →
        run + (s.takeWhile (· = x)).length ≤ (s.foldl (fun (acc : Nat × Nat) c =>
          if c = x then (acc.1 + 1, max acc.2 (acc.1 + 1)) else (0, acc.2)) (run, best)).2) := by
  induction s generalizing run best with
  | nil => simp
  | cons c s ih =>
    by_cases h : c = x
    · obtain ⟨hbest, hrun⟩ := ih (run + 1) (max best (run + 1))
      simp only [List.foldl_cons, h, if_true, List.takeWhile_cons, decide_true, List.length_cons]
      refine ⟨by omega, fun _ => ?_⟩
      by_cases hzero : (s.takeWhile (· = x)).length = 0
      · omega
      · have := hrun hzero
        omega
    · obtain ⟨hbest, _⟩ := ih 0 best
      simp only [List.foldl_cons, h, if_false, List.takeWhile_cons, decide_false]
      exact ⟨hbest, fun hne => absurd rfl hne⟩

/-- No run is longer than the longest. -/
theorem run_le_longestRun {x : Char} {t : List Char} (h : t <:+ s) :
    (t.takeWhile (· = x)).length ≤ longestRun x s := by
  obtain ⟨s₀, rfl⟩ := h
  unfold longestRun
  rw [List.foldl_append]
  by_cases hzero : (t.takeWhile (· = x)).length = 0
  · omega
  · have hrun := (run_le_foldl x t (s₀.foldl (fun (acc : Nat × Nat) c =>
      if c = x then (acc.1 + 1, max acc.2 (acc.1 + 1)) else (0, acc.2)) (0, 0)).1 (s₀.foldl
      (fun (acc : Nat × Nat) c =>
        if c = x then (acc.1 + 1, max acc.2 (acc.1 + 1)) else (0, acc.2)) (0, 0)).2).2 hzero
    exact Nat.le_trans (Nat.le_add_left _ _) hrun

theorem not_mem_of_longestRun {x : Char} (h : longestRun x s = 0) : x ∉ s := by
  intro hmem
  obtain ⟨a, b, rfl⟩ := List.append_of_mem hmem
  have hrun := run_le_longestRun (x := x) (List.suffix_append a (x :: b))
  simp [h] at hrun

namespace StringKind

theorem takeWhile_quotes (n : Nat) (h : rest.head? ≠ some q) :
    (List.replicate n q ++ rest).takeWhile (· = q) = List.replicate n q := by
  have hrest : rest.takeWhile (· = q) = [] := by
    cases rest with
    | nil => rfl
    | cons c rest =>
      have hc : c ≠ q := fun heq => h (by rw [heq]; rfl)
      simp [hc]
  rw [List.takeWhile_append_of_pos (by simp +contextual), hrest, List.append_nil]

/-- Up to two quotes before the closing ones belong to the text. -/
theorem close?_long {n : Nat} (hn : n < 3) (hrest : rest.head? ≠ some q) :
    (⟨q, true⟩ : StringKind).close? (List.replicate n q ++ (List.replicate 3 q ++ rest)) =
      some (List.replicate n q, rest) := by
  have hrun := takeWhile_quotes (n + 3) hrest
  rw [← List.append_assoc, List.replicate_append_replicate]
  unfold close?
  simp only [if_true, hrun, List.length_replicate]
  have hmin : min (n + 3) 5 = n + 3 := by omega
  have hback : min (n + 3 - 3) 2 = n := by omega
  rw [if_neg (by omega), hmin, hback, List.drop_left' (List.length_replicate)]

/-- Between quotes in threes a text without such a run is as it is. -/
theorem body_long (hrun : ∀ t, t <:+ s → (t.takeWhile (· = q)).length < 3) (hslash : q = '"' → '\\' ∉ s)
    (hshown : ∀ c ∈ s, isShown c = true) (hrest : rest.head? ≠ some q) :
    (⟨q, true⟩ : StringKind).body (s ++ (List.replicate 3 q ++ rest)) = some (s, rest) := by
  induction s with
  | nil => exact body_close (close?_long (n := 0) (by omega) hrest)
  | cons c s ih =>
    have hself := hrun _ (List.suffix_refl _)
    by_cases hall : ((c :: s).takeWhile (· = q)).length = (c :: s).length
    · -- only quotes are left of the text, and they run into the closing ones
      have heq := (List.takeWhile_prefix (l := c :: s) (· = q)).eq_of_length hall
      have hquotes : c :: s = List.replicate (c :: s).length q :=
        List.eq_replicate_of_mem fun d hd => by
          rw [← heq] at hd
          simpa using List.mem_takeWhile_imp hd
      rw [hall] at hself
      rw [hquotes]
      exact body_close (close?_long hself hrest)
    · have hopen : (⟨q, true⟩ : StringKind).close? (c :: (s ++ (List.replicate 3 q ++ rest))) =
          none := by
        rw [← List.cons_append]
        unfold close?
        simp only [if_true]
        rw [List.takeWhile_append, if_neg hall, if_pos hself]
      obtain ⟨hc, hs⟩ := List.forall_mem_cons.1 hshown
      have hnoescape : c = '\\' → (⟨q, true⟩ : StringKind).hasEscapes = false := by
        rintro rfl
        exact Bool.eq_false_iff.2 fun hk => hslash (by simpa [hasEscapes] using hk)
          List.mem_cons_self
      rw [List.cons_append, body_plain hopen hnoescape (by simp [accepts, hc]),
        ih (fun t ht => hrun t (ht.trans (List.suffix_cons c s)))
          (fun hq hmem => hslash hq (List.mem_cons_of_mem _ hmem)) hs]
      rfl

end StringKind

/-! ### Strings -/

theorem openString_short (hq : q = '"' ∨ q = '\'') (hs : s.head? ≠ some q)
    (hrest : rest.head? ≠ some q) :
    openString (q :: (s ++ q :: rest)) = some (⟨q, false⟩, s ++ q :: rest) := by
  have hfollow {b c : Char} {t : List Char} (h : s ++ q :: rest = b :: c :: t) :
      (b = q && c = q) = false := by
    by_contra htrue
    simp only [Bool.and_eq_true, decide_eq_true_eq, Bool.not_eq_false] at htrue
    obtain ⟨rfl, rfl⟩ := htrue
    cases s with
    | nil =>
      rw [List.nil_append, List.cons.injEq] at h
      exact hrest (by rw [h.2]; rfl)
    | cons a s => exact hs (by rw [(List.cons.inj h).1]; rfl)
  unfold openString
  simp only
  rw [if_pos (by simpa using hq)]
  split
  · rename_i heq
    rw [hfollow heq]
    simp
  · rfl

theorem openString_long (hq : q = '"' ∨ q = '\'') (h : s.head? ≠ some '\n') :
    openString (List.replicate 3 q ++ s) = some (⟨q, true⟩, s) := by
  show openString (q :: q :: q :: s) = _
  unfold openString
  simp only
  rw [if_pos (by simpa using hq), if_pos (by simp)]
  cases s with
  | nil => rfl
  | cons c s =>
    have hc : c ≠ '\n' := fun heq => h (by rw [heq]; rfl)
    split
    · rename_i heq
      exact absurd (List.cons.inj heq).1 hc
    · rfl

/-- What writing a text takes, according to its characters. -/
theorem writtenKind_cases (hbreak : '\n' ∉ s) :
    (∃ q, (q = '"' ∨ q = '\'') ∧ writtenKind s = (⟨q, false⟩, true) ∧
      q ∉ s ∧ (q = '"' → '\\' ∉ s) ∧ ∀ c ∈ s, isShown c = true) ∨
    (∃ q, (q = '"' ∨ q = '\'') ∧ writtenKind s = (⟨q, true⟩, true) ∧
      longestRun q s < 3 ∧ (q = '"' → '\\' ∉ s) ∧ ∀ c ∈ s, isShown c = true) ∨
    writtenKind s = (⟨'"', false⟩, false) := by
  have hnone : s.contains '\n' = false := by simpa using hbreak
  have hshown (h : s.any needsEscape = false) : ∀ c ∈ s, isShown c = true := by
    intro c hc
    have hplain := List.any_eq_false.1 h c hc
    have hne : c ≠ '\n' := fun heq => hbreak (heq ▸ hc)
    simpa [needsEscape, hne] using hplain
  unfold writtenKind
  simp only [hnone]
  split
  · rename_i h
    simp only [Bool.not_false, Bool.and_true, Bool.and_eq_true, Bool.not_eq_true',
      decide_eq_true_eq] at h
    obtain ⟨⟨hhard, hslash⟩, hrun⟩ := h
    exact .inl ⟨'"', .inl rfl, rfl, not_mem_of_longestRun hrun, fun _ => by simpa using hslash,
      hshown hhard⟩
  split
  · rename_i h
    simp only [Bool.not_false, Bool.and_true, Bool.and_eq_true, Bool.not_eq_true',
      decide_eq_true_eq] at h
    exact .inl ⟨'\'', .inr rfl, rfl, not_mem_of_longestRun h.2, nofun, hshown h.1⟩
  split
  · rename_i h
    simp only [Bool.and_eq_true, Bool.not_eq_true', decide_eq_true_eq] at h
    obtain ⟨⟨hhard, hslash⟩, hrun⟩ := h
    exact .inr (.inl ⟨'"', .inl rfl, rfl, hrun, fun _ => by simpa using hslash, hshown hhard⟩)
  split
  · rename_i h
    simp only [Bool.and_eq_true, Bool.not_eq_true', decide_eq_true_eq] at h
    exact .inr (.inl ⟨'\'', .inr rfl, rfl, h.2, nofun, hshown h.1⟩)
  · exact .inr (.inr rfl)

theorem exists_quote (text : String) :
    ∃ q t, (q = '"' ∨ q = '\'') ∧ (writeString text).toList = q :: t := by
  have hquote : (writtenKind text.toList).1.quote = '"' ∨
      (writtenKind text.toList).1.quote = '\'' := by
    unfold writtenKind
    simp only
    split
    · exact .inl rfl
    split
    · exact .inr rfl
    split
    · exact .inl rfl
    split
    · exact .inr rfl
    · exact .inl rfl
  have hdelimiter (k : StringKind) : ∃ qs, k.delimiter = k.quote :: qs := by
    unfold StringKind.delimiter
    split
    · exact ⟨_, rfl⟩
    · exact ⟨_, rfl⟩
  obtain ⟨qs, hqs⟩ := hdelimiter (writtenKind text.toList).1
  unfold writeString
  simp only [String.toList_ofList, hqs]
  exact ⟨_, _, hquote, rfl⟩

theorem head?_escaped_ne_quote (cs : List Char) : (cs.flatMap escapeOf).head? ≠ some '"' := by
  cases cs with
  | nil => simp
  | cons c cs =>
    rw [List.flatMap_cons]
    rcases escapeOf_cases c with ⟨hplain, hquote, _⟩ | ⟨t, hescape, _⟩
    · rw [hplain]
      simpa using hquote
    · rw [hescape]
      simp

-- a line break after the opening quotes would not be part of the text
theorem head?_quoted_ne_newline {q : Char} (hq : q = '"' ∨ q = '\'') {cs : List Char}
    (hbreak : '\n' ∉ cs) (rest : List Char) :
    (cs ++ (List.replicate 3 q ++ rest)).head? ≠ some '\n' := by
  cases cs with
  | nil => rcases hq with rfl | rfl <;> simp
  | cons c cs =>
    rintro ⟨⟩
    exact hbreak List.mem_cons_self

/-- A text without line breaks is read back from what it is written as. -/
theorem readString_writeString {text : String} (hbreak : '\n' ∉ text.toList)
    (rest : List Char) :
    readString ((writeString text).toList ++ '\n' :: rest) = some (text, '\n' :: rest) := by
  have hnone : text.toList.contains '\n' = false := by simpa using hbreak
  have hend {q : Char} (hq : q = '"' ∨ q = '\'') : ('\n' :: rest).head? ≠ some q := by
    rcases hq with rfl | rfl
    · simp
    · simp
  have hshort {q : Char} (hq : q = '"' ∨ q = '\'') (inner : List Char)
      (hinner : inner.head? ≠ some q)
      (h : (⟨q, false⟩ : StringKind).body (inner ++ q :: '\n' :: rest) =
        some (text.toList, '\n' :: rest)) :
      readString ([q] ++ inner ++ [q] ++ '\n' :: rest) = some (text, '\n' :: rest) := by
    have hopen := openString_short hq hinner (hend hq)
    unfold readString
    simp [hopen, h]
  unfold writeString
  rcases writtenKind_cases hbreak with ⟨q, hq, hkind, hquote, hslash, hshown⟩ |
    ⟨q, hq, hkind, hrun, hslash, hshown⟩ | hkind
  · have hread := hshort hq text.toList (fun h => hquote (List.mem_of_head? h))
      (StringKind.body_short hquote hslash hshown)
    simpa [hkind, StringKind.delimiter] using hread
  · have hbody := StringKind.body_long
      (fun t ht => Nat.lt_of_le_of_lt (run_le_longestRun ht) hrun) hslash hshown (hend hq)
    have hopen := openString_long (s := text.toList ++ (List.replicate 3 q ++ '\n' :: rest)) hq ?_
    · unfold readString
      simp only [hkind, StringKind.delimiter, if_true, hnone]
      simp only [String.toList_ofList, Bool.and_false, Bool.false_eq_true, if_false,
        List.append_nil, List.append_assoc]
      simp only [Option.bind_eq_bind, hopen, Option.bind_some, hbody]
      simp
    · exact head?_quoted_ne_newline hq hbreak _
  · have hread := hshort (.inl rfl) (text.toList.flatMap escapeOf) (head?_escaped_ne_quote _)
      (StringKind.body_escaped text.toList ('\n' :: rest))
    simpa [hkind, StringKind.delimiter] using hread

/-! ### Statements -/

/-- Whether a text may stand as a key without quotes. -/
def IsBare (key : String) : Prop := key.toList ≠ [] ∧ ∀ c ∈ key.toList, isBareKeyChar c = true

instance (key : String) : Decidable (IsBare key) :=
  decidable_of_iff (key.toList ≠ [] ∧ key.toList.all isBareKeyChar = true)
    (and_congr_right' List.all_eq_true)

theorem not_special_of_bare (h : isBareKeyChar c = true) :
    c ≠ '"' ∧ c ≠ '\'' ∧ c ≠ '[' ∧ c ≠ '#' ∧ c ≠ '\n' ∧ isBlankChar c = false := by
  refine ⟨?_, ?_, ?_, ?_, ?_, ?_⟩
  case refine_6 =>
    rw [Bool.eq_false_iff]
    intro hblank
    simp only [isBlankChar, Bool.or_eq_true, decide_eq_true_eq] at hblank
    rcases hblank with rfl | rfl <;> revert h <;> decide
  all_goals
    rintro rfl
    revert h
    decide

theorem readKey_bare {key : String} (hkey : IsBare key)
    (hstop : ∀ c, rest.head? = some c → isBareKeyChar c = false) :
    readKey (key.toList ++ rest) = some (key, rest) := by
  obtain ⟨hne, hall⟩ := hkey
  have hshort : readShortString (key.toList ++ rest) = none := by
    obtain ⟨c, cs, hcs⟩ := List.exists_cons_of_ne_nil hne
    obtain ⟨hdouble, hsingle, _⟩ := not_special_of_bare (hall c (hcs ▸ List.mem_cons_self))
    rw [hcs]
    simp [readShortString, hdouble, hsingle]
  have hend : rest.takeWhile isBareKeyChar = [] ∧ rest.dropWhile isBareKeyChar = rest := by
    cases rest with
    | nil => exact ⟨rfl, rfl⟩
    | cons c rest => simp [hstop c rfl]
  unfold readKey
  rw [hshort, List.takeWhile_append_of_pos hall, hend.1, List.append_nil,
    List.dropWhile_append_of_pos hall, hend.2]
  simp only
  rw [String.ofList_toList]

theorem skipBlanks_of_bare {key : String} (hkey : IsBare key) (rest : List Char) :
    skipBlanks (key.toList ++ rest) = key.toList ++ rest := by
  obtain ⟨c, cs, hcs⟩ := List.exists_cons_of_ne_nil hkey.1
  have hc := (not_special_of_bare (hkey.2 c (hcs ▸ List.mem_cons_self))).2.2.2.2.2
  rw [hcs]
  simp [skipBlanks, hc]

theorem readPath_bare {key : String} (hkey : IsBare key) (rest : List Char)
    (hstop : ∀ c, rest.head? = some c → isBareKeyChar c = false)
    (hdot : (skipBlanks rest).head? ≠ some '.') :
    readPath (key.toList ++ rest) = some (([], key), skipBlanks rest) := by
  have hkeys : readKeys (key.toList ++ rest) = some ([key], skipBlanks rest) := by
    rw [readKeys.eq_def]
    split
    · rename_i hnone
      rw [skipBlanks_of_bare hkey, readKey_bare hkey hstop] at hnone
      cases hnone
    · rename_i name after hsome
      rw [skipBlanks_of_bare hkey, readKey_bare hkey hstop] at hsome
      cases hsome
      split
      · rename_i after hafter
        rw [hafter] at hdot
        exact absurd rfl hdot
      · rfl
  unfold readPath
  rw [hkeys]
  rfl

theorem readValue_writeString {text : String} (hbreak : '\n' ∉ text.toList) (rest : List Char) :
    readValue ((writeString text).toList ++ '\n' :: rest) = some (.string text, '\n' :: rest) := by
  have hread := readString_writeString hbreak rest
  obtain ⟨q, t, hq, hs⟩ := exists_quote text
  rw [hs] at hread ⊢
  have hstring : readValue (q :: t ++ '\n' :: rest) =
      (readString (q :: t ++ '\n' :: rest)).map fun r => (.string r.1, r.2) := by
    rcases hq with rfl | rfl
    · rfl
    · rfl
  rw [hstring, hread]
  rfl

theorem readStatements_step {start after : List Char} {x : Statement}
    (hgap : skipGap false s = start) (hread : readStatement start = some (x, after))
    (hend : lineEnd after = some rest) :
    readStatements s = (readStatements rest).map (x :: ·) := by
  rw [readStatements.eq_def]
  split
  · rename_i hnil
    rw [← hgap, hnil] at hread
    exact absurd (advances_readStatement _ _ hread) (Nat.not_lt_zero _)
  · split
    · rename_i hnone
      rw [hgap, hread] at hnone
      cases hnone
    · rename_i hsome
      rw [hgap, hread] at hsome
      cases hsome
      split
      · rename_i hnone
        rw [hend] at hnone
        cases hnone
      · rename_i hline
        rw [hend] at hline
        cases hline
        rfl

theorem readStatements_nil : readStatements [] = some [] := by
  rw [readStatements.eq_def]
  rfl

/-- An assignment of a value, on a line of its own. -/
theorem readStatements_value {key : String} (hkey : IsBare key) (text : List Char) {v : Value}
    (hblank : skipBlanks (text ++ '\n' :: rest) = text ++ '\n' :: rest)
    (hvalue : readValue (text ++ '\n' :: rest) = some (v, '\n' :: rest)) :
    readStatements (key.toList ++ ' ' :: '=' :: ' ' :: (text ++ '\n' :: rest)) =
      (readStatements rest).map (.assign ⟨[], key, v⟩ :: ·) := by
  obtain ⟨c, cs, hcs⟩ := List.exists_cons_of_ne_nil hkey.1
  obtain ⟨_, _, hbracket, hhash, hline, hspace⟩ :=
    not_special_of_bare (hkey.2 c (hcs ▸ List.mem_cons_self))
  have hgap (tail : List Char) : skipGap false (key.toList ++ tail) = key.toList ++ tail := by
    rw [hcs, List.cons_append, skipGap]
    · simp [hspace, hline]
    · exact fun h => absurd h hhash
  have hassign : readAssignment readValue
      (key.toList ++ ' ' :: '=' :: ' ' :: (text ++ '\n' :: rest)) =
        some (⟨[], key, v⟩, '\n' :: rest) := by
    have hpath := readPath_bare hkey (' ' :: '=' :: ' ' :: (text ++ '\n' :: rest))
      (fun c hc => by
        cases hc
        decide)
      (by simp [skipBlanks, isBlankChar])
    have hequals : skipBlanks (' ' :: '=' :: ' ' :: (text ++ '\n' :: rest)) =
        '=' :: ' ' :: (text ++ '\n' :: rest) := rfl
    have hmark (tail : List Char) : mark '=' ('=' :: tail) = some tail := by simp [mark]
    have hspaces : skipBlanks (' ' :: (text ++ '\n' :: rest)) = text ++ '\n' :: rest := hblank
    unfold readAssignment
    simp only [Option.bind_eq_bind, hpath, hequals, Option.bind_some, hmark, hspaces, hvalue]
    rfl
  have hstatement : readStatement (key.toList ++ ' ' :: '=' :: ' ' :: (text ++ '\n' :: rest)) =
      some (.assign ⟨[], key, v⟩, '\n' :: rest) := by
    have hhead : ∀ tail, key.toList ++ ' ' :: '=' :: ' ' :: (text ++ '\n' :: rest) ≠
        '[' :: tail := by
      intro tail heq
      rw [hcs] at heq
      exact hbracket (List.cons.inj heq).1
    rw [readStatement]
    · rw [hassign]
      rfl
    · exact fun tail => hhead _
    · exact hhead
  exact readStatements_step (hgap _) hstatement rfl

theorem readStatements_assignment {key text : String} (hkey : IsBare key)
    (hbreak : '\n' ∉ text.toList) (rest : List Char) :
    readStatements ((assignment key text).toList ++ rest) =
      (readStatements rest).map (.assign ⟨[], key, .string text⟩ :: ·) := by
  have hsplit : (assignment key text).toList ++ rest =
      key.toList ++ ' ' :: '=' :: ' ' :: ((writeString text).toList ++ '\n' :: rest) := by
    simp [assignment]
  have hblank : skipBlanks ((writeString text).toList ++ '\n' :: rest) =
      (writeString text).toList ++ '\n' :: rest := by
    obtain ⟨q, t, hq, hs⟩ := exists_quote text
    rw [hs]
    rcases hq with rfl | rfl
    · rfl
    · rfl
  rw [hsplit]
  exact readStatements_value hkey _ hblank (readValue_writeString hbreak rest)

theorem readStatements_emptyArray (key : String) (hkey : IsBare key) (rest : List Char) :
    readStatements (key.toList ++ ' ' :: '=' :: ' ' :: ('[' :: ']' :: '\n' :: rest)) =
      (readStatements rest).map (.assign ⟨[], key, .array []⟩ :: ·) := by
  have hitems (advances : Advances (valueReader 78).1) :
      readItems (valueReader 78).1 advances (']' :: '\n' :: rest) = some ([], '\n' :: rest) := by
    rw [readItems.eq_def]
    rfl
  have hvalue : readValue ('[' :: ']' :: '\n' :: rest) = some (.array [], '\n' :: rest) := by
    show (readItems (valueReader 78).1 (valueReader 78).2 (']' :: '\n' :: rest)).map _ = _
    rw [hitems]
    rfl
  exact readStatements_value hkey ['[', ']'] rfl hvalue

/-- A header of an array of tables. -/
theorem readStatements_openItem {key : String} (hkey : IsBare key) (rest : List Char) :
    readStatements ('\n' :: '[' :: '[' :: (key.toList ++ ']' :: ']' :: '\n' :: rest)) =
      (readStatements rest).map (.openItem [key] :: ·) := by
  have hmark (tail : List Char) : mark ']' (']' :: tail) = some tail := by simp [mark]
  have hpath := readPath_bare hkey (']' :: ']' :: '\n' :: rest)
    (fun c hc => by
      cases hc
      decide)
    (by simp [skipBlanks, isBlankChar])
  have hblanks : skipBlanks (']' :: ']' :: '\n' :: rest) = ']' :: ']' :: '\n' :: rest := rfl
  have hstatement : readStatement ('[' :: '[' :: (key.toList ++ ']' :: ']' :: '\n' :: rest)) =
      some (.openItem [key], '\n' :: rest) := by
    unfold readStatement readHeader
    simp only [Option.bind_eq_bind, hpath, hblanks, Option.map_some, Option.bind_some, hmark]
    rfl
  exact readStatements_step rfl hstatement rfl

/-! ### Line ends -/

/-- Nothing that is written holds a return. -/
theorem return_not_mem_writeString {text : String} (hbreak : '\n' ∉ text.toList) :
    '\r' ∉ (writeString text).toList := by
  have hnone : text.toList.contains '\n' = false := by simpa using hbreak
  have hshown {s : List Char} (h : ∀ c ∈ s, isShown c = true) : '\r' ∉ s := fun hmem =>
    absurd (h _ hmem) (by decide)
  have hquote {q : Char} (hq : q = '"' ∨ q = '\'') (n : Nat) : '\r' ∉ List.replicate n q := by
    intro hmem
    have heq := List.eq_of_mem_replicate hmem
    rw [← heq] at hq
    revert hq
    decide
  have hescape (c : Char) : '\r' ∉ escapeOf c := by
    rcases escapeOf_cases c with ⟨hplain, _, _, hc⟩ | ⟨t, ht, hnone, _⟩
    · rw [hplain]
      exact hshown (by simpa using hc)
    · rw [ht]
      simpa using hnone
  unfold writeString
  simp only [String.toList_ofList, List.mem_append, not_or, hnone, Bool.and_false,
    Bool.false_eq_true, if_false, List.not_mem_nil, not_false_eq_true, and_true]
  rcases writtenKind_cases hbreak with ⟨q, hq, hkind, _, _, hall⟩ | ⟨q, hq, hkind, _, _, hall⟩ |
    hkind
  · rw [hkind]
    exact ⟨⟨hquote hq _, hshown hall⟩, hquote hq _⟩
  · rw [hkind]
    exact ⟨⟨hquote hq _, hshown hall⟩, hquote hq _⟩
  · rw [hkind]
    refine ⟨⟨hquote (.inl rfl) _, fun hmem => ?_⟩, hquote (.inl rfl) _⟩
    obtain ⟨c, _, hc⟩ := List.mem_flatMap.1 hmem
    exact hescape c hc

theorem unifyLineEnds_eq (h : '\r' ∉ s) : unifyLineEnds s = s := by
  fun_induction unifyLineEnds s with
  | case1 cs ih => exact absurd List.mem_cons_self h
  | case2 c cs _ ih => rw [ih fun hmem => h (List.mem_cons_of_mem _ hmem)]
  | case3 => rfl

end Schemata.Toml

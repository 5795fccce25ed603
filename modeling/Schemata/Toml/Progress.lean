import Schemata.Toml.Numbers

/-!
# Readers take something

What a reader leaves is shorter than what it was given (`Advances`). The loops of a document end
for this reason. Parts that may be empty leave at most what they were given.
-/

namespace Schemata.Toml

/-- Whether what a reader leaves is always shorter than what it was given. -/
def Advances {α : Type} (read : Reader α) : Prop :=
  ∀ s r, read s = some r → r.2.length < s.length

theorem Advances.map {α β : Type} {read : Reader α} (h : Advances read) (f : α → β) :
    Advances fun s => (read s).map fun r => (f r.1, r.2) := by
  intro s r hr
  obtain ⟨r', hr', rfl⟩ := Option.map_eq_some_iff.1 hr
  exact h s r' hr'

theorem Advances.or {α : Type} {read other : Reader α} (h : Advances read) (h' : Advances other) :
    Advances fun s => (read s).or (other s) := by
  intro s r hr
  rcases Option.or_eq_some_iff.1 hr with hr | ⟨_, hr⟩
  · exact h s r hr
  · exact h' s r hr

theorem length_mark {c : Char} {s rest : List Char} (h : mark c s = some rest) :
    rest.length < s.length := by
  cases s with
  | nil => simp [mark] at h
  | cons d s =>
    simp only [mark, Option.ite_none_right_eq_some, Option.some.injEq] at h
    simp [h.2]

/-! ### Strings -/

theorem StringKind.length_close? {k : StringKind} {s : List Char} {r : List Char × List Char}
    (h : k.close? s = some r) : r.2.length < s.length := by
  unfold close? at h
  split at h
  · have hrun := (List.takeWhile_prefix (l := s) (· = k.quote)).length_le
    simp only [Option.ite_none_left_eq_some, Option.some.injEq] at h
    rw [← h.2]
    simp only [List.length_drop]
    omega
  · split at h
    · simp only [Option.ite_none_right_eq_some, Option.some.injEq] at h
      simp [← h.2]
    · simp at h

theorem StringKind.length_body {k : StringKind} {s : List Char} {r : List Char × List Char}
    (h : k.body s = some r) : r.2.length < s.length := by
  fun_induction k.body s generalizing r with
  | case1 s r' hc =>
    cases h
    exact length_close? hc
  | case2 => simp at h
  | case3 c cs _ rest hb _ ih =>
    have := ih h
    have := length_lineBreak? (Option.ite_none_right_eq_some.1 hb).2
    simp only [List.length_cons]
    omega
  | case4 _ c cs _ _ x n _ ih =>
    obtain ⟨r', hr, rfl⟩ := Option.map_eq_some_iff.1 h
    have := ih hr
    simp only [List.length_drop, List.length_cons] at *
    omega
  | case5 => simp at h
  | case6 _ c cs _ _ ih =>
    obtain ⟨r', hr, rfl⟩ := Option.map_eq_some_iff.1 h
    have := ih hr
    simp only [List.length_cons]
    omega
  | case7 => simp at h

theorem length_openString {s : List Char} {r : StringKind × List Char}
    (h : openString s = some r) : r.2.length < s.length := by
  unfold openString at h
  split at h
  · split at h
    · split at h
      · split at h
        · split at h <;> cases h <;> simp <;> omega
        · cases h
          simp
      · cases h
        simp
    · simp at h
  · simp at h

theorem advances_readString : Advances readString := by
  intro s r h
  simp only [readString, Option.bind_eq_bind, Option.bind_eq_some_iff, Option.pure_def,
    Option.some.injEq] at h
  obtain ⟨o, ho, b, hb, rfl⟩ := h
  exact Nat.lt_trans (StringKind.length_body hb) (length_openString ho)

theorem advances_readShortString : Advances readShortString := by
  intro s r h
  unfold readShortString at h
  split at h
  · split at h
    · obtain ⟨b, hb, rfl⟩ := Option.map_eq_some_iff.1 h
      have := StringKind.length_body hb
      simp only [List.length_cons]
      omega
    · simp at h
  · simp at h

/-! ### Numbers -/

theorem length_moreDigits (isDigit : Char → Bool) (s : List Char) :
    (moreDigits isDigit s).2.length ≤ s.length := by
  fun_induction moreDigits isDigit s with
  | case1 c cs _ r ih =>
    have : r.2.length ≤ cs.length := ih
    simp only [List.length_cons]
    omega
  | case2 => simp
  | case3 c cs _ _ r ih =>
    have : r.2.length ≤ cs.length := ih
    simp only [List.length_cons]
    omega
  | case4 => simp
  | case5 => simp

theorem advances_someDigits (isDigit : Char → Bool) : Advances (someDigits isDigit) := by
  intro s r h
  unfold someDigits at h
  split at h
  · rename_i c cs
    have := length_moreDigits isDigit cs
    split at h
    · simp only [Option.some.injEq] at h
      subst h
      simp only [List.length_cons]
      omega
    · simp at h
  · simp at h

theorem length_signed (s : List Char) : (signed s).2.length ≤ s.length := by
  unfold signed
  split <;> simp

theorem advances_decimalDigits : Advances decimalDigits := by
  intro s r h
  unfold decimalDigits at h
  split at h
  · cases h
    simp
  · exact advances_someDigits _ _ _ h

theorem advances_readBased (base : Nat) (isDigit : Char → Bool) :
    Advances (readBased base isDigit) := by
  intro s r h
  simp only [readBased, integerOf, Option.bind_eq_bind, Option.bind_eq_some_iff,
    Option.ite_none_right_eq_some, Option.some.injEq] at h
  obtain ⟨d, hd, _, rfl⟩ := h
  exact advances_someDigits _ _ _ hd

theorem advances_readInteger : Advances readInteger := by
  intro s r h
  unfold readInteger at h
  split at h
  iterate 3
    · have := advances_readBased _ _ _ _ h
      simp only [List.length_cons]
      omega
  · simp only [integerOf, Option.bind_eq_bind, Option.bind_eq_some_iff,
      Option.ite_none_right_eq_some, Option.some.injEq] at h
    obtain ⟨d, hd, _, rfl⟩ := h
    exact Nat.lt_of_lt_of_le (advances_decimalDigits _ _ hd) (length_signed _)

theorem advances_readExponent : Advances readExponent := by
  intro s r h
  unfold readExponent at h
  split at h
  · rename_i c s
    split at h
    · simp only [Option.bind_eq_bind, Option.bind_eq_some_iff, Option.pure_def,
        Option.some.injEq] at h
      obtain ⟨d, hd, rfl⟩ := h
      have := advances_someDigits _ _ _ hd
      have := length_signed s
      simp only [List.length_cons]
      omega
    · simp at h
  · simp at h

theorem advances_readScale : Advances readScale := by
  intro s r h
  unfold readScale at h
  split at h
  · simp only [Option.bind_eq_bind, Option.bind_eq_some_iff] at h
    obtain ⟨d, hd, h⟩ := h
    have := advances_someDigits _ _ _ hd
    split at h
    · rename_i e
      have := advances_readExponent _ _ e
      cases h
      simp only [List.length_cons] at *
      omega
    · cases h
      simp only [List.length_cons]
      omega
  · obtain ⟨d, hd, rfl⟩ := Option.map_eq_some_iff.1 h
    exact advances_readExponent _ _ hd

theorem advances_readFloat : Advances readFloat := by
  intro s r h
  have hs := length_signed s
  unfold readFloat at h
  simp only at h
  split at h
  iterate 2
    · rename_i e
      cases h
      simp only [e, List.length_cons] at hs
      simp only
      omega
  · simp only [Option.bind_eq_bind, Option.bind_eq_some_iff] at h
    obtain ⟨w, hw, f, hf, h⟩ := h
    have := advances_decimalDigits _ _ hw
    have := advances_readScale _ _ hf
    simp only [Option.ite_none_left_eq_some, Option.some.injEq] at h
    rw [← h.2]
    simp only
    omega

/-! ### Dates and times -/

theorem length_fixedDigits {count : Nat} {s : List Char} {r : Nat × List Char}
    (h : fixedDigits count s = some r) : r.2.length + count = s.length := by
  simp only [fixedDigits, Bool.and_eq_true, decide_eq_true_eq, Option.ite_none_right_eq_some,
    Option.some.injEq] at h
  have := h.1.1
  rw [← h.2]
  simp only [List.length_take, List.length_drop] at *
  omega

theorem length_twoDigits {least greatest : Nat} {s : List Char} {r : Nat × List Char}
    (h : twoDigits least greatest s = some r) : r.2.length + 2 = s.length := by
  simp only [twoDigits, Option.bind_eq_bind, Option.bind_eq_some_iff,
    Option.ite_none_right_eq_some, Option.some.injEq] at h
  obtain ⟨d, hd, _, rfl⟩ := h
  exact length_fixedDigits hd

theorem advances_readDate : Advances readDate := by
  intro s r h
  simp only [readDate, Option.bind_eq_bind, Option.bind_eq_some_iff, Option.pure_def,
    Option.some.injEq] at h
  obtain ⟨y, hy, s₁, h₁, m, hm, s₂, h₂, d, hd, rfl⟩ := h
  have := length_fixedDigits hy
  have := length_mark h₁
  have := length_twoDigits hm
  have := length_mark h₂
  have := length_twoDigits hd
  simp only
  omega

theorem length_readFraction {s : List Char} {r : Nat × List Char}
    (h : readFraction s = some r) : r.2.length ≤ s.length := by
  unfold readFraction at h
  split at h
  · rename_i s
    have := (List.dropWhile_suffix (l := s) Char.isDigit).length_le
    simp only [Option.ite_none_left_eq_some, Option.some.injEq] at h
    rw [← h.2]
    simp only [List.length_cons]
    omega
  · cases h
    simp

theorem advances_readTime : Advances readTime := by
  intro s r h
  simp only [readTime, Option.bind_eq_bind, Option.bind_eq_some_iff, Option.pure_def,
    Option.some.injEq] at h
  obtain ⟨hour, hh, s₁, h₁, minute, hm, s₂, h₂, second, hs, n, hn, rfl⟩ := h
  have := length_twoDigits hh
  have := length_mark h₁
  have := length_twoDigits hm
  have := length_mark h₂
  have := length_twoDigits hs
  have := length_readFraction hn
  simp only
  omega

theorem advances_readOffset : Advances readOffset := by
  intro s r h
  unfold readOffset at h
  split at h
  · split at h
    · cases h
      simp
    · split at h
      · simp only [Option.bind_eq_bind, Option.bind_eq_some_iff, Option.pure_def,
          Option.some.injEq] at h
        obtain ⟨hours, hh, s₁, h₁, minutes, hm, rfl⟩ := h
        have := length_twoDigits hh
        have := length_mark h₁
        have := length_twoDigits hm
        simp only [List.length_cons]
        omega
      · simp at h
  · simp at h

theorem length_readMoment (d : Date) (s : List Char) :
    (readMoment d s).2.length ≤ s.length := by
  unfold readMoment
  split
  · split
    · split
      · rename_i e
        have := advances_readTime _ _ e
        split
        · rename_i e
          have := advances_readOffset _ _ e
          simp only [List.length_cons] at *
          omega
        · simp only [List.length_cons] at *
          omega
      · simp
    · simp
  · simp

theorem advances_readDatetime : Advances readDatetime := by
  intro s r h
  unfold readDatetime at h
  split at h
  · rename_i d rest e
    cases h
    exact Nat.lt_of_le_of_lt (length_readMoment d rest) (advances_readDate _ _ e)
  · exact advances_readTime.map _ _ _ h

theorem advances_readNumber : Advances readNumber :=
  (advances_readDatetime.map _).or (advances_readFloat.or advances_readInteger)

end Schemata.Toml

/-!
# Cutting text at a separator

Text is cut at every separator (`pieces`), at the first one (`cutFirst`) or at the last one
(`cutLast`). The lemmas say what the parts are: put together with the separator they give the text
back, and the separator is absent from the part that was searched.
-/

namespace Schemata.Text

/-! ### Character lists -/

/-- The parts before and after the first `sep`. -/
def cutFirst (sep : Char) : List Char → Option (List Char × List Char)
  | [] => none
  | c :: cs =>
    if c = sep then some ([], cs)
    else (cutFirst sep cs).map fun p => (c :: p.1, p.2)

/-- The parts before and after the last `sep`. -/
def cutLast (sep : Char) : List Char → Option (List Char × List Char)
  | [] => none
  | c :: cs =>
    match cutLast sep cs with
    | some p => some (c :: p.1, p.2)
    | none => if c = sep then some ([], cs) else none

theorem cutFirst_eq_none {sep : Char} {s : List Char} : cutFirst sep s = none ↔ sep ∉ s := by
  induction s with
  | nil => simp [cutFirst]
  | cons c cs ih =>
    by_cases h : c = sep
    · simp [cutFirst, h]
    · have : ¬ sep = c := fun e => h e.symm
      simp [cutFirst, h, ih, this]

theorem cutFirst_eq_some {sep : Char} {s a b : List Char} :
    cutFirst sep s = some (a, b) ↔ s = a ++ sep :: b ∧ sep ∉ a := by
  induction s generalizing a with
  | nil => simp [cutFirst]
  | cons c cs ih =>
    by_cases h : c = sep
    · subst h
      cases a with
      | nil => simp [cutFirst, eq_comm]
      | cons x xs =>
        simp only [cutFirst, if_pos, Option.some.injEq, Prod.mk.injEq, List.nil_eq, reduceCtorEq,
          false_and, List.cons_append, List.cons.injEq, List.mem_cons, not_or, false_iff]
        rintro ⟨⟨rfl, _⟩, h', _⟩
        exact h' rfl
    · simp only [cutFirst, h, if_false, Option.map_eq_some_iff, Prod.mk.injEq, Prod.exists]
      constructor
      · rintro ⟨a', b', hab, rfl, rfl⟩
        obtain ⟨rfl, hn⟩ := ih.1 hab
        exact ⟨rfl, by simp [hn, Ne.symm h]⟩
      · rintro ⟨he, hn⟩
        cases a with
        | nil => simp [h] at he
        | cons x xs =>
          simp only [List.cons_append, List.cons.injEq] at he
          simp only [List.mem_cons, not_or] at hn
          exact ⟨xs, b, ih.2 ⟨he.2, hn.2⟩, by rw [he.1], rfl⟩

theorem cutLast_eq_none {sep : Char} {s : List Char} : cutLast sep s = none ↔ sep ∉ s := by
  induction s with
  | nil => simp [cutLast]
  | cons c cs ih =>
    simp only [cutLast]
    split
    · rename_i p hp
      have : sep ∈ cs := Decidable.byContradiction fun hn => by simp [ih.2 hn] at hp
      simp [this]
    · rename_i hp
      have hn := ih.1 hp
      by_cases h : c = sep
      · simp [h]
      · simp [h, hn, Ne.symm h]

theorem cutLast_eq_some {sep : Char} {s a b : List Char} :
    cutLast sep s = some (a, b) ↔ s = a ++ sep :: b ∧ sep ∉ b := by
  induction s generalizing a b with
  | nil => simp [cutLast]
  | cons c cs ih =>
    simp only [cutLast]
    split
    · rename_i p hp
      obtain ⟨p₁, p₂⟩ := p
      obtain ⟨he, hn⟩ := ih.1 hp
      constructor
      · rintro h
        simp only [Option.some.injEq, Prod.mk.injEq] at h
        obtain ⟨rfl, rfl⟩ := h
        exact ⟨by simp [he], hn⟩
      · rintro ⟨h, hb⟩
        cases a with
        | nil =>
          simp only [List.nil_append, List.cons.injEq] at h
          exact absurd (h.2 ▸ he ▸ by simp) hb
        | cons x xs =>
          simp only [List.cons_append, List.cons.injEq] at h
          have := ih.2 ⟨h.2, hb⟩
          rw [hp] at this
          simp only [Option.some.injEq, Prod.mk.injEq] at this
          simp [h.1, this.1, this.2]
    · rename_i hp
      have hn := cutLast_eq_none.1 hp
      by_cases h : c = sep
      · subst h
        simp only [if_true, Option.some.injEq, Prod.mk.injEq, List.nil_eq]
        constructor
        · rintro ⟨rfl, rfl⟩
          exact ⟨rfl, hn⟩
        · rintro ⟨he, hb⟩
          cases a with
          | nil => simpa using he
          | cons x xs =>
            simp only [List.cons_append, List.cons.injEq] at he
            exact absurd (he.2 ▸ by simp) hn
      · simp only [h, if_false, reduceCtorEq, false_iff]
        rintro ⟨he, hb⟩
        cases a with
        | nil => simp [h] at he
        | cons x xs =>
          simp only [List.cons_append, List.cons.injEq] at he
          exact hn (he.2 ▸ by simp)

/-! ### Strings -/

/-- The parts of a string between the separators; one more than there are separators. -/
def pieces (sep : Char) (s : String) : List String :=
  (s.toList.splitOn sep).map String.ofList

/-- The strings with the separator between them. -/
def joined (sep : Char) (parts : List String) : String :=
  String.ofList (List.intercalate [sep] (parts.map String.toList))

theorem joined_pieces (sep : Char) (s : String) : joined sep (pieces sep s) = s := by
  have hid : String.toList ∘ String.ofList = id := funext fun _ => String.toList_ofList
  unfold joined pieces
  rw [List.map_map, hid, List.map_id, List.intercalate_splitOn, String.ofList_toList]

end Schemata.Text

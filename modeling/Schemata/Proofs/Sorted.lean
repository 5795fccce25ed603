import Mathlib.Data.List.Forall2
import Mathlib.Data.List.Nodup
import Schemata.Sorted

/-!
# Laws of sorted lists

A sorted set of texts has the members of its list, in strictly rising order; so it depends on those
members alone.
-/

namespace Schemata

/-! ### Repetitions -/

theorem eraseRepsLoop_eq {α : Type} [BEq α] (a : α) (as acc : List α) :
    List.eraseRepsBy.loop (· == ·) a as acc =
      acc.reverse ++ List.eraseRepsBy.loop (· == ·) a as [] := by
  induction as generalizing a acc with
  | nil => simp [List.eraseRepsBy.loop]
  | cons b as ih =>
    simp only [List.eraseRepsBy.loop]
    cases a == b with
    | true => exact ih a acc
    | false =>
      simp only
      rw [ih b (a :: acc), ih b [a]]
      simp

theorem eraseReps_cons_cons {α : Type} [BEq α] (a b : α) (l : List α) :
    (a :: b :: l).eraseReps =
      if a == b then (a :: l).eraseReps else a :: (b :: l).eraseReps := by
  simp only [List.eraseReps, List.eraseRepsBy, List.eraseRepsBy.loop]
  cases a == b with
  | true => rfl
  | false =>
    simp only [Bool.false_eq_true, if_false]
    rw [eraseRepsLoop_eq]
    rfl

theorem mem_eraseReps {α : Type} [BEq α] [LawfulBEq α] {x : α} (l : List α) :
    x ∈ l.eraseReps ↔ x ∈ l := by
  match l with
  | [] => rfl
  | [a] => rfl
  | a :: b :: l =>
    rw [eraseReps_cons_cons]
    split
    · rename_i h
      have hab : a = b := eq_of_beq h
      rw [mem_eraseReps (a :: l)]
      simp [hab]
    · rw [List.mem_cons, mem_eraseReps (b :: l)]
      exact List.mem_cons.symm
termination_by l.length

/-- In a sorted list equal members are neighbours, so dropping repetitions leaves each once. -/
theorem pairwise_eraseReps {α : Type} [BEq α] [LawfulBEq α] {r : α → α → Prop} (l : List α)
    (h : l.Pairwise fun a b => a = b ∨ r a b) (ht : ∀ a b c, r a b → r b c → r a c) :
    l.eraseReps.Pairwise r := by
  match l with
  | [] => exact .nil
  | [a] => exact List.pairwise_singleton r a
  | a :: b :: l =>
    rw [eraseReps_cons_cons]
    have ha := (List.pairwise_cons.1 h).1
    have hb := (List.pairwise_cons.1 h).2
    split
    · refine pairwise_eraseReps (a :: l) (List.pairwise_cons.2 ⟨?_, (List.pairwise_cons.1 hb).2⟩) ht
      intro x hx
      exact ha x (List.mem_cons_of_mem _ hx)
    · rename_i hne
      have hab : r a b := (ha b List.mem_cons_self).resolve_left fun e => hne (by simp [e])
      refine List.pairwise_cons.2 ⟨?_, pairwise_eraseReps (b :: l) hb ht⟩
      intro x hx
      rcases List.mem_cons.1 ((mem_eraseReps _).1 hx) with rfl | hx
      · exact hab
      · rcases (List.pairwise_cons.1 hb).1 x hx with rfl | hbx
        · exact hab
        · exact ht a b x hab hbx
termination_by l.length

/-! ### Sorted by a key -/

theorem text_trichotomy (a b : String) : a < b ∨ a = b ∨ b < a := by
  by_cases hlt : a < b
  · exact .inl hlt
  · by_cases heq : a = b
    · exact .inr (.inl heq)
    · refine .inr (.inr (String.not_le.1 fun hle => heq ?_))
      exact String.le_antisymm hle (String.not_lt.1 hlt)

theorem pairwise_insertInOrder {α : Type} {le : α → α → Bool}
    (htrans : ∀ a b c, le a b = true → le b c = true → le a c = true)
    (htotal : ∀ a b, le a b = true ∨ le b a = true) (x : α) {xs : List α}
    (h : xs.Pairwise fun a b => le a b = true) :
    (insertInOrder le x xs).Pairwise fun a b => le a b = true := by
  induction xs with
  | nil => exact List.pairwise_singleton _ x
  | cons y ys ih =>
    have hy := List.pairwise_cons.1 h
    simp only [insertInOrder]
    split
    · rename_i hxy
      refine List.pairwise_cons.2 ⟨fun z hz => ?_, h⟩
      rcases List.mem_cons.1 hz with rfl | hz
      · exact hxy
      · exact htrans x y z hxy (hy.1 z hz)
    · rename_i hxy
      refine List.pairwise_cons.2 ⟨fun z hz => ?_, ih hy.2⟩
      rcases List.mem_cons.1 ((insertInOrder_perm le x ys).mem_iff.1 hz) with rfl | hz
      · exact (htotal z y).resolve_left hxy
      · exact hy.1 z hz

theorem pairwise_sortedWith {α : Type} {le : α → α → Bool}
    (htrans : ∀ a b c, le a b = true → le b c = true → le a c = true)
    (htotal : ∀ a b, le a b = true ∨ le b a = true) (xs : List α) :
    (sortedWith le xs).Pairwise fun a b => le a b = true := by
  induction xs with
  | nil => exact .nil
  | cons x xs ih => exact pairwise_insertInOrder htrans htotal x ih

theorem pairwise_sortedBy {α : Type} (key : α → String) (xs : List α) :
    (sortedBy key xs).Pairwise fun a b => key a ≤ key b := by
  have htrans : ∀ a b c : α, decide (key a ≤ key b) = true → decide (key b ≤ key c) = true →
      decide (key a ≤ key c) = true := fun a b c hab hbc =>
    decide_eq_true (String.le_trans (of_decide_eq_true hab) (of_decide_eq_true hbc))
  have htotal : ∀ a b : α, decide (key a ≤ key b) = true ∨ decide (key b ≤ key a) = true := by
    intro a b
    rcases String.le_total (key a) (key b) with h | h
    · exact .inl (decide_eq_true h)
    · exact .inr (decide_eq_true h)
  exact (pairwise_sortedWith htrans htotal xs).imp fun hab => of_decide_eq_true hab

theorem pairwise_lt_of_nodup {xs : List String} (h : xs.Pairwise (· ≤ ·)) (hnodup : xs.Nodup) :
    xs.Pairwise (· < ·) :=
  (h.and hnodup).imp fun {_ _} hab =>
    String.not_le.1 fun hba => hab.2 (String.le_antisymm hab.1 hba)

/-- Members of different keys come in the strict order of these. -/
theorem pairwise_lt_sortedBy {α : Type} {key : α → String} {xs : List α}
    (h : (xs.map key).Nodup) : ((sortedBy key xs).map key).Pairwise (· < ·) :=
  pairwise_lt_of_nodup (List.pairwise_map.2 (pairwise_sortedBy key xs))
    (((sortedBy_perm key xs).map key).nodup_iff.2 h)

/-- Members of which one comes strictly earlier may be put in either way round. -/
theorem insertInOrder_comm {α : Type} {le : α → α → Bool}
    (htrans : ∀ a b c, le a b = true → le b c = true → le a c = true) {x y : α}
    (h : le x y = !le y x) (zs : List α) :
    insertInOrder le x (insertInOrder le y zs) = insertInOrder le y (insertInOrder le x zs) := by
  induction zs with
  | nil => cases hyx : le y x <;> simp [insertInOrder, h, hyx]
  | cons z zs ih =>
    cases hxz : le x z with
    | false =>
      cases hyz : le y z with
      | false => simp [insertInOrder, hxz, hyz, ih]
      | true =>
        have hxy : le x y = false := by
          cases hxy : le x y with
          | false => rfl
          | true => exact absurd (htrans x y z hxy hyz) (by simp [hxz])
        simp [insertInOrder, hxz, hyz, hxy]
    | true =>
      cases hyz : le y z with
      | false =>
        have hyx : le y x = false := by
          cases hyx : le y x with
          | false => rfl
          | true => exact absurd (htrans y x z hyx hxz) (by simp [hyz])
        simp [insertInOrder, hxz, hyz, hyx]
      | true => cases hyx : le y x <;> simp [insertInOrder, hxz, hyz, h, hyx]

theorem sortedWith_eq_self {α : Type} {le : α → α → Bool} {xs : List α}
    (h : xs.Pairwise fun a b => le a b = true) : sortedWith le xs = xs := by
  induction xs with
  | nil => rfl
  | cons x xs ih =>
    obtain ⟨hx, hxs⟩ := List.pairwise_cons.1 h
    rw [sortedWith, ih hxs]
    cases xs with
    | nil => rfl
    | cons y ys => rw [insertInOrder, if_pos (hx y List.mem_cons_self)]

/-- What is in the order of a key stays as it is. -/
theorem sortedBy_eq_self {α : Type} {key : α → String} {xs : List α}
    (h : xs.Pairwise fun a b => key a ≤ key b) : sortedBy key xs = xs :=
  sortedWith_eq_self (h.imp fun hab => decide_eq_true hab)

/-- Members of different keys come in one order, whatever order they are given in. -/
theorem sortedBy_congr {α : Type} {key : α → String} {xs ys : List α} (h : xs.Perm ys)
    (hnodup : (xs.map key).Nodup) : sortedBy key xs = sortedBy key ys := by
  have hx := sortedBy_perm key xs
  have hy := sortedBy_perm key ys
  refine (hx.trans (h.trans hy.symm)).eq_of_pairwise (fun a b ha hb hab hba => ?_)
    (pairwise_sortedBy key xs) (pairwise_sortedBy key ys)
  have hb := h.mem_iff.2 (hy.mem_iff.1 hb)
  exact List.inj_on_of_nodup_map hnodup (hx.mem_iff.1 ha) hb (String.le_antisymm hab hba)

/-! ### Sorted by several texts -/

theorem textsLE_trans {as bs cs : List String} (hab : textsLE as bs = true)
    (hbc : textsLE bs cs = true) : textsLE as cs = true := by
  induction as generalizing bs cs with
  | nil => rfl
  | cons a as ih =>
    cases bs with
    | nil => cases hab
    | cons b bs =>
      cases cs with
      | nil => cases hbc
      | cons c cs =>
        simp only [textsLE] at hab hbc ⊢
        by_cases h : a = b
        · subst h
          by_cases h' : a = c
          · subst h'
            rw [if_pos rfl] at hab hbc ⊢
            exact ih hab hbc
          · rwa [if_neg h'] at hbc ⊢
        · rw [if_neg h, decide_eq_true_eq] at hab
          by_cases h' : b = c
          · subst h'
            rw [if_neg h]
            exact decide_eq_true hab
          · rw [if_neg h', decide_eq_true_eq] at hbc
            have hac := String.lt_trans hab hbc
            have hne : a ≠ c := fun heq => String.lt_irrefl _ (heq ▸ hac)
            rw [if_neg hne]
            exact decide_eq_true hac

theorem textsLE_total (as bs : List String) : textsLE as bs = true ∨ textsLE bs as = true := by
  induction as generalizing bs with
  | nil => exact .inl rfl
  | cons a as ih =>
    cases bs with
    | nil => exact .inr rfl
    | cons b bs =>
      simp only [textsLE]
      rcases text_trichotomy a b with hlt | rfl | hlt
      · have hne : a ≠ b := fun heq => String.lt_irrefl _ (heq ▸ hlt)
        rw [if_neg hne]
        exact .inl (decide_eq_true hlt)
      · rw [if_pos rfl, if_pos rfl]
        exact ih bs
      · have hne : b ≠ a := fun heq => String.lt_irrefl _ (heq ▸ hlt)
        rw [if_neg hne]
        exact .inr (decide_eq_true hlt)

theorem textsLE_antisymm {as bs : List String} (hab : textsLE as bs = true)
    (hba : textsLE bs as = true) : as = bs := by
  induction as generalizing bs with
  | nil =>
    cases bs with
    | nil => rfl
    | cons b bs => cases hba
  | cons a as ih =>
    cases bs with
    | nil => cases hab
    | cons b bs =>
      simp only [textsLE] at hab hba
      by_cases h : a = b
      · subst h
        rw [if_pos rfl] at hab hba
        rw [ih hab hba]
      · rw [if_neg h, decide_eq_true_eq] at hab
        rw [if_neg (Ne.symm h), decide_eq_true_eq] at hba
        exact absurd (String.lt_trans hab hba) (String.lt_irrefl a)

theorem sortedByTexts_perm {α : Type} (key : α → List String) (xs : List α) :
    (sortedByTexts key xs).Perm xs := sortedWith_perm _ xs

/-- Sorting again changes nothing. -/
theorem sortedByTexts_idem {α : Type} (key : α → List String) (xs : List α) :
    sortedByTexts key (sortedByTexts key xs) = sortedByTexts key xs :=
  sortedWith_eq_self (@pairwise_sortedWith α (fun a b => textsLE (key a) (key b))
    (fun _ _ _ => textsLE_trans) (fun a b => textsLE_total (key a) (key b)) xs)

/-! ### Sorted sets of texts -/

theorem pairwise_sortTexts (xs : List String) :
    (sortedWith (fun a b => decide (a ≤ b)) xs).Pairwise fun a b => a = b ∨ a < b := by
  have h := pairwise_sortedBy id xs
  refine h.imp fun {a b} hab => ?_
  by_cases he : a = b
  · exact .inl he
  · refine .inr (String.not_le.1 fun hba => he ?_)
    exact String.le_antisymm hab hba

theorem pairwise_sortedSet (xs : List String) : (sortedSet xs).Pairwise (· < ·) :=
  pairwise_eraseReps _ (pairwise_sortTexts xs) fun _ _ _ => String.lt_trans

theorem mem_sortedSet {xs : List String} {x : String} : x ∈ sortedSet xs ↔ x ∈ xs := by
  rw [sortedSet, mem_eraseReps]
  exact (sortedWith_perm _ _).mem_iff

theorem nodup_of_pairwise_lt {xs : List String} (h : xs.Pairwise (· < ·)) : xs.Nodup := by
  refine List.Pairwise.imp (fun {a b} hab => ?_) h
  rintro rfl
  exact String.lt_irrefl a hab

theorem nodup_sortedSet (xs : List String) : (sortedSet xs).Nodup :=
  nodup_of_pairwise_lt (pairwise_sortedSet xs)

theorem eq_of_pairwise_lt {xs ys : List String} (hx : xs.Pairwise (· < ·))
    (hy : ys.Pairwise (· < ·)) (h : ∀ x, x ∈ xs ↔ x ∈ ys) : xs = ys := by
  have hp : xs.Perm ys :=
    (List.perm_ext_iff_of_nodup (nodup_of_pairwise_lt hx) (nodup_of_pairwise_lt hy)).2 h
  refine hp.eq_of_pairwise (fun a b _ _ hab hba => ?_) hx hy
  exact absurd (String.lt_trans hab hba) (String.lt_irrefl a)

theorem sortedSet_congr {xs ys : List String} (h : ∀ x, x ∈ xs ↔ x ∈ ys) :
    sortedSet xs = sortedSet ys := by
  refine eq_of_pairwise_lt (pairwise_sortedSet xs) (pairwise_sortedSet ys) fun x => ?_
  rw [mem_sortedSet, mem_sortedSet]
  exact h x

theorem mem_sortedSetBy {α : Type} [BEq α] [LawfulBEq α] {key : α → List String} {xs : List α}
    {x : α} : x ∈ sortedSetBy key xs ↔ x ∈ xs := by
  rw [sortedSetBy, mem_eraseReps]
  exact (sortedWith_perm _ _).mem_iff

/-- A sorted set comes in the strict order of a key that tells its members apart. -/
theorem pairwise_sortedSetBy {α : Type} [BEq α] [LawfulBEq α] {key : α → List String}
    (hkey : Function.Injective key) (xs : List α) :
    (sortedSetBy key xs).Pairwise fun a b => textsLE (key a) (key b) = true ∧ a ≠ b := by
  have hsorted := @pairwise_sortedWith α (fun a b => textsLE (key a) (key b))
    (fun _ _ _ => textsLE_trans) (fun a b => textsLE_total (key a) (key b)) xs
  refine pairwise_eraseReps _ (hsorted.imp fun {a b} hab => ?_) fun a b c hab hbc => ?_
  · by_cases heq : a = b
    · exact .inl heq
    · exact .inr ⟨hab, heq⟩
  · refine ⟨textsLE_trans hab.1 hbc.1, ?_⟩
    rintro rfl
    exact hab.2 (hkey (textsLE_antisymm hab.1 hbc.1))

/-- A sorted set has each member of a list once, so all of a list without repetitions. -/
theorem sortedSetBy_perm {α : Type} [BEq α] [LawfulBEq α] {key : α → List String}
    (hkey : Function.Injective key) {xs : List α} (h : xs.Nodup) : (sortedSetBy key xs).Perm xs :=
  (List.perm_ext_iff_of_nodup ((pairwise_sortedSetBy hkey xs).imp And.right) h).2
    fun _ => mem_sortedSetBy

/-! ### The first of each key -/

/-- What is found is the one member that fits, where no two members fit. -/
theorem find?_eq_some_of_unique {α : Type} {p : α → Bool} {xs : List α}
    (h : ∀ x ∈ xs, ∀ y ∈ xs, p x = true → p y = true → x = y) {x : α} :
    xs.find? p = some x ↔ x ∈ xs ∧ p x = true := by
  constructor
  · exact fun hfind => ⟨List.mem_of_find?_eq_some hfind, List.find?_some hfind⟩
  · rintro ⟨hmem, hx⟩
    cases hfind : xs.find? p with
    | none => exact absurd hx (List.find?_eq_none.1 hfind x hmem)
    | some y => rw [h x hmem y (List.mem_of_find?_eq_some hfind) hx (List.find?_some hfind)]

/-- Where no two members have one key, what is found under a key is the member that has it. -/
theorem find?_key_eq_some {α κ : Type} [DecidableEq κ] {key : α → κ} {xs : List α}
    (h : (xs.map key).Nodup) {k : κ} {x : α} : xs.find? (fun y => key y = k) = some x ↔ x ∈ xs ∧ key x = k := by
  rw [find?_eq_some_of_unique, decide_eq_true_eq]
  intro x hx y hy hkx hky
  exact List.inj_on_of_nodup_map h hx hy
    ((of_decide_eq_true hkx).trans (of_decide_eq_true hky).symm)

/-- What is found under a key among some members is what is found there, if it is one of them. -/
theorem find?_filter_key {α : Type} {key : α → String} {xs : List α} (h : (xs.map key).Nodup)
    (p : α → Bool) (k : String) :
    (xs.filter p).find? (fun y => key y = k) = (xs.find? fun y => key y = k).filter p := by
  ext x
  rw [find?_key_eq_some (h.sublist (List.filter_sublist.map key)), Option.filter_eq_some_iff,
    find?_key_eq_some h, List.mem_filter]
  exact and_right_comm

section FirstByKey

variable {α : Type} (key : α → String)

/-- The first member of each key; `seen` lists the keys that came before. -/
def firstByKey : List String → List α → List α
  | _, [] => []
  | seen, x :: xs =>
    if seen.contains (key x) then firstByKey seen xs else x :: firstByKey (key x :: seen) xs

theorem mem_firstByKey {seen : List String} {xs : List α} {x : α} :
    x ∈ firstByKey key seen xs ↔
      key x ∉ seen ∧ xs.find? (fun y => key y = key x) = some x := by
  induction xs generalizing seen with
  | nil => simp [firstByKey]
  | cons y xs ih =>
    rw [firstByKey, List.find?_cons]
    by_cases hseen : key y ∈ seen
    · rw [if_pos (List.contains_iff_mem.2 hseen), ih]
      refine and_congr_right fun hnew => ?_
      have hne : key y ≠ key x := fun heq => hnew (heq ▸ hseen)
      simp [hne]
    · rw [if_neg (mt List.contains_iff_mem.1 hseen), List.mem_cons, ih]
      by_cases heq : key y = key x
      · have hin : key x ∉ seen := heq ▸ hseen
        simp [heq, hin, eq_comm]
      · have hne : x ≠ y := fun h => heq (h ▸ rfl)
        simp [heq, hne, Ne.symm heq]

theorem nodup_firstByKey (seen : List String) (xs : List α) :
    ((firstByKey key seen xs).map key).Nodup := by
  induction xs generalizing seen with
  | nil => exact .nil
  | cons x xs ih =>
    rw [firstByKey]
    split
    · exact ih seen
    · refine List.nodup_cons.2 ⟨fun hmem => ?_, ih _⟩
      obtain ⟨y, hy, hkey⟩ := List.mem_map.1 hmem
      exact ((mem_firstByKey key).1 hy).1 (hkey ▸ List.mem_cons_self)

end FirstByKey

end Schemata

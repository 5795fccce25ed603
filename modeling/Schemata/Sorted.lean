/-!
# Sorted lists

Lists in the order of a key, and the sorted list of the members of a list. Strings compare by code
point, which is also the order of their UTF-8 bytes.
-/

namespace Schemata

/-- Puts a member before the first of a list that does not come earlier. -/
def insertInOrder {α : Type} (le : α → α → Bool) (x : α) : List α → List α
  | [] => [x]
  | y :: ys => if le x y then x :: y :: ys else y :: insertInOrder le x ys

/-- The list in an order. Members that come no later than each other keep their places. -/
def sortedWith {α : Type} (le : α → α → Bool) : List α → List α
  | [] => []
  | x :: xs => insertInOrder le x (sortedWith le xs)

/-- The list in the order of a string key; members of one key keep their order. -/
def sortedBy {α : Type} (key : α → String) (xs : List α) : List α :=
  sortedWith (fun a b => decide (key a ≤ key b)) xs

/-- The different members of a list, in order. -/
def sortedSet (xs : List String) : List String :=
  (sortedWith (fun a b => decide (a ≤ b)) xs).eraseReps

/-- Whether a list of texts comes no later than another: at the first difference, or as its
start. -/
def textsLE : List String → List String → Bool
  | [], _ => true
  | _ :: _, [] => false
  | a :: as, b :: bs => if a = b then textsLE as bs else decide (a < b)

/-- The list in the order of a key of several texts; members of one key keep their order. -/
def sortedByTexts {α : Type} (key : α → List String) (xs : List α) : List α :=
  sortedWith (fun a b => textsLE (key a) (key b)) xs

/-- The different members of a list, in the order of a key that tells them apart. -/
def sortedSetBy {α : Type} [BEq α] (key : α → List String) (xs : List α) : List α :=
  (sortedByTexts key xs).eraseReps

theorem insertInOrder_perm {α : Type} (le : α → α → Bool) (x : α) (xs : List α) :
    (insertInOrder le x xs).Perm (x :: xs) := by
  induction xs with
  | nil => exact .refl _
  | cons y ys ih =>
    simp only [insertInOrder]
    split
    · exact .refl _
    · exact (ih.cons y).trans (.swap x y ys)

theorem sortedWith_perm {α : Type} (le : α → α → Bool) (xs : List α) :
    (sortedWith le xs).Perm xs := by
  induction xs with
  | nil => exact .nil
  | cons x xs ih => exact (insertInOrder_perm le x _).trans (ih.cons x)

theorem sortedBy_perm {α : Type} (key : α → String) (xs : List α) : (sortedBy key xs).Perm xs :=
  sortedWith_perm _ xs

theorem mem_sortedBy {α : Type} {key : α → String} {xs : List α} {x : α} :
    x ∈ sortedBy key xs ↔ x ∈ xs :=
  (sortedBy_perm key xs).mem_iff

end Schemata

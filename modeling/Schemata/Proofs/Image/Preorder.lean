import Mathlib.Data.List.Basic
import Mathlib.Data.Prod.Basic
import Mathlib.Tactic.Choose
import Schemata.Image.Descriptor

/-!
# Messages and enums in the order of their places

The place of a message in a file is the way to it: the number of a message of the file, then the
number of one inside that, and so on. In lexicographic order a place comes before all places inside
it, and these come before its later siblings. A visit of the file meets the message of each place
once, in this order. Enums are listed by the place that they are declared in, where the place of the
file itself is the empty way, and then by their number there.
-/

namespace Schemata.Descriptor

/-! ### Lists of all that has a place -/

section

variable {ι κ α β : Type} {before : ι → ι → Prop} {before' : κ → κ → Prop} {at? : ι → Option α}
  {xs : List α}

/-- Whether values are listed once for each place that holds one, in the order of the places. -/
def ListsOnce (before : ι → ι → Prop) (at? : ι → Option α) (values : List α) : Prop :=
  ∃ placed : List (ι × α), placed.map Prod.snd = values ∧
    (placed.Pairwise fun p q => before p.1 q.1) ∧ ∀ i x, (i, x) ∈ placed ↔ at? i = some x

theorem listsOnce_getElem? (xs : List α) : ListsOnce (· < ·) (fun i : Nat => xs[i]?) xs := by
  refine ⟨xs.zipIdx.map Prod.swap, ?_, ?_, ?_⟩
  · rw [List.map_map]
    exact List.zipIdx_map_fst 0 xs
  · have hplaces : (xs.zipIdx.map Prod.snd).Pairwise (· < ·) := by
      rw [List.zipIdx_map_snd]
      exact List.pairwise_lt_range'
    rw [List.pairwise_map] at hplaces ⊢
    exact hplaces
  · intro i x
    have hswap : (x, i).swap ∈ xs.zipIdx.map Prod.swap ↔ (x, i) ∈ xs.zipIdx :=
      List.mem_map_of_injective Prod.swap_injective
    exact hswap.trans List.mem_zipIdx_iff_getElem?

namespace ListsOnce

/-- A value at a place before all others. -/
theorem cons (h : ListsOnce before at? xs) {at'? : ι → Option α} (first : ι) {x : α}
    (hfirst : ∀ i y, at? i = some y → before first i)
    (hat : ∀ i y, at'? i = some y ↔ i = first ∧ y = x ∨ at? i = some y) :
    ListsOnce before at'? (x :: xs) := by
  obtain ⟨placed, rfl, hordered, hmem⟩ := h
  refine ⟨(first, x) :: placed, rfl, List.pairwise_cons.2 ⟨?_, hordered⟩, ?_⟩
  · rintro ⟨i, y⟩ hy
    exact hfirst i y ((hmem i y).1 hy)
  · intro i y
    rw [List.mem_cons, Prod.mk.injEq, hmem, hat]

theorem map (h : ListsOnce before at? xs) (g : α → β) :
    ListsOnce before (fun i => (at? i).map g) (xs.map g) := by
  obtain ⟨placed, rfl, hordered, hmem⟩ := h
  refine ⟨placed.map (Prod.map id g), ?_, ?_, ?_⟩
  · rw [List.map_map, List.map_map]
    rfl
  · rw [List.pairwise_map]
    exact hordered
  · intro i y
    simp only [List.mem_map, Prod.exists, Prod.map_apply, id_eq, Prod.mk.injEq, hmem,
      Option.map_eq_some_iff]
    constructor
    · rintro ⟨_, x, hx, rfl, hy⟩
      exact ⟨x, hx, hy⟩
    · rintro ⟨x, hx, hy⟩
      exact ⟨i, x, hx, rfl, hy⟩

/-- Places may be called by other names that keep their order. -/
theorem renamed (h : ListsOnce before at? xs) {at'? : κ → Option α} (name : ι → κ)
    (hname : ∀ i j, before i j → before' (name i) (name j))
    (hat : ∀ k x, at'? k = some x ↔ ∃ i, name i = k ∧ at? i = some x) :
    ListsOnce before' at'? xs := by
  obtain ⟨placed, rfl, hordered, hmem⟩ := h
  refine ⟨placed.map (Prod.map name id), ?_, ?_, ?_⟩
  · rw [List.map_map]
    rfl
  · rw [List.pairwise_map]
    exact hordered.imp fun hbefore => hname _ _ hbefore
  · intro k x
    simp only [List.mem_map, Prod.exists, Prod.map_apply, id_eq, Prod.mk.injEq, hmem, hat]
    constructor
    · rintro ⟨i, _, hx, hk, rfl⟩
      exact ⟨i, hk, hx⟩
    · rintro ⟨i, hk, hx⟩
      exact ⟨i, x, hx, hk, rfl⟩

/-- Where each value stands for a list, places are pairs: of the value, and in its list. -/
theorem flatMap (h : ListsOnce before at? xs) {in? : α → κ → Option β} {ys : α → List β}
    (hin : ∀ x ∈ xs, ListsOnce before' (in? x) (ys x)) :
    ListsOnce (Prod.Lex before before') (fun p => (at? p.1).bind fun x => in? x p.2)
      (xs.flatMap ys) := by
  obtain ⟨placed, rfl, hordered, hmem⟩ := h
  -- Only listed values need a list of their own; the others get any, so that there is a function.
  have hfilled : ∀ x, ∃ filled : List (κ × β), x ∈ placed.map Prod.snd →
      filled.map Prod.snd = ys x ∧ (filled.Pairwise fun p q => before' p.1 q.1) ∧
        ∀ k y, (k, y) ∈ filled ↔ in? x k = some y := by
    intro x
    by_cases hx : x ∈ placed.map Prod.snd
    · obtain ⟨filled, hfilled⟩ := hin x hx
      exact ⟨filled, fun _ => hfilled⟩
    · exact ⟨[], fun hx' => absurd hx' hx⟩
  choose filled hfilled using hfilled
  refine ⟨placed.flatMap fun p => (filled p.2).map fun q => ((p.1, q.1), q.2), ?_, ?_, ?_⟩
  · rw [List.map_flatMap, List.flatMap_map]
    refine List.flatMap_congr fun p hp => ?_
    rw [List.map_map]
    exact (hfilled p.2 (List.mem_map_of_mem hp)).1
  · rw [List.pairwise_flatMap]
    constructor
    · intro p hp
      rw [List.pairwise_map]
      exact (hfilled p.2 (List.mem_map_of_mem hp)).2.1.imp fun hbefore => .right _ hbefore
    · refine hordered.imp fun hbefore a ha b hb => ?_
      obtain ⟨_, _, rfl⟩ := List.mem_map.1 ha
      obtain ⟨_, _, rfl⟩ := List.mem_map.1 hb
      exact .left _ _ hbefore
  · rintro ⟨i, k⟩ y
    simp only [List.mem_flatMap, List.mem_map, Prod.exists, Prod.mk.injEq, Option.bind_eq_some_iff]
    constructor
    · rintro ⟨_, x, hx, _, _, hy, ⟨rfl, rfl⟩, rfl⟩
      exact ⟨x, (hmem _ x).1 hx, ((hfilled x (List.mem_map_of_mem hx)).2.2 _ _).1 hy⟩
    · rintro ⟨x, hx, hy⟩
      have hx := (hmem i x).2 hx
      exact ⟨i, x, hx, k, y, ((hfilled x (List.mem_map_of_mem hx)).2.2 k y).2 hy, ⟨rfl, rfl⟩, rfl⟩

end ListsOnce

end

/-! ### Messages -/

/-- The message that a way leads to from a message. Each number on it is that of a message inside
the one before. -/
def Message.along : Message → List Nat → Option Message
  | m, [] => some m
  | m, i :: way => m.messages[i]?.bind fun n => n.along way

/-- The message at a place among some messages and those inside them. -/
def Message.among (ms : List Message) : List Nat → Option Message
  | [] => none
  | i :: way => ms[i]?.bind fun m => m.along way

theorem Message.allNested_eq_flatMap (ms : List Message) :
    allNested ms = ms.flatMap withNested := by
  induction ms with
  | nil => rfl
  | cons m ms ih => rw [allNested, ih, List.flatMap_cons]

theorem listsOnce_allNested {ms : List Message}
    (h : ∀ m ∈ ms, ListsOnce (· < ·) m.along m.withNested) :
    ListsOnce (· < ·) (Message.among ms) (Message.allNested ms) := by
  rw [Message.allNested_eq_flatMap]
  refine ((listsOnce_getElem? ms).flatMap h).renamed (fun p => p.1 :: p.2) ?_ ?_
  · intro p q hbefore
    exact List.cons_lt_cons_iff.2 (Prod.lex_def.1 hbefore)
  · intro place n
    cases place with
    | nil => simp [Message.among]
    | cons i way => simp [Message.among]

mutual

theorem listsOnce_withNested : (m : Message) → ListsOnce (· < ·) m.along m.withNested
  | .mk name fullName fields messages enums => by
    refine (listsOnce_allNested (listsOnce_each messages)).cons [] ?_ ?_
    · intro place n hn
      cases place with
      | nil => cases hn
      | cons i way => exact List.nil_lt_cons i way
    · intro place n
      cases place with
      | nil => simp [Message.along, Message.among, eq_comm]
      | cons i way => simp [Message.along, Message.among, Message.messages]

theorem listsOnce_each : (ms : List Message) →
    ∀ m ∈ ms, ListsOnce (· < ·) m.along m.withNested
  | [] => fun _ hm => absurd hm List.not_mem_nil
  | m :: ms => List.forall_mem_cons.2 ⟨listsOnce_withNested m, listsOnce_each ms⟩

end

/-! ### Files -/

namespace File

/-- The message at a place of a file. -/
def messageAt? (f : File) (place : List Nat) : Option Message := Message.among f.messages place

/-- The enums declared at a place of a file: outside messages, or in the message there. -/
def enumsAt? (f : File) : List Nat → Option (List Enum)
  | [] => some f.enums
  | i :: way => (f.messageAt? (i :: way)).map Message.enums

/-- The enum with a number at a place of a file. -/
def enumAt? (f : File) (p : List Nat × Nat) : Option Enum :=
  (f.enumsAt? p.1).bind fun es => es[p.2]?

theorem listsOnce_allMessages (f : File) : ListsOnce (· < ·) f.messageAt? f.allMessages := by
  rw [allMessages_eq]
  exact listsOnce_allNested (listsOnce_each f.messages)

theorem listsOnce_enums (f : File) :
    ListsOnce (· < ·) f.enumsAt? (f.enums :: f.allMessages.map Message.enums) := by
  refine (f.listsOnce_allMessages.map Message.enums).cons [] ?_ ?_
  · intro place es hes
    cases place with
    | nil => cases hes
    | cons i way => exact List.nil_lt_cons i way
  · intro place es
    cases place with
    | nil => simp [enumsAt?, messageAt?, Message.among, eq_comm]
    | cons i way => simp [enumsAt?]

theorem listsOnce_allEnums (f : File) :
    ListsOnce (Prod.Lex (· < ·) (· < ·)) f.enumAt? f.allEnums := by
  have henums : f.allEnums = (f.enums :: f.allMessages.map Message.enums).flatMap id := by
    rw [List.flatMap_cons, List.flatMap_map]
    rfl
  rw [henums]
  exact f.listsOnce_enums.flatMap fun es _ => listsOnce_getElem? es

/-- All messages of a file are met as a walk through the nested messages meets them, and so once at
each place, those around a message before it. Its enums are those outside messages, and then those
of the messages in that order, again once at each place. -/
theorem declarations_listed (f : File) :
    f.allMessages = Message.allNested f.messages ∧
      ListsOnce (· < ·) f.messageAt? f.allMessages ∧
      f.allEnums = f.enums ++ (Message.allNested f.messages).flatMap Message.enums ∧
      ListsOnce (Prod.Lex (· < ·) (· < ·)) f.enumAt? f.allEnums := by
  refine ⟨f.allMessages_eq, f.listsOnce_allMessages, ?_, f.listsOnce_allEnums⟩
  rw [allEnums, f.allMessages_eq]

end File

end Schemata.Descriptor

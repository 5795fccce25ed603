/-!
# Tables in key order

A table holds at most one value for each key and lists its entries in the order of the keys. What
an insertion or a removal does is said through `find?`.
-/

namespace Schemata

/-- Values under string keys, in key order. -/
structure Table (β : Type) where
  entries : List (String × β)
  ordered : entries.Pairwise fun x y => x.1 < y.1

namespace Table

variable {β : Type}

def empty : Table β := ⟨[], .nil⟩

instance : Inhabited (Table β) := ⟨empty⟩

/-- The keys, in order. -/
def keys (t : Table β) : List String := t.entries.map (·.1)

/-- The values, in the order of their keys. -/
def values (t : Table β) : List β := t.entries.map (·.2)

def size (t : Table β) : Nat := t.entries.length

/-- The value under a key. -/
def find? (t : Table β) (key : String) : Option β :=
  (t.entries.find? fun e => e.1 == key).map (·.2)

def has (t : Table β) (key : String) : Bool := (t.find? key).isSome

/-! ### Insertion -/

/-- Puts an entry in its place, over an entry of the same key. -/
def insertEntry (key : String) (value : β) : List (String × β) → List (String × β)
  | [] => [(key, value)]
  | e :: es =>
    if key < e.1 then (key, value) :: e :: es
    else if key = e.1 then (key, value) :: es
    else e :: insertEntry key value es

theorem mem_insertEntry {key : String} {value : β} {es : List (String × β)} {x : String × β}
    (h : x ∈ insertEntry key value es) : x = (key, value) ∨ x ∈ es := by
  induction es with
  | nil => simpa [insertEntry] using h
  | cons e es ih =>
    simp only [insertEntry] at h
    split at h
    · simpa using h
    · split at h
      · simp only [List.mem_cons] at h ⊢
        exact h.imp_right Or.inr
      · simp only [List.mem_cons] at h ⊢
        rcases h with h | h
        · exact .inr (.inl h)
        · exact (ih h).imp_right Or.inr

theorem lt_of_not_lt {a b : String} (h : ¬ a < b) (hne : a ≠ b) : b < a := by
  apply Decidable.byContradiction
  intro h'
  exact hne (String.le_antisymm (String.not_lt.1 h') (String.not_lt.1 h))

theorem ordered_insertEntry (key : String) (value : β) {es : List (String × β)}
    (h : es.Pairwise fun x y => x.1 < y.1) :
    (insertEntry key value es).Pairwise fun x y => x.1 < y.1 := by
  induction es with
  | nil => simp [insertEntry]
  | cons e es ih =>
    have hes := List.pairwise_cons.1 h
    simp only [insertEntry]
    split
    · rename_i hlt
      refine List.pairwise_cons.2 ⟨?_, h⟩
      intro x hx
      rcases List.mem_cons.1 hx with rfl | hx
      · exact hlt
      · exact String.lt_trans hlt (hes.1 x hx)
    · split
      · rename_i heq
        exact List.pairwise_cons.2 ⟨fun x hx => by simpa [heq] using hes.1 x hx, hes.2⟩
      · rename_i hlt hne
        refine List.pairwise_cons.2 ⟨fun x hx => ?_, ih hes.2⟩
        rcases mem_insertEntry hx with rfl | hx
        · exact lt_of_not_lt hlt hne
        · exact hes.1 x hx

/-- The table with a value under a key, in place of the one that was there. -/
def insert (t : Table β) (key : String) (value : β) : Table β :=
  ⟨insertEntry key value t.entries, ordered_insertEntry key value t.ordered⟩

def erase (t : Table β) (key : String) : Table β :=
  ⟨t.entries.filter fun e => e.1 != key, t.ordered.filter _⟩

/-- The table of some entries; of two with one key the later stays. -/
def ofList (es : List (String × β)) : Table β :=
  es.foldl (fun t e => t.insert e.1 e.2) empty

/-! ### Look-up after a change -/

theorem mem_entries_of_find? {t : Table β} {key : String} {value : β}
    (h : t.find? key = some value) : (key, value) ∈ t.entries := by
  obtain ⟨e, he, rfl⟩ := Option.map_eq_some_iff.1 h
  have hkey : e.1 = key := by simpa using List.find?_some he
  subst hkey
  exact List.mem_of_find?_eq_some he

theorem find?_insertEntry (key : String) (value : β) (es : List (String × β)) (k : String) :
    ((insertEntry key value es).find? fun e => e.1 == k) =
      if key = k then some (key, value) else es.find? fun e => e.1 == k := by
  induction es with
  | nil => by_cases h : key = k <;> simp [insertEntry, h]
  | cons e es ih =>
    simp only [insertEntry]
    split
    · by_cases h : key = k <;> simp [List.find?_cons, h]
    · split
      · rename_i heq
        by_cases h : key = k <;> simp [h, ← heq]
      · rename_i hne
        rw [List.find?_cons, ih]
        by_cases h : key = k
        · have : (e.1 == k) = false := beq_eq_false_iff_ne.2 fun e' => hne (h.trans e'.symm)
          simp [h, this]
        · simp [h, List.find?_cons]

@[simp] theorem find?_insert (t : Table β) (key : String) (value : β) (k : String) :
    (t.insert key value).find? k = if key = k then some value else t.find? k := by
  simp only [find?, insert, find?_insertEntry]
  by_cases h : key = k <;> simp [h]

@[simp] theorem find?_empty (k : String) : (empty : Table β).find? k = none := rfl

theorem find?_foldl_insert {es : List (String × β)} (h : (es.map Prod.fst).Nodup) (t : Table β)
    {k : String} {v : β} :
    (es.foldl (fun t e => t.insert e.1 e.2) t).find? k = some v ↔
      (k, v) ∈ es ∨ (k ∉ es.map Prod.fst ∧ t.find? k = some v) := by
  induction es generalizing t with
  | nil => simp
  | cons e es ih =>
    rw [List.map_cons, List.nodup_cons] at h
    rw [List.foldl_cons, ih h.2, find?_insert, List.map_cons, List.mem_cons, List.mem_cons]
    by_cases hk : e.1 = k
    · subst hk
      have hv : (e.1, v) ∉ es := fun hmem => h.1 (List.mem_map.2 ⟨_, hmem, rfl⟩)
      obtain ⟨key, value⟩ := e
      simp [hv, h.1, eq_comm]
    · have hne : (k, v) ≠ e := fun heq => hk (heq ▸ rfl)
      simp [hk, hne, Ne.symm hk]

/-- Entries with different keys are what their table holds. -/
theorem find?_ofList {es : List (String × β)} (h : (es.map Prod.fst).Nodup) {k : String} {v : β} :
    (ofList es).find? k = some v ↔ (k, v) ∈ es := by
  rw [ofList, find?_foldl_insert h]
  simp

theorem find?_erase (t : Table β) (key k : String) :
    (t.erase key).find? k = if key = k then none else t.find? k := by
  simp only [find?, erase, List.find?_filter]
  by_cases h : key = k
  · subst h
    simp
  · have : (fun e : String × β => decide ((e.1 != key) = true ∧ (e.1 == k) = true)) =
        fun e => e.1 == k := by
      funext e
      by_cases he : e.1 = k
      · simp [he, Ne.symm h]
      · simp [he]
    rw [if_neg h, this]

end Table

end Schemata

import Schemata.Proofs.Sorted
import Schemata.Table

/-!
# Laws of tables

The entries of a table are what looking up its keys gives.
-/

namespace Schemata

namespace Table

variable {β : Type} {t : Table β} {k : String} {v : β}

theorem find?_of_pairwise {es : List (String × β)} (h : es.Pairwise fun x y => x.1 < y.1)
    (hmem : (k, v) ∈ es) : es.find? (fun e => e.1 == k) = some (k, v) := by
  induction es with
  | nil => cases hmem
  | cons e es ih =>
    obtain ⟨hlt, hes⟩ := List.pairwise_cons.1 h
    rw [List.find?_cons]
    rcases List.mem_cons.1 hmem with rfl | hmem
    · simp
    · have hne : e.1 ≠ k := by
        rintro rfl
        have hself := hlt _ hmem
        exact String.lt_irrefl _ hself
      rw [beq_eq_false_iff_ne.2 hne]
      exact ih hes hmem

theorem mem_entries : (k, v) ∈ t.entries ↔ t.find? k = some v := by
  constructor
  · intro hmem
    rw [find?, find?_of_pairwise t.ordered hmem]
    rfl
  · exact mem_entries_of_find?

theorem mem_keys : k ∈ t.keys ↔ ∃ v, t.find? k = some v := by
  simp only [keys, List.mem_map, ← mem_entries]
  constructor
  · rintro ⟨e, he, rfl⟩
    exact ⟨e.2, he⟩
  · rintro ⟨v, hv⟩
    exact ⟨_, hv, rfl⟩

theorem nodup_keys (t : Table β) : t.keys.Nodup :=
  nodup_of_pairwise_lt (List.pairwise_map.2 t.ordered)

theorem mem_keys_insert {key : String} : k ∈ (t.insert key v).keys ↔ k = key ∨ k ∈ t.keys := by
  rw [mem_keys, mem_keys]
  simp only [find?_insert]
  by_cases h : key = k
  · simp [h]
  · simp [h, Ne.symm h]

theorem eq_of_keys {t' : Table β} (hkeys : t.keys = t'.keys)
    (hvalues : ∀ k v v', (k, v) ∈ t.entries → (k, v') ∈ t'.entries → v = v') : t = t' := by
  have hentries {es es' : List (String × β)} (hkeys : es.map Prod.fst = es'.map Prod.fst)
      (hvalues : ∀ k v v', (k, v) ∈ es → (k, v') ∈ es' → v = v') : es = es' := by
    induction es generalizing es' with
    | nil => exact (List.map_eq_nil_iff.1 hkeys.symm).symm
    | cons e es ih =>
      cases es' with
      | nil => cases hkeys
      | cons e' es' =>
        obtain ⟨k, v⟩ := e
        obtain ⟨k', v'⟩ := e'
        obtain ⟨hk, hrest⟩ := List.cons.inj hkeys
        cases hk
        have hv : v = v' := hvalues k v v' List.mem_cons_self List.mem_cons_self
        have hes : es = es' := ih hrest fun k v v' hmem hmem' =>
          hvalues k v v' (List.mem_cons_of_mem _ hmem) (List.mem_cons_of_mem _ hmem')
        rw [hv, hes]
  cases t
  cases t'
  cases hentries hkeys hvalues
  rfl

theorem ext_find? {t' : Table β} (h : ∀ k v, t.find? k = some v ↔ t'.find? k = some v) : t = t' := by
  have hkeys : t.keys = t'.keys := by
    refine eq_of_pairwise_lt (List.pairwise_map.2 t.ordered) (List.pairwise_map.2 t'.ordered)
      fun k => ?_
    rw [mem_keys, mem_keys]
    exact exists_congr fun v => h k v
  refine eq_of_keys hkeys fun k v v' hmem hmem' => ?_
  exact Option.some.inj (((h k v).1 (mem_entries.1 hmem)).symm.trans (mem_entries.1 hmem'))

/-- The table of the entries of a table is that table. -/
theorem ofList_entries (t : Table β) : ofList t.entries = t :=
  ext_find? fun _ _ => (find?_ofList t.nodup_keys).trans mem_entries

end Table

end Schemata

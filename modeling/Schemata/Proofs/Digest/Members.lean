import Schemata.Digest.Manifest
import Schemata.Proofs.Except
import Schemata.Proofs.Sorted

/-!
# Module digests depend on the set of dependencies

The order of the dependencies and their repetitions do not change a module digest. It exists as
soon as all dependencies have digests of the current type, and it has that type itself.
-/

namespace Schemata.Digest

theorem checkTypes_eq_ok {ds : List Digest} : checkTypes ds = .ok () ↔ ∀ d ∈ ds, d.type = .b5 := by
  induction ds with
  | nil => simp [checkTypes]
  | cons d ds ih =>
    simp only [checkTypes]
    split
    · rename_i hd
      simp [ih, hd]
    · rename_i hd
      simp [hd]

/-- A digest of another type is refused by its text. -/
theorem checkTypes_eq_error {ds : List Digest} (h : ¬ ∀ d ∈ ds, d.type = .b5) :
    ∃ d ∈ ds, d.type ≠ .b5 ∧ checkTypes ds = .error (.unexpectedType "b5" d.text) := by
  induction ds with
  | nil => exact absurd (fun _ hd => absurd hd List.not_mem_nil) h
  | cons d ds ih =>
    rw [checkTypes]
    by_cases hd : d.type = .b5
    · rw [if_pos hd]
      obtain ⟨d', hd', htype, herror⟩ := ih fun hall => h (List.forall_mem_cons.2 ⟨hd, hall⟩)
      exact ⟨d', List.mem_cons_of_mem _ hd', htype, herror⟩
    · rw [if_neg hd]
      exact ⟨d, List.mem_cons_self, hd, rfl⟩

theorem b5_eq_ok {m : Manifest} {ds : List Digest} {d : Digest} :
    b5 m ds = .ok d ↔ (∀ x ∈ ds, x.type = .b5) ∧ d = ⟨.b5, ContentHash.ofText (b5Text m ds)⟩ := by
  unfold b5
  rw [bind_eq_ok]
  constructor
  · rintro ⟨⟨⟩, hc, hd⟩
    cases hd
    exact ⟨checkTypes_eq_ok.1 hc, rfl⟩
  · rintro ⟨hc, rfl⟩
    exact ⟨(), checkTypes_eq_ok.2 hc, rfl⟩

theorem type_of_b5 {m : Manifest} {ds : List Digest} {d : Digest} (h : b5 m ds = .ok d) :
    d.type = .b5 := by
  rw [(b5_eq_ok.1 h).2]

theorem b5Text_congr (m : Manifest) {ds es : List Digest} (h : ∀ x, x ∈ ds ↔ x ∈ es) :
    b5Text m ds = b5Text m es := by
  have hset : sortedSet (ds.map text) = sortedSet (es.map text) := by
    apply sortedSet_congr
    intro x
    simp only [List.mem_map, h]
  rw [b5Text, b5Text, hset]

theorem b5_congr {m : Manifest} {ds es : List Digest} {d : Digest} (h : ∀ x, x ∈ ds ↔ x ∈ es)
    (hd : b5 m ds = .ok d) : b5 m es = .ok d := by
  obtain ⟨htypes, rfl⟩ := b5_eq_ok.1 hd
  refine b5_eq_ok.2 ⟨fun x hx => htypes x ((h x).2 hx), ?_⟩
  rw [b5Text_congr m h]

end Schemata.Digest

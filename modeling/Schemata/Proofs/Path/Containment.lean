import Mathlib.Data.List.Infix
import Mathlib.Data.List.Iterate
import Schemata.Proofs.Path

/-!
# Normal paths form a tree

The names of a normal path lead to it from the root. A path lies in another if it goes on from
there, so the paths around one path are the beginnings of its names, and going from parent to
parent passes through all of them up to the root.
-/

namespace Schemata.Path

open Text

variable {a b c p : String}

/-! ### Parents -/

theorem parent_of_cut {before after : List Char} (h : cutLast '/' p.toList = some (before, after)) :
    parent p = String.ofList before := by
  rw [parent, h]

theorem parent_of_no_cut (h : cutLast '/' p.toList = none) : parent p = "." := by
  rw [parent, h]

theorem contains_parent (h : p ≠ ".") : contains (parent p) p = true := by
  rw [contains_iff]
  refine ⟨covers_parent p, ?_⟩
  intro heq
  cases hcut : cutLast '/' p.toList with
  | none => exact h (heq.symm.trans (parent_of_no_cut hcut))
  | some parts =>
    have hlt := length_parent_lt hcut
    rw [← parent_of_cut hcut, heq] at hlt
    exact Nat.lt_irrefl _ hlt

theorem IsNormal.parent (h : IsNormal p) : IsNormal (parent p) := h.of_covers (covers_parent p)

theorem components_parent (h : IsNormal p) : components (parent p) = (components p).dropLast := by
  by_cases hp : p = "."
  · rw [hp]
    rfl
  cases hcut : cutLast '/' p.toList with
  | none =>
    have hsingle : p.toList.splitOn '/' = [p.toList] :=
      List.splitOn_eq_singleton (cutLast_eq_none.1 hcut)
    rw [parent_of_no_cut hcut, components_of_ne hp, hsingle]
    rfl
  | some parts =>
    obtain ⟨before, after⟩ := parts
    obtain ⟨hsplit, hafter⟩ := cutLast_eq_some.1 hcut
    have hcomponents : components p = before.splitOn '/' ++ [after] := by
      rw [components_of_ne hp, hsplit, List.splitOn_append_cons_self,
        List.splitOn_eq_singleton hafter]
    have hroot : String.ofList before ≠ "." := by
      intro hdot
      have hbefore : before = ['.'] := by
        simpa using congrArg String.toList hdot
      have hname := h ['.'] (by rw [hcomponents, hbefore]; exact List.mem_cons_self)
      exact hname.2.1 rfl
    rw [parent_of_cut hcut, components_of_ne hroot, String.toList_ofList, hcomponents,
      List.dropLast_concat]

/-- What holds of the root, and of a path if it holds of its parent, holds of all normal paths. -/
theorem IsNormal.induction {motive : ∀ p, IsNormal p → Prop} (root : motive "." isNormal_root)
    (below : ∀ p (h : IsNormal p), p ≠ "." → motive (Path.parent p) h.parent → motive p h)
    (p : String) (h : IsNormal p) : motive p h := by
  induction hdepth : (components p).length generalizing p with
  | zero =>
    obtain rfl := components_eq_nil.1 (List.length_eq_zero_iff.1 hdepth)
    exact root
  | succ depth ih =>
    have hp : p ≠ "." := by
      rintro rfl
      cases hdepth
    refine below p h hp (ih _ h.parent ?_)
    rw [components_parent h, List.length_dropLast, hdepth]
    rfl

/-! ### From parent to parent -/

theorem ancestors_root : ancestors "." = ["."] := by
  rw [ancestors, if_pos rfl]

theorem ancestors_of_ne (h : p ≠ ".") : ancestors p = p :: ancestors (parent p) := by
  rw [ancestors, if_neg h]
  split
  · rename_i before after hcut
    rw [parent_of_cut hcut]
  · rename_i hcut
    rw [parent_of_no_cut hcut, ancestors_root]

/-- The way up takes as many steps as there are names. -/
theorem ancestors_eq_iterate (h : IsNormal p) :
    ancestors p = List.iterate parent p ((components p).length + 1) := by
  induction p, h using IsNormal.induction with
  | root => exact ancestors_root
  | below p h hne ih =>
    have hpos : 0 < (components p).length :=
      List.length_pos_iff.2 fun hnil => hne (components_eq_nil.1 hnil)
    rw [ancestors_of_ne hne, ih, components_parent h, List.length_dropLast,
      Nat.sub_add_cancel hpos]
    rfl

theorem getLast?_ancestors (h : IsNormal p) : (ancestors p).getLast? = some "." := by
  induction p, h using IsNormal.induction with
  | root =>
    rw [ancestors_root]
    rfl
  | below p _ hne ih =>
    rw [ancestors_of_ne hne, List.getLast?_cons, ih]
    rfl

theorem pairwise_ancestors (h : IsNormal p) :
    (ancestors p).Pairwise fun x y => contains y x = true := by
  induction p, h using IsNormal.induction with
  | root =>
    rw [ancestors_root]
    exact List.pairwise_singleton _ _
  | below p _ hne ih =>
    rw [ancestors_of_ne hne]
    apply List.Pairwise.cons _ ih
    intro y hy
    exact contains_of_covers_contains (mem_ancestors.1 hy) (contains_parent hne)

/-! ### Containment on bytes -/

theorem contains_iff_append (h : a ≠ ".") :
    contains a b = true ↔ ∃ rest : String, b = a ++ "/" ++ rest := by
  rw [contains_dir h]
  constructor
  · rintro ⟨rest, hrest⟩
    refine ⟨String.ofList rest, ?_⟩
    rw [← String.toList_inj, hrest]
    simp
  · rintro ⟨rest, rfl⟩
    exact ⟨rest.toList, by simp⟩

theorem isValidUTF8_of_append (cs : List Char) {rest : ByteArray}
    (h : (cs.utf8Encode ++ rest).IsValidUTF8) : rest.IsValidUTF8 := by
  induction cs with
  | nil => simpa using h
  | cons c cs ih =>
    rw [← List.singleton_append (l := cs), List.utf8Encode_append, ByteArray.append_assoc,
      ByteArray.isValidUTF8_utf8Encode_singleton_append_iff] at h
    exact ih h

/-- Bytes that begin with those of a whole text go on at a whole character. -/
theorem exists_append_of_bytes {rest : ByteArray} (h : b.toUTF8 = a.toUTF8 ++ rest) :
    ∃ r : String, b = a ++ r := by
  have ha : a.toUTF8 = a.toList.utf8Encode := by
    rw [String.toUTF8_eq_toByteArray, ← String.toByteArray_ofList, String.ofList_toList]
  have hrest : rest.IsValidUTF8 := by
    apply isValidUTF8_of_append a.toList
    rw [← ha, ← h]
    exact b.isValidUTF8
  refine ⟨String.ofByteArray rest hrest, ?_⟩
  rw [← String.toByteArray_inj, String.toByteArray_append]
  exact h

theorem toUTF8_slash : "/".toUTF8 = ⟨#[47]⟩ := by decide

/-- A longer path whose bytes begin with those of a directory lies in it if a slash follows. -/
theorem contains_iff_bytes (h : a ≠ ".") :
    contains a b = true ↔ a.utf8ByteSize < b.utf8ByteSize ∧
      (∃ rest, b.toUTF8 = a.toUTF8 ++ rest) ∧ b.toUTF8.data[a.utf8ByteSize]? = some 47 := by
  have hsize : a.utf8ByteSize = a.toUTF8.data.size := rfl
  rw [contains_iff_append h]
  constructor
  · rintro ⟨r, rfl⟩
    have hbytes : (a ++ "/" ++ r).toUTF8 = a.toUTF8 ++ ("/".toUTF8 ++ r.toUTF8) := by
      simp only [String.toUTF8_eq_toByteArray, String.toByteArray_append, ByteArray.append_assoc]
    have hslash : "/".utf8ByteSize = 1 := by decide
    refine ⟨?_, ⟨_, hbytes⟩, ?_⟩
    · rw [String.utf8ByteSize_append, String.utf8ByteSize_append, hslash]
      omega
    · rw [hbytes, ByteArray.data_append, ByteArray.data_append, toUTF8_slash, hsize,
        Array.getElem?_append_right (Nat.le_refl _), Nat.sub_self,
        Array.getElem?_append_left (by decide)]
      rfl
  · rintro ⟨_, ⟨rest, hrest⟩, hslash⟩
    rw [hrest, ByteArray.data_append, hsize, Array.getElem?_append_right (Nat.le_refl _),
      Nat.sub_self, ← Array.getElem?_toList] at hslash
    have hcut : rest = "/".toUTF8 ++ ⟨rest.data.toList.tail.toArray⟩ := by
      apply ByteArray.ext
      apply Array.ext'
      rw [toUTF8_slash, ByteArray.data_append]
      cases hlist : rest.data.toList with
      | nil => simp [hlist] at hslash
      | cons x xs =>
        have hx : x = 47 := by simpa [hlist] using hslash
        simp [hx]
    have hdir : (a ++ "/").toUTF8 = a.toUTF8 ++ "/".toUTF8 := String.toByteArray_append
    have hwhole : b.toUTF8 = (a ++ "/").toUTF8 ++ ⟨rest.data.toList.tail.toArray⟩ := by
      rw [hrest, hdir, ByteArray.append_assoc, ← hcut]
    exact exists_append_of_bytes hwhole

/-! ### Containment as an order -/

theorem contains_iff_components (ha : IsNormal a) (hb : IsNormal b) :
    contains a b = true ↔ components a <+: components b ∧ components a ≠ components b := by
  rw [contains_iff, covers_iff_components ha hb]
  exact and_congr_right fun _ => not_congr ⟨congrArg components, components_inj⟩

theorem contains_trans (hab : contains a b = true) (hbc : contains b c = true) :
    contains a c = true :=
  contains_of_contains_covers hab (covers_of_contains hbc)

/-- Of two different paths around one path, one lies in the other. -/
theorem contains_chain (hac : contains a c = true) (hbc : contains b c = true) :
    a = b ∨ contains a b = true ∨ contains b a = true := by
  rcases contains_or_covers (covers_of_contains hac) (covers_of_contains hbc) with h | h
  · exact .inr (.inl h)
  · rcases covers_iff.1 h with heq | h
    · exact .inl heq.symm
    · exact .inr (.inr h)

theorem exists_relative_iff (ha : IsNormal a) (hb : IsNormal b) :
    (∃ q, relative a b = .ok q) ↔ covers a b = true := by
  constructor
  · rintro ⟨q, h⟩
    obtain ⟨hq, rfl⟩ := (relative_eq_ok ha hb).1 h
    exact covers_join ha hq
  · intro h
    obtain ⟨r, hr, rfl⟩ := exists_join ha hb h
    exact ⟨r, relative_join ha hr⟩

/-- To contain is to be a proper beginning, name by name. It is a strict order in which the paths
around a path are a chain, and they are listed from the path up to the root. What is seen from
a path and what is joined to it undo each other, and a path is seen just from those that it
is or lies in. -/
theorem containment_laws {r : String} (ha : IsNormal a) (hb : IsNormal b) (hr : IsNormal r)
    (set : List String) :
    (contains a b = true ↔ components a <+: components b ∧ components a ≠ components b) ∧
      contains a a = false ∧
      (contains a b = true → contains b c = true → contains a c = true) ∧
      (contains a c = true → contains b c = true →
        a = b ∨ contains a b = true ∨ contains b a = true) ∧
      relative a (join a r) = .ok r ∧
      ((∃ q, relative a b = .ok q) ↔ a = b ∨ contains a b = true) ∧
      (∀ q, relative a b = .ok q → IsNormal q ∧ join a q = b) ∧
      (∀ p, p ∈ ancestors b ↔ p = b ∨ contains p b = true) ∧
      (ancestors b).Pairwise (fun x y => contains y x = true) ∧
      ancestors b = List.iterate parent b ((components b).length + 1) ∧
      (ancestors b).getLast? = some "." ∧
      (coveredBy set b = true ↔ ∃ p ∈ set, p = b ∨ contains p b = true) := by
  refine ⟨contains_iff_components ha hb, not_contains_self a, contains_trans, contains_chain,
    relative_join ha hr, ?_, ?_, ?_, pairwise_ancestors hb, ancestors_eq_iterate hb,
    getLast?_ancestors hb, ?_⟩
  · rw [exists_relative_iff ha hb, covers_iff]
  · intro q h
    obtain ⟨hq, heq⟩ := (relative_eq_ok ha hb).1 h
    exact ⟨hq, heq.symm⟩
  · intro p
    rw [mem_ancestors, covers_iff]
  · simp only [coveredBy_iff, covers_iff]

theorem containment_laws_nested :
    IsNormal "a/b" ∧ IsNormal "a/b/c/d" ∧ IsNormal "c/d" ∧ contains "a/b" "a/b/c/d" = true ∧
      relative "a/b" (join "a/b" "c/d") = .ok "c/d" ∧ contains "a/b" "a/b" = false ∧
      "a" ∈ ancestors "a/b/c/d" ∧ coveredBy ["x", "a"] "a/b/c/d" = true := by
  have ha : IsNormal "a/b" := by decide
  have hb : IsNormal "a/b/c/d" := by decide
  have hr : IsNormal "c/d" := by decide
  obtain ⟨hcontains, hself, _, _, hjoin, _, _, haround, _, _, _, hcovered⟩ :=
    containment_laws (c := ".") ha hb hr ["x", "a"]
  refine ⟨ha, hb, hr, hcontains.2 (by decide), hjoin, hself, (haround "a").2 (by decide),
    hcovered.2 ⟨"a", ?_, ?_⟩⟩
  · decide
  · decide

example : ancestors "a/b/c" = ["a/b/c", "a/b", "a", "."] := by
  rw [ancestors_eq_iterate (by decide)]
  decide

end Schemata.Path

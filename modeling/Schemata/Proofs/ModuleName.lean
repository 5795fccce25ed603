import Schemata.ModuleName

/-!
# Names are read back from their texts

A component of a module name holds no slash, and a commit ID is its own text.
-/

namespace Schemata

namespace ModuleName

theorem slash_not_mem {s : String} (h : isNameComponent s = true) : '/' ∉ s.toList := by
  intro hmem
  simp only [isNameComponent, Bool.and_eq_true, Bool.not_eq_true'] at h
  have hforbidden := List.any_eq_false.1 h.2 '/' hmem
  exact hforbidden (by decide)

theorem components_mem (n : ModuleName) :
    ∀ s ∈ [n.registry, n.owner, n.name], isNameComponent s = true :=
  List.all_eq_true.1 n.components_ok

theorem checkComponents_eq_ok {value : String} {cs : List String}
    (h : cs.all isNameComponent = true) : checkComponents value cs = .ok () := by
  induction cs with
  | nil => rfl
  | cons c cs ih =>
    rw [List.all_cons, Bool.and_eq_true] at h
    obtain ⟨hc, hcs⟩ := h
    simp only [isNameComponent, Bool.and_eq_true, Bool.not_eq_true'] at hc
    rw [checkComponents, hc.1, hc.2]
    exact ih hcs

theorem ofComponents_self (n : ModuleName) : ofComponents n.registry n.owner n.name = .ok n := by
  unfold ofComponents
  split
  · rfl
  · rename_i e he
    rw [checkComponents_eq_ok n.components_ok] at he
    cases he

/-- Parts without slashes are the pieces of what they are joined to. -/
theorem pieces_joined_of_no_slash {parts : List String} (hne : parts ≠ [])
    (h : ∀ part ∈ parts, '/' ∉ part.toList) :
    Text.pieces '/' (Text.joined '/' parts) = parts := by
  unfold Text.pieces Text.joined
  rw [String.toList_ofList, List.splitOn_intercalate]
  · rw [List.map_map]
    have hid : String.ofList ∘ String.toList = id := funext fun s => String.ofList_toList
    rw [hid, List.map_id]
  · intro cs hcs
    obtain ⟨part, hpart, rfl⟩ := List.mem_map.1 hcs
    exact h part hpart
  · exact mt List.map_eq_nil_iff.1 hne

theorem text_eq_joined (n : ModuleName) :
    n.text = Text.joined '/' [n.registry, n.owner, n.name] := by
  refine String.toList_inj.1 ?_
  simp [text, render, Text.joined, List.intercalate]

theorem parse_text (n : ModuleName) : parse n.text = .ok n := by
  have hpieces : Text.pieces '/' n.text = [n.registry, n.owner, n.name] := by
    rw [text_eq_joined]
    exact pieces_joined_of_no_slash (by simp) fun s hs => slash_not_mem (components_mem n s hs)
  unfold parse
  rw [hpieces]
  exact ofComponents_self n

theorem text_injective : Function.Injective text := by
  intro n n' h
  have hparse := n.parse_text
  rw [h, n'.parse_text] at hparse
  exact (Except.ok.inj hparse).symm

theorem key_injective : Function.Injective key := by
  rintro ⟨_, _, _, _⟩ ⟨_, _, _, _⟩ h
  simp only [key, List.cons.injEq, and_true] at h
  obtain ⟨rfl, rfl, rfl⟩ := h
  rfl

/-- No character that is forbidden in components stands in a name, apart from the slashes. -/
theorem not_mem_text {c : Char} (hforbidden : isNameForbidden c = true) (hslash : c ≠ '/')
    (n : ModuleName) : c ∉ n.text.toList := by
  have hcomponent {s : String} (h : isNameComponent s = true) : c ∉ s.toList := by
    intro hmem
    simp only [isNameComponent, Bool.and_eq_true, Bool.not_eq_true'] at h
    exact List.any_eq_false.1 h.2 c hmem hforbidden
  have hall := components_mem n
  simp only [List.forall_mem_cons] at hall
  obtain ⟨hregistry, howner, hname, _⟩ := hall
  simp [text, render, hcomponent hregistry, hcomponent howner, hcomponent hname, hslash]

end ModuleName

namespace CommitId

theorem text_injective : Function.Injective text := by
  rintro ⟨text, _⟩ ⟨_, _⟩ rfl
  rfl

theorem parse_text (id : CommitId) : parse id.text = .ok id := by
  unfold parse
  exact dif_pos id.ok

theorem not_mem_text {c : Char} (h : isLowerHex c = false) (id : CommitId) :
    c ∉ id.text.toList := by
  intro hmem
  have hok := id.ok
  simp only [isCommitId, Bool.and_eq_true] at hok
  rw [List.all_eq_true.1 hok.2 c hmem] at h
  cases h

end CommitId

end Schemata

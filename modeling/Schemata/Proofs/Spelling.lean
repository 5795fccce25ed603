import Schemata.Proofs.Digest.Encoding
import Schemata.Proofs.Except
import Schemata.Proofs.ModuleName

/-!
# Names and digests have one spelling

What is read as a name, a commit, a hash, a digest or a reference is the text of what is read. So
no value has a second spelling. A reference is cut at its first colon, and no module name
holds one, so labels may hold colons and slashes; but no label is empty.
-/

namespace Schemata

open Text

/-- Whether some values and the texts that are read match one to one. -/
structure SpelledOnce {ε α : Type} (values : α → Prop) (text : α → String)
    (parse : String → Except ε α) : Prop where
  readBack : ∀ x, values x → parse (text x) = .ok x
  asWritten : ∀ s x, parse s = .ok x → text x = s
  once : ∀ s t x, parse s = .ok x → parse t = .ok x → s = t

theorem spelledOnce_of {ε α : Type} {values : α → Prop} {text : α → String}
    {parse : String → Except ε α} (hread : ∀ x, values x → parse (text x) = .ok x)
    (hwritten : ∀ {s x}, parse s = .ok x → text x = s) : SpelledOnce values text parse := by
  constructor
  case readBack => exact hread
  case asWritten => exact fun s x => hwritten
  case once =>
    intro s t x hs ht
    rw [← hwritten hs, hwritten ht]

/-! ### Module names -/

namespace ModuleName

theorem text_of_ofComponents {registry owner name : String} {n : ModuleName}
    (h : ofComponents registry owner name = .ok n) :
    n.text = joined '/' [registry, owner, name] := by
  unfold ofComponents at h
  split at h
  · cases h
    exact text_eq_joined _
  · cases h

theorem text_of_parse {s : String} {n : ModuleName} (h : parse s = .ok n) : n.text = s := by
  unfold parse at h
  split at h
  · rename_i registry owner name hpieces
    rw [text_of_ofComponents h, ← hpieces, joined_pieces]
  · cases h

end ModuleName

theorem CommitId.text_of_parse {s : String} {id : CommitId} (h : parse s = .ok id) :
    id.text = s := by
  unfold parse at h
  split at h
  · cases h
    rfl
  · cases h

/-! ### Hashes -/

namespace ContentHash

theorem hexDigit_of_hexValue? {c : Char} {n : Nat} (h : hexValue? c = some n) :
    n < 16 ∧ hexDigit n = c := by
  unfold hexValue? at h
  split at h
  · rename_i hc
    obtain ⟨hlow, hhigh⟩ := hc
    have hlow' : 48 ≤ c.toNat := Char.le_def.1 hlow
    have hhigh' : c.toNat ≤ 57 := Char.le_def.1 hhigh
    cases h
    refine ⟨by omega, ?_⟩
    rw [hexDigit, if_pos (by omega), Nat.sub_add_cancel hlow', Char.ofNat_toNat]
  · split at h
    · rename_i hc
      obtain ⟨hlow, hhigh⟩ := hc
      have hlow' : 97 ≤ c.toNat := Char.le_def.1 hlow
      have hhigh' : c.toNat ≤ 102 := Char.le_def.1 hhigh
      cases h
      refine ⟨by omega, ?_⟩
      rw [hexDigit, if_neg (by omega), Nat.sub_add_cancel (by omega), Char.ofNat_toNat]
    · cases h

theorem encodeHex_of_decodeHex? {cs : List Char} {bytes : List UInt8}
    (h : decodeHex? cs = some bytes) : encodeHex bytes = cs := by
  fun_induction decodeHex? cs generalizing bytes with
  | case1 =>
    cases h
    rfl
  | case2 => cases h
  | case3 hi lo rest ih =>
    simp only [Option.bind_eq_bind, Option.bind_eq_some_iff, Option.pure_def,
      Option.some.injEq] at h
    obtain ⟨high, hhigh, low, hlow, tail, htail, rfl⟩ := h
    obtain ⟨hhigh16, hhi⟩ := hexDigit_of_hexValue? hhigh
    obtain ⟨hlow16, hlo⟩ := hexDigit_of_hexValue? hlow
    have hbyte : (UInt8.ofNat (high * 16 + low)).toNat = high * 16 + low := by
      rw [UInt8.toNat_ofNat']
      omega
    have hdiv : (high * 16 + low) / 16 = high := by omega
    have hmod : (high * 16 + low) % 16 = low := by omega
    show hexDigit _ :: hexDigit _ :: encodeHex tail = _
    rw [hbyte, hdiv, hmod, hhi, hlo, ih htail]

theorem text_of_parse {s : String} {x : ContentHash} (h : parse s = .ok x) : x.text = s := by
  unfold parse at h
  split at h
  · cases h
  split at h
  · cases h
  · rename_i bytes hbytes
    split at h
    · cases h
      rw [text, encodeHex_of_decodeHex? hbytes, String.ofList_toList]
    · cases h

end ContentHash

/-! ### Digests -/

theorem DigestType.text_of_ofText? {s : String} {t : DigestType} (h : ofText? s = some t) :
    t.text = s := by
  unfold ofText? at h
  split at h
  all_goals cases h
  all_goals rfl

namespace Digest

theorem text_of_parseType {s : String} {t : DigestType} (h : parseType s = .ok t) : t.text = s := by
  unfold parseType at h
  split at h
  · rename_i found hfound
    cases h
    exact DigestType.text_of_ofText? hfound
  · cases h

theorem text_of_read {s : String} {x : ContentHash} (h : ContentHash.read s = .ok x) :
    x.text = s := by
  unfold ContentHash.read at h
  split at h
  · rename_i found hfound
    cases h
    exact ContentHash.text_of_parse hfound
  · cases h

theorem text_of_parse {s : String} {d : Digest} (h : parse s = .ok d) : d.text = s := by
  unfold parse at h
  split at h
  · cases h
  · rename_i type hash hcut
    obtain ⟨t, ht, h⟩ := bind_eq_ok.1 h
    obtain ⟨x, hx, h⟩ := bind_eq_ok.1 h
    cases h
    rw [← String.toList_inj, toList_text, text_of_parseType ht, text_of_read hx,
      String.toList_ofList, String.toList_ofList]
    exact (cutFirst_eq_some.1 hcut).1.symm

end Digest

/-! ### References -/

namespace ModuleRef

theorem toList_text_of_some (n : ModuleName) (reference : String) :
    (text ⟨n, some reference⟩).toList = n.text.toList ++ ':' :: reference.toList := by
  simp [text]

theorem parse_text {r : ModuleRef} (h : r.reference ≠ some "") : parse r.text = .ok r := by
  obtain ⟨n, reference⟩ := r
  have hcolon : ':' ∉ n.text.toList := n.not_mem_text (by decide) (by decide)
  cases reference with
  | none =>
    have hcut : cutFirst ':' n.text.toList = none := cutFirst_eq_none.2 hcolon
    show parse n.text = _
    unfold parse
    rw [hcut]
    simp only [n.parse_text]
    rfl
  | some reference =>
    have hcut : cutFirst ':' (text ⟨n, some reference⟩).toList =
        some (n.text.toList, reference.toList) :=
      cutFirst_eq_some.2 ⟨toList_text_of_some n reference, hcolon⟩
    have hne : reference.toList ≠ [] := by
      intro hnil
      exact h (congrArg some (String.toList_eq_nil_iff.1 hnil))
    unfold parse
    rw [hcut]
    split
    · rename_i heq
      cases heq
    · rename_i heq
      exact absurd (Prod.mk.inj (Option.some.inj heq)).2 hne
    · rename_i name label _ heq
      cases heq
      simp only [String.ofList_toList, n.parse_text]
      rfl

theorem of_parse {s : String} {r : ModuleRef} (h : parse s = .ok r) :
    r.text = s ∧ r.reference ≠ some "" := by
  unfold parse at h
  split at h
  · obtain ⟨n, hn, h⟩ := bind_eq_ok.1 h
    cases h
    exact ⟨ModuleName.text_of_parse hn, nofun⟩
  · cases h
  · rename_i name label hlabel hcut
    obtain ⟨n, hn, h⟩ := bind_eq_ok.1 h
    cases h
    constructor
    · rw [← String.toList_inj, toList_text_of_some, ModuleName.text_of_parse hn,
        String.toList_ofList, String.toList_ofList]
      exact (cutFirst_eq_some.1 hcut).1.symm
    · intro hempty
      have hnil : label = [] := by
        simpa using congrArg String.toList (Option.some.inj hempty)
      exact hlabel hnil

/-- The references that are read are those without an empty label. -/
theorem exists_parse_iff (r : ModuleRef) : (∃ s, parse s = .ok r) ↔ r.reference ≠ some "" := by
  constructor
  · rintro ⟨s, h⟩
    exact (of_parse h).2
  · intro h
    exact ⟨r.text, parse_text h⟩

end ModuleRef

/-- Module names, commits, hashes and digests are read back from their texts, and what is read is
the text of its value; so too the references that can be read, whatever their label holds. -/
theorem names_spelled_once :
    SpelledOnce (fun _ => True) ModuleName.text ModuleName.parse ∧
      SpelledOnce (fun _ => True) CommitId.text CommitId.parse ∧
      SpelledOnce (fun _ => True) ContentHash.text ContentHash.parse ∧
      SpelledOnce (fun _ => True) Digest.text Digest.parse ∧
      SpelledOnce (fun r => ∃ s, ModuleRef.parse s = .ok r) ModuleRef.text ModuleRef.parse := by
  refine ⟨?_, ?_, ?_, ?_, ?_⟩
  · exact spelledOnce_of (fun n _ => n.parse_text) ModuleName.text_of_parse
  · exact spelledOnce_of (fun id _ => id.parse_text) CommitId.text_of_parse
  · exact spelledOnce_of (fun h _ => h.parse_text) ContentHash.text_of_parse
  · exact spelledOnce_of (fun d _ => d.parse_text) Digest.text_of_parse
  · refine spelledOnce_of (fun r hr => ?_) fun h => (ModuleRef.of_parse h).1
    exact ModuleRef.parse_text ((ModuleRef.exists_parse_iff r).1 hr)

example : (ModuleRef.parse "r.com/acme/pets:a:b/c").toOption.map ModuleRef.reference =
    some (some "a:b/c") := by
  decide

end Schemata

import Mathlib.Logic.Function.Basic
import Schemata.ModuleName
import Schemata.Proofs.Digest.Members

/-!
# Nothing is lost in the texts that are hashed

The text of a manifest and the text behind a module digest can be read back. A hash has a fixed
width, whatever blanks and returns its path holds, and only the end of a line is a newline. So a
manifest's text tells its files, and a digest's text the manifest's hash and the set of the digests
of the dependencies, but nothing else of these.
-/

namespace Schemata

/-! ### Hashes -/

namespace ContentHash

theorem hexValue?_hexDigit {n : Nat} (h : n < 16) : hexValue? (hexDigit n) = some n := by
  revert n
  decide

theorem isLowerHex_hexDigit {n : Nat} (h : n < 16) : isLowerHex (hexDigit n) = true := by
  revert n
  decide

theorem digits_lt (b : UInt8) : b.toNat / 16 < 16 ∧ b.toNat % 16 < 16 := by
  have hb := b.toNat_lt
  omega

theorem decodeHex?_encodeHex (bytes : List UInt8) : decodeHex? (encodeHex bytes) = some bytes := by
  induction bytes with
  | nil => rfl
  | cons b bytes ih =>
    obtain ⟨hhigh, hlow⟩ := digits_lt b
    have hcons : encodeHex (b :: bytes) =
        hexDigit (b.toNat / 16) :: hexDigit (b.toNat % 16) :: encodeHex bytes := rfl
    rw [hcons, decodeHex?, hexValue?_hexDigit hhigh, hexValue?_hexDigit hlow, ih]
    simp only [Option.bind_eq_bind, Option.bind_some, Nat.div_add_mod', UInt8.ofNat_toNat]
    rfl

theorem length_encodeHex (bytes : List UInt8) : (encodeHex bytes).length = 2 * bytes.length := by
  induction bytes with
  | nil => rfl
  | cons b bytes ih =>
    have hcons : (encodeHex (b :: bytes)).length = (encodeHex bytes).length + 2 := rfl
    rw [hcons, ih, List.length_cons]
    omega

theorem isLowerHex_of_mem_encodeHex {bytes : List UInt8} {c : Char} (h : c ∈ encodeHex bytes) :
    isLowerHex c = true := by
  obtain ⟨b, _, hb⟩ := List.mem_flatMap.1 h
  obtain ⟨hhigh, hlow⟩ := digits_lt b
  simp only [List.mem_cons, List.not_mem_nil, or_false] at hb
  rcases hb with rfl | rfl
  · exact isLowerHex_hexDigit hhigh
  · exact isLowerHex_hexDigit hlow

theorem newline_not_mem_encodeHex (bytes : List UInt8) : '\n' ∉ encodeHex bytes :=
  fun hmem => absurd (isLowerHex_of_mem_encodeHex hmem) (by decide)

theorem toList_text (h : ContentHash) : h.text.toList = encodeHex h.bytes := String.toList_ofList

theorem length_text (h : ContentHash) : h.text.toList.length = 64 := by
  rw [toList_text, length_encodeHex, h.length_eq]

theorem newline_not_mem_text (h : ContentHash) : '\n' ∉ h.text.toList := by
  rw [toList_text]
  exact newline_not_mem_encodeHex h.bytes

theorem utf8Size_hexDigit {n : Nat} (h : n < 16) : (hexDigit n).utf8Size = 1 := by
  revert n
  decide

theorem utf8ByteSize_text (h : ContentHash) : h.text.utf8ByteSize = 64 := by
  have hsize (bytes : List UInt8) :
      (String.ofList (encodeHex bytes)).utf8ByteSize = 2 * bytes.length := by
    induction bytes with
    | nil => rfl
    | cons b bytes ih =>
      obtain ⟨hhigh, hlow⟩ := digits_lt b
      have hcons : encodeHex (b :: bytes) =
          hexDigit (b.toNat / 16) :: hexDigit (b.toNat % 16) :: encodeHex bytes := rfl
      rw [hcons, String.ofList_cons, String.ofList_cons, String.utf8ByteSize_append,
        String.utf8ByteSize_append, ih, String.utf8ByteSize_singleton,
        String.utf8ByteSize_singleton, utf8Size_hexDigit hhigh, utf8Size_hexDigit hlow,
        List.length_cons]
      omega
  rw [text, hsize, h.length_eq]

theorem parse_text (h : ContentHash) : parse h.text = .ok h := by
  unfold parse
  rw [if_neg (not_not_intro h.utf8ByteSize_text), toList_text, decodeHex?_encodeHex]
  exact dif_pos h.length_eq

theorem text_injective : Function.Injective text := by
  intro h h' heq
  have hchars : encodeHex h.bytes = encodeHex h'.bytes := by
    rw [← toList_text, ← toList_text, heq]
  have hbytes : some h.bytes = some h'.bytes := by
    rw [← decodeHex?_encodeHex, ← decodeHex?_encodeHex, hchars]
  cases h
  cases h'
  cases hbytes
  rfl

end ContentHash

/-! ### Lines -/

/-- Lines that hold no newline are told by their text. -/
theorem lines_inj {ls ls' : List (List Char)} (h : ∀ l ∈ ls, '\n' ∉ l) (h' : ∀ l ∈ ls', '\n' ∉ l)
    (heq : ls.flatMap (· ++ ['\n']) = ls'.flatMap (· ++ ['\n'])) : ls = ls' := by
  induction ls generalizing ls' with
  | nil =>
    cases ls' with
    | nil => rfl
    | cons l' ls' => simp at heq
  | cons l ls ih =>
    cases ls' with
    | nil => simp at heq
    | cons l' ls' =>
      simp only [List.flatMap_cons, List.append_assoc, List.singleton_append] at heq
      -- both lines end at the first newline of the same text
      have hcut : Text.cutFirst '\n' (l ++ '\n' :: ls.flatMap (· ++ ['\n'])) =
          some (l, ls.flatMap (· ++ ['\n'])) :=
        Text.cutFirst_eq_some.2 ⟨rfl, h l List.mem_cons_self⟩
      rw [Text.cutFirst_eq_some.2 ⟨heq, h' l' List.mem_cons_self⟩] at hcut
      obtain ⟨hfirst, hrest⟩ := Prod.mk.inj (Option.some.inj hcut)
      rw [hfirst, ih (fun l hl => h l (List.mem_cons_of_mem _ hl))
        (fun l hl => h' l (List.mem_cons_of_mem _ hl)) hrest.symm]

/-! ### Manifests -/

theorem FileNode.toList_line (n : FileNode) :
    n.line.toList = n.hash.text.toList ++ (' ' :: ' ' :: n.path.toList) := by
  simp [FileNode.line, String.toList_append]

theorem FileNode.line_injective : Function.Injective FileNode.line := by
  intro n n' heq
  have hchars : n.hash.text.toList ++ (' ' :: ' ' :: n.path.toList) =
      n'.hash.text.toList ++ (' ' :: ' ' :: n'.path.toList) := by
    rw [← toList_line, ← toList_line, heq]
  have hlength : n.hash.text.toList.length = n'.hash.text.toList.length := by
    rw [n.hash.length_text, n'.hash.length_text]
  obtain ⟨hhash, hpath⟩ := List.append_inj hchars hlength
  have hh : n.hash = n'.hash := ContentHash.text_injective (String.toList_inj.1 hhash)
  have hp : n.path = n'.path := String.toList_inj.1 (List.cons.inj (List.cons.inj hpath).2).2
  cases n
  cases n'
  cases hh
  cases hp
  rfl

theorem FileNode.newline_not_mem_line {n : FileNode} (h : '\n' ∉ n.path.toList) :
    '\n' ∉ n.line.toList := by
  rw [toList_line]
  simp [n.hash.newline_not_mem_text, h]

theorem toList_join_lines (texts : List String) :
    (String.join (texts.map (· ++ "\n"))).toList =
      (texts.map String.toList).flatMap (· ++ ['\n']) := by
  rw [String.toList_join, List.flatMap_map, List.flatMap_map]
  simp [String.toList_append]

theorem Manifest.toList_render (ns : List FileNode) :
    (render ns).toList = (ns.map fun n => n.line.toList).flatMap (· ++ ['\n']) := by
  have hlines : ns.map (fun n => n.line ++ "\n") = (ns.map FileNode.line).map (· ++ "\n") := by
    rw [List.map_map]
    rfl
  rw [render, hlines, toList_join_lines, List.map_map]
  rfl

/-- Files without a newline in their paths are told by the text of their manifest. -/
theorem Manifest.render_inj {ns ns' : List FileNode} (h : ∀ n ∈ ns, '\n' ∉ n.path.toList)
    (h' : ∀ n ∈ ns', '\n' ∉ n.path.toList) (heq : render ns = render ns') : ns = ns' := by
  have hchars := congrArg String.toList heq
  rw [toList_render, toList_render] at hchars
  have hlines : ns.map (fun n => n.line.toList) = ns'.map (fun n => n.line.toList) := by
    refine lines_inj ?_ ?_ hchars
    · intro l hl
      obtain ⟨n, hn, rfl⟩ := List.mem_map.1 hl
      exact FileNode.newline_not_mem_line (h n hn)
    · intro l hl
      obtain ⟨n, hn, rfl⟩ := List.mem_map.1 hl
      exact FileNode.newline_not_mem_line (h' n hn)
  refine List.map_injective_iff.2 (fun n n' hn => ?_) hlines
  exact FileNode.line_injective (String.toList_inj.1 hn)

/-! ### Module digests -/

theorem DigestType.length_text (t : DigestType) : t.text.toList.length = 2 := by
  cases t <;> rfl

namespace Digest

theorem toList_text (d : Digest) :
    d.text.toList = d.type.text.toList ++ (':' :: d.hash.text.toList) := by
  simp [text, String.toList_append]

theorem text_injective : Function.Injective text := by
  intro d d' heq
  have hchars : d.type.text.toList ++ (':' :: d.hash.text.toList) =
      d'.type.text.toList ++ (':' :: d'.hash.text.toList) := by
    rw [← toList_text, ← toList_text, heq]
  have hlength : d.type.text.toList.length = d'.type.text.toList.length := by
    rw [d.type.length_text, d'.type.length_text]
  obtain ⟨htype, hhash⟩ := List.append_inj hchars hlength
  have ht : some d.type = some d'.type := by
    rw [← DigestType.ofText?_text, ← DigestType.ofText?_text, String.toList_inj.1 htype]
  have hh : d.hash = d'.hash :=
    ContentHash.text_injective (String.toList_inj.1 (List.cons.inj hhash).2)
  cases d
  cases d'
  cases ht
  cases hh
  rfl

theorem newline_not_mem_text (d : Digest) : '\n' ∉ d.text.toList := by
  have htype : '\n' ∉ d.type.text.toList := by
    cases d.type <;> decide
  rw [toList_text]
  simp [htype, d.hash.newline_not_mem_text]

theorem parse_text (d : Digest) : parse d.text = .ok d := by
  have hcut : Text.cutFirst ':' d.text.toList = some (d.type.text.toList, d.hash.text.toList) := by
    refine Text.cutFirst_eq_some.2 ⟨toList_text d, ?_⟩
    cases d.type <;> decide
  unfold parse parseType ContentHash.read
  simp only [hcut, String.ofList_toList, DigestType.ofText?_text, ContentHash.parse_text]
  rfl

/-- The lines of the text behind a module digest. -/
def b5Lines (m : Manifest) (deps : List Digest) : List String :=
  ("files:" ++ m.hash.text) :: (sortedSet (deps.map text)).map ("dep:" ++ ·)

theorem b5Text_eq (m : Manifest) (deps : List Digest) :
    b5Text m deps = String.join ((b5Lines m deps).map (· ++ "\n")) := by
  apply String.toList_inj.1
  rw [b5Text, b5Lines, List.map_cons, List.map_map]
  simp only [String.toList_append, String.toList_join, List.flatMap_cons]
  rfl

theorem newline_not_mem_b5Lines {m : Manifest} {deps : List Digest} {l : String}
    (h : l ∈ b5Lines m deps) : '\n' ∉ l.toList := by
  rcases List.mem_cons.1 h with rfl | h
  · simp [String.toList_append, m.hash.newline_not_mem_text]
  · obtain ⟨t, ht, rfl⟩ := List.mem_map.1 h
    obtain ⟨d, _, rfl⟩ := List.mem_map.1 (mem_sortedSet.1 ht)
    simp [String.toList_append, d.newline_not_mem_text]

/-- The text behind a module digest tells the hash of the manifest and the set of the dependencies'
digests. -/
theorem b5Text_inj {m m' : Manifest} {deps deps' : List Digest}
    (heq : b5Text m deps = b5Text m' deps') :
    m.hash = m'.hash ∧ ∀ d, d ∈ deps ↔ d ∈ deps' := by
  have hchars := congrArg String.toList heq
  rw [b5Text_eq, b5Text_eq, toList_join_lines, toList_join_lines] at hchars
  have hlines : (b5Lines m deps).map String.toList = (b5Lines m' deps').map String.toList := by
    refine lines_inj ?_ ?_ hchars
    · intro l hl
      obtain ⟨t, ht, rfl⟩ := List.mem_map.1 hl
      exact newline_not_mem_b5Lines ht
    · intro l hl
      obtain ⟨t, ht, rfl⟩ := List.mem_map.1 hl
      exact newline_not_mem_b5Lines ht
  have htexts : b5Lines m deps = b5Lines m' deps' :=
    List.map_injective_iff.2 (fun _ _ => String.toList_inj.1) hlines
  obtain ⟨hfiles, hdeps⟩ := List.cons.inj htexts
  have happend {a b b' : String} (h : a ++ b = a ++ b') : b = b' := by
    have hlist := congrArg String.toList h
    rw [String.toList_append, String.toList_append] at hlist
    exact String.toList_inj.1 (List.append_cancel_left hlist)
  refine ⟨ContentHash.text_injective (happend hfiles), fun d => ?_⟩
  have hset : sortedSet (deps.map text) = sortedSet (deps'.map text) :=
    List.map_injective_iff.2 (fun _ _ => happend) hdeps
  have hmem : d.text ∈ deps.map text ↔ d.text ∈ deps'.map text := by
    rw [← mem_sortedSet, hset, mem_sortedSet]
  rwa [List.mem_map_of_injective text_injective, List.mem_map_of_injective text_injective] at hmem

end Digest

end Schemata

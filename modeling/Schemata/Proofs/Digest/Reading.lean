import Mathlib.Algebra.BigOperators.Group.List.Basic
import Mathlib.Algebra.Order.BigOperators.Group.List
import Mathlib.Algebra.Order.Group.Nat
import Schemata.Proofs.Digest.Commitment

/-!
# Manifests are read back

The text of a manifest holds one line for each file, and the reader takes the lines apart at the
same places: a hash has no blank, and no path has a newline. But a carriage return before a newline
belongs to the end of the line. So every path comes back but for a carriage return at its end, and
a manifest is read back just if no path of it ends in one.
-/

namespace Schemata

open Manifest (withoutReturn linesOf cutAtTwoBlanks readLine readLines)

variable {n : FileNode} {ns rs : List FileNode} {m : Manifest}

/-! ### Lines and their ends -/

namespace Manifest

theorem withoutReturn_append {front back : List Char} (h : front.getLast? ≠ some '\r') :
    withoutReturn (front ++ back) = front ++ withoutReturn back := by
  cases back with
  | nil => simp [withoutReturn, h]
  | cons c back =>
    have hne : c :: back ≠ [] := List.cons_ne_nil c back
    have hlast : (front ++ c :: back).getLast? = (c :: back).getLast? := by
      rw [List.getLast?_append, List.getLast?_eq_some_getLast hne]
      rfl
    unfold withoutReturn
    rw [hlast]
    split
    · exact List.dropLast_append_of_ne_nil hne
    · rfl

theorem withoutReturn_of_ne {line : List Char} (h : line.getLast? ≠ some '\r') :
    withoutReturn line = line := if_neg h

theorem length_withoutReturn_lt {line : List Char} (h : line.getLast? = some '\r') :
    (withoutReturn line).length < line.length := by
  have hne : line ≠ [] := fun hnil => by
    rw [hnil] at h
    cases h
  have hpos := List.length_pos_iff.2 hne
  rw [withoutReturn, if_pos h, List.length_dropLast]
  omega

/-- A text of ended lines is taken apart into them, each without the return at its end. -/
theorem linesOf_ended {ls : List (List Char)} (h : ∀ l ∈ ls, '\n' ∉ l) :
    linesOf (ls.flatMap (· ++ ['\n'])) = ls.map withoutReturn := by
  have hparts : (ls.flatMap (· ++ ['\n'])).splitOn '\n' = ls ++ [[]] := by
    induction ls with
    | nil => rfl
    | cons l ls ih =>
      rw [List.flatMap_cons, List.append_assoc, List.singleton_append,
        List.splitOn_append_cons_self, ih fun l hl => h l (List.mem_cons_of_mem _ hl),
        List.splitOn_eq_singleton (h l List.mem_cons_self)]
      rfl
  unfold linesOf
  simp only [hparts, List.dropLast_concat, List.getLast?_concat]
  exact List.append_nil _

theorem cutAtTwoBlanks_append {hash path : List Char} (h : ' ' ∉ hash) :
    cutAtTwoBlanks (hash ++ ' ' :: ' ' :: path) = some (hash, path) := by
  induction hash with
  | nil => rfl
  | cons c hash ih =>
    obtain ⟨hc, hhash⟩ := not_or.1 (List.mem_cons.not.1 h)
    have hcut : cutAtTwoBlanks (c :: (hash ++ ' ' :: ' ' :: path)) =
        (cutAtTwoBlanks (hash ++ ' ' :: ' ' :: path)).map fun p => (c :: p.1, p.2) := by
      rw [cutAtTwoBlanks]
      rintro rest rfl
      exact absurd rfl hc
    rw [List.cons_append, hcut, ih hhash]
    rfl

end Manifest

/-! ### Files -/

namespace FileNode

/-- A file as its line gives it back. -/
def readBack (n : FileNode) : FileNode := ⟨String.ofList (withoutReturn n.path.toList), n.hash⟩

theorem readBack_of_ne (h : n.path.toList.getLast? ≠ some '\r') : n.readBack = n := by
  rw [readBack, Manifest.withoutReturn_of_ne h, String.ofList_toList]

theorem length_readBack_lt (h : n.path.toList.getLast? = some '\r') :
    n.readBack.path.length < n.path.length := by
  rw [← String.length_toList, ← String.length_toList, readBack, String.toList_ofList]
  exact Manifest.length_withoutReturn_lt h

theorem length_readBack_le (n : FileNode) : n.readBack.path.length ≤ n.path.length := by
  by_cases h : n.path.toList.getLast? = some '\r'
  · exact Nat.le_of_lt (length_readBack_lt h)
  · exact Nat.le_of_eq (congrArg (String.length ∘ FileNode.path) (readBack_of_ne h))

end FileNode

namespace Manifest

theorem readLine_line (number : Nat) (n : FileNode) :
    readLine number (withoutReturn n.line.toList) = .ok (n.hash, n.readBack.path) := by
  have hblank : ' ' ∉ n.hash.text.toList := fun hmem => by
    rw [ContentHash.toList_text] at hmem
    exact absurd (ContentHash.isLowerHex_of_mem_encodeHex hmem) (by decide)
  have hline : n.line.toList = (n.hash.text.toList ++ [' ', ' ']) ++ n.path.toList := by
    rw [FileNode.toList_line, List.append_assoc]
    rfl
  have hlast : (n.hash.text.toList ++ [' ', ' ']).getLast? ≠ some '\r' := by
    rw [List.getLast?_append_of_ne_nil _ (List.cons_ne_nil _ _)]
    decide
  have hcut : cutAtTwoBlanks (withoutReturn n.line.toList) =
      some (n.hash.text.toList, withoutReturn n.path.toList) := by
    rw [hline, withoutReturn_append hlast, List.append_assoc]
    exact cutAtTwoBlanks_append hblank
  unfold readLine ContentHash.read
  simp only [hcut, String.ofList_toList, ContentHash.parse_text]
  rfl

/-- Each line that is accepted gives its file back, but for a return at the end of its path. -/
theorem eq_of_readLines {number : Nat} {seen : List String}
    (h : readLines number seen (ns.map fun n => withoutReturn n.line.toList) = .ok rs) :
    rs = ns.map FileNode.readBack := by
  induction ns generalizing number seen rs with
  | nil =>
    cases h
    rfl
  | cons n ns ih =>
    rw [List.map_cons, readLines] at h
    obtain ⟨_, hline, h⟩ := bind_eq_ok.1 h
    rw [readLine_line] at hline
    cases hline
    simp only at h
    split at h
    · cases h
    · obtain ⟨node, hnode, h⟩ := bind_eq_ok.1 h
      obtain ⟨rest, hrest, hrs⟩ := bind_eq_ok.1 h
      cases hrs
      rw [List.map_cons, (FileNode.ofPath_eq_ok.1 hnode).2, ih hrest]
      rfl

/-- Lines are accepted if what is left of their paths can be listed. -/
theorem readLines_lines {number : Nat} {seen : List String}
    (hread : ∀ n ∈ ns.map FileNode.readBack, FileNode.Holds n.path ∧ n.path ∉ seen)
    (hpaths : ((ns.map FileNode.readBack).map FileNode.path).Nodup) :
    readLines number seen (ns.map fun n => withoutReturn n.line.toList) =
      .ok (ns.map FileNode.readBack) := by
  induction ns generalizing number seen with
  | nil => rfl
  | cons n ns ih =>
    obtain ⟨⟨hholds, hseen⟩, hrest⟩ := List.forall_mem_cons.1 hread
    obtain ⟨hnew, hpaths⟩ := List.nodup_cons.1 hpaths
    have hreads := @ih (number + 1) (n.readBack.path :: seen)
      (fun x hx => ⟨(hrest x hx).1, fun hmem => ?_⟩) hpaths
    · have hnode : FileNode.ofPath n.readBack.path n.hash = .ok n.readBack :=
        FileNode.ofPath_eq_ok.2 ⟨hholds, rfl⟩
      rw [List.map_cons, List.map_cons, readLines, readLine_line]
      simp [hseen, hnode, hreads, bind, Except.bind, pure, Except.pure]
    · rcases List.mem_cons.1 hmem with heq | hmem
      · exact hnew (heq ▸ List.mem_map_of_mem hx)
      · exact (hrest x hx).2 hmem

/-- The nodes that a manifest finds are those that it was made of. -/
theorem get?_eq_some {path : String} (h : ofNodes ns = .ok m) :
    m.get? path = some n ↔ n ∈ ns ∧ n.path = path := by
  obtain ⟨hrise, rfl⟩ := ofNodes_eq_ok.1 h
  rw [get?, ← @mem_sortedBy _ FileNode.path ns n]
  exact find?_key_eq_some (nodup_of_pairwise_lt (List.pairwise_map.2 hrise))

theorem linesOf_text (h : ∀ n ∈ ns, '\n' ∉ n.path.toList) :
    linesOf (render ns).toList = ns.map fun n => withoutReturn n.line.toList := by
  rw [toList_render, linesOf_ended, List.map_map]
  · rfl
  · intro l hl
    obtain ⟨n, hn, rfl⟩ := List.mem_map.1 hl
    exact FileNode.newline_not_mem_line (h n hn)

/-- Files that come back in another order at most have no returns at the ends of their paths: a lost
return makes the paths shorter, taken together. -/
theorem getLast?_ne_of_perm (h : (ns.map FileNode.readBack).Perm ns) (hn : n ∈ ns) :
    n.path.toList.getLast? ≠ some '\r' := by
  intro hreturn
  have hlt : (ns.map fun n => n.readBack.path.length).sum < (ns.map fun n => n.path.length).sum :=
    List.sum_lt_sum _ _ (fun n _ => n.length_readBack_le) ⟨n, hn, FileNode.length_readBack_lt hreturn⟩
  have hsame := (h.map fun n => n.path.length).sum_eq
  rw [List.map_map] at hsame
  exact Nat.ne_of_lt hlt hsame

/-- The text of some files is read as the files without the returns at the ends of their paths. -/
theorem parse_render (hnewline : ∀ n ∈ ns, '\n' ∉ n.path.toList)
    (hholds : ∀ n ∈ ns.map FileNode.readBack, FileNode.Holds n.path)
    (hpaths : ((ns.map FileNode.readBack).map FileNode.path).Nodup) :
    parse (render ns) = ofNodes (ns.map FileNode.readBack) := by
  rw [parse, linesOf_text hnewline,
    readLines_lines (fun n hn => ⟨hholds n hn, List.not_mem_nil⟩) hpaths]
  rfl

/-- Files of different paths make a manifest, and it finds just these files. Its text is read back
as the same manifest if and only if no path ends in a carriage return. -/
theorem parse_text_eq_ok_iff (haccepted : ∀ n ∈ ns, FileNode.ofPath n.path n.hash = .ok n)
    (hpaths : (ns.map FileNode.path).Nodup) :
    ∃ m, ofNodes ns = .ok m ∧ (∀ path n, m.get? path = some n ↔ n ∈ ns ∧ n.path = path) ∧
      (parse m.text = .ok m ↔ ∀ n ∈ ns, n.path.toList.getLast? ≠ some '\r') := by
  have hsorted := pairwise_sortedBy FileNode.path ns
  have hnodup := nodup_of_pairwise_lt (pairwise_lt_sortedBy hpaths)
  have hrise := List.pairwise_map.1 (pairwise_lt_sortedBy hpaths)
  have hm : ofNodes ns = .ok ⟨sortedBy FileNode.path ns⟩ := ofNodes_eq_ok.2 ⟨hrise, rfl⟩
  have hholds : ∀ n ∈ sortedBy FileNode.path ns, FileNode.Holds n.path := fun n hn =>
    (FileNode.ofPath_eq_ok.1 (haccepted n (mem_sortedBy.1 hn))).1
  have hnewline : ∀ n ∈ sortedBy FileNode.path ns, '\n' ∉ n.path.toList :=
    fun n hn => (hholds n hn).1
  refine ⟨_, hm, fun path n => get?_eq_some hm, ?_, ?_⟩
  · intro hparse n hn
    rw [parse, text, linesOf_text hnewline] at hparse
    obtain ⟨rs, hread, hrs⟩ := bind_eq_ok.1 hparse
    rw [eq_of_readLines hread] at hrs
    have hback := Manifest.mk.inj (ofNodes_eq_ok.1 hrs).2
    exact getLast?_ne_of_perm (hback ▸ (sortedBy_perm FileNode.path _).symm) (mem_sortedBy.2 hn)
  · intro hends
    have hback : (sortedBy FileNode.path ns).map FileNode.readBack = sortedBy FileNode.path ns :=
      (List.map_congr_left fun n hn => FileNode.readBack_of_ne (hends n (mem_sortedBy.1 hn))).trans
        (List.map_id _)
    rw [text, parse_render hnewline (hback.symm ▸ hholds) (hback.symm ▸ hnodup), hback]
    exact ofNodes_eq_ok.2 ⟨by rwa [sortedBy_eq_self hsorted], congrArg _ (sortedBy_eq_self hsorted)⟩

/-- Files with blanks and returns inside their paths. -/
def spacedFiles : List FileNode :=
  [⟨"b  c\r/x y.schema", .ofText ""⟩, ⟨"a.schema", .ofText "message A \x7b\x7d"⟩]

theorem parse_text_spacedFiles :
    (∀ n ∈ spacedFiles, FileNode.ofPath n.path n.hash = .ok n) ∧
      (spacedFiles.map FileNode.path).Nodup ∧
      ∃ m, ofNodes spacedFiles = .ok m ∧ parse m.text = .ok m := by
  have haccepted : ∀ n ∈ spacedFiles, FileNode.ofPath n.path n.hash = .ok n := by
    have hholds : ∀ n ∈ spacedFiles, FileNode.Holds n.path := by decide
    exact fun n hn => FileNode.ofPath_eq_ok.2 ⟨hholds n hn, rfl⟩
  have hpaths : (spacedFiles.map FileNode.path).Nodup := by decide
  obtain ⟨m, hm, _, hparse⟩ := parse_text_eq_ok_iff haccepted hpaths
  exact ⟨haccepted, hpaths, m, hm, hparse.2 (by decide)⟩

/-- A path that ends in a carriage return is accepted, and comes back as another. -/
theorem parse_text_loses_return : ∃ m, FileNode.ofPath "a\r" (.ofText "") = .ok ⟨"a\r", .ofText ""⟩ ∧
    ofNodes [⟨"a\r", .ofText ""⟩] = .ok m ∧ parse m.text = .ok ⟨[⟨"a", .ofText ""⟩]⟩ ∧
      parse m.text ≠ .ok m := by
  have hm : ofNodes [⟨"a\r", .ofText ""⟩] = .ok ⟨[⟨"a\r", .ofText ""⟩]⟩ :=
    ofNodes_eq_ok.2 ⟨List.pairwise_singleton _ _, rfl⟩
  have hread : parse (render [⟨"a\r", .ofText ""⟩]) = .ok ⟨[⟨"a", .ofText ""⟩]⟩ := by
    rw [parse_render (by decide) (by decide) (by decide)]
    exact ofNodes_eq_ok.2 ⟨List.pairwise_singleton _ _, rfl⟩
  refine ⟨_, FileNode.ofPath_eq_ok.2 ⟨by decide, rfl⟩, hm, hread, fun hsame => ?_⟩
  rw [text, hread] at hsame
  exact absurd (congrArg (fun m => m.nodes.map FileNode.path) (Except.ok.inj hsame)) (by decide)

end Manifest

end Schemata

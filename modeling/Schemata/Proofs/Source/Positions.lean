import Mathlib.Data.List.DropRight
import Mathlib.Data.List.GetD
import Mathlib.Data.List.Induction
import Schemata.Source.Document

/-!
# Lines and columns of offsets

The starts of the lines of a text begin with zero and increase, so halving finds the one line that
an offset lies on: the first if there are no newlines before it, and one more for each. The column
counts the bytes from the start of the line. Later offsets have later positions, and spans
do not end before they start.
-/

namespace Schemata.Source

/-! ### Bytes -/

theorem toList_loop (bytes : ByteArray) (i : Nat) (taken : List UInt8) :
    ByteArray.toList.loop bytes i taken = taken.reverse ++ bytes.data.toList.drop i := by
  fun_induction ByteArray.toList.loop bytes i taken with
  | case1 i taken h ih =>
    have hi : i < bytes.data.toList.length := h
    have hget : bytes.get! i = bytes.data.toList[i] := by
      show bytes.data[i]! = _
      rw [getElem!_pos bytes.data i h, Array.getElem_toList]
    rw [ih, List.drop_eq_getElem_cons hi, hget, List.reverse_cons, List.append_assoc]
    rfl
  | case2 i taken h =>
    rw [List.drop_eq_nil_of_le (Nat.le_of_not_lt h), List.append_nil]

theorem length_toUTF8 (text : String) : text.toUTF8.toList.length = text.utf8ByteSize := by
  rw [ByteArray.toList, toList_loop]
  rfl

/-! ### Where lines start -/

theorem startsAfterNewlines_append (n : Nat) (bs cs : List UInt8) :
    startsAfterNewlines n (bs ++ cs) =
      startsAfterNewlines n bs ++ startsAfterNewlines (n + bs.length) cs := by
  induction bs generalizing n with
  | nil => rfl
  | cons b bs ih =>
    have hlength : n + 1 + bs.length = n + (b :: bs).length := by
      rw [List.length_cons]
      omega
    rw [List.cons_append, startsAfterNewlines, startsAfterNewlines, ih, hlength]
    split
    · rfl
    · rfl

theorem length_startsAfterNewlines (n : Nat) (bs : List UInt8) :
    (startsAfterNewlines n bs).length = bs.count 10 := by
  induction bs generalizing n with
  | nil => rfl
  | cons b bs ih =>
    rw [startsAfterNewlines, List.count_cons]
    by_cases hb : b = 10
    · simp [hb, ih]
    · simp [hb, ih]

theorem mem_startsAfterNewlines {n x : Nat} {bs : List UInt8} (h : x ∈ startsAfterNewlines n bs) :
    n < x ∧ x ≤ n + bs.length := by
  induction bs generalizing n with
  | nil => cases h
  | cons b bs ih =>
    rw [startsAfterNewlines] at h
    rw [List.length_cons]
    split at h
    · rcases List.mem_cons.1 h with rfl | h
      · omega
      · have hx := ih h
        omega
    · have hx := ih h
      omega

theorem pairwise_startsAfterNewlines (n : Nat) (bs : List UInt8) :
    (startsAfterNewlines n bs).Pairwise (· < ·) := by
  induction bs generalizing n with
  | nil => exact .nil
  | cons b bs ih =>
    rw [startsAfterNewlines]
    split
    · apply List.Pairwise.cons _ (ih (n + 1))
      intro x hx
      exact (mem_startsAfterNewlines hx).1
    · exact ih (n + 1)

/-- The last line starts after the last newline, and what follows is on it. -/
theorem getLast_starts (bs : List UInt8) :
    (0 :: startsAfterNewlines 0 bs).getLast (List.cons_ne_nil _ _) +
      (bs.rtakeWhile (· ≠ 10)).length = bs.length := by
  induction bs using List.reverseRecOn with
  | nil => rfl
  | append_singleton bs b ih =>
    by_cases hb : b = 10
    · have hstarts : startsAfterNewlines 0 (bs ++ [b]) =
          startsAfterNewlines 0 bs ++ [bs.length + 1] := by
        rw [startsAfterNewlines_append, Nat.zero_add]
        simp [startsAfterNewlines, hb]
      rw [List.getLast_congr _ (by simp) (congrArg _ hstarts),
        List.rtakeWhile_concat_neg _ _ _ (by simp [hb])]
      simp
    · have hstarts : startsAfterNewlines 0 (bs ++ [b]) = startsAfterNewlines 0 bs := by
        rw [startsAfterNewlines_append]
        simp [startsAfterNewlines, hb]
      rw [List.rtakeWhile_concat_pos _ _ _ (by simpa using hb)]
      simp only [hstarts, List.length_append, List.length_singleton]
      omega

namespace Document

/-! ### Halving -/

variable {starts : List Nat} {offset low high i : Nat}

/-- Whether an ordered list is below a number up to one index, and above it from another on. -/
structure Around (starts : List Nat) (offset low high : Nat) : Prop where
  low_le : low ≤ high
  high_le : high ≤ starts.length
  below : ∀ x ∈ starts.take low, x < offset
  above : ∀ x ∈ starts.drop high, offset < x

/-- Whether an index says where a number stands: at itself, or else between smaller and larger. -/
def StandsAt (starts : List Nat) (offset : Nat) : Except Nat Nat → Prop
  | .ok i => starts[i]? = some offset
  | .error i => Around starts offset i i

theorem around_all (starts : List Nat) (offset : Nat) : Around starts offset 0 starts.length := by
  constructor
  · exact Nat.zero_le _
  · exact Nat.le_refl _
  · simp
  · simp

theorem rel_of_ordered (hordered : starts.Pairwise (· < ·)) (hi : i < starts.length) :
    (∀ x ∈ starts.take i, x < starts[i]) ∧ ∀ x ∈ starts.drop (i + 1), starts[i] < x := by
  have hsplit : starts = starts.take i ++ starts[i] :: starts.drop (i + 1) := by
    rw [← List.drop_eq_getElem_cons hi, List.take_append_drop]
  rw [hsplit, List.pairwise_append] at hordered
  obtain ⟨_, hafter, hbefore⟩ := hordered
  constructor
  · intro x hx
    exact hbefore x hx _ List.mem_cons_self
  · intro x hx
    exact List.rel_of_pairwise_cons hafter hx

/-- What a look at the middle says of the rest. -/
theorem Around.middle (h : Around starts offset low high) (hlt : low < high)
    (hordered : starts.Pairwise (· < ·)) (hmiddle : i = (low + high) / 2) :
    starts[i]? = some (starts.getD i 0) ∧
      (offset < starts.getD i 0 → Around starts offset low i) ∧
      (starts.getD i 0 < offset → Around starts offset (i + 1) high) := by
  have hhigh := h.high_le
  have hi : i < starts.length := by omega
  have hget : starts.getD i 0 = starts[i] := List.getD_eq_getElem _ _ hi
  obtain ⟨hbefore, hafter⟩ := rel_of_ordered hordered hi
  rw [hget]
  refine ⟨List.getElem?_eq_getElem hi, ?_, ?_⟩
  · intro hless
    refine ⟨by omega, by omega, h.below, ?_⟩
    rw [List.drop_eq_getElem_cons hi, List.forall_mem_cons]
    exact ⟨hless, fun x hx => hless.trans (hafter x hx)⟩
  · intro hless
    refine ⟨by omega, hhigh, ?_, h.above⟩
    rw [← List.take_append_getElem hi, List.forall_mem_append]
    exact ⟨fun x hx => (hbefore x hx).trans hless, by simpa using hless⟩

theorem standsAt_searchBetween (hordered : starts.Pairwise (· < ·))
    (h : Around starts offset low high) :
    StandsAt starts offset (searchBetween starts offset low high) := by
  fun_induction searchBetween starts offset low high with
  | case1 low high hlt middle heq =>
    obtain ⟨hmiddle, _, _⟩ := h.middle hlt hordered rfl
    rw [Nat.compare_eq_eq] at heq
    exact hmiddle.trans (congrArg some heq.symm)
  | case2 low high hlt middle hless ih =>
    obtain ⟨_, hleft, _⟩ := h.middle hlt hordered rfl
    exact ih (hleft (Nat.compare_eq_lt.1 hless))
  | case3 low high hlt middle hgreater ih =>
    obtain ⟨_, _, hright⟩ := h.middle hlt hordered rfl
    exact ih (hright (Nat.compare_eq_gt.1 hgreater))
  | case4 low high hge =>
    have heq : high = low := by
      have hle := h.low_le
      omega
    exact heq ▸ h

theorem standsAt_search (hordered : starts.Pairwise (· < ·)) (offset : Nat) :
    StandsAt starts offset (search starts offset) :=
  standsAt_searchBetween hordered (around_all starts offset)

/-! ### The line of an offset -/

theorem countP_of_split {k : Nat} (hk : k ≤ starts.length)
    (hbefore : ∀ x ∈ starts.take k, x ≤ offset) (hafter : ∀ x ∈ starts.drop k, offset < x) :
    starts.countP (· ≤ offset) = k := by
  have htake : (starts.take k).countP (· ≤ offset) = k := by
    rw [List.countP_eq_length.2 fun x hx => decide_eq_true (hbefore x hx),
      List.length_take_of_le hk]
  have hdrop : (starts.drop k).countP (· ≤ offset) = 0 := by
    rw [List.countP_eq_zero]
    intro x hx
    have hlt := hafter x hx
    simp only [decide_eq_true_eq]
    omega
  rw [← List.take_append_drop k starts, List.countP_append, htake, hdrop]
  rfl

/-- There is a line before the place where an offset would start one. -/
theorem pos_of_search_eq_error (hordered : starts.Pairwise (· < ·)) (hzero : 0 ∈ starts)
    (h : search starts offset = .error i) : 0 < i := by
  have hstands := standsAt_search hordered offset
  rw [h] at hstands
  apply Nat.pos_of_ne_zero
  rintro rfl
  exact Nat.not_lt_zero _ (hstands.above 0 hzero)

/-- The lines that start at an offset or before it are those up to its own. -/
theorem lineIndex_spec (hordered : starts.Pairwise (· < ·)) (hzero : 0 ∈ starts) (offset : Nat) :
    lineIndex starts offset < starts.length ∧
      starts.getD (lineIndex starts offset) 0 ≤ offset ∧
      starts.countP (· ≤ offset) = lineIndex starts offset + 1 := by
  have hstands := standsAt_search hordered offset
  suffices h : lineIndex starts offset < starts.length ∧
      (∀ x ∈ starts.take (lineIndex starts offset + 1), x ≤ offset) ∧
      ∀ x ∈ starts.drop (lineIndex starts offset + 1), offset < x by
    obtain ⟨hindex, hbefore, hafter⟩ := h
    refine ⟨hindex, ?_, countP_of_split hindex hbefore hafter⟩
    rw [List.getD_eq_getElem _ _ hindex]
    apply hbefore
    rw [← List.take_append_getElem hindex]
    exact List.mem_concat_self
  unfold lineIndex
  cases hsearch : search starts offset with
  | ok i =>
    rw [hsearch] at hstands
    obtain ⟨hi, heq⟩ := List.getElem?_eq_some_iff.1 hstands
    obtain ⟨hbefore, hafter⟩ := rel_of_ordered hordered hi
    rw [heq] at hbefore hafter
    refine ⟨hi, ?_, hafter⟩
    show ∀ x ∈ starts.take (i + 1), x ≤ offset
    rw [← List.take_append_getElem hi, List.forall_mem_append]
    exact ⟨fun x hx => Nat.le_of_lt (hbefore x hx), by simp [heq]⟩
  | error i =>
    have hpos := pos_of_search_eq_error hordered hzero hsearch
    rw [hsearch] at hstands
    obtain ⟨_, hle, hbelow, habove⟩ := hstands
    show i - 1 < _ ∧ (∀ x ∈ starts.take (i - 1 + 1), _) ∧ ∀ x ∈ starts.drop (i - 1 + 1), _
    rw [Nat.sub_add_cancel hpos]
    exact ⟨by omega, fun x hx => Nat.le_of_lt (hbelow x hx), habove⟩

end Document

/-! ### Positions in a text -/

section Text

variable {text : String} {offset : Nat}

/-- The bytes of a text before an offset. -/
def bytesBefore (text : String) (offset : Nat) : List UInt8 := text.toUTF8.toList.take offset

theorem length_bytesBefore (h : offset ≤ text.utf8ByteSize) :
    (bytesBefore text offset).length = offset := by
  rw [bytesBefore, List.length_take_of_le (by rwa [length_toUTF8])]

theorem zero_mem_startsOfLines (text : String) : 0 ∈ startsOfLines text := List.mem_cons_self

theorem pairwise_startsOfLines (text : String) : (startsOfLines text).Pairwise (· < ·) := by
  apply List.Pairwise.cons _ (pairwise_startsAfterNewlines 0 _)
  intro x hx
  exact (mem_startsAfterNewlines hx).1

theorem le_of_mem_startsOfLines {x : Nat} (h : x ∈ startsOfLines text) :
    x ≤ text.utf8ByteSize := by
  rcases List.mem_cons.1 h with rfl | h
  · exact Nat.zero_le _
  · have hx := (mem_startsAfterNewlines h).2
    rwa [length_toUTF8, Nat.zero_add] at hx

/-- The lines that start at an offset or before it are told by the bytes before it. -/
theorem startsOfLines_split (h : offset ≤ text.utf8ByteSize) :
    startsOfLines text = (0 :: startsAfterNewlines 0 (bytesBefore text offset)) ++
      startsAfterNewlines offset (text.toUTF8.toList.drop offset) := by
  have happend := startsAfterNewlines_append 0 (bytesBefore text offset)
    (text.toUTF8.toList.drop offset)
  rw [length_bytesBefore h, Nat.zero_add, bytesBefore, List.take_append_drop] at happend
  rw [startsOfLines, happend]
  rfl

theorem countP_startsOfLines (h : offset ≤ text.utf8ByteSize) :
    (startsOfLines text).countP (· ≤ offset) = (bytesBefore text offset).count 10 + 1 := by
  have hbefore : ∀ x ∈ 0 :: startsAfterNewlines 0 (bytesBefore text offset), x ≤ offset := by
    rw [List.forall_mem_cons]
    refine ⟨Nat.zero_le _, fun x hx => ?_⟩
    have hle := (mem_startsAfterNewlines hx).2
    rwa [length_bytesBefore h, Nat.zero_add] at hle
  have hlength : (0 :: startsAfterNewlines 0 (bytesBefore text offset)).length =
      (bytesBefore text offset).count 10 + 1 := by
    rw [List.length_cons, length_startsAfterNewlines]
  rw [startsOfLines_split h, ← hlength]
  apply Document.countP_of_split
  · rw [List.length_append]
    exact Nat.le_add_right _ _
  · rwa [List.take_left]
  · rw [List.drop_left]
    exact fun x hx => (mem_startsAfterNewlines hx).1

theorem getD_startsOfLines (h : offset ≤ text.utf8ByteSize) :
    (startsOfLines text).getD ((bytesBefore text offset).count 10) 0 =
      (0 :: startsAfterNewlines 0 (bytesBefore text offset)).getLast (List.cons_ne_nil _ _) := by
  have hlt : (bytesBefore text offset).count 10 <
      (0 :: startsAfterNewlines 0 (bytesBefore text offset)).length := by
    rw [List.length_cons, length_startsAfterNewlines]
    exact Nat.lt_succ_self _
  rw [startsOfLines_split h, List.getD_append _ _ _ _ hlt, List.getD_eq_getElem _ _ hlt,
    List.getLast_eq_getElem]
  simp [length_startsAfterNewlines]

/-- The line counts the newlines before an offset, the column the bytes since the last of them. -/
theorem positionAmong_eq (h : offset ≤ text.utf8ByteSize) :
    Document.positionAmong (startsOfLines text) offset =
      ⟨1 + (bytesBefore text offset).count 10,
        1 + ((bytesBefore text offset).rtakeWhile (· ≠ 10)).length⟩ := by
  obtain ⟨_, _, hcount⟩ := Document.lineIndex_spec (pairwise_startsOfLines text)
    (zero_mem_startsOfLines text) offset
  have hindex : Document.lineIndex (startsOfLines text) offset =
      (bytesBefore text offset).count 10 := by
    rw [countP_startsOfLines h] at hcount
    omega
  have hlast := getLast_starts (bytesBefore text offset)
  rw [length_bytesBefore h, ← getD_startsOfLines h] at hlast
  simp only [Document.positionAmong, hindex, Position.mk.injEq]
  omega

end Text

/-! ### Reading order -/

/-- Whether a position comes before another, by line and then by column. -/
def Position.Before (p q : Position) : Prop :=
  p.line < q.line ∨ p.line = q.line ∧ p.column < q.column

instance (p q : Position) : Decidable (p.Before q) := inferInstanceAs (Decidable (_ ∨ _))

theorem Position.Before.trans {p q r : Position} (h : p.Before q) (h' : q.Before r) :
    p.Before r := by
  unfold Before at *
  omega

theorem Position.Before.ne {p q : Position} (h : p.Before q) : p ≠ q := by
  rintro rfl
  unfold Before at h
  omega

namespace Document

variable {d : Document} {o o' : Nat}

/-- The bytes of a document before an offset. -/
abbrev before (d : Document) (offset : Nat) : List UInt8 := bytesBefore d.text offset

theorem position_eq (h : o ≤ d.text.utf8ByteSize) :
    d.position o = ⟨1 + (d.before o).count 10, 1 + ((d.before o).rtakeWhile (· ≠ 10)).length⟩ := by
  rw [position, d.lineStarts_eq]
  exact positionAmong_eq h

/-- Each byte goes on by a column or to the next line. -/
theorem before_position_succ (h : o < d.text.utf8ByteSize) :
    (d.position o).Before (d.position (o + 1)) := by
  have hlt : o < d.text.toUTF8.toList.length := by rwa [length_toUTF8]
  have hnext : d.before (o + 1) = d.before o ++ [d.text.toUTF8.toList[o]] :=
    (List.take_append_getElem hlt).symm
  rw [position_eq (Nat.le_of_lt h), position_eq h, hnext]
  generalize d.text.toUTF8.toList[o] = b
  by_cases hnewline : b = 10
  · left
    simp [hnewline]
  · right
    rw [List.rtakeWhile_concat_pos _ _ _ (by simpa using hnewline)]
    simp [hnewline]

theorem before_position (hlt : o < o') (h : o' ≤ d.text.utf8ByteSize) :
    (d.position o).Before (d.position o') := by
  induction o', hlt using Nat.le_induction with
  | base => exact before_position_succ h
  | succ o' _ ih => exact (ih (by omega)).trans (before_position_succ h)

theorem position_inj (ho : o ≤ d.text.utf8ByteSize) (ho' : o' ≤ d.text.utf8ByteSize)
    (h : d.position o = d.position o') : o = o' := by
  rcases Nat.lt_trichotomy o o' with hlt | heq | hlt
  · exact absurd h (before_position hlt ho').ne
  · exact heq
  · exact absurd h.symm (before_position hlt ho).ne

theorem position_le (h : o ≤ d.text.utf8ByteSize) :
    (d.position o).line ≤ o + 1 ∧ (d.position o).column ≤ o + 1 := by
  have hlength : (d.before o).length = o := length_bytesBefore h
  have hcount : (d.before o).count 10 ≤ (d.before o).length := List.count_le_length
  have hline : ((d.before o).rtakeWhile (· ≠ 10)).length ≤ (d.before o).length :=
    (List.rtakeWhile_suffix _ _).length_le
  rw [position_eq h]
  constructor
  · show 1 + _ ≤ _
    omega
  · show 1 + _ ≤ _
    omega

theorem exists_place {ds : Documents} {s : Span} (hfile : ds.get? s.file = some d)
    (hspan : s.start ≤ s.stop) (hstop : s.stop ≤ d.text.utf8ByteSize) :
    ∃ p, ds.place? s = some p ∧ (p.first = p.last ∨ p.first.Before p.last) := by
  refine ⟨⟨d.path, d.external, d.position s.start, d.lastPosition s⟩, ?_, ?_⟩
  · simp [Documents.place?, hfile]
  · unfold lastPosition
    rcases Nat.eq_or_lt_of_le (Nat.le_max_right (s.stop - 1) s.start) with heq | hlt
    · exact .inl (congrArg d.position heq)
    · exact .inr (before_position hlt (by omega))

/-- The position of an offset in a text that 32 bits can measure counts the newlines before it and
the bytes since the last of them. Later offsets have later positions. The search never points
before the first line, the line found starts at the offset or before it, and the place of a
span ends where it starts or later. Its numbers are at most one more than the offset. -/
theorem positions_exact (d : Document) (hsize : d.text.utf8ByteSize < UInt32.size) :
    (∀ o ≤ d.text.utf8ByteSize, d.position o =
        ⟨1 + (d.before o).count 10, 1 + ((d.before o).rtakeWhile (· ≠ 10)).length⟩) ∧
      (∀ o o', o < o' → o' ≤ d.text.utf8ByteSize → (d.position o).Before (d.position o')) ∧
      (∀ o o', o ≤ d.text.utf8ByteSize → o' ≤ d.text.utf8ByteSize →
        d.position o = d.position o' → o = o') ∧
      (∀ start ∈ d.lineStarts, start < UInt32.size) ∧
      (∀ o, (∀ i, search d.lineStarts o = .error i → 0 < i) ∧
        lineIndex d.lineStarts o < d.lineStarts.length ∧
        d.lineStarts.getD (lineIndex d.lineStarts o) 0 ≤ o) ∧
      (∀ o ≤ d.text.utf8ByteSize, (d.position o).line ≤ o + 1 ∧ (d.position o).column ≤ o + 1) ∧
      ∀ (ds : Documents) (s : Span), ds.get? s.file = some d → s.start ≤ s.stop →
        s.stop ≤ d.text.utf8ByteSize →
        ∃ p, ds.place? s = some p ∧ (p.first = p.last ∨ p.first.Before p.last) := by
  have hordered : d.lineStarts.Pairwise (· < ·) := d.lineStarts_eq ▸ pairwise_startsOfLines d.text
  have hzero : 0 ∈ d.lineStarts := d.lineStarts_eq ▸ zero_mem_startsOfLines d.text
  refine ⟨fun o => position_eq, fun o o' => before_position, fun o o' => position_inj, ?_, ?_,
    fun o => position_le, fun ds s => exists_place⟩
  · intro start hstart
    rw [d.lineStarts_eq] at hstart
    exact (le_of_mem_startsOfLines hstart).trans_lt hsize
  · intro o
    obtain ⟨hindex, hstart, _⟩ := lineIndex_spec hordered hzero o
    exact ⟨fun i => pos_of_search_eq_error hordered hzero, hindex, hstart⟩

/-- A text of two lines, with a newline at its end. -/
def twoLines : Document := .ofText "pets.schema" "proto/pets.schema" "one\ntwo\n"

theorem positions_exact_twoLines :
    twoLines.text.utf8ByteSize < UInt32.size ∧ twoLines.position 3 = ⟨1, 4⟩ ∧
      twoLines.position 4 = ⟨2, 1⟩ ∧ twoLines.position 8 = ⟨3, 1⟩ ∧
      (twoLines.position 3).Before (twoLines.position 4) ∧
      ∃ p, Documents.place? [twoLines] ⟨0, 2, 8⟩ = some p ∧
        (p.first = p.last ∨ p.first.Before p.last) := by
  have hsize : twoLines.text.utf8ByteSize < UInt32.size := by decide
  obtain ⟨hposition, hlater, _, _, _, _, hplace⟩ := positions_exact twoLines hsize
  refine ⟨hsize, ?_, ?_, ?_, hlater 3 4 (by decide) (by decide), ?_⟩
  · rw [hposition 3 (by decide)]
    decide +kernel
  · rw [hposition 4 (by decide)]
    decide +kernel
  · rw [hposition 8 (by decide)]
    decide +kernel
  · exact hplace [twoLines] ⟨0, 2, 8⟩ rfl (by decide) (by decide)

end Document

end Schemata.Source

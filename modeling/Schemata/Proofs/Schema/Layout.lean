import Mathlib.Data.List.Chain
import Schemata.Proofs.Schema.Grammar

/-!
# Where tokens stand

The tokens of a text stand in it one after the other, each on whole characters, with nothing but
white space and comments between them, and the end of the file stands at the end of the text. A
literal that breaks off right after a backslash is the exception: it counts as one byte longer than
the text, and so the end of the file stands one byte behind the end.
-/

namespace Schemata.Schema

open Source

/-! ### What separates tokens -/

/-- Whether characters are white space and comments, where some others follow them. A line comment
goes up to the end of its line and a block comment up to its first end. Only at the end of a text
may that be missing. -/
inductive Blank : List Char → List Char → Prop
  | nil {rest : List Char} : Blank [] rest
  | space {c : Char} {cs rest : List Char} (hc : isSpace c = true) (h : Blank cs rest) :
      Blank (c :: cs) rest
  | line {comment cs rest : List Char} (hcomment : '\n' ∉ comment)
      (hend : ∀ c ∈ (cs ++ rest).head?, c = '\n') (h : Blank cs rest) :
      Blank ('/' :: '/' :: (comment ++ cs)) rest
  | block {comment cs rest : List Char} (hcomment : ¬ ['*', '/'] <:+: comment ++ ['*'])
      (h : Blank cs rest) : Blank ('/' :: '*' :: (comment ++ '*' :: '/' :: cs)) rest
  | unended {comment : List Char} (hcomment : ¬ ['*', '/'] <:+: comment) :
      Blank ('/' :: '*' :: comment) []

theorem Blank.append {gap gap' rest : List Char} (h : Blank gap (gap' ++ rest))
    (h' : Blank gap' rest) : Blank (gap ++ gap') rest := by
  generalize hrest : gap' ++ rest = following at h
  induction h with
  | nil => exact h'
  | space hc _ ih => exact .space hc (ih hrest)
  | @line comment cs _ hcomment hend _ ih =>
    subst hrest
    rw [List.cons_append, List.cons_append, List.append_assoc]
    exact .line hcomment (by rwa [List.append_assoc]) (ih rfl)
  | @block comment cs _ hcomment _ ih =>
    rw [List.cons_append, List.cons_append, List.append_assoc]
    exact .block hcomment (ih hrest)
  | unended hcomment =>
    obtain ⟨rfl, rfl⟩ := List.append_eq_nil_iff.1 hrest
    rw [List.append_nil]
    exact .unended hcomment

/-! ### Literals that break off -/

/-- Whether the characters after the quote of a literal end in a backslash that takes no character
along. -/
def leavesEscape : List Char → Bool
  | [] => false
  | ['\\'] => true
  | '\\' :: _ :: cs => leavesEscape cs
  | _ :: cs => leavesEscape cs

/-- Whether characters are a literal that breaks off right after a backslash. -/
def breaksOff : List Char → Bool
  | [] => false
  | c :: cs => isQuote c && leavesEscape cs

def Token.breaksOff (t : Token) : Bool := Schema.breaksOff t.text.toList

/-- By how many bytes tokens go beyond the end of their text. -/
def Lexed.excess (l : Lexed) : Nat := if l.tokens.any Token.breaksOff then 1 else 0

/-! ### Tokens in their text -/

/-- Whether only white space and comments lie between two offsets of characters that start at an
offset, or nothing at all. -/
def Apart (pos : Nat) (cs : List Char) (i j : Nat) : Prop :=
  i = j ∨ ∃ before gap after, cs = before ++ gap ++ after ∧ Blank gap after ∧
    i = pos + byteLength before ∧ j = i + byteLength gap

/-- Whether a token stands on characters that start at an offset: its text is a part of them, and
its span is where that part stands, but for a byte more where it breaks off, which it does only at
the end. -/
def Token.StandsIn (t : Token) (n : FileId) (pos : Nat) (cs : List Char) : Prop :=
  ∃ before after, cs = before ++ t.text.toList ++ after ∧ t.text.toList ≠ [] ∧
    t.span.file = n ∧ t.span.start = pos + byteLength before ∧
    (t.span.stop = t.span.start + byteLength t.text.toList + if t.breaksOff then 1 else 0) ∧
    (t.breaksOff = true → after = [])

/-- The token for the end of a file. -/
def endToken (n : FileId) (pos : Nat) : Token := ⟨.endOfFile, "", ⟨n, pos, pos⟩⟩

/-- Whether tokens and errors are laid out over characters that start at an offset. -/
structure LaidFrom (n : FileId) (pos : Nat) (cs : List Char) (l : Lexed) : Prop where
  ended : ∃ ts, l.tokens = ts ++ [endToken n (pos + byteLength cs + l.excess)] ∧
    ∀ t ∈ ts, t.kind ≠ .endOfFile
  stands : ∀ t ∈ l.tokens, t.kind ≠ .endOfFile → t.StandsIn n pos cs
  ordered : l.tokens.Pairwise fun t u => t.span.stop ≤ u.span.start
  opened : ∀ t ∈ l.tokens.head?, ∃ gap rest, cs = gap ++ rest ∧ Blank gap rest ∧
    t.span.start = pos + byteLength gap
  apart : l.tokens.IsChain fun t u => Apart pos cs t.span.stop u.span.start
  later : ∀ d ∈ l.errors, pos ≤ d.span.start
  flawed : ∀ t ∈ l.tokens, t.kind = .invalid → l.errors.countP (fun d => d.span = t.span) = 1

variable {n : FileId} {pos : Nat} {cs : List Char} {l : Lexed}

theorem byteLength_append (as bs : List Char) :
    byteLength (as ++ bs) = byteLength as + byteLength bs := by
  induction as with
  | nil => rw [List.nil_append, byteLength, Nat.zero_add]
  | cons a as ih => rw [List.cons_append, byteLength, byteLength, ih, Nat.add_assoc]

theorem byteLength_pos (h : cs ≠ []) : 0 < byteLength cs := by
  cases cs with
  | nil => exact absurd rfl h
  | cons c cs => exact Nat.add_pos_left c.utf8Size_pos _

/-! ### What comes before -/

theorem Token.StandsIn.after {t : Token} (before : List Char)
    (h : t.StandsIn n (pos + byteLength before) cs) : t.StandsIn n pos (before ++ cs) := by
  obtain ⟨between, after, hcs, hne, hfile, hstart, hends⟩ := h
  refine ⟨before ++ between, after, ?_, hne, hfile, ?_, hends⟩
  · rw [hcs, List.append_assoc, List.append_assoc, List.append_assoc]
  · rw [hstart, byteLength_append, Nat.add_assoc]

theorem Apart.after {i j : Nat} (before : List Char) (h : Apart (pos + byteLength before) cs i j) :
    Apart pos (before ++ cs) i j := by
  rcases h with rfl | ⟨between, gap, after, hcs, hgap, hi, hj⟩
  · exact .inl rfl
  · refine .inr ⟨before ++ between, gap, after, ?_, hgap, ?_, hj⟩
    · rw [hcs, List.append_assoc, List.append_assoc, List.append_assoc]
    · rw [hi, byteLength_append, Nat.add_assoc]

theorem LaidFrom.start_le (h : LaidFrom n pos cs l) : ∀ t ∈ l.tokens, pos ≤ t.span.start := by
  intro t ht
  obtain ⟨ts, htokens, hts⟩ := h.ended
  rw [htokens] at ht
  rcases List.mem_append.1 ht with hmem | hend
  · obtain ⟨before, _, _, _, _, hstart, _⟩ :=
      h.stands t (htokens ▸ List.mem_append_left _ hmem) (hts t hmem)
    rw [hstart]
    exact Nat.le_add_right _ _
  · rw [List.mem_singleton.1 hend]
    exact Nat.le_trans (Nat.le_add_right _ _) (Nat.le_add_right _ _)

/-- Characters without a token are laid out, whatever is wrong with them. -/
theorem laidFrom_blank {errors : List Diagnostic} (hcs : Blank cs [])
    (herrors : ∀ d ∈ errors, pos ≤ d.span.start) :
    LaidFrom n pos cs ⟨[endToken n (pos + byteLength cs)], errors⟩ := by
  refine ⟨⟨[], rfl, fun _ ht => absurd ht List.not_mem_nil⟩, ?_, List.pairwise_singleton _ _, ?_,
    List.isChain_singleton _, herrors, ?_⟩
  · intro t ht hkind
    rw [List.mem_singleton.1 ht] at hkind
    exact absurd rfl hkind
  · intro t ht
    obtain rfl : endToken n (pos + byteLength cs) = t := Option.some.inj ht
    exact ⟨cs, [], (List.append_nil cs).symm, hcs, rfl⟩
  · intro t ht hkind
    rw [List.mem_singleton.1 ht] at hkind
    cases hkind

theorem LaidFrom.blank {gap rest : List Char} {later : Nat} (hgap : Blank gap rest)
    (hcs : gap ++ rest = cs) (hlater : pos + byteLength gap = later) (h : LaidFrom n later rest l) :
    LaidFrom n pos cs l := by
  subst hcs hlater
  constructor
  case ended =>
    obtain ⟨ts, htokens, hts⟩ := h.ended
    refine ⟨ts, ?_, hts⟩
    rw [byteLength_append, ← Nat.add_assoc]
    exact htokens
  case stands => exact fun t ht hkind => (h.stands t ht hkind).after gap
  case ordered => exact h.ordered
  case opened =>
    intro t ht
    obtain ⟨gap', rest, rfl, hgap', hstart⟩ := h.opened t ht
    refine ⟨gap ++ gap', rest, (List.append_assoc _ _ _).symm, hgap.append hgap', ?_⟩
    rw [hstart, byteLength_append, Nat.add_assoc]
  case apart => exact h.apart.imp fun _ _ hapart => hapart.after gap
  case later => exact fun d hd => Nat.le_trans (Nat.le_add_right _ _) (h.later d hd)
  case flawed => exact h.flawed

/-! ### One token -/

theorem countP_span_eq_zero {ds : List Diagnostic} {span : Span}
    (h : ∀ d ∈ ds, d.span.start ≠ span.start) : ds.countP (fun d => d.span = span) = 0 :=
  List.countP_eq_zero.2 fun d hd hspan => h d hd (congrArg Span.start (of_decide_eq_true hspan))

/-- A token on the next characters, with an error at its place where it is invalid. -/
theorem LaidFrom.token {taken rest : List Char} {later : Nat} {kind : TokenKind}
    (flaws : List Diagnostic) (htaken : taken ≠ []) (hwhole : breaksOff taken = false)
    (hkind : kind ≠ .endOfFile) (hflaws : ∀ d ∈ flaws, d.span = ⟨n, pos, later⟩)
    (hinvalid : kind = .invalid → flaws.length = 1) (hcs : taken ++ rest = cs)
    (hlater : pos + byteLength taken = later) (h : LaidFrom n later rest l) :
    LaidFrom n pos cs
      ⟨⟨kind, String.ofList taken, ⟨n, pos, later⟩⟩ :: l.tokens, flaws ++ l.errors⟩ := by
  subst hcs hlater
  let t : Token := ⟨kind, String.ofList taken, ⟨n, pos, pos + byteLength taken⟩⟩
  have htext : t.text.toList = taken := String.toList_ofList
  have hbreaks : t.breaksOff = false := by rw [Token.breaksOff, htext, hwhole]
  have hlt : pos < pos + byteLength taken := Nat.lt_add_of_pos_right (byteLength_pos htaken)
  constructor
  case ended =>
    obtain ⟨ts, htokens, hts⟩ := h.ended
    refine ⟨t :: ts, ?_, List.forall_mem_cons.2 ⟨hkind, hts⟩⟩
    have hexcess : Lexed.excess ⟨t :: l.tokens, flaws ++ l.errors⟩ = l.excess := by
      simp [Lexed.excess, hbreaks]
    rw [hexcess, byteLength_append, ← Nat.add_assoc]
    exact congrArg (t :: ·) htokens
  case stands =>
    intro u hu hkind
    rcases List.mem_cons.1 hu with rfl | hu
    · refine ⟨[], rest, ?_, ?_, rfl, rfl, ?_, fun h => absurd (hbreaks.symm.trans h) (by decide)⟩
      · rw [htext, List.nil_append]
      · rwa [htext]
      · rw [hbreaks, htext]
        rfl
    · exact (h.stands u hu hkind).after taken
  case ordered => exact List.pairwise_cons.2 ⟨h.start_le, h.ordered⟩
  case opened =>
    intro u hu
    obtain rfl : t = u := Option.some.inj hu
    exact ⟨[], taken ++ rest, rfl, .nil, rfl⟩
  case apart =>
    refine List.isChain_cons.2 ⟨fun u hu => ?_, h.apart.imp fun _ _ hapart => hapart.after taken⟩
    obtain ⟨gap, rest, rfl, hgap, hstart⟩ := h.opened u hu
    exact .inr ⟨taken, gap, rest, (List.append_assoc _ _ _).symm, hgap, rfl, hstart⟩
  case later =>
    intro d hd
    rcases List.mem_append.1 hd with hd | hd
    · rw [hflaws d hd]
    · exact Nat.le_trans (Nat.le_of_lt hlt) (h.later d hd)
  case flawed =>
    intro u hu hkind
    rw [List.countP_append]
    rcases List.mem_cons.1 hu with rfl | hu
    · have hall : flaws.countP (fun d => d.span = t.span) = flaws.length :=
        List.countP_eq_length.2 fun d hd => decide_eq_true (hflaws d hd)
      have hnone : l.errors.countP (fun d => d.span = t.span) = 0 :=
        countP_span_eq_zero fun d hd => Nat.ne_of_gt (Nat.lt_of_lt_of_le hlt (h.later d hd))
      rw [hall, hnone, hinvalid hkind]
    · have hnone : flaws.countP (fun d => d.span = u.span) = 0 := by
        refine countP_span_eq_zero fun d hd => ?_
        rw [hflaws d hd]
        exact Nat.ne_of_lt (Nat.lt_of_lt_of_le hlt (h.start_le u hu))
      rw [hnone, h.flawed u hu hkind]

/-- A token that breaks off is the last one, and the file ends one byte late. -/
theorem laidFrom_breaksOff {later : Nat} {d : Diagnostic} (hbreaks : breaksOff cs = true)
    (hlater : pos + byteLength cs + 1 = later) (hd : d.span = ⟨n, pos, later⟩) :
    LaidFrom n pos cs
      ⟨[⟨.invalid, String.ofList cs, ⟨n, pos, later⟩⟩, endToken n later], [d]⟩ := by
  subst hlater
  let t : Token := ⟨.invalid, String.ofList cs, ⟨n, pos, pos + byteLength cs + 1⟩⟩
  have htext : t.text.toList = cs := String.toList_ofList
  have hbreaks' : t.breaksOff = true := by rw [Token.breaksOff, htext, hbreaks]
  have hne : cs ≠ [] := by
    rintro rfl
    cases hbreaks
  constructor
  case ended =>
    refine ⟨[t], ?_, List.forall_mem_singleton.2 fun h => by cases h⟩
    have hexcess : Lexed.excess ⟨[t, endToken n (pos + byteLength cs + 1)], [d]⟩ = 1 := by
      simp [Lexed.excess, hbreaks']
    rw [hexcess]
    rfl
  case stands =>
    intro u hu hkind
    rcases List.mem_pair.1 hu with rfl | rfl
    · refine ⟨[], [], ?_, ?_, rfl, rfl, ?_, fun _ => rfl⟩
      · rw [htext, List.nil_append, List.append_nil]
      · rwa [htext]
      · rw [hbreaks', htext]
        rfl
    · exact absurd rfl hkind
  case ordered => exact List.pairwise_pair.2 (Nat.le_refl _)
  case opened =>
    intro u hu
    obtain rfl : t = u := Option.some.inj hu
    exact ⟨[], cs, rfl, .nil, rfl⟩
  case apart => exact List.isChain_pair.2 (.inl rfl)
  case later =>
    intro e he
    rw [List.mem_singleton.1 he, hd]
  case flawed =>
    intro u hu hkind
    rcases List.mem_pair.1 hu with rfl | rfl
    · simp [hd]
    · cases hkind

/-! ### Cutting a token off -/

theorem leavesEscape_cons {c : Char} (hc : c ≠ '\\') :
    leavesEscape (c :: cs) = leavesEscape cs := by
  rw [leavesEscape]
  · exact fun h => absurd h hc
  · exact fun _ _ h => absurd h hc

theorem ne_backslash_of_isQuote {c : Char} (hc : isQuote c = true) : c ≠ '\\' := by
  rintro rfl
  cases hc

/-- What is read as a character of its own is no backslash. -/
theorem ne_backslash {c : Char} (hlast : c = '\\' → cs = [] → False)
    (hescape : ∀ d ds, c = '\\' → cs = d :: ds → False) : c ≠ '\\' := by
  intro hc
  cases cs with
  | nil => exact hlast hc rfl
  | cons d ds => exact hescape d ds hc rfl

/-- The rest of a literal is what it takes, and it breaks off only at the end of the text. -/
theorem literalRest_spec {quote : Char} (hquote : isQuote quote = true) (cs : List Char) :
    let r := literalRest quote cs
    cs = r.taken ++ r.rest ∧
      r.width = byteLength r.taken + (if leavesEscape r.taken then 1 else 0) ∧
      (leavesEscape r.taken = true → r.rest = [] ∧ r.closed = false) := by
  fun_induction literalRest quote cs with
  | case1 => exact ⟨rfl, rfl, fun h => absurd h Bool.false_ne_true⟩
  | case2 cs => exact ⟨rfl, rfl, fun h => absurd h Bool.false_ne_true⟩
  | case3 => exact ⟨rfl, rfl, fun _ => ⟨rfl, rfl⟩⟩
  | case4 c cs ih =>
    obtain ⟨hsplit, hwidth, hlast⟩ := ih
    refine ⟨congrArg ('\\' :: c :: ·) hsplit, ?_, hlast⟩
    simp only [LiteralRest.after, hwidth, byteLength_append]
    exact (Nat.add_assoc _ _ _).symm
  | case5 cs hline hlast hescape =>
    have hne : quote ≠ '\\' := ne_backslash_of_isQuote hquote
    simp [leavesEscape_cons hne, leavesEscape]
  | case6 c cs hline hlast hescape hc ih =>
    have hne : c ≠ '\\' := ne_backslash hlast hescape
    obtain ⟨hsplit, hwidth, hlast⟩ := ih
    refine ⟨congrArg (c :: ·) hsplit, ?_, ?_⟩
    · simp only [LiteralRest.after, hwidth, List.singleton_append, leavesEscape_cons hne]
      simp only [byteLength, Nat.add_zero, Nat.add_assoc]
    · simpa only [LiteralRest.after, List.singleton_append, leavesEscape_cons hne] using hlast

/-- What a token takes off a text: some of its characters, counted in full, and one byte more if it
breaks off at the end. -/
structure Cut.Takes (cut : Cut) (cs : List Char) : Prop where
  split : cs = cut.taken ++ cut.rest
  some : cut.taken ≠ []
  width : cut.width = byteLength cut.taken + if breaksOff cut.taken then 1 else 0
  last : breaksOff cut.taken = true → cut.rest = [] ∧ cut.kind = .invalid

theorem Cut.takes_of (kind : TokenKind) (flaw : Option String) {c : Char} {taken rest : List Char}
    (hc : isQuote c = false) (hcs : taken ++ rest = cs) :
    (Cut.of kind flaw (c :: taken) rest).Takes (c :: cs) := by
  have hwhole : breaksOff (c :: taken) = false := by rw [breaksOff, hc, Bool.false_and]
  refine ⟨congrArg (c :: ·) hcs.symm, List.cons_ne_nil _ _, ?_, ?_⟩
  · simp [Cut.of, hwhole]
  · simp [Cut.of, hwhole]

theorem Cut.takes_literal {quote : Char} (hquote : isQuote quote = true) (kind : TokenKind)
    (flaw : Option String) (cs : List Char)
    (hkind : (literalRest quote cs).closed = false → kind = .invalid) :
    let r := (literalRest quote cs).after [quote]
    (Cut.mk kind flaw r.taken r.width r.rest).Takes (quote :: cs) := by
  obtain ⟨hsplit, hwidth, hlast⟩ := literalRest_spec hquote cs
  have hbreaks : breaksOff (quote :: (literalRest quote cs).taken) =
      leavesEscape (literalRest quote cs).taken := by rw [breaksOff, hquote, Bool.true_and]
  refine ⟨congrArg (quote :: ·) hsplit, List.cons_ne_nil _ _, ?_, ?_⟩
  · simp only [LiteralRest.after, hwidth, List.singleton_append, hbreaks]
    simp only [byteLength, Nat.add_zero, Nat.add_assoc]
  · simp only [LiteralRest.after, List.singleton_append, hbreaks]
    exact fun h => ⟨(hlast h).1, hkind (hlast h).2⟩

theorem isQuote_eq_false {c : Char} (hc : isWordStart c = true ∨ c.isDigit = true) :
    isQuote c = false := by
  rw [Bool.eq_false_iff]
  intro hquote
  simp only [isQuote, Bool.or_eq_true, decide_eq_true_eq] at hquote
  rcases hquote with rfl | rfl <;> exact absurd hc (by decide)

theorem takes_cutToken (c : Char) (cs : List Char) : (cutToken c cs).Takes (c :: cs) := by
  have hword := List.takeWhile_append_dropWhile (p := isWordPart) (l := cs)
  have hdigits := List.takeWhile_append_dropWhile (p := Char.isDigit) (l := cs)
  unfold cutToken
  split
  case isTrue hstart => exact Cut.takes_of _ _ (isQuote_eq_false (.inl hstart)) hword
  split
  case isTrue hdigit =>
    have hquote := isQuote_eq_false (.inr hdigit)
    simp only
    split
    · split
      · exact Cut.takes_of _ _ hquote hword
      · exact Cut.takes_of _ _ hquote hdigits
    · exact Cut.takes_of _ _ hquote hdigits
  split
  case isTrue hquote =>
    simp only
    split
    case isTrue hclosed =>
      exact Cut.takes_literal hquote _ _ cs fun h => absurd (hclosed.symm.trans h) (by decide)
    case isFalse => exact Cut.takes_literal hquote _ _ cs fun _ => rfl
  case isFalse hquote =>
    have hquote' := Bool.eq_false_iff.2 hquote
    split <;> exact Cut.takes_of _ _ hquote' rfl

/-! ### Comments -/

theorem splitComment_eq_some {a b : List Char} (h : splitComment cs = some (a, b)) :
    ∃ comment, a = comment ++ ['*', '/'] ∧ cs = a ++ b ∧ ¬ ['*', '/'] <:+: comment ++ ['*'] := by
  fun_induction splitComment cs generalizing a b with
  | case1 cs =>
    obtain ⟨rfl, rfl⟩ := Prod.mk.inj (Option.some.inj h)
    exact ⟨[], rfl, rfl, fun hin => absurd hin.length_le (by decide)⟩
  | case2 c cs hend ih =>
    obtain ⟨⟨a', b'⟩, hp, hab⟩ := Option.map_eq_some_iff.1 h
    obtain ⟨rfl, rfl⟩ := Prod.mk.inj hab
    obtain ⟨comment, rfl, hcs, hcomment⟩ := ih hp
    refine ⟨c :: comment, rfl, congrArg (c :: ·) hcs, ?_⟩
    rw [List.cons_append, List.infix_cons_iff]
    rintro (hbegins | hin)
    · obtain ⟨hc, hnext⟩ := List.cons_prefix_cons.1 hbegins
      cases comment with
      | nil => exact absurd (List.cons_prefix_cons.1 hnext).1 (by decide)
      | cons d comment =>
        obtain ⟨hd, -⟩ := List.cons_prefix_cons.1 hnext
        exact hend (comment ++ ['*', '/'] ++ b') hc.symm (hcs.trans (congrArg (· :: _) hd.symm))
    · exact hcomment hin
  | case3 => cases h

theorem splitComment_eq_none (h : splitComment cs = none) : ¬ ['*', '/'] <:+: cs := by
  fun_induction splitComment cs with
  | case1 cs => cases h
  | case2 c cs hend ih =>
    rw [List.infix_cons_iff]
    rintro (hbegins | hin)
    · obtain ⟨hc, rest, rfl⟩ := List.cons_prefix_cons.1 hbegins
      exact hend rest hc.symm rfl
    · exact ih (Option.map_eq_none_iff.1 h) hin
  | case3 => exact fun hin => absurd hin.length_le (by decide)

theorem blank_space {c : Char} (hc : isSpace c = true) : Blank [c] cs := .space hc .nil

theorem blank_line (cs : List Char) :
    Blank ('/' :: '/' :: cs.takeWhile (· ≠ '\n')) (cs.dropWhile (· ≠ '\n')) := by
  have hcomment : '\n' ∉ cs.takeWhile (· ≠ '\n') := fun h => by
    simpa using List.all_eq_true.1 List.all_takeWhile _ h
  have hend : ∀ c ∈ (cs.dropWhile (· ≠ '\n')).head?, c = '\n' := by
    intro c hc
    have hnot := List.head?_dropWhile_not (· ≠ '\n') cs
    rw [Option.mem_def.1 hc] at hnot
    simpa using hnot
  have h : Blank ('/' :: '/' :: (cs.takeWhile (· ≠ '\n') ++ [])) _ := .line hcomment hend .nil
  rwa [List.append_nil] at h

/-! ### All tokens -/

theorem utf8Size_slash : '/'.utf8Size = 1 := by decide

theorem utf8Size_star : '*'.utf8Size = 1 := by decide

theorem laidFrom_lexFrom (n : FileId) (pos : Nat) (cs : List Char) :
    LaidFrom n pos cs (lexFrom n pos cs) := by
  fun_induction lexFrom n pos cs with
  | case1 pos => exact laidFrom_blank .nil fun _ he => absurd he List.not_mem_nil
  | case2 pos c cs hspace ih => exact ih.blank (blank_space hspace) rfl rfl
  | case3 pos c cs hspace hline ih =>
    obtain ⟨rfl, hnext⟩ := hline
    obtain ⟨rest, rfl⟩ := List.head?_eq_some_iff.1 hnext
    refine ih.blank (blank_line rest) ?_ ?_
    · rw [List.cons_append, List.cons_append, List.takeWhile_append_dropWhile]
    · rw [byteLength, utf8Size_slash, Nat.add_assoc]
      rfl
  | case4 pos c cs hspace hline hblock comment rest hsplit ih =>
    obtain ⟨rfl, hnext⟩ := hblock
    obtain ⟨inner, rfl⟩ := List.head?_eq_some_iff.1 hnext
    obtain ⟨body, rfl, rfl, hbody⟩ := splitComment_eq_some hsplit
    refine ih.blank (.block hbody .nil) ?_ ?_
    · simp
    · simp only [byteLength, byteLength_append, utf8Size_slash, utf8Size_star]
      omega
  | case5 pos c cs hspace hline hblock hsplit stop ih =>
    obtain ⟨rfl, hnext⟩ := hblock
    obtain ⟨inner, rfl⟩ := List.head?_eq_some_iff.1 hnext
    have hstop : stop = pos + byteLength ('/' :: '*' :: inner) := by
      rw [byteLength, utf8Size_slash, ← Nat.add_assoc]
    rw [lexFrom, hstop]
    exact laidFrom_blank (.unended (splitComment_eq_none hsplit))
      (List.forall_mem_singleton.2 (Nat.le_refl pos))
  | case6 pos c cs hspace hline hblock cut span following flaw hflaw ih =>
    obtain ⟨hsplit, hsome, hwidth, hlast⟩ := takes_cutToken c cs
    cases hbreaks : breaksOff cut.taken with
    | true =>
      obtain ⟨hrest, hinvalid⟩ := hlast hbreaks
      have hcs : cut.taken = c :: cs := by rw [hsplit, hrest, List.append_nil]
      have hend : lexFrom n (pos + cut.width) cut.rest = ⟨[endToken n (pos + cut.width)], []⟩ := by
        rw [hrest, lexFrom]
        rfl
      have hlater : pos + byteLength (c :: cs) + 1 = pos + cut.width := by
        rw [hwidth, hbreaks, hcs]
        rfl
      have h := laidFrom_breaksOff (hcs ▸ hbreaks) hlater (d := .error lexCode flaw span) rfl
      rw [← hcs, ← hinvalid] at h
      simpa only [following, hend, Lexed.addToken, Lexed.addError, ← hcs] using h
    | false =>
      have hlater : pos + byteLength cut.taken = pos + cut.width := by
        rw [hwidth, hbreaks]
        rfl
      exact ih.token [.error lexCode flaw span] hsome hbreaks (kind_cutToken c cs).1
        (List.forall_mem_singleton.2 rfl) (fun _ => rfl) hsplit.symm hlater
  | case7 pos c cs hspace hline hblock cut span following hflaw ih =>
    obtain ⟨hsplit, hsome, hwidth, hlast⟩ := takes_cutToken c cs
    have hkind := (kind_cutToken c cs).2 hflaw
    have hwhole : breaksOff cut.taken = false :=
      Bool.eq_false_iff.2 fun hbreaks => hkind (hlast hbreaks).2
    have hlater : pos + byteLength cut.taken = pos + cut.width := by
      rw [hwidth, hwhole]
      rfl
    exact ih.token [] hsome hwhole (kind_cutToken c cs).1
      (fun _ he => absurd he List.not_mem_nil) (fun h => absurd h hkind) hsplit.symm hlater

/-! ### The tokens of a text -/

theorem utf8ByteSize_ofList (cs : List Char) : (String.ofList cs).utf8ByteSize = byteLength cs := by
  induction cs with
  | nil => rfl
  | cons c cs ih =>
    rw [String.ofList_cons, String.utf8ByteSize_append, String.utf8ByteSize_singleton, ih,
      byteLength]

theorem byteLength_toList (text : String) : byteLength text.toList = text.utf8ByteSize := by
  rw [← utf8ByteSize_ofList, String.ofList_toList]

/-- Whether an offset lies between characters of a text, or is where the text is said to end. -/
def IsBoundary (text : String) (stop i : Nat) : Prop := String.Pos.Raw.IsValid text ⟨i⟩ ∨ i = stop

theorem isValid_byteLength {text : String} {before after : List Char}
    (h : text.toList = before ++ after) : String.Pos.Raw.IsValid text ⟨byteLength before⟩ := by
  refine String.Pos.Raw.isValid_iff_exists_append.2
    ⟨String.ofList before, String.ofList after, ?_, ?_⟩
  · rw [← String.ofList_append, ← h, String.ofList_toList]
  · rw [← utf8ByteSize_ofList]
    rfl

/-- Whether tokens and errors are laid out over a text that is said to end at an offset: the end of
the file stands there, all other tokens come before it, with characters of their own, and only white
space and comments lie before, between and after them. Every invalid token has one error of its
own. -/
structure Lexed.LaidOut (l : Lexed) (n : FileId) (text : String) (stop : Nat) : Prop where
  ended : ∃ ts, l.tokens = ts ++ [endToken n stop] ∧ ∀ t ∈ ts, t.kind ≠ .endOfFile
  within : ∀ t ∈ l.tokens, t.span.start ≤ t.span.stop ∧ t.span.stop ≤ stop
  filled : ∀ t ∈ l.tokens, t.kind ≠ .endOfFile → t.span.start < t.span.stop
  ordered : l.tokens.Pairwise fun t u => t.span.stop ≤ u.span.start
  bounded : ∀ t ∈ l.tokens, IsBoundary text stop t.span.start ∧ IsBoundary text stop t.span.stop
  written : ∀ t ∈ l.tokens, t.kind ≠ .endOfFile → t.StandsIn n 0 text.toList
  opened : ∀ t ∈ l.tokens.head?, Apart 0 text.toList 0 t.span.start
  apart : l.tokens.IsChain fun t u => Apart 0 text.toList t.span.stop u.span.start
  flawed : ∀ t ∈ l.tokens, t.kind = .invalid → l.errors.countP (fun d => d.span = t.span) = 1

theorem Lexed.excess_of_mem {t : Token} (ht : t ∈ l.tokens) (hbreaks : t.breaksOff = true) :
    l.excess = 1 := if_pos (List.any_eq_true.2 ⟨t, ht, hbreaks⟩)

theorem Lexed.excess_eq_zero : l.excess = 0 ↔ ∀ t ∈ l.tokens, t.breaksOff = false := by
  unfold Lexed.excess
  cases hany : l.tokens.any Token.breaksOff with
  | false => simpa using hany
  | true => simpa using hany

theorem Token.StandsIn.start_lt_stop {t : Token} (h : t.StandsIn n pos cs) :
    t.span.start < t.span.stop := by
  obtain ⟨_, _, _, hne, _, _, hstop, _⟩ := h
  rw [hstop, Nat.add_assoc]
  exact Nat.lt_add_of_pos_right (Nat.add_pos_left (byteLength_pos hne) _)

theorem Token.StandsIn.isValid_start {t : Token} {text : String}
    (h : t.StandsIn n 0 text.toList) : String.Pos.Raw.IsValid text ⟨t.span.start⟩ := by
  obtain ⟨before, after, hcs, _, _, hstart, _, _⟩ := h
  rw [hstart, Nat.zero_add]
  exact isValid_byteLength (hcs.trans (List.append_assoc _ _ _))

/-- A token stops between characters, or it breaks off and stops one byte behind the text. -/
theorem Token.StandsIn.stop {t : Token} {text : String} (h : t.StandsIn n 0 text.toList) :
    (t.breaksOff = false ∧ String.Pos.Raw.IsValid text ⟨t.span.stop⟩) ∨
      t.breaksOff = true ∧ t.span.stop = text.utf8ByteSize + 1 := by
  obtain ⟨before, after, hcs, _, _, hstart, hstop, hlast⟩ := h
  have hwritten :
      t.span.start + byteLength t.text.toList = byteLength (before ++ t.text.toList) := by
    rw [hstart, Nat.zero_add, byteLength_append]
  rw [hwritten] at hstop
  cases hbreaks : t.breaksOff with
  | false =>
    rw [hbreaks] at hstop
    exact .inl ⟨rfl, hstop ▸ isValid_byteLength hcs⟩
  | true =>
    rw [hlast hbreaks, List.append_nil] at hcs
    rw [hbreaks, ← hcs, byteLength_toList] at hstop
    exact .inr ⟨rfl, hstop⟩

theorem LaidFrom.laidOut {text : String} (h : LaidFrom n 0 text.toList l) :
    l.LaidOut n text (text.utf8ByteSize + l.excess) := by
  obtain ⟨ts, htokens, hts⟩ := h.ended
  rw [Nat.zero_add, byteLength_toList] at htokens
  have hcases : ∀ t ∈ l.tokens, (t.kind ≠ .endOfFile ∧ t.StandsIn n 0 text.toList) ∨
      t = endToken n (text.utf8ByteSize + l.excess) := by
    intro t ht
    rw [htokens] at ht
    rcases List.mem_append.1 ht with hmem | hend
    · exact .inl ⟨hts t hmem, h.stands t (htokens ▸ ht) (hts t hmem)⟩
    · exact .inr (List.mem_singleton.1 hend)
  have hstop : ∀ t ∈ l.tokens, IsBoundary text (text.utf8ByteSize + l.excess) t.span.stop := by
    intro t ht
    rcases hcases t ht with ⟨-, hstands⟩ | rfl
    · rcases hstands.stop with ⟨-, hvalid⟩ | ⟨hbreaks, hstop⟩
      · exact .inl hvalid
      · exact .inr (by rw [hstop, Lexed.excess_of_mem ht hbreaks])
    · exact .inr rfl
  constructor
  case ended => exact ⟨ts, htokens, hts⟩
  case within =>
    intro t ht
    refine ⟨?_, ?_⟩
    · rcases hcases t ht with ⟨-, hstands⟩ | rfl
      · exact Nat.le_of_lt hstands.start_lt_stop
      · exact Nat.le_refl _
    · rcases hstop t ht with hvalid | heq
      · exact Nat.le_trans hvalid.le_rawEndPos (Nat.le_add_right _ _)
      · exact Nat.le_of_eq heq
  case filled =>
    intro t ht hkind
    exact (h.stands t ht hkind).start_lt_stop
  case ordered => exact h.ordered
  case bounded =>
    intro t ht
    refine ⟨?_, hstop t ht⟩
    rcases hcases t ht with ⟨-, hstands⟩ | rfl
    · exact .inl hstands.isValid_start
    · exact .inr rfl
  case written => exact h.stands
  case opened =>
    intro t ht
    obtain ⟨gap, rest, hcs, hgap, hstart⟩ := h.opened t ht
    exact .inr ⟨[], gap, rest, hcs, hgap, rfl, hstart⟩
  case apart => exact h.apart
  case flawed => exact h.flawed

/-- The tokens of a text are laid out over it up to its end, or up to one byte behind it where a
literal breaks off right after a backslash; only then is that byte needed. -/
theorem laidOut_lex (n : FileId) (text : String) :
    (lex n text).LaidOut n text (text.utf8ByteSize + (lex n text).excess) ∧
      ((lex n text).LaidOut n text text.utf8ByteSize ↔
        ∀ t ∈ (lex n text).tokens, t.breaksOff = false) := by
  have hlaid : (lex n text).LaidOut n text (text.utf8ByteSize + (lex n text).excess) :=
    (laidFrom_lexFrom n 0 text.toList).laidOut
  refine ⟨hlaid, ?_⟩
  rw [← Lexed.excess_eq_zero]
  constructor
  case mpr =>
    intro hexcess
    rwa [hexcess] at hlaid
  case mp =>
    intro hclaimed
    obtain ⟨_, htokens, -⟩ := hlaid.ended
    obtain ⟨_, htokens', -⟩ := hclaimed.ended
    have hend := congrArg List.getLast? (htokens.symm.trans htokens')
    rw [List.getLast?_concat, List.getLast?_concat] at hend
    have hstop := congrArg (·.span.stop) (Option.some.inj hend)
    exact Nat.add_eq_left.1 hstop

/-- A quote and a backslash are two bytes; their token stops at the third, and so does the file. -/
theorem lex_overruns :
    (lex 0 "\"\\").tokens = [⟨.invalid, "\"\\", ⟨0, 0, 3⟩⟩, endToken 0 3] ∧
      "\"\\".utf8ByteSize = 2 ∧ ¬ (lex 0 "\"\\").LaidOut 0 "\"\\" 2 := by
  have htokens : (lex 0 "\"\\").tokens = [⟨.invalid, "\"\\", ⟨0, 0, 3⟩⟩, endToken 0 3] := by
    decide +kernel
  refine ⟨htokens, by decide, fun h => ?_⟩
  have hwithin := h.within (endToken 0 3) (by simp [htokens])
  exact absurd hwithin.2 (by decide)

end Schemata.Schema

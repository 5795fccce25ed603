import Schemata.Proofs.Schema.Nesting

/-!
# Literals are read back

A text that is written as a literal, with a backslash before each quote of the literal's kind and
before each backslash and with every newline spelled out, is read as one token without an error, and
the value of that token is the text. Reading goes by characters here. A reader that goes by bytes,
and after a backslash leaves out one byte and not a character, finds the same end, since no byte of
a longer character is that of a quote, a backslash or a newline.
-/

namespace Schemata.Schema

open Source

variable {quote c : Char} {cs inner : List Char} {n : FileId} {pos : Nat} {text : String}

/-! ### Writing literals -/

/-- A character as it is written in a literal. -/
def written (quote c : Char) : List Char :=
  if c = quote ∨ c = '\\' then ['\\', c] else if c = '\n' then ['\\', 'n'] else [c]

/-- A text as a literal between quotes of one kind. -/
def literal (quote : Char) (s : String) : String :=
  String.ofList (quote :: (s.toList.flatMap (written quote) ++ [quote]))

theorem toList_literal (quote : Char) (s : String) :
    (literal quote s).toList = quote :: (s.toList.flatMap (written quote) ++ [quote]) :=
  String.toList_ofList

theorem isQuote_iff : isQuote quote = true ↔ quote = '"' ∨ quote = '\'' := by
  simp [isQuote]

theorem ne_newline_of_isQuote (h : isQuote quote = true) : quote ≠ '\n' := by
  rintro rfl
  cases h

/-! ### Reading characters of a literal -/

theorem literalRest_escape (quote c : Char) (cs : List Char) :
    literalRest quote ('\\' :: c :: cs) = (literalRest quote cs).after ['\\', c] := by
  rw [literalRest]

theorem literalRest_plain (hquote : c ≠ quote) (hescape : c ≠ '\\') (hline : c ≠ '\n') :
    literalRest quote (c :: cs) = (literalRest quote cs).after [c] := by
  rw [literalRest, if_neg hquote]
  · exact fun h => absurd h hline
  · exact fun h _ => absurd h hescape
  · exact fun _ _ h _ => absurd h hescape

theorem literalRest_quote (h : isQuote quote = true) (cs : List Char) :
    literalRest quote (quote :: cs) = ⟨[quote], byteLength [quote], cs, true⟩ := by
  rw [literalRest, if_pos rfl]
  · exact fun hline => absurd hline (ne_newline_of_isQuote h)
  · exact fun hescape _ => absurd hescape (ne_backslash_of_isQuote h)
  · exact fun _ _ hescape _ => absurd hescape (ne_backslash_of_isQuote h)

theorem unescape_plain (hescape : c ≠ '\\') : unescape (c :: cs) = c :: unescape cs := by
  rw [unescape]
  exact fun _ _ h _ => hescape h

/-- A quote or a backslash means itself after a backslash. -/
theorem escaped_eq_self (h : isQuote c = true ∨ c = '\\') : escaped c = c := by
  rcases h with h | rfl
  · rcases isQuote_iff.1 h with rfl | rfl <;> decide
  · decide

/-- Reading what is written for a text stops at the closing quote and not before. -/
theorem literalRest_written (h : isQuote quote = true) (s rest : List Char) :
    literalRest quote (s.flatMap (written quote) ++ quote :: rest) =
      ⟨s.flatMap (written quote) ++ [quote],
        byteLength (s.flatMap (written quote) ++ [quote]), rest, true⟩ := by
  induction s with
  | nil => exact literalRest_quote h rest
  | cons c s ih =>
    rw [List.flatMap_cons, List.append_assoc, List.append_assoc, byteLength_append, written]
    split
    · exact (literalRest_escape quote c _).trans (congrArg _ ih)
    · rename_i hplain
      rw [not_or] at hplain
      split
      · exact (literalRest_escape quote 'n' _).trans (congrArg _ ih)
      · rename_i hline
        exact (literalRest_plain hplain.1 hplain.2 hline).trans (congrArg _ ih)

theorem unescape_written (h : isQuote quote = true) (s : List Char) :
    unescape (s.flatMap (written quote)) = s := by
  induction s with
  | nil => rfl
  | cons c s ih =>
    rw [List.flatMap_cons, written]
    split
    · rename_i hescape
      have hself : escaped c = c := by
        refine escaped_eq_self (hescape.imp_left ?_)
        rintro rfl
        exact h
      rw [List.cons_append, List.singleton_append, unescape, hself, ih]
    · rename_i hplain
      rw [not_or] at hplain
      split
      · rename_i hline
        rw [hline, List.cons_append, List.singleton_append, unescape, ih]
        rfl
      · rw [List.singleton_append, unescape_plain hplain.2, ih]

theorem unquoteChars_enclosed (h : isQuote quote = true) (inner : List Char) :
    unquoteChars (quote :: (inner ++ [quote])) = unescape inner := by
  cases inner with
  | nil =>
    rw [List.nil_append, unquoteChars, if_pos h]
    rfl
  | cons c cs =>
    rw [List.cons_append, unquoteChars, if_pos h, ← List.cons_append, List.dropLast_concat]

theorem unquote_literal (h : isQuote quote = true) (s : String) :
    unquote (literal quote s) = s := by
  rw [unquote, toList_literal, unquoteChars_enclosed h, unescape_written h, String.ofList_toList]

/-! ### The token of a literal -/

theorem cutToken_quote (h : isQuote quote = true) (cs : List Char) :
    cutToken quote cs =
      let r := (literalRest quote cs).after [quote]
      if r.closed then ⟨.string, none, r.taken, r.width, r.rest⟩
      else ⟨.invalid, some "unterminated string literal", r.taken, r.width, r.rest⟩ := by
  have hword : ¬ isWordStart quote = true := fun hword =>
    Bool.false_ne_true ((isQuote_eq_false (.inl hword)).symm.trans h)
  have hdigit : ¬ quote.isDigit = true := fun hdigit =>
    Bool.false_ne_true ((isQuote_eq_false (.inr hdigit)).symm.trans h)
  rw [cutToken, if_neg hword, if_neg hdigit, if_pos h]

/-- A text as a literal is one token that takes up the whole. -/
theorem lex_literal (h : isQuote quote = true) (n : FileId) (s : String) :
    lex n (literal quote s) =
      ⟨[⟨.string, literal quote s, ⟨n, 0, (literal quote s).utf8ByteSize⟩⟩,
        endToken n (literal quote s).utf8ByteSize], []⟩ := by
  have hcut : cutToken quote (s.toList.flatMap (written quote) ++ [quote]) =
      ⟨.string, none, (literal quote s).toList, (literal quote s).utf8ByteSize, []⟩ := by
    rw [cutToken_quote h, literalRest_written h, ← byteLength_toList, toList_literal]
    rfl
  have hspace : ¬ isSpace quote = true := by
    rcases isQuote_iff.1 h with rfl | rfl <;> decide
  have hslash : quote ≠ '/' := by
    rcases isQuote_iff.1 h with rfl | rfl <;> decide
  rw [lex, toList_literal, lexFrom_token hspace (fun hline => hslash hline.1)
    fun hblock => hslash hblock.1, hcut]
  simp only [Nat.zero_add, String.ofList_toList]
  rw [lexFrom_nil]
  rfl

/-! ### Slicing -/

/-- Whether characters stand between two quotes of one kind. -/
def IsEnclosed (cs : List Char) : Prop :=
  ∃ quote inner, isQuote quote = true ∧ cs = quote :: (inner ++ [quote])

theorem literalRest_closed (h : (literalRest quote cs).closed = true) :
    ∃ inner, (literalRest quote cs).taken = inner ++ [quote] := by
  fun_induction literalRest quote cs with
  | case1 => cases h
  | case2 => cases h
  | case3 => cases h
  | case4 c cs ih =>
    obtain ⟨inner, hinner⟩ := ih h
    exact ⟨'\\' :: c :: inner, congrArg (['\\', c] ++ ·) hinner⟩
  | case5 => exact ⟨[], rfl⟩
  | case6 c cs _ _ _ _ ih =>
    obtain ⟨inner, hinner⟩ := ih h
    exact ⟨c :: inner, congrArg ([c] ++ ·) hinner⟩

theorem kind_ne_string (h : isQuote c = false) (cs : List Char) :
    (cutToken c cs).kind ≠ .string := by
  unfold cutToken
  split
  · change wordKind _ ≠ .string
    unfold wordKind
    split <;> exact nofun
  · split
    · simp only
      split
      · split <;> exact nofun
      · exact nofun
    · rw [if_neg (Bool.eq_false_iff.1 h)]
      split
      · rename_i kind hkind
        change kind ≠ .string
        unfold punctuation? at hkind
        grind
      · exact nofun

theorem isEnclosed_cutToken (h : (cutToken c cs).kind = .string) :
    IsEnclosed (cutToken c cs).taken := by
  have hquote : isQuote c = true := by
    by_contra hquote
    exact kind_ne_string (Bool.eq_false_iff.2 hquote) cs h
  rw [cutToken_quote hquote] at h ⊢
  simp only at h ⊢
  split at h
  · rename_i hclosed
    obtain ⟨inner, hinner⟩ := literalRest_closed hclosed
    rw [if_pos hclosed]
    exact ⟨c, inner, hquote, congrArg (c :: ·) hinner⟩
  · cases h

theorem isEnclosed_lexFrom (n : FileId) (pos : Nat) (cs : List Char) :
    ∀ t ∈ (lexFrom n pos cs).tokens, t.kind = .string → IsEnclosed t.text.toList := by
  refine forall_mem_lexFrom (fun _ hkind => by cases hkind) (fun c cs span hkind => ?_) pos cs
  rw [String.toList_ofList]
  exact isEnclosed_cutToken hkind

/-- Whether the bytes of a text but for the first and the last are whole characters between two
quotes, and its value is what these characters mean. -/
structure SlicesWhole (text : String) : Prop where
  enclosed : IsEnclosed text.toList
  filled : 2 ≤ text.utf8ByteSize
  start : String.Pos.Raw.IsValid text ⟨1⟩
  stop : String.Pos.Raw.IsValid text ⟨text.utf8ByteSize - 1⟩
  value : ∃ inner, String.fromUTF8? (text.toUTF8.extract 1 (text.utf8ByteSize - 1)) = some inner ∧
    unquote text = String.ofList (unescape inner.toList)

theorem byteLength_quote (h : isQuote quote = true) : byteLength [quote] = 1 := by
  rcases isQuote_iff.1 h with rfl | rfl <;> decide

theorem IsEnclosed.slicesWhole (h : IsEnclosed text.toList) : SlicesWhole text := by
  obtain ⟨quote, inner, hquote, htext⟩ := id h
  have hone := byteLength_quote hquote
  have hsplit : text.toList = [quote] ++ inner ++ [quote] := htext
  have hsize : text.utf8ByteSize = 1 + byteLength inner + 1 := by
    rw [← byteLength_toList, hsplit, byteLength_append, byteLength_append, hone]
  have hlast : text.utf8ByteSize - 1 = 1 + byteLength inner := by omega
  constructor
  case enclosed => exact h
  case filled => omega
  case start =>
    have hvalid := isValid_byteLength (htext.trans (List.singleton_append ..).symm)
    rwa [hone] at hvalid
  case stop =>
    have hvalid := isValid_byteLength hsplit
    rwa [byteLength_append, hone, ← hlast] at hvalid
  case value =>
    have hextract := (extract_chars hsplit).1
    rw [hone, ← hlast] at hextract
    refine ⟨String.ofList inner, ?_, ?_⟩
    · rw [hextract, String.fromUTF8?, dif_pos (String.ofList inner).isValidUTF8]
      rfl
    · rw [unquote, htext, unquoteChars_enclosed hquote, String.toList_ofList]

/-! ### Reading bytes of a literal -/

/-- Where a literal ends that is read byte by byte after its opening quote: the number of bytes up
to and with the closing quote. There is none where the line or the text ends first. -/
def closingByte? (quote : UInt8) : List UInt8 → Option Nat
  | [] => none
  | b :: bs =>
    if b = 10 then none
    else if b = 92 then (closingByte? quote bs.tail).map (2 + ·)
    else if b = quote then some 1
    else (closingByte? quote bs).map (1 + ·)
termination_by bs => bs.length
decreasing_by
  · simp only [List.length_tail, List.length_cons]
    omega
  · exact Nat.lt_succ_self _

/-- A character is a byte of its own below 128, or all its bytes are from 128 on. -/
theorem utf8EncodeChar_cases (c : Char) :
    (c.toNat < 128 ∧ String.utf8EncodeChar c = [c.toUInt8]) ∨
      ∀ b ∈ String.utf8EncodeChar c, 128 ≤ b.toNat := by
  by_cases hsize : c.utf8Size = 1
  · have hsmall : c.toNat ≤ 127 := UInt32.le_iff_toNat_le.1 (Char.utf8Size_eq_one_iff.1 hsize)
    exact .inl ⟨Nat.lt_succ_of_le hsmall, String.utf8EncodeChar_eq_singleton hsize⟩
  · right
    have hlarge : ¬ c.val.toNat ≤ 127 := fun hsmall =>
      hsize (Char.utf8Size_eq_one_iff.2 (UInt32.le_iff_toNat_le.2 hsmall))
    unfold String.utf8EncodeChar
    simp only [if_neg hlarge]
    split
    · simp
      omega
    · split
      · simp
        omega
      · simp
        omega

theorem toNat_toUInt8 (h : c.toNat < 128) : c.toUInt8.toNat = c.toNat := by
  rw [Char.toUInt8, UInt32.toNat_toUInt8]
  exact Nat.mod_eq_of_lt (Nat.lt_trans h (by decide))

/-- The code of an ASCII character is no byte of another character. -/
theorem eq_of_mem_utf8EncodeChar {d : Char} (hd : d.toNat < 128)
    (h : d.toUInt8 ∈ String.utf8EncodeChar c) : c = d := by
  rcases utf8EncodeChar_cases c with ⟨hc, hone⟩ | hlarge
  · rw [hone, List.mem_singleton] at h
    refine Char.toNat_inj.1 ?_
    rw [← toNat_toUInt8 hc, ← h, toNat_toUInt8 hd]
  · have hge := hlarge _ h
    rw [toNat_toUInt8 hd] at hge
    omega

/-- Whether a byte is nothing that a literal takes notice of. -/
def IsPlainByte (quote b : UInt8) : Prop := b ≠ 10 ∧ b ≠ 92 ∧ b ≠ quote

theorem closingByte?_append {quote : UInt8} {bs rest : List UInt8}
    (h : ∀ b ∈ bs, IsPlainByte quote b) :
    closingByte? quote (bs ++ rest) = (closingByte? quote rest).map (bs.length + ·) := by
  induction bs with
  | nil => simp
  | cons b bs ih =>
    obtain ⟨⟨hline, hescape, hquote⟩, hbs⟩ := List.forall_mem_cons.1 h
    rw [List.cons_append, closingByte?, if_neg hline, if_neg hescape, if_neg hquote, ih hbs,
      Option.map_map]
    congr 1
    funext k
    simp only [Function.comp_apply, List.length_cons]
    omega

theorem toNat_quote_lt (h : isQuote quote = true) : quote.toNat < 128 := by
  rcases isQuote_iff.1 h with rfl | rfl <;> decide

theorem isPlainByte_of_le (h : isQuote quote = true) {b : UInt8} (hb : 128 ≤ b.toNat) :
    IsPlainByte quote.toUInt8 b := by
  refine ⟨?_, ?_, ?_⟩
  · rintro rfl
    exact absurd hb (by decide)
  · rintro rfl
    exact absurd hb (by decide)
  · rintro rfl
    rw [toNat_toUInt8 (toNat_quote_lt h)] at hb
    exact absurd (toNat_quote_lt h) (Nat.not_lt_of_le hb)

theorem isPlainByte_of_mem (h : isQuote quote = true) (hquote : c ≠ quote) (hescape : c ≠ '\\')
    (hline : c ≠ '\n') : ∀ b ∈ String.utf8EncodeChar c, IsPlainByte quote.toUInt8 b := by
  intro b hb
  refine ⟨?_, ?_, ?_⟩
  · rintro rfl
    exact hline (eq_of_mem_utf8EncodeChar (d := '\n') (by decide) hb)
  · rintro rfl
    exact hescape (eq_of_mem_utf8EncodeChar (d := '\\') (by decide) hb)
  · rintro rfl
    exact hquote (eq_of_mem_utf8EncodeChar (toNat_quote_lt h) hb)

/-- After its first byte a character has bytes from 128 on alone. -/
theorem exists_utf8EncodeChar (c : Char) :
    ∃ b bs, String.utf8EncodeChar c = b :: bs ∧ bs.length + 1 = c.utf8Size ∧
      ∀ x ∈ bs, 128 ≤ x.toNat := by
  obtain ⟨b, bs, hbytes⟩ := List.exists_cons_of_ne_nil String.utf8EncodeChar_ne_nil
  have hlength := String.length_utf8EncodeChar c
  rw [hbytes] at hlength
  refine ⟨b, bs, hbytes, hlength, fun x hx => ?_⟩
  rcases utf8EncodeChar_cases c with ⟨_, hone⟩ | hlarge
  · obtain ⟨-, rfl⟩ := List.cons.inj (hbytes.symm.trans hone)
    cases hx
  · exact hlarge x (hbytes ▸ List.mem_cons_of_mem b hx)

/-- Where a literal ends, if it does. -/
def LiteralRest.closing? (r : LiteralRest) : Option Nat := if r.closed then some r.width else none

theorem LiteralRest.closing?_after (r : LiteralRest) (cs : List Char) :
    (r.after cs).closing? = r.closing?.map (byteLength cs + ·) := by
  unfold LiteralRest.closing? LiteralRest.after
  cases r.closed <;> simp

/-- Reading bytes finds the end of a literal where reading characters finds it. -/
theorem closingByte?_utf8 (h : isQuote quote = true) (cs : List Char) :
    closingByte? quote.toUInt8 (cs.flatMap String.utf8EncodeChar) =
      (literalRest quote cs).closing? := by
  fun_induction literalRest quote cs with
  | case1 =>
    rw [List.flatMap_nil, closingByte?]
    rfl
  | case2 cs =>
    have hbytes : String.utf8EncodeChar '\n' = [10] := by decide
    rw [List.flatMap_cons, hbytes, List.singleton_append, closingByte?, if_pos rfl]
    rfl
  | case3 =>
    have hbytes : String.utf8EncodeChar '\\' = [92] := by decide
    rw [List.flatMap_singleton, hbytes, closingByte?, if_neg (by decide), if_pos rfl, List.tail_nil,
      closingByte?]
    rfl
  | case4 c cs ih =>
    -- Of the escaped character only the first byte is left out. The others are plain.
    have hbytes : String.utf8EncodeChar '\\' = [92] := by decide
    obtain ⟨b, bs, hchar, hlength, hlarge⟩ := exists_utf8EncodeChar c
    have hplain : ∀ x ∈ bs, IsPlainByte quote.toUInt8 x := fun x hx =>
      isPlainByte_of_le h (hlarge x hx)
    have hwidth : byteLength ['\\', c] = 2 + bs.length := by
      have hone : '\\'.utf8Size = 1 := by decide
      rw [byteLength, byteLength, byteLength, hone, ← hlength]
      omega
    rw [LiteralRest.closing?_after, ← ih, List.flatMap_cons, List.flatMap_cons, hbytes, hchar,
      List.singleton_append, closingByte?, if_neg (by decide), if_pos rfl, List.cons_append,
      List.tail_cons, closingByte?_append hplain, Option.map_map, hwidth]
    congr 1
    funext k
    exact (Nat.add_assoc ..).symm
  | case5 cs hline hlast hescape =>
    have hbytes : String.utf8EncodeChar quote = [quote.toUInt8] := by
      rcases isQuote_iff.1 h with rfl | rfl <;> decide
    have hplain : quote.toUInt8 ≠ 10 ∧ quote.toUInt8 ≠ 92 := by
      rcases isQuote_iff.1 h with rfl | rfl <;> decide
    rw [List.flatMap_cons, hbytes, List.singleton_append, closingByte?, if_neg hplain.1,
      if_neg hplain.2, if_pos rfl, byteLength_quote h]
    rfl
  | case6 c cs hline hlast hescape hc ih =>
    have hne : c ≠ '\\' := ne_backslash hlast hescape
    have hwidth : byteLength [c] = (String.utf8EncodeChar c).length := by
      rw [String.length_utf8EncodeChar, byteLength, byteLength, Nat.add_zero]
    rw [LiteralRest.closing?_after, ← ih, List.flatMap_cons,
      closingByte?_append (isPlainByte_of_mem h hc hne hline), hwidth]

/-! ### All literals -/

/-- A text is read back from any literal that it is written as, and the literal is one token and
nothing else; its end is the same for bytes as for characters. Whatever a source holds, its literals
are cut off it and out of their quotes between characters. -/
theorem literals_whole :
    (∀ quote, isQuote quote = true →
      (∀ (n : FileId) (s : String),
        lex n (literal quote s) =
          ⟨[⟨.string, literal quote s, ⟨n, 0, (literal quote s).utf8ByteSize⟩⟩,
            endToken n (literal quote s).utf8ByteSize], []⟩ ∧
        unquote (literal quote s) = s) ∧
      ∀ cs, closingByte? quote.toUInt8 (cs.flatMap String.utf8EncodeChar) =
        (literalRest quote cs).closing?) ∧
    ∀ (n : FileId) (text : String), ∀ t ∈ (lex n text).tokens, t.kind = .string →
      String.Pos.Raw.IsValid text ⟨t.span.start⟩ ∧ String.Pos.Raw.IsValid text ⟨t.span.stop⟩ ∧
        Spells text t.span t.text ∧ SlicesWhole t.text := by
  constructor
  · intro quote h
    exact ⟨fun n s => ⟨lex_literal h n s, unquote_literal h s⟩, closingByte?_utf8 h⟩
  · intro n text t ht hkind
    have hnot : t.kind ≠ .endOfFile := by
      rw [hkind]
      decide
    have hstands : t.StandsIn n 0 text.toList :=
      (laidFrom_lexFrom n 0 text.toList).stands t ht hnot
    have hwhole : t.breaksOff = false := by
      refine Bool.eq_false_iff.2 fun hbreaks => ?_
      rw [breaksOff_lexFrom n 0 text.toList t ht hbreaks] at hkind
      cases hkind
    have hstop : String.Pos.Raw.IsValid text ⟨t.span.stop⟩ := by
      rcases hstands.stop with ⟨-, hvalid⟩ | ⟨hbreaks, -⟩
      · exact hvalid
      · exact absurd (hwhole.symm.trans hbreaks) Bool.false_ne_true
    exact ⟨hstands.isValid_start, hstop, hstands.spells hwhole,
      (isEnclosed_lexFrom n 0 text.toList t ht hkind).slicesWhole⟩

/-- A text with both quotes, a backslash, a newline, a null character and longer characters. -/
def mixedLiteral : String := literal '\'' "it's \"\\é\"\n\x00😀"

theorem literals_whole_mixed :
    isQuote '\'' = true ∧ mixedLiteral = "'it\\'s \"\\\\é\"\\n\x00😀'" ∧
      unquote mixedLiteral = "it's \"\\é\"\n\x00😀" ∧
      (lex 0 mixedLiteral).tokens = [⟨.string, mixedLiteral, ⟨0, 0, 21⟩⟩, endToken 0 21] ∧
      SlicesWhole mixedLiteral := by
  have hquote : isQuote '\'' = true := by decide
  obtain ⟨hread, hsliced⟩ := literals_whole
  obtain ⟨hlex, hvalue⟩ := (hread '\'' hquote).1 0 "it's \"\\é\"\n\x00😀"
  have hsize : mixedLiteral.utf8ByteSize = 21 := by decide
  have htokens : (lex 0 mixedLiteral).tokens =
      [⟨.string, mixedLiteral, ⟨0, 0, 21⟩⟩, endToken 0 21] := by
    rw [← hsize]
    exact congrArg Lexed.tokens hlex
  have hmem : (⟨.string, mixedLiteral, ⟨0, 0, 21⟩⟩ : Token) ∈ (lex 0 mixedLiteral).tokens := by
    rw [htokens]
    exact List.mem_cons_self
  exact ⟨hquote, by decide, hvalue, htokens, (hsliced 0 mixedLiteral _ hmem rfl).2.2.2⟩

end Schemata.Schema

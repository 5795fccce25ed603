import Schemata.Diagnostic.Basic
import Schemata.Schema.Token

/-!
# From text to tokens

Reading a text gives its tokens, ended by one for the end of the file, and the errors met on the
way. White space and comments separate tokens. Places count bytes; since the text is read character
by character, every token encloses whole characters. A backslash in a literal takes the next
character along; where the text ends right after one, the literal counts as one byte longer than
the text.
-/

namespace Schemata.Schema

open Source

/-- The tokens of a text, and the errors in it. -/
structure Lexed where
  tokens : List Token
  errors : List Diagnostic
  deriving DecidableEq, Repr

namespace Lexed

/-- Puts a token before the others. -/
def addToken (t : Token) (l : Lexed) : Lexed := { l with tokens := t :: l.tokens }

/-- Puts an error before the others. -/
def addError (d : Diagnostic) (l : Lexed) : Lexed := { l with errors := d :: l.errors }

end Lexed

/-- The code of errors in the shape of tokens. -/
def lexCode : Code := ⟨.reading, 100⟩

/-! ### The values of literals

A literal stands between two quotes of one kind. A backslash gives `n`, `t`, `r` and `0` a meaning
of their own and every other character itself.
-/

/-- The character that a backslash before a character means. -/
def escaped (c : Char) : Char :=
  if c = 'n' then '\n' else if c = 't' then '\t' else if c = 'r' then '\r'
  else if c = '0' then '\x00' else c

/-- The characters between the quotes, with their escapes resolved. A backslash at the very end
stands for itself. -/
def unescape : List Char → List Char
  | '\\' :: c :: cs => escaped c :: unescape cs
  | c :: cs => c :: unescape cs
  | [] => []

/-- Whether a character opens and closes literals. -/
def isQuote (c : Char) : Bool := c = '"' || c = '\''

/-- The value of a literal. A text that opens with no quote is its own value, as is a lone
quote. -/
def unquoteChars : List Char → List Char
  | c :: d :: cs => if isQuote c then unescape (d :: cs).dropLast else c :: d :: cs
  | cs => cs

def unquote (text : String) : String := String.ofList (unquoteChars text.toList)

/-! ### Classes of characters -/

/-- Whether a character separates tokens. -/
def isSpace (c : Char) : Bool :=
  c = ' ' || c = '\t' || c = '\n' || c = '\x0c' || c = '\r'

def isWordStart (c : Char) : Bool := c.isAlpha || c = '_'

def isWordPart (c : Char) : Bool := c.isAlphanum || c = '_'

def byteLength : List Char → Nat
  | [] => 0
  | c :: cs => c.utf8Size + byteLength cs

/-! ### Pieces of text -/

/-- The text up to and including the end of a block comment, and what follows it. There is none if
the comment does not end. -/
def splitComment : List Char → Option (List Char × List Char)
  | '*' :: '/' :: cs => some (['*', '/'], cs)
  | c :: cs => (splitComment cs).map fun p => (c :: p.1, p.2)
  | [] => none

/-- The rest of a literal after its opening quote. -/
structure LiteralRest where
  taken : List Char
  width : Nat
  rest : List Char
  closed : Bool
  deriving DecidableEq, Repr

def LiteralRest.after (cs : List Char) (r : LiteralRest) : LiteralRest :=
  ⟨cs ++ r.taken, byteLength cs + r.width, r.rest, r.closed⟩

/-- Reads a literal up to its closing quote, or up to the end of the line. -/
def literalRest (quote : Char) : List Char → LiteralRest
  | [] => ⟨[], 0, [], false⟩
  | '\n' :: cs => ⟨[], 0, '\n' :: cs, false⟩
  | ['\\'] => ⟨['\\'], 2, [], false⟩
  | '\\' :: c :: cs => (literalRest quote cs).after ['\\', c]
  | c :: cs =>
    if c = quote then ⟨[c], byteLength [c], cs, true⟩ else (literalRest quote cs).after [c]

/-- The kind of a token that is one character. -/
def punctuation? (c : Char) : Option TokenKind :=
  if c = '=' then some .equals
  else if c = ';' then some .semicolon
  else if c = '.' then some .dot
  else if c = '-' then some .minus
  else if c = '{' then some .openBrace
  else if c = '}' then some .closeBrace
  else none

def wordKind (word : List Char) : TokenKind :=
  match Keyword.ofText? (String.ofList word) with
  | some k => .keyword k
  | none => .identifier

/-- A token as it is cut off the text: its kind, what is wrong with it, its characters, its width in
bytes and the text after it. -/
structure Cut where
  kind : TokenKind
  flaw : Option String
  taken : List Char
  width : Nat
  rest : List Char
  deriving DecidableEq, Repr

/-- A token of whole characters. -/
def Cut.of (kind : TokenKind) (flaw : Option String) (taken rest : List Char) : Cut :=
  ⟨kind, flaw, taken, byteLength taken, rest⟩

/-- Cuts the token off that starts with a character. -/
def cutToken (c : Char) (cs : List Char) : Cut :=
  if isWordStart c then
    let word := c :: cs.takeWhile isWordPart
    .of (wordKind word) none word (cs.dropWhile isWordPart)
  else if c.isDigit then
    let rest := cs.dropWhile Char.isDigit
    match rest with
    | d :: _ =>
      if isWordStart d then
        .of .invalid (some "malformed integer literal") (c :: cs.takeWhile isWordPart)
          (cs.dropWhile isWordPart)
      else .of .integer none (c :: cs.takeWhile Char.isDigit) rest
    | [] => .of .integer none (c :: cs.takeWhile Char.isDigit) rest
  else if isQuote c then
    let r := (literalRest c cs).after [c]
    if r.closed then ⟨.string, none, r.taken, r.width, r.rest⟩
    else ⟨.invalid, some "unterminated string literal", r.taken, r.width, r.rest⟩
  else
    match punctuation? c with
    | some kind => .of kind none [c] cs
    | none => .of .invalid (some "unexpected character") [c] cs

/-! ### What is left is shorter -/

theorem length_dropWhile_le (p : Char → Bool) (cs : List Char) :
    (cs.dropWhile p).length ≤ cs.length :=
  (List.dropWhile_suffix p).length_le

theorem length_splitComment {cs a b : List Char} (h : splitComment cs = some (a, b)) :
    b.length ≤ cs.length := by
  fun_induction splitComment cs generalizing a b with
  | case1 cs => simp_all; omega
  | case2 c cs _ ih =>
    obtain ⟨p, hp, hb⟩ := Option.map_eq_some_iff.1 h
    simp only [Prod.mk.injEq] at hb
    have := ih (a := p.1) (b := p.2) (by rw [hp])
    simp only [List.length_cons, ← hb.2]
    omega
  | case3 => simp at h

theorem length_literalRest (quote : Char) (cs : List Char) :
    (literalRest quote cs).rest.length ≤ cs.length := by
  fun_induction literalRest quote cs with
  | case1 => simp
  | case2 => simp
  | case3 => simp
  | case4 c cs ih => simp [LiteralRest.after]; omega
  | case5 => simp
  | case6 c cs _ _ _ h ih => simp [LiteralRest.after]; omega

theorem length_cutToken (c : Char) (cs : List Char) : (cutToken c cs).rest.length ≤ cs.length := by
  have hw := length_dropWhile_le isWordPart cs
  have hd := length_dropWhile_le Char.isDigit cs
  have hl := length_literalRest c cs
  unfold cutToken
  split
  · exact hw
  · split
    · simp only
      split
      · split
        · exact hw
        · exact hd
      · exact hd
    · split
      · simp only
        split <;> exact hl
      · split <;> simp [Cut.of]

/-! ### The tokens of a text -/

/-- The tokens of a text that starts at an offset. -/
def lexFrom (file : FileId) : Nat → List Char → Lexed
  | pos, [] => ⟨[⟨.endOfFile, "", ⟨file, pos, pos⟩⟩], []⟩
  | pos, c :: cs =>
    if isSpace c then lexFrom file (pos + c.utf8Size) cs
    else if c = '/' ∧ cs.head? = some '/' then
      lexFrom file (pos + 1 + byteLength (cs.takeWhile (· ≠ '\n'))) (cs.dropWhile (· ≠ '\n'))
    else if c = '/' ∧ cs.head? = some '*' then
      match _h : splitComment cs.tail with
      | some (comment, rest) => lexFrom file (pos + 2 + byteLength comment) rest
      | none =>
        let stop := pos + 1 + byteLength cs
        (lexFrom file stop []).addError
          (.error lexCode "unterminated block comment" ⟨file, pos, stop⟩)
    else
      let cut := cutToken c cs
      let span : Span := ⟨file, pos, pos + cut.width⟩
      let following :=
        (lexFrom file (pos + cut.width) cut.rest).addToken
          ⟨cut.kind, String.ofList cut.taken, span⟩
      match cut.flaw with
      | some flaw => following.addError (.error lexCode flaw span)
      | none => following
termination_by _ cs => cs.length
decreasing_by
  · simp
  · have := length_dropWhile_le (· ≠ '\n') cs
    simp only [List.length_cons]
    omega
  · have := length_splitComment _h
    simp only [List.length_cons, List.length_tail] at *
    omega
  · simp
  · have := length_cutToken c cs
    simp only [List.length_cons]
    omega

section Steps

variable {file : FileId} {pos : Nat} {c : Char} {cs : List Char}

theorem lexFrom_nil : lexFrom file pos [] = ⟨[⟨.endOfFile, "", ⟨file, pos, pos⟩⟩], []⟩ := by
  rw [lexFrom]

theorem lexFrom_space (h : isSpace c = true) :
    lexFrom file pos (c :: cs) = lexFrom file (pos + c.utf8Size) cs := by
  rw [lexFrom, if_pos h]

theorem lexFrom_line (hspace : ¬ isSpace c = true) (h : c = '/' ∧ cs.head? = some '/') :
    lexFrom file pos (c :: cs) =
      lexFrom file (pos + 1 + byteLength (cs.takeWhile (· ≠ '\n'))) (cs.dropWhile (· ≠ '\n')) := by
  rw [lexFrom, if_neg hspace, if_pos h]

theorem lexFrom_block (hspace : ¬ isSpace c = true) (hline : ¬ (c = '/' ∧ cs.head? = some '/'))
    (h : c = '/' ∧ cs.head? = some '*') {comment rest : List Char}
    (hsplit : splitComment cs.tail = some (comment, rest)) :
    lexFrom file pos (c :: cs) = lexFrom file (pos + 2 + byteLength comment) rest := by
  rw [lexFrom, if_neg hspace, if_neg hline, if_pos h]
  split
  · rename_i hsplit'
    cases hsplit.symm.trans hsplit'
    rfl
  · rename_i hsplit'
    cases hsplit.symm.trans hsplit'

theorem lexFrom_unended (hspace : ¬ isSpace c = true) (hline : ¬ (c = '/' ∧ cs.head? = some '/'))
    (h : c = '/' ∧ cs.head? = some '*') (hsplit : splitComment cs.tail = none) :
    lexFrom file pos (c :: cs) =
      (lexFrom file (pos + 1 + byteLength cs) []).addError (.error lexCode
        "unterminated block comment" ⟨file, pos, pos + 1 + byteLength cs⟩) := by
  conv =>
    lhs
    rw [lexFrom, if_neg hspace, if_neg hline, if_pos h]
  split
  · rename_i hsplit'
    cases hsplit.symm.trans hsplit'
  · rfl

theorem lexFrom_token (hspace : ¬ isSpace c = true) (hline : ¬ (c = '/' ∧ cs.head? = some '/'))
    (hblock : ¬ (c = '/' ∧ cs.head? = some '*')) :
    lexFrom file pos (c :: cs) =
      let cut := cutToken c cs
      let span : Span := ⟨file, pos, pos + cut.width⟩
      let following :=
        (lexFrom file (pos + cut.width) cut.rest).addToken
          ⟨cut.kind, String.ofList cut.taken, span⟩
      match cut.flaw with
      | some flaw => following.addError (.error lexCode flaw span)
      | none => following := by
  rw [lexFrom, if_neg hspace, if_neg hline, if_neg hblock]

end Steps

/-- All tokens have what the end of a file has and every token that is cut off a text. -/
theorem forall_mem_lexFrom {P : Token → Prop} {file : FileId}
    (hend : ∀ pos, P ⟨.endOfFile, "", ⟨file, pos, pos⟩⟩)
    (hcut : ∀ c cs span, P ⟨(cutToken c cs).kind, String.ofList (cutToken c cs).taken, span⟩)
    (pos : Nat) (cs : List Char) : ∀ t ∈ (lexFrom file pos cs).tokens, P t := by
  fun_induction lexFrom file pos cs with
  | case1 pos => exact List.forall_mem_singleton.2 (hend pos)
  | case2 pos c cs hspace ih => exact ih
  | case3 pos c cs hspace hline ih => exact ih
  | case4 pos c cs hspace hline hblock comment rest hsplit ih => exact ih
  | case5 pos c cs hspace hline hblock hsplit stop ih => exact ih
  | case6 pos c cs hspace hline hblock cut span following flaw hflaw ih =>
    exact List.forall_mem_cons.2 ⟨hcut c cs span, ih⟩
  | case7 pos c cs hspace hline hblock cut span following hflaw ih =>
    exact List.forall_mem_cons.2 ⟨hcut c cs span, ih⟩

/-- The tokens of the text of a file. -/
def lex (file : FileId) (text : String) : Lexed := lexFrom file 0 text.toList

end Schemata.Schema

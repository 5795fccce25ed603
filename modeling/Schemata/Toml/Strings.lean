/-!
# TOML strings

A string stands between quotes of one of four kinds: single or double, alone or in threes. Double
quotes allow escapes, threes allow line breaks. Reading takes all kinds, writing takes the plainest
kind that can hold the text. All text is read with its line ends as single newlines.
-/

namespace Schemata.Toml

/-- A reader takes a part off the front of a text. -/
abbrev Reader (α : Type) := List Char → Option (α × List Char)

/-- Whether a character may stand as it is in a comment or a string. -/
def isShown (c : Char) : Bool := c = '\t' || (0x20 ≤ c.toNat && c.toNat ≠ 0x7f)

def isBlankChar (c : Char) : Bool := c = ' ' || c = '\t'

/-! ### Escapes -/

/-- The value of a hexadecimal digit of either case. -/
def hexDigit? (c : Char) : Option Nat :=
  if '0' ≤ c ∧ c ≤ '9' then some (c.toNat - 48)
  else if 'a' ≤ c ∧ c ≤ 'f' then some (c.toNat - 87)
  else if 'A' ≤ c ∧ c ≤ 'F' then some (c.toNat - 55)
  else none

/-- The number that hexadecimal digits stand for. -/
def hexNumber? (digits : List Char) : Option Nat :=
  digits.foldlM (fun n c => (hexDigit? c).map (n * 16 + ·)) 0

/-- The character of a code point that is written with a fixed number of digits. -/
def codePoint? (count : Nat) (s : List Char) : Option Char := do
  let digits := s.take count
  guard (digits.length = count)
  let n ← hexNumber? digits
  guard (n.isValidChar)
  return Char.ofNat n

/-- What an escape stands for, from the text after its backslash, and the length of that text. -/
def escaped? : List Char → Option (Char × Nat)
  | 'b' :: _ => some ('\x08', 1)
  | 't' :: _ => some ('\t', 1)
  | 'n' :: _ => some ('\n', 1)
  | 'f' :: _ => some ('\x0c', 1)
  | 'r' :: _ => some ('\r', 1)
  | '"' :: _ => some ('"', 1)
  | '\\' :: _ => some ('\\', 1)
  | 'u' :: s => (codePoint? 4 s).map fun c => (c, 5)
  | 'U' :: s => (codePoint? 8 s).map fun c => (c, 9)
  | _ => none

/-- The text after a line break, the blanks before it and all blanks and breaks after it. -/
def lineBreak? (s : List Char) : Option (List Char) :=
  match s.dropWhile isBlankChar with
  | '\n' :: rest => some (rest.dropWhile fun c => isBlankChar c || c = '\n')
  | _ => none

theorem length_lineBreak? {s rest : List Char} (h : lineBreak? s = some rest) :
    rest.length ≤ s.length := by
  have hs := (List.dropWhile_suffix (l := s) isBlankChar).length_le
  unfold lineBreak? at h
  split at h
  · rename_i after e
    cases h
    have := (List.dropWhile_suffix (l := after) fun c => isBlankChar c || c = '\n').length_le
    rw [e] at hs
    simp only [List.length_cons] at hs
    omega
  · simp at h

/-! ### Reading -/

structure StringKind where
  quote : Char
  /-- Whether the quotes stand in threes. -/
  long : Bool
  deriving DecidableEq

namespace StringKind

def hasEscapes (k : StringKind) : Bool := k.quote = '"'

def delimiter (k : StringKind) : List Char := List.replicate (if k.long then 3 else 1) k.quote

/-- The end of a string: the quotes that still belong to it, and the rest after the closing ones.
Up to two quotes may stand before three closing ones. -/
def close? (k : StringKind) (s : List Char) : Option (List Char × List Char) :=
  if k.long then
    let run := (s.takeWhile (· = k.quote)).length
    if run < 3 then none
    else some (List.replicate (min (run - 3) 2) k.quote, s.drop (min run 5))
  else
    match s with
    | c :: rest => if c = k.quote then some ([], rest) else none
    | [] => none

/-- Whether a character may stand as it is in a string that it does not close. -/
def accepts (k : StringKind) (c : Char) : Bool := isShown c || (k.long && c = '\n')

/-- The text of a string and the rest after it, from after the opening quotes. -/
def body (k : StringKind) (s : List Char) : Option (List Char × List Char) :=
  match k.close? s with
  | some r => some r
  | none =>
    match s with
    | [] => none
    | c :: cs =>
      if c = '\\' && k.hasEscapes then
        match _h : if k.long then lineBreak? cs else none with
        | some rest => body k rest
        | none =>
          match escaped? cs with
          | some (x, n) => (body k (cs.drop n)).map fun r => (x :: r.1, r.2)
          | none => none
      else if k.accepts c then (body k cs).map fun r => (c :: r.1, r.2)
      else none
termination_by s.length
decreasing_by
  · have := length_lineBreak? (Option.ite_none_right_eq_some.1 _h).2
    simp only [List.length_cons]
    omega
  · simp only [List.length_drop, List.length_cons]
    omega
  · simp

end StringKind

/-- The kind of string that a text opens, and the text after the opening quotes. A line break
right after three quotes does not count. -/
def openString : Reader StringKind
  | a :: s =>
    if a = '"' || a = '\'' then
      match s with
      | b :: c :: rest =>
        if b = a && c = a then
          match rest with
          | '\n' :: rest => some (⟨a, true⟩, rest)
          | rest => some (⟨a, true⟩, rest)
        else some (⟨a, false⟩, s)
      | s => some (⟨a, false⟩, s)
    else none
  | [] => none

def readString : Reader String := fun s => do
  let (kind, rest) ← openString s
  let (text, rest) ← kind.body rest
  return (String.ofList text, rest)

def readShortString : Reader String := fun s =>
  match s with
  | a :: rest =>
    if a = '"' || a = '\'' then
      ((⟨a, false⟩ : StringKind).body rest).map fun r => (String.ofList r.1, r.2)
    else none
  | [] => none

/-! ### Writing -/

/-- Whether a character has to be escaped wherever it stands; a newline need not be in threes. -/
def needsEscape (c : Char) : Bool := !isShown c && c ≠ '\n'

def longestRun (x : Char) (s : List Char) : Nat :=
  (s.foldl (fun (acc : Nat × Nat) c =>
    if c = x then (acc.1 + 1, max acc.2 (acc.1 + 1)) else (0, acc.2)) (0, 0)).2

def escapeOf (c : Char) : List Char :=
  if c = '\x08' then ['\\', 'b']
  else if c = '\t' then ['\\', 't']
  else if c = '\n' then ['\\', 'n']
  else if c = '\x0c' then ['\\', 'f']
  else if c = '\r' then ['\\', 'r']
  else if c = '"' then ['\\', '"']
  else if c = '\\' then ['\\', '\\']
  else if needsEscape c then
    ['\\', 'u', '0', '0', Nat.digitChar (c.toNat / 16), (Nat.digitChar (c.toNat % 16)).toUpper]
  else [c]

/-- A string between double quotes in threes. `run` counts the quotes before this place; the third
quote of a run is escaped. -/
def longEscapes (run : Nat) : List Char → List Char
  | [] => []
  | '"' :: cs =>
    if run = 2 then '\\' :: '"' :: longEscapes 0 cs else '"' :: longEscapes (run + 1) cs
  | '\n' :: cs => '\n' :: longEscapes 0 cs
  | c :: cs => escapeOf c ++ longEscapes 0 cs

/-- The kind of string a text is written as, and whether its characters are written as they are. -/
def writtenKind (s : List Char) : StringKind × Bool :=
  let hard := s.any needsEscape
  let breaks := s.contains '\n'
  let slashes := s.contains '\\'
  let doubles := longestRun '"' s
  let singles := longestRun '\'' s
  if !hard && !breaks && !slashes && doubles = 0 then (⟨'"', false⟩, true)
  else if !hard && !breaks && singles = 0 then (⟨'\'', false⟩, true)
  else if !hard && !slashes && doubles < 3 then (⟨'"', true⟩, true)
  else if !hard && singles < 3 then (⟨'\'', true⟩, true)
  else (⟨'"', breaks⟩, false)

def writeString (text : String) : String :=
  let s := text.toList
  let (kind, plain) := writtenKind s
  let opening := if kind.long && s.contains '\n' then ['\n'] else []
  let inner := if plain then s else if kind.long then longEscapes 0 s else s.flatMap escapeOf
  String.ofList (kind.delimiter ++ opening ++ inner ++ kind.delimiter)

def assignment (key text : String) : String := key ++ " = " ++ writeString text ++ "\n"

end Schemata.Toml

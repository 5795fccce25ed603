import Schemata.Toml.Assignment

/-!
# TOML documents

Reading a document. Its statements, one to a line, open tables and assign values; the tables they
add up to are the document's value. Any fault refuses the whole document.
-/

namespace Schemata.Toml

/-! ### Ends of lines -/

/-- Drops blanks and a comment after them. -/
def skipRemark (s : List Char) : List Char :=
  match skipBlanks s with
  | '#' :: s => s.dropWhile isShown
  | s => s

theorem length_skipRemark (s : List Char) : (skipRemark s).length ≤ s.length := by
  have hs := length_skipBlanks s
  unfold skipRemark
  split
  · rename_i rest e
    have := (List.dropWhile_suffix (l := rest) isShown).length_le
    rw [e] at hs
    simp only [List.length_cons] at hs
    omega
  · exact hs

/-- Takes the end of a line, with a comment before it. -/
def lineEnd (s : List Char) : Option (List Char) :=
  match skipRemark s with
  | '\n' :: rest => some rest
  | [] => some []
  | _ => none

theorem length_lineEnd {s rest : List Char} (h : lineEnd s = some rest) :
    rest.length ≤ s.length := by
  have hs := length_skipRemark s
  unfold lineEnd at h
  split at h
  · rename_i e
    cases h
    rw [e] at hs
    simp only [List.length_cons] at hs
    omega
  · cases h
    simp
  · simp at h

/-! ### Statements -/

inductive Statement
  | openTable (path : List String)
  | openItem (path : List String)
  | assign (a : Assignment)

def readHeader : Reader (List String) := fun s =>
  (readPath s).map fun r => (r.1.1 ++ [r.1.2], r.2)

def readStatement : Reader Statement
  | '[' :: '[' :: s => do
    let (path, rest) ← readHeader s
    let rest ← mark ']' rest
    let rest ← mark ']' rest
    return (.openItem path, rest)
  | '[' :: s => do
    let (path, rest) ← readHeader s
    let rest ← mark ']' rest
    return (.openTable path, rest)
  | s => (readAssignment readValue s).map fun r => (.assign r.1, r.2)

theorem advances_readHeader : Advances readHeader :=
  advances_readPath.map fun p => p.1 ++ [p.2]

theorem advances_readStatement : Advances readStatement := by
  intro s r h
  unfold readStatement at h
  split at h
  · simp only [Option.bind_eq_bind, Option.bind_eq_some_iff, Option.pure_def,
      Option.some.injEq] at h
    obtain ⟨path, hp, rest, h₁, rest', h₂, rfl⟩ := h
    have := advances_readHeader _ _ hp
    have := length_mark h₁
    have := length_mark h₂
    simp only [List.length_cons]
    omega
  · simp only [Option.bind_eq_bind, Option.bind_eq_some_iff, Option.pure_def,
      Option.some.injEq] at h
    obtain ⟨path, hp, rest, h₁, rfl⟩ := h
    have := advances_readHeader _ _ hp
    have := length_mark h₁
    simp only [List.length_cons]
    omega
  · exact (advances_readAssignment advances_readValue).map _ _ _ h

def readStatements (s : List Char) : Option (List Statement) :=
  match _hs : skipGap false s with
  | [] => some []
  | start =>
    match _hr : readStatement start with
    | none => none
    | some (statement, rest) =>
      match _he : lineEnd rest with
      | none => none
      | some rest => (readStatements rest).map (statement :: ·)
termination_by s.length
decreasing_by
  have h₁ := length_skipGap false s
  have h₂ := advances_readStatement _ _ _hr
  have h₃ := length_lineEnd _he
  rw [_hs] at h₁
  simp only at h₂
  omega

/-- Carries out statements under the header that was opened last. -/
def carryOut : List String → Draft → List Statement → Option Draft
  | _, d, [] => some d
  | _, d, .openTable path :: rest => do carryOut path (← d.openTable path) rest
  | _, d, .openItem path :: rest => do carryOut path (← d.openItem path) rest
  | header, d, .assign a :: rest => do
    carryOut header (← d.assignUnder header a.path a.key a.value) rest

/-- A text with single newlines for all its line ends. -/
def unifyLineEnds : List Char → List Char
  | '\r' :: '\n' :: cs => '\n' :: unifyLineEnds cs
  | c :: cs => c :: unifyLineEnds cs
  | [] => []

/-- A text without a byte order mark at its start. -/
def withoutMark : List Char → List Char
  | '\uFEFF' :: s => s
  | s => s

def parse (text : String) : Option Value := do
  let statements ← readStatements (unifyLineEnds (withoutMark text.toList))
  return (← carryOut [] [] statements).finish

end Schemata.Toml

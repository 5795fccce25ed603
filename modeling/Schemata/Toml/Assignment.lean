import Schemata.Toml.Draft
import Schemata.Toml.Progress

/-!
# Assignments

Reading an assignment: a path of keys, and the value it gets. A value may be an array of values, or
a table of assignments in braces. The loops over items, entries and keys end because each of them
takes something.
-/

namespace Schemata.Toml

/-! ### Gaps -/

def skipBlanks (s : List Char) : List Char := s.dropWhile isBlankChar

theorem length_skipBlanks (s : List Char) : (skipBlanks s).length ≤ s.length :=
  (List.dropWhile_suffix isBlankChar).length_le

/-- Drops blanks, line breaks and comments; the flag tells whether the text starts in a comment. A
comment ends before the first character that may not stand in it. -/
def skipGap : Bool → List Char → List Char
  | true, '\n' :: cs => skipGap false cs
  | true, c :: cs => if isShown c then skipGap true cs else c :: cs
  | false, '#' :: cs => skipGap true cs
  | false, c :: cs => if isBlankChar c || c = '\n' then skipGap false cs else c :: cs
  | _, [] => []

theorem length_skipGap (inComment : Bool) (s : List Char) :
    (skipGap inComment s).length ≤ s.length := by
  fun_induction skipGap inComment s <;> simp_all <;> omega

/-! ### Keys -/

/-- The greatest number of keys in a path, and of arrays and tables inside each other. -/
def maxDepth : Nat := 79

/-- Whether a character may stand in a key without quotes. -/
def isBareKeyChar (c : Char) : Bool := c.isAlphanum || c = '_' || c = '-'

def readKey : Reader String := fun s =>
  match readShortString s with
  | some r => some r
  | none =>
    match s.takeWhile isBareKeyChar with
    | [] => none
    | key => some (String.ofList key, s.dropWhile isBareKeyChar)

theorem advances_readKey : Advances readKey := by
  intro s r h
  unfold readKey at h
  split at h
  · rename_i e
    cases h
    exact advances_readShortString _ _ e
  · split at h
    · simp at h
    · rename_i e
      cases h
      have := congrArg List.length (List.takeWhile_append_dropWhile (p := isBareKeyChar) (l := s))
      have := List.length_pos_iff.2 e
      simp only [List.length_append] at *
      omega

/-- After a key and a dot, less is left than before. -/
theorem length_afterDot {s rest rest' : List Char} {key : String}
    (hk : readKey (skipBlanks s) = some (key, rest)) (hd : skipBlanks rest = '.' :: rest') :
    rest'.length < s.length := by
  have h₁ := advances_readKey _ _ hk
  have h₂ := length_skipBlanks s
  have h₃ := length_skipBlanks rest
  rw [hd] at h₃
  simp only [List.length_cons] at *
  omega

def readKeys (s : List Char) : Option (List String × List Char) :=
  match _hk : readKey (skipBlanks s) with
  | none => none
  | some (key, rest) =>
    match _hd : skipBlanks rest with
    | '.' :: rest => (readKeys rest).map fun r => (key :: r.1, r.2)
    | rest => some ([key], rest)
termination_by s.length
decreasing_by exact length_afterDot _hk _hd

theorem advances_readKeys : Advances readKeys := by
  intro s r h
  fun_induction readKeys s generalizing r with
  | case1 => simp at h
  | case2 s key rest hk rest' hd ih =>
    obtain ⟨r', hr, rfl⟩ := Option.map_eq_some_iff.1 h
    have := ih r' hr
    have := length_afterDot hk hd
    simp only
    omega
  | case3 s key rest hk =>
    cases h
    have h₁ := advances_readKey _ _ hk
    have h₂ := length_skipBlanks s
    have h₃ := length_skipBlanks rest
    simp only at *
    omega

/-- Reads a path: the keys to a table, and a key in it. -/
def readPath : Reader (List String × String) := fun s => do
  let (keys, rest) ← readKeys s
  let last ← keys.getLast?
  if keys.length ≤ maxDepth then some ((keys.dropLast, last), rest) else none

theorem advances_readPath : Advances readPath := by
  intro s r h
  simp only [readPath, Option.bind_eq_bind, Option.bind_eq_some_iff,
    Option.ite_none_right_eq_some, Option.some.injEq] at h
  obtain ⟨keys, hk, _, _, _, rfl⟩ := h
  exact advances_readKeys _ _ hk

/-! ### Values -/

/-- After an item, what is left past the gap is shorter than before it. -/
theorem length_afterItem {item : Reader Value} (advances : Advances item) {s start rest : List Char}
    {v : Value} (hs : skipGap false s = start) (hi : item start = some (v, rest)) :
    (skipGap false rest).length < s.length := by
  have h₁ := advances _ _ hi
  have h₂ := length_skipGap false s
  have h₃ := length_skipGap false rest
  rw [hs] at h₂
  simp only at h₁
  omega

def readItems (item : Reader Value) (advances : Advances item) (s : List Char) :
    Option (List Value × List Char) :=
  match _hs : skipGap false s with
  | ']' :: rest => some ([], rest)
  | start =>
    match _hi : item start with
    | none => none
    | some (v, rest) =>
      match _hc : skipGap false rest with
      | ',' :: rest => (readItems item advances rest).map fun r => (v :: r.1, r.2)
      | ']' :: rest => some ([v], rest)
      | _ => none
termination_by s.length
decreasing_by
  have := length_afterItem advances _hs _hi
  rw [_hc] at this
  simp only [List.length_cons] at this
  omega

theorem advances_readItems {item : Reader Value} (advances : Advances item) :
    Advances (readItems item advances) := by
  intro s r h
  fun_induction readItems item advances s generalizing r with
  | case1 s rest hs =>
    cases h
    have := length_skipGap false s
    rw [hs] at this
    exact this
  | case2 => simp at h
  | case3 s v rest rest' hc _ hi ih =>
    obtain ⟨r', hr, rfl⟩ := Option.map_eq_some_iff.1 h
    have := length_afterItem advances rfl hi
    have := ih r' hr
    rw [hc] at *
    simp only [List.length_cons] at *
    omega
  | case4 s v rest rest' hc _ hi =>
    cases h
    have := length_afterItem advances rfl hi
    rw [hc] at this
    simp only [List.length_cons] at *
    omega
  | case5 => simp at h

/-- An assignment: the path of a key, and its value. -/
structure Assignment where
  path : List String
  key : String
  value : Value

def readAssignment (item : Reader Value) : Reader Assignment := fun s => do
  let ((path, key), rest) ← readPath s
  let rest ← mark '=' rest
  let (v, rest) ← item (skipBlanks rest)
  return (⟨path, key, v⟩, rest)

theorem advances_readAssignment {item : Reader Value} (advances : Advances item) :
    Advances (readAssignment item) := by
  intro s r h
  simp only [readAssignment, Option.bind_eq_bind, Option.bind_eq_some_iff, Option.pure_def,
    Option.some.injEq] at h
  obtain ⟨p, hp, rest, hm, v, hv, rfl⟩ := h
  have := advances_readPath _ _ hp
  have := length_mark hm
  have := length_skipBlanks rest
  have := advances _ _ hv
  simp only
  omega

/-- After an assignment, what is left past the blanks is shorter than before it. -/
theorem length_afterAssignment {item : Reader Value} (advances : Advances item)
    {s rest : List Char} {a : Assignment} (h : readAssignment item s = some (a, rest)) :
    (skipBlanks rest).length < s.length :=
  Nat.lt_of_le_of_lt (length_skipBlanks rest) (advances_readAssignment advances _ _ h)

/-- Reads the assignments of a table in braces, at least one, and its end. -/
def readPairs (item : Reader Value) (advances : Advances item) (s : List Char) :
    Option (List Assignment × List Char) :=
  match _ha : readAssignment item s with
  | none => none
  | some (a, rest) =>
    match _hc : skipBlanks rest with
    | ',' :: rest => (readPairs item advances rest).map fun r => (a :: r.1, r.2)
    | '}' :: rest => some ([a], rest)
    | _ => none
termination_by s.length
decreasing_by
  have := length_afterAssignment advances _ha
  rw [_hc] at this
  simp only [List.length_cons] at this
  omega

theorem advances_readPairs {item : Reader Value} (advances : Advances item) :
    Advances (readPairs item advances) := by
  intro s r h
  fun_induction readPairs item advances s generalizing r with
  | case1 => simp at h
  | case2 s a rest ha rest' hc ih =>
    obtain ⟨r', hr, rfl⟩ := Option.map_eq_some_iff.1 h
    have := length_afterAssignment advances ha
    have := ih r' hr
    rw [hc] at *
    simp only [List.length_cons] at *
    omega
  | case3 s a rest ha rest' hc =>
    cases h
    have := length_afterAssignment advances ha
    rw [hc] at this
    simp only [List.length_cons] at *
    omega
  | case4 => simp at h

/-- Reads a table in braces, after the opening one. -/
def readInlineTable (item : Reader Value) (advances : Advances item) : Reader Value := fun s =>
  match skipBlanks s with
  | '}' :: rest => some (.table [], rest)
  | _ => do
    let (pairs, rest) ← readPairs item advances s
    let draft ← pairs.foldlM (fun (d : Draft) a => d.assign a.key a.value a.path) []
    return (draft.finish, rest)

theorem advances_readInlineTable {item : Reader Value} (advances : Advances item) :
    Advances (readInlineTable item advances) := by
  intro s r h
  unfold readInlineTable at h
  split at h
  · rename_i e
    cases h
    have := length_skipBlanks s
    rw [e] at this
    exact this
  · simp only [Option.bind_eq_bind, Option.bind_eq_some_iff, Option.pure_def,
      Option.some.injEq] at h
    obtain ⟨pairs, hp, _, _, rfl⟩ := h
    exact advances_readPairs advances _ _ hp

def readScalar : Reader Value := fun s =>
  match s with
  | 't' :: 'r' :: 'u' :: 'e' :: rest => some (.boolean true, rest)
  | 'f' :: 'a' :: 'l' :: 's' :: 'e' :: rest => some (.boolean false, rest)
  | c :: _ =>
    if c = '"' || c = '\'' then (readString s).map fun r => (.string r.1, r.2) else readNumber s
  | [] => none

theorem advances_readScalar : Advances readScalar := by
  intro s r h
  unfold readScalar at h
  split at h
  · cases h
    simp only [List.length_cons]
    omega
  · cases h
    simp only [List.length_cons]
    omega
  · split at h
    · exact advances_readString.map _ _ _ h
    · exact advances_readNumber _ _ h
  · simp at h

/-- Reads a value whose items and entries the given reader reads. -/
def readNested (item : Reader Value) (advances : Advances item) : Reader Value
  | '[' :: s => (readItems item advances s).map fun r => (.array r.1, r.2)
  | '{' :: s => readInlineTable item advances s
  | s => readScalar s

theorem advances_readNested {item : Reader Value} (advances : Advances item) :
    Advances (readNested item advances) := by
  intro s r h
  unfold readNested at h
  split at h
  · exact Nat.lt_succ_of_lt ((advances_readItems advances).map _ _ _ h)
  · exact Nat.lt_succ_of_lt (advances_readInlineTable advances _ _ h)
  · exact advances_readScalar _ _ h

/-- The reader of values with at most so many arrays and tables inside each other. -/
def valueReader : Nat → { read : Reader Value // Advances read }
  | 0 => ⟨readScalar, advances_readScalar⟩
  | depth + 1 =>
    let inner := valueReader depth
    ⟨readNested inner.1 inner.2, advances_readNested inner.2⟩

def readValue : Reader Value := (valueReader maxDepth).1

theorem advances_readValue : Advances readValue := (valueReader maxDepth).2

end Schemata.Toml

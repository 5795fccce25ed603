import Schemata.Digest.ContentHash
import Schemata.Source.Span

/-!
# Source texts and positions

A document is the text of a file with the paths it is known by. Byte offsets are shown to users as
a line and a column, both from one; a column counts bytes.
-/

namespace Schemata.Source

structure Position where
  line : Nat
  column : Nat
  deriving DecidableEq, Repr

/-- A span in the words of users: the file's paths and the positions of the first and last byte. -/
structure Place where
  path : String
  external : String
  first : Position
  last : Position
  deriving DecidableEq, Repr

/-- The place of a span, in short. -/
def Place.text (p : Place) : String :=
  s!"{p.external}:{p.first.line}:{p.first.column}"

/-- The offsets after each newline of some bytes that start at an offset. -/
def startsAfterNewlines : Nat → List UInt8 → List Nat
  | _, [] => []
  | offset, b :: rest =>
    if b = 10 then (offset + 1) :: startsAfterNewlines (offset + 1) rest
    else startsAfterNewlines (offset + 1) rest

/-- The offsets at which the lines of a text start, in order. -/
def startsOfLines (text : String) : List Nat := 0 :: startsAfterNewlines 0 text.toUTF8.toList

/-- The text of a file and where its lines start. -/
structure Document where
  path : String
  external : String
  text : String
  lineStarts : List Nat
  lineStarts_eq : lineStarts = startsOfLines text

namespace Document

def ofText (path external text : String) : Document :=
  ⟨path, external, text, startsOfLines text, rfl⟩

/-- Where a number stands in an ordered list, looked for between two indexes by halving: at the
index of its like, or else at the index that it would take. -/
def searchBetween (starts : List Nat) (offset low high : Nat) : Except Nat Nat :=
  if low < high then
    let middle := (low + high) / 2
    match compare offset (starts.getD middle 0) with
    | .eq => .ok middle
    | .lt => searchBetween starts offset low middle
    | .gt => searchBetween starts offset (middle + 1) high
  else .error low
termination_by high - low

def search (starts : List Nat) (offset : Nat) : Except Nat Nat :=
  searchBetween starts offset 0 starts.length

/-- The number of the line that an offset lies on, from zero: the one that starts there, or else
the one before the first that starts later. -/
def lineIndex (starts : List Nat) (offset : Nat) : Nat :=
  match search starts offset with
  | .ok i => i
  | .error i => i - 1

/-- The position of an offset among the starts of lines. -/
def positionAmong (starts : List Nat) (offset : Nat) : Position :=
  let i := lineIndex starts offset
  ⟨i + 1, offset - starts.getD i 0 + 1⟩

/-- The line and the column of an offset. -/
def position (d : Document) (offset : Nat) : Position := positionAmong d.lineStarts offset

/-- The text between two offsets; nothing if they do not enclose whole characters. -/
def slice (d : Document) (start stop : Nat) : String :=
  let bytes := d.text.toUTF8
  if start ≤ stop ∧ stop ≤ bytes.size then (String.fromUTF8? (bytes.extract start stop)).getD ""
  else ""

/-- The position of the last byte of a span, or of its start if it is empty. -/
def lastPosition (d : Document) (s : Span) : Position := d.position (max (s.stop - 1) s.start)

end Document

/-- The loaded files, by number. -/
abbrev Documents := List Document

namespace Documents

def get? (ds : Documents) (id : FileId) : Option Document := (ds : List Document)[id]?

/-- The number of the file that is loaded next. -/
def nextId (ds : Documents) : FileId := ds.length

/-- The place of a span in a loaded file. -/
def place? (ds : Documents) (s : Span) : Option Place := do
  let d ← ds.get? s.file
  return ⟨d.path, d.external, d.position s.start, d.lastPosition s⟩

end Documents

end Schemata.Source

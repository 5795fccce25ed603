import Schemata.Diagnostic.Basic
import Schemata.Sorted
import Schemata.Source.Document
import Schemata.Text.Json

/-!
# Notices

A notice is a finding as it is reported: with paths, a range of lines and columns, a type and
a message. Reports list different notices only, in the order of their fields, as text or as one
JSON object to a line.
-/

namespace Schemata

open Source

/-- A reported finding. Lines and columns are zero where the place is not known. -/
structure Notice where
  path : Option String
  external : Option String
  first : Position
  last : Position
  type : String
  message : String
  deriving DecidableEq, Repr

namespace Notice

/-- A finding about a file as a whole. -/
def ofFile (path external type message : String) : Notice :=
  ⟨some path, some external, ⟨0, 0⟩, ⟨0, 0⟩, type, message⟩

/-- The report of a diagnostic, at the first byte of its span. -/
def ofDiagnostic (ds : Documents) (type : String) (d : Diagnostic) : Notice :=
  match ds.place? d.span with
  | some p => ⟨some p.path, some p.external, p.first, p.first, type, d.message⟩
  | none => ⟨none, none, ⟨0, 0⟩, ⟨0, 0⟩, type, d.message⟩

/-! ### Order -/

/-- Positions by line, then by column. -/
def comparePositions (a b : Position) : Ordering :=
  (compare a.line b.line).then (compare a.column b.column)

/-- Optional texts, none before any. -/
def compareTexts? : Option String → Option String → Ordering
  | none, none => .eq
  | none, some _ => .lt
  | some _, none => .gt
  | some a, some b => compare a b

def compareFields (a b : Notice) : Ordering :=
  (compareTexts? a.path b.path).then <|
  (compareTexts? a.external b.external).then <|
  (comparePositions a.first b.first).then <|
  (comparePositions a.last b.last).then <|
  (compare a.type b.type).then <|
  compare a.message b.message

/-- The different notices, in order. -/
def sortDistinct (as : List Notice) : List Notice :=
  (sortedWith (fun a b => (compareFields a b).isLE) as).eraseReps

/-! ### Rendering -/

/-- A notice as a line of text, without the line's end. -/
def text (a : Notice) : String :=
  let path := (a.external <|> a.path).getD "<input>"
  if a.first.line > 0 then s!"{path}:{a.first.line}:{a.first.column}:{a.message}"
  else s!"{path}:{a.message}"

def json (a : Notice) : Text.Json :=
  .object [("path", .ofString? a.path), ("external_path", .ofString? a.external),
    ("start_line", .number a.first.line), ("start_column", .number a.first.column),
    ("end_line", .number a.last.line), ("end_column", .number a.last.column),
    ("type", .string a.type), ("message", .string a.message)]

def textReport (as : List Notice) : String := String.join (as.map fun a => a.text ++ "\n")

def jsonReport (as : List Notice) : String := String.join (as.map fun a => a.json.text ++ "\n")

end Notice

end Schemata

import Schemata.Source.Span
import Schemata.Text.Json

/-!
# Diagnostics

What reading and linking schema files has to say about a place in them. Tools read it as JSON, where
a span is the pair of its offsets.
-/

namespace Schemata

open Source
open Text (Json)

inductive Severity
  | note
  | warning
  | error
  deriving DecidableEq, Repr

def Severity.text : Severity → String
  | .note => "note"
  | .warning => "warning"
  | .error => "error"

/-- What a diagnostic is about: reading a file, linking files, or neither. -/
inductive Category
  | reading
  | linking
  | advice
  deriving DecidableEq, Repr

/-- The number of a diagnostic within its category. -/
structure Code where
  category : Category
  number : Nat
  deriving DecidableEq, Repr

namespace Code

/-- The letter that opens the codes of a category. -/
def letter : Category → String
  | .reading => "P"
  | .linking => "L"
  | .advice => "W"

/-- The code as users see it: a letter and at least three digits. -/
def text (c : Code) : String :=
  let digits := Nat.toDigits 10 c.number
  letter c.category ++ String.ofList (List.replicate (3 - digits.length) '0' ++ digits)

end Code

/-- A remark on a further place. -/
structure Label where
  span : Span
  message : String
  isPrimary : Bool
  deriving DecidableEq, Repr

structure Diagnostic where
  severity : Severity
  code : Code
  message : String
  span : Span
  labels : List Label
  notes : List String
  deriving DecidableEq, Repr

namespace Diagnostic

/-- An error without labels and notes. -/
def error (code : Code) (message : String) (span : Span) : Diagnostic :=
  ⟨.error, code, message, span, [], []⟩

def withRemark (d : Diagnostic) (span : Span) (message : String) : Diagnostic :=
  { d with labels := d.labels ++ [⟨span, message, false⟩] }

def isError (d : Diagnostic) : Bool := d.severity = .error

def countErrors (ds : List Diagnostic) : Nat := ds.countP isError

end Diagnostic

/-! ### JSON -/

/-- A span as JSON; the file is left out. -/
def Source.Span.json (s : Source.Span) : Json := .array [.number s.start, .number s.stop]

def Label.json (l : Label) : Json :=
  .object [("span", l.span.json), ("message", .string l.message),
    ("style", .string (if l.isPrimary then "Primary" else "Secondary"))]

def Diagnostic.json (d : Diagnostic) : Json :=
  .object [("severity", .string d.severity.text), ("code", .string d.code.text),
    ("message", .string d.message), ("span", d.span.json),
    ("labels", .array (d.labels.map Label.json)), ("notes", .ofStrings d.notes)]

end Schemata

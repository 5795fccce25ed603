import Schemata.Toml.Value

/-!
# Tables under construction

A document names tables by headers and fills them with assignments, both by paths of keys. Where a
path leads through tables that nobody named, they are made on the way. What a later path may do
with a table depends on how it came about.
-/

namespace Schemata.Toml

/-- How a table came about. -/
inductive Origin
  /-- A header named it. -/
  | header
  /-- It lay on the way of a header. -/
  | passage
  /-- It lay on the way of an assignment. -/
  | assignment
  deriving DecidableEq

/-- A value, a table, or the tables of an array that headers extend, the latest first. -/
inductive Node
  | value (v : Value)
  | table (origin : Origin) (entries : List (String × Node))
  | tables (items : List (List (String × Node)))

/-- A table under construction. -/
abbrev Draft := List (String × Node)

namespace Draft

def find? (d : Draft) (key : String) : Option Node :=
  (List.find? (fun e => e.1 == key) d).map (·.2)

/-- Puts a node in the place of a key, or at the end. -/
def set (key : String) (node : Node) : Draft → Draft
  | [] => [(key, node)]
  | e :: es => if e.1 = key then (key, node) :: es else e :: set key node es

/-- Assigns a value to a key of the table at a path. Only tables that lay on the way of an
assignment may get new keys this way, and a key never gets a second value. -/
def assign (key : String) (v : Value) : List String → Draft → Option Draft
  | [], d =>
    match d.find? key with
    | none => some (d.set key (.value v))
    | some _ => none
  | k :: ks, d =>
    match d.find? k with
    | none => (assign key v ks []).map fun inner => d.set k (.table .assignment inner)
    | some (.table origin inner) =>
      if origin = .header ∨ (ks = [] ∧ origin ≠ .assignment) then none
      else (assign key v ks inner).map fun inner => d.set k (.table origin inner)
    | some (.tables (item :: older)) =>
      if ks = [] then none
      else (assign key v ks item).map fun item => d.set k (.tables (item :: older))
    | some (.tables []) => none
    | some (.value _) => none

/-- Changes the node that a header names. -/
def atHeader (change : Option Node → Option Node) : List String → Draft → Option Draft
  | [], _ => none
  | [k], d => (change (d.find? k)).map fun node => d.set k node
  | k :: ks, d =>
    match d.find? k with
    | none => (atHeader change ks []).map fun inner => d.set k (.table .passage inner)
    | some (.table origin inner) =>
      (atHeader change ks inner).map fun inner => d.set k (.table origin inner)
    | some (.tables (item :: older)) =>
      (atHeader change ks item).map fun item => d.set k (.tables (item :: older))
    | some (.tables []) => none
    | some (.value _) => none

/-- Opens the table of a header. Nobody may have named it before. -/
def openTable (path : List String) (d : Draft) : Option Draft :=
  d.atHeader
    (fun
      | none => some (.table .header [])
      | some (.table .passage inner) => some (.table .header inner)
      | some _ => none)
    path

/-- Adds a table to the array of a header. -/
def openItem (path : List String) (d : Draft) : Option Draft :=
  d.atHeader
    (fun
      | none => some (.tables [[]])
      | some (.tables items) => some (.tables ([] :: items))
      | some _ => none)
    path

/-- Assigns a value within the table of a header; no header stands for the document itself. -/
def assignUnder (header path : List String) (key : String) (v : Value) (d : Draft) :
    Option Draft :=
  if header = [] then d.assign key v path
  else
    d.atHeader
      (fun
        | some (.table origin inner) => (assign key v path inner).map (.table origin)
        | some (.tables (item :: older)) =>
          (assign key v path item).map fun item => .tables (item :: older)
        | _ => none)
      header

mutual

def valueOf : Node → Value
  | .value v => v
  | .table _ entries => .table (entriesOf entries)
  | .tables items => .array (tablesOf items).reverse

def entriesOf : List (String × Node) → List (String × Value)
  | [] => []
  | (key, node) :: es => (key, valueOf node) :: entriesOf es

/-- The finished tables of an array, in the same order. -/
def tablesOf : List (List (String × Node)) → List Value
  | [] => []
  | item :: items => .table (entriesOf item) :: tablesOf items

end

def finish (d : Draft) : Value := .table (entriesOf d)

end Draft

end Schemata.Toml

import Schemata.Toml.Datetime

/-!
# TOML values

What a TOML document says. A document is a table. Of floats only their presence is kept, because no
settings file holds one.
-/

namespace Schemata.Toml

/-- A value. The entries of a table have different keys and stand in the order they were written. -/
inductive Value
  | string (text : String)
  | integer (n : Int)
  | float
  | boolean (b : Bool)
  | datetime (d : Datetime)
  | array (items : List Value)
  | table (entries : List (String × Value))

namespace Value

def text? : Value → Option String
  | .string text => some text
  | _ => none

def flag? : Value → Option Bool
  | .boolean b => some b
  | _ => none

/-- The items of an array, each as something else. -/
def items? {α : Type} (item : Value → Option α) : Value → Option (List α)
  | .array items => items.mapM item
  | _ => none

/-- The key under which a date stands in a table of its own. -/
def datetimeKey : String := "$__toml_private_datetime"

/-- The entries of a table, each value as something else. Where any keys are welcome, a date counts
as a table that holds nothing but its text. -/
def entries? {α : Type} (value : Value → Option α) : Value → Option (List (String × α))
  | .table entries => entries.mapM fun e => (value e.2).map fun v => (e.1, v)
  | .datetime d => (value (.string d.text)).map fun v => [(datetimeKey, v)]
  | _ => none

/-- The values of a record's fields: of a table that has no other keys, or of an array that lists
the values in the order of the fields. Items past the last field say nothing. -/
def fields? (names : List String) : Value → Option (List (Option Value))
  | .table entries =>
    if entries.all fun e => names.contains e.1 then
      some (names.map fun name => (entries.find? fun e => e.1 == name).map (·.2))
    else none
  | .array items => some ((List.range names.length).map fun i => items[i]?)
  | _ => none

end Value

/-! ### Fields -/

def required {α : Type} (read : Value → Option α) : Option Value → Option α
  | some v => read v
  | none => none

def optional {α : Type} (absent : α) (read : Value → Option α) : Option Value → Option α
  | some v => read v
  | none => some absent

end Schemata.Toml

/-!
# JSON text

Reports and images are written as JSON without blanks, with the fields of an object in a fixed
order.
-/

namespace Schemata.Text

inductive Json
  | null
  | bool (b : Bool)
  | number (n : Int)
  | string (s : String)
  | array (items : List Json)
  | object (fields : List (String × Json))

namespace Json

def charText (c : Char) : List Char :=
  if c = '"' then ['\\', '"']
  else if c = '\\' then ['\\', '\\']
  else if c = '\n' then ['\\', 'n']
  else if c = '\r' then ['\\', 'r']
  else if c = '\t' then ['\\', 't']
  else if c.toNat = 8 then ['\\', 'b']
  else if c.toNat = 12 then ['\\', 'f']
  else if c.toNat < 32 then
    ['\\', 'u', '0', '0', Nat.digitChar (c.toNat / 16), Nat.digitChar (c.toNat % 16)]
  else [c]

def stringText (s : String) : String :=
  String.ofList ('"' :: s.toList.flatMap charText ++ ['"'])

def ofString? (s : Option String) : Json := s.elim .null .string

def ofStrings (ss : List String) : Json := .array (ss.map .string)

mutual

def text : Json → String
  | .null => "null"
  | .bool b => toString b
  | .number n => toString n
  | .string s => stringText s
  | .array items => "[" ++ String.intercalate "," (itemTexts items) ++ "]"
  | .object fields => "\x7b" ++ String.intercalate "," (fieldTexts fields) ++ "\x7d"

def itemTexts : List Json → List String
  | [] => []
  | v :: vs => v.text :: itemTexts vs

def fieldTexts : List (String × Json) → List String
  | [] => []
  | (name, v) :: fs => (stringText name ++ ":" ++ v.text) :: fieldTexts fs

end

end Json

end Schemata.Text

import Schemata.Text.Unshown

/-!
# Quoted text

How messages show a string that may hold anything: between double quotes, with a backslash before
a quote or a backslash, short escapes for the common controls, and the code point in lower-case
hexadecimal for every other character that is not shown. A single quote stands as it is.
-/

namespace Schemata.Text

/-- The digits of `n` in lower-case hexadecimal, without leading zeros. -/
def hexDigits (n : Nat) : List Char := Nat.toDigits 16 n

def quotedChar (c : Char) : List Char :=
  if c = '"' then ['\\', '"']
  else if c = '\\' then ['\\', '\\']
  else if c = '\n' then ['\\', 'n']
  else if c = '\r' then ['\\', 'r']
  else if c = '\t' then ['\\', 't']
  else if c.toNat = 0 then ['\\', '0']
  else if isUnshown c then ['\\', 'u', '\x7b'] ++ hexDigits c.toNat ++ ['\x7d']
  else [c]

/-- A string between double quotes. -/
def quoted (s : String) : String :=
  String.ofList ('"' :: s.toList.flatMap quotedChar ++ ['"'])

/-- A list of quoted strings, between brackets and separated by a comma and a blank. -/
def quotedList (ss : List String) : String :=
  "[" ++ String.intercalate ", " (ss.map quoted) ++ "]"

example : quoted "a\"b\\c\nd" = "\"a\\\"b\\\\c\\nd\"" := by decide

end Schemata.Text

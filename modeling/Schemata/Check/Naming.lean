import Schemata.Text.Split

/-!
# Naming styles

Messages are named in Pascal case, fields in lower snake case. Each style is the image of a
function that gives the nearest name in that style. Only ASCII letters have a case here.
-/

namespace Schemata.Check

open Text

/-- Whether a capital starts a new word: after a small letter or a digit always, after a capital
only before a small letter. -/
def startsWord (previous next : Option Char) : Bool :=
  match previous with
  | some p => p.isLower || p.isDigit || (p.isUpper && next.any Char.isLower)
  | none => false

/-- The words of a name; `word` is the part of the current word before this place. -/
def wordsFrom (previous : Option Char) (word : List Char) : List Char → List (List Char)
  | [] => if word = [] then [] else [word]
  | c :: cs =>
    if c = '_' then
      if word = [] then wordsFrom (some c) [] cs else word :: wordsFrom (some c) [] cs
    else if c.isUpper && word ≠ [] && startsWord previous cs.head? then
      word :: wordsFrom (some c) [c] cs
    else wordsFrom (some c) (word ++ [c]) cs

/-- The words of a name: they end at underscores and before some capitals. -/
def words (name : String) : List (List Char) := wordsFrom none [] name.toList

def toLowerSnakeCase (name : String) : String :=
  String.ofList (List.intercalate ['_'] ((words name).map fun w => w.map Char.toLower))

/-- A part with its first letter as a capital. -/
def capitalized : List Char → List Char
  | [] => []
  | c :: cs => c.toUpper :: cs

def toPascalCase (name : String) : String :=
  String.ofList ((name.toList.splitOn '_').flatMap capitalized)

def isLowerSnakeCase (name : String) : Bool := name = toLowerSnakeCase name

def isPascalCase (name : String) : Bool := name = toPascalCase name

/-! ### Unstable packages -/

/-- The stages that mark a package version as unstable. -/
def unstableStages : List (List Char) := ["alpha".toList, "beta".toList, "test".toList]

/-- Whether a part of a package name is an unstable version: `v`, digits, a stage, and perhaps
digits. -/
def isUnstableVersion : List Char → Bool
  | 'v' :: rest =>
    let suffix := rest.dropWhile Char.isDigit
    rest.head?.any Char.isDigit && unstableStages.any fun stage =>
      stage.isPrefixOf suffix && (suffix.drop stage.length).all Char.isDigit
  | _ => false

/-- Whether the last part of a package name is an unstable version. -/
def isUnstablePackage (package : String) : Bool :=
  isUnstableVersion (((package.toList.splitOn '.').getLast?).getD [])

end Schemata.Check

import Schemata.Check.Naming
import Schemata.Image.Basic

/-!
# Rules

A lint rule looks at one target file, a breaking-change rule compares two images. The built-in
rules are here; others may be added beside them.
-/

namespace Schemata.Check

/-- What a rule has to say about a file, at a declaration or about the file as a whole. -/
structure Finding where
  path : String
  external : String
  location : Option Descriptor.Location
  message : String
  deriving DecidableEq, Repr

def Finding.ofFile (f : ImageFile) (message : String) : Finding :=
  ⟨f.path, f.external, none, message⟩

/-- A finding at the declaration of a symbol, if its place is known. -/
def Finding.ofSymbol (f : ImageFile) (symbol message : String) : Finding :=
  ⟨f.path, f.external, f.descriptor.location? symbol, message⟩

structure Rule (α : Type) where
  id : String
  categories : List String
  /-- Whether the rule comes with the program. -/
  builtin : Bool
  check : α → List Finding

/-- A rule about a file of an image. -/
abbrev LintRule := Rule (ImageFile × Image)

structure Change where
  current : Image
  previous : Image

/-- A rule about the changes between two images. -/
abbrev BreakingRule := Rule Change

/-! ### Lint rules -/

def lintCategories : List String := ["DEFAULT", "STANDARD"]

def importUsed : LintRule :=
  ⟨"IMPORT_USED", lintCategories, true, fun (f, _) =>
    (f.unusedDependencies.filterMap fun n => f.descriptor.dependencies[n]?).map fun d =>
      .ofFile f s!"Import \"{d}\" is unused."⟩

def syntaxSpecified : LintRule :=
  ⟨"SYNTAX_SPECIFIED", lintCategories, true, fun (f, _) =>
    if f.syntaxUnspecified then
      [.ofFile f "Files must have a syntax explicitly specified. If no syntax is specified, the file defaults to \"schema1\"."]
    else []⟩

def packageDefined : LintRule :=
  ⟨"PACKAGE_DEFINED", "MINIMAL" :: lintCategories, true, fun (f, _) =>
    if f.descriptor.package = "" then [.ofFile f "Files must have a package defined."] else []⟩

def messagePascalCase : LintRule :=
  ⟨"MESSAGE_PASCAL_CASE", lintCategories, true, fun (f, _) =>
    (f.descriptor.allMessages.filter fun m => !isPascalCase m.name).map fun m =>
      .ofSymbol f m.fullName
        s!"Message name \"{m.name}\" should be PascalCase, such as \"{toPascalCase m.name}\"."⟩

def fieldLowerSnakeCase : LintRule :=
  ⟨"FIELD_LOWER_SNAKE_CASE", lintCategories, true, fun (f, _) =>
    f.descriptor.allMessages.flatMap fun m =>
      (m.fields.filter fun g => !isLowerSnakeCase g.name).map fun g =>
        .ofSymbol f (m.fullName ++ "." ++ g.name)
          s!"Field name \"{g.name}\" should be lower_snake_case, such as \"{toLowerSnakeCase g.name}\"."⟩

def lintRules : List LintRule :=
  [importUsed, syntaxSpecified, packageDefined, messagePascalCase, fieldLowerSnakeCase]

/-! ### Breaking-change rules -/

/-- The previous target files that are still there, each with the current one. -/
def survivingFiles (c : Change) : List (ImageFile × ImageFile) :=
  c.previous.targets.filterMap fun f => (c.current.file? f.path).map fun g => (f, g)

/-- The last message with a full name. -/
def message? (f : ImageFile) (fullName : String) : Option Descriptor.Message :=
  f.descriptor.allMessages.reverse.find? fun m => m.fullName = fullName

/-- The messages of surviving files that are still there: the current file, and the previous and
the current message. -/
def survivingMessages (c : Change) :
    List (ImageFile × Descriptor.Message × Descriptor.Message) :=
  (survivingFiles c).flatMap fun (f, g) =>
    f.descriptor.allMessages.filterMap fun m => (message? g m.fullName).map fun n => (g, m, n)

def breakingCategories : List String := ["FILE"]

def fileNoDelete : BreakingRule :=
  ⟨"FILE_NO_DELETE", breakingCategories, true, fun c =>
    (c.previous.targets.filter fun f => (c.current.file? f.path).isNone).map fun f =>
      .ofFile f s!"Previously present file \"{f.path}\" was deleted."⟩

def messageNoDelete : BreakingRule :=
  ⟨"MESSAGE_NO_DELETE", breakingCategories, true, fun c =>
    (survivingFiles c).flatMap fun (f, g) =>
      (f.descriptor.allMessages.filter fun m => (message? g m.fullName).isNone).map fun m =>
        .ofFile g s!"Previously present message \"{m.fullName}\" was deleted from file."⟩

def fieldNoDelete : BreakingRule :=
  ⟨"FIELD_NO_DELETE", breakingCategories, true, fun c =>
    (survivingMessages c).flatMap fun (g, m, n) =>
      (m.fields.filter fun f => (n.field? f.number).isNone).map fun f =>
        .ofSymbol g n.fullName
          s!"Previously present field \"{f.number}\" with name \"{f.name}\" on message \"{n.name}\" was deleted."⟩

/-- The finding about a field whose type is not that of the previous field of its number. -/
def typeChange? (g : ImageFile) (m n : Descriptor.Message) (f : Descriptor.Field) :
    Option Finding := do
  let old ← m.field? f.number
  guard (old.type ≠ f.type)
  return .ofSymbol g (n.fullName ++ "." ++ f.name)
    s!"Field \"{f.number}\" with name \"{f.name}\" on message \"{n.name}\" changed type from \"{old.type.text}\" to \"{f.type.text}\"."

def fieldSameType : BreakingRule :=
  ⟨"FIELD_SAME_TYPE", breakingCategories, true, fun c =>
    (survivingMessages c).flatMap fun (g, m, n) => n.fields.filterMap (typeChange? g m n)⟩

def breakingRules : List BreakingRule :=
  [fileNoDelete, messageNoDelete, fieldNoDelete, fieldSameType]

end Schemata.Check

import Schemata.Image.Descriptor
import Schemata.Image.Symbols

/-!
# Linking

A file is linked to the declared types of all files: every type reference becomes a full name, or
an error if it means nothing that the file may refer to. Linking also notes which imports were
needed and where the declarations stand.
-/

namespace Schemata.Image

open Source
open Descriptor (FieldType)

/-- What linking one file has found so far, the latest error and place first. -/
structure Link where
  errors : List Diagnostic
  /-- The positions of the imports that were needed. -/
  used : List Nat
  places : List Descriptor.Location

structure LinkContext where
  sources : Sources
  symbols : Table Symbol
  file : FileId
  /-- For each import of the file the files that it makes visible. -/
  visible : List (List FileId)
  document : Document

abbrev LinkStep (α : Type) := StateM Link α

namespace LinkContext

def report (d : Diagnostic) : LinkStep Unit := modify fun l => { l with errors := d :: l.errors }

/-- Notes where a declaration stands. -/
def record (c : LinkContext) (symbol : String) (span : Span) : LinkStep Unit :=
  let place : Descriptor.Location :=
    ⟨symbol, c.document.position span.start, c.document.lastPosition span⟩
  modify fun l => { l with places := place :: l.places }

/-! ### Type references -/

/-- The code of a type reference that means nothing. -/
def unknownTypeCode : Code := ⟨.linking, 200⟩

/-- How a file may refer to a symbol: as its own, through an import, or not at all. -/
inductive Access
  | own
  | imported (position : Nat)
  | hidden
  deriving DecidableEq, Repr

/-- How the file may refer to the symbols of another. -/
def access (c : LinkContext) (file : FileId) : Access :=
  if file = c.file then .own
  else
    match importOf? c.visible file with
    | some position => .imported position
    | none => .hidden

/-- The first candidate that the file may refer to, and how. -/
def lookup? (c : LinkContext) : List String → Option (String × Symbol × Access)
  | [] => none
  | name :: names =>
    match c.symbols.find? name with
    | some symbol =>
      match c.access symbol.file with
      | .hidden => c.lookup? names
      | a => some (name, symbol, a)
    | none => c.lookup? names

/-- A type reference that means nothing. If a candidate is declared in a file that is not visible,
the message says where. -/
def unresolved (c : LinkContext) (name : String) (names : List String) (span : Span) :
    Diagnostic :=
  match names.findSome? c.symbols.find? with
  | some symbol =>
    let path := (c.sources.files[symbol.file]?.map SourceFile.path).getD ""
    .error unknownTypeCode s!"\"{name}\" is defined in \"{path}\", which is not imported" span
  | none => .error unknownTypeCode s!"\"{name}\" is not defined" span

/-- The type that a reference in a scope means. -/
def resolve (c : LinkContext) (scope : String) : Schema.TypeRef → LinkStep FieldType
  | .scalar type _ => return .scalar type
  | .named name absolute span => do
    let names := candidates scope name absolute
    match c.lookup? names with
    | some (fullName, symbol, a) =>
      if let .imported position := a then
        modify fun l => { l with used := position :: l.used }
      return if symbol.isMessage then .message fullName else .enumeration fullName
    | none =>
      report (c.unresolved name names span)
      return .message name

/-! ### Declarations -/

/-- The code of a field number that is used twice. -/
def duplicateNumberCode : Code := ⟨.linking, 204⟩

/-- The code of a field name that is used twice. -/
def duplicateNameCode : Code := ⟨.linking, 205⟩

/-- A field number was used before. -/
def duplicateNumber (message : String) (f first : Schema.Field) : Diagnostic :=
  (Diagnostic.error duplicateNumberCode
    s!"field number {f.number} is already used in message \"{message}\"" f.numberSpan).withRemark
      first.numberSpan "first used here"

/-- A field name was used before. -/
def duplicateName (message : String) (f first : Schema.Field) : Diagnostic :=
  (Diagnostic.error duplicateNameCode
    s!"field \"{f.name}\" is already defined in message \"{message}\"" f.nameSpan).withRemark
      first.nameSpan "first defined here"

/-- Links the fields of a message; `before` lists those before this place in order. -/
def linkFields (c : LinkContext) (message : String) (before : List Schema.Field) :
    List Schema.Field → LinkStep (List Descriptor.Field)
  | [] => return []
  | f :: fs => do
    if let some first := before.find? fun g => g.number = f.number then
      report (duplicateNumber message f first)
    if let some first := before.find? fun g => g.name = f.name then
      report (duplicateName message f first)
    c.record (message ++ "." ++ f.name) f.span
    let type ← c.resolve message f.type
    return ⟨f.name, f.number, f.label, type⟩ :: (← c.linkFields message (before ++ [f]) fs)

def linkEnum (c : LinkContext) (scope : String) (decl : Schema.EnumDecl) :
    LinkStep Descriptor.Enum := do
  let fullName := qualify scope decl.name
  c.record fullName decl.span
  return ⟨decl.name, fullName, decl.values.map fun v => ⟨v.name, v.number⟩⟩

structure Types where
  messages : List Descriptor.Message
  enums : List Descriptor.Enum

mutual

/-- Links a declared type and puts it before others of its scope. -/
def linkItem (c : LinkContext) (scope : String) : Schema.Item → LinkStep (Types → Types)
  | .message decl nested => do
    let fullName := qualify scope decl.name
    c.record fullName decl.span
    let fields ← c.linkFields fullName [] decl.fields
    let inner ← linkItems c fullName nested
    let m := Descriptor.Message.mk decl.name fullName fields inner.messages inner.enums
    return fun t => { t with messages := m :: t.messages }
  | .enumeration decl => do
    let e ← c.linkEnum scope decl
    return fun t => { t with enums := e :: t.enums }

/-- Links the declared types of a scope in turn. -/
def linkItems (c : LinkContext) (scope : String) : List Schema.Item → LinkStep Types
  | [] => return ⟨[], []⟩
  | item :: items => do
    let put ← linkItem c scope item
    return put (← linkItems c scope items)

end

end LinkContext

/-- A linked file: its descriptor, what was found wrong, and the imports that were needed. -/
structure LinkedFile where
  descriptor : Descriptor.File
  errors : List Diagnostic
  used : List Nat

def publicPositions (imports : List Schema.Import) : List Nat :=
  (List.range imports.length).filter fun i => imports[i]?.any Schema.Import.isPublic

/-- Links a file, given the files that each file passes on. -/
def linkFile (s : Sources) (symbols : Table Symbol) (passed : Array (List FileId))
    (keepPlaces : Bool) (number : FileId) (f : SourceFile) : LinkedFile :=
  let document := Document.ofText f.path f.external f.text
  let c : LinkContext := ⟨s, symbols, number, s.visibleThrough passed f, document⟩
  let package := f.file.packageName
  let (types, l) := (c.linkItems package f.file.items).run ⟨[], [], []⟩
  { descriptor :=
      { path := f.path, package, syntaxValue := f.file.syntaxValue
        dependencies := f.file.imports.map Schema.Import.path
        publicDependencies := publicPositions f.file.imports
        messages := types.messages, enums := types.enums
        locations := if keepPlaces then some l.places.reverse else none }
    errors := l.errors.reverse
    used := l.used }

end Schemata.Image

import Schemata.Image.Compilation
import Schemata.Schema.Json

/-!
# Images

An image holds compiled files in an order in which every file comes after its imports, each path
once. Files that nobody asked for are there as imports of others.
-/

namespace Schemata

structure ImageFile where
  descriptor : Descriptor.File
  external : String
  module : Option ModuleName
  commit : Option CommitId
  isImport : Bool
  syntaxUnspecified : Bool
  /-- The positions of the imports that nothing in the file needs. -/
  unusedDependencies : List Nat

def ImageFile.path (f : ImageFile) : String := f.descriptor.path

/-- Compiled files in order. -/
structure Image where
  files : List ImageFile

namespace Image

def paths (i : Image) : List String := i.files.map ImageFile.path

def file? (i : Image) (path : String) : Option ImageFile := i.files.find? fun f => f.path = path

def targets (i : Image) : List ImageFile := i.files.filter fun f => !f.isImport

/-- The first path that occurs before. -/
def repeatedPath? : List String → List ImageFile → Option String
  | _, [] => none
  | seen, f :: fs =>
    if seen.contains f.path then some f.path else repeatedPath? (f.path :: seen) fs

/-- The first file that comes before one of its imports, and the import. -/
def misplaced? : List ImageFile → Option (String × String)
  | [] => none
  | f :: fs =>
    match f.descriptor.dependencies.find? fun d => fs.any fun g => g.path = d with
    | some d => some (f.path, d)
    | none => misplaced? fs

def make (files : List ImageFile) : Except Error Image :=
  match repeatedPath? [] files with
  | some path => .error (.fault s!"duplicate file descriptor: {path}")
  | none =>
    match misplaced? files with
    | some (path, d) => .error (.fault s!"{path} precedes its import {d} in the image")
    | none => .ok ⟨files⟩

end Image

/-! ### As JSON -/

namespace Descriptor

open Text (Json)

def FieldType.json : FieldType → Json
  | .scalar type => .object [("Scalar", .string type.jsonName)]
  | .message fullName => .object [("Message", .string fullName)]
  | .enumeration fullName => .object [("Enum", .string fullName)]

def Field.json (f : Field) : Json :=
  .object [("name", .string f.name), ("number", .number f.number),
    ("label", .string f.label.jsonName), ("field_type", f.type.json)]

def Enum.json (e : Enum) : Json :=
  .object [("name", .string e.name), ("full_name", .string e.fullName),
    ("values", .array (e.values.map fun v =>
      .object [("name", .string v.name), ("number", .number v.number)]))]

mutual

def Message.json : Message → Json
  | .mk name fullName fields messages enums =>
    .object [("name", .string name), ("full_name", .string fullName),
      ("fields", .array (fields.map Field.json)), ("nested_types", .array (messagesJson messages)),
      ("enum_types", .array (enums.map Enum.json))]

def messagesJson : List Message → List Json
  | [] => []
  | m :: ms => m.json :: messagesJson ms

end

def Location.json (l : Location) : Json :=
  .object [("symbol", .string l.symbol), ("start_line", .number l.first.line),
    ("start_column", .number l.first.column), ("end_line", .number l.last.line),
    ("end_column", .number l.last.column)]

def File.json (f : File) : Json :=
  .object [("name", .string f.path), ("package", .string f.package),
    ("syntax", .string f.syntaxValue), ("dependencies", .ofStrings f.dependencies),
    ("public_dependencies", .array (f.publicDependencies.map fun (n : Nat) => .number n)),
    ("message_types", .array (messagesJson f.messages)),
    ("enum_types", .array (f.enums.map Enum.json)),
    ("source_code_info", match f.locations with
      | some ls => .object [("locations", .array (ls.map Location.json))]
      | none => .null)]

end Descriptor

def ImageFile.json (f : ImageFile) : Text.Json :=
  .object [("descriptor", f.descriptor.json), ("external_path", .string f.external),
    ("module_full_name", .ofString? (f.module.map ModuleName.text)),
    ("commit_id", .ofString? (f.commit.map CommitId.text)), ("is_import", .bool f.isImport),
    ("is_syntax_unspecified", .bool f.syntaxUnspecified),
    ("unused_dependency_indexes", .array (f.unusedDependencies.map fun (n : Nat) => .number n))]

def Image.json (i : Image) : Text.Json := .object [("files", .array (i.files.map ImageFile.json))]

end Schemata

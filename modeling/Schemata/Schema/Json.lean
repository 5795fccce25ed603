import Schemata.Diagnostic.Basic
import Schemata.Schema.Tree

/-!
# Schema files as JSON

The declarations of a schema file as tools read them, each with its span.
-/

namespace Schemata.Schema

open Text (Json)

def FieldLabel.jsonName : FieldLabel → String
  | .single => "None"
  | .optional => "Optional"
  | .repeated => "Repeated"

def ScalarType.jsonName (t : ScalarType) : String := t.text.capitalize

def TypeRef.json : TypeRef → Json
  | .scalar type span =>
    .object [("Scalar", .object [("scalar", .string type.jsonName), ("span", span.json)])]
  | .named name absolute span =>
    .object [("Named",
      .object [("name", .string name), ("absolute", .bool absolute), ("span", span.json)])]

def Field.json (f : Field) : Json :=
  .object [("label", .string f.label.jsonName), ("ty", f.type.json), ("name", .string f.name),
    ("name_span", f.nameSpan.json), ("number", .number f.number),
    ("number_span", f.numberSpan.json), ("span", f.span.json)]

def EnumValue.json (v : EnumValue) : Json :=
  .object [("name", .string v.name), ("number", .number v.number), ("span", v.span.json)]

def EnumDecl.json (d : EnumDecl) : Json :=
  .object [("name", .string d.name), ("name_span", d.nameSpan.json),
    ("values", .array (d.values.map EnumValue.json)), ("span", d.span.json)]

/-- A message as JSON, with the types inside it. -/
def MessageDecl.json (d : MessageDecl) (nested : List Json) : Json :=
  .object [("name", .string d.name), ("name_span", d.nameSpan.json),
    ("fields", .array (d.fields.map Field.json)), ("nested", .array nested),
    ("span", d.span.json)]

mutual

def Item.json : Item → Json
  | .message decl nested => .object [("Message", decl.json (itemsJson nested))]
  | .enumeration decl => .object [("Enum", decl.json)]

def itemsJson : List Item → List Json
  | [] => []
  | item :: items => item.json :: itemsJson items

end

def Import.json (i : Import) : Json :=
  .object [("path", .string i.path), ("public", .bool i.isPublic), ("span", i.span.json)]

def File.json (f : File) : Json :=
  .object [
    ("syntax", f.syntaxDecl.elim .null fun d =>
      .object [("value", .string d.value), ("span", d.span.json)]),
    ("package", f.package.elim .null fun d =>
      .object [("name", .string d.name), ("span", d.span.json)]),
    ("imports", .array (f.imports.map Import.json)),
    ("items", .array (itemsJson f.items)), ("span", f.span.json)]

end Schemata.Schema

import Schemata.Source.Span

/-!
# Declarations of a schema file

The tree that reading a file gives: its statements in order, each with its span.
-/

namespace Schemata.Schema

open Source

inductive ScalarType
  | string
  | bytes
  | bool
  | int32
  | int64
  | uint32
  | uint64
  | float
  | double
  deriving DecidableEq, Repr

namespace ScalarType

/-- The name of a scalar type. -/
def text : ScalarType → String
  | .string => "string"
  | .bytes => "bytes"
  | .bool => "bool"
  | .int32 => "int32"
  | .int64 => "int64"
  | .uint32 => "uint32"
  | .uint64 => "uint64"
  | .float => "float"
  | .double => "double"

def all : List ScalarType :=
  [.string, .bytes, .bool, .int32, .int64, .uint32, .uint64, .float, .double]

/-- The scalar type of a name. -/
def ofText? (s : String) : Option ScalarType := all.find? fun t => t.text == s

theorem ofText?_text (t : ScalarType) : ofText? t.text = some t := by
  cases t <;> decide

end ScalarType

/-- How many values a field holds. -/
inductive FieldLabel
  | single
  | optional
  | repeated
  deriving DecidableEq, Repr

inductive TypeRef
  | scalar (type : ScalarType) (span : Span)
  | named (name : String) (absolute : Bool) (span : Span)
  deriving DecidableEq, Repr

def TypeRef.span : TypeRef → Span
  | .scalar _ span => span
  | .named _ _ span => span

structure Field where
  label : FieldLabel
  type : TypeRef
  name : String
  nameSpan : Span
  number : Nat
  numberSpan : Span
  span : Span
  deriving DecidableEq, Repr

structure EnumValue where
  name : String
  number : Int
  span : Span
  deriving DecidableEq, Repr

structure EnumDecl where
  name : String
  nameSpan : Span
  values : List EnumValue
  span : Span
  deriving DecidableEq, Repr

/-- A message without what is declared inside it. -/
structure MessageDecl where
  name : String
  nameSpan : Span
  fields : List Field
  span : Span
  deriving DecidableEq, Repr

/-- A declared type: a message with the types inside it, or an enum. -/
inductive Item
  | message (decl : MessageDecl) (nested : List Item)
  | enumeration (decl : EnumDecl)

namespace Item

def name : Item → String
  | .message decl _ => decl.name
  | .enumeration decl => decl.name

def nameSpan : Item → Span
  | .message decl _ => decl.nameSpan
  | .enumeration decl => decl.nameSpan

end Item

/-- The statement that names the file's syntax. -/
structure SyntaxDecl where
  value : String
  span : Span
  deriving DecidableEq, Repr

/-- The statement that names the file's package. -/
structure PackageDecl where
  name : String
  span : Span
  deriving DecidableEq, Repr

/-- The import of another file. A public import also serves those who import this file. -/
structure Import where
  path : String
  isPublic : Bool
  span : Span
  deriving DecidableEq, Repr

structure File where
  syntaxDecl : Option SyntaxDecl
  package : Option PackageDecl
  imports : List Import
  items : List Item
  span : Span

namespace File

/-- The syntax of files that name none. -/
def defaultSyntax : String := "schema1"

def knownSyntaxes : List String := ["schema1", "schema2"]

def syntaxValue (f : File) : String := (f.syntaxDecl.map SyntaxDecl.value).getD defaultSyntax

/-- The package of a file; empty if it names none. -/
def packageName (f : File) : String := (f.package.map PackageDecl.name).getD ""

end File

end Schemata.Schema

import Schemata.Image.Sources
import Schemata.Graph

/-!
# Symbols

The declared types of all files under their full names, and which files a file may refer to: itself,
its imports, and what those import publicly.
-/

namespace Schemata.Image

open Source

/-! ### Names -/

/-- A name in a scope; the outermost scope is empty. -/
def qualify (scope name : String) : String := if scope = "" then name else scope ++ "." ++ name

/-- A scope and all around it, the innermost first. -/
def scopes (scope : String) : List String :=
  if scope = "" then [""]
  else
    let parts := Text.pieces '.' scope
    (List.range (parts.length + 1)).map fun n =>
      Text.joined '.' (parts.take (parts.length - n))

/-- What a type reference in a scope may mean, the nearest first. -/
def candidates (scope name : String) (absolute : Bool) : List String :=
  if absolute then [name] else (scopes scope).map fun s => qualify s name

/-! ### The table -/

/-- A declared type: whether it is a message, its file, and where its name stands. -/
structure Symbol where
  isMessage : Bool
  file : FileId
  span : Span
  deriving DecidableEq, Repr

/-- The declared types by full name, and what was found wrong. The first declaration counts. -/
structure Symbols where
  table : Table Symbol
  errors : List Diagnostic

namespace Symbols

/-- The codes of what linking finds wrong. -/
def duplicateSymbolCode : Code := ⟨.linking, 201⟩

/-- A name was declared before. -/
def duplicateSymbol (name : String) (span first : Span) : Diagnostic :=
  (Diagnostic.error duplicateSymbolCode s!"symbol \"{name}\" is already defined" span).withRemark
    first "first defined here"

def declare (name : String) (symbol : Symbol) (s : Symbols) : Symbols :=
  match s.table.find? name with
  | some first => { s with errors := s.errors ++ [duplicateSymbol name symbol.span first.span] }
  | none => { s with table := s.table.insert name symbol }

mutual

/-- Adds a declared type and the types inside it. -/
def addItem (file : FileId) (scope : String) : Schema.Item → Symbols → Symbols
  | .message decl nested, s =>
    addItems file (qualify scope decl.name) nested
      (s.declare (qualify scope decl.name) ⟨true, file, decl.nameSpan⟩)
  | .enumeration decl, s => s.declare (qualify scope decl.name) ⟨false, file, decl.nameSpan⟩

/-- Adds declared types in turn. -/
def addItems (file : FileId) (scope : String) : List Schema.Item → Symbols → Symbols
  | [], s => s
  | item :: items, s => addItems file scope items (addItem file scope item s)

end

/-- The declared types of some files, of which the first has the given number. -/
def addFiles : FileId → List SourceFile → Symbols → Symbols
  | _, [], s => s
  | file, f :: fs, s =>
    addFiles (file + 1) fs (addItems file f.file.packageName f.file.items s)

/-- The declared types of all files. -/
def ofSources (s : Sources) : Symbols := addFiles 0 s.files ⟨.empty, []⟩

end Symbols

/-! ### Visibility -/

namespace Sources

def publicImports (s : Sources) (f : SourceFile) : List FileId :=
  (f.file.imports.filter Schema.Import.isPublic).filterMap fun i => s.number? i.path

/-- Each file, by number, with all that it passes on to those who import it. -/
def passedOn (s : Sources) : Array (List FileId) :=
  let next := Graph.successors (s.files.map s.publicImports).toArray
  ((List.range s.files.length).map fun n => Graph.reachable next s.files.length [n]).toArray

/-- For each import of a file the files that it makes visible, given what each file passes on. -/
def visibleThrough (s : Sources) (passed : Array (List FileId)) (f : SourceFile) :
    List (List FileId) :=
  (s.importsOf f).map fun target => (target.map (Graph.successors passed)).getD []

end Sources

/-- The first import that makes a file visible. -/
def importOf? (visible : List (List FileId)) (file : FileId) : Option Nat :=
  visible.findIdx? fun files => files.contains file

end Schemata.Image

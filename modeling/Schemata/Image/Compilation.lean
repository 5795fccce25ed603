import Schemata.Image.Linking

/-!
# Compilation

Files are read with all they import, checked for imports that are missing or go in circles, and
linked. A compilation either has diagnostics or compiled files. Advice about unused imports and
missing syntax statements goes with both.
-/

namespace Schemata.Image

open Source

/-- Advice about a compiled file. -/
inductive Warning
  | syntaxUnspecified (path : String)
  | unusedImport (path : String) (position : Nat) (dependency : String)
  deriving DecidableEq, Repr

namespace Warning

/-- The file that the advice is about. -/
def path : Warning → String
  | .syntaxUnspecified path => path
  | .unusedImport path _ _ => path

def code : Warning → Code
  | .syntaxUnspecified _ => ⟨.advice, 301⟩
  | .unusedImport _ _ _ => ⟨.advice, 300⟩

/-- Advice about syntax comes first, then advice about imports; each by path and position. -/
def compareWarnings : Warning → Warning → Ordering
  | .syntaxUnspecified p, .syntaxUnspecified q => compare p q
  | .syntaxUnspecified _, .unusedImport _ _ _ => .lt
  | .unusedImport _ _ _, .syntaxUnspecified _ => .gt
  | .unusedImport p i d, .unusedImport q j e =>
    (compare p q).then ((compare i j).then (compare d e))

end Warning

/-! ### Imports -/

def importNotFound (i : Schema.Import) : Diagnostic :=
  .error ⟨.linking, 202⟩ s!"import \"{i.path}\" was not found" i.span

def missingImports (s : Sources) : List Diagnostic :=
  s.files.flatMap fun f =>
    (f.file.imports.filter fun i => (s.number? i.path).isNone).map importNotFound

/-- The files that each file imports, by number. -/
def importLists (s : Sources) : Array (List FileId) :=
  (s.files.map fun f => (s.importsOf f).filterMap id).toArray

/-- Files that import each other: shown in order of their paths, at the first import of the first
file that leads to one of them. -/
def importCycle? (s : Sources) (members : List FileId) : Option Diagnostic :=
  let files := sortedBy SourceFile.path (members.filterMap fun n => s.files[n]?)
  let paths := files.map SourceFile.path
  files.head?.map fun first =>
    let span := match first.file.imports.find? fun i => paths.contains i.path with
      | some i => i.span
      | none => first.file.span
    .error ⟨.linking, 203⟩
      ("import cycle: " ++ String.intercalate " -> " (paths ++ paths.take 1)) span

def importCycles (s : Sources) : List Diagnostic :=
  let next := Graph.successors (importLists s)
  (Graph.cycles next (List.range s.files.length)).filterMap (importCycle? s)

/-! ### Compiling -/

structure CompiledFile where
  descriptor : Descriptor.File
  external : String
  module : Option ModuleName
  commit : Option CommitId

/-- The outcome of a compilation. -/
structure Compilation where
  /-- The requested files, in the order they were read. -/
  files : List CompiledFile
  /-- All files, by path. -/
  all : Table CompiledFile
  errors : List Diagnostic
  warnings : List Warning
  documents : Documents

abbrev Linked := List (SourceFile × LinkedFile)

def linkAll (s : Sources) (symbols : Table Symbol) (keepPlaces : Bool) : Linked :=
  let passed := s.passedOn
  s.files.zipIdx.map fun (f, n) => (f, linkFile s symbols passed keepPlaces n f)

/-- Advice about a linked file. -/
def warningsOf (s : Sources) (f : SourceFile) (l : LinkedFile) : List Warning :=
  (if f.file.syntaxDecl.isNone then [.syntaxUnspecified f.path] else []) ++
    f.file.imports.zipIdx.filterMap fun (i, n) =>
      if !i.isPublic && (s.number? i.path).isSome && !l.used.contains n then
        some (.unusedImport f.path n i.path)
      else none

/-- Diagnostics by file, by place and by message. -/
def compareDiagnostics (a b : Diagnostic) : Ordering :=
  (compare a.span.file b.span.file).then <|
    (compare a.span.start b.span.start).then (compare a.message b.message)

/-- The errors among some diagnostics, in order. -/
def ordered (ds : List Diagnostic) : List Diagnostic :=
  sortedWith (fun a b => (compareDiagnostics a b).isLE) (ds.filter Diagnostic.isError)

/-- What becomes of the files that were read. Linking is left out when a file has syntax errors. -/
def Sources.compile (s : Sources) (requested : List String) (keepPlaces : Bool) : Compilation :=
  if Diagnostic.countErrors s.errors > 0 then
    ⟨[], .empty, ordered (s.errors ++ missingImports s), [], s.documents⟩
  else
    let symbols := Symbols.ofSources s
    let linked := linkAll s symbols.table keepPlaces
    let errors := s.errors ++ missingImports s ++ importCycles s ++ symbols.errors ++
      linked.flatMap fun (_, l) => l.errors
    let warnings := sortedWith (fun a b => (Warning.compareWarnings a b).isLE)
      (linked.flatMap fun (f, l) => warningsOf s f l)
    if (ordered errors).isEmpty then
      let compiled := linked.map fun (f, l) =>
        (f.path, (⟨l.descriptor, f.external, f.module, f.commit⟩ : CompiledFile))
      ⟨(compiled.filter fun e => requested.contains e.1).map (·.2), Table.ofList compiled, [],
        warnings, s.documents⟩
    else ⟨[], .empty, ordered errors, warnings, s.documents⟩

/-- Compiles the requested files of a view. -/
def compile (w : World) (v : Module.View) (requested : List String) (keepPlaces : Bool) :
    Except Error Compilation := do
  return (← Sources.load w v requested).compile requested keepPlaces

end Schemata.Image

import Schemata.Module.View
import Schemata.Schema.Parser
import Schemata.Diagnostic.Basic
import Schemata.Source.Document

/-!
# Loading sources

The requested files and all they import are read wave by wave: each wave reads, in order of their
paths, the files that the files of the wave before import and nobody asked for yet. An import that
is not there is left out.
-/

namespace Schemata.Image

open Source

inductive Error
  | canceled
  | internal (cause : InternalError)
  | module (cause : Module.Error)
  | noInputFiles
  deriving DecidableEq

namespace Error

def fault (detail : String) : Error := .internal ⟨detail⟩

def message : Error → String
  | .canceled => canceledMessage
  | .internal cause => cause.message
  | .module cause => cause.message
  | .noInputFiles => "no input files specified"

end Error

/-- Refuses to go on after a cancellation. -/
def checkLive (w : World) : Except Error Unit := if w.live then .ok () else .error .canceled

/-- A file that was read, with the module it is from. -/
structure SourceFile where
  path : String
  external : String
  module : Option ModuleName
  commit : Option CommitId
  text : String
  file : Schema.File

/-- The files that were read, by number, and what was found wrong in them. -/
structure Sources where
  files : List SourceFile
  errors : List Diagnostic

namespace Sources

/-- The texts, by number. -/
def documents (s : Sources) : Documents :=
  s.files.map fun f => .ofText f.path f.external f.text

def number? (s : Sources) (path : String) : Option FileId :=
  (s.files.findIdx? fun f => f.path = path)

/-- The files that a file imports; none for an import that is not there. -/
def importsOf (s : Sources) (f : SourceFile) : List (Option FileId) :=
  f.file.imports.map fun i => s.number? i.path

/-! ### Waves -/

/-- Reads a file; the text is not parsed yet. A file that is not there is left out. -/
def readFile (w : World) (v : Module.View) (path : String) :
    Except Error (Option (FileInfo × String)) := do
  checkLive w
  match v.get w path with
  | .error e => if e.isMissing then return none else throw (.module e)
  | .ok (info, content) =>
    return some (info, ← (Module.View.textOf info.path content).mapError .module)

/-- The file of a text, under the next number. -/
def addFile (s : Sources) (path : String) (info : FileInfo) (text : String) : Sources :=
  let parsed := Schema.parse s.files.length text
  { files := s.files ++
      [⟨path, info.external, info.module.name, info.module.commit, text, parsed.file⟩]
    errors := s.errors ++ parsed.errors }

/-- Adds the files of a wave; a requested one has to be there. -/
def addWave (requested : List String) (s : Sources) :
    List (String × Option (FileInfo × String)) → Except Error Sources
  | [] => .ok s
  | (path, some (info, text)) :: rest => addWave requested (s.addFile path info text) rest
  | (path, none) :: rest =>
    if requested.contains path then
      .error (.fault s!"requested file {path} is not in the module read bucket")
    else addWave requested s rest

/-- Reads a wave and all after it. `asked` lists the paths of all waves so far. Every wave but the
last finds a content that was not read before, so the number of contents bounds their number. -/
def loadWaves (w : World) (v : Module.View) (requested : List String) :
    Nat → List String → List String → Sources → Except Error Sources
  | _, _, [], s => .ok s
  | 0, _, _, _ => .error (.fault "files keep importing new files")
  | waves + 1, asked, wave, s => do
    checkLive w
    let found ← wave.mapM fun path => do return (path, ← readFile w v path)
    let known := s.files.length
    let s ← addWave requested s found
    let imported := (s.files.drop known).flatMap fun f =>
      f.file.imports.map Schema.Import.path
    let next := sortedSet (imported.filter fun path => !asked.contains path)
    loadWaves w v requested waves (asked ++ next) next s

end Sources

def modulesOf : Module.View → List Module
  | .single m => [m]
  | .merged modules _ => modules
  | .only _ inner => modulesOf inner

def contentsOf (w : World) (v : Module.View) : List ByteArray :=
  (modulesOf v).flatMap fun m => m.files.contents w.volumes

/-- Reads the requested files and all that they import. -/
def Sources.load (w : World) (v : Module.View) (paths : List String) : Except Error Sources :=
  let wave := sortedSet paths
  Sources.loadWaves w v paths ((contentsOf w v).length + 1) wave wave ⟨[], []⟩

end Schemata.Image

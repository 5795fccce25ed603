import Schemata.Module.Files
import Schemata.Schema.Scan
import Schemata.Text.Utf8
import Schemata.World

/-!
# Modules

A module is a set of files with an identity. Local modules come from the user's workspace, remote
ones were fetched for a key. Of a target module all files are targets, or those that its filters
select.
-/

namespace Schemata

open Storage

namespace Module

/-- Where a module comes from. A remote module has the digest of the key it was fetched for. -/
inductive Origin
  | workspace
  | fetched (key : ModuleKey) (digest : Except Error Digest)

/-- Which files of a target module are targets. -/
structure Filter where
  /-- Target paths; none for all. -/
  paths : List String
  excludes : List String
  /-- A single target file. -/
  file : Option String
  /-- Whether the other schema files of that file's package are targets too. -/
  packageFiles : Bool

/-- The filter that lets every file pass. -/
def Filter.all : Filter := ⟨[], [], none, false⟩

/-- Whether the filter may hold back a file. -/
def Filter.isActive (f : Filter) : Bool :=
  !f.paths.isEmpty || !f.excludes.isEmpty || f.file.isSome

/-- A file that is kept beside a module: its name and content. -/
structure Attachment where
  name : String
  content : ByteArray

end Module

structure Module where
  /-- The place of a local module in its workspace. -/
  bucketId : String
  name : Option ModuleName
  commit : Option CommitId
  label : Option String
  target : Bool
  origin : Module.Origin
  files : Bucket
  filter : Module.Filter
  v1Config : Option Module.Attachment
  v1Lock : Option Module.Attachment

structure FileInfo where
  path : String
  external : String
  kind : Module.FileKind
  isTarget : Bool
  module : Module

namespace Module

/-- The ID of a module: its name or, if it has none, its place. -/
def id (m : Module) : String :=
  match m.name with
  | some name => name.text
  | none => m.bucketId

def description (m : Module) : String :=
  match m.label, m.name with
  | some label, _ => label
  | none, some name => name.text
  | none, none => s!"module at {m.bucketId}"

def isLocal (m : Module) : Bool :=
  match m.origin with
  | .workspace => true
  | .fetched _ _ => false

def key? (m : Module) : Option ModuleKey :=
  match m.origin with
  | .workspace => none
  | .fetched key _ => some key

/-! ### Files -/

def packageOf (w : World) (m : Module) (path : String) : Except Error (Option String) := do
  let content ← (m.files.read w.volumes w.live path).mapError .storage
  return Schema.scanPackage (Text.lenientText content)

/-- Whether a file other than the target file belongs to its package. Without a target file no file
does. -/
def sharesPackage (w : World) (m : Module) (file path : String) : Except Error Bool :=
  match m.packageOf w file with
  | .error e => if e.isMissing then .ok false else .error e
  | .ok package => do return (← m.packageOf w path) = package

def isTargetPath (w : World) (m : Module) (path : String) : Except Error Bool :=
  if !m.target || Path.coveredBy m.filter.excludes path then .ok false
  else
    match m.filter.file with
    | some file =>
      if path = file then .ok true
      else if m.filter.packageFiles && kindOf? path = some .schema then m.sharesPackage w file path
      else .ok false
    | none => .ok (m.filter.paths.isEmpty || Path.coveredBy m.filter.paths path)

def fileOf (w : World) (m : Module) (info : ObjectInfo) : Except Error FileInfo :=
  match kindOf? info.path with
  | some kind => do return ⟨info.path, info.external, kind, ← m.isTargetPath w info.path, m⟩
  | none => .error (.fault s!"{info.path} in {m.description} is not a module file")

/-- The objects of a module, by path. -/
def objects (w : World) (m : Module) : Except Error (List ObjectInfo) :=
  (m.files.list w.volumes w.live ".").mapError .storage

/-- The files of a module, by path. -/
def walk (w : World) (m : Module) : Except Error (List FileInfo) := do
  (← m.objects w).mapM (m.fileOf w)

def stat (w : World) (m : Module) (path : String) : Except Error FileInfo := do
  m.fileOf w (← (m.files.stat w.volumes w.live path).mapError .storage)

def get (w : World) (m : Module) (path : String) : Except Error (FileInfo × ByteArray) := do
  let (info, content) ← (m.files.get w.volumes w.live path).mapError .storage
  return (← m.fileOf w info, content)

def targetSchemas (w : World) (m : Module) : Except Error (List FileInfo) := do
  return (← m.walk w).filter fun f => f.isTarget && f.kind = .schema

end Module

end Schemata

import Schemata.Digest.Basic
import Schemata.Storage.Bucket

/-!
# Manifests

A manifest lists the files of a module with the hashes of their contents, one line for each file,
in the order of the paths. The module digests are hashes of the manifest and of the digests of the
dependencies.
-/

namespace Schemata

open Text

structure FileNode where
  path : String
  hash : ContentHash
  deriving DecidableEq

namespace FileNode

/-- A file under a path that a manifest line can hold. -/
def ofPath (path : String) (hash : ContentHash) : Except DigestError FileNode :=
  if path.toList.contains '\n' || (Path.validateObject path).toOption.isNone then
    .error (.invalidFilePath path)
  else .ok ⟨path, hash⟩

/-- The line of a file: the hash, two blanks, the path. -/
def line (n : FileNode) : String := n.hash.text ++ "  " ++ n.path

end FileNode

/-- Files in the order of their paths. -/
structure Manifest where
  nodes : List FileNode
  deriving DecidableEq

namespace Manifest

/-- The first path that two neighbours share. -/
def duplicate? : List FileNode → Option String
  | a :: b :: rest => if a.path = b.path then some a.path else duplicate? (b :: rest)
  | _ => none

def ofNodes (nodes : List FileNode) : Except DigestError Manifest :=
  let sorted := sortedBy FileNode.path nodes
  match duplicate? sorted with
  | some path => .error (.duplicatePath path)
  | none => .ok ⟨sorted⟩

/-- The lines of some files, each with its end. -/
def render (nodes : List FileNode) : String :=
  String.join (nodes.map fun n => n.line ++ "\n")

def text (m : Manifest) : String := render m.nodes

def hashOfNodes (nodes : List FileNode) : ContentHash := ContentHash.ofText (render nodes)

/-- The hash of a manifest. -/
def hash (m : Manifest) : ContentHash := hashOfNodes m.nodes

def get? (m : Manifest) (path : String) : Option FileNode :=
  m.nodes.find? fun n => n.path == path

/-! ### Reading the text -/

/-- A line without the carriage return at its end. -/
def withoutReturn (line : List Char) : List Char :=
  if line.getLast? = some '\r' then line.dropLast else line

/-- The lines of a text. A line ends at a newline, and a carriage return before it belongs to the
end; text after the last newline is a line as it stands. -/
def linesOf (text : List Char) : List (List Char) :=
  let parts := text.splitOn '\n'
  parts.dropLast.map withoutReturn ++ (parts.getLast?.filter (· ≠ [])).toList

/-- The parts of a line around its first two blanks in a row. -/
def cutAtTwoBlanks : List Char → Option (List Char × List Char)
  | ' ' :: ' ' :: rest => some ([], rest)
  | [] => none
  | c :: rest => (cutAtTwoBlanks rest).map fun p => (c :: p.1, p.2)

def readLine (number : Nat) (line : List Char) : Except DigestError (ContentHash × String) :=
  match cutAtTwoBlanks line with
  | none => .error (.invalidManifestLine number "expected \"<digest>  <path>\"")
  | some (hash, path) =>
    match ContentHash.read (String.ofList hash) with
    | .ok hash => .ok (hash, String.ofList path)
    | .error e => .error (.invalidManifestLine number e.message)

/-- The files of the lines from a line number on; `seen` are the paths of the lines before. -/
def readLines : Nat → List String → List (List Char) → Except DigestError (List FileNode)
  | _, _, [] => .ok []
  | number, seen, line :: lines => do
    let (hash, path) ← readLine number line
    if seen.contains path then throw (.duplicatePath path)
    let node ← FileNode.ofPath path hash
    return node :: (← readLines (number + 1) (path :: seen) lines)

def parse (text : String) : Except DigestError Manifest := do
  ofNodes (← readLines 1 [] (linesOf text.toList))

/-! ### The files of a bucket -/

def ofBucket (volumes : Storage.Volumes) (live : Bool) (b : Storage.Bucket) :
    Except DigestError Manifest := do
  let infos ← (b.list volumes live ".").mapError .storage
  let nodes ← infos.mapM fun info => do
    let content ← (b.read volumes live info.path).mapError .storage
    FileNode.ofPath info.path (ContentHash.ofContent content)
  ofNodes nodes

end Manifest

namespace Digest

/-- The older module digest: the hash of the manifest alone. -/
def b4 (m : Manifest) : Digest := ⟨.b4, m.hash⟩

def checkTypes : List Digest → Except DigestError Unit
  | [] => .ok ()
  | d :: ds => if d.type = .b5 then checkTypes ds else .error (.unexpectedType "b5" d.text)

/-- The text whose hash is the current module digest: the manifest's hash and the different digests
of the dependencies, in order. -/
def b5Text (m : Manifest) (deps : List Digest) : String :=
  "files:" ++ m.hash.text ++ "\n" ++
    String.join ((sortedSet (deps.map text)).map fun d => "dep:" ++ d ++ "\n")

/-- The module digest over the files and the digests of the dependencies. -/
def b5 (m : Manifest) (deps : List Digest) : Except DigestError Digest := do
  checkTypes deps
  return ⟨.b5, ContentHash.ofText (b5Text m deps)⟩

end Digest

end Schemata

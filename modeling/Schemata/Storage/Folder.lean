import Schemata.Storage.Tour

/-!
# File trees

A file tree as a file system keeps it: folders hold files and other folders in the order of their
names. Unlike a table of objects it refuses to put a file where a folder is, and a folder where a
file is, and its folders stay when their last file goes.
-/

namespace Schemata.Storage

mutual

inductive Node
  | file (content : ByteArray)
  | folder (entries : Entries)

/-- What a folder holds, in the order of the names. -/
inductive Entries
  | nil
  | cons (name : String) (node : Node) (rest : Entries)

end

instance : Inhabited Node := ⟨.folder .nil⟩

/-- What a file system refuses. -/
inductive FsError
  | notFound
  | exists
  | notADirectory
  | isADirectory
  | nameTooLong
  | nulInName
  deriving DecidableEq, Repr

namespace FsError

def detail : FsError → String
  | .notFound => "No such file or directory (os error 2)"
  | .exists => "File exists (os error 17)"
  | .notADirectory => "Not a directory (os error 20)"
  | .isADirectory => "Is a directory (os error 21)"
  | .nameTooLong => "File name too long (os error 36)"
  | .nulInName => "file name contained an unexpected NUL byte"

/-- The failure of an operation on an object. -/
def toError (path : String) : FsError → Error
  | .notFound => .missing path
  | e => .io path e.detail

end FsError

namespace Entries

def find? (name : String) : Entries → Option Node
  | .nil => none
  | .cons n node rest => if n = name then some node else find? name rest

/-- Puts an entry in its place, over the entry of the same name. -/
def insert (name : String) (node : Node) : Entries → Entries
  | .nil => .cons name node .nil
  | .cons n old rest =>
    if name < n then .cons name node (.cons n old rest)
    else if name = n then .cons name node rest
    else .cons n old (insert name node rest)

/-- Removes the entry of a name. -/
def erase (name : String) : Entries → Entries
  | .nil => .nil
  | .cons n node rest => if n = name then rest else .cons n node (erase name rest)

end Entries

def maxNameBytes : Nat := 255

/-- The names of a path have at most this many bytes, with a slash before each. Paths end at 4095
bytes, and the tree itself stands at a place that takes some of them. -/
def maxPathBytes : Nat := 4080

/-- The bytes of the names of a path, with a slash before each. -/
def pathBytes (names : List String) : Nat :=
  names.foldr (fun name n => name.utf8ByteSize + 1 + n) 0

/-- Whether a name holds the character that ends names in a system call. -/
def hasNul (name : String) : Bool := name.toList.any fun c => c.toNat = 0

/-- Refuses a path that no system call takes, whatever the tree holds. -/
def checkPath (names : List String) : Except FsError Unit :=
  if names.any hasNul then .error .nulInName
  else if pathBytes names > maxPathBytes then .error .nameTooLong
  else .ok ()

namespace Node

/-! ### Reading -/

/-- The node that the names lead to. -/
def walkTo : Node → List String → Except FsError Node
  | node, [] => .ok node
  | .file _, _ :: _ => .error .notADirectory
  | .folder entries, name :: names =>
    if name.utf8ByteSize > maxNameBytes then .error .nameTooLong
    else
      match entries.find? name with
      | some node => walkTo node names
      | none => .error .notFound

def resolve (root : Node) (names : List String) : Except FsError Node := do
  checkPath names
  root.walkTo names

mutual

/-- The stops of a walk through a node that is found at a path: a look at every node, and a visit
to every file. -/
def stops (path : List String) : Node → List Stop
  | .file _ => [.poll, .visit (.plain (Text.joined '/' path))]
  | .folder entries => .poll :: stopsIn path entries

/-- The stops of a walk through the entries of a folder. -/
def stopsIn (path : List String) : Entries → List Stop
  | .nil => []
  | .cons name node rest => stops (path ++ [name]) node ++ stopsIn path rest

end

mutual

/-- The contents of the files of a node. -/
def contents : Node → List ByteArray
  | .file content => [content]
  | .folder entries => contentsIn entries

def contentsIn : Entries → List ByteArray
  | .nil => []
  | .cons _ node rest => contents node ++ contentsIn rest

end

/-! ### Writing -/

/-- Makes the folders on the way to a path that are missing. What was made before a refusal
stays. -/
def makeFolders : Node → List String → Node × Option FsError
  | node, [] => (node, none)
  | .file content, _ :: _ => (.file content, some .notADirectory)
  | .folder entries, name :: names =>
    if name.utf8ByteSize > maxNameBytes then (.folder entries, some .nameTooLong)
    else
      match entries.find? name, names with
      | some (.file _), [] => (.folder entries, some .exists)
      | some child, names =>
        let (child, refusal) := makeFolders child names
        (.folder (entries.insert name child), refusal)
      | none, names =>
        let (child, refusal) := makeFolders (.folder .nil) names
        (.folder (entries.insert name child), refusal)

def writeFile (content : ByteArray) : Node → List String → Except FsError Node
  | _, [] => .error .isADirectory
  | .file _, _ :: _ => .error .notADirectory
  | .folder entries, [name] =>
    if name.utf8ByteSize > maxNameBytes then .error .nameTooLong
    else
      match entries.find? name with
      | some (.folder _) => .error .isADirectory
      | _ => .ok (.folder (entries.insert name (.file content)))
  | .folder entries, name :: names =>
    match entries.find? name with
    | some child => do
      let child ← writeFile content child names
      return .folder (entries.insert name child)
    | none => .error .notFound

/-- Writes a file and the folders on the way to it. -/
def put (root : Node) (names : List String) (content : ByteArray) : Node × Option FsError :=
  match checkPath names.dropLast with
  | .error refusal => (root, some refusal)
  | .ok () =>
    match root.makeFolders names.dropLast with
    | (root, some refusal) => (root, some refusal)
    | (root, none) =>
      match (do checkPath names; writeFile content root names) with
      | .ok root => (root, none)
      | .error refusal => (root, some refusal)

def takeOut : Node → List String → Except FsError Node
  | .file _, _ :: _ => .error .notADirectory
  | _, [] => .error .isADirectory
  | .folder entries, name :: names =>
    if name.utf8ByteSize > maxNameBytes then .error .nameTooLong
    else
      match entries.find? name, names with
      | none, _ => .error .notFound
      | some (.file _), [] => .ok (.folder (entries.erase name))
      | some (.folder _), [] => .error .isADirectory
      | some child, names => do
        let child ← takeOut child names
        return .folder (entries.insert name child)

def remove (root : Node) (names : List String) : Except FsError Node := do
  checkPath names
  root.takeOut names

end Node

end Schemata.Storage

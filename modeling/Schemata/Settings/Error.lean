import Schemata.Digest.Basic
import Schemata.ModuleName
import Schemata.Storage.Bucket
import Schemata.Toml.Document

/-!
# Reading settings

What all settings files have in common: their failures, their versions, and how their text is
fetched and taken apart.
-/

namespace Schemata.Settings

open Text

/-- The versions of settings files, the oldest first. -/
inductive Version
  | v1beta1
  | v1
  | v2
  deriving DecidableEq, Repr

namespace Version

def text : Version → String
  | .v1beta1 => "v1beta1"
  | .v1 => "v1"
  | .v2 => "v2"

def ofText? : String → Option Version
  | "v1beta1" => some .v1beta1
  | "v1" => some .v1
  | "v2" => some .v2
  | _ => none

theorem ofText?_text (v : Version) : ofText? v.text = some v := by
  cases v <;> rfl

end Version

inductive Error
  /-- The file named in place of the workspace's own does not exist. -/
  | absent
  /-- The file named in place of the workspace's own is not text. -/
  | undecodable
  | storage (cause : Storage.Error)
  /-- The stored file is not text. -/
  | notText (file : String)
  | malformed (file : String)
  | unknownVersion (file version : String)
  | unsupportedVersion (file : String) (version : Version)
  | path (file : String) (cause : Path.Error)
  | name (cause : NameError)
  | digest (cause : DigestError)
  | invalid (file reason : String)
  deriving DecidableEq

namespace Error

def message : Error → String
  | .absent => "failed to read configuration: No such file or directory (os error 2)"
  | .undecodable => "failed to read configuration: stream did not contain valid UTF-8"
  | .storage cause => cause.message
  | .notText file => s!"failed to parse {file}: file is not valid UTF-8"
  | .malformed file => s!"failed to parse {file}"
  | .unknownVersion file version => s!"{file} has unknown version {quoted version}"
  | .unsupportedVersion file version => s!"{file} does not support version {version.text}"
  | .path file cause => s!"invalid path in {file}: {cause.message}"
  | .name cause => cause.message
  | .digest cause => cause.message
  | .invalid file reason => s!"validation error in {file}: {reason}"

/-- Whether the settings are refused because there are none. -/
def isMissing : Error → Bool
  | .absent => true
  | .storage cause => cause.isMissing
  | _ => false

end Error

/-- The text of a settings file in a directory of a bucket. -/
def readText (volumes : Storage.Volumes) (live : Bool) (b : Storage.Bucket) (dir file : String) :
    Except Error String := do
  let path := Path.join dir file
  let content ← (b.read volumes live path).mapError .storage
  match String.fromUTF8? content with
  | some text => return text
  | none => throw (.notText path)

/-! ### Taking a document apart -/

/-- Accepts what could be read. -/
def orMalformed {α : Type} (file : String) : Option α → Except Error α
  | some a => .ok a
  | none => .error (.malformed file)

def readDocument (file text : String) : Except Error Toml.Value :=
  orMalformed file (Toml.parse text)

/-- The version that a document names; other entries do not matter. -/
def readVersion (file : String) (document : Toml.Value) : Except Error (Option Version) :=
  match document with
  | .table entries =>
    match entries.find? fun e => e.1 == "version" with
    | none => .ok none
    | some (_, .string text) =>
      match Version.ofText? text with
      | some v => .ok (some v)
      | none => .error (.unknownVersion file text)
    | some _ => .error (.malformed file)
  | _ => .error (.malformed file)

def string : Toml.Value → Option String := Toml.Value.text?

def strings : Toml.Value → Option (List String) := Toml.Value.items? string

/-- The normal form of a path in a settings file. -/
def normalizeIn (file path : String) : Except Error String :=
  (Path.normalize path).mapError (.path file)

/-- The name of a module, if one is given. -/
def readName (name : Option String) : Except Error (Option ModuleName) :=
  match name with
  | none => .ok none
  | some name => (ModuleName.parse name).map some |>.mapError .name

def readRefs (refs : List String) : Except Error (List ModuleRef) :=
  refs.mapM fun r => (ModuleRef.parse r).mapError .name

/-! ### Conditions on lists -/

/-- The first two members, in the order of the first and then of the second, that are in a
relation. -/
def firstPair? {α : Type} (related : α → α → Bool) : List α → Option (α × α)
  | [] => none
  | a :: rest =>
    match rest.find? (related a) with
    | some b => some (a, b)
    | none => firstPair? related rest

/-- The first member that occurs before. -/
def firstRepeat? {α : Type} [BEq α] (seen : List α) : List α → Option α
  | [] => none
  | a :: rest => if seen.contains a then some a else firstRepeat? (a :: seen) rest

def overlap (a b : String) : Bool := Path.covers a b || Path.covers b a

/-- Refuses paths of which one covers another. -/
def checkNoOverlap (file what : String) (paths : List String) : Except Error Unit :=
  match firstPair? overlap paths with
  | some (a, b) => .error (.invalid file s!"{what} {quoted a} and {quoted b} overlap")
  | none => .ok ()

/-- Refuses a path that is listed twice. -/
def checkDistinct (file what : String) (paths : List String) : Except Error Unit :=
  match firstRepeat? [] paths with
  | some path => .error (.invalid file s!"{what} {quoted path} is listed more than once")
  | none => .ok ()

end Schemata.Settings

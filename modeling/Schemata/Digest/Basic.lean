import Schemata.Digest.ContentHash
import Schemata.Storage.Error

/-!
# Typed digests

A digest is a content hash with the rule it was made by: `b4` and `b5` for modules, `p1` for
plugins. It is written `type:hash`.
-/

namespace Schemata

open Text

inductive DigestType
  | b4
  | b5
  | p1
  deriving DecidableEq, Repr

namespace DigestType

def text : DigestType → String
  | .b4 => "b4"
  | .b5 => "b5"
  | .p1 => "p1"

def ofText? : String → Option DigestType
  | "b4" => some .b4
  | "b5" => some .b5
  | "p1" => some .p1
  | _ => none

theorem ofText?_text (t : DigestType) : ofText? t.text = some t := by
  cases t <;> rfl

end DigestType

/-- A content hash with the rule it was made by. -/
structure Digest where
  type : DigestType
  hash : ContentHash
  deriving DecidableEq

/-- Why digests or the files they stand for are refused. -/
inductive DigestError
  | unknownType (value : String)
  | invalidHash (value : String) (flaw : ContentHash.Flaw)
  | invalidManifestLine (line : Nat) (reason : String)
  | invalidFilePath (path : String)
  | duplicatePath (path : String)
  | unexpectedType (expected actual : String)
  | storage (cause : Storage.Error)
  deriving DecidableEq

def ContentHash.Flaw.reason : ContentHash.Flaw → String
  | .wrongLength => "expected 64 hex characters"
  | .notHexadecimal => "non-hex character"

def DigestError.message : DigestError → String
  | .unknownType value => s!"invalid digest type {quoted value}"
  | .invalidHash value flaw => s!"invalid digest {quoted value}: {flaw.reason}"
  | .invalidManifestLine line reason => s!"invalid manifest line {line}: {reason}"
  | .invalidFilePath path => s!"invalid file node path {quoted path}"
  | .duplicatePath path => s!"duplicate path {quoted path} in manifest"
  | .unexpectedType expected actual => s!"expected a {expected} digest, got {actual}"
  | .storage cause => cause.message

def ContentHash.read (value : String) : Except DigestError ContentHash :=
  match ContentHash.parse value with
  | .ok hash => .ok hash
  | .error flaw => .error (.invalidHash value flaw)

namespace Digest

def text (d : Digest) : String := d.type.text ++ ":" ++ d.hash.text

instance : ToString Digest := ⟨text⟩

def parseType (value : String) : Except DigestError DigestType :=
  match DigestType.ofText? value with
  | some t => .ok t
  | none => .error (.unknownType value)

def parse (value : String) : Except DigestError Digest :=
  match cutFirst ':' value.toList with
  | none => .error (.unknownType "")
  | some (type, hash) => do
    return ⟨← parseType (String.ofList type), ← ContentHash.read (String.ofList hash)⟩

def ofPlugin (data : ByteArray) : Digest := ⟨.p1, ContentHash.ofContent data⟩

end Digest

end Schemata

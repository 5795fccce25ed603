import Schemata.Module.Error
import Schemata.Storage.Bucket

/-!
# The files of a module

Of all objects in a module's directory only three kinds belong to it: its schema files, its license
and one documentation file, the first that is there of the names in order.
-/

namespace Schemata.Module

open Storage

inductive FileKind
  | schema
  | doc
  | license
  deriving DecidableEq, Repr

def FileKind.text : FileKind → String
  | .schema => "schema"
  | .doc => "doc"
  | .license => "license"

def schemaExtension : String := ".schema"

/-- The names of documentation files, the preferred first. -/
def docPaths : List String := ["strata.md", "README.md", "README.markdown"]

def licensePath : String := "LICENSE"

def kindOf? (path : String) : Option FileKind :=
  if Path.extension path = schemaExtension then some .schema
  else if path = licensePath then some .license
  else if docPaths.contains path then some .doc
  else none

def firstPresent? (volumes : Volumes) (live : Bool) (b : Bucket) :
    List String → Except Error (Option String)
  | [] => .ok none
  | path :: paths =>
    match b.stat volumes live path with
    | .ok _ => .ok (some path)
    | .error e =>
      if e.isMissing then firstPresent? volumes live b paths else .error (.storage e)

/-- The view of a bucket that shows only the files of a module. -/
def filesOf (volumes : Volumes) (live : Bool) (b : Bucket) : Except Error Bucket := do
  let doc ← firstPresent? volumes live b docPaths
  let kept := [.extension schemaExtension, .exactly licensePath] ++ doc.toList.map .exactly
  return .mapped b [.keep (.any kept)]

end Schemata.Module

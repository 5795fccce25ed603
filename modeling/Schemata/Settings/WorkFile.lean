import Schemata.Settings.Error

/-!
# Workspace files

The file that lists the module directories of a workspace of older modules. The directories do not
overlap.
-/

namespace Schemata.Settings

structure WorkFile where
  version : Version
  dirs : List String

namespace WorkFile

def fileName : String := "strata.work.toml"

def checkVersion : Option Version → Except Error Unit
  | some .v1 => .ok ()
  | some version => .error (.unsupportedVersion fileName version)
  | none => .error (.invalid fileName "missing version")

def readDirs (document : Toml.Value) : Option (List String) := do
  let [_, dirs] ← document.fields? ["version", "directories"] | none
  Toml.optional [] strings dirs

def checkDir (dir : String) : Except Error String := do
  let dir ← normalizeIn fileName dir
  if dir = "." then
    throw (.invalid fileName
      "directory \".\" cannot be listed; list each module directory instead")
  return dir

def parse (text : String) : Except Error WorkFile := do
  let document ← readDocument fileName text
  checkVersion (← readVersion fileName document)
  let dirs ← orMalformed fileName (readDirs document)
  if dirs.isEmpty then throw (.invalid fileName "no directories listed")
  let dirs ← dirs.mapM checkDir
  checkNoOverlap fileName "directories" dirs
  return ⟨.v1, sortedBy id dirs⟩

def ofBucket (volumes : Storage.Volumes) (live : Bool) (b : Storage.Bucket) (dir : String) :
    Except Error WorkFile := do
  parse (← readText volumes live b dir fileName)

end WorkFile

end Schemata.Settings

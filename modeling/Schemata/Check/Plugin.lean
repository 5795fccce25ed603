import Schemata.Check.Error
import Schemata.Memo
import Schemata.Settings.ModuleFile

/-!
# Plugins

A plugin adds rules from outside: a program, a Wasm file or a Wasm module of a registry. The bytes
of a Wasm plugin are read at most once, and its digest is taken from them.
-/

namespace Schemata.Check

/-- Where the bytes of a plugin come from: what reading them gives. -/
abbrev PluginSource := Except Error ByteArray

/-- A plugin. Plugins without a module name are local. -/
structure Plugin where
  name : Option ModuleName
  args : List String
  id : String
  description : String
  isWasm : Bool
  source : Option PluginSource

namespace Plugin

def isLocal (p : Plugin) : Bool := p.name.isNone

/-- A plugin that can be used: a local one has a program or file as its first argument, and a Wasm
plugin has bytes. -/
def make (name : Option ModuleName) (args : List String) (isWasm : Bool)
    (source : Option PluginSource) (description : Option String) : Except Error Plugin := do
  if name.isNone && args.headD "" = "" then
    throw (.invalidPlugin "local plugins must name a program or Wasm file")
  let id := match name with
    | some name => name.text
    | none => String.intercalate " " args
  if isWasm && source.isNone then
    throw (.invalidPlugin s!"Wasm plugin {id} has no data")
  return ⟨name, args, id, (description.filter (· ≠ "")).getD id, isWasm, source⟩

def ofCommand (args : List String) (description : Option String) : Except Error Plugin :=
  make none args false none description

def ofWasmFile (path : String) (args : List String) (source : Option PluginSource)
    (description : Option String) : Except Error Plugin :=
  make none (path :: args) true source description

/-- A Wasm module of a registry. -/
def ofRemote (name : ModuleName) (args : List String) (source : Option PluginSource)
    (description : Option String) : Except Error Plugin :=
  make (some name) args true source description

def ofSettings (s : Settings.PluginSettings) (source : Option PluginSource) :
    Except Error Plugin :=
  match s.kind with
  | .command => ofCommand (s.name :: s.args) none
  | .wasmFile => ofWasmFile s.name s.args source none
  | .remote =>
    match ModuleName.parse s.name with
    | .ok name => ofRemote name s.args source none
    | .error e => .error (.invalidPlugin s!"invalid remote plugin name: {e.message}")

/-! ### Reading the bytes -/

/-- What is known of a plugin so far. -/
structure Known where
  data : Memo Error ByteArray
  digest : Memo Error Digest
  /-- How often the bytes were read. -/
  reads : Nat

def Known.nothing : Known := ⟨.unresolved, .unresolved, 0⟩

def nonempty (id : String) (data : ByteArray) : Except Error ByteArray :=
  if data.isEmpty then .error (.invalidPlugin s!"Wasm plugin {id} has no data") else .ok data

def data (p : Plugin) : StateM Known (Except Error ByteArray) :=
  match p.source, p.isWasm with
  | some source, true =>
    Memo.force (.internal .reentrant) Known.data (fun m k => { k with data := m }) fun k =>
      (source >>= nonempty p.id, { k with reads := k.reads + 1 })
  | _, _ => pure (.error (.notWasm p.id))

def digest (p : Plugin) (type : DigestType) : StateM Known (Except Error Digest) :=
  if type ≠ .p1 then pure (.error (.unsupportedDigest type))
  else
    Memo.force (.internal .reentrant) Known.digest (fun m k => { k with digest := m }) do
      return (← p.data).map Digest.ofPlugin

end Plugin

end Schemata.Check

import Schemata.Memo
import Schemata.Registry.Basic
import Schemata.Storage.Bucket

/-!
# The world outside

What operations on modules look at and change: whether they are still wanted, the volume of the
module store, the registry, and the digests that were asked for.
-/

namespace Schemata

/-- The surroundings of an operation. -/
structure World where
  /-- Whether operations are still wanted. -/
  live : Bool
  store : Storage.Volume
  registry : Registry
  cells : List (Memo Module.Error Digest)

/-- An operation in the world. A failure keeps what was changed before it. -/
abbrev Act (α : Type) := ExceptT Module.Error (StateM World) α

namespace World

def empty : World := ⟨true, .table .empty, .empty "", []⟩

/-- The volumes of the world: the module store. -/
def volumes (w : World) : Storage.Volumes := [w.store]

def storeBucket : Storage.Bucket := .volume 0

end World

namespace Act

def ofExcept {α : Type} (answer : Except Module.Error α) : Act α := ExceptT.mk (pure answer)

def ofWorld {α : Type} (answer : World → Except Module.Error α) : Act α := fun w => (answer w, w)

/-- Refuses to go on after a cancellation. -/
def checkLive : Act Unit := .ofWorld fun w => Module.checkLive w.live

end Act

namespace ModuleKey

/-- The key whose digest is asked of the registry when it is needed. -/
def deferred (name : ModuleName) (commit : CommitId) : StateM World ModuleKey := do
  let w ← get
  set { w with cells := w.cells ++ [Memo.unresolved] }
  return ⟨name, commit, .asked w.cells.length⟩

/-- The digest of a key. Of a deferred key the registry is asked once, and a failure stays. -/
def resolveDigest (k : ModuleKey) : Act Digest :=
  match k.digest with
  | .known digest => pure digest
  | .asked cell =>
    ExceptT.mk <| Memo.force (.internal .reentrant) (fun w => w.cells[cell]?.getD Memo.unresolved)
      (fun m w => { w with cells := w.cells.set cell m })
      fun w =>
        ((do
          Module.checkLive w.live
          w.registry.digestOf k.name k.commit), w)

end ModuleKey

end Schemata

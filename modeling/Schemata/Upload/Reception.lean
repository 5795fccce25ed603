import Schemata.Registry.Access
import Schemata.Upload.Request

/-!
# The registry as a receiver of uploads

The registry stores the modules of a request in rounds. In each round those are stored whose
siblings are all there; modules that wait for each other are refused.
-/

namespace Schemata.Upload

/-- The modules of a request that are stored, the latest first, by their place in the request. -/
abbrev Stored := List (Nat × ModuleKey)

def siblingKey? (stored : Stored) (name : ModuleName) : Option ModuleKey :=
  (stored.find? fun e => e.2.name = name).map (·.2)

/-- The keys of dependencies, unless a sibling is not stored yet. -/
def depKeys? (r : Registry) (stored : Stored) :
    List Dependency → Except Module.Error (Option (List ModuleKey))
  | [] => .ok (some [])
  | .sibling name :: deps =>
    match siblingKey? stored name with
    | none => .ok none
    | some key => do return (← depKeys? r stored deps).map (key :: ·)
  | .commit name id :: deps => do
    let key ← r.resolve ⟨name, some id.text⟩
    return (← depKeys? r stored deps).map (key :: ·)

/-- Modules of a request with their places. -/
abbrev Waiting := List (Content × Nat)

/-- Stores what can be stored: the modules that are stored by now, and those that have to wait. -/
def storeRound (labels : List String) : Waiting → Stored → Act (Stored × Waiting)
  | [], stored => return (stored, [])
  | (c, place) :: rest, stored => do
    match ← Act.ofWorld fun w => depKeys? w.registry stored c.deps with
    | none =>
      let (stored, waiting) ← storeRound labels rest stored
      return (stored, (c, place) :: waiting)
    | some deps =>
      let key ← Registry.push c.name c.files deps labels
      storeRound labels rest ((place, key) :: stored)

/-- Stores modules round after round, as long as a round stores any. -/
def storeAll (labels : List String) (waiting : Waiting) (stored : Stored) : Act Stored := do
  if waiting.isEmpty then return stored
  Act.checkLive
  let (stored, deferred) ← storeRound labels waiting stored
  if _h : deferred.length < waiting.length then storeAll labels deferred stored
  else
    let names := String.intercalate ", " (deferred.map fun e => e.1.name.text)
    throw (.remote s!"unresolvable local dependencies among {names}")
termination_by waiting.length

def receiptOf (key : ModuleKey) : Act Receipt := do
  return ⟨key.name, key.commit, ← key.resolveDigest⟩

/-- Stores the modules of a request in the registry. -/
def toRegistry : Client := fun r =>
  ExceptT.adapt .module do
    let stored ← storeAll r.labels r.contents.zipIdx []
    let inOrder := sortedWith (fun a b => a.1 ≤ b.1) stored
    inOrder.mapM fun e => receiptOf e.2

end Schemata.Upload

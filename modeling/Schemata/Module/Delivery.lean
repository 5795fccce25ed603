import Schemata.Digest.Manifest
import Schemata.Module.Files
import Schemata.World

/-!
# Delivered modules

What a provider delivers for a key: files and declared dependencies. Nobody sees either before they
were verified, and the outcome of the verification stays.
-/

namespace Schemata

open Storage

structure Contents where
  files : Bucket
  deps : List ModuleKey

/-- A delivery for a key. `source` is what getting at the files gives. -/
structure Delivery where
  key : ModuleKey
  source : Except Module.Error Bucket
  declared : List ModuleKey
  check : Memo Module.Error Contents

namespace Delivery

def sealed (key : ModuleKey) (source : Except Module.Error Bucket) (declared : List ModuleKey) :
    Delivery :=
  ⟨key, source, declared, .unresolved⟩

def digestOf (files : Bucket) (deps : List ModuleKey) : Act Digest := do
  let manifest ← Act.ofWorld fun w =>
    (Manifest.ofBucket w.volumes w.live files).mapError .digest
  let digests ← deps.mapM ModuleKey.resolveDigest
  Act.ofExcept ((Digest.b5 manifest digests).mapError .digest)

/-- Compares the digest of a delivery's contents with that of its key. -/
def verify (d : Delivery) : Act Contents := do
  Act.checkLive
  let source ← Act.ofExcept d.source
  let files ← Act.ofWorld fun w => Module.filesOf w.volumes w.live source
  let expected ← d.key.resolveDigest
  let actual ← digestOf files d.declared
  if expected ≠ actual then throw (.verification d.key.text expected actual)
  return ⟨files, d.declared⟩

/-- Asks for the contents of a delivery: the answer, and the delivery with it. -/
def open? (d : Delivery) : StateM World (Except Module.Error Contents × Delivery) := fun w =>
  let (outcome, (w, d)) :=
    Memo.force (.internal .reentrant) (fun s : World × Delivery => s.2.check)
      (fun m s => (s.1, { s.2 with check := m }))
      (fun s => let (outcome, w) := s.2.verify.run s.1; (outcome, (w, s.2))) (w, d)
  ((outcome, d), w)

/-- The contents of a delivery, and the delivery as verified. -/
def contents (d : Delivery) : Act (Contents × Delivery) := do
  let (outcome, d) ← (d.open? : StateM World _)
  match outcome with
  | .ok c => return (c, d)
  | .error e => throw e

end Delivery

/-- What fetches modules: one delivery for each key, in order. -/
abbrev Provider := List ModuleKey → Act (List Delivery)

def Provider.none : Provider
  | [] => return []
  | key :: _ => throw (.remote s!"no registry is configured to fetch {key}")

end Schemata

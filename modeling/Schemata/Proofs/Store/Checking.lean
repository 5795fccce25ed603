import Schemata.Proofs.Module.Caching
import Schemata.Proofs.Store.Finding

/-!
# What the store has is checked

Anything may stand in the store for a key, and what has a readable entry is delivered. It is
verified when it is asked for: then it gives the files of the module that the digest of the key was
made of, or it fails.
-/

namespace Schemata.Store

open Storage

variable {w w' : World} {v : Volume} {key : ModuleKey} {x : Digest} {p : Kept}

/-! ### Entries, whoever wrote them -/

theorem exists_recorded {deps : List ModuleKey} (h : ∀ k ∈ deps, ∃ d, k.digest = .known d) :
    ∃ found : List (ModuleKey × Digest), deps = found.map recorded := by
  induction deps with
  | nil => exact ⟨[], rfl⟩
  | cons k deps ih =>
    obtain ⟨⟨d, hd⟩, hdeps⟩ := List.forall_mem_cons.1 h
    obtain ⟨found, rfl⟩ := ih hdeps
    refine ⟨(k, d) :: found, ?_⟩
    rw [List.map_cons, recorded, ← hd]

/-- Whatever is found comes from an entry and records known digests. -/
theorem lookUp_cases {live : Bool} {d : Delivery} (h : lookUp live v key x = some d) :
    (∃ entry, v.held (entryPath key x) = some entry) ∧ ∃ deps : List (ModuleKey × Digest),
      d = .sealed key (.ok (filesBucket key x)) (deps.map recorded) := by
  unfold lookUp at h
  split at h
  · cases h
  · rename_i entry hread
    split at h
    · rename_i hentry
      split at h
      · cases h
        obtain ⟨deps, rfl⟩ := exists_recorded (digests_readEntry hentry)
        exact ⟨⟨entry, (read_store.1 hread).2⟩, deps, rfl⟩
      · cases h
    · cases h

/-- Keys of one place with one digest are all found or none. -/
theorem lookUp_eq_none_congr {key' : ModuleKey} (h : placeOf key x = placeOf key' x) {live : Bool}
    (hnone : lookUp live v key x = none) : lookUp live v key' x = none := by
  unfold lookUp at hnone ⊢
  rw [← entryPath_congr h]
  cases hread : World.storeBucket.read [v] live (entryPath key x) with
  | error e => rfl
  | ok entry =>
    simp only [hread] at hnone ⊢
    cases hentry : readEntry entry with
    | none => rfl
    | some r =>
      obtain ⟨digest, deps⟩ := r
      simp only [hentry] at hnone ⊢
      split at hnone
      · cases hnone
      · rename_i hother
        rw [if_neg hother]

/-- An entry that was kept for a key is found whatever stands beside it. -/
theorem lookUp_of_held {deps : List (ModuleKey × Digest)}
    (h : v.held (entryPath key x) = some (entryText x deps).toUTF8) :
    lookUp true v key x = some (.sealed key (.ok (filesBucket key x)) (deps.map recorded)) := by
  unfold lookUp
  rw [read_store.2 ⟨rfl, h⟩]
  simp only [readEntry_entryText, if_true]

/-! ### The verification -/

/-- Whether the files of a module stand in a store for it. -/
def Holds (v : Volume) (p : Kept) : Prop :=
  Module.HasFiles [v] true (filesBucket p.key p.digest) p.files

/-- Whether a delivery with dependencies gives what a module has, or nothing. It opens if the store
holds the files of the module, and if the dependencies have the same digests. -/
structure Guards (w : World) (d : Delivery) (deps : List (ModuleKey × Digest)) (p : Kept) :
    Prop where
  opens : (∃ c d' w', d.contents.Gives w (c, d') w') →
    Holds w.store p ∧ ∀ x, x ∈ p.deps.map Prod.snd ↔ x ∈ deps.map Prod.snd
  serves : Holds w.store p → (∀ x, x ∈ p.deps.map Prod.snd ↔ x ∈ deps.map Prod.snd) →
    d.Delivers w p.files (deps.map recorded)

theorem serves_filesBucket (h : v.Tidy) (hnormal : Path.IsNormal (filesDir key x)) {view : Bucket}
    {files : Table ByteArray} (hview : Module.filesOf [v] true (filesBucket key x) = .ok view)
    (hfiles : Module.HasFiles [v] true (filesBucket key x) files) : view.Serves [v] files :=
  serves_of_hasFiles hview hfiles fun _ _ => listed_filesBucket h hnormal

/-- What the store has for a module is verified before it is seen, whatever that is. -/
theorem guards_found (hlive : w.live = true) (htidy : w.store.Tidy)
    (hnormal : Path.IsNormal (filesDir p.key p.digest)) (hkey : p.key.HasDigest w p.digest)
    {deps : List (ModuleKey × Digest)}
    (hsha : ∀ files, Module.HasFiles [w.store] true (filesBucket p.key p.digest) files →
      NoCollision p.files files (p.deps.map Prod.snd) (deps.map Prod.snd)) :
    Guards w (.sealed p.key (.ok (filesBucket p.key p.digest)) (deps.map recorded)) deps p := by
  have hasked : ModuleKey.Asked w (p.key :: deps.map recorded)
      (p.digest :: deps.map Prod.snd) := by
    obtain ⟨w₁, hgives⟩ := hkey
    refine ⟨w₁, ?_⟩
    rw [List.mapM_cons]
    exact Act.gives_bind.2 ⟨_, w₁, hgives, Act.gives_bind.2
      ⟨_, w₁, gives_recorded deps w₁, Act.gives_pure.2 ⟨rfl, rfl⟩⟩⟩
  have hverifies : (∃ c w', (Delivery.sealed p.key (.ok (filesBucket p.key p.digest))
      (deps.map recorded)).verify.Gives w c w') ↔ _ :=
    Delivery.verifies_hasFiles_iff p.listed p.digest_eq hasked (by rw [hlive]; exact hsha)
  have hvolumes : Module.HasFiles w.volumes w.live (filesBucket p.key p.digest) p.files ↔
      Holds w.store p := by
    rw [hlive]
    exact Iff.rfl
  rw [hvolumes] at hverifies
  constructor
  · rintro ⟨c, d', w', hgives⟩
    obtain ⟨hsettled, _⟩ | ⟨_, _, hverify⟩ := Delivery.gives_contents hgives
    · cases hsettled
    · exact (hverifies.1 ⟨c, w', hverify⟩).2
  · intro hholds hsame
    obtain ⟨c, w', hverify⟩ := hverifies.2 ⟨hlive, hholds, hsame⟩
    obtain ⟨_, _, hdeps, ⟨b, hb, hview⟩, w₁, hgives, hdigest⟩ := Delivery.gives_verify.1 hverify
    cases hb
    rw [hlive] at hview
    obtain ⟨cells, rfl⟩ := ModuleKey.cells_of_gives hgives
    obtain ⟨_, _, _, hds, _⟩ := Delivery.gives_digestOf.1 hdigest
    obtain ⟨_, cells', rfl⟩ := ModuleKey.gives_digests hds
    exact ⟨c, _, _, Delivery.gives_contents_of_verify rfl hverify,
      serves_filesBucket htidy hnormal hview hholds, hdeps⟩

/-- Whether a delivery comes with dependencies from the store and is guarded whenever it is asked
for, as long as hashes do not collide. -/
def Checked (d : Delivery) (p : Kept) : Prop :=
  ∃ deps : List (ModuleKey × Digest), d.declared = deps.map recorded ∧
    ∀ w : World, w.live = true → w.store.Tidy → p.key.HasDigest w p.digest →
      (∀ files, Module.HasFiles [w.store] true (filesBucket p.key p.digest) files →
        NoCollision p.files files (p.deps.map Prod.snd) (deps.map Prod.snd)) →
      Guards w d deps p

/-- What is found for a module is checked. -/
theorem checked_lookUp (h : v.Tidy) {d : Delivery}
    (hfound : lookUp true v p.key p.digest = some d) : d.key = p.key ∧ Checked d p := by
  obtain ⟨⟨entry, hentry⟩, deps, rfl⟩ := lookUp_cases hfound
  have hnormal := isNormal_filesDir (Volume.isObject_of_held h hentry)
  exact ⟨rfl, deps, rfl, fun w hlive htidy hkey hsha =>
    guards_found hlive htidy hnormal hkey hsha⟩

end Schemata.Store

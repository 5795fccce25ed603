import Schemata.Proofs.Module.Delivery
import Schemata.Proofs.Module.Files

/-!
# What a delivery cannot alter unnoticed

The digest of a key is made of the files of a module and the digests of its dependencies. A delivery
for the key lets its files and dependencies be seen if it has the same files, and the same set of
digests among its dependencies. Under which names and commits these digests stand is not covered.
-/

namespace Schemata.Delivery

open Storage
open Schemata.Module (HasFiles)

/-- Whether a digest is the one of the module files in a bucket and of some keys with these
digests. -/
structure Commits (w : World) (b : Bucket) (deps : List ModuleKey) (ds : List Digest) (x : Digest) :
    Prop where
  digests : ModuleKey.Asked w deps ds
  digest : ∃ files w', Module.filesOf w.volumes w.live b = .ok files ∧
    (digestOf files deps).Gives w x w'

/-- Whether two buckets have the same files of a module, with the same contents. -/
def SameFiles (w : World) (b : Bucket) (w' : World) (b' : Bucket) : Prop :=
  ∃ files, HasFiles w.volumes w.live b files ∧ HasFiles w'.volumes w'.live b' files

/-- Whether the hash tells apart what is hashed for the files of two buckets and for digests. -/
def NoCollisionOf (w : World) (b : Bucket) (ds : List Digest) (w' : World) (b' : Bucket)
    (ds' : List Digest) : Prop :=
  ∀ files files', HasFiles w.volumes w.live b files → HasFiles w'.volumes w'.live b' files' →
    NoCollision files files' ds ds'

variable {w w₀ w' : World} {b b' : Bucket} {deps deps' : List ModuleKey} {ds ds' : List Digest}
  {x : Digest} {key : ModuleKey}

theorem gives_digestOf_filesOf {files : Bucket} {cells : List (Memo Module.Error Digest)}
    (hview : Module.filesOf w.volumes w.live b = .ok files)
    (h : (digestOf files deps).Gives { w with cells := cells } x w') :
    ∃ table ds, HasFiles w.volumes w.live b table ∧ Manifest.Lists table ∧
      (deps.mapM ModuleKey.resolveDigest).Gives { w with cells := cells } ds w' ∧
      Digest.b5 (.ofFiles table) ds = .ok x := by
  obtain ⟨m, ds, hm, hds, hx⟩ := gives_digestOf.1 h
  obtain ⟨table, htable, hlists, rfl⟩ := Module.hasFiles_of_ofBucket hview hm
  exact ⟨table, ds, htable, hlists, hds, hx⟩

theorem Commits.files (h : Commits w b deps ds x) :
    ∃ table, HasFiles w.volumes w.live b table ∧ Manifest.Lists table ∧
      Digest.b5 (.ofFiles table) ds = .ok x := by
  obtain ⟨files, w', hview, hdigest⟩ := h.digest
  obtain ⟨table, ds', htable, hlists, hds, hx⟩ := gives_digestOf_filesOf hview hdigest
  rw [h.digests.unique ⟨w', hds⟩]
  exact ⟨table, htable, hlists, hx⟩

/-- A delivery passes its verification if it has the files and the set of digests that the digest
of its key is made of. -/
theorem verifies_hasFiles_iff {table : Table ByteArray} (hlists : Manifest.Lists table)
    (hx : Digest.b5 (.ofFiles table) ds = .ok x)
    (hasked : ModuleKey.Asked w (key :: deps') (x :: ds'))
    (hsha : ∀ table', HasFiles w.volumes w.live b' table' → NoCollision table table' ds ds') :
    (∃ c w', (Delivery.sealed key (.ok b') deps').verify.Gives w c w') ↔
      w.live = true ∧ HasFiles w.volumes w.live b' table ∧ ∀ d, d ∈ ds ↔ d ∈ ds' := by
  obtain ⟨w₁, cells, w₂, hkey, rfl, hdeps⟩ := ModuleKey.asked_cons hasked
  constructor
  · rintro ⟨c, w', hverify⟩
    obtain ⟨x', hlive, hc, ⟨b'', hb, hview⟩, w₃, hkey', hdigest⟩ := gives_verify.1 hverify
    cases hb
    cases hkey.symm.trans hkey'
    rw [hc] at hdigest
    obtain ⟨table', ds'', htable', hlists', hdeps', hx'⟩ := gives_digestOf_filesOf hview hdigest
    cases hdeps.symm.trans hdeps'
    -- one digest is made of both, so they have the same files and digests
    obtain ⟨rfl, hset⟩ := Digest.b5_inj (hsha table' htable') hlists hlists' hx hx'
    exact ⟨hlive, htable', hset⟩
  · rintro ⟨hlive, htable, hset⟩
    obtain ⟨files, hview, hm⟩ := Module.ofBucket_of_hasFiles htable hlists
    have hdigest : (digestOf files deps').Gives { w with cells := cells } x w₂ :=
      gives_digestOf.2 ⟨_, ds', hm, hdeps, Digest.b5_congr hset hx⟩
    exact ⟨⟨files, deps'⟩, w₂, gives_verify.2
      ⟨x, hlive, rfl, ⟨b', rfl, hview⟩, _, hkey, hdigest⟩⟩

/-- A delivery passes its verification if it has what the digest of its key was made of. -/
theorem verifies_iff (hcommits : Commits w₀ b deps ds x)
    (hasked : ModuleKey.Asked w (key :: deps') (x :: ds'))
    (hsha : NoCollisionOf w₀ b ds w b' ds') :
    (∃ c w', (Delivery.sealed key (.ok b') deps').verify.Gives w c w') ↔
      w.live = true ∧ SameFiles w₀ b w b' ∧ ∀ d, d ∈ ds ↔ d ∈ ds' := by
  obtain ⟨table, htable, hlists, hx⟩ := hcommits.files
  rw [verifies_hasFiles_iff hlists hx hasked fun table' => hsha table table' htable]
  have hsame : SameFiles w₀ b w b' ↔ HasFiles w.volumes w.live b' table := by
    constructor
    · rintro ⟨table', htable₀, htable'⟩
      cases htable.unique htable₀
      exact htable'
    · exact fun htable' => ⟨table, htable, htable'⟩
  rw [hsame]

/-- A delivery for a key lets its files and dependencies be seen if it has the files and the set of
digests that the digest of the key was made of. The first request decides for all. -/
theorem opens_iff_same (hcommits : Commits w₀ b deps ds x)
    (hasked : ModuleKey.Asked w (key :: deps') (x :: ds'))
    (hsha : NoCollisionOf w₀ b ds w b' ds') :
    ∃ outcome : Except Module.Error Contents,
      (∀ r rest, askAll ((r, w) :: rest) (.sealed key (.ok b') deps') =
        ((r, w) :: rest).map fun q => outcome.map q.1.answer) ∧
      (∀ c, outcome = .ok c →
        Module.filesOf w.volumes w.live b' = .ok c.files ∧ c.deps = deps') ∧
      ((∃ c, outcome = .ok c) ↔
        w.live = true ∧ SameFiles w₀ b w b' ∧ ∀ d, d ∈ ds ↔ d ∈ ds') := by
  have hgives {c : Contents} (hc : ((Delivery.sealed key (.ok b') deps').verify.run w).1 = .ok c) :
      ∃ w', (Delivery.sealed key (.ok b') deps').verify.Gives w c w' := ⟨_, Prod.ext hc rfl⟩
  refine ⟨_, fun r rest => askAll_unresolved rfl r rest, fun c hc => ?_, ?_⟩
  · obtain ⟨w', hverify⟩ := hgives hc
    obtain ⟨_, _, hdeps, ⟨b'', hb, hview⟩, _⟩ := gives_verify.1 hverify
    cases hb
    exact ⟨hview, hdeps⟩
  · rw [← verifies_iff hcommits hasked hsha]
    constructor
    · rintro ⟨c, hc⟩
      exact ⟨c, hgives hc⟩
    · rintro ⟨c, w', hverify⟩
      exact ⟨c, congrArg Prod.fst hverify⟩

/-! ### A key and what is delivered for it -/

def petFiles : Table ByteArray :=
  .ofList [("README.md", "pets".toUTF8), ("p.schema", "message Pet {}".toUTF8)]

/-- The files with a note beside them. -/
def pushed : Bucket := .objects (petFiles.insert "notes.txt" "draft".toUTF8)

/-- The files with another documentation file beside them. -/
def restocked : Bucket := .objects (petFiles.insert "README.markdown" "old".toUTF8)

def digestFilledWith (type : DigestType) (byte : UInt8) : Digest :=
  ⟨type, ⟨List.replicate 32 byte, List.length_replicate⟩⟩

def keyOf (owner name : String) (h : ["r.com", owner, name].all isNameComponent = true)
    (digest : Digest) : ModuleKey :=
  ⟨⟨"r.com", owner, name, h⟩, ⟨"0123456789abcdef0123456789abcdef", by decide⟩, .known digest⟩

def base : ModuleKey := keyOf "acme" "base" (by decide) (digestFilledWith .b5 1)
def units : ModuleKey := keyOf "acme" "units" (by decide) (digestFilledWith .b5 2)
def petDeps : List Digest := [digestFilledWith .b5 1, digestFilledWith .b5 2]

def petDigest : Digest := ⟨.b5, ContentHash.ofText (Digest.b5Text (.ofFiles petFiles) petDeps)⟩
def pets : ModuleKey := keyOf "acme" "pets" (by decide) petDigest

theorem hasFiles_pushed : HasFiles World.empty.volumes true pushed petFiles :=
  ⟨some "README.md", [.plain "README.md", .plain "notes.txt", .plain "p.schema"],
    by decide +kernel, by decide +kernel, by decide +kernel, by decide +kernel⟩

theorem hasFiles_restocked : HasFiles World.empty.volumes true restocked petFiles :=
  ⟨some "README.md", [.plain "README.markdown", .plain "README.md", .plain "p.schema"],
    by decide +kernel, by decide +kernel, by decide +kernel, by decide +kernel⟩

theorem commits_pets : Commits World.empty pushed [base, units] petDeps petDigest := by
  have hlists : Manifest.Lists petFiles := by decide +kernel
  obtain ⟨files, hview, hm⟩ := Module.ofBucket_of_hasFiles hasFiles_pushed hlists
  have hdeps : ([base, units].mapM ModuleKey.resolveDigest).Gives World.empty petDeps
      World.empty := rfl
  have hdigest : Digest.b5 (.ofFiles petFiles) petDeps = .ok petDigest :=
    Digest.b5_eq_ok.2 ⟨by decide, rfl⟩
  exact ⟨⟨_, hdeps⟩, files, World.empty, hview, gives_digestOf.2 ⟨_, _, hm, hdeps, hdigest⟩⟩

theorem noCollision_pets {b' : Bucket} {ds' : List Digest}
    (hb' : HasFiles World.empty.volumes true b' petFiles)
    (h : NoCollision petFiles petFiles petDeps ds') :
    NoCollisionOf World.empty pushed petDeps World.empty b' ds' := by
  intro files files' hfiles hfiles'
  rw [hfiles.unique hasFiles_pushed, hfiles'.unique hb']
  exact h

/-- Other objects may stand beside the files, and dependencies be repeated in another order. -/
theorem opens_restocked : ∃ files,
    askAll [(.files, World.empty), (.deps, World.empty), (.files, World.empty)]
        (.sealed pets (.ok restocked) [units, base, units]) =
      [.ok (.inl files), .ok (.inr [units, base, units]), .ok (.inl files)] := by
  have hset : ∀ d, d ∈ petDeps ↔
      d ∈ [digestFilledWith .b5 2, digestFilledWith .b5 1, digestFilledWith .b5 2] := by
    intro d
    simp only [petDeps, List.mem_cons, List.not_mem_nil, or_false]
    grind
  have hasked : ModuleKey.Asked World.empty (pets :: [units, base, units]) (petDigest ::
      [digestFilledWith .b5 2, digestFilledWith .b5 1, digestFilledWith .b5 2]) :=
    ⟨World.empty, rfl⟩
  have hsha := noCollision_pets hasFiles_restocked (.of_same petFiles hset)
  obtain ⟨outcome, hall, hok, hiff⟩ := opens_iff_same commits_pets hasked hsha
  obtain ⟨c, rfl⟩ := hiff.2 ⟨rfl, ⟨petFiles, hasFiles_pushed, hasFiles_restocked⟩, hset⟩
  refine ⟨c.files, ?_⟩
  rw [hall, ← (hok c rfl).2]
  rfl

/-! ### Altered dependencies -/

/-- A delivery whose dependencies have another set of digests fails for good. Where nothing else is
wrong with it, the failure is that of the verification, or the refusal of a digest's type. -/
theorem fails_of_other_digests {source : Except Module.Error Bucket}
    (hcommits : Commits w₀ b deps ds x) (hasked : ModuleKey.Asked w (key :: deps') (x :: ds'))
    (hsha : ∀ b', source = .ok b' → NoCollisionOf w₀ b ds w b' ds')
    (hset : ¬ ∀ d, d ∈ ds ↔ d ∈ ds') :
    ∃ e, (∀ r rest, askAll ((r, w) :: rest) (.sealed key source deps') =
        ((r, w) :: rest).map fun _ => .error e) ∧
      ∀ b' table, w.live = true → source = .ok b' → HasFiles w.volumes w.live b' table →
        Manifest.Lists table →
        ((∀ d ∈ ds', d.type = .b5) → ∃ actual, Digest.b5 (.ofFiles table) ds' = .ok actual ∧
          e = .verification key.text x actual) ∧
        ((¬ ∀ d ∈ ds', d.type = .b5) → ∃ d ∈ ds', d.type ≠ .b5 ∧
          e = .digest (.unexpectedType "b5" d.text)) := by
  have hfails (c : Contents) :
      ((Delivery.sealed key source deps').verify.run w).1 ≠ .ok c := by
    intro hc
    have hverify : (Delivery.sealed key source deps').verify.Gives w c _ := Prod.ext hc rfl
    obtain ⟨_, _, _, ⟨b', hb, _⟩, _⟩ := gives_verify.1 hverify
    cases hb
    exact hset ((verifies_iff hcommits hasked (hsha b' rfl)).1 ⟨c, _, hverify⟩).2.2
  cases houtcome : ((Delivery.sealed key source deps').verify.run w).1 with
  | ok c => exact absurd houtcome (hfails c)
  | error e =>
    refine ⟨e, fun r rest => ?_, fun b' table hlive hb htable hlists => ?_⟩
    · rw [askAll_unresolved rfl, houtcome]
      rfl
    · -- which error it is depends on the digests alone once the files have a manifest
      obtain ⟨files, hview, hm⟩ := Module.ofBucket_of_hasFiles htable hlists
      have hdecides :=
        @verify_outcome _ (.sealed key source deps') _ _ _ _ _ hlive hb hview hm hasked
      rw [houtcome] at hdecides
      refine ⟨fun htypes => ?_, fun htypes => ?_⟩
      · have hactual := (@Digest.b5_eq_ok (.ofFiles table) _ _).2 ⟨htypes, rfl⟩
        refine ⟨_, hactual, ?_⟩
        simp only [hactual] at hdecides
        split at hdecides
        · cases hdecides
        · exact Except.error.inj hdecides
      · obtain ⟨d, hd, htype, hcheck⟩ := Digest.checkTypes_eq_error htypes
        have hrefused : Digest.b5 (.ofFiles table) ds' =
            .error (.unexpectedType "b5" d.text) := by
          unfold Digest.b5
          rw [hcheck]
          rfl
        refine ⟨d, hd, htype, ?_⟩
        rw [hrefused] at hdecides
        exact Except.error.inj hdecides

def retyped : ModuleKey := keyOf "acme" "base" (by decide) (digestFilledWith .b4 1)

/-- The older digest of a dependency, with the same hash, is refused by its type. -/
theorem fails_with_retyped :
    askAll [(.deps, World.empty), (.files, World.empty)]
        (.sealed pets (.ok restocked) [retyped, units]) =
      [.error (.digest (.unexpectedType "b5" (digestFilledWith .b4 1).text)),
        .error (.digest (.unexpectedType "b5" (digestFilledWith .b4 1).text))] := by
  have hasked : ModuleKey.Asked World.empty (pets :: [retyped, units])
      (petDigest :: [digestFilledWith .b4 1, digestFilledWith .b5 2]) := ⟨World.empty, rfl⟩
  have hset : ¬ ∀ d, d ∈ petDeps ↔ d ∈ [digestFilledWith .b4 1, digestFilledWith .b5 2] :=
    fun h => absurd ((h (digestFilledWith .b5 1)).1 (by decide)) (by decide)
  have hrefused : Digest.b5 (.ofFiles petFiles) [digestFilledWith .b4 1, digestFilledWith .b5 2] =
      .error (.unexpectedType "b5" (digestFilledWith .b4 1).text) := rfl
  have hno : NoCollision petFiles petFiles petDeps
      [digestFilledWith .b4 1, digestFilledWith .b5 2] := by
    refine ⟨fun _ _ _ hmem hmem' _ => Table.value_unique hmem hmem', fun _ => rfl, ?_⟩
    intro x _ hx
    rw [hrefused] at hx
    cases hx
  have hsha : ∀ b', (.ok restocked : Except Module.Error Bucket) = .ok b' →
      NoCollisionOf World.empty pushed petDeps World.empty b'
        [digestFilledWith .b4 1, digestFilledWith .b5 2] := by
    rintro _ ⟨⟩
    exact noCollision_pets hasFiles_restocked hno
  obtain ⟨e, hall, herror⟩ := fails_of_other_digests commits_pets hasked hsha hset
  obtain ⟨d, hd, htype, rfl⟩ :=
    (herror restocked petFiles rfl rfl hasFiles_restocked (by decide +kernel)).2 (by decide)
  have hd : d = digestFilledWith .b4 1 := by
    rcases List.mem_cons.1 hd with rfl | hd
    · rfl
    · cases List.mem_singleton.1 hd
      exact absurd rfl htype
  rw [hall, hd]
  rfl

/-- A dependency by another owner with the same digest. -/
def redirected : ModuleKey := keyOf "evil" "base" (by decide) (digestFilledWith .b5 1)

/-- A dependency that is redirected to another module goes unnoticed. -/
theorem opens_redirected :
    Commits World.empty pushed [base, units] petDeps petDigest ∧ pets.digest = .known petDigest ∧
      base ∉ [redirected, units] ∧
      ∃ files, askAll [(.files, World.empty), (.deps, World.empty)]
          (.sealed pets (.ok pushed) [redirected, units]) =
        [.ok (.inl files), .ok (.inr [redirected, units])] := by
  have hasked : ModuleKey.Asked World.empty (pets :: [redirected, units]) (petDigest :: petDeps) :=
    ⟨World.empty, rfl⟩
  have hsha := noCollision_pets hasFiles_pushed (.of_same petFiles fun d => Iff.rfl)
  obtain ⟨c, w', hverify⟩ := (verifies_iff commits_pets hasked hsha).2
    ⟨rfl, ⟨petFiles, hasFiles_pushed, hasFiles_pushed⟩, fun d => Iff.rfl⟩
  have hdeps : c.deps = [redirected, units] := (gives_verify.1 hverify).choose_spec.deps
  refine ⟨commits_pets, rfl, by decide, c.files, ?_⟩
  have houtcome : ((Delivery.sealed pets (.ok pushed) [redirected, units]).verify.run
      World.empty).1 = .ok c := congrArg Prod.fst hverify
  rw [askAll_unresolved rfl, houtcome, ← hdeps]
  rfl

end Schemata.Delivery

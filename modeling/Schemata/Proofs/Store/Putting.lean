import Schemata.Proofs.Module.Files
import Schemata.Proofs.Module.Providers
import Schemata.Proofs.Store.Entries
import Schemata.Proofs.Store.Places

/-!
# The writes of a put

Keeping a verified delivery comes down to single writes: one for each file and the last for the
entry. They are made in turn, up to the first that is refused.
-/

namespace Schemata.Store

open Storage

/-! ### Writes in turn -/

/-- Writes contents under paths in turn, up to the first write that is refused. -/
def perform (v : Volume) : List (String × ByteArray) → Except Storage.Error Unit × Volume
  | [] => (.ok (), v)
  | (path, content) :: ws =>
    match v.put true path content with
    | (.ok (), v) => perform v ws
    | (.error e, v) => (.error e, v)

variable {v v' : Volume} {path : String} {content : ByteArray} {ws : List (String × ByteArray)}

theorem perform_cons_ok (h : v.put true path content = (.ok (), v')) :
    perform v ((path, content) :: ws) = perform v' ws := by
  rw [perform, h]

theorem perform_cons_error {e : Storage.Error} (h : v.put true path content = (.error e, v')) :
    perform v ((path, content) :: ws) = (.error e, v') := by
  rw [perform, h]

theorem perform_append_ok (h : perform v ws = (.ok (), v')) (ws' : List (String × ByteArray)) :
    perform v (ws ++ ws') = perform v' ws' := by
  induction ws generalizing v with
  | nil =>
    cases h
    rfl
  | cons e ws ih =>
    obtain ⟨path, content⟩ := e
    obtain ⟨outcome, v₁, hput⟩ : ∃ outcome v₁, v.put true path content = (outcome, v₁) :=
      ⟨_, _, rfl⟩
    rw [List.cons_append]
    cases outcome with
    | ok u =>
      rw [perform_cons_ok hput] at h ⊢
      exact ih h
    | error e =>
      rw [perform_cons_error hput] at h
      cases h

theorem perform_append_error {e : Storage.Error} (h : perform v ws = (.error e, v'))
    (ws' : List (String × ByteArray)) : perform v (ws ++ ws') = (.error e, v') := by
  induction ws generalizing v with
  | nil => cases h
  | cons first ws ih =>
    obtain ⟨path, content⟩ := first
    obtain ⟨outcome, v₁, hput⟩ : ∃ outcome v₁, v.put true path content = (outcome, v₁) :=
      ⟨_, _, rfl⟩
    rw [List.cons_append]
    cases outcome with
    | ok u =>
      rw [perform_cons_ok hput] at h ⊢
      exact ih h
    | error e =>
      rw [perform_cons_error hput] at h ⊢
      exact h

/-- What writes in turn leave: the first of them are done, up to a refusal, and all else is as it
was. -/
theorem perform_cases (h : v.Tidy) {outcome : Except Storage.Error Unit}
    (hperform : perform v ws = (outcome, v')) :
    v'.Tidy ∧ ∃ done, done <+: ws ∧ (outcome = .ok () → done = ws) ∧
      (∀ e ∈ done, IsObject e.1 ∧ v'.held e.1 ≠ none) ∧
      (∀ p, p ∉ done.map Prod.fst → v'.held p = v.held p) ∧
      ∀ p content, p ∈ done.map Prod.fst → v'.held p = some content → (p, content) ∈ done := by
  induction ws generalizing v with
  | nil =>
    cases hperform
    exact ⟨h, [], List.prefix_refl _, fun _ => rfl, fun _ he => absurd he List.not_mem_nil,
      fun _ _ => rfl, fun _ _ hp => absurd hp List.not_mem_nil⟩
  | cons e ws ih =>
    obtain ⟨path, content⟩ := e
    obtain ⟨written, v₁, hput⟩ : ∃ written v₁, v.put true path content = (written, v₁) :=
      ⟨_, _, rfl⟩
    obtain ⟨htidy, hobject, hheld⟩ := Volume.put_cases h hput
    cases written with
    | error e =>
      rw [perform_cons_error hput] at hperform
      cases hperform
      refine ⟨htidy, [], List.nil_prefix, nofun, fun _ he => absurd he List.not_mem_nil,
        fun p _ => ?_, fun _ _ hp => absurd hp List.not_mem_nil⟩
      rw [hheld, if_neg (by simp)]
    | ok u =>
      rw [perform_cons_ok hput] at hperform
      obtain ⟨htidy', done, hprefix, hall, hdone, hsame, hcontents⟩ := ih htidy hperform
      have hfirst : v'.held path ≠ none := by
        by_cases hagain : path ∈ done.map Prod.fst
        · obtain ⟨e, he, rfl⟩ := List.mem_map.1 hagain
          exact (hdone e he).2
        · rw [hsame path hagain, hheld, if_pos ⟨rfl, rfl⟩]
          exact Option.some_ne_none content
      refine ⟨htidy', (path, content) :: done, List.cons_prefix_cons.2 ⟨rfl, hprefix⟩,
        fun hok => by rw [hall hok], ?_, fun p hp => ?_, fun p found hp hfound => ?_⟩
      · exact List.forall_mem_cons.2 ⟨⟨(hobject rfl).2, hfirst⟩, hdone⟩
      · rw [List.map_cons, List.mem_cons, not_or] at hp
        rw [hsame p hp.2, hheld, if_neg fun hnew => hp.1 hnew.2]
      · by_cases hagain : p ∈ done.map Prod.fst
        · exact List.mem_cons_of_mem _ (hcontents p found hagain hfound)
        · rw [List.map_cons, List.mem_cons] at hp
          have hp := hp.resolve_right hagain
          rw [hsame p hagain, hheld, if_pos ⟨rfl, hp⟩] at hfound
          cases hfound
          rw [hp]
          exact List.mem_cons_self

/-! ### What is kept of a module -/

/-- What the store keeps of a module: its files and the digests of its dependencies, which the
digest of its key was made of. Besides its schema files and the license a module has one
documentation file at most. -/
structure Kept where
  key : ModuleKey
  digest : Digest
  files : Table ByteArray
  deps : List (ModuleKey × Digest)
  listed : Manifest.Lists files
  kinds : ∀ path ∈ files.keys, Module.kindOf? path ≠ none
  oneDoc : ∀ path ∈ files.keys, ∀ path' ∈ files.keys, path ∈ Module.docPaths →
    path' ∈ Module.docPaths → path = path'
  digest_eq : Digest.b5 (.ofFiles files) (deps.map Prod.snd) = .ok digest

namespace Kept

def place (p : Kept) : DigestType × ModuleName × CommitId := placeOf p.key p.digest

def entry (p : Kept) : ByteArray := (entryText p.digest p.deps).toUTF8

def fileWrites (p : Kept) : List (String × ByteArray) :=
  p.files.entries.map fun e => (filePath p.key p.digest e.1, e.2)

/-- The writes that keep a module, in order. -/
def writes (p : Kept) : List (String × ByteArray) :=
  p.fileWrites ++ [(entryPath p.key p.digest, p.entry)]

end Kept

/-- Whether a delivery is that of a verified module, whose files do not change while the store
writes them. -/
structure Carries (w : World) (d : Delivery) (p : Kept) : Prop where
  live : w.live = true
  key : d.key = p.key
  opens : ∃ c d' w', d.contents.Gives w (c, d') w' ∧ c.deps = p.deps.map Prod.fst ∧
    p.key.Found w' p.digest ∧ (∀ dep ∈ p.deps, dep.1.Found w' dep.2) ∧
    (∃ infos, c.files.list w.volumes true "." = .ok infos ∧
      infos.map ObjectInfo.path = p.files.keys) ∧
    ∀ ws, ws <+: p.fileWrites → ∀ e ∈ p.files.entries,
      c.files.read [(perform w.store ws).2] true e.1 = .ok e.2

/-- A table takes every object. -/
theorem perform_table {objects : Objects} (h : ∀ e ∈ ws, IsObject e.1) :
    ∃ objects', perform (.table objects) ws = (.ok (), .table objects') := by
  induction ws generalizing objects with
  | nil => exact ⟨objects, rfl⟩
  | cons e ws ih =>
    obtain ⟨hobject, hws⟩ := List.forall_mem_cons.1 h
    have hput : (Volume.table objects).put true e.1 e.2 =
        (.ok (), .table (objects.insert e.1 e.2)) := by
      unfold Volume.put checkObjectPath
      rw [Path.validateObject_eq_ok.2 hobject]
      rfl
    rw [show e :: ws = (e.1, e.2) :: ws from rfl, perform_cons_ok hput]
    exact ih hws

/-! ### Verified modules -/

/-- What the view of the files of a module lists and reads. -/
theorem shows_hasFiles {volumes : Volumes} {b view : Bucket} {files : Table ByteArray}
    (hview : Module.filesOf volumes true b = .ok view)
    (h : Module.HasFiles volumes true b files) :
    (∃ infos, view.list volumes true "." = .ok infos ∧ infos.map ObjectInfo.path = files.keys) ∧
      ∀ path content, (path, content) ∈ files.entries ↔
        path ∈ files.keys ∧ view.read volumes true path = .ok content := by
  obtain ⟨doc, infos, hdoc, hlist, hkeys, hread⟩ := h
  obtain ⟨doc', hdoc', rfl⟩ := Module.filesOf_eq_ok.1 hview
  cases hdoc.symm.trans hdoc'
  rw [← funext (Module.accepts_kept doc)] at hkeys
  refine ⟨Bucket.list_keeping.2 ⟨infos, hlist, hkeys⟩, fun path content => ?_⟩
  have haccepts (hkey : path ∈ files.keys) : (Module.kept doc).accepts path = true := by
    rw [← hkeys] at hkey
    exact (List.mem_filter.1 hkey).2
  rw [Bucket.read_keeping]
  constructor
  · intro hmem
    have hkey : path ∈ files.keys := List.mem_map_of_mem hmem
    exact ⟨hkey, haccepts hkey, hread _ hmem⟩
  · rintro ⟨hkey, _, hcontent⟩
    obtain ⟨e, he, rfl⟩ := List.mem_map.1 hkey
    cases (hread e he).symm.trans hcontent
    exact he

theorem kinds_of_hasFiles {volumes : Volumes} {live : Bool} {b : Bucket} {files : Table ByteArray}
    (h : Module.HasFiles volumes live b files) :
    (∀ path ∈ files.keys, Module.kindOf? path ≠ none) ∧
      ∀ path ∈ files.keys, ∀ path' ∈ files.keys, path ∈ Module.docPaths →
        path' ∈ Module.docPaths → path = path' := by
  obtain ⟨doc, infos, hdoc, _, hkeys, _⟩ := h
  have hbelongs : ∀ path ∈ files.keys, Module.belongs doc path = true := by
    intro path hpath
    rw [← hkeys] at hpath
    exact (List.mem_filter.1 hpath).2
  have hname : ∀ path ∈ Module.docPaths, Path.extension path ≠ Module.schemaExtension ∧
      path ≠ Module.licensePath := by decide +kernel
  have hone {path : String} (hpath : path ∈ files.keys) (hin : path ∈ Module.docPaths) :
      doc = some path := by
    have hpath := hbelongs path hpath
    unfold Module.belongs at hpath
    simpa [hname path hin] using hpath
  refine ⟨fun path hpath => Module.kindOf?_ne_none_of_belongs hdoc (hbelongs path hpath),
    fun path hpath path' hpath' hin hin' => ?_⟩
  exact Option.some.inj ((hone hpath hin).symm.trans (hone hpath' hin'))

/-- A delivery that passes its verification is that of a module to keep, unless its files change
while they are written. -/
theorem carries_of_contents {w w' : World} {d d' : Delivery} {c : Contents}
    (hcheck : d.check = .unresolved) (hkeys : d.KeysIn w) (h : d.contents.Gives w (c, d') w') :
    ∃ p : Kept, (∃ b, d.source = .ok b ∧ Module.HasFiles w.volumes true b p.files) ∧
      ((∀ ws, ws <+: p.fileWrites → ∀ e ∈ p.files.entries,
        c.files.read [(perform w.store ws).2] true e.1 = .ok e.2) → Carries w d p) := by
  obtain ⟨hsettled, _, _⟩ | ⟨_, _, hverify⟩ := Delivery.gives_contents h
  · cases hcheck.symm.trans hsettled
  obtain ⟨x, hlive, hdeps, ⟨b, hb, hview⟩, w₁, hkey, hdigest⟩ := Delivery.gives_verify.1 hverify
  obtain ⟨hkeyIn, hdepsIn⟩ := List.forall_mem_cons.1 hkeys
  have hbefore := ModuleKey.before_of_gives hkey
  have hfoundKey := ModuleKey.found_of_gives hkeyIn hkey
  obtain ⟨cells, rfl⟩ := ModuleKey.cells_of_gives hkey
  obtain ⟨m, ds, hm, hds, hx⟩ := Delivery.gives_digestOf.1 hdigest
  rw [hlive] at hview
  rw [show ({ w with cells := cells } : World).live = true from hlive] at hm
  obtain ⟨files, hfiles, hlists, rfl⟩ := Module.hasFiles_of_ofBucket hview hm
  obtain ⟨hkinds, hdocs⟩ := kinds_of_hasFiles hfiles
  have hfound := ModuleKey.found_of_gives_digests (fun k hk => (hdepsIn k (hdeps ▸ hk)).mono hbefore) hds
  have hlength := hfound.length_eq
  refine ⟨⟨d.key, x, files, c.deps.zip ds, hlists, hkinds, hdocs, ?_⟩, ⟨b, hb, hfiles⟩,
    fun hsteady => ?_⟩
  · rw [List.map_snd_zip (Nat.le_of_eq hlength.symm)]
    exact hx
  · obtain ⟨hlist, _⟩ := shows_hasFiles hview hfiles
    refine ⟨hlive, rfl, c, d', w', h, ?_, hfoundKey.mono (ModuleKey.gives_digests hds).1, ?_, hlist,
      hsteady⟩
    · exact (List.map_fst_zip (Nat.le_of_eq hlength)).symm
    · intro dep hdep
      exact List.forall₂_iff_zip.1 hfound |>.2 hdep

/-! ### The run of a put -/

variable {w w' : World} {d d' : Delivery} {c : Contents} {p : Kept}

/-- Asking for the contents of a delivery changes the cells alone. -/
theorem cells_of_contents (h : d.contents.Gives w (c, d') w') :
    d'.key = d.key ∧ ∃ cells, w' = { w with cells := cells } := by
  rcases Delivery.gives_contents h with ⟨_, rfl, rfl⟩ | ⟨_, rfl, hverify⟩
  · exact ⟨rfl, w'.cells, rfl⟩
  · obtain ⟨x, hverifies⟩ := Delivery.gives_verify.1 hverify
    obtain ⟨w₁, hkey, hdigest⟩ := hverifies.digests
    obtain ⟨cells, rfl⟩ := ModuleKey.cells_of_gives hkey
    obtain ⟨_, _, _, hds, _⟩ := Delivery.gives_digestOf.1 hdigest
    obtain ⟨_, cells', rfl⟩ := ModuleKey.gives_digests hds
    exact ⟨rfl, cells', rfl⟩

theorem run_write (path : String) (content : ByteArray) (hlive : w.live = true) :
    (write path content).run w = ((w.store.put true path content).1.mapError .storage,
      { w with store := (w.store.put true path content).2 }) := by
  rw [← hlive]
  rfl

/-- The answer of writes in turn, as the store passes it on. -/
def passed {α : Type} (outcome : Except Storage.Error Unit) (a : α) : Except Module.Error α :=
  (outcome.mapError .storage).map fun _ => a

theorem run_fileWrites (hlive : w.live = true) {files : Bucket} (dir : String)
    {es : List (String × ByteArray)} {infos : List ObjectInfo}
    (hinfos : infos.map ObjectInfo.path = es.map Prod.fst)
    (hread : ∀ ws, ws <+: es.map (fun e => (Path.join dir e.1, e.2)) → ∀ e ∈ es,
      files.read [(perform w.store ws).2] true e.1 = .ok e.2) :
    (forIn infos PUnit.unit fun info _ => do
        let content ← Act.ofWorld fun w =>
          (files.read w.volumes w.live info.path).mapError Module.Error.storage
        write (Path.join dir info.path) content
        pure (ForInStep.yield PUnit.unit) : Act PUnit).run w =
      (passed (perform w.store (es.map fun e => (Path.join dir e.1, e.2))).1 PUnit.unit,
        { w with store := (perform w.store (es.map fun e => (Path.join dir e.1, e.2))).2 }) := by
  induction es generalizing w infos with
  | nil =>
    rw [List.map_nil, List.map_eq_nil_iff] at hinfos
    subst hinfos
    rfl
  | cons e es ih =>
    cases infos with
    | nil => cases hinfos
    | cons info infos =>
      obtain ⟨hpath, hinfos⟩ := List.cons.inj hinfos
      have hfirst := hread [] List.nil_prefix e List.mem_cons_self
      have hcontent : (Act.ofWorld fun w => (files.read w.volumes w.live info.path).mapError
          Module.Error.storage).Gives w e.2 w := by
        refine Act.gives_ofWorld.2 ⟨mapError_eq_ok.2 ?_, rfl⟩
        rw [hpath, hlive]
        exact hfirst
      obtain ⟨outcome, v, hput⟩ : ∃ outcome v,
          w.store.put true (Path.join dir e.1) e.2 = (outcome, v) := ⟨_, _, rfl⟩
      have hwrite := run_write (w := w) (Path.join dir e.1) e.2 hlive
      rw [hput] at hwrite
      rw [List.forIn_cons, List.map_cons]
      simp only [bind_assoc]
      rw [Act.run_bind hcontent, hpath]
      cases outcome with
      | error err =>
        rw [Act.run_bind_error hwrite, perform_cons_error hput]
        rfl
      | ok u =>
        have hgives : (write (Path.join dir e.1) e.2).Gives w () { w with store := v } := hwrite
        have hrest := ih (w := { w with store := v }) hlive hinfos fun ws hws e' he' => by
          have hlater := hread ((Path.join dir e.1, e.2) :: ws)
            (by rw [List.map_cons]; exact List.cons_prefix_cons.2 ⟨rfl, hws⟩) e'
            (List.mem_cons_of_mem _ he')
          rwa [perform_cons_ok hput] at hlater
        rw [Act.run_bind hgives, perform_cons_ok hput, pure_bind]
        exact hrest

theorem run_deps {deps : List (ModuleKey × Digest)} (h : ∀ dep ∈ deps, dep.1.Found w dep.2) :
    ((deps.map Prod.fst).mapM fun dep => do return (dep, ← dep.resolveDigest) :
      Act (List (ModuleKey × Digest))).Gives w deps w := by
  induction deps with
  | nil => exact Act.gives_pure.2 ⟨rfl, rfl⟩
  | cons dep deps ih =>
    obtain ⟨hdep, hdeps⟩ := List.forall_mem_cons.1 h
    rw [List.map_cons, List.mapM_cons]
    refine Act.gives_bind.2 ⟨dep, w, ?_, Act.gives_bind.2 ⟨deps, w, ih hdeps, ?_⟩⟩
    · exact Act.gives_bind.2 ⟨dep.2, w, ModuleKey.run_of_found hdep, Act.gives_pure.2 ⟨rfl, rfl⟩⟩
    · exact Act.gives_pure.2 ⟨rfl, rfl⟩

/-- A put makes its writes in turn, and succeeds if all of them do. -/
theorem run_put (h : Carries w d p) :
    ∃ c d' w₁, d.contents.Gives w (c, d') w₁ ∧ (put d).run w =
      (passed (perform w.store p.writes).1 d',
        { w₁ with store := (perform w.store p.writes).2 }) := by
  obtain ⟨c, d', w₁, hcontents, hdeps, hkey, hfound, ⟨infos, hlist, hpaths⟩, hread⟩ := h.opens
  obtain ⟨hsame, cells, rfl⟩ := cells_of_contents hcontents
  have hlive := h.live
  have hkey' : d'.key = p.key := hsame.trans h.key
  refine ⟨c, d', _, hcontents, ?_⟩
  have hinfos : (Act.ofWorld fun w => (c.files.list w.volumes w.live ".").mapError
      Module.Error.storage).Gives { w with cells := cells } infos { w with cells := cells } := by
    refine Act.gives_ofWorld.2 ⟨mapError_eq_ok.2 ?_, rfl⟩
    rw [show ({ w with cells := cells } : World).live = true from hlive]
    exact hlist
  have hfiles := run_fileWrites (w := { w with cells := cells }) hlive
    (Path.join (dirOf p.key p.digest) filesName) hpaths hread
  have hwritten : p.files.entries.map (fun e =>
      (Path.join (Path.join (dirOf p.key p.digest) filesName) e.1, e.2)) = p.fileWrites := rfl
  rw [hwritten] at hfiles
  unfold put
  rw [Act.run_bind hcontents]
  simp only
  rw [hkey', Act.run_bind (ModuleKey.run_of_found hkey), Act.run_bind hinfos, Kept.writes]
  obtain ⟨outcome, v, hperform⟩ : ∃ outcome v, perform w.store p.fileWrites = (outcome, v) :=
    ⟨_, _, rfl⟩
  simp only [hperform] at hfiles
  cases outcome with
  | error e =>
    rw [Act.run_bind_error hfiles, perform_append_error hperform]
    rfl
  | ok u =>
    have hdone : Act.Gives _ { w with cells := cells } PUnit.unit
        { w with store := v, cells := cells } := hfiles
    have hstored : (c.deps.mapM fun dep => do return (dep, ← dep.resolveDigest) :
        Act (List (ModuleKey × Digest))).Gives { w with store := v, cells := cells } p.deps
          { w with store := v, cells := cells } := by
      rw [hdeps]
      exact run_deps hfound
    rw [Act.run_bind hdone, Act.run_bind hstored, perform_append_ok hperform]
    obtain ⟨outcome, v', hput⟩ : ∃ outcome v',
        v.put true (entryPath p.key p.digest) p.entry = (outcome, v') := ⟨_, _, rfl⟩
    have hwrite := run_write (w := { w with store := v, cells := cells })
      (entryPath p.key p.digest) p.entry hlive
    simp only [hput] at hwrite
    cases outcome with
    | error e =>
      rw [perform_cons_error hput]
      exact Act.run_bind_error hwrite _
    | ok u =>
      rw [perform_cons_ok hput]
      exact Act.run_bind hwrite _

end Schemata.Store

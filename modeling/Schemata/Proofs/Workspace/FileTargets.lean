import Schemata.Proofs.ModuleSet.TargetFiles
import Schemata.Proofs.Workspace.Roots

/-!
# What a request for one file asks for

A request for a file is about the deepest module directory that holds it. There it asks for the file
itself and, if the files of its package belong to the request, for those of the module that have the
package of the file, or like it none. Excludes hold back any of them. A module is built as a target
just if it has a schema file that is asked for.
-/

namespace Schemata

open Settings Storage
open Schemata.Path (IsNormal covers contains coveredBy join)

/-! ### Packages -/

/-- Whether a bucket has two files that scanning finds the same package in, or in both none. -/
def Storage.Bucket.SharePackage (w : World) (b : Bucket) (path path' : String) : Prop :=
  ∃ content content', b.read w.volumes w.live path = .ok content ∧
    b.read w.volumes w.live path' = .ok content' ∧
    Schema.scanPackage (Text.lenientText content) = Schema.scanPackage (Text.lenientText content')

namespace Module

variable {w : World} {m : Module}

theorem packageOf_eq_ok {path : String} {package : Option String} :
    m.packageOf w path = .ok package ↔
      ∃ content, m.files.read w.volumes w.live path = .ok content ∧
        Schema.scanPackage (Text.lenientText content) = package := by
  rw [packageOf, bind_eq_ok]
  simp only [mapError_eq_ok]
  exact exists_congr fun content => and_congr_right fun _ =>
    ⟨fun h => Except.ok.inj h, fun h => congrArg Except.ok h⟩

/-- A file has the package of the target file if both can be read and it is the same; where the
target file is missing no file has. -/
theorem sharesPackage_eq_true {file path : String} :
    m.sharesPackage w file path = .ok true ↔ m.files.SharePackage w file path := by
  unfold sharesPackage
  cases hfile : m.packageOf w file with
  | error e =>
    refine iff_of_false (fun h => ?_) ?_
    · simp only at h
      split at h
      · cases h
      · cases h
    · rintro ⟨content, _, hread, _⟩
      cases hfile.symm.trans (packageOf_eq_ok.2 ⟨content, hread, rfl⟩)
  | ok package =>
    obtain ⟨content, hread, hpackage⟩ := packageOf_eq_ok.1 hfile
    simp only [bind_eq_ok]
    constructor
    · rintro ⟨package', hpath, hsame⟩
      obtain ⟨content', hread', hpackage'⟩ := packageOf_eq_ok.1 hpath
      have hsame : package' = package := of_decide_eq_true (Except.ok.inj hsame)
      exact ⟨content, content', hread, hread', by rw [hpackage, hpackage', hsame]⟩
    · rintro ⟨first, content', hfirst, hread', hsame⟩
      cases hread.symm.trans hfirst
      refine ⟨_, packageOf_eq_ok.2 ⟨content', hread', rfl⟩, ?_⟩
      rw [← hsame, hpackage, decide_eq_true rfl]
      rfl

/-- What the filter of a module selects, where it names a file. -/
theorem isTargetPath_eq_true {file path : String} (hfile : m.filter.file = some file)
    (hschema : kindOf? path = some .schema) :
    m.isTargetPath w path = .ok true ↔ (!m.target || coveredBy m.filter.excludes path) = false ∧
      (path = file ∨ m.filter.packageFiles = true ∧ m.files.SharePackage w file path) := by
  unfold isTargetPath
  rw [hfile, hschema, ← sharesPackage_eq_true]
  cases hheld : (!m.target || coveredBy m.filter.excludes path) with
  | true => simp
  | false =>
    by_cases hpath : path = file
    · simp [hpath]
    · cases m.filter.packageFiles with
      | true => simp [hpath]
      | false => simp [hpath]

theorem target_of_isTargetPath {path : String} (h : m.isTargetPath w path = .ok true) :
    m.target = true := by
  cases htarget : m.target with
  | true => rfl
  | false =>
    rw [isTargetPath, htarget] at h
    cases h

end Module

namespace Workspace

open ModuleSet.Build (declared gives_localModule gives_localModule_iff keeps_of_gives_localModule)

/-! ### The file as seen from the workspace -/

/-- What a request for a file is when it is seen from the root of a workspace: a request for the
file at a place there. -/
structure SeenFile (root path : String) (r inner : Request) (p : String) : Prop where
  seen : SeenFrom root r inner
  file : inner.file = some p
  packageFiles : inner.packageFiles = r.packageFiles
  normal : IsNormal p
  place : Path.normalize path = .ok (join root p)

section Seen

variable {root file : String} {r r' inner : Request}

end Seen

/-! ### The share of a module -/

section Shares

variable {dirs roots : List String} {dir p q : String} {r : Request} {t : Targeting}

theorem share_of_file (hfile : r.file = some p) {s : Share} (h : r.share dirs dir = .ok s) :
    s = .ofFile dirs dir p := by
  unfold Request.share at h
  rw [hfile] at h
  simp only at h
  split at h
  · exact (Except.ok.inj h).symm
  · cases h

theorem mapToRoots_whole (h : ∀ root, root ∈ roots ↔ root = ".") (hp : IsNormal p) :
    mapToRoots roots p = some p := by
  have hfind : roots.find? (fun root => covers root p) = some "." := by
    cases roots with
    | nil => exact absurd ((h ".").2 rfl) List.not_mem_nil
    | cons root roots =>
      obtain rfl : root = "." := (h root).1 List.mem_cons_self
      exact List.find?_cons_of_pos (Path.root_covers p)
  have hrelative := Path.relative_join Path.isNormal_root hp
  rw [Path.root_join] at hrelative
  rw [mapToRoots, hfind]
  exact toOption_eq_some.2 hrelative

theorem tentative_of_file (hfile : r.file = some p)
    (h : r.targeting dirs dir roots = .ok t) : t.tentative = true ↔ Deepest dirs dir p := by
  obtain ⟨_, s, hs, htentative, _⟩ := targeting_eq_ok h
  rw [htentative, share_of_file hfile hs, Share.ofFile, ← owns_iff]
  split
  · rename_i hown
    exact iff_of_true rfl hown
  · rename_i hown
    exact iff_of_false Bool.false_ne_true hown

/-- Only the module that a file belongs to may be a target. -/
theorem deepest_of_target (hfile : r.file = some p) (h : r.targeting dirs dir roots = .ok t)
    (htarget : t.target = true) : Deepest dirs dir p := by
  obtain ⟨_, s, _, htentative, hall, _⟩ := targeting_eq_ok h
  rw [hall, Bool.and_eq_true, Bool.and_eq_true] at htarget
  exact (tentative_of_file hfile h).1 (htentative.trans htarget.1.1)

/-- The module that a file belongs to has the file as its target file. -/
theorem file_of_targeting (hroots : ∀ root, root ∈ roots ↔ root = ".") (hdir : IsNormal dir)
    (hp : IsNormal p) (hfile : r.file = some p) (hown : Deepest dirs dir p)
    (h : r.targeting dirs dir roots = .ok t) :
    t.file = some (seenFrom dir p) ∧ t.packageFiles = r.packageFiles := by
  obtain ⟨_, s, hs, _, _, _, _, ht, hpackage⟩ := targeting_eq_ok h
  obtain ⟨q, hq, rfl⟩ := Path.exists_join hdir hp (Path.covers_of_contains hown.holds)
  have hne : q ≠ "." := by
    rintro rfl
    exact Path.ne_of_contains hown.holds hdir.join_root.symm
  have hsome : t.file = some q := by
    rw [ht, share_of_file hfile hs, Share.ofFile, if_pos (owns_iff.2 hown), seenFrom_join hdir hq,
      Option.bind_some, mapToRoots_whole hroots hq, Option.filter_some, if_pos (decide_eq_true hne)]
  rw [hpackage, hsome, seenFrom_join hdir hq]
  exact ⟨rfl, Bool.and_true _⟩

end Shares

/-! ### Files that are asked for -/

/-- Whether no exclude of a request lies around a workspace. -/
def NoExcludeAround (root : String) (r : Request) : Prop :=
  ∀ e, Names r.excludes e → contains e root = false

/-- Whether a request for the file at a place of a workspace asks for a file of a module whose files
a bucket has: the place belongs to the module, no exclude covers the file, and it is the file at
the place or, if the files of its package belong to the request, one of these. -/
structure IsAskedFor (w : World) (root : String) (dirs : List String) (x : Extent) (r : Request)
    (view : Bucket) (p q : String) : Prop where
  owned : Deepest dirs x.dir p
  kept : ¬ ∃ e, Names r.excludes e ∧ covers e (join root (join x.dir q)) = true
  chosen : join x.dir q = p ∨ r.packageFiles = true ∧ view.SharePackage w (seenFrom x.dir p) q

section Asked

variable {w : World} {b files : Bucket} {root file p q : String} {dirs : List String} {x : Extent}
  {r inner : Request} {d : ModuleDir} {t : Targeting} {m : Module}

/-- Of the excludes that lie around no workspace, just those that are seen from its root cover
anything in it. -/
theorem covers_exclude_iff (hroot : IsNormal root) (hseen : SeenFrom root r inner)
    (haround : NoExcludeAround root r) {place : String} (hplace : IsNormal place) :
    (∃ e, Names r.excludes e ∧ covers e (join root place) = true) ↔
      ∃ e ∈ inner.excludes, covers e place = true := by
  constructor
  · rintro ⟨e, he, hcovers⟩
    have hin : covers root e = true := by
      refine (Path.contains_or_covers hcovers (Path.covers_join hroot hplace)).resolve_left ?_
      exact Bool.eq_false_iff.1 (haround e he)
    obtain ⟨p, hp, rfl⟩ := (names_iff hroot hseen.excludes).1 ⟨hin, he⟩
    exact ⟨p, hp, (Path.covers_join_join hroot (hseen.normal.excludes p hp) hplace).1 hcovers⟩
  · rintro ⟨p, hp, hcovers⟩
    obtain ⟨_, hnamed⟩ := (names_iff hroot hseen.excludes).2 ⟨p, hp, rfl⟩
    exact ⟨_, hnamed, (Path.covers_join_join hroot (hseen.normal.excludes p hp) hplace).2 hcovers⟩

theorem eq_seenFrom_iff {dir : String} (hdir : IsNormal dir) (hp : IsNormal p) (hq : IsNormal q)
    (hin : contains dir p = true) : q = seenFrom dir p ↔ join dir q = p := by
  obtain ⟨own, hown, rfl⟩ := Path.exists_join hdir hp (Path.covers_of_contains hin)
  rw [seenFrom_join hdir hown]
  exact ⟨fun h => h ▸ rfl, Path.join_inj hdir hq hown⟩

/-- In a module whose only root is its directory a path reaches the files that it covers. -/
theorem reaches_whole (hkeeps : d.settings.Keeps x) (hroots : x.roots = ["."]) (hq : IsNormal q)
    (hown : Deepest dirs x.dir (join x.dir q)) :
    Reaches dirs d.settings.roots.keys d.settings.dir p q ↔ covers p (join x.dir q) = true := by
  have hself : join (join x.dir ".") q = join x.dir q := by
    rw [← hkeeps.dir, hkeeps.normal.join_root]
  rw [hkeeps.dir]
  constructor
  · intro h
    obtain ⟨own, hlisted, hcovers⟩ :=
      covers_of_reaches hkeeps.separate hkeeps.nonempty (hkeeps.dir ▸ hkeeps.normal) hq h
    have hown := (hkeeps.roots own).1 hlisted
    rw [hroots, List.mem_singleton] at hown
    rwa [hown, hself] at hcovers
  · intro h
    have hlisted : "." ∈ d.settings.roots.keys := by
      rw [hkeeps.roots, hroots, List.mem_singleton]
    rw [← hself] at hown h
    exact reaches_of_covers hlisted hown h

/-- The module that a file belongs to is held back as a whole, or in part, for excludes alone. -/
theorem held_of_file (hroot : IsNormal root) (hseen : SeenFile root file r inner p)
    (haround : NoExcludeAround root r) (hkeeps : d.settings.Keeps x) (hroots : x.roots = ["."])
    (ht : inner.targeting dirs d.settings.dir d.settings.roots.keys = .ok t)
    (hmine : Deepest dirs x.dir p) (hfile : t.file.isSome = true) (hq : IsNormal q)
    (hown : Deepest dirs x.dir (join x.dir q)) :
    (!t.target || coveredBy t.excludes q) = true ↔
      ∃ e, Names r.excludes e ∧ covers e (join root (join x.dir q)) = true := by
  have hplace : IsNormal (join x.dir q) := (hkeeps.dir ▸ hkeeps.normal).join hq
  obtain ⟨_, s, hs, htentative, _⟩ := targeting_eq_ok ht
  rw [← hkeeps.dir] at hmine
  have hasked : s.tentative = true := htentative ▸ (tentative_of_file hseen.file ht).2 hmine
  rw [held_iff hseen.seen.normal hkeeps.separate hkeeps.normal hq hs ht, hasked, hfile,
    covers_exclude_iff hroot hseen.seen haround hplace, Bool.or_true, Bool.and_true,
    or_iff_right (by decide)]
  exact exists_congr fun e => and_congr_right fun _ => reaches_whole hkeeps hroots hq hown

/-- Of the schema files that belong to a module its filter selects those that are asked for, unless
the module was made no target. -/
theorem isTargetPath_iff_asked (hroot : IsNormal root) (hseen : SeenFile root file r inner p)
    (haround : NoExcludeAround root r) (hkeeps : d.settings.Keeps x) (hroots : x.roots = ["."])
    (ht : inner.targeting dirs d.settings.dir d.settings.roots.keys = .ok t)
    (hfilter : m.filter = (d.localModule files dirs t).filter) (htarget : m.target = t.target)
    (hq : IsNormal q) (hown : Deepest dirs x.dir (join x.dir q))
    (hschema : Module.kindOf? q = some .schema) :
    m.isTargetPath w q = .ok true ↔ IsAskedFor w root dirs x r m.files p q := by
  have hdir : IsNormal x.dir := hkeeps.dir ▸ hkeeps.normal
  by_cases hmine : Deepest dirs x.dir p
  · have hwhole (own : String) : own ∈ d.settings.roots.keys ↔ own = "." := by
      rw [hkeeps.roots, hroots, List.mem_singleton]
    obtain ⟨hfile, hpackage⟩ := file_of_targeting hwhole hkeeps.normal hseen.normal hseen.file
      (hkeeps.dir ▸ hmine) ht
    have hheld := held_of_file hroot hseen haround hkeeps hroots ht hmine (hfile ▸ rfl) hq hown
    have hmfile : m.filter.file = some (seenFrom x.dir p) :=
      (congrArg Module.Filter.file hfilter).trans (hkeeps.dir ▸ hfile)
    have hmpackage : m.filter.packageFiles = r.packageFiles :=
      (congrArg Module.Filter.packageFiles hfilter).trans (hpackage.trans hseen.packageFiles)
    have hmexcludes : m.filter.excludes = t.excludes := congrArg Module.Filter.excludes hfilter
    rw [Module.isTargetPath_eq_true hmfile hschema, htarget, hmexcludes, hmpackage,
      ← Bool.not_eq_true, hheld, eq_seenFrom_iff hdir hseen.normal hq hmine.holds]
    exact ⟨fun ⟨hkept, hchosen⟩ => ⟨hmine, hkept, hchosen⟩, fun h => ⟨h.kept, h.chosen⟩⟩
  · refine iff_of_false (fun h => hmine ?_) fun h => hmine h.owned
    have hwanted := htarget ▸ Module.target_of_isTargetPath h
    exact hkeeps.dir ▸ deepest_of_target hseen.file ht hwanted

end Asked

/-! ### Modules -/

section Modules

variable {w : World} {b files : Bucket} {root file p : String} {dirs : List String} {x : Extent}
  {r inner : Request} {d : ModuleDir} {m : Module} {infos : List ObjectInfo} {info : ObjectInfo}

/-- A schema file of a module whose only root is its directory belongs to the module at its path. -/
theorem HoldsFiles.owned (h : HoldsFiles w files dirs x m infos) (hnormal : IsNormal x.dir)
    (hroots : x.roots = ["."]) (hinfo : info ∈ infos)
    (hschema : Module.kindOf? info.path = some .schema) :
    IsNormal info.path ∧ Deepest dirs x.dir (join x.dir info.path) := by
  obtain ⟨object, hserves, _⟩ :=
    (h.schemas info.path info.external (Module.kindOf?_eq_schema.1 hschema)).1 hinfo
  obtain ⟨own, hown, _⟩ := hserves.first
  have hself : own = "." := by
    have hlisted := hown.listed
    rwa [hroots, List.mem_singleton] at hlisted
  have hplace := hown.below
  rw [hself, hnormal.join_root] at hplace
  exact ⟨hown.object.1, hplace ▸ hown.owned⟩

/-- Of a module that is a target if the file belongs to it, just the schema files that are asked for
are targets, whatever it holds at any time. -/
theorem IsModuleIn.asked (hm : IsModuleIn files dirs inner m x) (hroot : IsNormal root)
    (hseen : SeenFile root file r inner p) (haround : NoExcludeAround root r)
    (hroots : x.roots = ["."]) (htarget : Deepest dirs x.dir p → m.target = true)
    (hholds : HoldsFiles w files dirs x m infos) {fs : List FileInfo} (hfs : m.walk w = .ok fs)
    {f : FileInfo} (hf : f ∈ fs) (hschema : f.kind = .schema) :
    f.isTarget = true ↔ IsAskedFor w root dirs x r m.files p f.path := by
  obtain ⟨d, t, hkeeps, ht, hm⟩ := hm
  have hsame : m.target = t.target := by
    refine Bool.eq_iff_iff.2 ⟨hm.target, fun hwanted => htarget ?_⟩
    exact hkeeps.dir ▸ deepest_of_target hseen.file ht hwanted
  obtain ⟨info, hinfo, hfile⟩ := Module.mem_walk hfs hholds.listed hf
  obtain ⟨kind, target, hkind, hstatus, rfl⟩ := Module.fileOf_eq_ok.1 hfile
  cases hschema
  obtain ⟨hq, hown⟩ := hholds.owned (hkeeps.dir ▸ hkeeps.normal) hroots hinfo hkind
  have hiff : m.isTargetPath w info.path = .ok true ↔ _ :=
    isTargetPath_iff_asked hroot hseen haround hkeeps hroots ht hm.filter hsame hq hown hkind
  rwa [hstatus, Except.ok.injEq] at hiff

theorem IsBuiltFor.deepest (hm : IsBuiltFor w files dirs d inner m) (hfile : inner.file = some p)
    (htarget : m.target = true) : Deepest dirs d.settings.dir p := by
  obtain ⟨t, w', ht, hgives⟩ := hm
  exact deepest_of_target hfile ht ((gives_localModule hgives).target htarget)

end Modules

end Workspace

end Schemata

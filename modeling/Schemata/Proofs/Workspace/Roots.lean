import Schemata.Proofs.Workspace.Targets

/-!
# Modules with several roots

The files below all roots of a module have one set of paths. A path of a request counts for what
lies below any root, so a file may be a target, or held back, for the place that its path has below
another root.
-/

namespace Schemata

open Settings Storage
open Schemata.Path (IsNormal covers coveredBy join)

/-- Whether a path covers the place that a path of a module has below one of the roots. -/
def Settings.Extent.Touches (x : Extent) (p q : String) : Prop :=
  ∃ root ∈ x.roots, covers p (join (join x.dir root) q) = true

/-! ### Modules without targets -/

/-- The filter of a module says the same of a path as that of another module with its files, if it
differs only in what is held back for other paths. -/
theorem Module.isTargetPath_congr {w : World} {m m' : Module} {path : String}
    (hfiles : m.files = m'.files) (hpaths : m.filter.paths = m'.filter.paths)
    (hfile : m.filter.file = m'.filter.file)
    (hpackage : m.filter.packageFiles = m'.filter.packageFiles)
    (hheld : (!m.target || coveredBy m.filter.excludes path) =
      (!m'.target || coveredBy m'.filter.excludes path)) :
    m.isTargetPath w path = m'.isTargetPath w path := by
  unfold Module.isTargetPath Module.sharesPackage Module.packageOf
  rw [hfiles, hpaths, hfile, hpackage, hheld]

namespace ModuleSet.Build

variable {w w' : World} {m m' : Module}

/-- Where a module is no target as all its schema files are held back, nothing changes for them. -/
theorem isTargetPath_of_untarget (h : untargetIfEmpty w m = .ok m') {infos : List ObjectInfo}
    (hlist : m.objects w = .ok infos) {info : ObjectInfo} (hinfo : info ∈ infos)
    (hschema : Module.kindOf? info.path = some .schema) :
    m'.isTargetPath w info.path = m.isTargetPath w info.path := by
  rcases untargetIfEmpty_eq_ok h with rfl | ⟨rfl, hnone⟩
  · rfl
  · obtain ⟨fs, hwalk, hempty⟩ := bind_eq_ok.1 hnone
    obtain ⟨infos', hlist', hfiles⟩ := bind_eq_ok.1 hwalk
    cases hlist.symm.trans hlist'
    obtain ⟨f, hf, hfile⟩ := exists_of_mem_mapM hfiles hinfo
    obtain ⟨kind, target, hkind, hstatus, rfl⟩ := Module.fileOf_eq_ok.1 hfile
    cases hkind.symm.trans hschema
    -- the module was untargeted as no schema file is a target, so this one was none before
    have hnot := List.filter_eq_nil_iff.1 (Except.ok.inj hempty) _ hf
    simp only [decide_true, Bool.and_true, Bool.not_eq_true] at hnot
    rw [hstatus, hnot]
    rfl

/-- The module of a local declaration, whether or not its filter holds back all its schema files. -/
def declared (l : LocalModule) (files : Bucket) : Module :=
  { bucketId := l.bucketId, name := l.name, commit := l.commit, label := l.label
    target := l.target, origin := .workspace, files, filter := l.filter
    v1Config := l.v1Config, v1Lock := l.v1Lock }

theorem gives_localModule_iff {l : LocalModule} :
    (localModule l).Gives w m w' ↔
      (∃ files, Module.filesOf w.volumes w.live l.bucket = .ok files ∧
        untargetIfEmpty w (declared l files) = .ok m) ∧ w = w' := by
  rw [localModule, Act.gives_ofWorld, bind_eq_ok]
  rfl

end ModuleSet.Build

namespace Workspace

open ModuleSet.Build (localModule declared)

/-! ### Requests that differ in one path -/

section Requests

variable {dirs : List String} {dir q : String} {roots : List String} {r : Request}
  {t t' : Targeting}

theorem Request.Includes.mono {f g : String → Prop} (h : ∀ p, f p → g p) (hr : r.Includes f) :
    r.Includes g := by
  unfold Request.Includes at hr ⊢
  split
  · rename_i hnone
    rw [if_pos hnone] at hr
    exact h _ hr
  · rename_i hsome
    rw [if_neg hsome] at hr
    obtain ⟨p, hp, hreaches⟩ := hr
    exact ⟨p, hp, h p hreaches⟩

theorem file_eq_none_of_paths (hpaths : r.paths ≠ []) (h : r.targeting dirs dir roots = .ok t) :
    r.file = none := by
  refine Option.eq_none_iff_forall_ne_some.2 fun file hfile => ?_
  have hsome : r.file.isSome := hfile ▸ rfl
  obtain ⟨e, he⟩ : ∃ e, r.targeting dirs dir roots = .error e :=
    targeting_eq_error.2 (.inl ⟨hsome, hpaths⟩)
  cases h.symm.trans he

theorem held_iff (hr : r.Normal) (hroots : Path.Separate roots) (hdir : IsNormal dir)
    (hq : IsNormal q) {s : Share} (hs : r.share dirs dir = .ok s)
    (ht : r.targeting dirs dir roots = .ok t) :
    (!t.target || coveredBy t.excludes q) = true ↔
      (s.tentative && (s.whole || !(s.pathsIn roots).isEmpty || t.file.isSome)) = false ∨
        ∃ e ∈ r.excludes, Reaches dirs roots dir e q := by
  obtain ⟨hnot, s', hs', _, htarget, _, hexcludes, _, _⟩ := targeting_eq_ok ht
  cases hs.symm.trans hs'
  rw [← reaches_exclude dirs hr hroots hdir hq hnot, ← hexcludes, htarget, Bool.not_and,
    Bool.not_not, Bool.or_assoc, Bool.or_eq_true, Bool.or_eq_true, Bool.not_eq_true']

variable {d : ModuleDir} {x : Extent} {w : World} {files view : Bucket}

/-- Requests whose excludes hold back the same say the same of a path. -/
theorem isTargetPath_of_excludes (hkeeps : d.settings.Keeps x) (hq : IsNormal q)
    (hr : r.Normal) (excludes : List String) (hnormal : ∀ e ∈ excludes, IsNormal e)
    (ht : r.targeting dirs d.settings.dir d.settings.roots.keys = .ok t)
    (ht' : { r with excludes }.targeting dirs d.settings.dir d.settings.roots.keys = .ok t')
    (hsame : (∃ e ∈ r.excludes, Reaches dirs d.settings.roots.keys d.settings.dir e q) ↔
      ∃ e ∈ excludes, Reaches dirs d.settings.roots.keys d.settings.dir e q) :
    (declared (d.localModule files dirs t') view).isTargetPath w q =
      (declared (d.localModule files dirs t) view).isTargetPath w q := by
  have hr' : { r with excludes }.Normal := ⟨hr.subDir, hr.paths, hnormal⟩
  obtain ⟨_, s, hs, _, _, hpaths, _, hfile, hpackage⟩ := targeting_eq_ok ht
  obtain ⟨_, s', hs', _, _, hpaths', _, hfile', hpackage'⟩ := targeting_eq_ok ht'
  have hshare : { r with excludes }.share dirs d.settings.dir = .ok s := hs
  cases hshare.symm.trans hs'
  have hfiles : t'.file = t.file := hfile'.trans hfile.symm
  refine Module.isTargetPath_congr rfl (hpaths'.trans hpaths.symm) hfiles ?_ ?_
  · show t'.packageFiles = t.packageFiles
    rw [hpackage, hpackage', hfiles]
  · have hheld := held_iff hr hkeeps.separate hkeeps.normal hq hs ht
    have hheld' := held_iff hr' hkeeps.separate hkeeps.normal hq hshare ht'
    rw [hfiles, ← hsame, ← hheld] at hheld'
    exact Bool.eq_iff_iff.2 hheld'

theorem isTargetPath_declared (hfile : r.file = none) (ht : r.targeting dirs dir roots = .ok t)
    (q : String) :
    (declared (d.localModule files dirs t) view).isTargetPath w q = .ok (t.selects q) :=
  Module.isTargetPath_eq (file_eq_none hfile ht) q

theorem isTargetPath_of_path (hkeeps : d.settings.Keeps x) (hq : IsNormal q) {p : String}
    (hr : r.Normal) (hp : IsNormal p) (hpaths : r.paths ≠ [])
    (ht : r.targeting dirs d.settings.dir d.settings.roots.keys = .ok t)
    (ht' : { r with paths := r.paths ++ [p] }.targeting dirs d.settings.dir
      d.settings.roots.keys = .ok t')
    (hnot : ¬ Reaches dirs d.settings.roots.keys d.settings.dir p q) :
    (declared (d.localModule files dirs t') view).isTargetPath w q =
      (declared (d.localModule files dirs t) view).isTargetPath w q := by
  have hfile := file_eq_none_of_paths hpaths ht
  have hr' : { r with paths := r.paths ++ [p] }.Normal :=
    ⟨hr.subDir, List.forall_mem_append.2 ⟨hr.paths, by simpa using hp⟩, hr.excludes⟩
  have hincludes : { r with paths := r.paths ++ [p] }.Includes
      (fun p => Reaches dirs d.settings.roots.keys d.settings.dir p q) ↔
        r.Includes fun p => Reaches dirs d.settings.roots.keys d.settings.dir p q := by
    unfold Request.Includes
    simp [hpaths, or_and_right, exists_or, hnot]
  have hfile' : { r with paths := r.paths ++ [p] }.file = none := hfile
  rw [isTargetPath_declared hfile ht, isTargetPath_declared hfile' ht', Except.ok.injEq,
    Bool.eq_iff_iff, selects_iff hr hkeeps.separate hkeeps.normal hq hfile ht,
    selects_iff hr' hkeeps.separate hkeeps.normal hq hfile' ht']
  exact and_congr_left fun _ => hincludes

end Requests

/-! ### Modules -/

section Modules

variable {d : ModuleDir} {x : Extent} {w : World} {files view : Bucket} {dirs : List String}
  {r : Request} {m m' : Module}

/-- Whether a module is built in a world for the share of a request in a module directory. -/
def IsBuiltFor (w : World) (files : Bucket) (dirs : List String) (d : ModuleDir) (r : Request)
    (m : Module) : Prop :=
  ∃ t w', r.targeting dirs d.settings.dir d.settings.roots.keys = .ok t ∧
    (localModule (d.localModule files dirs t)).Gives w m w'

/-- Modules that are built of one directory show the same files, and the filter of each says of its
schema files what the share of its request says. -/
theorem IsBuiltFor.status (h : IsBuiltFor w files dirs d r m) {infos : List ObjectInfo}
    (hview : Module.filesOf w.volumes w.live (moduleFiles files dirs d.settings) = .ok view)
    (hlist : view.list w.volumes w.live "." = .ok infos) {info : ObjectInfo}
    (hinfo : info ∈ infos) (hschema : Module.kindOf? info.path = some .schema) :
    ∃ t, r.targeting dirs d.settings.dir d.settings.roots.keys = .ok t ∧
      m.isTargetPath w info.path =
        (declared (d.localModule files dirs t) view).isTargetPath w info.path := by
  obtain ⟨t, w', ht, hm⟩ := h
  obtain ⟨⟨view', hview', hm⟩, _⟩ := ModuleSet.Build.gives_localModule_iff.1 hm
  cases hview.symm.trans hview'
  exact ⟨t, ht, ModuleSet.Build.isTargetPath_of_untarget hm (mapError_eq_ok.2 hlist) hinfo hschema⟩

theorem IsBuiltFor.filesOf (h : IsBuiltFor w files dirs d r m) :
    Module.filesOf w.volumes w.live (moduleFiles files dirs d.settings) = .ok m.files := by
  obtain ⟨t, w', _, hm⟩ := h
  obtain ⟨⟨view, hview, hm⟩, _⟩ := ModuleSet.Build.gives_localModule_iff.1 hm
  rcases ModuleSet.Build.untargetIfEmpty_eq_ok hm with rfl | ⟨rfl, _⟩
  · exact hview
  · exact hview

theorem Reaches.touches (hkeeps : d.settings.Keeps x) {p q : String} (hq : IsNormal q)
    (h : Reaches dirs d.settings.roots.keys d.settings.dir p q) : x.Touches p q := by
  obtain ⟨root, hroot, hcovers⟩ :=
    covers_of_reaches hkeeps.separate hkeeps.nonempty hkeeps.normal hq h
  exact ⟨root, (hkeeps.roots root).1 hroot, hkeeps.dir ▸ hcovers⟩

/-- The roots of a module share the paths of its files. A schema file is a target only if a target
path touches its path, and is held back only if an exclude does; and one more path makes a
difference only to files whose paths it touches. -/
theorem roots_share_paths (hkeeps : d.settings.Keeps x) (hdir : x.dir ∈ dirs)
    (hlive : w.live = true) (hproper : files.Proper w.volumes) (hr : r.Normal)
    (hm : IsBuiltFor w files dirs d r m) {fs : List FileInfo} (hfs : m.walk w = .ok fs)
    {f : FileInfo} (hf : f ∈ fs) (hschema : f.kind = .schema) :
    (r.file = none → f.isTarget = true → r.Includes fun p => x.Touches p f.path) ∧
    (∀ m', IsBuiltFor w files dirs d { r with excludes := [] } m' →
      m'.isTargetPath w f.path = .ok true → f.isTarget = false →
        ∃ e ∈ r.excludes, x.Touches e f.path) ∧
    ∀ p, IsNormal p → ¬ x.Touches p f.path → ∀ m',
      (IsBuiltFor w files dirs d { r with excludes := r.excludes ++ [p] } m' ∨
        r.paths ≠ [] ∧ IsBuiltFor w files dirs d { r with paths := r.paths ++ [p] } m') →
      m'.isTargetPath w f.path = .ok f.isTarget := by
  obtain ⟨infos, hholds⟩ := holdsFiles hproper hkeeps (hkeeps.dir ▸ hdir) hlive hm.filesOf
  obtain ⟨info, hinfo, hfile⟩ := Module.mem_walk hfs hholds.listed hf
  obtain ⟨kind, target, hkind, hstatus, rfl⟩ := Module.fileOf_eq_ok.1 hfile
  cases hschema
  have hq : IsNormal info.path := by
    obtain ⟨object, hserves, _⟩ :=
      (hholds.schemas info.path info.external (Module.kindOf?_eq_schema.1 hkind)).1 hinfo
    obtain ⟨root, hserved, _⟩ := hserves.first
    exact hserved.object.1
  have hlist := mapError_eq_ok.1 hholds.listed
  obtain ⟨t, ht, hsame⟩ := hm.status hm.filesOf hlist hinfo hkind
  rw [hsame] at hstatus
  -- what does not touch the path does not reach the file, so it decides nothing
  have hnot {p : String} (hp : ¬ x.Touches p info.path) :
      ¬ Reaches dirs d.settings.roots.keys d.settings.dir p info.path :=
    mt (Reaches.touches hkeeps hq) hp
  refine ⟨fun hnone htarget => ?_, fun m' hm' htarget hheld => ?_, ?_⟩
  · obtain rfl : target = true := htarget
    rw [isTargetPath_declared hnone ht, Except.ok.injEq,
      selects_iff hr hkeeps.separate hkeeps.normal hq hnone ht] at hstatus
    exact hstatus.1.mono fun p => Reaches.touches hkeeps hq
  · by_cases htouched : ∃ e ∈ r.excludes, x.Touches e info.path
    · exact htouched
    · have hall : ∀ e ∈ r.excludes,
          ¬ Reaches dirs d.settings.roots.keys d.settings.dir e info.path :=
        fun e he => hnot fun h => htouched ⟨e, he, h⟩
      obtain ⟨t', ht', hsame'⟩ := hm'.status hm.filesOf hlist hinfo hkind
      rw [hsame', isTargetPath_of_excludes hkeeps hq hr [] (List.forall_mem_nil _) ht ht'
        (by simpa using hall), hstatus] at htarget
      cases hheld.symm.trans (Except.ok.inj htarget)
  · rintro p hp htouches m' (hm' | ⟨hpaths, hm'⟩)
    · obtain ⟨t', ht', hsame'⟩ := hm'.status hm.filesOf hlist hinfo hkind
      rw [hsame', ← hstatus]
      have hnormal : ∀ e ∈ r.excludes ++ [p], IsNormal e :=
        List.forall_mem_append.2 ⟨hr.excludes, by simpa using hp⟩
      refine isTargetPath_of_excludes hkeeps hq hr _ hnormal ht ht' ?_
      simp [or_and_right, exists_or, hnot htouches]
    · obtain ⟨t', ht', hsame'⟩ := hm'.status hm.filesOf hlist hinfo hkind
      rw [hsame', ← hstatus]
      exact isTargetPath_of_path hkeeps hq hr hp hpaths ht ht' (hnot htouches)

end Modules

/-! ### Two roots -/

/-- The module directory of a workspace with two roots, and a request for one of its files. -/
def pairedDir : ModuleDir :=
  ⟨⟨".", none, .ofList [("proto", []), ("vendor", [])], .default .v1beta1, .default .v1beta1⟩,
    .v1beta1, none, none⟩

def pairedRequest : Request := ⟨".", ["proto/z.schema"], [], none, false⟩

theorem keeps_pairedDir : pairedDir.settings.Keeps ⟨".", ["proto", "vendor"], []⟩ := by
  have hentries : pairedDir.settings.roots.entries = [("proto", []), ("vendor", [])] := rfl
  constructor
  case dir => rfl
  case normal => exact Path.isNormal_root
  case roots => exact fun root => Iff.rfl
  case separate => exact ⟨by decide, by decide⟩
  case nonempty => exact List.cons_ne_nil _ _
  case excludes => simp [hentries]
  case inner => simp [hentries]

/-- A path below one root makes no difference to a file below the other, if it does not touch the
file's path. -/
theorem status_paired :
    ∃ m fs f, IsBuiltFor World.empty (bucketOf paired) ["."] pairedDir pairedRequest m ∧
      m.walk World.empty = .ok fs ∧ f ∈ fs ∧ f.path = "a/x.schema" ∧ f.isTarget = false ∧
      ∀ m', IsBuiltFor World.empty (bucketOf paired) ["."] pairedDir
          { pairedRequest with paths := pairedRequest.paths ++ ["vendor/b"] } m' →
        m'.isTargetPath World.empty "a/x.schema" = .ok false := by
  have hrun : ((pairedRequest.targeting ["."] "." ["proto", "vendor"]).toOption.bind fun t =>
      ((localModule (pairedDir.localModule (bucketOf paired) ["."] t)).run
        World.empty).1.toOption.bind fun m => (m.walk World.empty).toOption.map fun fs =>
          fs.map fun f => (f.path, f.kind, f.isTarget)) =
      some [("README.md", .doc, false), ("a/x.schema", .schema, false),
        ("a/y.schema", .schema, false), ("z.schema", .schema, true)] := by
    decide +kernel
  obtain ⟨t, ht, hrun⟩ := Option.bind_eq_some_iff.1 hrun
  obtain ⟨m, hm, hrun⟩ := Option.bind_eq_some_iff.1 hrun
  obtain ⟨fs, hfs, hfiles⟩ := Option.map_eq_some_iff.1 hrun
  have hmem : ("a/x.schema", .schema, false) ∈ fs.map fun f => (f.path, f.kind, f.isTarget) := by
    rw [hfiles]
    decide
  obtain ⟨f, hf, hfile⟩ := List.mem_map.1 hmem
  obtain ⟨hpath, hfile⟩ := Prod.mk.inj hfile
  obtain ⟨hschema, hnot⟩ := Prod.mk.inj hfile
  have hbuilt : IsBuiltFor World.empty (bucketOf paired) ["."] pairedDir pairedRequest m :=
    ⟨t, _, toOption_eq_some.1 ht, Prod.ext (toOption_eq_some.1 hm) rfl⟩
  have hwalk := toOption_eq_some.1 hfs
  have hnormal : pairedRequest.Normal := by decide
  refine ⟨m, fs, f, hbuilt, hwalk, hf, hpath, hnot, fun m' hm' => ?_⟩
  have hstays := (roots_share_paths keeps_pairedDir (List.mem_singleton_self _) rfl
    (proper_bucketOf (by decide +kernel)) hnormal hbuilt hwalk hf hschema).2.2 "vendor/b"
    (by decide) (by rw [hpath, Extent.Touches]; decide) m' (.inr ⟨List.cons_ne_nil _ _, hm'⟩)
  rw [hpath, hnot] at hstays
  exact hstays

/-- A path below one root makes a file below the other a target, or holds it back, where both roots
have a directory of one name. -/
theorem not_isolated_paired :
    targetPlaces paired pairedRequest = some [some ["proto/z.schema"]] ∧
      targetPlaces paired { pairedRequest with paths := ["proto/z.schema", "vendor/a"] } =
        some [some ["proto/a/x.schema", "vendor/a/y.schema", "proto/z.schema"]] ∧
      targetPlaces paired ⟨".", ["proto"], ["vendor/a"], none, false⟩ =
        some [some ["README.md", "proto/z.schema"]] ∧
      covers "vendor/a" "proto/a/x.schema" = false := by
  decide +kernel

end Workspace

end Schemata

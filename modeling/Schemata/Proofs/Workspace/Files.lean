import Schemata.Proofs.Module.Files
import Schemata.Proofs.Module.Targets
import Schemata.Proofs.Storage.Reading
import Schemata.Proofs.Workspace.Build
import Schemata.Proofs.Workspace.Placement
import Schemata.Proofs.Workspace.Targeting

/-!
# The files of a module directory

The schema files of a module directory are those of the workspace that belong to no deeper module
directory, lie below a root and are not left out. Each is served under its path below the root. Its
documentation and license are files of the directory itself.
-/

namespace Schemata.Workspace

open Settings Storage
open Schemata.Path (IsNormal covers contains join)

/-! ### Matchers -/

theorem accepts_outside {dirs : List String} {p : String} :
    (Matcher.not (.any (dirs.map .under))).accepts p = true ↔ ∀ d ∈ dirs, ¬ covers d p = true := by
  simp [Matcher.accepts, Matcher.acceptsSome_eq_any]

theorem unmapDir_outside (dirs : List String) (ms : List Mapper) (dir : String) :
    unmapDir (outside dirs ++ ms) dir = unmapDir ms dir := by
  unfold outside
  split
  · rfl
  · rw [List.singleton_append, unmapDir_cons]
    rfl

theorem passes_outside {dirs : List String} {ms : List Mapper} {p : String} :
    Passes (outside dirs ++ ms) p ↔
      (∀ d ∈ dirs, ¬ covers d (join (unmapDir ms ".") p) = true) ∧ Passes ms p := by
  unfold outside
  split
  · rename_i hempty
    simp [List.isEmpty_iff.1 hempty]
  · rw [List.singleton_append, Passes, accepts_outside]

theorem proper_outside (dirs : List String) : ∀ m ∈ outside dirs, m.Proper := by
  unfold outside
  split
  · exact List.forall_mem_nil _
  · simp [Mapper.Proper]

/-! ### Roots -/

/-- Whether an object of a workspace is a schema file of a module, under a path below one of its
roots. -/
structure IsSchemaOf (dirs : List String) (x : Extent) (root path place : String) : Prop where
  listed : root ∈ x.roots
  object : IsObject path
  below : place = join (join x.dir root) path
  schema : Path.extension place = Module.schemaExtension
  owned : Deepest dirs x.dir place
  notDir : place ∉ dirs
  included : ∀ e ∈ x.excludes, ¬ covers e place = true

variable {volumes : Volumes} {files : Bucket} {dirs : List String} {s : ModuleSettings} {x : Extent}

/-- Outside the directories nested in a directory lies what belongs to it and is not itself a
directory. -/
theorem outside_nested {dir place : String} (hdir : dir ∈ dirs) (hin : contains dir place = true) :
    (∀ d ∈ dirs.filter (contains dir), ¬ covers d place = true) ↔
      Deepest dirs dir place ∧ place ∉ dirs := by
  simp only [List.mem_filter, and_imp]
  constructor
  · intro h
    refine ⟨⟨hdir, hin, fun other hother hholds => ?_⟩, fun hplace => ?_⟩
    · rcases Path.contains_or_covers (Path.covers_of_contains hin)
        (Path.covers_of_contains hholds) with hnested | hcovers
      · exact absurd (Path.covers_of_contains hholds) (h other hother hnested)
      · exact hcovers
    · exact h place hplace hin (Path.covers_self place)
  · rintro ⟨hown, hnot⟩ d hd hnested hcovers
    rcases Path.covers_iff.1 hcovers with rfl | hholds
    · exact hnot hd
    · have hback := Path.contains_of_contains_covers hnested (hown.deepest d hd hholds)
      rw [Path.not_contains_self] at hback
      cases hback

/-- What is left out of a module below a root is what the settings list for that root. -/
theorem outside_excludes (hkeeps : s.Keeps x) {entry : String × List String}
    (hentry : entry ∈ s.roots.entries) {p : String} (hp : IsNormal p) :
    (∀ inner ∈ entry.2, ¬ covers inner p = true) ↔
      ∀ e ∈ x.excludes, ¬ covers e (join (join s.dir entry.1) p) = true := by
  have hnormal : ∀ other ∈ s.roots.entries, IsNormal other.1 := fun other hother =>
    hkeeps.separate.normal other.1 (List.mem_map_of_mem hother)
  have hroot := hnormal entry hentry
  have hplace := hkeeps.normal.join hroot
  constructor
  · intro h e he hcovers
    obtain ⟨other, hother, inner, hinner, rfl⟩ := (hkeeps.excludes e).1 he
    have hobject := (hkeeps.inner other hother inner hinner).1
    have hotherRoot := hnormal other hother
    -- both roots are around the place, so they are one
    have hsame : other.1 = entry.1 := by
      rw [Path.join_assoc hkeeps.normal hotherRoot hobject,
        Path.join_assoc hkeeps.normal hroot hp,
        Path.covers_join_join hkeeps.normal (hotherRoot.join hobject) (hroot.join hp)] at hcovers
      exact hkeeps.separate.eq_of_covers (List.mem_map_of_mem hother) (List.mem_map_of_mem hentry)
        (Path.covers_trans (Path.covers_join hotherRoot hobject) hcovers)
        (Path.covers_join hroot hp)
    have hvalue := Table.mem_entries.1 hother
    rw [hsame] at hvalue hcovers
    have hinner' : inner ∈ entry.2 := by
      rw [← Option.some.inj (hvalue.symm.trans (Table.mem_entries.1 hentry))]
      exact hinner
    exact h inner hinner' ((Path.covers_join_join hplace hobject hp).1 hcovers)
  · intro h inner hinner hcovers
    have hobject := (hkeeps.inner entry hentry inner hinner).1
    exact h _ ((hkeeps.excludes _).2 ⟨entry, hentry, inner, hinner, rfl⟩)
      ((Path.covers_join_join hplace hobject hp).2 hcovers)

theorem proper_rootMappers (hkeeps : s.Keeps x) {entry : String × List String}
    (hentry : entry ∈ s.roots.entries) (nested : List String) :
    ∀ m ∈ outside nested ++
      [.strip (join s.dir entry.1), .keep (.extension Module.schemaExtension)] ++ outside entry.2,
      m.Proper := by
  have hroot := hkeeps.separate.normal entry.1 (List.mem_map_of_mem hentry)
  intro m hm
  rcases List.mem_append.1 hm with hm | hm
  · rcases List.mem_append.1 hm with hm | hm
    · exact proper_outside nested m hm
    · rcases List.mem_pair.1 hm with rfl | rfl
      · exact hkeeps.normal.join hroot
      · trivial
  · exact proper_outside entry.2 m hm

theorem shows_rootFiles (hfiles : Regular volumes files) (hkeeps : s.Keeps x)
    (hdir : s.dir ∈ dirs) {entry : String × List String} (hentry : entry ∈ s.roots.entries)
    {info : ObjectInfo} :
    (rootFiles files s.dir (dirs.filter (contains s.dir)) entry).Shows volumes info ↔
      IsSchemaOf dirs x entry.1 info.path (join (join s.dir entry.1) info.path) ∧
        files.Shows volumes ⟨join (join s.dir entry.1) info.path, info.external⟩ := by
  have hroot := hkeeps.separate.normal entry.1 (List.mem_map_of_mem hentry)
  have hplace := hkeeps.normal.join hroot
  have hbase : unmapDir (outside entry.2) "." = "." := by
    have hdir := unmapDir_outside entry.2 [] "."
    rwa [List.append_nil] at hdir
  have hinner : unmapDir ([.strip (join s.dir entry.1), .keep (.extension Module.schemaExtension)] ++
      outside entry.2) "." = join s.dir entry.1 := by
    rw [List.cons_append, List.singleton_append, unmapDir_cons, unmapDir_cons, hbase]
    exact hplace.join_root
  have hpass : Passes (outside entry.2) info.path ↔
      ∀ inner ∈ entry.2, ¬ covers inner info.path = true := by
    have hall : Passes (outside entry.2 ++ []) info.path ↔ _ := passes_outside
    rw [List.append_nil] at hall
    rw [hall]
    simp [Passes, unmapDir]
  rw [rootFiles, shows_mapped hfiles (proper_rootMappers hkeeps hentry _), List.append_assoc,
    unmapDir_outside, passes_outside, hinner, List.cons_append, List.singleton_append, Passes,
    Passes, hbase, Path.root_join, hpass]
  constructor
  · rintro ⟨hobject, ⟨hnested, hschema, hexcludes⟩, hshows⟩
    have hin : contains s.dir (join (join s.dir entry.1) info.path) = true :=
      Path.contains_of_covers_contains (Path.covers_join hkeeps.normal hroot)
        (Path.contains_join hplace hobject.1 hobject.2)
    obtain ⟨hown, hnot⟩ := (outside_nested hdir hin).1 hnested
    refine ⟨⟨(hkeeps.roots _).1 (List.mem_map_of_mem hentry), hobject, ?_, ?_, ?_, hnot, ?_⟩,
      hshows⟩
    · rw [hkeeps.dir]
    · rw [Path.extension_join hplace hobject.1 hobject.2]
      simpa [Matcher.accepts] using hschema
    · rw [← hkeeps.dir]
      exact hown
    · exact (outside_excludes hkeeps hentry hobject.1).1 hexcludes
  · rintro ⟨h, hshows⟩
    have hschema := h.schema
    rw [Path.extension_join hplace h.object.1 h.object.2] at hschema
    have hown := h.owned
    rw [← hkeeps.dir] at hown
    refine ⟨h.object, ⟨(outside_nested hdir hown.holds).2 ⟨hown, h.notDir⟩, ?_,
      (outside_excludes hkeeps hentry h.object.1).2 h.included⟩, hshows⟩
    simpa [Matcher.accepts] using hschema

/-! ### Module directories -/

/-- Whether a module serves an object of a workspace as the schema file of a path. Where several
roots have the path, it is that of the first of them in order. -/
structure Serves (volumes : Volumes) (files : Bucket) (dirs : List String) (x : Extent)
    (path : String) (object : ObjectInfo) : Prop where
  shown : files.Shows volumes object
  first : ∃ root, IsSchemaOf dirs x root path object.path ∧
    ∀ other, files.Shows volumes other → ∀ root' < root, ¬ IsSchemaOf dirs x root' path other.path

theorem shows_own (hfiles : Regular volumes files) (hnormal : IsNormal s.dir) {m : Matcher}
    {info : ObjectInfo} :
    (Bucket.mapped files [.strip s.dir, .keep m]).Shows volumes info ↔
      IsObject info.path ∧ m.accepts info.path = true ∧
        files.Shows volumes ⟨join s.dir info.path, info.external⟩ := by
  have hproper : ∀ step ∈ [Mapper.strip s.dir, Mapper.keep m], step.Proper := by
    simp [Mapper.Proper, hnormal]
  have hbase : unmapDir [.strip s.dir, .keep m] "." = s.dir := hnormal.join_root
  rw [shows_mapped hfiles hproper, hbase]
  simp [Passes, unmapDir]

theorem accepts_exactly {paths : List String} {p : String} :
    (Matcher.any (paths.map .exactly)).accepts p = true ↔ p ∈ paths := by
  simp [Matcher.accepts, Matcher.acceptsSome_eq_any]

/-- The names of the files that a module has besides its schema files. -/
def sideNames : List String := Module.docPaths ++ [Module.licensePath]

theorem extension_of_mem_sideNames {p : String} (h : p ∈ sideNames) :
    Path.extension p ≠ Module.schemaExtension := by
  have hall : ∀ p ∈ sideNames, Path.extension p ≠ Module.schemaExtension := by decide
  exact hall p h

/-- The layers of a module directory below its roots. -/
def sideLayers (files : Bucket) (dir : String) : List Bucket :=
  [.mapped files [.strip dir, .keep (.any (Module.docPaths.map .exactly))],
    .mapped files [.strip dir, .keep (.exactly Module.licensePath)]]

theorem of_shows_sideLayers (hfiles : Regular volumes files) (hnormal : IsNormal s.dir)
    {layer : Bucket} (hlayer : layer ∈ sideLayers files s.dir) {info : ObjectInfo}
    (h : layer.Shows volumes info) :
    info.path ∈ sideNames ∧ files.Shows volumes ⟨join s.dir info.path, info.external⟩ := by
  rcases List.mem_pair.1 hlayer with rfl | rfl
  · obtain ⟨_, haccepts, hshows⟩ := (shows_own hfiles hnormal).1 h
    exact ⟨List.mem_append_left _ (accepts_exactly.1 haccepts), hshows⟩
  · obtain ⟨_, haccepts, hshows⟩ := (shows_own hfiles hnormal).1 h
    refine ⟨List.mem_append_right _ ?_, hshows⟩
    simpa [Matcher.accepts] using haccepts

theorem regular_sideLayers (hfiles : Regular volumes files) (hnormal : IsNormal s.dir) :
    ∀ layer ∈ sideLayers files s.dir, Regular volumes layer := by
  intro layer hlayer
  rcases List.mem_pair.1 hlayer with rfl | rfl
  · exact regular_mapped hfiles (by simp [Mapper.Proper, hnormal])
  · exact regular_mapped hfiles (by simp [Mapper.Proper, hnormal])

theorem regular_rootFiles (hfiles : Regular volumes files) (hkeeps : s.Keeps x)
    {entry : String × List String} (hentry : entry ∈ s.roots.entries) (nested : List String) :
    Regular volumes (rootFiles files s.dir nested entry) :=
  regular_mapped hfiles (proper_rootMappers hkeeps hentry nested)

/-- The layers of a module directory. -/
def moduleLayers (files : Bucket) (dirs : List String) (s : ModuleSettings) : List Bucket :=
  s.roots.entries.map (rootFiles files s.dir (dirs.filter (contains s.dir))) ++
    sideLayers files s.dir

theorem moduleFiles_eq (files : Bucket) (dirs : List String) (s : ModuleSettings) :
    moduleFiles files dirs s = .layered (moduleLayers files dirs s) := rfl

theorem regular_moduleLayers (hfiles : Regular volumes files) (hkeeps : s.Keeps x) :
    ∀ layer ∈ moduleLayers files dirs s, Regular volumes layer := by
  intro layer hlayer
  rcases List.mem_append.1 hlayer with hlayer | hlayer
  · obtain ⟨entry, hentry, rfl⟩ := List.mem_map.1 hlayer
    exact regular_rootFiles hfiles hkeeps hentry _
  · exact regular_sideLayers hfiles hkeeps.normal layer hlayer

theorem regular_moduleFiles (dirs : List String) (hfiles : Regular volumes files)
    (hkeeps : s.Keeps x) :
    Regular volumes (moduleFiles files dirs s) :=
  regular_layered (regular_moduleLayers hfiles hkeeps)

/-- A module directory shows, as schema files, just the objects that its module serves. -/
theorem shows_moduleFiles (hfiles : Regular volumes files) (hkeeps : s.Keeps x)
    (hdir : s.dir ∈ dirs) {info : ObjectInfo}
    (hschema : Path.extension info.path = Module.schemaExtension) :
    (moduleFiles files dirs s).Shows volumes info ↔
      ∃ object, Serves volumes files dirs x info.path object ∧
        object.external = info.external := by
  have hside : ¬ (Bucket.layered (sideLayers files s.dir)).Shows volumes info := by
    intro h
    obtain ⟨layer, hlayer, h⟩ :=
      exists_of_shows_layered (regular_sideLayers hfiles hkeeps.normal) h
    exact extension_of_mem_sideNames (of_shows_sideLayers hfiles hkeeps.normal hlayer h).1 hschema
  -- the layers of the roots stand in the order of their keys; those after them have no schema files
  rw [moduleFiles_eq, moduleLayers, shows_layers_of_keys s.roots.ordered
    (fun entry hentry => regular_rootFiles hfiles hkeeps hentry _) hside]
  constructor
  · rintro ⟨entry, hentry, hin, hfirst⟩
    obtain ⟨hisSchema, hshows⟩ := (shows_rootFiles hfiles hkeeps hdir hentry).1 hin
    refine ⟨_, ⟨hshows, entry.1, hisSchema, fun other hother root hless hearlier => ?_⟩, rfl⟩
    obtain ⟨entry', hentry', rfl⟩ := List.mem_map.1 ((hkeeps.roots root).2 hearlier.listed)
    have hplace := hearlier.below
    rw [← hkeeps.dir] at hplace
    refine hfirst entry' hentry' hless ⟨info.path, other.external⟩ ?_ rfl
    refine (shows_rootFiles hfiles hkeeps hdir hentry').2 ⟨hplace ▸ hearlier, ?_⟩
    rw [← hplace]
    exact hother
  · rintro ⟨object, ⟨hshows, root, hisSchema, hfirst⟩, hexternal⟩
    obtain ⟨entry, hentry, rfl⟩ := List.mem_map.1 ((hkeeps.roots root).2 hisSchema.listed)
    have hplace := hisSchema.below
    rw [← hkeeps.dir] at hplace
    refine ⟨entry, hentry, ?_, fun entry' hentry' hless other hother hpath => ?_⟩
    · refine (shows_rootFiles hfiles hkeeps hdir hentry).2 ⟨hplace ▸ hisSchema, ?_⟩
      rw [← hplace, ← hexternal]
      exact hshows
    · obtain ⟨hearlier, hshows'⟩ := (shows_rootFiles hfiles hkeeps hdir hentry').1 hother
      rw [hpath] at hearlier hshows'
      exact hfirst _ hshows' entry'.1 hless hearlier

theorem IsSchemaOf.extension_eq {root path place : String} (hkeeps : s.Keeps x)
    (h : IsSchemaOf dirs x root path place) : Path.extension path = Module.schemaExtension := by
  have hroot := hkeeps.separate.normal root ((hkeeps.roots root).2 h.listed)
  have hdir := hkeeps.dir ▸ hkeeps.normal
  rw [← Path.extension_join (hdir.join hroot) h.object.1 h.object.2, ← h.below]
  exact h.schema

theorem side_of_shows_moduleFiles (hfiles : Regular volumes files) (hkeeps : s.Keeps x)
    (hdir : s.dir ∈ dirs) {info : ObjectInfo}
    (h : (moduleFiles files dirs s).Shows volumes info)
    (hschema : Path.extension info.path ≠ Module.schemaExtension) :
    info.path ∈ sideNames ∧ files.Shows volumes ⟨join s.dir info.path, info.external⟩ := by
  obtain ⟨layer, hlayer, h⟩ := exists_of_shows_layered (regular_moduleLayers hfiles hkeeps) h
  rcases List.mem_append.1 hlayer with hlayer | hlayer
  · obtain ⟨entry, hentry, rfl⟩ := List.mem_map.1 hlayer
    obtain ⟨hisSchema, _⟩ := (shows_rootFiles hfiles hkeeps hdir hentry).1 h
    exact absurd (hisSchema.extension_eq hkeeps) hschema
  · exact of_shows_sideLayers hfiles hkeeps.normal hlayer h

/-- A file of a directory itself belongs to the directory. -/
theorem deepest_of_child {dir name : String} (hdir : dir ∈ dirs) (hnormal : IsNormal dir)
    (hname : IsObject name) (hchild : '/' ∉ name.toList) : Deepest dirs dir (join dir name) := by
  refine ⟨hdir, Path.contains_join hnormal hname.1 hname.2, fun other _ hholds => ?_⟩
  have hin := Path.contains_join hnormal hname.1 hname.2
  rcases Path.contains_or_covers (Path.covers_of_contains hin)
    (Path.covers_of_contains hholds) with hnested | hcovers
  · -- a directory between the two would begin the name, which is a single component
    have hother := (hnormal.join hname.1).of_covers (Path.covers_of_contains hholds)
    obtain ⟨r, hr, rfl⟩ := Path.exists_join hnormal hother (Path.covers_of_contains hnested)
    rw [Path.contains_join_join hnormal hr hname.1] at hholds
    have hroot : r = "." :=
      ((Path.covers_of_not_mem hchild).1 (Path.covers_of_contains hholds)).resolve_left
        (Path.ne_of_contains hholds)
    rw [hroot, hnormal.join_root, Path.not_contains_self] at hnested
    cases hnested
  · exact hcovers

/-! ### Modules -/

/-- Whether an object of a workspace belongs to a module, as the file of a path. -/
inductive Belongs (dirs : List String) (x : Extent) (path place : String) : Prop
  | schema (root : String) (h : IsSchemaOf dirs x root path place)
  | side (name : path ∈ sideNames) (below : place = join x.dir path)

theorem isObject_of_mem_sideNames {p : String} (h : p ∈ sideNames) :
    IsObject p ∧ '/' ∉ p.toList := by
  have hall : ∀ p ∈ sideNames, IsObject p ∧ '/' ∉ p.toList := by decide
  exact hall p h

/-- An object belongs to the deepest module directory that holds it. -/
theorem Belongs.deepest {path place : String} (h : Belongs dirs x path place)
    (hdir : x.dir ∈ dirs) (hnormal : IsNormal x.dir) : Deepest dirs x.dir place := by
  cases h with
  | schema root h => exact h.owned
  | side name below =>
    obtain ⟨hobject, hchild⟩ := isObject_of_mem_sideNames name
    rw [below]
    exact deepest_of_child hdir hnormal hobject hchild

/-- Whether these are the files of a module in a world: all schema files of the workspace that it
serves, and besides only its documentation and license. Walking the module and reading from it give
the same. -/
structure HoldsFiles (w : World) (files : Bucket) (dirs : List String) (x : Extent) (m : Module)
    (infos : List ObjectInfo) : Prop where
  listed : m.objects w = .ok infos
  ordered : (infos.map ObjectInfo.path).Pairwise (· < ·)
  schemas : ∀ path external, Path.extension path = Module.schemaExtension →
    (⟨path, external⟩ ∈ infos ↔
      ∃ object, Serves w.volumes files dirs x path object ∧ object.external = external)
  belonging : ∀ info ∈ infos, ∃ object, files.Shows w.volumes object ∧
    object.external = info.external ∧ Belongs dirs x info.path object.path
  walked : ∀ fs, m.walk w = .ok fs → fs.map (fun f => ⟨f.path, f.external⟩) = infos
  reads : ∀ path info content, IsObject path →
    m.files.get w.volumes w.live path = .ok (info, content) → info.path = path ∧ info ∈ infos
  found : ∀ info ∈ infos, ∀ path, m.files.get w.volumes w.live info.path ≠ .error (.missing path)

theorem proper_moduleFiles (hfiles : files.Proper volumes) (hkeeps : s.Keeps x) :
    (moduleFiles files dirs s).Proper volumes := by
  rw [moduleFiles_eq, Bucket.Proper, Bucket.properEach_iff]
  intro layer hlayer
  rcases List.mem_append.1 hlayer with hlayer | hlayer
  · obtain ⟨entry, hentry, rfl⟩ := List.mem_map.1 hlayer
    rw [rootFiles, Bucket.Proper]
    exact ⟨hfiles, proper_rootMappers hkeeps hentry _⟩
  · rcases List.mem_pair.1 hlayer with rfl | rfl
    · rw [Bucket.Proper]
      exact ⟨hfiles, by simp [Mapper.Proper, hkeeps.normal]⟩
    · rw [Bucket.Proper]
      exact ⟨hfiles, by simp [Mapper.Proper, hkeeps.normal]⟩

theorem shows_keeping {b : Bucket} (h : Regular volumes b) {doc : Option String}
    {info : ObjectInfo} :
    (b.keeping (Module.kept doc)).Shows volumes info ↔
      Module.belongs doc info.path = true ∧ b.Shows volumes info := by
  have hproper : ∀ step ∈ [Mapper.keep (Module.kept doc)], step.Proper := by simp [Mapper.Proper]
  have hbase : unmapDir [Mapper.keep (Module.kept doc)] "." = "." := rfl
  have hnone : unmapDir [] "." = "." := rfl
  rw [Bucket.keeping, shows_mapped h hproper, hbase, Path.root_join, Passes, hnone, Path.root_join,
    Module.accepts_kept]
  constructor
  · rintro ⟨_, ⟨hbelongs, _⟩, hshows⟩
    exact ⟨hbelongs, hshows⟩
  · rintro ⟨hbelongs, hshows⟩
    exact ⟨h.objects info hshows, ⟨hbelongs, trivial⟩, hshows⟩

theorem nodup_list_keeping {layers : List Bucket} {live : Bool} {matcher : Matcher}
    {infos : List ObjectInfo}
    (h : ((Bucket.layered layers).keeping matcher).list volumes live "." = .ok infos) :
    (infos.map ObjectInfo.path).Nodup := by
  have hshown := (Bucket.list_eq_ok.1 h).2.2
  rw [← hshown, ((sortedBy_perm ObjectInfo.path _).map ObjectInfo.path).nodup_iff,
    Bucket.tour_keeping, Tour.shown_filterMap, List.filterMap_eq_filter]
  exact (nodup_layered ".").sublist (List.filter_sublist.map ObjectInfo.path)

theorem holdsFiles {w w₀ : World} {m : Module} (hproper : files.Proper w.volumes)
    (hkeeps : s.Keeps x) (hdir : s.dir ∈ dirs) (hlive : w.live = true)
    (hm : Module.filesOf w₀.volumes w₀.live (moduleFiles files dirs s) = .ok m.files) :
    ∃ infos, HoldsFiles w files dirs x m infos := by
  obtain ⟨doc, _, hkept⟩ := Module.filesOf_eq_ok.1 hm
  have hfiles := regular_of_proper files hproper
  have hlayers := regular_moduleFiles dirs hfiles hkeeps
  have hall : m.files.Proper w.volumes := by
    rw [← hkept, Bucket.keeping, Bucket.Proper]
    exact ⟨proper_moduleFiles hproper hkeeps, by simp [Mapper.Proper]⟩
  -- the view was made in another world; of that only the documentation it keeps is left
  have hshows {info : ObjectInfo} : m.files.Shows w.volumes info ↔
      Module.belongs doc info.path = true ∧ (moduleFiles files dirs s).Shows w.volumes info := by
    rw [← hkept]
    exact shows_keeping hlayers
  obtain ⟨infos, hlist, hmem⟩ := exists_list (regular_of_proper m.files hall)
  have hobjects : m.objects w = .ok infos := by
    rw [Module.objects, hlive, hlist]
    rfl
  refine ⟨infos, ?_⟩
  constructor
  case listed => exact hobjects
  case ordered =>
    refine pairwise_lt_of_nodup (Bucket.pairwise_list hlist) ?_
    rw [← hkept, moduleFiles_eq] at hlist
    exact nodup_list_keeping hlist
  case schemas =>
    intro path external hschema
    have hbelongs : Module.belongs doc path = true := by
      rw [Module.belongs, decide_eq_true hschema, Bool.true_or, Bool.true_or]
    have hserves : (moduleFiles files dirs s).Shows w.volumes ⟨path, external⟩ ↔ _ :=
      shows_moduleFiles hfiles hkeeps hdir hschema
    rw [hmem, hshows, ← hserves]
    exact ⟨And.right, fun h => ⟨hbelongs, h⟩⟩
  case belonging =>
    intro info hinfo
    obtain ⟨_, hshown⟩ := hshows.1 ((hmem info).1 hinfo)
    by_cases hschema : Path.extension info.path = Module.schemaExtension
    · obtain ⟨object, ⟨hobject, root, hisSchema, _⟩, hexternal⟩ :=
        (shows_moduleFiles hfiles hkeeps hdir hschema).1 hshown
      exact ⟨object, hobject, hexternal, .schema root hisSchema⟩
    · obtain ⟨hname, hobject⟩ := side_of_shows_moduleFiles hfiles hkeeps hdir hshown hschema
      exact ⟨_, hobject, rfl, .side hname (by rw [hkeeps.dir])⟩
  case walked => exact fun fs hfs => Module.infos_of_walk hobjects hfs
  case reads =>
    intro path info content hpath hget
    rw [hlive] at hget
    obtain ⟨hsame, hshown⟩ := hall.shows_of_get hpath hget
    exact ⟨hsame, (hmem info).2 hshown⟩
  case found =>
    intro info hinfo path
    rw [hlive]
    exact hall.get_ne_missing ((hmem info).1 hinfo) path

end Schemata.Workspace

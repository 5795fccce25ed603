import Schemata.Proofs.Workspace.Files

/-!
# What the modules of a workspace hold

Each module of a workspace holds the files that lie in the extent its settings describe, and no
file belongs to two modules.
-/

namespace Schemata.Workspace

open Settings Storage
open ModuleSet.Build (IsModuleOf)
open Schemata.Path (IsNormal covers contains join)

/-! ### The objects of a workspace -/

section Objects

variable {volumes : Volumes} {b : Bucket} {root : String}

theorem proper_filesBelow (hb : b.Proper volumes) (hroot : IsNormal root) :
    (filesBelow b root).Proper volumes := by
  unfold filesBelow
  split
  · exact hb
  · rw [Bucket.Proper]
    exact ⟨hb, by simpa [Mapper.Proper] using hroot⟩

/-- The objects of a workspace are those of the bucket below its root. -/
theorem shows_filesBelow (hb : b.Proper volumes) (hroot : IsNormal root) {info : ObjectInfo} :
    (filesBelow b root).Shows volumes info ↔
      IsObject info.path ∧ b.Shows volumes ⟨join root info.path, info.external⟩ := by
  have hregular := regular_of_proper b hb
  unfold filesBelow
  split
  · rename_i heq
    rw [heq, Path.root_join]
    exact ⟨fun h => ⟨hregular.objects info h, h⟩, And.right⟩
  · have hproper : ∀ m ∈ [Mapper.strip root], m.Proper := by simpa [Mapper.Proper] using hroot
    have hbase : unmapDir [Mapper.strip root] "." = root := hroot.join_root
    rw [shows_mapped hregular hproper, hbase]
    simp [Passes]

end Objects

/-! ### Extents -/

theorem dirPaths_eq {plan : Plan} {xs : List Extent}
    (h : List.Forall₂ (fun d x => d.settings.Keeps x) plan.dirs xs) :
    plan.dirPaths = xs.map Extent.dir := by
  rw [Plan.dirPaths]
  generalize plan.dirs = dirs at h ⊢
  induction h with
  | nil => rfl
  | cons hd _ ih => rw [List.map_cons, List.map_cons, hd.dir, ih]

/-- Whether a module is that of an extent, with the share of a request in it. -/
def IsModuleIn (files : Bucket) (dirs : List String) (inner : Request) (m : Module) (x : Extent) :
    Prop :=
  ∃ (d : ModuleDir) (t : Targeting), d.settings.Keeps x ∧
    inner.targeting dirs d.settings.dir d.settings.roots.keys = .ok t ∧
    IsModuleOf (d.localModule files dirs t) m

/-- Whether a declaration is that of an extent, with the share of a request in it. -/
def IsDeclaredIn (files : Bucket) (dirs : List String) (inner : Request) (l : LocalModule)
    (x : Extent) : Prop :=
  ∃ (d : ModuleDir) (t : Targeting), d.settings.Keeps x ∧
    inner.targeting dirs d.settings.dir d.settings.roots.keys = .ok t ∧
    l = d.localModule files dirs t

/-- The local modules of a workspace are declared for the extents that its settings describe. -/
theorem Declares.extents {w w₁ : World} {b : Bucket} {r : Request} {override : Option Override}
    {locals : List LocalModule} {remotes : List RemoteModule}
    (h : Declares w b r override locals remotes w₁) :
    ∃ r' found inner xs, r.located = .ok r' ∧ discover w.volumes w.live b r'.subDir = .ok found ∧
      r'.fromRoot found.root = .ok inner ∧ IsNormal found.root ∧ found.Describes w b xs ∧
      locals.map LocalModule.bucketId = xs.map Extent.dir ∧ (∀ x ∈ xs, IsNormal x.dir) ∧
      List.Forall₂ (IsDeclaredIn (filesBelow b found.root) (xs.map Extent.dir) inner)
        locals xs := by
  obtain ⟨r', found, plan, inner, hr, hlocated, hdirs, hlocals⟩ := h.dirs
  obtain ⟨xs, hdescribes, hkeeps⟩ := Plan.keeps_ofDiscovered hlocated.discovered hlocated.planned
  have hroot : IsNormal found.root :=
    (located_eq_ok hr).1.of_covers (discover_eq_ok hlocated.discovered).1
  have hnormal : ∀ x ∈ xs, IsNormal x.dir := fun x hx => by
    obtain ⟨d, _, hd⟩ := exists_of_forall₂ hkeeps hx
    rw [← hd.dir]
    exact hd.normal
  have hplaces := dirPaths_eq hkeeps
  refine ⟨r', found, inner, xs, hr, hlocated.discovered, hlocated.seen, hroot, hdescribes,
    hdirs.trans hplaces, hnormal, (forall₂_trans hkeeps hlocals).imp ?_⟩
  rintro l x ⟨d, _, ⟨t, ht, hl⟩, hx⟩
  rw [Plan.Targets, hplaces] at ht
  rw [hplaces] at hl
  exact ⟨d, t, hx, ht, hl⟩

/-- The local modules of a workspace are those of the extents that its settings describe. -/
theorem extents_of_ofBucket {provider : Provider} {b : Bucket} {r : Request}
    {override : Option Override} {ws : Workspace} {w w' : World}
    (h : (ofBucket provider b r override).run w = (.ok ws, w')) :
    ∃ r' found inner xs, r.located = .ok r' ∧ discover w.volumes w.live b r'.subDir = .ok found ∧
      r'.fromRoot found.root = .ok inner ∧ IsNormal found.root ∧ found.Describes w b xs ∧
      (xs.map Extent.dir).Nodup ∧ (∀ x ∈ xs, IsNormal x.dir) ∧
      List.Forall₂ (IsModuleIn (filesBelow b found.root) (xs.map Extent.dir) inner)
        (ws.set.modules.filter Module.isLocal) xs := by
  obtain ⟨_, _, w₁, hdeclares, hbuild, _⟩ := build_of_ofBucket h
  obtain ⟨hids, hmodules⟩ := locals_of_build hbuild
  obtain ⟨r', found, inner, xs, hr, hfound, hinner, hroot, hdescribes, hdirs, hnormal, hlocals⟩ :=
    hdeclares.extents
  refine ⟨r', found, inner, xs, hr, hfound, hinner, hroot, hdescribes, hdirs ▸ hids, hnormal,
    (forall₂_trans hlocals hmodules).imp ?_⟩
  rintro m x ⟨l, _, hm, d, t, hkeeps, ht, rfl⟩
  exact ⟨d, t, hkeeps, ht, hm⟩

theorem IsModuleIn.bucketId {files : Bucket} {dirs : List String} {inner : Request} {m : Module}
    {x : Extent} (h : IsModuleIn files dirs inner m x) : m.bucketId = x.dir := by
  obtain ⟨d, t, hkeeps, _, hm⟩ := h
  exact hm.bucketId.trans hkeeps.dir

theorem IsModuleIn.holdsFiles {files : Bucket} {dirs : List String} {inner : Request} {m : Module}
    {x : Extent} (h : IsModuleIn files dirs inner m x) (hdir : x.dir ∈ dirs) {w : World}
    (hlive : w.live = true) (hproper : files.Proper w.volumes) :
    ∃ infos, HoldsFiles w files dirs x m infos := by
  obtain ⟨d, t, hkeeps, _, hm⟩ := h
  obtain ⟨w₀, hfiles⟩ := hm.files
  exact Workspace.holdsFiles hproper hkeeps (hkeeps.dir ▸ hdir) hlive hfiles

/-- The modules of a workspace are those of the extents that its settings describe. Whatever the
workspace holds at any time, a module then lists, as schema files, just the objects below the roots
of its extent that no deeper module directory holds, that are not excluded and that are not
themselves the path of a module directory; each under its path below the root, where the first root
in order comes before the others. No object belongs to two modules. -/
theorem modules_hold_extents {provider : Provider} {b : Bucket} {r : Request}
    {override : Option Override} {ws : Workspace} {w w' : World}
    (h : (ofBucket provider b r override).run w = (.ok ws, w')) :
    ∃ r' found xs, r.located = .ok r' ∧ discover w.volumes w.live b r'.subDir = .ok found ∧
      found.Describes w b xs ∧ (xs.map Extent.dir).Nodup ∧
      (∀ x ∈ xs, ∀ x' ∈ xs, ∀ path path' place, Belongs (xs.map Extent.dir) x path place →
        Belongs (xs.map Extent.dir) x' path' place → x = x') ∧
      List.Forall₂
        (fun m x => m.bucketId = x.dir ∧ ∀ w₁ : World, w₁.live = true → b.Proper w₁.volumes →
          ∃ infos, HoldsFiles w₁ (filesBelow b found.root) (xs.map Extent.dir) x m infos)
        (ws.set.modules.filter Module.isLocal) xs := by
  obtain ⟨r', found, inner, xs, hr, hfound, _, hroot, hdescribes, hnodup, hnormal, hmodules⟩ :=
    extents_of_ofBucket h
  refine ⟨r', found, xs, hr, hfound, hdescribes, hnodup, ?_, ?_⟩
  · intro x hx x' hx' path path' place hbelongs hbelongs'
    have hdeepest := hbelongs.deepest (List.mem_map_of_mem hx) (hnormal x hx)
    have hdeepest' := hbelongs'.deepest (List.mem_map_of_mem hx') (hnormal x' hx')
    exact List.inj_on_of_nodup_map hnodup hx hx' (hdeepest.unique hdeepest')
  · have hall := (List.forall₂_and_left xs _).2 ⟨fun x hx => hx, hmodules.flip⟩
    refine hall.flip.imp fun m x ⟨hx, hm⟩ => ⟨IsModuleIn.bucketId hm, fun w₁ hlive hb => ?_⟩
    exact IsModuleIn.holdsFiles hm (List.mem_map_of_mem hx) hlive (proper_filesBelow hb hroot)

/-! ### Two roots that have one path -/

/-- A provider that is never asked. -/
def unasked : Provider := fun _ => return []

def bucketOf (files : List (String × String)) : Bucket :=
  .objects (.ofList (files.map fun f => (f.1, f.2.toUTF8)))

/-- A request for all of a workspace. -/
def everything : Request := ⟨".", [], [], none, false⟩

/-- The files of a workspace whose module has two roots. Both have a schema file of one name, and a
directory of one root is left out. -/
def rooted : List (String × String) :=
  [("strata.toml", "version = \"v1beta1\"\n[build]\nroots = [\"vendor\", \"proto\"]\nexcludes = [\"proto/old\"]\n"),
    ("proto/x.schema", ""), ("proto/old/z.schema", ""), ("vendor/x.schema", ""),
    ("vendor/y.schema", "")]

theorem proper_bucketOf {files : List (String × String)} {volumes : Volumes}
    (h : ∀ key ∈ (Table.ofList (files.map fun f => (f.1, f.2.toUTF8))).keys, IsObject key) :
    (bucketOf files).Proper volumes := by
  rw [bucketOf, Bucket.Proper]
  exact h

theorem hold_rooted :
    ∃ ws w', (ofBucket unasked (bucketOf rooted) everything none).run World.empty = (.ok ws, w') ∧
      ∃ m x, ws.set.modules = [m] ∧ x.dir = "." ∧
        HoldsFiles World.empty (bucketOf rooted) ["."] x m
          [⟨"x.schema", "proto/x.schema"⟩, ⟨"y.schema", "vendor/y.schema"⟩] := by
  have hrun : ((ofBucket unasked (bucketOf rooted) everything none).run World.empty).1.toOption.map
      (fun ws => ws.set.modules.map fun m =>
        (m.isLocal, m.bucketId, (m.objects World.empty).toOption)) =
      some [(true, ".",
        some [⟨"x.schema", "proto/x.schema"⟩, ⟨"y.schema", "vendor/y.schema"⟩])] := by
    decide +kernel
  obtain ⟨ws, hws, hmodules⟩ := Option.map_eq_some_iff.1 hrun
  obtain ⟨m, hone, hm⟩ := List.map_eq_singleton_iff.1 hmodules
  obtain ⟨hlocal, hid, hobjects⟩ : m.isLocal = true ∧ m.bucketId = "." ∧
      (m.objects World.empty).toOption =
        some [⟨"x.schema", "proto/x.schema"⟩, ⟨"y.schema", "vendor/y.schema"⟩] := by
    simpa only [Prod.mk.injEq] using hm
  have hgives : (ofBucket unasked (bucketOf rooted) everything none).run World.empty =
      (.ok ws, ((ofBucket unasked (bucketOf rooted) everything none).run World.empty).2) :=
    Prod.ext (toOption_eq_some.1 hws) rfl
  obtain ⟨r', found, xs, hr, hfound, _, _, _, hall⟩ := modules_hold_extents hgives
  have hsub : r'.subDir = "." := by
    have heverything : everything.located = .ok everything := rfl
    cases heverything.symm.trans hr
    rfl
  have hroot : found.root = "." := by
    have hcovers := (discover_eq_ok hfound).1
    rw [hsub] at hcovers
    exact Path.covers_dot.1 hcovers
  have hfiles : filesBelow (bucketOf rooted) found.root = bucketOf rooted := if_pos hroot
  rw [hone, List.filter_cons_of_pos hlocal, List.filter_nil, hfiles] at hall
  cases hall with
  | @cons _ x _ _ hx hnil =>
    cases hnil
    have hdir : x.dir = "." := hx.1.symm.trans hid
    obtain ⟨infos, hholds⟩ := hx.2 World.empty rfl (proper_bucketOf (by decide +kernel))
    rw [List.map_cons, List.map_nil, hdir] at hholds
    cases hholds.listed.symm.trans (toOption_eq_some.1 hobjects)
    exact ⟨ws, _, hgives, m, x, hone, hdir, hholds⟩

/-! ### A file that has the path of a module directory -/

/-- The files of a workspace with two modules, of which the inner one has a file in place of its
directory. -/
def coinciding : List (String × String) :=
  [("strata.toml", "version = \"v2\"\n[[modules]]\npath = \"a\"\n[[modules]]\npath = \"a/b.schema\"\n"),
    ("a/b.schema", ""), ("a/x.schema", "")]

/-- A schema file that lies in a module and is not excluded is not held by it, if it has the path of
a module directory. -/
theorem not_hold_coinciding :
    (bucketOf coinciding).Shows World.empty.volumes (.plain "a/b.schema") ∧
      Path.extension "a/b.schema" = Module.schemaExtension ∧
      Deepest ["a", "a/b.schema"] "a" "a/b.schema" ∧
      ((ofBucket unasked (bucketOf coinciding) everything none).run World.empty).1.toOption.map
        (fun ws => ws.set.modules.map fun m =>
          (m.bucketId, (m.objects World.empty).toOption.map (·.map ObjectInfo.external))) =
        some [("a", some ["a/x.schema"]), ("a/b.schema", some [])] := by
  decide +kernel

end Schemata.Workspace

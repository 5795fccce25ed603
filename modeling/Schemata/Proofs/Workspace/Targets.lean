import Schemata.Proofs.Workspace.Contents

/-!
# Which files of a workspace are targets

A file of a workspace is a target only if the request is about it: a schema file lies at or inside
one of the target paths, and at or inside no exclude. A request whose target paths are about no
module directory fails.
-/

namespace Schemata.Workspace

open Settings Storage
open ModuleSet.Build (IsModuleOf)
open Schemata.Path (IsNormal covers contains join)

/-! ### Paths of a request -/

theorem names_iff {root p : String} (hroot : IsNormal root) {paths inner : List String}
    (h : ∀ q, q ∈ inner ↔ IsNormal q ∧ Names paths (join root q)) :
    covers root p = true ∧ Names paths p ↔ ∃ q ∈ inner, p = join root q := by
  constructor
  · rintro ⟨hcovers, hp⟩
    have hnormal : IsNormal p := by
      obtain ⟨path, _, hpath⟩ := hp
      exact Path.isNormal_of_normalize hpath
    obtain ⟨q, hq, rfl⟩ := Path.exists_join hroot hnormal hcovers
    exact ⟨q, (h q).2 ⟨hq, hp⟩, rfl⟩
  · rintro ⟨q, hq, rfl⟩
    obtain ⟨hnormal, hp⟩ := (h q).1 hq
    exact ⟨Path.covers_join hroot hnormal, hp⟩

/-! ### Target files -/

section Files

variable {files : Bucket} {dirs : List String} {x : Extent} {m : Module} {d : ModuleDir}
  {t : Targeting}

theorem exists_kind {w : World} {infos : List ObjectInfo} (hkeeps : d.settings.Keeps x)
    (h : HoldsFiles w files dirs x m infos) {info : ObjectInfo} (hinfo : info ∈ infos) :
    ∃ kind, Module.kindOf? info.path = some kind := by
  obtain ⟨object, _, _, hbelongs⟩ := h.belonging info hinfo
  cases hbelongs with
  | schema root h => exact ⟨.schema, Module.kindOf?_eq_schema.2 (h.extension_eq hkeeps)⟩
  | side name _ =>
    have hall : ∀ p ∈ sideNames, (Module.kindOf? p).isSome = true := by decide
    exact Option.isSome_iff_exists.1 (hall info.path name)

theorem file_eq_none {r : Request} {dir : String} {roots : List String} (hfile : r.file = none)
    (h : r.targeting dirs dir roots = .ok t) : t.file = none := by
  obtain ⟨_, s, hs, _, _, _, _, ht, _⟩ := targeting_eq_ok h
  rw [ht, file_of_share hfile hs]
  rfl

theorem selects_of_isTarget {w : World} {path : String}
    (hm : IsModuleOf (d.localModule files dirs t) m) (hfile : t.file = none)
    (h : m.isTargetPath w path = .ok true) : t.selects path = true := by
  have hfilter := hm.filter
  have hnone : m.filter.file = none := by rw [hfilter]; exact hfile
  rw [Module.isTargetPath_eq hnone, Except.ok.injEq, Bool.and_eq_true, Bool.and_eq_true] at h
  obtain ⟨⟨htarget, hexcludes⟩, hpaths⟩ := h
  rw [hfilter] at hexcludes hpaths
  have ht : t.target = true := hm.target htarget
  rw [Targeting.selects, ht, Bool.and_eq_true, Bool.and_eq_true]
  exact ⟨⟨rfl, hexcludes⟩, hpaths⟩

end Files

/-- Whether a place in a bucket lies at or inside an exclude of a request that lies in the
workspace. -/
def Excluded (root : String) (r : Request) (place : String) : Prop :=
  ∃ e, Names r.excludes e ∧ covers root e = true ∧ covers e place = true

/-- Whether a target file lies within a request. A schema file lies at or inside a target path, if
the request has any at, in or around the workspace; below which root of its module makes no
difference. It is not excluded. Nor is any other file of a module without roots of its own. -/
structure LiesWithin (w : World) (b : Bucket) (root : String) (dirs : List String) (x : Extent)
    (r : Request) (f : FileInfo) : Prop where
  schema : f.kind = .schema → ∃ place,
    Serves w.volumes (filesBelow b root) dirs x f.path ⟨place, f.external⟩ ∧
    b.Shows w.volumes ⟨join root place, f.external⟩ ∧
    ((∃ p, Names r.paths p ∧ (covers root p = true ∨ covers p root = true)) →
      ∃ p, Names r.paths p ∧
        (∃ own ∈ x.roots, covers p (join root (join (join x.dir own) f.path)) = true) ∧
        (x.roots.length = 1 → covers p (join root place) = true)) ∧
    ¬ Excluded root r (join root place)
  side : f.kind ≠ .schema → x.roots = ["."] →
    b.Shows w.volumes ⟨join root (join x.dir f.path), f.external⟩ ∧
    ¬ Excluded root r (join root (join x.dir f.path))

section Selected

variable {w : World} {b : Bucket} {root : String} {dirs : List String} {x : Extent}
  {r inner : Request} {d : ModuleDir} {t : Targeting} {m : Module}

/-- Where the share of a request in a module selects a path, a target path covers its place below
one of the roots. -/
theorem path_of_selects (hroot : IsNormal root) (hseen : SeenFrom root r inner)
    (hfile : inner.file = none) (hkeeps : d.settings.Keeps x)
    (ht : inner.targeting dirs d.settings.dir d.settings.roots.keys = .ok t) {q : String}
    (hq : IsNormal q) (h : t.selects q = true)
    (hpaths : ∃ p, Names r.paths p ∧ (covers root p = true ∨ covers p root = true)) :
    ∃ p, Names r.paths p ∧
      ∃ own ∈ x.roots, covers p (join root (join (join x.dir own) q)) = true := by
  have hplace : ∀ own ∈ d.settings.roots.keys, IsNormal (join (join d.settings.dir own) q) :=
    fun own hown => (hkeeps.normal.join (hkeeps.separate.normal own hown)).join hq
  rw [← hkeeps.dir]
  obtain ⟨p, hp, hin | haround⟩ := hpaths
  · -- the path is kept when the request is seen from the root, so its list of paths is not empty
    obtain ⟨p, hp, _⟩ := (names_iff hroot hseen.paths).1 ⟨hin, hp⟩
    have hincludes := ((selects_iff hseen.normal hkeeps.separate hkeeps.normal hq hfile ht).1 h).1
    rw [Request.Includes, if_neg (List.ne_nil_of_mem hp)] at hincludes
    obtain ⟨p, hp, hreaches⟩ := hincludes
    obtain ⟨own, hown, hcovers⟩ :=
      covers_of_reaches hkeeps.separate hkeeps.nonempty hkeeps.normal hq hreaches
    have hnamed := ((names_iff hroot hseen.paths).2 ⟨p, hp, rfl⟩).2
    refine ⟨join root p, hnamed, own, (hkeeps.roots own).1 hown, ?_⟩
    exact (Path.covers_join_join hroot (hseen.normal.paths p hp) (hplace own hown)).2 hcovers
  · obtain ⟨own, hown⟩ := List.exists_mem_of_ne_nil _ hkeeps.nonempty
    refine ⟨p, hp, own, (hkeeps.roots own).1 hown, ?_⟩
    exact Path.covers_trans haround (Path.covers_join hroot (hplace own hown))

theorem not_excluded_of_selects (hroot : IsNormal root) (hseen : SeenFrom root r inner)
    (hfile : inner.file = none) (hkeeps : d.settings.Keeps x)
    (ht : inner.targeting dirs d.settings.dir d.settings.roots.keys = .ok t) {own q : String}
    (hown : own ∈ x.roots) (hq : IsNormal q)
    (hdeepest : Deepest dirs x.dir (join (join x.dir own) q)) (h : t.selects q = true) :
    ¬ Excluded root r (join root (join (join x.dir own) q)) := by
  rintro ⟨e, he, hin, hcovers⟩
  have hlisted := (hkeeps.roots own).2 hown
  have hplace := (hkeeps.normal.join (hkeeps.separate.normal own hlisted)).join hq
  obtain ⟨_, hexcludes⟩ := (selects_iff hseen.normal hkeeps.separate hkeeps.normal hq hfile ht).1 h
  obtain ⟨p, hp, rfl⟩ := (names_iff hroot hseen.excludes).1 ⟨hin, he⟩
  rw [← hkeeps.dir] at hdeepest hcovers
  refine hexcludes p hp (reaches_of_covers hlisted hdeepest ?_)
  exact (Path.covers_join_join hroot (hseen.normal.excludes p hp) hplace).1 hcovers

theorem schema_within (hb : b.Proper w.volumes) (hroot : IsNormal root)
    (hseen : SeenFrom root r inner) (hfile : inner.file = none) (hkeeps : d.settings.Keeps x)
    (ht : inner.targeting dirs d.settings.dir d.settings.roots.keys = .ok t)
    {q place external : String}
    (hserves : Serves w.volumes (filesBelow b root) dirs x q ⟨place, external⟩)
    (h : t.selects q = true) :
    b.Shows w.volumes ⟨join root place, external⟩ ∧
    ((∃ p, Names r.paths p ∧ (covers root p = true ∨ covers p root = true)) →
      ∃ p, Names r.paths p ∧
        (∃ own ∈ x.roots, covers p (join root (join (join x.dir own) q)) = true) ∧
        (x.roots.length = 1 → covers p (join root place) = true)) ∧
    ¬ Excluded root r (join root place) := by
  obtain ⟨own, hschema, _⟩ := hserves.first
  have hbelow : place = join (join x.dir own) q := hschema.below
  have hq := hschema.object.1
  have hdeepest := hschema.owned
  rw [hbelow] at hdeepest
  refine ⟨((shows_filesBelow hb hroot).1 hserves.shown).2, fun hpaths => ?_, ?_⟩
  · obtain ⟨p, hp, other, hother, hcovers⟩ :=
      path_of_selects hroot hseen hfile hkeeps ht hq h hpaths
    refine ⟨p, hp, ⟨other, hother, hcovers⟩, fun hone => ?_⟩
    obtain ⟨only, honly⟩ := List.length_eq_one_iff.1 hone
    have hlisted := hschema.listed
    rw [honly, List.mem_singleton] at hother hlisted
    rw [hbelow, hlisted, ← hother]
    exact hcovers
  · rw [hbelow]
    exact not_excluded_of_selects hroot hseen hfile hkeeps ht hschema.listed hq hdeepest h

theorem side_within (hb : b.Proper w.volumes) (hroot : IsNormal root)
    (hseen : SeenFrom root r inner) (hfile : inner.file = none) (hkeeps : d.settings.Keeps x)
    (ht : inner.targeting dirs d.settings.dir d.settings.roots.keys = .ok t)
    (hdir : x.dir ∈ dirs) (hroots : x.roots = ["."]) {q external : String} (hname : q ∈ sideNames)
    (hshows : (filesBelow b root).Shows w.volumes ⟨join x.dir q, external⟩)
    (h : t.selects q = true) :
    b.Shows w.volumes ⟨join root (join x.dir q), external⟩ ∧
      ¬ Excluded root r (join root (join x.dir q)) := by
  obtain ⟨hobject, hchild⟩ := isObject_of_mem_sideNames hname
  have hnormal := hkeeps.dir ▸ hkeeps.normal
  have hdeepest := deepest_of_child hdir hnormal hobject hchild
  have hself : join (join x.dir ".") q = join x.dir q := by rw [hnormal.join_root]
  have hlisted : "." ∈ x.roots := hroots ▸ List.mem_singleton_self _
  refine ⟨((shows_filesBelow hb hroot).1 hshows).2, ?_⟩
  rw [← hself] at hdeepest ⊢
  exact not_excluded_of_selects hroot hseen hfile hkeeps ht hlisted hobject.1 hdeepest h

theorem liesWithin {infos : List ObjectInfo} (hb : b.Proper w.volumes) (hroot : IsNormal root)
    (hseen : SeenFrom root r inner) (hfile : r.file = none) (hdir : x.dir ∈ dirs)
    (hm : IsModuleIn (filesBelow b root) dirs inner m x)
    (hholds : HoldsFiles w (filesBelow b root) dirs x m infos) :
    ∃ fs, m.walk w = .ok fs ∧ ∀ f ∈ fs, f.isTarget = true → LiesWithin w b root dirs x r f := by
  obtain ⟨d, t, hkeeps, ht, hm⟩ := hm
  have hinner := hseen.file hfile
  have htfile := file_eq_none hinner ht
  have hmfile : m.filter.file = none := by
    rw [hm.filter]
    exact htfile
  obtain ⟨fs, hfs⟩ := Module.exists_walk hholds.listed (fun _ => exists_kind hkeeps hholds) hmfile
  refine ⟨fs, hfs, fun f hf htarget => ?_⟩
  obtain ⟨info, hinfo, hfileOf⟩ := Module.mem_walk hfs hholds.listed hf
  obtain ⟨kind, target, hkind, hstatus, rfl⟩ := Module.fileOf_eq_ok.1 hfileOf
  cases htarget
  have hselects := selects_of_isTarget hm htfile hstatus
  constructor
  case schema =>
    rintro rfl
    obtain ⟨⟨place, external⟩, hserves, hexternal⟩ :=
      (hholds.schemas info.path info.external (Module.kindOf?_eq_schema.1 hkind)).1 hinfo
    obtain rfl : external = info.external := hexternal
    exact ⟨place, hserves, schema_within hb hroot hseen hinner hkeeps ht hserves hselects⟩
  case side =>
    intro hother hroots
    obtain ⟨⟨place, external⟩, hshown, hexternal, hbelongs⟩ := hholds.belonging info hinfo
    obtain rfl : external = info.external := hexternal
    cases hbelongs with
    | schema own h =>
      have hschema := Module.kindOf?_eq_schema.2 (h.extension_eq hkeeps)
      exact absurd (Option.some.inj (hkind.symm.trans hschema)) hother
    | side name below =>
      obtain rfl : place = join x.dir info.path := below
      exact side_within hb hroot hseen hinner hkeeps ht hdir hroots name hshown hselects

end Selected

/-! ### Requests about no module -/

section Faults

variable {w : World} {b : Bucket} {r r' inner : Request} {found : Discovered} {plan : Plan}

theorem locate_eq_fault (h : Located w b r found plan inner)
    (hnone : ∀ d ∈ plan.dirs, ∃ t, plan.Targets inner d t ∧ t.tentative = false) :
    locate w b r = .error (.fault s!"subdirectory \"{r.subDir}\" did not result in any target modules from module directories {Text.quotedList plan.dirPaths}") := by
  have hok : ∀ d ∈ plan.dirs, ∃ t, (inner.targeting plan.dirPaths d.settings.dir
      d.settings.roots.keys).mapError Error.targeting = .ok t := fun d hd => by
    obtain ⟨t, ht, _⟩ := hnone d hd
    exact ⟨t, mapError_eq_ok.2 ht⟩
  obtain ⟨ts, hts⟩ := exists_mapM_eq_ok hok
  have hall : ts.any Targeting.tentative = false := by
    refine List.any_eq_false.2 fun t ht => ?_
    obtain ⟨d, hd, hdt⟩ := exists_of_forall₂ (mapM_eq_ok.1 hts) ht
    obtain ⟨t', ht', hfalse⟩ := hnone d hd
    cases (mapError_eq_ok.1 hdt).symm.trans ht'
    exact Bool.eq_false_iff.1 hfalse
  have hfound := (mapError_eq_ok (f := Error.settings)).2 h.discovered
  simp only [locate, hfound, h.planned, h.seen, hts, hall, bind, Except.bind]
  rfl

theorem run_ofBucket_of_locate {provider : Provider} {override : Option Override}
    {o : Option ModuleFile} {e : Error} (hlive : w.live = true) (hr : r.located = .ok r')
    (ho : readOverride override = .ok o) (h : locate w b r' = .error e) :
    (ofBucket provider b r override).run w = (.error e, w) := by
  have hget : (get : WorkspaceAct World).run w = (.ok w, w) := rfl
  unfold ofBucket
  rw [run_bind, hget]
  simp only [hlive, Bool.not_true, Bool.false_eq_true, if_false]
  rw [run_bind, run_answer, hr]
  simp only
  rw [run_bind, run_answer, ho]
  simp only
  rw [run_bind, run_answer, h]

/-- A request makes sense for module directories that its paths are not about, and is not about
them. -/
theorem not_tentative {root : String} (hroot : IsNormal root) (hseen : SeenFrom root r inner)
    (hfile : r.file = none) {dirs : List String} (hdirs : ∀ dir ∈ dirs, IsNormal dir)
    (hpaths : ∃ p, Names r.paths p ∧ covers root p = true)
    (hout : ∀ p, Names r.paths p → ∀ dir ∈ dirs,
      covers p (join root dir) = false ∧ covers (join root dir) p = false)
    (hexcludes : ∀ dir ∈ dirs, ¬ Names r.excludes (join root dir)) {dir : String}
    (hdir : dir ∈ dirs) (roots : List String) :
    ∃ t, inner.targeting dirs dir roots = .ok t ∧ t.tentative = false := by
  have hinner := hseen.file hfile
  have hapart : ∀ p ∈ inner.paths, covers p dir = false ∧ covers dir p = false := by
    intro p hp
    have hnormal := hseen.normal.paths p hp
    obtain ⟨hp, hd⟩ := hout _ ((hseen.paths p).1 hp).2 dir hdir
    have hjoin := Path.covers_join_join hroot hnormal (hdirs dir hdir)
    have hjoin' := Path.covers_join_join hroot (hdirs dir hdir) hnormal
    exact ⟨Bool.eq_false_iff.2 fun h => Bool.eq_false_iff.1 hp (hjoin.2 h),
      Bool.eq_false_iff.2 fun h => Bool.eq_false_iff.1 hd (hjoin'.2 h)⟩
  have hne : inner.paths ≠ [] := by
    obtain ⟨p, hp, hin⟩ := hpaths
    obtain ⟨q, hq, _⟩ := (names_iff hroot hseen.paths).1 ⟨hin, hp⟩
    exact List.ne_nil_of_mem hq
  cases ht : inner.targeting dirs dir roots with
  | error e =>
    rcases targeting_eq_error.1 ⟨e, ht⟩ with ⟨hsome, _⟩ | hpath | hexclude
    · rw [hinner] at hsome
      cases hsome
    · have hself := (hapart dir hpath).1
      rw [Path.covers_self] at hself
      cases hself
    · exact absurd ((hseen.excludes dir).1 hexclude).2 (hexcludes dir hdir)
  | ok t =>
    refine ⟨t, rfl, Bool.eq_false_iff.2 fun htentative => ?_⟩
    obtain ⟨p, hp, haround | hown⟩ := (tentative_iff hinner hne ht).1 htentative
    · exact Bool.eq_false_iff.1 (hapart p hp).1 (Path.covers_of_contains haround)
    · exact Bool.eq_false_iff.1 (hapart p hp).2 (Path.covers_of_contains hown.holds)

end Faults

/-- The target files of a workspace lie within the request, whatever the workspace holds at any
time. A request whose target paths are neither around nor inside any module directory fails, and
nothing changes. -/
theorem targets_lie_within {provider : Provider} {b : Bucket} {r : Request}
    {override : Option Override} {w : World} (hfile : r.file = none) :
    (∀ ws w', (ofBucket provider b r override).run w = (.ok ws, w') →
      ∃ r' found xs, r.located = .ok r' ∧ discover w.volumes w.live b r'.subDir = .ok found ∧
        found.Describes w b xs ∧
        List.Forall₂
          (fun m x => m.bucketId = x.dir ∧ ∀ w₁ : World, w₁.live = true → b.Proper w₁.volumes →
            ∃ fs, m.walk w₁ = .ok fs ∧ ∀ f ∈ fs, f.isTarget = true →
              LiesWithin w₁ b found.root (xs.map Extent.dir) x r f)
          (ws.set.modules.filter Module.isLocal) xs) ∧
    ∀ located found plan inner o, w.live = true → r.located = .ok located →
      readOverride override = .ok o → Located w b located found plan inner →
      (∃ p, Names r.paths p ∧ covers found.root p = true) →
      (∀ p, Names r.paths p → ∀ dir ∈ plan.dirPaths,
        covers p (join found.root dir) = false ∧ covers (join found.root dir) p = false) →
      (∀ dir ∈ plan.dirPaths, ¬ Names r.excludes (join found.root dir)) →
      (ofBucket provider b r override).run w =
        (.error (.fault s!"subdirectory \"{located.subDir}\" did not result in any target modules from module directories {Text.quotedList plan.dirPaths}"), w) := by
  constructor
  · intro ws w' h
    obtain ⟨r', found, inner, xs, hr, hfound, hinner, hroot, hdescribes, _, _, hmodules⟩ :=
      extents_of_ofBucket h
    have hseen : SeenFrom found.root r inner := (fromRoot_eq_ok hroot hinner).of_located hr
    refine ⟨r', found, xs, hr, hfound, hdescribes, ?_⟩
    have hall := (List.forall₂_and_left xs _).2 ⟨fun x hx => hx, hmodules.flip⟩
    refine hall.flip.imp fun m x ⟨hx, hm⟩ => ⟨IsModuleIn.bucketId hm, fun w₁ hlive hb => ?_⟩
    have hdir := List.mem_map_of_mem (f := Extent.dir) hx
    obtain ⟨infos, hholds⟩ := IsModuleIn.holdsFiles hm hdir hlive (proper_filesBelow hb hroot)
    exact liesWithin hb hroot hseen hfile hdir hm hholds
  · intro located found plan inner o hlive hr ho hlocated hpaths hout hexcludes
    have hroot : IsNormal found.root :=
      (located_eq_ok hr).1.of_covers (discover_eq_ok hlocated.discovered).1
    have hseen : SeenFrom found.root r inner := (fromRoot_eq_ok hroot hlocated.seen).of_located hr
    obtain ⟨xs, _, hkeeps⟩ := Plan.keeps_ofDiscovered hlocated.discovered hlocated.planned
    have hdirs : ∀ dir ∈ plan.dirPaths, IsNormal dir := by
      intro dir hdir
      obtain ⟨d, hd, rfl⟩ := List.mem_map.1 hdir
      obtain ⟨x, _, hx⟩ := exists_of_forall₂ hkeeps.flip hd
      exact hx.normal
    refine run_ofBucket_of_locate hlive hr ho (locate_eq_fault hlocated fun d hd => ?_)
    exact not_tentative hroot hseen hfile hdirs hpaths hout hexcludes (List.mem_map_of_mem hd) _

/-- The files of a workspace that does not lie at the root of its bucket. -/
def distant : List (String × String) :=
  [("ws/strata.toml", "version = \"v2\"\n[[modules]]\npath = \"a\"\n"),
    ("ws/a/u.schema", ""), ("ws/a/x/old/z.schema", ""), ("ws/a/x/y.schema", "")]

/-- A request for one directory of the workspace. -/
def distantRequest (path : String) : Request := ⟨"ws", [path], ["ws/a/x/old"], none, false⟩

theorem located_distantRequest (path : String) :
    (distantRequest path).located = .ok (distantRequest path) := by
  have hws : normalize "ws" = .ok "ws" := normalize_eq_ok.2 (IsNormal.normalize_eq (by decide))
  exact bind_eq_ok.2 ⟨"ws", hws, rfl⟩

theorem exists_located_distant {path : String} (hpath : path ∈ ["ws/a/x", "ws/docs"]) :
    ∃ found plan inner, Located World.empty (bucketOf distant) (distantRequest path) found plan
      inner ∧ found.root = "ws" ∧ plan.dirPaths = ["a"] := by
  have hall : ∀ path ∈ ["ws/a/x", "ws/docs"],
      ((discover World.empty.volumes true (bucketOf distant) "ws").toOption.bind fun found =>
        (Plan.ofDiscovered World.empty (bucketOf distant) found).toOption.bind fun plan =>
          ((distantRequest path).fromRoot found.root).toOption.map fun _ =>
            (found.root, plan.dirPaths)) = some ("ws", ["a"]) := by
    decide +kernel
  obtain ⟨found, hfound, hsome⟩ := Option.bind_eq_some_iff.1 (hall path hpath)
  obtain ⟨plan, hplan, hsome⟩ := Option.bind_eq_some_iff.1 hsome
  obtain ⟨inner, hinner, heq⟩ := Option.map_eq_some_iff.1 hsome
  obtain ⟨hroot, hdirs⟩ := Prod.mk.inj heq
  exact ⟨found, plan, inner, ⟨toOption_eq_some.1 hfound, toOption_eq_some.1 hplan,
    toOption_eq_some.1 hinner⟩, hroot, hdirs⟩

theorem exists_run_distant :
    ∃ ws w' m fs f,
      (ofBucket unasked (bucketOf distant) (distantRequest "ws/a/x") none).run World.empty =
        (.ok ws, w') ∧ ws.set.modules = [m] ∧ m.isLocal = true ∧ m.bucketId = "a" ∧
        m.walk World.empty = .ok fs ∧ f ∈ fs ∧ f.path = "x/y.schema" ∧ f.isTarget = true := by
  have hrun : ((ofBucket unasked (bucketOf distant) (distantRequest "ws/a/x") none).run
      World.empty).1.toOption.map (fun ws => ws.set.modules.map fun m =>
        (m.isLocal, m.bucketId, (m.walk World.empty).toOption.map fun fs =>
          (fs.filter FileInfo.isTarget).map FileInfo.path)) =
      some [(true, "a", some ["x/y.schema"])] := by
    decide +kernel
  obtain ⟨ws, hws, hmodules⟩ := Option.map_eq_some_iff.1 hrun
  obtain ⟨m, hone, hm⟩ := List.map_eq_singleton_iff.1 hmodules
  obtain ⟨hlocal, hm⟩ := Prod.mk.inj hm
  obtain ⟨hid, hwalk⟩ := Prod.mk.inj hm
  obtain ⟨fs, hfs, hfiles⟩ := Option.map_eq_some_iff.1 hwalk
  obtain ⟨f, hfilter, hpath⟩ := List.map_eq_singleton_iff.1 hfiles
  obtain ⟨hf, htarget⟩ := List.mem_filter.1 (hfilter ▸ List.mem_singleton_self f)
  exact ⟨ws, _, m, fs, f, Prod.ext (toOption_eq_some.1 hws) rfl, hone, hlocal, hid,
    toOption_eq_some.1 hfs, hf, hpath, htarget⟩

theorem within_distant :
    (∃ ws w' m x fs f,
      (ofBucket unasked (bucketOf distant) (distantRequest "ws/a/x") none).run World.empty =
        (.ok ws, w') ∧ ws.set.modules = [m] ∧ m.walk World.empty = .ok fs ∧ f ∈ fs ∧
        f.path = "x/y.schema" ∧ f.isTarget = true ∧
        LiesWithin World.empty (bucketOf distant) "ws" ["a"] x (distantRequest "ws/a/x") f) ∧
    (ofBucket unasked (bucketOf distant) (distantRequest "ws/docs") none).run World.empty =
      (.error (.fault "subdirectory \"ws\" did not result in any target modules from module directories [\"a\"]"),
        World.empty) := by
  constructor
  · obtain ⟨ws, w', m, fs, f, hrun, hone, hlocal, hid, hfs, hf, hpath, htarget⟩ :=
      exists_run_distant
    obtain ⟨r', found, xs, hr, hfound, _, hall⟩ := (targets_lie_within rfl).1 ws w' hrun
    cases (located_distantRequest _).symm.trans hr
    obtain ⟨found', _, _, hsite, hroot, _⟩ :=
      @exists_located_distant "ws/a/x" List.mem_cons_self
    cases hsite.discovered.symm.trans hfound
    rw [hone, List.filter_cons_of_pos hlocal, List.filter_nil, hroot] at hall
    cases hall with
    | @cons _ x _ _ hx hnil =>
      cases hnil
      have hdir : x.dir = "a" := hx.1.symm.trans hid
      obtain ⟨fs', hfs', hlies⟩ := hx.2 World.empty rfl (proper_bucketOf (by decide +kernel))
      cases hfs.symm.trans hfs'
      rw [List.map_cons, List.map_nil, hdir] at hlies
      exact ⟨ws, w', m, x, fs, f, hrun, hone, hfs, hf, hpath, htarget, hlies f hf htarget⟩
  · obtain ⟨found, plan, inner, hsite, hroot, hdirs⟩ :=
      exists_located_distant (List.mem_cons_of_mem _ (List.mem_singleton_self "ws/docs"))
    have hnone : readOverride none = .ok none := rfl
    have hdocs : Path.normalize "ws/docs" = .ok "ws/docs" := IsNormal.normalize_eq (by decide)
    have hold : Path.normalize "ws/a/x/old" = .ok "ws/a/x/old" := IsNormal.normalize_eq (by decide)
    have hfails := (@targets_lie_within unasked (bucketOf distant) (distantRequest "ws/docs") none
      World.empty rfl).2 _ found plan inner none rfl (located_distantRequest _) hnone hsite
    rw [hroot, hdirs] at hfails
    refine hfails ⟨"ws/docs", ⟨_, List.mem_singleton_self _, hdocs⟩, by decide⟩ ?_ ?_
    · rintro p ⟨path, hpath, hp⟩ dir hdir
      rw [List.mem_singleton.1 hpath] at hp
      rw [List.mem_singleton.1 hdir]
      cases hdocs.symm.trans hp
      decide
    · rintro dir hdir ⟨path, hpath, hp⟩
      rw [List.mem_singleton.1 hpath, List.mem_singleton.1 hdir] at hp
      exact absurd (hold.symm.trans hp) (by simp; decide)

/-! ### Several roots -/

/-- The target files of the modules in a bucket, by their places there. -/
def targetPlaces (files : List (String × String)) (r : Request) :
    Option (List (Option (List String))) :=
  ((ofBucket unasked (bucketOf files) r none).run World.empty).1.toOption.map fun ws =>
    ws.set.modules.map fun m => (m.walk World.empty).toOption.map fun fs =>
      (fs.filter FileInfo.isTarget).map FileInfo.external

/-- The files of a workspace whose module has two roots. -/
def paired : List (String × String) :=
  [("strata.toml", "version = \"v1beta1\"\n[build]\nroots = [\"proto\", \"vendor\"]\n"),
    ("README.md", ""), ("proto/a/x.schema", ""), ("proto/z.schema", ""), ("vendor/a/y.schema", "")]

/-- A target path that is one of two roots stands for both, and an exclude beside the roots for
nothing. -/
theorem not_within_paired :
    targetPlaces paired ⟨".", ["vendor"], ["README.md"], none, false⟩ =
      some [some ["README.md", "proto/a/x.schema", "vendor/a/y.schema", "proto/z.schema"]] ∧
      covers "vendor" "proto/z.schema" = false ∧ covers "README.md" "README.md" = true := by
  decide +kernel

end Schemata.Workspace

import Schemata.Proofs.Except
import Schemata.Proofs.Path
import Schemata.Proofs.Sorted
import Schemata.Workspace.Targeting

/-!
# What a request selects

A path of a request reaches a file of a module if it is around the module, or if it belongs to the
module and covers the place of the file below one of the roots. A request selects the files that
its target paths reach and its excludes do not.
-/

namespace Schemata.Workspace

open Schemata.Path (IsNormal Separate contains covers coveredBy join)

/-! ### Owners -/

theorem depth_lt {a b : String} (h : contains a b = true) : depth a < depth b := by
  have hb : b ≠ "." := by
    rintro rfl
    rw [Path.not_contains_dot] at h
    cases h
  rw [depth, depth, if_neg hb]
  split
  · exact Nat.zero_lt_succ _
  · rename_i ha
    obtain ⟨rest, hrest⟩ := (Path.contains_dir ha).1 h
    rw [hrest, List.length_append, List.length_cons]
    omega

/-- A directory among some others that holds a path, and no deeper one does. -/
structure Deepest (dirs : List String) (dir path : String) : Prop where
  mem : dir ∈ dirs
  holds : contains dir path = true
  deepest : ∀ other ∈ dirs, contains other path = true → covers other dir = true

theorem Deepest.unique {dirs : List String} {dir dir' path : String} (h : Deepest dirs dir path)
    (h' : Deepest dirs dir' path) : dir = dir' :=
  Path.covers_antisymm (h'.deepest dir h.mem h.holds) (h.deepest dir' h'.mem h'.holds)

theorem Deepest.around {dirs : List String} {dir p path : String} (h : Deepest dirs dir path)
    (hp : covers p path = true) (hdir : contains dir p = true) : Deepest dirs dir p :=
  ⟨h.mem, hdir, fun other hother hholds =>
    h.deepest other hother (Path.contains_of_contains_covers hholds hp)⟩

theorem exists_foldl_deepest (dirs : List String) (best : String) :
    ∃ dir ∈ best :: dirs,
      dirs.foldl
        (fun best dir =>
          match best with
          | some b => if depth b ≤ depth dir then some dir else some b
          | none => some dir)
        (some best) = some dir ∧
      ∀ other ∈ best :: dirs, depth other ≤ depth dir := by
  -- `best` is the deepest directory that was met so far, the last of equally deep ones
  induction dirs generalizing best with
  | nil => exact ⟨best, List.mem_singleton_self _, rfl, by simp⟩
  | cons d dirs ih =>
    rw [List.foldl_cons]
    simp only
    split
    · rename_i hle
      obtain ⟨dir, hmem, hfold, hmax⟩ := ih d
      refine ⟨dir, List.mem_cons_of_mem _ hmem, hfold, List.forall_mem_cons.2 ⟨?_, hmax⟩⟩
      exact Nat.le_trans hle (hmax d List.mem_cons_self)
    · rename_i hlt
      obtain ⟨dir, hmem, hfold, hmax⟩ := ih best
      obtain ⟨hbest, hrest⟩ := List.forall_mem_cons.1 hmax
      refine ⟨dir, ?_, hfold, List.forall_mem_cons.2 ⟨hbest, List.forall_mem_cons.2 ⟨?_, hrest⟩⟩⟩
      · rcases List.mem_cons.1 hmem with rfl | hmem
        · exact List.mem_cons_self
        · exact List.mem_cons_of_mem _ (List.mem_cons_of_mem _ hmem)
      · omega

theorem owner?_spec (dirs : List String) (path : String) :
    (owner? dirs path = none ∧ ∀ dir ∈ dirs, contains dir path = false) ∨
      ∃ dir, owner? dirs path = some dir ∧ Deepest dirs dir path := by
  unfold owner?
  cases hfilter : dirs.filter (fun dir => contains dir path) with
  | nil =>
    refine .inl ⟨rfl, fun dir hdir => ?_⟩
    exact Bool.eq_false_iff.2 (List.filter_eq_nil_iff.1 hfilter dir hdir)
  | cons first rest =>
    obtain ⟨dir, hmem, hfold, hmax⟩ := exists_foldl_deepest rest first
    rw [← hfilter] at hmem hmax
    obtain ⟨hdir, hholds⟩ := List.mem_filter.1 hmem
    refine .inr ⟨dir, hfold, hdir, hholds, fun other hother hother' => ?_⟩
    -- both hold the path, so one is around the other, and the deeper one was taken
    rcases Path.contains_or_covers (Path.covers_of_contains hholds)
      (Path.covers_of_contains hother') with h | h
    · have hle := hmax other (List.mem_filter.2 ⟨hother, hother'⟩)
      exact absurd (depth_lt h) (Nat.not_lt.2 hle)
    · exact h

theorem owner?_eq_some {dirs : List String} {dir path : String} :
    owner? dirs path = some dir ↔ Deepest dirs dir path := by
  rcases owner?_spec dirs path with ⟨hnone, hall⟩ | ⟨dir', hsome, hdeepest⟩
  · rw [hnone]
    refine iff_of_false (fun h => by cases h) fun h => ?_
    exact absurd h.holds (Bool.eq_false_iff.1 (hall dir h.mem))
  · rw [hsome, Option.some.injEq]
    constructor
    · rintro rfl
      exact hdeepest
    · exact hdeepest.unique

theorem owns_iff {dirs : List String} {dir path : String} :
    owns dirs dir path = true ↔ Deepest dirs dir path := by
  rw [owns, Bool.and_eq_true, decide_eq_true_eq, owner?_eq_some]
  exact ⟨And.right, fun h => ⟨h.holds, h⟩⟩

instance (dirs : List String) (dir path : String) : Decidable (Deepest dirs dir path) :=
  decidable_of_iff _ owns_iff

/-! ### Roots -/

/-- A path that is mapped through the roots covers what it covers below one of them. -/
theorem mapToRoots_covers {roots : List String} (h : Separate roots) {p q : String}
    (hp : IsNormal p) (hq : IsNormal q) :
    (∃ m, mapToRoots roots p = some m ∧ covers m q = true) ↔
      ∃ root ∈ roots, covers p (join root q) = true := by
  unfold mapToRoots
  cases hfind : roots.find? fun root => covers root p with
  | some root =>
    have hroot := List.mem_of_find?_eq_some hfind
    have hcovers : covers root p = true := by simpa using List.find?_some hfind
    obtain ⟨r, hr, rfl⟩ := Path.exists_join (h.normal root hroot) hp hcovers
    -- below no other root than its own can the path cover anything
    have hinner (root' : String) (hroot' : root' ∈ roots)
        (hq' : covers (join root r) (join root' q) = true) : covers r q = true := by
      have hsame : root' = root := h.eq_of_covers hroot' hroot
        (Path.covers_join (h.normal root' hroot') hq) (Path.covers_trans hcovers hq')
      rw [hsame] at hq'
      exact (Path.covers_join_join (h.normal root hroot) hr hq).1 hq'
    simp only [Path.relative_join (h.normal root hroot) hr]
    constructor
    · rintro ⟨m, hm, hcov⟩
      cases hm
      exact ⟨root, hroot, (Path.covers_join_join (h.normal root hroot) hr hq).2 hcov⟩
    · rintro ⟨root', hroot', hcov⟩
      exact ⟨r, rfl, hinner root' hroot' hcov⟩
  | none =>
    have hnone : ∀ root ∈ roots, covers root p = false := by
      simpa using List.find?_eq_none.1 hfind
    have hany : roots.any (contains p) = true ↔ ∃ root ∈ roots, covers p (join root q) = true := by
      rw [List.any_eq_true]
      refine exists_congr fun root => and_congr_right fun hroot => ?_
      have hjoin := Path.covers_join (h.normal root hroot) hq
      constructor
      · exact fun hin => Path.covers_of_contains (Path.contains_of_contains_covers hin hjoin)
      · intro hin
        exact (Path.contains_or_covers hin hjoin).resolve_right
          (Bool.eq_false_iff.1 (hnone root hroot))
    rw [← hany]
    cases roots.any (contains p) <;> simp

/-! ### Reaching -/

/-- Whether a path of a request reaches a file of a module. -/
def Reaches (dirs roots : List String) (dir p q : String) : Prop :=
  covers p dir = true ∨
    Deepest dirs dir p ∧ ∃ root ∈ roots, covers p (join (join dir root) q) = true

variable {dirs roots : List String} {dir p q w : String}

theorem seenFrom_join (hdir : IsNormal dir) (hq : IsNormal q) : seenFrom dir (join dir q) = q := by
  rw [seenFrom, Path.relative_join hdir hq]
  rfl

theorem mapToRoots_seenFrom (hroots : Separate roots) (hdir : IsNormal dir) (hp : IsNormal p)
    (hq : IsNormal q) (hown : contains dir p = true) :
    (∃ m, mapToRoots roots (seenFrom dir p) = some m ∧ covers m q = true) ↔
      ∃ root ∈ roots, covers p (join (join dir root) q) = true := by
  obtain ⟨r, hr, rfl⟩ := Path.exists_join hdir hp (Path.covers_of_contains hown)
  rw [seenFrom_join hdir hr, mapToRoots_covers hroots hr hq]
  refine exists_congr fun root => and_congr_right fun hroot => ?_
  rw [Path.join_assoc hdir (hroots.normal root hroot) hq,
    Path.covers_join_join hdir hr ((hroots.normal root hroot).join hq)]

theorem covers_of_reaches (hroots : Separate roots) (hne : roots ≠ []) (hdir : IsNormal dir)
    (hq : IsNormal q) (h : Reaches dirs roots dir p q) :
    ∃ root ∈ roots, covers p (join (join dir root) q) = true := by
  rcases h with h | ⟨_, h⟩
  · -- a path around the module is around each of its roots
    obtain ⟨root, hroot⟩ := List.exists_mem_of_ne_nil roots hne
    have hjoin := hdir.join (hroots.normal root hroot)
    exact ⟨root, hroot, Path.covers_trans h
      (Path.covers_trans (Path.covers_join hdir (hroots.normal root hroot))
        (Path.covers_join hjoin hq))⟩
  · exact h

theorem reaches_of_covers {root : String} (hroot : root ∈ roots)
    (hown : Deepest dirs dir (join (join dir root) q))
    (h : covers p (join (join dir root) q) = true) : Reaches dirs roots dir p q := by
  rcases Path.contains_or_covers (Path.covers_of_contains hown.holds) h with hp | hp
  · exact .inr ⟨hown.around h hp, root, hroot, h⟩
  · exact .inl hp

/-! ### Selection -/

/-- A request whose paths are in normal form. -/
structure Request.Normal (r : Request) : Prop where
  subDir : IsNormal r.subDir
  paths : ∀ p ∈ r.paths, IsNormal p
  excludes : ∀ e ∈ r.excludes, IsNormal e

instance (r : Request) : Decidable r.Normal :=
  decidable_of_iff
    (IsNormal r.subDir ∧ (∀ p ∈ r.paths, IsNormal p) ∧ ∀ e ∈ r.excludes, IsNormal e)
    ⟨fun h => ⟨h.1, h.2.1, h.2.2⟩, fun h => ⟨h.subDir, h.paths, h.excludes⟩⟩

/-- Whether the target paths of a request reach a file; without any, its directory. -/
def Request.Includes (r : Request) (reaches : String → Prop) : Prop :=
  if r.paths = [] then reaches r.subDir else ∃ p ∈ r.paths, reaches p

/-- Whether a request is about a file, by what its paths reach. -/
def Request.Wants (r : Request) (reaches : String → Prop) : Prop :=
  r.Includes reaches ∧ ∀ e ∈ r.excludes, ¬ reaches e

instance (r : Request) (reaches : String → Prop) [DecidablePred reaches] :
    Decidable (r.Includes reaches) :=
  inferInstanceAs (Decidable (if r.paths = [] then reaches r.subDir else ∃ p ∈ r.paths, reaches p))

instance (r : Request) (reaches : String → Prop) [DecidablePred reaches] :
    Decidable (r.Wants reaches) :=
  inferInstanceAs (Decidable (r.Includes reaches ∧ ∀ e ∈ r.excludes, ¬ reaches e))

theorem Request.wants_congr {r : Request} {f g : String → Prop} (h : ∀ p, f p ↔ g p) :
    r.Wants f ↔ r.Wants g := by
  rw [funext fun p => propext (h p)]

/-- Whether a file of a module is selected. -/
def Targeting.selects (t : Targeting) (path : String) : Bool :=
  t.target && !coveredBy t.excludes path && (t.paths.isEmpty || coveredBy t.paths path)

theorem coveredBy_sortedSet {xs : List String} :
    coveredBy (sortedSet xs) q = true ↔ ∃ p ∈ xs, covers p q = true := by
  rw [Path.coveredBy_iff]
  exact exists_congr fun p => and_congr_left fun _ => mem_sortedSet

theorem share_eq_error (dirs : List String) (dir : String) {r : Request} :
    (∃ e, r.share dirs dir = .error e) ↔ r.file.isSome ∧ r.paths ≠ [] ∨ dir ∈ r.paths := by
  unfold Request.share
  cases hpaths : r.paths with
  | nil => cases r.file <;> simp
  | cons p ps =>
    cases r.file with
    | some file => simp
    | none =>
      by_cases hdir : dir ∈ p :: ps
      · simp [hdir]
      · simp [hdir]

/-- What the excludes of a request come to within a module. -/
def Request.excludesIn (r : Request) (dirs : List String) (dir : String) (roots : List String) :
    List String :=
  (r.excludes.filter (owns dirs dir)).filterMap fun path => mapToRoots roots (seenFrom dir path)

/-- What the target paths of a share come to within a module, unless they stand for all of it. -/
def Share.pathsIn (s : Share) (roots : List String) : List String :=
  if s.whole then [] else s.parts.filterMap (mapToRoots roots)

theorem targeting_eq_ok {r : Request} {t : Targeting} (h : r.targeting dirs dir roots = .ok t) :
    dir ∉ r.excludes ∧ ∃ s, r.share dirs dir = .ok s ∧ t.tentative = s.tentative ∧
      t.target = (s.tentative && (s.whole || !(s.pathsIn roots).isEmpty || t.file.isSome) &&
        !(r.excludes.any (fun path => contains path dir) ||
          (r.excludesIn dirs dir roots).contains ".")) ∧
      t.paths = (if (s.pathsIn roots).contains "." then [] else sortedSet (s.pathsIn roots)) ∧
      t.excludes = sortedSet ((r.excludesIn dirs dir roots).filter (· ≠ ".")) ∧
      t.file = (s.file.bind (mapToRoots roots)).filter (· ≠ ".") ∧
      t.packageFiles = (r.packageFiles && t.file.isSome) := by
  obtain ⟨s, hs, h⟩ := bind_eq_ok.1 h
  by_cases hdir : dir ∈ r.excludes
  · rw [if_pos (List.contains_iff_mem.2 hdir)] at h
    cases h
  · rw [if_neg (mt List.contains_iff_mem.1 hdir)] at h
    cases h
    exact ⟨hdir, s, hs, rfl, rfl, rfl, rfl, rfl, rfl⟩

theorem targeting_eq_error {r : Request} :
    (∃ e, r.targeting dirs dir roots = .error e) ↔
      r.file.isSome ∧ r.paths ≠ [] ∨ dir ∈ r.paths ∨ dir ∈ r.excludes := by
  rw [← or_assoc, ← share_eq_error dirs dir]
  unfold Request.targeting
  cases hshare : r.share dirs dir with
  | error e => simp [bind, Except.bind]
  | ok s =>
    by_cases hdir : dir ∈ r.excludes
    · refine iff_of_true ⟨.excludeIsModuleDir dir, ?_⟩ (.inr hdir)
      exact if_pos (List.contains_iff_mem.2 hdir)
    · refine iff_of_false ?_ (by simp [hdir])
      rintro ⟨e, he⟩
      have hok : r.excludes.contains dir ≠ true := mt List.contains_iff_mem.1 hdir
      simp only [bind, Except.bind, if_neg hok] at he
      cases he

/-- Paths of which the root stands for all of a module: those that are left cover a file. -/
theorem covered_by_parts (parts : List String) (q : String) :
    (parts ≠ [] ∧ ((if parts.contains "." then [] else sortedSet parts).isEmpty = true ∨
        coveredBy (if parts.contains "." then [] else sortedSet parts) q = true)) ↔
      ∃ m ∈ parts, covers m q = true := by
  by_cases hroot : "." ∈ parts
  · rw [if_pos (List.contains_iff_mem.2 hroot)]
    exact iff_of_true ⟨List.ne_nil_of_mem hroot, .inl rfl⟩ ⟨".", hroot, Path.root_covers q⟩
  · rw [if_neg (mt List.contains_iff_mem.1 hroot), coveredBy_sortedSet]
    constructor
    · rintro ⟨hne, hempty | hcovers⟩
      · obtain ⟨m, hm⟩ := List.exists_mem_of_ne_nil parts hne
        rw [← mem_sortedSet, List.isEmpty_iff.1 hempty] at hm
        cases hm
      · exact hcovers
    · intro hcovers
      have hne : parts ≠ [] := by
        obtain ⟨m, hm, _⟩ := hcovers
        exact List.ne_nil_of_mem hm
      exact ⟨hne, .inr hcovers⟩

/-- Whether a share of a request reaches a file of its module. -/
def Share.Reaches (s : Share) (roots : List String) (q : String) : Prop :=
  s.whole = true ∨ ∃ p ∈ s.parts, ∃ m, mapToRoots roots p = some m ∧ covers m q = true

theorem reaches_share (s : Share) (roots : List String) (q : String) :
    s.Reaches roots q ↔ (s.whole || !(s.pathsIn roots).isEmpty) = true ∧
      ((if (s.pathsIn roots).contains "." then [] else sortedSet (s.pathsIn roots)).isEmpty = true ∨
        coveredBy (if (s.pathsIn roots).contains "." then [] else sortedSet (s.pathsIn roots)) q =
          true) := by
  unfold Share.Reaches Share.pathsIn
  cases s.whole with
  | true => exact iff_of_true (.inl rfl) ⟨rfl, .inl rfl⟩
  | false =>
    have hparts := covered_by_parts (s.parts.filterMap (mapToRoots roots)) q
    simp only [List.mem_filterMap] at hparts
    simp only [Bool.false_eq_true, false_or, if_false, Bool.false_or, Bool.not_eq_true',
      List.isEmpty_eq_false_iff]
    rw [hparts]
    constructor
    · rintro ⟨p, hp, m, hm, hcovers⟩
      exact ⟨m, ⟨p, hp, hm⟩, hcovers⟩
    · rintro ⟨m, ⟨p, hp, hm⟩, hcovers⟩
      exact ⟨p, hp, m, hm, hcovers⟩

theorem Reaches.owned (hroots : Separate roots) (hdir : IsNormal dir) (hp : IsNormal p)
    (hq : IsNormal q) :
    Reaches dirs roots dir p q ↔ covers p dir = true ∨ Deepest dirs dir p ∧
      ∃ m, mapToRoots roots (seenFrom dir p) = some m ∧ covers m q = true :=
  or_congr_right <| and_congr_right fun hown =>
    (mapToRoots_seenFrom hroots hdir hp hq hown.holds).symm

theorem reaches_ofSubDir (hroots : Separate roots) (hdir : IsNormal dir) {sub : String}
    (hsub : IsNormal sub) (hq : IsNormal q) :
    ((Share.ofSubDir dirs dir sub).Reaches roots q →
        (Share.ofSubDir dirs dir sub).tentative = true) ∧
      ((Share.ofSubDir dirs dir sub).Reaches roots q ↔ Reaches dirs roots dir sub q) := by
  rw [Reaches.owned hroots hdir hsub hq]
  unfold Share.ofSubDir
  split
  · rename_i hcovers
    exact ⟨fun _ => rfl, iff_of_true (.inl rfl) (.inl hcovers)⟩
  · rename_i hcovers
    split
    · rename_i hown
      refine ⟨fun _ => rfl, ?_⟩
      simp [Share.Reaches, hcovers, owns_iff.1 hown]
    · rename_i hown
      rw [owns_iff] at hown
      simp [Share.Reaches, hcovers, hown]

theorem reaches_ofPaths (hroots : Separate roots) (hdir : IsNormal dir) {paths : List String}
    (hpaths : ∀ p ∈ paths, IsNormal p) (hnot : dir ∉ paths) (hq : IsNormal q) :
    ((Share.ofPaths dirs dir paths).Reaches roots q →
        (Share.ofPaths dirs dir paths).tentative = true) ∧
      ((Share.ofPaths dirs dir paths).Reaches roots q ↔
        ∃ p ∈ paths, Reaches dirs roots dir p q) := by
  simp only [Share.Reaches, Share.ofPaths, List.any_eq_true, List.mem_map, List.mem_filter,
    Bool.or_eq_true]
  refine ⟨?_, ?_, ?_⟩
  · rintro (hwhole | ⟨_, ⟨p, hp, _⟩, _⟩)
    · exact .inl hwhole
    · refine .inr ?_
      rw [Bool.not_eq_true', List.isEmpty_eq_false_iff]
      exact List.ne_nil_of_mem (List.mem_filter.2 hp)
  · rintro (⟨p, hp, hwhole⟩ | ⟨_, ⟨p, ⟨hp, hkept⟩, rfl⟩, hm⟩)
    · exact ⟨p, hp, .inl (Path.covers_of_contains hwhole)⟩
    · have hown := owns_iff.1 (Bool.and_eq_true_iff.1 hkept).2
      exact ⟨p, hp, (Reaches.owned hroots hdir (hpaths p hp) hq).2 (.inr ⟨hown, hm⟩)⟩
  · rintro ⟨p, hp, hreaches⟩
    rcases (Reaches.owned hroots hdir (hpaths p hp) hq).1 hreaches with hcovers | ⟨hown, hm⟩
    · refine .inl ⟨p, hp, Path.contains_iff.2 ⟨hcovers, ?_⟩⟩
      rintro rfl
      exact hnot hp
    · -- a path that the directory holds is not around the directory
      have hinside : contains p dir = false := by
        refine Bool.eq_false_iff.2 fun hin => ?_
        have hself := Path.contains_of_contains_covers hin (Path.covers_of_contains hown.holds)
        rw [Path.not_contains_self] at hself
        cases hself
      exact .inr ⟨_, ⟨p, ⟨hp, by simp [hinside, owns_iff.2 hown]⟩, rfl⟩, hm⟩

theorem file_ofSubDir (dirs : List String) (dir sub : String) :
    (Share.ofSubDir dirs dir sub).file = none := by
  unfold Share.ofSubDir
  split
  · rfl
  · split <;> rfl

theorem share_eq_ok {r : Request} {s : Share} (hfile : r.file = none)
    (h : r.share dirs dir = .ok s) :
    r.paths = [] ∧ s = .ofSubDir dirs dir r.subDir ∨
      r.paths ≠ [] ∧ dir ∉ r.paths ∧ s = .ofPaths dirs dir r.paths := by
  unfold Request.share at h
  rw [hfile] at h
  by_cases hpaths : r.paths = []
  · simp only [hpaths, List.isEmpty_nil, if_true] at h
    exact .inl ⟨hpaths, (Except.ok.inj h).symm⟩
  · simp only [List.isEmpty_eq_false_iff.2 hpaths, Bool.false_eq_true, if_false] at h
    split at h
    · cases h
    · rename_i hdir
      exact .inr ⟨hpaths, mt List.contains_iff_mem.2 hdir, (Except.ok.inj h).symm⟩

theorem file_of_share {r : Request} {s : Share} (hfile : r.file = none)
    (h : r.share dirs dir = .ok s) : s.file = none := by
  rcases share_eq_ok hfile h with ⟨_, rfl⟩ | ⟨_, _, rfl⟩
  · exact file_ofSubDir dirs dir r.subDir
  · rfl

theorem tentative_iff {r : Request} {t : Targeting} (hfile : r.file = none) (hpaths : r.paths ≠ [])
    (h : r.targeting dirs dir roots = .ok t) :
    t.tentative = true ↔ ∃ p ∈ r.paths, contains p dir = true ∨ Deepest dirs dir p := by
  obtain ⟨_, s, hs, htentative, _⟩ := targeting_eq_ok h
  rw [htentative]
  rcases share_eq_ok hfile hs with ⟨hnone, _⟩ | ⟨_, _, rfl⟩
  · exact absurd hnone hpaths
  · simp only [Share.ofPaths, Bool.or_eq_true, List.any_eq_true, Bool.not_eq_true',
      List.isEmpty_eq_false_iff_exists_mem, List.mem_filter, Bool.and_eq_true, owns_iff]
    constructor
    · rintro (⟨p, hp, hcontains⟩ | ⟨p, hp, _, hown⟩)
      · exact ⟨p, hp, .inl hcontains⟩
      · exact ⟨p, hp, .inr hown⟩
    · rintro ⟨p, hp, hcontains | hown⟩
      · exact .inl ⟨p, hp, hcontains⟩
      · cases hcontains : contains p dir with
        | true => exact .inl ⟨p, hp, hcontains⟩
        | false => exact .inr ⟨p, hp, hcontains, hown⟩

theorem reaches_of_share {r : Request} {s : Share} (hr : r.Normal) (hroots : Separate roots)
    (hdir : IsNormal dir) (hq : IsNormal q) (hfile : r.file = none)
    (hs : r.share dirs dir = .ok s) :
    (s.Reaches roots q → s.tentative = true) ∧
      (s.Reaches roots q ↔ r.Includes fun p => Reaches dirs roots dir p q) := by
  unfold Request.Includes
  rcases share_eq_ok hfile hs with ⟨hpaths, rfl⟩ | ⟨hpaths, hnot, rfl⟩
  · rw [if_pos hpaths]
    exact reaches_ofSubDir hroots hdir hr.subDir hq
  · rw [if_neg hpaths]
    exact reaches_ofPaths hroots hdir hr.paths hnot hq

/-- A module is left out as a whole, or some files of it are: those that an exclude reaches. -/
theorem reaches_exclude (dirs : List String) {r : Request} (hr : r.Normal) (hroots : Separate roots)
    (hdir : IsNormal dir) (hq : IsNormal q) (hnot : dir ∉ r.excludes) :
    ((r.excludes.any (fun path => contains path dir) ||
          (r.excludesIn dirs dir roots).contains ".") = true ∨
        coveredBy (sortedSet ((r.excludesIn dirs dir roots).filter (· ≠ "."))) q = true) ↔
      ∃ e ∈ r.excludes, Reaches dirs roots dir e q := by
  have hmem (m : String) : m ∈ r.excludesIn dirs dir roots ↔
      ∃ e ∈ r.excludes, Deepest dirs dir e ∧ mapToRoots roots (seenFrom dir e) = some m := by
    simp [Request.excludesIn, owns_iff, and_assoc]
  rw [Bool.or_eq_true, List.any_eq_true, List.contains_iff_mem, coveredBy_sortedSet, or_assoc]
  constructor
  · rintro (⟨e, he, haround⟩ | hroot | ⟨m, hm, hcovers⟩)
    · exact ⟨e, he, .inl (Path.covers_of_contains haround)⟩
    · obtain ⟨e, he, hown, hmap⟩ := (hmem _).1 hroot
      exact ⟨e, he, (Reaches.owned hroots hdir (hr.excludes e he) hq).2
        (.inr ⟨hown, ".", hmap, Path.root_covers q⟩)⟩
    · obtain ⟨e, he, hown, hmap⟩ := (hmem m).1 (List.mem_of_mem_filter hm)
      exact ⟨e, he, (Reaches.owned hroots hdir (hr.excludes e he) hq).2
        (.inr ⟨hown, m, hmap, hcovers⟩)⟩
  · rintro ⟨e, he, hreaches⟩
    rcases (Reaches.owned hroots hdir (hr.excludes e he) hq).1 hreaches with
      haround | ⟨hown, m, hmap, hcovers⟩
    · refine .inl ⟨e, he, Path.contains_iff.2 ⟨haround, ?_⟩⟩
      rintro rfl
      exact hnot he
    · have hin := (hmem m).2 ⟨e, he, hown, hmap⟩
      -- an exclude that is one of the roots is mapped to the root, and leaves out the module
      by_cases hroot : m = "."
      · exact .inr (.inl (hroot ▸ hin))
      · exact .inr (.inr ⟨m, List.mem_filter.2 ⟨hin, decide_eq_true hroot⟩, hcovers⟩)

/-- A request selects the files of a module that its target paths reach and its excludes do not. -/
theorem selects_iff {r : Request} {t : Targeting} (hr : r.Normal) (hroots : Separate roots)
    (hdir : IsNormal dir) (hq : IsNormal q) (hfile : r.file = none)
    (h : r.targeting dirs dir roots = .ok t) :
    t.selects q = true ↔ r.Wants fun p => Reaches dirs roots dir p q := by
  obtain ⟨hnot, s, hs, _, htarget, hpaths, hexcludes, htfile, _⟩ := targeting_eq_ok h
  obtain ⟨htentative, hincludes⟩ := reaches_of_share hr hroots hdir hq hfile hs
  have hexcluded := not_congr (reaches_exclude dirs hr hroots hdir hq hnot)
  have hreached := reaches_share s roots q
  have hnofile : t.file.isSome = false := by
    rw [htfile, file_of_share hfile hs]
    rfl
  rw [← hexcludes, not_or, Bool.not_eq_true, Bool.not_eq_true] at hexcluded
  rw [← hpaths] at hreached
  rw [Targeting.selects, htarget, hnofile, Bool.or_false, Bool.and_eq_true, Bool.and_eq_true,
    Bool.and_eq_true, Bool.and_eq_true, Bool.not_eq_true', Bool.not_eq_true',
    Bool.or_eq_true t.paths.isEmpty, Request.Wants, ← hincludes]
  push Not at hexcluded
  rw [← hexcluded]
  constructor
  · rintro ⟨⟨⟨⟨_, hwhole⟩, hin⟩, hout⟩, hcovered⟩
    exact ⟨hreached.2 ⟨hwhole, hcovered⟩, hin, hout⟩
  · rintro ⟨hshare, hin, hout⟩
    obtain ⟨hwhole, hcovered⟩ := hreached.1 hshare
    exact ⟨⟨⟨⟨htentative hshare, hwhole⟩, hin⟩, hout⟩, hcovered⟩

/-! ### Modules whose files lie in their own directory -/

theorem reaches_iff_covers (hdir : IsNormal dir) (hw : IsNormal w) (hown : Deepest dirs dir w) :
    Reaches dirs ["."] dir p (seenFrom dir w) ↔ covers p w = true := by
  obtain ⟨q, hq, rfl⟩ := Path.exists_join hdir hw (Path.covers_of_contains hown.holds)
  have hplace : join (join dir ".") q = join dir q := by rw [hdir.join_root]
  rw [seenFrom_join hdir hq]
  constructor
  · intro h
    obtain ⟨root, hroot, hcovers⟩ := covers_of_reaches (Path.separate_singleton Path.isNormal_root)
      (List.cons_ne_nil _ _) hdir hq h
    rw [List.mem_singleton.1 hroot, hplace] at hcovers
    exact hcovers
  · rw [← hplace] at hown ⊢
    exact reaches_of_covers (List.mem_singleton_self _) hown

/-- For modules whose files lie in their own directories, however these are nested: a request fails
for a module just if it names the module's directory, or a file and paths at the same time; and of
the files that belong to a module it selects those that lie at or inside a target path, or in the
user's directory where there are none, and neither at nor inside an exclude. -/
theorem targeting_exact {dirs : List String} (hdirs : ∀ dir ∈ dirs, IsNormal dir) {r : Request}
    (hr : r.Normal) :
    (∀ dir ∈ dirs, (∃ e, r.targeting dirs dir ["."] = .error e) ↔
      r.file.isSome ∧ r.paths ≠ [] ∨ dir ∈ r.paths ∨ dir ∈ r.excludes) ∧
    ∀ dir w t, r.file = none → IsNormal w → Deepest dirs dir w →
      r.targeting dirs dir ["."] = .ok t →
      (t.selects (seenFrom dir w) = true ↔ r.Wants fun p => covers p w = true) := by
  refine ⟨fun dir _ => targeting_eq_error, fun dir w t hfile hw hown ht => ?_⟩
  have hdir := hdirs dir hown.mem
  have hq : IsNormal (seenFrom dir w) := by
    obtain ⟨q, hq, rfl⟩ := Path.exists_join hdir hw (Path.covers_of_contains hown.holds)
    rw [seenFrom_join hdir hq]
    exact hq
  rw [selects_iff hr (Path.separate_singleton Path.isNormal_root) hdir hq hfile ht]
  exact Request.wants_congr fun p => reaches_iff_covers hdir hw hown

/-- A request for a directory and for a file, which lie in two modules of which one is nested in
the other. -/
def nestedRequest : Request := ⟨".", ["a/x", "a/b/y.schema"], ["a/x/old"], none, false⟩

theorem selects_nestedRequest :
    (∀ dir ∈ ["a", "a/b"], IsNormal dir) ∧ nestedRequest.Normal ∧
      ∃ t, nestedRequest.targeting ["a", "a/b"] "a" ["."] = .ok t ∧
        t.selects "x/y.schema" = true ∧ t.selects "x/old/z.schema" = false ∧
        (t.selects "b.schema" = true ↔ nestedRequest.Wants fun p => covers p "a/b.schema" = true) := by
  have hdirs : ∀ dir ∈ ["a", "a/b"], IsNormal dir := by decide
  have hr : nestedRequest.Normal := by decide
  obtain ⟨t, ht⟩ : ∃ t, nestedRequest.targeting ["a", "a/b"] "a" ["."] = .ok t := ⟨_, rfl⟩
  have hexact := (targeting_exact hdirs hr).2 "a"
  refine ⟨hdirs, hr, t, ht, ?_, ?_, ?_⟩
  · exact (hexact "a/x/y.schema" t rfl (by decide) (by decide) ht).2 (by decide)
  · refine Bool.eq_false_iff.2 (mt (hexact "a/x/old/z.schema" t rfl (by decide) (by decide) ht).1 ?_)
    decide
  · exact hexact "a/b.schema" t rfl (by decide) (by decide) ht

end Schemata.Workspace

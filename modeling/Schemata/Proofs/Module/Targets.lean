import Schemata.Module.View
import Schemata.Proofs.Except
import Schemata.Proofs.Sorted

/-!
# What modules and views list

A module that one can list has a file for each object. Which of them are targets is for its filter
to say. A view of several modules lists each path once, in order, and so does what is narrowed from
it.
-/

namespace Schemata.Module

open Storage

variable {w : World} {m : Module}

theorem kindOf?_eq_schema {path : String} :
    kindOf? path = some .schema ↔ Path.extension path = schemaExtension := by
  unfold kindOf?
  split
  · rename_i hschema
    exact iff_of_true rfl hschema
  · rename_i hother
    refine iff_of_false (fun h => ?_) hother
    split at h
    · cases h
    · split at h <;> cases h

/-- What the filter of a module selects, where it names no file. -/
theorem isTargetPath_eq (hfile : m.filter.file = none) (path : String) :
    m.isTargetPath w path = .ok (m.target && !Path.coveredBy m.filter.excludes path &&
      (m.filter.paths.isEmpty || Path.coveredBy m.filter.paths path)) := by
  unfold isTargetPath
  rw [hfile]
  cases m.target with
  | false => rfl
  | true => cases Path.coveredBy m.filter.excludes path <;> rfl

theorem fileOf_eq_ok {info : ObjectInfo} {f : FileInfo} :
    m.fileOf w info = .ok f ↔ ∃ kind target, kindOf? info.path = some kind ∧
      m.isTargetPath w info.path = .ok target ∧
      f = ⟨info.path, info.external, kind, target, m⟩ := by
  unfold fileOf
  cases kindOf? info.path with
  | none => simp
  | some kind =>
    simp only [Option.some.injEq, exists_and_left, exists_eq_left']
    rw [bind_eq_ok]
    refine exists_congr fun target => and_congr_right fun _ => ?_
    exact ⟨fun h => (Except.ok.inj h).symm, fun h => congrArg Except.ok h.symm⟩

theorem infos_of_walk {infos : List ObjectInfo} (hlist : m.objects w = .ok infos)
    {fs : List FileInfo} (h : m.walk w = .ok fs) :
    fs.map (fun f => (⟨f.path, f.external⟩ : ObjectInfo)) = infos := by
  obtain ⟨infos', hinfos, h⟩ := bind_eq_ok.1 h
  cases hlist.symm.trans hinfos
  refine (map_eq_of_mapM (g := fun info => info) h fun info f hf => ?_).trans (List.map_id' infos)
  obtain ⟨kind, target, _, _, rfl⟩ := fileOf_eq_ok.1 hf
  rfl

theorem mem_walk {fs : List FileInfo} (h : m.walk w = .ok fs) {infos : List ObjectInfo}
    (hlist : m.objects w = .ok infos) {f : FileInfo} (hf : f ∈ fs) :
    ∃ info ∈ infos, m.fileOf w info = .ok f := by
  obtain ⟨infos', hinfos, h⟩ := bind_eq_ok.1 h
  cases hlist.symm.trans hinfos
  exact exists_of_forall₂ (mapM_eq_ok.1 h) hf

/-- What a file of a module is, by its path. -/
theorem spec_of_mem_walk {fs : List FileInfo} (h : m.walk w = .ok fs) {f : FileInfo} (hf : f ∈ fs) :
    kindOf? f.path = some f.kind ∧ m.isTargetPath w f.path = .ok f.isTarget := by
  obtain ⟨infos, hinfos, hfs⟩ := bind_eq_ok.1 h
  obtain ⟨info, _, hfile⟩ := exists_of_forall₂ (mapM_eq_ok.1 hfs) hf
  obtain ⟨kind, target, hkind, htarget, rfl⟩ := fileOf_eq_ok.1 hfile
  exact ⟨hkind, htarget⟩

/-- Only the files of a target are targets. -/
theorem target_of_isTarget {fs : List FileInfo} (h : m.walk w = .ok fs) {f : FileInfo} (hf : f ∈ fs)
    (htarget : f.isTarget = true) : m.target = true := by
  have hpath := (spec_of_mem_walk h hf).2
  rw [htarget, isTargetPath] at hpath
  cases hm : m.target with
  | true => rfl
  | false =>
    rw [hm] at hpath
    cases hpath

theorem exists_walk {infos : List ObjectInfo} (hlist : m.objects w = .ok infos)
    (hkinds : ∀ info ∈ infos, ∃ kind, kindOf? info.path = some kind)
    (hfile : m.filter.file = none) : ∃ fs, m.walk w = .ok fs := by
  have hall : ∀ info ∈ infos, ∃ f, m.fileOf w info = .ok f := fun info hinfo => by
    obtain ⟨kind, hkind⟩ := hkinds info hinfo
    exact ⟨_, fileOf_eq_ok.2 ⟨kind, _, hkind, isTargetPath_eq hfile info.path, rfl⟩⟩
  obtain ⟨fs, hfs⟩ := exists_mapM_eq_ok hall
  exact ⟨fs, bind_eq_ok.2 ⟨infos, hlist, hfs⟩⟩

end Schemata.Module

namespace Schemata.Module.View

theorem firstOfPaths_eq (seen : List String) (fs : List FileInfo) :
    firstOfPaths seen fs = firstByKey FileInfo.path seen fs := by
  induction fs generalizing seen with
  | nil => rfl
  | cons f fs ih => rw [firstOfPaths, firstByKey, ih, ih]

theorem nodup_firstOfPaths (seen : List String) (fs : List FileInfo) :
    ((firstOfPaths seen fs).map FileInfo.path).Nodup := by
  rw [firstOfPaths_eq]
  exact nodup_firstByKey FileInfo.path seen fs

variable {w : World} {v : View}

/-- A view that holds all that its files need lists its files in the order of their paths. -/
theorem pairwise_walk (hself : v.isSelfContained = true) {fs : List FileInfo}
    (h : v.walk w = .ok fs) : (fs.map FileInfo.path).Pairwise (· < ·) := by
  induction v generalizing fs with
  | single m => cases hself
  | merged modules selfContained =>
    obtain ⟨lists, _, heq⟩ := bind_eq_ok.1 h
    cases heq
    exact pairwise_lt_sortedBy (nodup_firstOfPaths [] lists.flatten)
  | only kinds inner ih =>
    obtain ⟨all, hall, heq⟩ := bind_eq_ok.1 h
    cases heq
    exact (ih hself hall).sublist (List.filter_sublist.map FileInfo.path)

/-- The target files are those of all files that are targets. -/
theorem targets_eq (w : World) (v : View) :
    v.targets w = do return (← v.walk w).filter FileInfo.isTarget := by
  induction v with
  | single m => rfl
  | merged modules selfContained => rfl
  | only kinds inner ih =>
    rw [targets, walk, ih]
    cases inner.walk w with
    | error e => rfl
    | ok fs => exact congrArg Except.ok (List.filter_comm _ _ fs)

theorem pairwise_targets (hself : v.isSelfContained = true) {fs : List FileInfo}
    (h : v.targets w = .ok fs) : (fs.map FileInfo.path).Pairwise (· < ·) := by
  rw [targets_eq] at h
  obtain ⟨all, hall, heq⟩ := bind_eq_ok.1 h
  cases heq
  exact (pairwise_walk hself hall).sublist (List.filter_sublist.map FileInfo.path)

end Schemata.Module.View

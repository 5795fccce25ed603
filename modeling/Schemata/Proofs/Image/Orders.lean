import Schemata.Proofs.Image.Interleaving
import Schemata.Proofs.Module.Orders
import Schemata.Proofs.ModuleSet.Coverage

/-!
# Images of modules in any order

Where no two modules have a file at one path, what is built from them shows neither the order of the
modules nor that of the diagnostics of different files.
-/

namespace Schemata.Image

open Schemata.Module (Agree Unrefused Unshared)
open Module.View (opened)

/-! ### Reading -/

section Permuted

variable {w : World} {v v' : Module.View}

theorem readFile_eq (w : World) (v : Module.View) (path : String) :
    Sources.readFile w v path = do
      checkLive w
      match ← (opened (v.get w path)).mapError Error.module with
      | none => return none
      | some (info, content) =>
        return some (info, ← (Module.View.textOf info.path content).mapError .module) := by
  unfold Sources.readFile
  cases checkLive w with
  | error e => rfl
  | ok _ =>
    cases v.get w path with
    | ok r => rfl
    | error e => cases he : e.isMissing <;> simp [opened, he, bind, Except.bind, Except.mapError]; rfl

variable (h : v.Permuted v') (hshare : Unshared w (modulesOf v))

include h hshare

theorem agree_readFile (path : String) :
    Agree (Unrefused w (modulesOf v)) (Sources.readFile w v path) (Sources.readFile w v' path) := by
  rw [readFile_eq, readFile_eq]
  refine (Agree.refl _ (checkLive w)).bind fun _ => ?_
  exact ((h.agree_get hshare path).mapError _ _).bind fun _ => .refl _ _

theorem agree_loadWaves (requested : List String) (waves : Nat) (asked wave : List String)
    (s : Sources) :
    Agree (Unrefused w (modulesOf v)) (Sources.loadWaves w v requested waves asked wave s)
      (Sources.loadWaves w v' requested waves asked wave s) := by
  induction waves generalizing asked wave s with
  | zero => cases wave <;> exact .refl _ _
  | succ waves ih =>
    cases wave with
    | nil => exact .refl _ _
    | cons path wave =>
      rw [loadWaves_cons, loadWaves_cons]
      refine (Agree.refl _ (checkLive w)).bind fun _ => ?_
      refine (Module.agree_mapM (fun path => ?_) _).bind fun found => ?_
      · exact (agree_readFile h hshare path).bind fun _ => .refl _ _
      · exact (Agree.refl _ (Sources.addWave requested s found)).bind fun _ => ih _ _ _

omit hshare in
theorem length_contentsOf : (contentsOf w v).length = (contentsOf w v').length :=
  (h.perm.flatMap_right _).length_eq

theorem agree_load (requested : List String) :
    Agree (Unrefused w (modulesOf v)) (Sources.load w v requested)
      (Sources.load w v' requested) := by
  rw [Sources.load, Sources.load, length_contentsOf h]
  exact agree_loadWaves h hshare _ _ _ _ _

theorem agree_targets : Agree (Unrefused w (modulesOf v)) (v.targets w) (v'.targets w) := by
  rw [Module.View.targets_eq, Module.View.targets_eq]
  exact (h.agree_walk hshare _).bind fun _ => .refl _ _

theorem agree_build (keepPlaces : Bool) :
    Agree (Unrefused w (modulesOf v)) (build w v keepPlaces) (build w v' keepPlaces) := by
  unfold build compile
  rw [← h.isSelfContained_eq]
  split
  · exact .refl _ _
  · refine ((agree_targets h hshare).mapError _ _).bind fun targets => ?_
    simp only
    split
    · exact .refl _ _
    · refine ((agree_load h hshare _).bind fun s => .refl _ _).bind fun c => ?_
      exact .refl _ _

end Permuted

/-- What is built from modules without a common path is the same in whatever order they stand and in
whatever order the diagnostics of different files come. Where no module refuses a path that another
has, it is also built in one order only if it is built in all of them. -/
theorem build_orderFree {w : World} {s s' : ModuleSet} (hperm : s.modules.Perm s'.modules)
    (hshare : Unshared w s.modules) {σ σ' : Schedule} (hσ : σ.Fair) (hσ' : σ'.Fair)
    {v v' : Module.View} (hv : v = s.view ∧ v' = s'.view ∨ v = s.schemaView ∧ v' = s'.schemaView)
    (keepPlaces : Bool) :
    (∀ o o', buildUnder σ w v keepPlaces = .ok o → buildUnder σ' w v' keepPlaces = .ok o' →
      o = o') ∧
    (Unrefused w s.modules → ∀ o,
      buildUnder σ w v keepPlaces = .ok o ↔ buildUnder σ' w v' keepPlaces = .ok o) := by
  have hpermuted : v.Permuted v' ∧ modulesOf v = s.modules := by
    rcases hv with ⟨rfl, rfl⟩ | ⟨rfl, rfl⟩
    · exact ⟨.merged true hperm, rfl⟩
    · exact ⟨.only _ (.merged true hperm), rfl⟩
  obtain ⟨hpermuted, hmodules⟩ := hpermuted
  rw [← hmodules] at hshare ⊢
  have hagree := agree_build hpermuted hshare keepPlaces
  rw [buildUnder_eq hσ, buildUnder_eq hσ']
  exact ⟨hagree.same, hagree.given⟩

/-! ### Two faulty modules -/

open ModuleSet (ofModules workspaceModule)

/-- Two modules with a faulty file each. -/
def faulty : List Module :=
  [workspaceModule "a" [("a.schema", "import \"b.schema\"; message A \x7b C c = 1; \x7d")],
    workspaceModule "b" [("b.schema", "message B \x7b int32 n = 1; int32 m = 1; \x7d")]]

/-- The notices of a failed build. -/
def noticesIn : Outcome → List String
  | .built _ => []
  | .failed notices => notices.map Notice.text

theorem unshared_faulty : Unshared World.empty faulty := by
  have hread : ∀ m ∈ faulty, m.Readable World.empty := by decide +kernel
  have hpaths : faulty.map (Module.paths World.empty) = [["a.schema"], ["b.schema"]] := by
    decide +kernel
  refine List.pairwise_pair.2 fun path ⟨ha, hb⟩ => ?_
  have hpath := ha.mem_paths rfl (ModuleSet.proper_workspaceModule _ _ _)
    (hread _ List.mem_cons_self)
  have hpath' := hb.mem_paths rfl (ModuleSet.proper_workspaceModule _ _ _)
    (hread _ (List.mem_cons_of_mem _ List.mem_cons_self))
  obtain ⟨hfirst, hsecond⟩ := List.cons_eq_cons.1 hpaths
  rw [hfirst, List.mem_singleton] at hpath
  rw [(List.cons_eq_cons.1 hsecond).1, List.mem_singleton] at hpath'
  exact absurd (hpath.symm.trans hpath') (by decide)

theorem unrefused_faulty : Unrefused World.empty faulty := by
  have hread : ∀ m ∈ faulty, m.Readable World.empty := by decide +kernel
  intro m hm n _ _ path _ e he
  have hfiles : ∃ objects, m.files = .objects objects := by
    simp only [faulty, List.mem_cons, List.not_mem_nil, or_false] at hm
    rcases hm with rfl | rfl
    · exact ⟨_, rfl⟩
    · exact ⟨_, rfl⟩
  obtain ⟨objects, hobjects⟩ := hfiles
  exact Module.isMissing_of_objects rfl (hread m hm) hobjects he

theorem build_orderFree_faulty :
    faulty.Perm faulty.reverse ∧ Unshared World.empty faulty ∧ Unrefused World.empty faulty ∧
      Schedule.forward.Fair ∧ Schedule.backward.Fair ∧
      ∃ o, noticesIn o = ["a.schema:1:32:\"C\" is not defined",
          "b.schema:1:36:field number 1 is already used in message \"B\""] ∧
        buildUnder .forward World.empty (ofModules faulty).schemaView false = .ok o ∧
        buildUnder .backward World.empty (ofModules faulty.reverse).schemaView false = .ok o := by
  have hperm : faulty.Perm faulty.reverse := (List.reverse_perm _).symm
  have hbuilt : ((build World.empty (ofModules faulty).schemaView false).toOption.map noticesIn) =
      some ["a.schema:1:32:\"C\" is not defined",
        "b.schema:1:36:field number 1 is already used in message \"B\""] := by
    decide +kernel
  obtain ⟨o, ho, hnotices⟩ := Option.map_eq_some_iff.1 hbuilt
  have hforward := (buildUnder_eq Schedule.fair_forward _ _ _).trans (toOption_eq_some.1 ho)
  refine ⟨hperm, unshared_faulty, unrefused_faulty, Schedule.fair_forward, Schedule.fair_backward,
    o, hnotices, hforward, ?_⟩
  exact ((build_orderFree hperm
    unshared_faulty Schedule.fair_forward Schedule.fair_backward (.inr ⟨rfl, rfl⟩) false).2
    unrefused_faulty o).1 hforward

end Schemata.Image

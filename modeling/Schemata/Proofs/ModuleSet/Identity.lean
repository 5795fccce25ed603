import Schemata.Proofs.ModuleName
import Schemata.Proofs.ModuleSet.TargetFiles
import Schemata.Proofs.Sorted

/-!
# What modules of a set are known by

A module is known by its name or, if it has none, by its place. Where no place of a module without a
name reads like the name of another module, the modules of a set that is built are told apart, and
each is found by what it is known by: its ID, its name, and its place if that is not empty.
-/

namespace Schemata.ModuleSet

/-- Whether no place of a module without a name reads like the name of a module. -/
def Unmistakable (modules : List Module) : Prop :=
  ∀ m ∈ modules, m.name = none → ∀ n ∈ modules, n.name.map ModuleName.text ≠ some m.bucketId

instance (modules : List Module) : Decidable (Unmistakable modules) :=
  inferInstanceAs (Decidable (∀ m ∈ modules, m.name = none →
    ∀ n ∈ modules, n.name.map ModuleName.text ≠ some m.bucketId))

/-- Whether the modules of a set have different IDs and are found by what each has: its ID, its name,
and its place unless that is empty. -/
structure Identified (s : ModuleSet) : Prop where
  ids : (s.modules.map Module.id).Nodup
  byId : ∀ id m, s.byId? id = some m ↔ m ∈ s.modules ∧ m.id = id
  byName : ∀ name m, s.byName? name = some m ↔ m ∈ s.modules ∧ m.name = some name
  byBucketId : ∀ id m, s.byBucketId? id = some m ↔ id ≠ "" ∧ m ∈ s.modules ∧ m.bucketId = id

section Identified

variable {modules : List Module}

/-- Modules with different names, and different places where they have no names, have different IDs
unless a place reads like a name. -/
theorem nodup_ids (hnames : (modules.filterMap Module.name).Nodup)
    (hplaces : modules.Pairwise fun m n => m.name = none → n.name = none → m.bucketId ≠ n.bucketId)
    (h : Unmistakable modules) : (modules.map Module.id).Nodup := by
  have hdifferent := List.pairwise_filterMap.1 hnames
  refine List.pairwise_map.2 ((hdifferent.and hplaces).imp_of_mem ?_)
  rintro m n hm hn ⟨hname, hplace⟩
  have hnever {m n : Module} {name : ModuleName} (hm : m ∈ modules) (hn : n ∈ modules)
      (hmn : m.name = none) (hnn : n.name = some name) : m.bucketId ≠ name.text := fun heq =>
    h m hm hmn n hn (by rw [hnn, heq]; rfl)
  unfold Module.id
  cases hmn : m.name with
  | none =>
    cases hnn : n.name with
    | none => exact hplace hmn hnn
    | some name => exact hnever hm hn hmn hnn
  | some name =>
    cases hnn : n.name with
    | none => exact (hnever hn hm hnn hmn).symm
    | some name' => exact fun heq => hname name hmn name' hnn (ModuleName.text_injective heq)

theorem identified_of_nodup {s : ModuleSet} (hids : (s.modules.map Module.id).Nodup)
    (hplaces : ∀ m ∈ s.modules, ∀ n ∈ s.modules, m.bucketId ≠ "" → m.bucketId = n.bucketId → m = n) :
    Identified s := by
  constructor
  case ids => exact hids
  case byId => exact fun id m => find?_key_eq_some hids
  case byName =>
    intro name m
    rw [byName?, find?_eq_some_of_unique, decide_eq_true_eq]
    intro m hm n hn hname hname'
    exact Build.eq_of_name hids hn hm (of_decide_eq_true hname') (of_decide_eq_true hname)
  case byBucketId =>
    intro id m
    rw [byBucketId?]
    split
    · rename_i hempty
      exact iff_of_false (by simp) fun h => h.1 hempty
    · rename_i hplace
      rw [find?_eq_some_of_unique, decide_eq_true_eq, and_iff_right hplace]
      intro m hm n hn hid hid'
      have hmid : m.bucketId = id := of_decide_eq_true hid
      exact hplaces m hm n hn (hmid ▸ hplace) (hmid.trans (of_decide_eq_true hid').symm)

end Identified

namespace Build

variable {w w' : World}

theorem bucketId_of_gives_remoteModule {f : Fetched} {r : RemoteModule} {m : Module}
    (h : (remoteModule f r).Gives w m w') : m.bucketId = "" := by
  rw [remoteModule] at h
  split at h
  · exact absurd h Act.not_gives_throw
  · obtain ⟨⟨c, d⟩, w₁, _, h⟩ := Act.gives_bind.1 h
    obtain ⟨digest, w₂, _, h⟩ := Act.gives_bind.1 h
    rcases untargetIfEmpty_eq_ok (Act.gives_ofWorld.1 h).1 with rfl | ⟨rfl, _⟩
    · rfl
    · rfl

section Made

variable {provider : Provider} {rounds : Nat} {locals : List LocalModule}
  {remotes : List RemoteModule} {wanted : List Bool} {ms : List Module} {s : ModuleSet}

/-- Of the modules that are made, those without a name are local ones, each at a place of its own;
no other module has a place. -/
structure Placed (ms : List Module) : Prop where
  names : (ms.filterMap Module.name).Nodup
  apart : ms.Pairwise fun m n => m.name = none → n.name = none → m.bucketId ≠ n.bucketId
  unique : ∀ m ∈ ms, ∀ n ∈ ms, m.bucketId ≠ "" → m.bucketId = n.bucketId → m = n

theorem Made.placed (h : Made provider rounds locals remotes w wanted ms w') : Placed ms := by
  obtain ⟨f, w₁, ls, w₂, rs, hgather, hls, hrs, _, rfl⟩ := h
  obtain ⟨hchecked, hapart⟩ := apart_of_gives_gather hgather
  obtain ⟨hplaces, _, hnames, _⟩ := nodup_of_checkLocals hchecked
  have hfinished := finished_of_gives hls hrs
  have hlocal : (ls.map Module.bucketId).Nodup := by
    rwa [map_eq_of_forall₂ hfinished.locals.flip fun _ _ h => IsModuleOf.bucketId h]
  have hremote : ∀ m ∈ rs, m.bucketId = "" ∧ m.name ≠ none := fun m hm => by
    obtain ⟨r, _, _, _, hmade⟩ := exists_of_forall₂ (Act.gives_mapM hrs) hm
    refine ⟨bucketId_of_gives_remoteModule hmade, ?_⟩
    rw [(gives_remoteModule hmade).name]
    exact Option.some_ne_none _
  have hin {m : Module} (hm : m ∈ ls ++ rs) (hplace : m.bucketId ≠ "") : m ∈ ls :=
    (List.mem_append.1 hm).resolve_right fun hm => hplace (hremote m hm).1
  constructor
  case names => exact hfinished.nodup_names hnames hapart
  case apart =>
    refine List.pairwise_append.2 ⟨(List.pairwise_map.1 hlocal).imp fun h _ _ => h, ?_, ?_⟩
    · exact List.pairwise_of_forall_mem_list fun m hm _ _ hname => absurd hname (hremote m hm).2
    · exact fun _ _ n hn _ hname => absurd hname (hremote n hn).2
  case unique =>
    intro m hm n hn hplace heq
    exact List.inj_on_of_nodup_map hlocal (hin hm hplace) (hin hn (heq ▸ hplace)) heq

/-- The modules that are made are told apart unless a place reads like a name, so that only the want
of target files keeps them from being a set. In a set that is built each module is found by all that
it is known by. -/
theorem identified_build :
    (∀ wanted ms w', Made provider rounds locals remotes w wanted ms w' → Unmistakable ms →
      (ms.map Module.id).Nodup ∧ (ModuleSet.build provider rounds locals remotes).run w =
        (if wanted.any id && !ms.any Module.target then .error .noTargetFiles
          else .ok (.ofModules ms), w')) ∧
      ∀ s w', (ModuleSet.build provider rounds locals remotes).Gives w s w' → Identified s := by
  constructor
  · intro wanted ms w' hmade hunmistakable
    have hplaced := hmade.placed
    have hids := nodup_ids hplaced.names hplaced.apart hunmistakable
    refine ⟨hids, ?_⟩
    rw [hmade.run_build, make_of_nodup hids]
  · intro s w' h
    obtain ⟨_, hmade⟩ := made_of_gives_build h
    exact identified_of_nodup (nodup_ids_of_gives_build h) hmade.placed.unique

end Made

/-! ### Places that read like names -/

/-- A local module without a name. -/
def nameless (bucketId : String) : LocalModule := { localBeside with bucketId, name := none }

theorem identified_diamond : ∃ s w',
    (ModuleSet.build diamond 3 [localBeside, nameless "right"] declarations).Gives World.empty s w' ∧
      s.modules.map Module.id = [beside.name.text, "right", top.name.text, left.name.text,
        right.name.text, bottom.name.text] ∧
      Unmistakable s.modules ∧ (s.modules.map Module.id).Nodup ∧ Identified s := by
  have hids : ((ModuleSet.build diamond 3 [localBeside, nameless "right"] declarations).run
      World.empty).1.toOption.map (fun s => (s.modules.map Module.id, decide (Unmistakable s.modules))) =
        some ([beside.name.text, "right", top.name.text, left.name.text, right.name.text,
          bottom.name.text], true) := by
    decide +kernel
  obtain ⟨s, hs, hfound⟩ := Option.map_eq_some_iff.1 hids
  obtain ⟨hmodules, hunmistakable⟩ := Prod.mk.inj hfound
  have hgives : (ModuleSet.build diamond 3 [localBeside, nameless "right"] declarations).Gives
      World.empty s ((ModuleSet.build diamond 3 [localBeside, nameless "right"] declarations).run
        World.empty).2 := Prod.ext (toOption_eq_some.1 hs) rfl
  obtain ⟨_, hmade⟩ := made_of_gives_build hgives
  have hunmistakable := of_decide_eq_true hunmistakable
  exact ⟨s, _, hgives, hmodules, hunmistakable,
    (identified_build.1 _ _ _ hmade hunmistakable).1, identified_build.2 _ _ hgives⟩

/-- A place that reads like a name keeps modules that pass all checks from being a set, and an empty
place is not found. -/
theorem places_mistaken :
    checkLocals [] [] [localBeside, nameless beside.name.text] = .ok () ∧
      (match ((ModuleSet.build .none 1 [localBeside, nameless beside.name.text] []).run
          World.empty).1 with
        | .error e => some e
        | .ok _ => none) =
          some (.fault "duplicate module registry.test/acme/beside in module set") ∧
      checkLocals [] [] [nameless ""] = .ok () ∧
      ((ModuleSet.build .none 1 [nameless ""] []).run World.empty).1.toOption.map
          (fun s => (s.modules.map Module.bucketId, (s.byBucketId? "").isSome)) =
        some ([""], false) := by
  decide +kernel

end Build

end Schemata.ModuleSet

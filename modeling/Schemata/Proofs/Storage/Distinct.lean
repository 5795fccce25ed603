import Mathlib.Data.List.Nodup
import Schemata.Proofs.Storage.Views
import Schemata.Proofs.Table

/-!
# Each path is shown once

A volume shows no path twice, and neither does a view of it that only maps the paths.
-/

namespace Schemata.Storage

open Schemata.Path (IsNormal IsName join)

/-! ### Files of trees -/

mutual

theorem Node.nodup_fileNames : (node : Node) → node.Named → node.fileNames.Nodup
  | .file _, _ => by
    rw [Node.fileNames]
    exact List.nodup_singleton []
  | .folder entries, h => by
    rw [Node.Named] at h
    rw [Node.fileNames]
    exact Entries.nodup_fileNames entries h

theorem Entries.nodup_fileNames : (entries : Entries) → entries.Named → entries.fileNames.Nodup
  | .nil, _ => by
    rw [Entries.fileNames]
    exact List.nodup_nil
  | .cons name node rest, h => by
    rw [Entries.Named] at h
    obtain ⟨_, hnew, hnode, hrest⟩ := h
    rw [Entries.fileNames, List.nodup_append]
    refine ⟨?_, Entries.nodup_fileNames rest hrest, fun names hnames other hother heq => ?_⟩
    · exact (Node.nodup_fileNames node hnode).map (List.cons_injective)
    · obtain ⟨inner, _, rfl⟩ := List.mem_map.1 hnames
      subst heq
      exact Entries.find?_none_of_mem hnew hother

end

theorem Node.named_of_walkTo {node n : Node} (h : node.Named) {names : List String}
    (hwalk : node.walkTo names = .ok n) : n.Named := by
  induction names generalizing node with
  | nil =>
    cases node <;> cases hwalk <;> exact h
  | cons name names ih =>
    cases node with
    | file c => cases hwalk
    | folder entries =>
      rw [Node.Named] at h
      rw [walkTo] at hwalk
      split at hwalk
      · cases hwalk
      · split at hwalk
        · rename_i child hfind
          exact ih (Entries.named_of_find? h hfind).2 hwalk
        · cases hwalk

/-- Different names lead to different paths. -/
theorem nodup_joined {way : List String} (hway : ∀ name ∈ way, IsName name.toList) {node : Node}
    (hnode : node.Named) (hne : ∀ names ∈ node.fileNames, way ++ names ≠ []) :
    ((node.fileNames.map fun names => ObjectInfo.plain (Text.joined '/' (way ++ names))).map
      ObjectInfo.path).Nodup := by
  rw [List.map_map]
  refine (Node.nodup_fileNames node hnode).map_on fun names hnames other hother heq => ?_
  have hvalid {names : List String} (hnames : names ∈ node.fileNames) :
      ∀ name ∈ way ++ names, IsName name.toList := by
    refine List.forall_mem_append.2 ⟨hway, fun name hname => ?_⟩
    exact (Node.valid_of_mem node hnode names hnames name hname).isName
  have hcomponents := congrArg Path.components heq
  simp only [Function.comp_apply, ObjectInfo.plain] at hcomponents
  rw [components_joined (hne names hnames) (hvalid hnames),
    components_joined (hne other hother) (hvalid hother)] at hcomponents
  have htexts : Function.Injective String.toList := fun _ _ h => String.toList_inj.1 h
  exact List.append_cancel_left (List.map_injective_iff.2 htexts hcomponents)

/-! ### Volumes -/

theorem Volume.Proper.nodup_shown {v : Volume} (h : v.Proper) (dir : String) :
    ((v.tour dir).shown.map ObjectInfo.path).Nodup := by
  cases v with
  | table objects =>
    rw [Volume.tour, Tour.shown_ofInfos, List.map_map]
    have hid : ObjectInfo.path ∘ ObjectInfo.plain = id := rfl
    rw [hid, List.map_id]
    exact objects.nodup_keys.filter _
  | tree root =>
    have hvalid : root.Valid := h
    rw [Volume.tour]
    split
    · rw [Node.shown_stops]
      exact nodup_joined (fun _ hname => absurd hname List.not_mem_nil) hvalid.named
        fun names hnames => hvalid.ne_nil hnames
    · split
      · exact List.nodup_nil
      · rename_i hroot _ hcheck
        split
        · rename_i node hresolve
          obtain ⟨_, _, hwalk⟩ := bind_eq_ok.1 hresolve
          rw [Node.shown_stops]
          have hobject : IsNormal dir := by
            unfold checkObjectPath at hcheck
            split at hcheck
            · rename_i hok
              exact (Path.validateObject_eq_ok.1 hok).1
            · cases hcheck
          have hway : ∀ name ∈ Text.pieces '/' dir, IsName name.toList := by
            intro name hname
            rw [pieces_eq hroot] at hname
            obtain ⟨c, hc, rfl⟩ := List.mem_map.1 hname
            rw [String.toList_ofList]
            exact hobject c hc
          refine nodup_joined hway (Node.named_of_walkTo hvalid.named hwalk) fun names _ hnil => ?_
          have hpieces := (List.append_eq_nil_iff.1 hnil).1
          exact List.splitOn_ne_nil '/' dir.toList (List.map_eq_nil_iff.1 hpieces)
        · exact List.nodup_nil

/-! ### Views -/

theorem nodup_shown_mapped {volumes : Volumes} {inner : Bucket} {ms : List Mapper}
    (hregular : Regular volumes inner) (hms : ∀ m ∈ ms, m.Proper)
    (h : ∀ dir, IsNormal dir → ((inner.tour volumes dir).shown.map ObjectInfo.path).Nodup)
    {dir : String} (hdir : IsNormal dir) :
    (((Bucket.mapped inner ms).tour volumes dir).shown.map ObjectInfo.path).Nodup := by
  have hplace := isNormal_unmapDir hms hdir
  have hobject {info : ObjectInfo} (hinfo : info ∈ (inner.tour volumes (unmapDir ms dir)).shown) :
      IsObject info.path :=
    hregular.objects info ((hregular.below _ hplace info).1 hinfo).1
  -- what a path is mapped to tells the path
  obtain ⟨f, htour, hmapped⟩ : ∃ f : ObjectInfo → Option ObjectInfo,
      (Bucket.mapped inner ms).tour volumes dir =
        (inner.tour volumes (unmapDir ms dir)).filterMap f ∧
      ∀ info shown : ObjectInfo, IsObject info.path → f info = some shown →
        info.path = join (unmapDir ms ".") shown.path := by
    refine ⟨_, by rw [Bucket.tour], fun info shown hinfo h => ?_⟩
    cases hmap : mapPath? ms info.path with
    | none =>
      rw [hmap] at h
      cases h
    | some path =>
      simp only [hmap] at h
      split at h
      · cases h
        exact ((mapPath?_eq_some hms hinfo).1 hmap).2.1
      · cases h
  rw [htour, Tour.shown_filterMap, List.map_filterMap]
  have hdistinct := List.Pairwise.and_mem.1 (List.pairwise_map.1 (h _ hplace))
  refine hdistinct.filterMap _ fun info other hpair p hp q hq heq => ?_
  obtain ⟨hinfo, hother, hne⟩ := hpair
  obtain ⟨shown, hshown, rfl⟩ := Option.map_eq_some_iff.1 hp
  obtain ⟨shown', hshown', rfl⟩ := Option.map_eq_some_iff.1 hq
  exact hne (by
    rw [hmapped info shown (hobject hinfo) hshown, hmapped other shown' (hobject hother) hshown',
      heq])

/-- A proper bucket shows no path of a directory twice. -/
theorem nodup_shown {volumes : Volumes} : (b : Bucket) → b.Proper volumes → ∀ dir, IsNormal dir →
    ((b.tour volumes dir).shown.map ObjectInfo.path).Nodup
  | .volume index, h, dir, _ => by
    rw [Bucket.Proper] at h
    rw [Bucket.tour]
    cases hv : volumes[index]? with
    | none => exact List.nodup_nil
    | some v => exact (h v hv).nodup_shown dir
  | .objects table, h, dir, _ => by
    rw [Bucket.Proper] at h
    rw [Bucket.tour]
    exact h.nodup_shown dir
  | .mapped inner ms, h, dir, hdir => by
    rw [Bucket.Proper] at h
    exact nodup_shown_mapped (regular_of_proper inner h.1) h.2 (nodup_shown inner h.1) hdir
  | .layered layers, _, dir, _ => nodup_layered dir

/-- A proper bucket lists the paths of a directory in order, each once. -/
theorem pairwise_lt_list {volumes : Volumes} {b : Bucket} (hproper : b.Proper volumes)
    {dir : String} (hdir : IsNormal dir) {live : Bool} {infos : List ObjectInfo}
    (h : b.list volumes live dir = .ok infos) :
    (infos.map ObjectInfo.path).Pairwise (· < ·) := by
  rw [← (Bucket.list_eq_ok.1 h).2.2]
  exact pairwise_lt_sortedBy (nodup_shown b hproper dir hdir)

end Schemata.Storage

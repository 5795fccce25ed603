import Schemata.Proofs.Except
import Schemata.Proofs.Path
import Schemata.Proofs.Sorted
import Schemata.Storage.Bucket

/-!
# What buckets list

Listing a bucket gives all that its tour shows, in the order of the paths, unless the tour fails or
is stopped. A view that keeps the paths of a matcher lists and reads just these.
-/

namespace Schemata.Storage

/-! ### Tours -/

namespace Tour

/-- Whether a tour is let through: it never looks whether it is still wanted, or it is. -/
def Passes (live : Bool) (t : Tour) : Prop := live = true ∨ Stop.poll ∉ t.stops

theorem go_collect {live : Bool} (t : Tour) (stops : List Stop) (seen : List ObjectInfo)
    (h : live = true ∨ Stop.poll ∉ stops) :
    run.go (fun _ => live) (fun info seen => (.ok (), info :: seen)) t stops seen =
      (t.failure.elim (.ok ()) .error, (shown ⟨stops, none⟩).reverse ++ seen) := by
  induction stops generalizing seen with
  | nil => rfl
  | cons stop stops ih =>
    have hrest := h.imp_right fun hpoll hmem => hpoll (List.mem_cons_of_mem _ hmem)
    cases stop with
    | poll =>
      have hlive : live = true := h.resolve_right fun hpoll => hpoll List.mem_cons_self
      rw [run.go, if_pos hlive]
      exact ih seen hrest
    | visit info =>
      have hshown : shown ⟨.visit info :: stops, none⟩ = info :: shown ⟨stops, none⟩ := rfl
      rw [hshown, List.reverse_cons, List.append_assoc]
      exact ih (info :: seen) hrest

theorem go_canceled (t : Tour) (stops : List Stop) (seen : List ObjectInfo)
    (h : Stop.poll ∈ stops) :
    (run.go (fun _ => false) (fun info seen => (.ok (), info :: seen)) t stops seen).1 =
      .error .canceled := by
  induction stops generalizing seen with
  | nil => cases h
  | cons stop stops ih =>
    cases stop with
    | poll => rfl
    | visit info => exact ih (info :: seen) ((List.mem_cons.1 h).resolve_left (by simp))

theorem infos_eq_ok {live : Bool} {t : Tour} {infos : List ObjectInfo} :
    t.infos live = .ok infos ↔ Passes live t ∧ t.failure = none ∧ t.shown = infos := by
  unfold Tour.infos run
  by_cases h : Passes live t
  · rw [go_collect t t.stops [] h]
    cases hfailure : t.failure with
    | none => simp [h, shown]
    | some e => simp
  · have hlive : live = false := Bool.eq_false_iff.2 fun hlive => h (.inl hlive)
    have hpoll : Stop.poll ∈ t.stops := Decidable.not_not.1 fun hpoll => h (.inr hpoll)
    subst hlive
    have hcanceled := go_canceled t t.stops [] hpoll
    split
    · rename_i hrun
      rw [hrun] at hcanceled
      cases hcanceled
    · exact iff_of_false (fun herror => by cases herror) fun hall => h hall.1

theorem shown_filterMap (f : ObjectInfo → Option ObjectInfo) (t : Tour) :
    (t.filterMap f).shown = t.shown.filterMap f := by
  rw [shown, shown, filterMap, List.filterMap_filterMap, List.filterMap_filterMap]
  congr 1
  funext stop
  cases stop with
  | poll => rfl
  | visit info => cases h : f info <;> simp [h]

theorem passes_filterMap {live : Bool} (f : ObjectInfo → Option ObjectInfo) (t : Tour) :
    Passes live (t.filterMap f) ↔ Passes live t := by
  have hpoll : Stop.poll ∈ (t.filterMap f).stops ↔ Stop.poll ∈ t.stops := by
    rw [filterMap, List.mem_filterMap]
    constructor
    · rintro ⟨stop, hstop, heq⟩
      cases stop with
      | poll => exact hstop
      | visit info => cases hf : f info <;> simp [hf] at heq
    · exact fun hmem => ⟨.poll, hmem, rfl⟩
  unfold Passes
  rw [hpoll]

end Tour

/-! ### Listings -/

namespace Bucket

variable {volumes : Volumes} {live : Bool} {b : Bucket}

theorem list_eq_ok {dir : String} {infos : List ObjectInfo} :
    b.list volumes live dir = .ok infos ↔
      (b.tour volumes dir).Passes live ∧ (b.tour volumes dir).failure = none ∧
        sortedBy ObjectInfo.path (b.tour volumes dir).shown = infos := by
  unfold list
  cases hinfos : (b.tour volumes dir).infos live with
  | error e =>
    refine iff_of_false (fun h => by cases h) fun h => ?_
    have hok := Tour.infos_eq_ok.2 ⟨h.1, h.2.1, rfl⟩
    rw [hinfos] at hok
    cases hok
  | ok infos' =>
    obtain ⟨hpasses, hfailure, hshown⟩ := Tour.infos_eq_ok.1 hinfos
    simp [Except.map, hpasses, hfailure, hshown]

/-- A listing is in the order of the paths. -/
theorem pairwise_list {dir : String} {infos : List ObjectInfo}
    (h : b.list volumes live dir = .ok infos) :
    (infos.map ObjectInfo.path).Pairwise (· ≤ ·) := by
  rw [← (list_eq_ok.1 h).2.2, List.pairwise_map]
  exact pairwise_sortedBy ObjectInfo.path _

/-- The view of the paths that a matcher accepts. -/
def keeping (b : Bucket) (m : Matcher) : Bucket := .mapped b [.keep m]

theorem tour_keeping (m : Matcher) :
    (b.keeping m).tour volumes "." =
      (b.tour volumes ".").filterMap (Option.guard fun info => m.accepts info.path) := by
  rw [keeping, tour]
  have hdir : unmapDir [.keep m] "." = "." := rfl
  rw [hdir]
  congr 1
  funext info
  have hmap : mapPath? [.keep m] info.path =
      if m.accepts info.path then some info.path else none := by
    simp [mapPath?, Mapper.map?]
  rw [hmap]
  by_cases h : m.accepts info.path = true
  · simp [h, Path.root_covers, Option.guard]
  · simp [h, Option.guard]

theorem perm_eq_of_le {xs ys : List String} (hx : xs.Pairwise (· ≤ ·)) (hy : ys.Pairwise (· ≤ ·))
    (h : xs.Perm ys) : xs = ys :=
  h.eq_of_pairwise (fun _ _ _ _ hab hba => String.le_antisymm hab hba) hx hy

/-- A view of a matcher lists the paths that are listed without it and accepted. -/
theorem list_keeping {m : Matcher} {paths : List String} :
    (∃ infos, (b.keeping m).list volumes live "." = .ok infos ∧
        infos.map ObjectInfo.path = paths) ↔
      ∃ infos, b.list volumes live "." = .ok infos ∧
        (infos.map ObjectInfo.path).filter m.accepts = paths := by
  have hshown : ((b.keeping m).tour volumes ".").shown =
      (b.tour volumes ".").shown.filter fun info => m.accepts info.path := by
    rw [tour_keeping, Tour.shown_filterMap, List.filterMap_eq_filter]
  have hfailure : ((b.keeping m).tour volumes ".").failure = (b.tour volumes ".").failure := by
    rw [tour_keeping]
    rfl
  have hpasses : ((b.keeping m).tour volumes ".").Passes live ↔
      (b.tour volumes ".").Passes live := by
    rw [tour_keeping]
    exact Tour.passes_filterMap _ _
  have hpaths {infos infos' : List ObjectInfo}
      (h : (b.keeping m).list volumes live "." = .ok infos)
      (h' : b.list volumes live "." = .ok infos') :
      infos.map ObjectInfo.path = (infos'.map ObjectInfo.path).filter m.accepts := by
    -- both are in order, so it is enough that they hold the same paths
    refine perm_eq_of_le (pairwise_list h) ((pairwise_list h').filter _) ?_
    rw [← (list_eq_ok.1 h).2.2, ← (list_eq_ok.1 h').2.2, List.filter_map, hshown]
    have hperm := (sortedBy_perm ObjectInfo.path (b.tour volumes ".").shown).filter
      (fun info => m.accepts info.path)
    exact ((sortedBy_perm _ _).trans hperm.symm).map _
  constructor
  · rintro ⟨infos, h, rfl⟩
    obtain ⟨hthrough, hnone, _⟩ := list_eq_ok.1 h
    have hplain := list_eq_ok.2 ⟨hpasses.1 hthrough, hfailure.symm.trans hnone, rfl⟩
    exact ⟨_, hplain, (hpaths h hplain).symm⟩
  · rintro ⟨infos', h', rfl⟩
    obtain ⟨hthrough, hnone, _⟩ := list_eq_ok.1 h'
    have hkept := list_eq_ok.2 ⟨hpasses.2 hthrough, hfailure.trans hnone, rfl⟩
    exact ⟨_, hkept, hpaths hkept h'⟩

theorem read_keeping {m : Matcher} {path : String} {content : ByteArray} :
    (b.keeping m).read volumes live path = .ok content ↔
      m.accepts path = true ∧ b.read volumes live path = .ok content := by
  have hunmap : unmapPath? [.keep m] path = if m.accepts path then some path else none := by
    simp [unmapPath?, Mapper.unmap?]
  unfold read keeping
  rw [get, hunmap]
  by_cases h : m.accepts path = true
  · simp only [h, if_true, true_and]
    cases b.get volumes live path with
    | error e => simp [Except.map]
    | ok answer => simp [Except.map]
  · simp [h, Except.map]

end Bucket

end Schemata.Storage

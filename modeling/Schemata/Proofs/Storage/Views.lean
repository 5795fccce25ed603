import Mathlib.Data.List.Nodup
import Schemata.Proofs.Storage.Tree

/-!
# What views show

The objects that a bucket shows of a directory are those that it shows of the root and that the
directory covers. This holds of volumes whose paths are valid, and of every view of them.
-/

namespace Schemata.Storage

open Schemata.Path (IsNormal contains covers join)

/-- A path that names an object. -/
def IsObject (p : String) : Prop := IsNormal p ∧ p ≠ "."

instance (p : String) : Decidable (IsObject p) := inferInstanceAs (Decidable (_ ∧ _))

theorem checkObjectPath_eq_ok {p : String} {u : Unit} : checkObjectPath p = .ok u ↔ IsObject p := by
  rw [IsObject, ← Path.validateObject_eq_ok, checkObjectPath]
  split
  · rename_i h
    exact iff_of_true rfl h
  · rename_i h
    refine iff_of_false (fun herror => by cases herror) fun hok => ?_
    cases h.symm.trans hok

theorem isObject_join {a b : String} (ha : IsNormal a) (hb : IsObject b) : IsObject (join a b) :=
  ⟨ha.join hb.1, Path.join_ne_root ha hb.1 hb.2⟩

/-! ### Mapped paths -/

/-- A step whose directory is in normal form. -/
def Mapper.Proper : Mapper → Prop
  | .strip dir => IsNormal dir
  | .keep _ => True

/-- Whether every matcher accepts a path on its way into a view. -/
def Passes : List Mapper → String → Prop
  | [], _ => True
  | .strip _ :: ms, p => Passes ms p
  | .keep m :: ms, p => m.accepts (join (unmapDir ms ".") p) = true ∧ Passes ms p

theorem unmapDir_cons (m : Mapper) (ms : List Mapper) (dir : String) :
    unmapDir (m :: ms) dir = m.unmapDir (unmapDir ms dir) := by
  simp [unmapDir]

theorem mapPath?_cons (m : Mapper) (ms : List Mapper) (path : String) :
    mapPath? (m :: ms) path = (m.map? path).bind (mapPath? ms) := rfl

theorem isNormal_unmapDir {ms : List Mapper} (h : ∀ m ∈ ms, m.Proper) {dir : String}
    (hdir : IsNormal dir) : IsNormal (unmapDir ms dir) := by
  induction ms with
  | nil => exact hdir
  | cons m ms ih =>
    obtain ⟨hm, hms⟩ := List.forall_mem_cons.1 h
    rw [unmapDir_cons]
    cases m with
    | strip d => exact Path.IsNormal.join hm (ih hms)
    | keep m => exact ih hms

/-- A directory of a view stands for the one below the view's own. -/
theorem unmapDir_eq {ms : List Mapper} (h : ∀ m ∈ ms, m.Proper) {dir : String}
    (hdir : IsNormal dir) : unmapDir ms dir = join (unmapDir ms ".") dir := by
  induction ms with
  | nil => exact (Path.root_join dir).symm
  | cons m ms ih =>
    obtain ⟨hm, hms⟩ := List.forall_mem_cons.1 h
    have hbase := isNormal_unmapDir hms Path.isNormal_root
    rw [unmapDir_cons, unmapDir_cons, ih hms]
    cases m with
    | strip d => exact (Path.join_assoc hm hbase hdir).symm
    | keep m => rfl

theorem Mapper.map?_strip {dir x y : String} (hdir : IsNormal dir) (hx : IsObject x) :
    (Mapper.strip dir).map? x = some y ↔ IsObject y ∧ x = join dir y := by
  simp only [Mapper.map?]
  constructor
  · intro h
    split at h
    · rename_i hin
      obtain ⟨r, hr, rfl⟩ := Path.exists_join hdir hx.1 (Path.covers_of_contains hin)
      rw [Path.relative_join hdir hr] at h
      cases h
      refine ⟨⟨hr, ?_⟩, rfl⟩
      rintro rfl
      rw [hdir.join_root, Path.not_contains_self] at hin
      cases hin
    · cases h
  · rintro ⟨hy, rfl⟩
    rw [if_pos (Path.contains_join hdir hy.1 hy.2), Path.relative_join hdir hy.1]
    rfl

/-- A view shows an object under its path below the view's directory, if the matchers accept it. -/
theorem mapPath?_eq_some {ms : List Mapper} (h : ∀ m ∈ ms, m.Proper) {x p : String}
    (hx : IsObject x) :
    mapPath? ms x = some p ↔ IsObject p ∧ x = join (unmapDir ms ".") p ∧ Passes ms p := by
  induction ms generalizing x with
  | nil =>
    simp only [mapPath?, List.foldlM_nil, pure, Option.some.injEq, Passes, and_true]
    constructor
    · rintro rfl
      exact ⟨hx, (Path.root_join x).symm⟩
    · rintro ⟨_, hp⟩
      exact hp.trans (Path.root_join p)
  | cons m ms ih =>
    obtain ⟨hm, hms⟩ := List.forall_mem_cons.1 h
    have hbase := isNormal_unmapDir hms Path.isNormal_root
    rw [mapPath?_cons, Option.bind_eq_some_iff, unmapDir_cons]
    cases m with
    | strip dir =>
      simp only [Mapper.map?_strip hm hx, Mapper.unmapDir, Passes]
      constructor
      · rintro ⟨y, ⟨hy, rfl⟩, hmap⟩
        obtain ⟨hp, rfl, hpass⟩ := (ih hms hy).1 hmap
        exact ⟨hp, (Path.join_assoc hm hbase hp.1).symm, hpass⟩
      · rintro ⟨hp, rfl, hpass⟩
        have hy := isObject_join hbase hp
        exact ⟨_, ⟨hy, Path.join_assoc hm hbase hp.1⟩, (ih hms hy).2 ⟨hp, rfl, hpass⟩⟩
    | keep m =>
      simp only [Mapper.map?, Mapper.unmapDir, Passes]
      constructor
      · rintro ⟨y, hy, hmap⟩
        split at hy
        · rename_i haccepts
          cases hy
          obtain ⟨hp, rfl, hpass⟩ := (ih hms hx).1 hmap
          exact ⟨hp, rfl, haccepts, hpass⟩
        · cases hy
      · rintro ⟨hp, rfl, haccepts, hpass⟩
        exact ⟨_, if_pos haccepts, (ih hms hx).2 ⟨hp, rfl, hpass⟩⟩

/-! ### Tours of some objects -/

theorem Tour.shown_ofInfos (infos : List ObjectInfo) : (ofInfos infos).shown = infos := by
  induction infos with
  | nil => rfl
  | cons info infos ih => exact congrArg (info :: ·) ih

/-! ### The first of each path -/

theorem shown_firstOfPath (seen : List String) (stops : List Stop) (failure : Option Error) :
    Tour.shown ⟨Tour.firstOfPath seen stops, failure⟩ =
      firstByKey ObjectInfo.path seen (Tour.shown ⟨stops, failure⟩) := by
  induction stops generalizing seen with
  | nil => rfl
  | cons stop stops ih =>
    cases stop with
    | poll => exact ih seen
    | visit info =>
      have hshown : Tour.shown ⟨.visit info :: stops, failure⟩ =
          info :: Tour.shown ⟨stops, failure⟩ := rfl
      rw [hshown, firstByKey, Tour.firstOfPath]
      split
      · exact ih seen
      · exact congrArg (info :: ·) (ih (info.path :: seen))

/-! ### Regular buckets -/

/-- Whether a bucket shows an object. -/
def Bucket.Shows (volumes : Volumes) (b : Bucket) (info : ObjectInfo) : Prop :=
  info ∈ (b.tour volumes ".").shown

instance (volumes : Volumes) (b : Bucket) (info : ObjectInfo) : Decidable (b.Shows volumes info) :=
  inferInstanceAs (Decidable (info ∈ _))

/-- A bucket that shows of every directory what it shows of the root and the directory covers: one
object for a path. -/
structure Regular (volumes : Volumes) (b : Bucket) : Prop where
  complete : ∀ dir, IsNormal dir → (b.tour volumes dir).failure = none
  below : ∀ dir, IsNormal dir → ∀ info, info ∈ (b.tour volumes dir).shown ↔
    b.Shows volumes info ∧ covers dir info.path = true
  objects : ∀ info, b.Shows volumes info → IsObject info.path
  unique : ∀ info other, b.Shows volumes info → b.Shows volumes other →
    info.path = other.path → info = other

section Mapped

variable {volumes : Volumes} {inner : Bucket} {ms : List Mapper}

theorem mem_shown_mapped (h : Regular volumes inner) (hms : ∀ m ∈ ms, m.Proper) {dir : String}
    (hdir : IsNormal dir) {info : ObjectInfo} :
    info ∈ ((Bucket.mapped inner ms).tour volumes dir).shown ↔
      (IsObject info.path ∧ Passes ms info.path ∧
        inner.Shows volumes ⟨join (unmapDir ms ".") info.path, info.external⟩) ∧
      covers dir info.path = true := by
  have hbase := isNormal_unmapDir hms Path.isNormal_root
  rw [Bucket.tour, Tour.shown_filterMap, List.mem_filterMap, unmapDir_eq hms hdir]
  simp only [h.below _ (hbase.join hdir)]
  constructor
  · rintro ⟨object, ⟨hshows, _⟩, hinfo⟩
    cases hmap : mapPath? ms object.path with
    | none =>
      rw [hmap] at hinfo
      cases hinfo
    | some p =>
      obtain ⟨hp, hpath, hpass⟩ := (mapPath?_eq_some hms (h.objects object hshows)).1 hmap
      simp only [hmap] at hinfo
      split at hinfo
      · rename_i hcovers
        cases hinfo
        refine ⟨⟨hp, hpass, ?_⟩, hcovers⟩
        rw [← hpath]
        exact hshows
      · cases hinfo
  · rintro ⟨⟨hp, hpass, hshows⟩, hcovers⟩
    have hmap := (mapPath?_eq_some hms (h.objects _ hshows)).2 ⟨hp, rfl, hpass⟩
    refine ⟨_, ⟨hshows, (Path.covers_join_join hbase hdir hp.1).2 hcovers⟩, ?_⟩
    simp only [hmap, hcovers, if_true]

theorem shows_mapped (h : Regular volumes inner) (hms : ∀ m ∈ ms, m.Proper) {info : ObjectInfo} :
    (Bucket.mapped inner ms).Shows volumes info ↔
      IsObject info.path ∧ Passes ms info.path ∧
        inner.Shows volumes ⟨join (unmapDir ms ".") info.path, info.external⟩ := by
  rw [Bucket.Shows, mem_shown_mapped h hms Path.isNormal_root]
  simp

theorem regular_mapped (h : Regular volumes inner) (hms : ∀ m ∈ ms, m.Proper) :
    Regular volumes (.mapped inner ms) := by
  constructor
  case complete =>
    intro dir hdir
    rw [Bucket.tour]
    exact h.complete _ (isNormal_unmapDir hms hdir)
  case below =>
    intro dir hdir info
    rw [mem_shown_mapped h hms hdir, shows_mapped h hms]
  case objects => exact fun info hinfo => ((shows_mapped h hms).1 hinfo).1
  case unique =>
    intro info other hinfo hother hpath
    have hsame := h.unique _ _ ((shows_mapped h hms).1 hinfo).2.2
      ((shows_mapped h hms).1 hother).2.2 (congrArg (join (unmapDir ms ".")) hpath)
    cases info
    cases other
    cases hpath
    cases hsame
    rfl

end Mapped

section Layered

variable {volumes : Volumes} {b : Bucket} {bs : List Bucket}

theorem shown_append {s t : Tour} (h : s.failure = none) :
    (s.append t).shown = s.shown ++ t.shown := by
  unfold Tour.append
  rw [h]
  exact List.filterMap_append

/-- What layers show of a directory: what the first shows, then what the others show besides. -/
theorem mem_shown_layered_cons (h : Regular volumes b) {dir : String} (hdir : IsNormal dir)
    {info : ObjectInfo} :
    info ∈ ((Bucket.layered (b :: bs)).tour volumes dir).shown ↔
      info ∈ (b.tour volumes dir).shown ∨
        (∀ other ∈ (b.tour volumes dir).shown, other.path ≠ info.path) ∧
          info ∈ ((Bucket.layered bs).tour volumes dir).shown := by
  have hlayered (layers : List Bucket) :
      ((Bucket.layered layers).tour volumes dir).shown =
        firstByKey ObjectInfo.path [] (Bucket.tourOfEach volumes layers dir).shown := by
    rw [Bucket.tour]
    exact shown_firstOfPath [] _ _
  -- a layer has one object for a path, so any object of a path is the first
  have hfirst : (b.tour volumes dir).shown.find? (fun i => i.path = info.path) = some info ↔
      info ∈ (b.tour volumes dir).shown := by
    constructor
    · exact List.mem_of_find?_eq_some
    · intro hmem
      cases hfind : (b.tour volumes dir).shown.find? (fun i => i.path = info.path) with
      | none => simpa using List.find?_eq_none.1 hfind info hmem
      | some other =>
        have hpath : other.path = info.path := by simpa using List.find?_some hfind
        have hother := List.mem_of_find?_eq_some hfind
        rw [h.unique other info ((h.below dir hdir other).1 hother).1
          ((h.below dir hdir info).1 hmem).1 hpath]
  rw [hlayered, hlayered, mem_firstByKey, mem_firstByKey, Bucket.tourOfEach,
    shown_append (h.complete dir hdir), List.find?_append, Option.or_eq_some_iff, hfirst,
    List.find?_eq_none]
  simp

theorem shows_layered_cons (h : Regular volumes b) {info : ObjectInfo} :
    (Bucket.layered (b :: bs)).Shows volumes info ↔
      b.Shows volumes info ∨ (∀ other, b.Shows volumes other → other.path ≠ info.path) ∧
        (Bucket.layered bs).Shows volumes info :=
  mem_shown_layered_cons h Path.isNormal_root

theorem not_shows_layered_nil {info : ObjectInfo} : ¬ (Bucket.layered []).Shows volumes info := by
  rw [Bucket.Shows, Bucket.tour, Bucket.tourOfEach]
  exact List.not_mem_nil

theorem exists_of_shows_layered (h : ∀ b ∈ bs, Regular volumes b) {info : ObjectInfo}
    (hinfo : (Bucket.layered bs).Shows volumes info) : ∃ b ∈ bs, b.Shows volumes info := by
  induction bs with
  | nil => exact absurd hinfo not_shows_layered_nil
  | cons b bs ih =>
    obtain ⟨hb, hbs⟩ := List.forall_mem_cons.1 h
    rcases (shows_layered_cons hb).1 hinfo with hin | ⟨_, hin⟩
    · exact ⟨b, List.mem_cons_self, hin⟩
    · obtain ⟨b', hb', hin⟩ := ih hbs hin
      exact ⟨b', List.mem_cons_of_mem _ hb', hin⟩

/-- Of layers in the order of a key the one of the smallest key serves a path. -/
theorem shows_layers_of_keys {β : Type} {entries : List (String × β)} {f : String × β → Bucket}
    (hordered : entries.Pairwise fun a b => a.1 < b.1) (h : ∀ e ∈ entries, Regular volumes (f e))
    {info : ObjectInfo} (hrest : ¬ (Bucket.layered bs).Shows volumes info) :
    (Bucket.layered (entries.map f ++ bs)).Shows volumes info ↔
      ∃ e ∈ entries, (f e).Shows volumes info ∧ ∀ e' ∈ entries, e'.1 < e.1 →
        ∀ other, (f e').Shows volumes other → other.path ≠ info.path := by
  -- the first entry has the smallest key, so its layer serves a path before all others
  induction entries with
  | nil => simp [hrest]
  | cons e entries ih =>
    obtain ⟨hlt, hordered⟩ := List.pairwise_cons.1 hordered
    obtain ⟨he, hentries⟩ := List.forall_mem_cons.1 h
    rw [List.map_cons, List.cons_append, shows_layered_cons he, ih hordered hentries]
    constructor
    · rintro (hin | ⟨hnone, k, hk, hin, hfirst⟩)
      · refine ⟨e, List.mem_cons_self, hin, fun k hk hless => ?_⟩
        rcases List.mem_cons.1 hk with rfl | hk
        · exact absurd hless (String.lt_irrefl _)
        · exact absurd hless (String.lt_asymm (hlt k hk))
      · refine ⟨k, List.mem_cons_of_mem _ hk, hin, List.forall_mem_cons.2 ⟨fun _ => hnone, ?_⟩⟩
        exact hfirst
    · rintro ⟨k, hk, hin, hfirst⟩
      obtain ⟨hnone, hfirst⟩ := List.forall_mem_cons.1 hfirst
      rcases List.mem_cons.1 hk with rfl | hk
      · exact .inl hin
      · exact .inr ⟨hnone (hlt k hk), k, hk, hin, hfirst⟩

theorem nodup_layered (dir : String) :
    (((Bucket.layered bs).tour volumes dir).shown.map ObjectInfo.path).Nodup := by
  have hshown : ((Bucket.layered bs).tour volumes dir).shown =
      firstByKey ObjectInfo.path [] (Bucket.tourOfEach volumes bs dir).shown := by
    rw [Bucket.tour]
    exact shown_firstOfPath [] _ _
  rw [hshown]
  exact nodup_firstByKey _ _ _

theorem regular_layered_nil : Regular volumes (.layered []) := by
  have hnone (dir : String) : ((Bucket.layered []).tour volumes dir).shown = [] := by
    rw [Bucket.tour, Bucket.tourOfEach]
    rfl
  have hshows (info : ObjectInfo) : ¬ (Bucket.layered []).Shows volumes info :=
    not_shows_layered_nil
  constructor
  case complete =>
    intro dir _
    rw [Bucket.tour, Bucket.tourOfEach]
    rfl
  case below =>
    intro dir _ info
    rw [hnone]
    exact iff_of_false List.not_mem_nil fun hin => hshows info hin.1
  case objects => exact fun info hinfo => absurd hinfo (hshows info)
  case unique => exact fun info _ hinfo => absurd hinfo (hshows info)

theorem regular_layered_cons {b : Bucket} (hb : Regular volumes b)
    (hrest : Regular volumes (.layered bs)) : Regular volumes (.layered (b :: bs)) := by
  constructor
  case complete =>
    intro dir hdir
    have hcomplete := hrest.complete dir hdir
    rw [Bucket.tour] at hcomplete ⊢
    rw [Bucket.tourOfEach, Tour.append, hb.complete dir hdir]
    exact hcomplete
  case below =>
    intro dir hdir info
    rw [mem_shown_layered_cons hb hdir, shows_layered_cons hb, hb.below dir hdir,
      hrest.below dir hdir]
    simp only [hb.below dir hdir]
    constructor
    · rintro (⟨hin, hcovers⟩ | ⟨hnot, hin, hcovers⟩)
      · exact ⟨.inl hin, hcovers⟩
      · -- an earlier object of the same path is covered by the same directory
        refine ⟨.inr ⟨fun other hother hpath => ?_, hin⟩, hcovers⟩
        exact hnot other ⟨hother, hpath ▸ hcovers⟩ hpath
    · rintro ⟨hin | ⟨hnot, hin⟩, hcovers⟩
      · exact .inl ⟨hin, hcovers⟩
      · exact .inr ⟨fun other hother => hnot other hother.1, hin, hcovers⟩
  case objects =>
    intro info hinfo
    rcases (shows_layered_cons hb).1 hinfo with hin | ⟨_, hin⟩
    · exact hb.objects info hin
    · exact hrest.objects info hin
  case unique =>
    intro info other hinfo hother hpath
    exact List.inj_on_of_nodup_map (nodup_layered ".") hinfo hother hpath

theorem regular_layered (h : ∀ b ∈ bs, Regular volumes b) : Regular volumes (.layered bs) := by
  induction bs with
  | nil => exact regular_layered_nil
  | cons b bs ih =>
    obtain ⟨hb, hbs⟩ := List.forall_mem_cons.1 h
    exact regular_layered_cons hb (ih hbs)

end Layered

/-! ### Proper buckets -/

/-- A volume that holds its objects under valid paths. -/
def Volume.Proper : Volume → Prop
  | .table objects => ∀ key ∈ objects.keys, IsObject key
  | .tree root => root.Valid

mutual

/-- A view of proper volumes, of which only directories in normal form are mapped. -/
def Bucket.Proper (volumes : Volumes) : Bucket → Prop
  | .volume index => ∀ v, volumes[index]? = some v → v.Proper
  | .objects table => (Volume.table table).Proper
  | .mapped inner ms => inner.Proper volumes ∧ ∀ m ∈ ms, m.Proper
  | .layered layers => Bucket.ProperEach volumes layers

def Bucket.ProperEach (volumes : Volumes) : List Bucket → Prop
  | [] => True
  | b :: bs => b.Proper volumes ∧ Bucket.ProperEach volumes bs

end

theorem Bucket.properEach_iff {volumes : Volumes} {bs : List Bucket} :
    Bucket.ProperEach volumes bs ↔ ∀ b ∈ bs, b.Proper volumes := by
  induction bs with
  | nil => simp [Bucket.ProperEach]
  | cons b bs ih => simp [Bucket.ProperEach, ih]

theorem Volume.Proper.regular {v : Volume} (h : v.Proper) {volumes : Volumes} {b : Bucket}
    (hb : ∀ dir, b.tour volumes dir = v.tour dir) : Regular volumes b := by
  have hplain : ∀ info, b.Shows volumes info → info = .plain info.path ∧ IsObject info.path := by
    intro info hinfo
    rw [Bucket.Shows, hb] at hinfo
    cases v with
    | table objects =>
      rw [Volume.tour, Tour.shown_ofInfos, List.mem_map] at hinfo
      obtain ⟨key, hkey, rfl⟩ := hinfo
      exact ⟨rfl, h key (List.mem_of_mem_filter hkey)⟩
    | tree root =>
      obtain ⟨names, hnames, rfl⟩ := Node.mem_shown.1 hinfo
      exact ⟨rfl, Node.Valid.isObject h hnames⟩
  constructor
  case complete =>
    intro dir hdir
    rw [hb]
    cases v with
    | table objects => rfl
    | tree root => exact Node.tour_failure hdir
  case below =>
    intro dir hdir info
    rw [Bucket.Shows, hb, hb]
    cases v with
    | table objects =>
      simp only [Volume.tour, Tour.shown_ofInfos, List.mem_map, List.mem_filter]
      constructor
      · rintro ⟨key, ⟨hkey, hcovers⟩, rfl⟩
        exact ⟨⟨key, ⟨hkey, Path.root_covers key⟩, rfl⟩, hcovers⟩
      · rintro ⟨⟨key, ⟨hkey, _⟩, rfl⟩, hcovers⟩
        exact ⟨key, ⟨hkey, hcovers⟩, rfl⟩
    | tree root => exact Node.Valid.mem_shown_dir h hdir
  case objects => exact fun info hinfo => (hplain info hinfo).2
  case unique =>
    intro info other hinfo hother hpath
    rw [(hplain info hinfo).1, (hplain other hother).1, hpath]

theorem regular_empty {volumes : Volumes} {b : Bucket}
    (hb : ∀ dir, b.tour volumes dir = ⟨[], none⟩) : Regular volumes b :=
  Volume.Proper.regular (v := .table .empty) (fun _ hkey => absurd hkey List.not_mem_nil) hb

mutual

theorem regular_of_proper {volumes : Volumes} : (b : Bucket) → b.Proper volumes →
    Regular volumes b
  | .volume index, h => by
    rw [Bucket.Proper] at h
    cases hv : volumes[index]? with
    | none =>
      refine regular_empty fun dir => ?_
      rw [Bucket.tour, hv]
    | some v =>
      refine (h v hv).regular fun dir => ?_
      rw [Bucket.tour, hv]
  | .objects table, h => by
    rw [Bucket.Proper] at h
    refine h.regular fun dir => ?_
    rw [Bucket.tour]
  | .mapped inner ms, h => by
    rw [Bucket.Proper] at h
    exact regular_mapped (regular_of_proper inner h.1) h.2
  | .layered layers, h => by
    rw [Bucket.Proper] at h
    exact regular_layered (regular_of_properEach layers h)

theorem regular_of_properEach {volumes : Volumes} : (bs : List Bucket) →
    Bucket.ProperEach volumes bs → ∀ b ∈ bs, Regular volumes b
  | [], _, _, hb => absurd hb List.not_mem_nil
  | first :: bs, h, b, hb => by
    rw [Bucket.ProperEach] at h
    rcases List.mem_cons.1 hb with heq | hb
    · rw [heq]
      exact regular_of_proper first h.1
    · exact regular_of_properEach bs h.2 b hb

end

/-! ### Listings -/

/-- A regular bucket that is still wanted lists just what it shows. -/
theorem exists_list {volumes : Volumes} {b : Bucket} (h : Regular volumes b) :
    ∃ infos, b.list volumes true "." = .ok infos ∧ ∀ info, info ∈ infos ↔ b.Shows volumes info :=
  ⟨_, Bucket.list_eq_ok.2 ⟨.inl rfl, h.complete "." Path.isNormal_root, rfl⟩,
    fun _ => mem_sortedBy⟩

end Schemata.Storage

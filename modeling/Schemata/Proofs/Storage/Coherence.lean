import Schemata.Proofs.Storage.Distinct
import Schemata.Proofs.Storage.Reading

/-!
# Views of memory are coherent

A bucket made of tables finds the objects that it lists, and no others; and what it lists of a
directory is what it lists of the root and the directory covers. Only the root itself and the empty
path are other than they seem: they lead a view to the directory that it strips, and there may be an
object in its place.
-/

namespace Schemata.Storage

open Schemata.Path (IsNormal join covers)

/-! ### Buckets in memory -/

mutual

/-- A view of tables whose objects have valid paths, of which only directories in normal form are
mapped. -/
def Bucket.InMemory (volumes : Volumes) : Bucket → Prop
  | .volume index => ∃ table, volumes[index]? = some (.table table) ∧ (Volume.table table).Proper
  | .objects table => (Volume.table table).Proper
  | .mapped inner ms => inner.InMemory volumes ∧ ∀ m ∈ ms, m.Proper
  | .layered layers => Bucket.InMemoryEach volumes layers

def Bucket.InMemoryEach (volumes : Volumes) : List Bucket → Prop
  | [] => True
  | b :: bs => b.InMemory volumes ∧ Bucket.InMemoryEach volumes bs

end

mutual

theorem Bucket.InMemory.proper {volumes : Volumes} : (b : Bucket) → b.InMemory volumes →
    b.Proper volumes
  | .volume index, h => by
    rw [Bucket.InMemory] at h
    obtain ⟨table, htable, hproper⟩ := h
    rw [Bucket.Proper]
    intro v hv
    cases htable.symm.trans hv
    exact hproper
  | .objects table, h => by
    rw [Bucket.InMemory] at h
    rwa [Bucket.Proper]
  | .mapped inner ms, h => by
    rw [Bucket.InMemory] at h
    rw [Bucket.Proper]
    exact ⟨Bucket.InMemory.proper inner h.1, h.2⟩
  | .layered layers, h => by
    rw [Bucket.InMemory] at h
    rw [Bucket.Proper]
    exact Bucket.InMemoryEach.proper layers h

theorem Bucket.InMemoryEach.proper {volumes : Volumes} : (bs : List Bucket) →
    Bucket.InMemoryEach volumes bs → Bucket.ProperEach volumes bs
  | [], _ => by
    rw [Bucket.ProperEach]
    trivial
  | b :: bs, h => by
    rw [Bucket.InMemoryEach] at h
    rw [Bucket.ProperEach]
    exact ⟨Bucket.InMemory.proper b h.1, Bucket.InMemoryEach.proper bs h.2⟩

end

theorem Volume.get_table (objects : Objects) (path : String) :
    (Volume.table objects).get true path =
      match objects.find? path with
      | some content => .ok (.plain path, content)
      | none => .error (.missing path) := by
  rw [Volume.get]
  cases objects.find? path <;> rfl

theorem Volume.eq_missing_of_get_table {objects : Objects} {path : String} {e : Error}
    (h : (Volume.table objects).get true path = .error e) : e = .missing path := by
  rw [get_table] at h
  split at h
  · cases h
  · cases h
    rfl

mutual

/-- A bucket in memory refuses a path only because there is nothing. -/
theorem eq_missing_of_get {volumes : Volumes} : (b : Bucket) → b.InMemory volumes →
    ∀ path e, b.get volumes true path = .error e → e = .missing path
  | .volume index, h, path, e, hget => by
    rw [Bucket.InMemory] at h
    obtain ⟨table, htable, _⟩ := h
    rw [Bucket.get, htable] at hget
    exact Volume.eq_missing_of_get_table hget
  | .objects table, _, path, e, hget => by
    rw [Bucket.get] at hget
    exact Volume.eq_missing_of_get_table hget
  | .mapped inner ms, h, path, e, hget => by
    rw [Bucket.InMemory] at h
    rw [Bucket.get] at hget
    split at hget
    · cases hget
      rfl
    · rename_i place hplace
      split at hget
      · cases hget
      · rename_i e' hinner
        cases hget
        rw [eq_missing_of_get inner h.1 place e' hinner]
        rfl
  | .layered layers, h, path, e, hget => by
    rw [Bucket.InMemory] at h
    rw [Bucket.get] at hget
    exact eq_missing_of_getFirst layers h path e hget

theorem eq_missing_of_getFirst {volumes : Volumes} : (bs : List Bucket) →
    Bucket.InMemoryEach volumes bs →
      ∀ path e, Bucket.getFirst volumes true bs path = .error e → e = .missing path
  | [], _, path, e, hget => by
    rw [Bucket.getFirst] at hget
    cases hget
    rfl
  | b :: bs, h, path, e, hget => by
    rw [Bucket.InMemoryEach] at h
    rw [Bucket.getFirst] at hget
    split at hget
    · exact eq_missing_of_getFirst bs h.2 path e hget
    · exact eq_missing_of_get b h.1 path e hget

end

/-! ### What serves a path -/

/-- Whether a bucket shows an object under a path. -/
def Bucket.holds (volumes : Volumes) (b : Bucket) (path : String) : Bool :=
  ((b.tour volumes ".").shown.map ObjectInfo.path).contains path

theorem Bucket.holds_iff {volumes : Volumes} {b : Bucket} {path : String} :
    b.holds volumes path = true ↔ ∃ info, b.Shows volumes info ∧ info.path = path := by
  rw [holds, List.contains_iff_mem, List.mem_map]
  rfl

mutual

/-- The table at the bottom of a bucket that serves a path: of layers, that of the first layer that
shows the path. -/
def Bucket.winner? (volumes : Volumes) : Bucket → String → Option Objects
  | .volume index, _ =>
    match volumes[index]? with
    | some (.table table) => some table
    | _ => none
  | .objects table, _ => some table
  | .mapped inner ms, path => Bucket.winner? volumes inner (join (unmapDir ms ".") path)
  | .layered layers, path => Bucket.firstWinner? volumes layers path

def Bucket.firstWinner? (volumes : Volumes) : List Bucket → String → Option Objects
  | [], _ => none
  | b :: bs, path =>
    if b.holds volumes path then Bucket.winner? volumes b path
    else Bucket.firstWinner? volumes bs path

end

theorem Volume.find?_of_get_table {objects : Objects} {path : String} {info : ObjectInfo}
    {content : ByteArray} (h : (Volume.table objects).get true path = .ok (info, content)) :
    objects.find? info.external = some content := by
  rw [get_table] at h
  split at h
  · rename_i hfind
    cases h
    exact hfind
  · cases h

mutual

/-- What is read is the content that the table which serves the path has under the external path. -/
theorem find?_winner {volumes : Volumes} : (b : Bucket) → b.InMemory volumes →
    ∀ path info content, IsObject path → b.get volumes true path = .ok (info, content) →
      ∃ table, b.winner? volumes path = some table ∧ table.find? info.external = some content
  | .volume index, h, path, info, content, _, hget => by
    rw [Bucket.InMemory] at h
    obtain ⟨table, htable, _⟩ := h
    rw [Bucket.get, htable] at hget
    rw [Bucket.winner?, htable]
    exact ⟨table, rfl, Volume.find?_of_get_table hget⟩
  | .objects table, _, path, info, content, _, hget => by
    rw [Bucket.get] at hget
    rw [Bucket.winner?]
    exact ⟨table, rfl, Volume.find?_of_get_table hget⟩
  | .mapped inner ms, h, path, info, content, hpath, hget => by
    rw [Bucket.InMemory] at h
    rw [Bucket.get] at hget
    rw [Bucket.winner?]
    split at hget
    · cases hget
    · rename_i place hplace
      obtain ⟨_, rfl⟩ := (unmapPath?_eq_some h.2 hpath.1).1 hplace
      split at hget
      · rename_i hinner
        cases hget
        have hobject := isObject_join (isNormal_unmapDir h.2 Path.isNormal_root) hpath
        obtain ⟨table, hwinner, hfind⟩ := find?_winner inner h.1 _ _ _ hobject hinner
        exact ⟨table, hwinner, hfind⟩
      · cases hget
  | .layered layers, h, path, info, content, hpath, hget => by
    rw [Bucket.InMemory] at h
    rw [Bucket.get] at hget
    rw [Bucket.winner?]
    exact find?_firstWinner layers h path info content hpath hget

theorem find?_firstWinner {volumes : Volumes} : (bs : List Bucket) →
    Bucket.InMemoryEach volumes bs → ∀ path info content, IsObject path →
      Bucket.getFirst volumes true bs path = .ok (info, content) →
        ∃ table, Bucket.firstWinner? volumes bs path = some table ∧
          table.find? info.external = some content
  | [], _, path, info, content, _, hget => by
    rw [Bucket.getFirst] at hget
    cases hget
  | b :: bs, h, path, info, content, hpath, hget => by
    rw [Bucket.InMemoryEach] at h
    rw [Bucket.getFirst] at hget
    rw [Bucket.firstWinner?]
    have hproper := Bucket.InMemory.proper b h.1
    split at hget
    · rename_i q hmissing
      -- a layer that has nothing to read shows nothing
      have hnone : b.holds volumes path ≠ true := by
        rw [Ne, Bucket.holds_iff]
        rintro ⟨info, hshows, rfl⟩
        exact hproper.get_ne_missing hshows q hmissing
      rw [if_neg hnone]
      exact find?_firstWinner bs h.2 path info content hpath hget
    · have hshows := hproper.shows_of_get hpath hget
      rw [if_pos (Bucket.holds_iff.2 ⟨info, hshows.2, hshows.1⟩)]
      exact find?_winner b h.1 path info content hpath hget

end

/-! ### The root and the empty path -/

mutual

/-- Whether no view strips a directory in whose place the bucket below shows an object. -/
def Bucket.Clear (volumes : Volumes) : Bucket → Prop
  | .volume _ => True
  | .objects _ => True
  | .mapped inner ms =>
    inner.Clear volumes ∧ ∀ info, inner.Shows volumes info → info.path ≠ unmapDir ms "."
  | .layered layers => Bucket.ClearEach volumes layers

def Bucket.ClearEach (volumes : Volumes) : List Bucket → Prop
  | [] => True
  | b :: bs => b.Clear volumes ∧ Bucket.ClearEach volumes bs

end

/-- Whether a path is the root, or no path at all. -/
def IsRoot (path : String) : Prop := path = "" ∨ path = "."

theorem join_of_isRoot {dir path : String} (hdir : IsNormal dir) (hne : dir ≠ ".")
    (hpath : IsRoot path) : join dir path = dir := by
  have hempty := hdir.ne_empty
  rcases hpath with rfl | rfl <;> simp [join, hne, hempty]

/-- From the root of a view, or from no path at all, one gets to the directory that it strips. -/
theorem eq_of_unmapPath?_root {ms : List Mapper} (hms : ∀ m ∈ ms, m.Proper) {path place : String}
    (hpath : IsRoot path) (h : unmapPath? ms path = some place) :
    place = join (unmapDir ms ".") path := by
  induction ms generalizing place with
  | nil =>
    cases h
    exact (Path.root_join path).symm
  | cons m ms ih =>
    obtain ⟨hm, hms⟩ := List.forall_mem_cons.1 hms
    have hbase := isNormal_unmapDir hms Path.isNormal_root
    rw [unmapPath?_cons] at h
    obtain ⟨inner, hinner, hunmap⟩ := Option.bind_eq_some_iff.1 h
    have hplace := ih hms hinner
    rw [unmapDir_cons]
    cases m with
    | strip dir =>
      cases hunmap
      rw [hplace, Mapper.unmapDir]
      by_cases hroot : unmapDir ms "." = "."
      · rw [hroot, Path.root_join, Path.IsNormal.join_root hm]
      · rw [join_of_isRoot hbase hroot hpath,
          join_of_isRoot (Path.IsNormal.join hm hbase) (Path.join_ne_root hm hbase hroot) hpath]
    | keep m =>
      rw [Mapper.unmap?] at hunmap
      split at hunmap
      · cases hunmap
        exact hplace
      · cases hunmap

theorem Volume.get_of_isRoot {objects : Objects} (h : (Volume.table objects).Proper) {path : String}
    (hpath : IsRoot path) : (Volume.table objects).get true path = .error (.missing path) := by
  rw [get_table]
  cases hfind : objects.find? path with
  | none => rfl
  | some content =>
    have hobject := h path (Table.mem_keys.2 ⟨content, hfind⟩)
    rcases hpath with rfl | rfl
    · exact absurd rfl hobject.1.ne_empty
    · exact absurd rfl hobject.2

mutual

/-- There is nothing to read under the root, if nothing stands in the place of a stripped
directory. -/
theorem get_of_isRoot {volumes : Volumes} : (b : Bucket) → b.InMemory volumes →
    b.Clear volumes → ∀ path, IsRoot path → b.get volumes true path = .error (.missing path)
  | .volume index, h, _, path, hpath => by
    rw [Bucket.InMemory] at h
    obtain ⟨table, htable, hproper⟩ := h
    rw [Bucket.get, htable]
    exact Volume.get_of_isRoot hproper hpath
  | .objects table, h, _, path, hpath => by
    rw [Bucket.InMemory] at h
    rw [Bucket.get]
    exact Volume.get_of_isRoot h hpath
  | .mapped inner ms, h, hclear, path, hpath => by
    rw [Bucket.InMemory] at h
    rw [Bucket.Clear] at hclear
    have hbase := isNormal_unmapDir h.2 Path.isNormal_root
    rw [Bucket.get]
    cases hunmap : unmapPath? ms path with
    | none => rfl
    | some place =>
      have hmissing : ∃ e, inner.get volumes true place = .error (.missing e) := by
        rw [eq_of_unmapPath?_root h.2 hpath hunmap]
        by_cases hroot : unmapDir ms "." = "."
        · rw [hroot, Path.root_join]
          exact ⟨_, get_of_isRoot inner h.1 hclear.1 path hpath⟩
        · rw [join_of_isRoot hbase hroot hpath]
          cases hget : inner.get volumes true (unmapDir ms ".") with
          | error e => exact ⟨_, congrArg Except.error (eq_missing_of_get inner h.1 _ e hget)⟩
          | ok answer =>
            have hproper := Bucket.InMemory.proper inner h.1
            have hshows := hproper.shows_of_get ⟨hbase, hroot⟩ hget
            exact absurd hshows.1 (hclear.2 _ hshows.2)
      obtain ⟨e, hmissing⟩ := hmissing
      simp only [hmissing]
      rfl
  | .layered layers, h, hclear, path, hpath => by
    rw [Bucket.InMemory] at h
    rw [Bucket.Clear] at hclear
    rw [Bucket.get]
    exact getFirst_of_isRoot layers h hclear path hpath

theorem getFirst_of_isRoot {volumes : Volumes} : (bs : List Bucket) →
    Bucket.InMemoryEach volumes bs → Bucket.ClearEach volumes bs → ∀ path, IsRoot path →
      Bucket.getFirst volumes true bs path = .error (.missing path)
  | [], _, _, path, _ => by rw [Bucket.getFirst]
  | b :: bs, h, hclear, path, hpath => by
    rw [Bucket.InMemoryEach] at h
    rw [Bucket.ClearEach] at hclear
    rw [Bucket.getFirst, get_of_isRoot b h.1 hclear.1 path hpath]
    exact getFirst_of_isRoot bs h.2 hclear.2 path hpath

end

/-! ### Listing and reading -/

section InMemory

variable {volumes : Volumes} {b : Bucket}

variable {infos : List ObjectInfo}

theorem mem_list (h : b.list volumes true "." = .ok infos) {info : ObjectInfo} :
    info ∈ infos ↔ b.Shows volumes info := by
  rw [← (Bucket.list_eq_ok.1 h).2.2, mem_sortedBy]
  rfl

theorem eq_of_pairwise_path {xs ys : List ObjectInfo}
    (hx : (xs.map ObjectInfo.path).Pairwise (· < ·)) (hy : (ys.map ObjectInfo.path).Pairwise (· < ·))
    (h : ∀ info, info ∈ xs ↔ info ∈ ys) : xs = ys := by
  have hnodup {zs : List ObjectInfo} (hz : (zs.map ObjectInfo.path).Pairwise (· < ·)) : zs.Nodup :=
    (nodup_of_pairwise_lt hz).of_map
  refine ((List.perm_ext_iff_of_nodup (hnodup hx) (hnodup hy)).2 h).eq_of_pairwise
    (fun a b _ _ hab hba => ?_) (List.pairwise_map.1 hx) (List.pairwise_map.1 hy)
  exact absurd (String.lt_trans hab hba) (String.lt_irrefl a.path)

/-- A proper bucket lists of a directory what it lists of the root and the directory covers. -/
theorem list_eq_filter (hproper : b.Proper volumes) (h : b.list volumes true "." = .ok infos)
    {dir : String} (hdir : IsNormal dir) :
    b.list volumes true dir = .ok (infos.filter fun info => covers dir info.path) := by
  have hregular := regular_of_proper b hproper
  have hlist := Bucket.list_eq_ok.2 ⟨.inl rfl, hregular.complete dir hdir, rfl⟩
  have hall := pairwise_lt_list hproper Path.isNormal_root h
  rw [hlist]
  refine congrArg Except.ok (eq_of_pairwise_path (pairwise_lt_list hproper hdir hlist)
    (hall.sublist (List.filter_sublist.map _)) fun info => ?_)
  rw [mem_sortedBy, List.mem_filter, mem_list h]
  exact hregular.below dir hdir info

/-- What a bucket in memory shows can be read. -/
theorem exists_get_of_shows (h : b.InMemory volumes) {info : ObjectInfo}
    (hshows : b.Shows volumes info) :
    ∃ content, b.get volumes true info.path = .ok (info, content) :=
  (Bucket.InMemory.proper b h).exists_get hshows fun e hget => by
    rw [eq_missing_of_get b h info.path e hget]
    rfl

section Reading

variable (h : b.InMemory volumes) {path : String} (hclear : IsRoot path → b.Clear volumes)
  (hlist : b.list volumes true "." = .ok infos) {info : ObjectInfo}

include h hclear hlist

/-- Just the objects that are listed are read, each with the content that the table which serves
the path has for it. -/
theorem get_eq_ok {content : ByteArray} :
    b.get volumes true path = .ok (info, content) ↔
      (info ∈ infos ∧ info.path = path) ∧
        ∃ table, b.winner? volumes path = some table ∧
          table.find? info.external = some content := by
  have hproper := Bucket.InMemory.proper b h
  rw [mem_list hlist]
  constructor
  · intro hget
    have hobject : IsObject path := by
      rcases (path_of_get b hproper path info content hget).2 with hempty | hroot | hobject
      · cases hget.symm.trans (get_of_isRoot b h (hclear (.inl hempty)) path (.inl hempty))
      · cases hget.symm.trans (get_of_isRoot b h (hclear (.inr hroot)) path (.inr hroot))
      · exact hobject
    have hshows := hproper.shows_of_get hobject hget
    exact ⟨hshows.symm, find?_winner b h path info content hobject hget⟩
  · rintro ⟨⟨hshows, rfl⟩, table, hwinner, hfind⟩
    have hobject := (regular_of_proper b hproper).objects info hshows
    obtain ⟨content', hget⟩ := exists_get_of_shows h hshows
    obtain ⟨table', hwinner', hfind'⟩ := find?_winner b h _ _ _ hobject hget
    cases hwinner.symm.trans hwinner'
    cases hfind.symm.trans hfind'
    exact hget

theorem stat_eq_ok : b.stat volumes true path = .ok info ↔ info ∈ infos ∧ info.path = path := by
  have hstat : b.stat volumes true path = .ok info ↔
      ∃ content, b.get volumes true path = .ok (info, content) := by
    rw [Bucket.stat, map_eq_ok]
    simp
  rw [hstat]
  constructor
  · rintro ⟨content, hget⟩
    exact ((get_eq_ok h hclear hlist).1 hget).1
  · rintro ⟨hinfo, rfl⟩
    exact exists_get_of_shows h ((mem_list hlist).1 hinfo)

theorem get_eq_missing (hnone : ∀ info ∈ infos, info.path ≠ path) :
    b.get volumes true path = .error (.missing path) := by
  cases hget : b.get volumes true path with
  | error e => rw [eq_missing_of_get b h path e hget]
  | ok answer =>
    have hin := ((get_eq_ok h hclear hlist).1 hget).1
    exact absurd hin.2 (hnone _ hin.1)

end Reading

/-- A bucket in memory lists every path at most once; of a directory it lists what it lists of the
root and the directory covers; and it finds and reads just what it lists, as it is listed, with the
content that the table which serves the path has for it. Of the root and the empty path this is said
only where nothing stands in the place of a stripped directory. -/
theorem listed_iff_found (h : b.InMemory volumes) :
    ∃ infos, b.list volumes true "." = .ok infos ∧
      (infos.map ObjectInfo.path).Pairwise (· < ·) ∧
      (∀ dir, IsNormal dir →
        b.list volumes true dir = .ok (infos.filter fun info => covers dir info.path)) ∧
      ∀ path, (IsRoot path → b.Clear volumes) →
        (∀ info, b.stat volumes true path = .ok info ↔ info ∈ infos ∧ info.path = path) ∧
        (∀ info content, b.get volumes true path = .ok (info, content) ↔
          (info ∈ infos ∧ info.path = path) ∧ ∃ table, b.winner? volumes path = some table ∧
            table.find? info.external = some content) ∧
        ((∀ info ∈ infos, info.path ≠ path) →
          b.get volumes true path = .error (.missing path) ∧
            b.stat volumes true path = .error (.missing path)) := by
  have hproper := Bucket.InMemory.proper b h
  obtain ⟨infos, hlist, _⟩ := exists_list (regular_of_proper b hproper)
  refine ⟨infos, hlist, pairwise_lt_list hproper Path.isNormal_root hlist,
    fun dir => list_eq_filter hproper hlist, fun path hclear => ⟨fun info => ?_, ?_, ?_⟩⟩
  · exact stat_eq_ok h hclear hlist
  · exact fun info content => get_eq_ok h hclear hlist
  · intro hnone
    have hget := get_eq_missing h hclear hlist hnone
    refine ⟨hget, ?_⟩
    unfold Bucket.stat
    rw [hget]
    rfl

end InMemory

/-! ### Layers over a stripped directory -/

/-- Tables of which the first has an object in the directory `a`, and the second one in its place. -/
def baseTable : Objects := .ofList [("a/x", "first".toUTF8), ("b", "other".toUTF8)]
def placeTable : Objects := .ofList [("a", "second".toUTF8)]

/-- The directory `a` of the first table, over the second table. -/
def overlaid : Bucket := .layered [.mapped (.objects baseTable) [.strip "a"], .objects placeTable]

theorem inMemory_overlaid : overlaid.InMemory [] := by
  have hbase : (Volume.table baseTable).Proper := by
    show ∀ key ∈ baseTable.keys, IsObject key
    decide +kernel
  have hplace : (Volume.table placeTable).Proper := by
    show ∀ key ∈ placeTable.keys, IsObject key
    decide +kernel
  have hdir : IsNormal "a" := by decide
  simp only [overlaid, Bucket.InMemory, Bucket.InMemoryEach, List.forall_mem_singleton, hbase,
    hplace, and_true, true_and]
  exact hdir

theorem listed_iff_found_overlaid : overlaid.InMemory [] ∧ overlaid.Clear [] ∧
    overlaid.stat [] true "x" = .ok ⟨"x", "a/x"⟩ ∧
      overlaid.stat [] true "." = .error (.missing ".") := by
  have hclear : overlaid.Clear [] := by
    have hnone : ∀ info ∈ ((Bucket.objects baseTable).tour [] ".").shown, info.path ≠ "a" := by
      decide +kernel
    simp only [overlaid, Bucket.Clear, Bucket.ClearEach, and_true, true_and]
    exact hnone
  have hinfos : overlaid.list [] true "." = .ok [⟨"a", "a"⟩, ⟨"x", "a/x"⟩] := by decide +kernel
  obtain ⟨infos, hlist, _, _, hall⟩ := listed_iff_found inMemory_overlaid
  cases hinfos.symm.trans hlist
  refine ⟨inMemory_overlaid, hclear, ((hall "x" fun _ => hclear).1 _).2 (by decide), ?_⟩
  exact ((hall "." fun _ => hclear).2.2 (by decide)).2

/-- A view that strips the path of an object finds this object under the root, and lists nothing. -/
theorem stat_root_of_stripped :
    (Bucket.mapped (.objects placeTable) [.strip "a"]).InMemory [] ∧
      (Bucket.mapped (.objects placeTable) [.strip "a"]).list [] true "." = .ok [] ∧
      (Bucket.mapped (.objects placeTable) [.strip "a"]).stat [] true "." = .ok ⟨".", "a"⟩ := by
  have hplace : (Volume.table placeTable).Proper := by
    show ∀ key ∈ placeTable.keys, IsObject key
    decide +kernel
  have hdir : IsNormal "a" := by decide
  refine ⟨?_, by decide +kernel, by decide +kernel⟩
  simp only [Bucket.InMemory, List.forall_mem_singleton, hplace, true_and]
  exact hdir

end Schemata.Storage

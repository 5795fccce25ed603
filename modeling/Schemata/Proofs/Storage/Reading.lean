import Schemata.Proofs.Storage.Views
import Schemata.Proofs.Table

/-!
# Reading what is shown

Reading a path from a proper bucket gives the object that the bucket shows under it. It is missing
just where the bucket shows none; but a file system may refuse to look, when the path goes on below
a file.
-/

namespace Schemata.Storage

open Schemata.Path (IsNormal join)

/-- Whether the answer for a path agrees with what is shown. -/
def Agrees (shows : ObjectInfo → Prop) (path : String) :
    Except Error (ObjectInfo × ByteArray) → Prop
  | .ok (info, _) => info.path = path ∧ shows info
  | .error (.missing _) => ∀ info, shows info → info.path ≠ path
  | .error (.io _ _) => True
  | .error _ => False

/-- Whether reading a path agrees with what a bucket shows. -/
def Bucket.Answers (volumes : Volumes) (b : Bucket) (path : String) : Prop :=
  Agrees (b.Shows volumes) path (b.get volumes true path)

/-! ### Volumes -/

theorem pieces_joined {names : List String} (hne : names ≠ [])
    (h : ∀ name ∈ names, Path.IsName name.toList) (hroot : Text.joined '/' names ≠ ".") :
    Text.pieces '/' (Text.joined '/' names) = names := by
  rw [pieces_eq hroot, components_joined hne h, List.map_map]
  simp

theorem Node.Valid.pieces_mem {root : Node} (h : root.Valid) {path : String} :
    Text.pieces '/' path ∈ root.fileNames ↔
      ∃ info ∈ ((Volume.tree root).tour ".").shown, info.path = path := by
  simp only [Node.mem_shown]
  constructor
  · intro hmem
    exact ⟨_, ⟨_, hmem, rfl⟩, Text.joined_pieces '/' path⟩
  · rintro ⟨_, ⟨names, hmem, rfl⟩, rfl⟩
    have hpieces := pieces_joined (h.ne_nil hmem)
      (fun name hname => (Node.valid_of_mem root h.named names hmem name hname).isName)
      (h.isObject hmem).2
    have hpath : (ObjectInfo.plain (Text.joined '/' names)).path = Text.joined '/' names := rfl
    rw [hpath, hpieces]
    exact hmem

theorem Volume.mem_shown_table {objects : Objects} {info : ObjectInfo} :
    info ∈ ((Volume.table objects).tour ".").shown ↔
      info = .plain info.path ∧ ∃ content, objects.find? info.path = some content := by
  rw [Volume.tour, Tour.shown_ofInfos, List.mem_map, ← Table.mem_keys]
  constructor
  · rintro ⟨key, hkey, rfl⟩
    exact ⟨rfl, List.mem_of_mem_filter hkey⟩
  · rintro ⟨hplain, hkey⟩
    exact ⟨info.path, List.mem_filter.2 ⟨hkey, Path.root_covers _⟩, hplain.symm⟩

theorem agrees_table (objects : Objects) (path : String) :
    Agrees (· ∈ ((Volume.table objects).tour ".").shown) path
      ((Volume.table objects).get true path) := by
  rw [Volume.get]
  cases hfind : objects.find? path with
  | none =>
    rintro info hinfo rfl
    obtain ⟨_, content, hcontent⟩ := Volume.mem_shown_table.1 hinfo
    cases hfind.symm.trans hcontent
  | some content => exact ⟨rfl, Volume.mem_shown_table.2 ⟨rfl, content, hfind⟩⟩

theorem agrees_tree {root : Node} (h : root.Valid) {path : String} (hpath : IsObject path) :
    Agrees (· ∈ ((Volume.tree root).tour ".").shown) path ((Volume.tree root).get true path) := by
  have hcheck : checkObjectPath path = .ok () := by
    rw [checkObjectPath, Path.validateObject_eq_ok.2 hpath]
  have hmem : (∃ n, root.resolve (Text.pieces '/' path) = .ok n ∧ ∃ c, n = .file c) ↔
      ∃ info ∈ ((Volume.tree root).tour ".").shown, info.path = path := by
    have happend : Text.pieces '/' path ++ [] ∈ root.fileNames ↔ _ := Node.Valid.append_mem h
    rw [List.append_nil, Node.Valid.pieces_mem h] at happend
    rw [happend]
    simp only [Node.nil_mem_fileNames]
  rw [Volume.get, hcheck]
  cases hresolve : root.resolve (Text.pieces '/' path) with
  | error e =>
    cases e with
    | notFound =>
      intro info hinfo heq
      obtain ⟨n, hn, _⟩ := hmem.2 ⟨info, hinfo, heq⟩
      cases hresolve.symm.trans hn
    | _ => trivial
  | ok n =>
    cases n with
    | file content =>
      refine ⟨rfl, Node.mem_shown.2 ⟨Text.pieces '/' path, ?_, ?_⟩⟩
      · exact (Node.Valid.pieces_mem h).2 (hmem.1 ⟨_, hresolve, content, rfl⟩)
      · rw [Text.joined_pieces]
    | folder entries =>
      intro info hinfo heq
      obtain ⟨n, hn, c, rfl⟩ := hmem.2 ⟨info, hinfo, heq⟩
      cases hresolve.symm.trans hn

theorem Volume.Proper.answers {v : Volume} (h : v.Proper) {volumes : Volumes} {b : Bucket}
    {path : String} (hpath : IsObject path) (htour : b.tour volumes "." = v.tour ".")
    (hget : b.get volumes true path = v.get true path) : b.Answers volumes path := by
  unfold Bucket.Answers Bucket.Shows
  rw [hget, htour]
  cases v with
  | table objects => exact agrees_table objects path
  | tree root => exact agrees_tree h hpath

/-- Only objects with valid paths get into a table. -/
theorem Objects.proper_ofFiles {files : List (String × ByteArray)} {objects : Objects}
    (h : Objects.ofFiles files = .ok objects) : (Volume.table objects).Proper := by
  have hall : ∀ (files : List (String × ByteArray)) (start : Objects),
      (Volume.table start).Proper → files.foldlM (fun t f => do
        checkObjectPath f.1
        return t.insert f.1 f.2) start = .ok objects → (Volume.table objects).Proper := by
    intro files
    induction files with
    | nil =>
      intro start hstart h
      cases h
      exact hstart
    | cons f files ih =>
      intro start hstart h
      obtain ⟨next, hnext, h⟩ := bind_eq_ok.1 h
      obtain ⟨_, hcheck, hnext⟩ := bind_eq_ok.1 hnext
      cases hnext
      refine ih _ (fun key hkey => ?_) h
      rcases Table.mem_keys_insert.1 hkey with rfl | hkey
      · exact checkObjectPath_eq_ok.1 hcheck
      · exact hstart key hkey
  exact hall files .empty (fun key hkey => absurd hkey List.not_mem_nil) h

/-! ### Views -/

theorem unmapPath?_cons (m : Mapper) (ms : List Mapper) (path : String) :
    unmapPath? (m :: ms) path = (unmapPath? ms path).bind m.unmap? := by
  simp [unmapPath?, List.foldlM_append]

theorem unmapPath?_eq_some {ms : List Mapper} (hms : ∀ m ∈ ms, m.Proper) {p x : String}
    (hp : IsNormal p) :
    unmapPath? ms p = some x ↔ Passes ms p ∧ x = join (unmapDir ms ".") p := by
  induction ms generalizing x with
  | nil =>
    have hroot : unmapDir [] "." = "." := rfl
    simp [unmapPath?, Passes, hroot, eq_comm]
  | cons m ms ih =>
    obtain ⟨hm, hms⟩ := List.forall_mem_cons.1 hms
    have hbase := isNormal_unmapDir hms Path.isNormal_root
    rw [unmapPath?_cons, Option.bind_eq_some_iff, unmapDir_cons]
    simp only [ih hms]
    cases m with
    | strip dir =>
      simp only [Mapper.unmap?, Mapper.unmapDir, Passes, Path.join_assoc hm hbase hp]
      constructor
      · rintro ⟨y, ⟨hpass, rfl⟩, hx⟩
        cases hx
        exact ⟨hpass, rfl⟩
      · rintro ⟨hpass, rfl⟩
        exact ⟨_, ⟨hpass, rfl⟩, rfl⟩
    | keep m =>
      simp only [Mapper.unmap?, Mapper.unmapDir, Passes]
      constructor
      · rintro ⟨y, ⟨hpass, rfl⟩, hx⟩
        split at hx
        · rename_i haccepts
          cases hx
          exact ⟨⟨haccepts, hpass⟩, rfl⟩
        · cases hx
      · rintro ⟨⟨haccepts, hpass⟩, rfl⟩
        exact ⟨_, ⟨hpass, rfl⟩, if_pos haccepts⟩

theorem answers_mapped {volumes : Volumes} {inner : Bucket} {ms : List Mapper}
    (hregular : Regular volumes inner) (hms : ∀ m ∈ ms, m.Proper)
    (h : ∀ path, IsObject path → inner.Answers volumes path) {path : String}
    (hpath : IsObject path) : (Bucket.mapped inner ms).Answers volumes path := by
  have hbase := isNormal_unmapDir hms Path.isNormal_root
  have hshows {info : ObjectInfo} : (Bucket.mapped inner ms).Shows volumes info ↔ _ :=
    shows_mapped hregular hms
  unfold Bucket.Answers
  rw [Bucket.get]
  cases hunmap : unmapPath? ms path with
  | none =>
    rintro info hinfo rfl
    obtain ⟨_, hpass, _⟩ := hshows.1 hinfo
    cases hunmap.symm.trans ((unmapPath?_eq_some hms hpath.1).2 ⟨hpass, rfl⟩)
  | some place =>
    obtain ⟨hpass, rfl⟩ := (unmapPath?_eq_some hms hpath.1).1 hunmap
    have hinner := h _ (isObject_join hbase hpath)
    unfold Bucket.Answers at hinner
    simp only
    cases hget : inner.get volumes true (join (unmapDir ms ".") path) with
    | ok answer =>
      obtain ⟨object, content⟩ := answer
      rw [hget] at hinner
      refine ⟨rfl, hshows.2 ⟨hpath, hpass, ?_⟩⟩
      rw [← hinner.1]
      exact hinner.2
    | error e =>
      rw [hget] at hinner
      cases e with
      | missing _ =>
        rintro info hinfo rfl
        exact hinner _ (hshows.1 hinfo).2.2 rfl
      | io _ _ => trivial
      | invalidPath _ _ => exact hinner
      | canceled => exact hinner

theorem answers_layered {volumes : Volumes} {bs : List Bucket}
    (hregular : ∀ b ∈ bs, Regular volumes b) {path : String}
    (h : ∀ b ∈ bs, b.Answers volumes path) : (Bucket.layered bs).Answers volumes path := by
  unfold Bucket.Answers
  rw [Bucket.get]
  induction bs with
  | nil =>
    rw [Bucket.getFirst]
    exact fun info hinfo => absurd hinfo not_shows_layered_nil
  | cons b bs ih =>
    obtain ⟨hb, hbs⟩ := List.forall_mem_cons.1 hregular
    obtain ⟨hanswer, hrest⟩ := List.forall_mem_cons.1 h
    have ih := ih hbs hrest
    unfold Bucket.Answers at hanswer
    rw [Bucket.getFirst]
    cases hget : b.get volumes true path with
    | ok answer =>
      rw [hget] at hanswer
      exact ⟨hanswer.1, (shows_layered_cons hb).2 (.inl hanswer.2)⟩
    | error e =>
      rw [hget] at hanswer
      cases e with
      | missing q =>
        simp only at hanswer ⊢
        cases hrestGet : Bucket.getFirst volumes true bs path with
        | ok answer =>
          rw [hrestGet] at ih
          obtain ⟨hsame, hshows⟩ := ih
          refine ⟨hsame, (shows_layered_cons hb).2 (.inr ⟨fun other hother => ?_, hshows⟩)⟩
          rw [hsame]
          exact hanswer other hother
        | error e =>
          rw [hrestGet] at ih
          cases e with
          | missing _ =>
            intro info hinfo
            rcases (shows_layered_cons hb).1 hinfo with hin | ⟨_, hin⟩
            · exact hanswer info hin
            · exact ih info hin
          | io _ _ => trivial
          | invalidPath _ _ => exact ih
          | canceled => exact ih
      | io _ _ => trivial
      | invalidPath _ _ => exact hanswer
      | canceled => exact hanswer

mutual

/-- Reading from a proper bucket agrees with what the bucket shows. -/
theorem answers_of_proper {volumes : Volumes} : (b : Bucket) → b.Proper volumes →
    ∀ path, IsObject path → b.Answers volumes path
  | .volume index, h, path, hpath => by
    rw [Bucket.Proper] at h
    cases hv : volumes[index]? with
    | none =>
      have htour : (Bucket.volume index).tour volumes "." = ⟨[], none⟩ := by rw [Bucket.tour, hv]
      unfold Bucket.Answers Bucket.Shows
      rw [Bucket.get, hv, htour]
      exact fun info hinfo => absurd hinfo List.not_mem_nil
    | some v =>
      refine (h v hv).answers hpath ?_ ?_
      · rw [Bucket.tour, hv]
      · rw [Bucket.get, hv]
  | .objects table, h, path, hpath => by
    rw [Bucket.Proper] at h
    refine h.answers hpath ?_ ?_
    · rw [Bucket.tour]
    · rw [Bucket.get]
  | .mapped inner ms, h, path, hpath => by
    rw [Bucket.Proper] at h
    exact answers_mapped (regular_of_proper inner h.1) h.2 (answers_of_proper inner h.1) hpath
  | .layered layers, h, path, hpath => by
    rw [Bucket.Proper] at h
    exact answers_layered (regular_of_properEach layers h) fun b hb =>
      answers_of_properEach layers h b hb path hpath

theorem answers_of_properEach {volumes : Volumes} : (bs : List Bucket) →
    Bucket.ProperEach volumes bs → ∀ b ∈ bs, ∀ path, IsObject path → b.Answers volumes path
  | [], _, _, hb, _, _ => absurd hb List.not_mem_nil
  | first :: bs, h, b, hb, path, hpath => by
    rw [Bucket.ProperEach] at h
    rcases List.mem_cons.1 hb with heq | hb
    · rw [heq]
      exact answers_of_proper first h.1 path hpath
    · exact answers_of_properEach bs h.2 b hb path hpath

end

/-! ### Paths that are read -/

/-- Whether a path names an object, or a directory in one of two spellings. -/
def IsReadable (path : String) : Prop := path = "" ∨ path = "." ∨ IsObject path

theorem isReadable_of_unmapPath? {ms : List Mapper} {path place : String}
    (h : unmapPath? ms path = some place) (hplace : IsReadable place) : IsReadable path := by
  induction ms generalizing place with
  | nil =>
    cases h
    exact hplace
  | cons m ms ih =>
    rw [unmapPath?_cons] at h
    obtain ⟨inner, hinner, hunmap⟩ := Option.bind_eq_some_iff.1 h
    refine ih hinner ?_
    cases m with
    | strip dir =>
      cases hunmap
      by_cases hempty : inner = ""
      · exact .inl hempty
      by_cases hroot : inner = "."
      · exact .inr (.inl hroot)
      have hne := Path.join_ne_of_ne (a := dir) hempty hroot
      rcases hplace with hplace | hplace | hplace
      · exact absurd hplace hne.1
      · exact absurd hplace hne.2
      · exact .inr (.inr ⟨Path.IsNormal.of_join hempty hroot hplace.1, hroot⟩)
    | keep m =>
      rw [Mapper.unmap?] at hunmap
      split at hunmap
      · cases hunmap
        exact hplace
      · cases hunmap

theorem Volume.Proper.path_of_get {v : Volume} (h : v.Proper) {live : Bool} {path : String}
    {info : ObjectInfo} {content : ByteArray} (hget : v.get live path = .ok (info, content)) :
    info.path = path ∧ IsReadable path := by
  cases v with
  | table objects =>
    obtain ⟨_, _, hget⟩ := bind_eq_ok.1 hget
    cases hfind : objects.find? path with
    | none =>
      rw [hfind] at hget
      cases hget
    | some content =>
      rw [hfind] at hget
      cases hget
      exact ⟨rfl, .inr (.inr (h path (Table.mem_keys.2 ⟨content, hfind⟩)))⟩
  | tree root =>
    obtain ⟨_, _, hget⟩ := bind_eq_ok.1 hget
    obtain ⟨_, hcheck, hget⟩ := bind_eq_ok.1 hget
    refine ⟨?_, .inr (.inr (checkObjectPath_eq_ok.1 hcheck))⟩
    split at hget
    · cases hget
      rfl
    · cases hget
    · cases hget

mutual

/-- What a proper bucket reads has the path it was asked for, and that is a proper one. -/
theorem path_of_get {volumes : Volumes} {live : Bool} : (b : Bucket) → b.Proper volumes →
    ∀ path info content, b.get volumes live path = .ok (info, content) →
      info.path = path ∧ IsReadable path
  | .volume index, h, path, info, content, hget => by
    rw [Bucket.Proper] at h
    rw [Bucket.get] at hget
    cases hv : volumes[index]? with
    | none =>
      rw [hv] at hget
      cases hget
    | some v =>
      rw [hv] at hget
      exact (h v hv).path_of_get hget
  | .objects table, h, path, info, content, hget => by
    rw [Bucket.Proper] at h
    rw [Bucket.get] at hget
    exact h.path_of_get hget
  | .mapped inner ms, h, path, info, content, hget => by
    rw [Bucket.Proper] at h
    rw [Bucket.get] at hget
    split at hget
    · cases hget
    · rename_i place hplace
      split at hget
      · rename_i hinner
        cases hget
        exact ⟨rfl, isReadable_of_unmapPath? hplace (path_of_get inner h.1 place _ _ hinner).2⟩
      · cases hget
  | .layered layers, h, path, info, content, hget => by
    rw [Bucket.Proper] at h
    rw [Bucket.get] at hget
    exact path_of_getFirst layers h path info content hget

theorem path_of_getFirst {volumes : Volumes} {live : Bool} : (bs : List Bucket) →
    Bucket.ProperEach volumes bs → ∀ path info content,
      Bucket.getFirst volumes live bs path = .ok (info, content) →
        info.path = path ∧ IsReadable path
  | [], _, path, info, content, hget => by
    rw [Bucket.getFirst] at hget
    cases hget
  | b :: bs, h, path, info, content, hget => by
    rw [Bucket.ProperEach] at h
    rw [Bucket.getFirst] at hget
    split at hget
    · exact path_of_getFirst bs h.2 path info content hget
    · exact path_of_get b h.1 path info content hget

end

section Proper

variable {volumes : Volumes} {b : Bucket}

theorem Bucket.Proper.shows_of_get (h : b.Proper volumes) {path : String} (hpath : IsObject path)
    {info : ObjectInfo} {content : ByteArray}
    (hget : b.get volumes true path = .ok (info, content)) :
    info.path = path ∧ b.Shows volumes info := by
  have hanswer := answers_of_proper b h path hpath
  unfold Bucket.Answers at hanswer
  rw [hget] at hanswer
  exact hanswer

theorem Bucket.Proper.get_ne_missing (h : b.Proper volumes) {info : ObjectInfo}
    (hshows : b.Shows volumes info) (path : String) :
    b.get volumes true info.path ≠ .error (.missing path) := by
  intro hget
  have hobject := (regular_of_proper b h).objects info hshows
  have hanswer := answers_of_proper b h info.path hobject
  unfold Bucket.Answers at hanswer
  rw [hget] at hanswer
  exact hanswer info hshows rfl

/-- What a bucket shows it has, where it refuses no path but for having nothing there. -/
theorem Bucket.Proper.exists_get (h : b.Proper volumes) {info : ObjectInfo}
    (hshows : b.Shows volumes info)
    (hrefuses : ∀ e, b.get volumes true info.path = .error e → e.isMissing = true) :
    ∃ content, b.get volumes true info.path = .ok (info, content) := by
  have hregular := regular_of_proper b h
  cases hget : b.get volumes true info.path with
  | error e =>
    have hmissing := hrefuses e hget
    cases e with
    | missing path => exact absurd hget (h.get_ne_missing hshows path)
    | invalidPath path cause => cases hmissing
    | io path detail => cases hmissing
    | canceled => cases hmissing
  | ok answer =>
    obtain ⟨hpath, hfound⟩ := h.shows_of_get (hregular.objects info hshows) hget
    have hsame := hregular.unique answer.1 info hfound hshows hpath
    exact ⟨answer.2, congrArg (fun i => Except.ok (i, answer.2)) hsame⟩

end Proper

end Schemata.Storage

import Schemata.Image.Sources
import Schemata.Proofs.Except

/-!
# Where contents come from

Whatever a bucket shows of the objects under it, and under whatever paths: the content of an object
that is read from it is the content of one of them.
-/

namespace Schemata

namespace Storage

theorem Node.mem_contentsIn_of_find? {entries : Entries} {name : String} {node : Node}
    (h : entries.find? name = some node) {c : ByteArray} (hc : c ∈ node.contents) :
    c ∈ Node.contentsIn entries := by
  match entries with
  | .nil => cases h
  | .cons n first rest =>
    simp only [Entries.find?] at h
    rw [Node.contentsIn, List.mem_append]
    split at h
    · cases h
      exact .inl hc
    · exact .inr (mem_contentsIn_of_find? h hc)

theorem Node.mem_contents_of_walkTo {node : Node} {names : List String} {c : ByteArray}
    (h : node.walkTo names = .ok (.file c)) : c ∈ node.contents := by
  induction names generalizing node with
  | nil =>
    cases node with
    | file content =>
      cases h
      rw [Node.contents]
      exact List.mem_singleton_self _
    | folder entries => cases h
  | cons name names ih =>
    cases node with
    | file content => cases h
    | folder entries =>
      rw [Node.walkTo] at h
      split at h
      · cases h
      · split at h
        · rename_i node hnode
          rw [Node.contents]
          exact mem_contentsIn_of_find? hnode (ih h)
        · cases h

theorem mem_values_of_find? {β : Type} {t : Table β} {key : String} {value : β}
    (h : t.find? key = some value) : value ∈ t.values := by
  obtain ⟨e, he, rfl⟩ := Option.map_eq_some_iff.1 h
  exact List.mem_map_of_mem (List.mem_of_find?_eq_some he)

theorem Volume.mem_contents_of_get {v : Volume} {live : Bool} {path : String} {info : ObjectInfo}
    {c : ByteArray} (h : v.get live path = .ok (info, c)) : c ∈ v.contents := by
  cases v with
  | table objects =>
    obtain ⟨_, _, h⟩ := bind_eq_ok.1 h
    split at h
    · rename_i content hfind
      cases h
      exact mem_values_of_find? hfind
    · cases h
  | tree root =>
    obtain ⟨_, _, h⟩ := bind_eq_ok.1 h
    obtain ⟨_, _, h⟩ := bind_eq_ok.1 h
    split at h
    · rename_i content hresolve
      cases h
      obtain ⟨_, _, hwalk⟩ := bind_eq_ok.1 hresolve
      exact Node.mem_contents_of_walkTo hwalk
    · cases h
    · cases h

namespace Bucket

mutual

theorem mem_contents_of_get {volumes : Volumes} {live : Bool} :
    (b : Bucket) → (path : String) → (info : ObjectInfo) → (c : ByteArray) →
      b.get volumes live path = .ok (info, c) → c ∈ b.contents volumes
  | .volume index, path, info, c, h => by
    rw [get] at h
    split at h
    · rename_i v hv
      rw [contents, hv]
      exact Volume.mem_contents_of_get h
    · cases h
  | .objects table, path, info, c, h => by
    rw [get] at h
    rw [contents]
    exact Volume.mem_contents_of_get h
  | .mapped inner mappers, path, info, c, h => by
    rw [get] at h
    rw [contents]
    split at h
    · cases h
    · split at h
      · rename_i innerPath _ innerInfo content hinner
        cases h
        exact mem_contents_of_get inner _ _ _ hinner
      · cases h
  | .layered layers, path, info, c, h => by
    rw [get] at h
    rw [contents]
    exact mem_contentsOfEach_of_getFirst layers path info c h

theorem mem_contentsOfEach_of_getFirst {volumes : Volumes} {live : Bool} :
    (bs : List Bucket) → (path : String) → (info : ObjectInfo) → (c : ByteArray) →
      getFirst volumes live bs path = .ok (info, c) → c ∈ contentsOfEach volumes bs
  | [], path, info, c, h => by
    rw [getFirst] at h
    cases h
  | b :: bs, path, info, c, h => by
    rw [getFirst] at h
    rw [contentsOfEach, List.mem_append]
    split at h
    · exact .inr (mem_contentsOfEach_of_getFirst bs path info c h)
    · exact .inl (mem_contents_of_get b path info c h)

end

end Bucket

end Storage

namespace Module

open Storage

theorem mem_contents_of_get {w : World} {m : Module} {path : String} {info : FileInfo}
    {c : ByteArray} (h : m.get w path = .ok (info, c)) : c ∈ m.files.contents w.volumes := by
  obtain ⟨⟨object, content⟩, hget, h⟩ := bind_eq_ok.1 h
  obtain ⟨file, _, h⟩ := bind_eq_ok.1 h
  cases h
  exact Bucket.mem_contents_of_get _ _ _ _ (mapError_eq_ok.1 hget)

theorem View.exists_of_firstOf {α : Type} {ask : Module → Except Error α} {path : String}
    {ms : List Module} {a : α} (h : View.firstOf ask path ms = .ok a) : ∃ m ∈ ms, ask m = .ok a := by
  induction ms with
  | nil => cases h
  | cons m ms ih =>
    rw [View.firstOf] at h
    split at h
    · split at h
      · obtain ⟨m', hm', ha⟩ := ih h
        exact ⟨m', List.mem_cons_of_mem _ hm', ha⟩
      · cases h
    · rename_i a' ha
      cases h
      exact ⟨m, List.mem_cons_self, ha⟩

end Module

theorem Image.mem_contentsOf {w : World} {v : Module.View} {path : String} {info : FileInfo}
    {c : ByteArray} (h : v.get w path = .ok (info, c)) : c ∈ Image.contentsOf w v := by
  rw [Image.contentsOf, List.mem_flatMap]
  induction v with
  | single m => exact ⟨m, List.mem_singleton_self m, Module.mem_contents_of_get h⟩
  | merged modules _ =>
    obtain ⟨m, hm, hget⟩ := Module.View.exists_of_firstOf h
    exact ⟨m, hm, Module.mem_contents_of_get hget⟩
  | only kinds inner ih =>
    obtain ⟨_, _, h⟩ := bind_eq_ok.1 h
    exact ih h

end Schemata

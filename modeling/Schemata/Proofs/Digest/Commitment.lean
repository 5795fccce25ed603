import Mathlib.Data.List.Nodup
import Schemata.Proofs.Digest.Encoding
import Schemata.Proofs.Table

/-!
# What a module digest commits to

The manifest of some files is made of their paths and hashes. A module digest over it tells the
files and the set of the digests of the dependencies, unless different texts or contents that are
hashed in one place have one hash.
-/

namespace Schemata

/-! ### Manifests of files -/

namespace FileNode

/-- Whether a manifest line can hold a path. -/
def Holds (path : String) : Prop := '\n' ∉ path.toList ∧ Path.validateObject path = .ok ()

instance (path : String) : Decidable (Holds path) :=
  inferInstanceAs (Decidable (_ ∧ _))

theorem ofPath_eq_ok {path : String} {hash : ContentHash} {n : FileNode} :
    ofPath path hash = .ok n ↔ Holds path ∧ n = ⟨path, hash⟩ := by
  unfold ofPath Holds
  cases hvalid : Path.validateObject path with
  | error e => simp [Except.toOption]
  | ok u =>
    by_cases hline : '\n' ∈ path.toList
    · simp [Except.toOption, hline]
    · simp [Except.toOption, hline, eq_comm]

end FileNode

namespace Manifest

variable {files files' : Table ByteArray}

/-- Sorted nodes have no path twice if their paths rise. -/
theorem duplicate?_eq_none {ns : List FileNode} (hle : ns.Pairwise fun a b => a.path ≤ b.path) :
    duplicate? ns = none ↔ ns.Pairwise fun a b => a.path < b.path := by
  induction ns with
  | nil => exact iff_of_true rfl .nil
  | cons a ns ih =>
    cases ns with
    | nil => exact iff_of_true rfl (List.pairwise_singleton _ a)
    | cons b ns =>
      obtain ⟨ha, hrest⟩ := List.pairwise_cons.1 hle
      rw [duplicate?, List.pairwise_cons, ← ih hrest]
      by_cases h : a.path = b.path
      · rw [if_pos h]
        refine iff_of_false (fun hnone => by cases hnone) fun hlt => ?_
        exact String.lt_irrefl _ (h ▸ hlt.1 b List.mem_cons_self)
      · rw [if_neg h]
        refine ⟨fun hnone => ⟨fun c hc => ?_, hnone⟩, fun hlt => hlt.2⟩
        have hab : a.path < b.path := Table.lt_of_not_lt (String.not_lt.2 (ha b List.mem_cons_self))
          (Ne.symm h)
        rcases List.mem_cons.1 hc with rfl | hc
        · exact hab
        · exact String.lt_trans hab ((List.pairwise_cons.1 ((ih hrest).1 hnone)).1 c hc)

/-- Nodes make a manifest if their paths, once sorted, rise. -/
theorem ofNodes_eq_ok {ns : List FileNode} {m : Manifest} :
    ofNodes ns = .ok m ↔
      (sortedBy FileNode.path ns).Pairwise (fun a b => a.path < b.path) ∧
        ⟨sortedBy FileNode.path ns⟩ = m := by
  have hrise := duplicate?_eq_none (pairwise_sortedBy FileNode.path ns)
  unfold ofNodes
  simp only
  split
  · rename_i path hdup
    rw [hdup] at hrise
    exact iff_of_false (fun h => by cases h) fun h => absurd (hrise.2 h.1) (by simp)
  · rename_i hdup
    rw [Except.ok.injEq]
    exact ⟨fun h => ⟨hrise.1 hdup, h⟩, fun h => h.2⟩

def nodeOf (file : String × ByteArray) : FileNode := ⟨file.1, ContentHash.ofContent file.2⟩

/-- The nodes of files in order make a manifest if no path is there twice. -/
theorem ofNodes_nodeOf {es : List (String × ByteArray)} {m : Manifest}
    (hle : es.Pairwise fun a b => a.1 ≤ b.1) :
    ofNodes (es.map nodeOf) = .ok m ↔
      es.Pairwise (fun a b => a.1 < b.1) ∧ ⟨es.map nodeOf⟩ = m := by
  have hsorted : sortedBy FileNode.path (es.map nodeOf) = es.map nodeOf :=
    sortedBy_eq_self (List.pairwise_map.2 hle)
  rw [ofNodes_eq_ok, hsorted, List.pairwise_map]
  rfl

def ofFiles (files : Table ByteArray) : Manifest := ⟨files.entries.map nodeOf⟩

/-- Whether files can be listed in a manifest. -/
def Lists (files : Table ByteArray) : Prop := ∀ path ∈ files.keys, FileNode.Holds path

instance (files : Table ByteArray) : Decidable (Lists files) :=
  inferInstanceAs (Decidable (∀ path ∈ files.keys, FileNode.Holds path))

theorem paths_ofFiles (files : Table ByteArray) :
    (ofFiles files).nodes.map FileNode.path = files.keys := by
  rw [ofFiles, List.map_map]
  rfl

theorem newline_not_mem_of_lists (h : Lists files) {n : FileNode}
    (hn : n ∈ (ofFiles files).nodes) : '\n' ∉ n.path.toList := by
  have hpath : n.path ∈ (ofFiles files).nodes.map FileNode.path := List.mem_map_of_mem hn
  rw [paths_ofFiles] at hpath
  exact (h _ hpath).1

/-- The text of a manifest tells the paths of the files and the hashes of their contents. -/
theorem ofFiles_inj (h : Lists files) (h' : Lists files')
    (heq : (ofFiles files).text = (ofFiles files').text) :
    files.keys = files'.keys ∧ ∀ k c c', (k, c) ∈ files.entries → (k, c') ∈ files'.entries →
      ContentHash.ofContent c = ContentHash.ofContent c' := by
  have hnodes : (ofFiles files).nodes = (ofFiles files').nodes :=
    render_inj (fun n hn => newline_not_mem_of_lists h hn)
      (fun n hn => newline_not_mem_of_lists h' hn) heq
  refine ⟨?_, fun k c c' hmem hmem' => ?_⟩
  · rw [← paths_ofFiles, ← paths_ofFiles, hnodes]
  · have hn : (⟨k, ContentHash.ofContent c⟩ : FileNode) ∈ (ofFiles files').nodes := by
      rw [← hnodes]
      exact List.mem_map_of_mem hmem
    have hn' : (⟨k, ContentHash.ofContent c'⟩ : FileNode) ∈ (ofFiles files').nodes :=
      List.mem_map_of_mem hmem'
    have hnodup : ((ofFiles files').nodes.map FileNode.path).Nodup := by
      rw [paths_ofFiles]
      exact nodup_of_pairwise_lt (List.pairwise_map.2 files'.ordered)
    exact congrArg FileNode.hash (List.inj_on_of_nodup_map hnodup hn hn' rfl)

end Manifest

/-! ### Commitments -/

/-- Whether the hash tells apart what is hashed in one place for two collections of files and
digests: the contents under one path, the manifests, and the texts behind the module digests. -/
structure NoCollision (files files' : Table ByteArray) (ds ds' : List Digest) : Prop where
  contents : ∀ path c c', (path, c) ∈ files.entries → (path, c') ∈ files'.entries →
    ContentHash.ofContent c = ContentHash.ofContent c' → c = c'
  manifests : (Manifest.ofFiles files).hash = (Manifest.ofFiles files').hash →
    (Manifest.ofFiles files).text = (Manifest.ofFiles files').text
  digests : ∀ x, Digest.b5 (.ofFiles files) ds = .ok x → Digest.b5 (.ofFiles files') ds' = .ok x →
    Digest.b5Text (.ofFiles files) ds = Digest.b5Text (.ofFiles files') ds'

theorem Table.value_unique {β : Type} {t : Table β} {k : String} {v v' : β}
    (h : (k, v) ∈ t.entries) (h' : (k, v') ∈ t.entries) : v = v' := by
  have hnodup : (t.entries.map Prod.fst).Nodup :=
    nodup_of_pairwise_lt (List.pairwise_map.2 t.ordered)
  exact congrArg Prod.snd (List.inj_on_of_nodup_map hnodup h h' rfl)

theorem NoCollision.of_same (files : Table ByteArray) {ds ds' : List Digest}
    (h : ∀ x, x ∈ ds ↔ x ∈ ds') : NoCollision files files ds ds' where
  contents _ _ _ hmem hmem' _ := Table.value_unique hmem hmem'
  manifests _ := rfl
  digests _ _ _ := Digest.b5Text_congr _ h

namespace Digest

/-- A module digest tells the files and the digests that it was made of. -/
theorem b5_inj {files files' : Table ByteArray} {ds ds' : List Digest} {x : Digest}
    (hno : NoCollision files files' ds ds') (h : Manifest.Lists files) (h' : Manifest.Lists files')
    (hx : b5 (.ofFiles files) ds = .ok x) (hx' : b5 (.ofFiles files') ds' = .ok x) :
    files = files' ∧ ∀ d, d ∈ ds ↔ d ∈ ds' := by
  obtain ⟨hmanifest, hset⟩ := b5Text_inj (hno.digests x hx hx')
  obtain ⟨hkeys, hcontents⟩ := Manifest.ofFiles_inj h h' (hno.manifests hmanifest)
  refine ⟨Table.eq_of_keys hkeys fun k c c' hmem hmem' => ?_, hset⟩
  exact hno.contents k c c' hmem hmem' (hcontents k c c' hmem hmem')

end Digest

end Schemata

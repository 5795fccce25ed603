import Schemata.Proofs.ModuleName
import Schemata.Proofs.Storage.Writing
import Schemata.Store

/-!
# Places in the store

The store keeps a key in a directory that the type of its digest, its name and its commit decide.
Different directories have no path in common, whatever the names are made of, and within one the
entry and the files have paths of their own.
-/

namespace Schemata.Store

open Storage
open Schemata.Path (IsNormal join)

/-- What decides where a key is kept. -/
def placeOf (key : ModuleKey) (x : Digest) : DigestType × ModuleName × CommitId :=
  (x.type, key.name, key.commit)

def entryPath (key : ModuleKey) (x : Digest) : String := join (dirOf key x) entryName

def filesDir (key : ModuleKey) (x : Digest) : String := join (dirOf key x) filesName

def filePath (key : ModuleKey) (x : Digest) (path : String) : String := join (filesDir key x) path

variable {key key' : ModuleKey} {x x' : Digest} {path path' : String}

/-! ### The parts of a path -/

/-- The names of the directories on the way to a key. -/
def steps (key : ModuleKey) (x : Digest) : List String :=
  [x.type.text, key.name.registry, key.name.owner, key.name.name, key.commit.text]

theorem pieces_dirOf (key : ModuleKey) (x : Digest) :
    Text.pieces '/' (dirOf key x) = steps key x := by
  refine ModuleName.pieces_joined_of_no_slash (by simp) fun s hs => ?_
  have htype : '/' ∉ x.type.text.toList := by cases x.type <;> decide
  have hname := fun s hs => ModuleName.slash_not_mem (key.name.components_mem s hs)
  simp only [List.mem_cons, List.not_mem_nil, or_false] at hs hname
  rcases hs with rfl | rfl | rfl | rfl | rfl
  · exact htype
  · exact hname _ (.inl rfl)
  · exact hname _ (.inr (.inl rfl))
  · exact hname _ (.inr (.inr rfl))
  · exact key.commit.not_mem_text (by decide)

theorem steps_inj (h : steps key x = steps key' x') : placeOf key x = placeOf key' x' := by
  simp only [steps, List.cons.injEq, and_true] at h
  obtain ⟨htype, hregistry, howner, hname, hcommit⟩ := h
  have htype : some x.type = some x'.type := by
    rw [← DigestType.ofText?_text, ← DigestType.ofText?_text, htype]
  have hnames : key.name = key'.name := by
    cases hn : key.name
    cases hn' : key'.name
    simp_all
  have hcommits : key.commit = key'.commit := by
    cases hc : key.commit
    cases hc' : key'.commit
    simp_all
  rw [placeOf, placeOf, Option.some.inj htype, hnames, hcommits]

theorem dirOf_congr (h : placeOf key x = placeOf key' x') : dirOf key x = dirOf key' x' := by
  obtain ⟨htype, hrest⟩ := Prod.mk.inj h
  obtain ⟨hname, hcommit⟩ := Prod.mk.inj hrest
  rw [dirOf, dirOf, htype, hname, hcommit]

theorem slash_mem_of_pieces {dir a b : String} {rest : List String}
    (h : Text.pieces '/' dir = a :: b :: rest) : '/' ∈ dir.toList := by
  by_contra hslash
  have hjoined := Text.joined_pieces '/' dir
  rw [h] at hjoined
  refine hslash ?_
  rw [← hjoined]
  simp [Text.joined, List.intercalate]

theorem ne_of_slash {dir : String} (h : '/' ∈ dir.toList) : dir ≠ "." ∧ dir ≠ "" := by
  refine ⟨?_, ?_⟩
  · rintro rfl
    simp at h
  · rintro rfl
    simp at h

theorem pieces_join {dir rest : String} (hdir : '/' ∈ dir.toList) (hroot : rest ≠ ".")
    (hne : rest ≠ "") :
    Text.pieces '/' (join dir rest) = Text.pieces '/' dir ++ Text.pieces '/' rest := by
  have hproper := ne_of_slash hdir
  have hjoin : (join dir rest).toList = dir.toList ++ '/' :: rest.toList := by
    simp [join, hproper, hroot, hne]
  unfold Text.pieces
  rw [hjoin, List.splitOn_append_cons_self, List.map_append]

theorem slash_mem_dirOf (key : ModuleKey) (x : Digest) : '/' ∈ (dirOf key x).toList :=
  slash_mem_of_pieces (pieces_dirOf key x)

theorem pieces_entryPath (key : ModuleKey) (x : Digest) :
    Text.pieces '/' (entryPath key x) = steps key x ++ [entryName] := by
  rw [entryPath, pieces_join (slash_mem_dirOf key x) (by decide) (by decide), pieces_dirOf]
  rfl

theorem pieces_filesDir (key : ModuleKey) (x : Digest) :
    Text.pieces '/' (filesDir key x) = steps key x ++ [filesName] := by
  rw [filesDir, pieces_join (slash_mem_dirOf key x) (by decide) (by decide), pieces_dirOf]
  rfl

theorem slash_mem_filesDir (key : ModuleKey) (x : Digest) : '/' ∈ (filesDir key x).toList :=
  slash_mem_of_pieces (pieces_filesDir key x)

theorem pieces_filePath (hroot : path ≠ ".") (hne : path ≠ "") :
    Text.pieces '/' (filePath key x path) = steps key x ++ filesName :: Text.pieces '/' path := by
  rw [filePath, pieces_join (slash_mem_filesDir key x) hroot hne, pieces_filesDir, List.append_assoc]
  rfl

theorem filePath_root (h : path = "." ∨ path = "") : filePath key x path = filesDir key x := by
  have hproper := ne_of_slash (slash_mem_filesDir key x)
  simp [filePath, join, hproper, h]

theorem entryPath_congr (h : placeOf key x = placeOf key' x') :
    entryPath key x = entryPath key' x' := by
  rw [entryPath, entryPath, dirOf_congr h]

theorem filePath_congr (h : placeOf key x = placeOf key' x') (path : String) :
    filePath key x path = filePath key' x' path := by
  rw [filePath, filePath, filesDir, filesDir, dirOf_congr h]

/-! ### Different paths -/

theorem names_ne : entryName ≠ filesName := by decide

theorem split_steps {rest rest' : List String} (h : steps key x ++ rest = steps key' x' ++ rest') :
    placeOf key x = placeOf key' x' ∧ rest = rest' := by
  obtain ⟨hsteps, hrest⟩ := List.append_inj h rfl
  exact ⟨steps_inj hsteps, hrest⟩

theorem entryPath_inj (h : entryPath key x = entryPath key' x') :
    placeOf key x = placeOf key' x' := by
  have hpieces := congrArg (Text.pieces '/') h
  rw [pieces_entryPath, pieces_entryPath] at hpieces
  exact (split_steps hpieces).1

theorem filePath_inj (hroot : path ≠ ".") (hne : path ≠ "") (hpath' : IsObject path')
    (h : filePath key x path = filePath key' x' path') :
    placeOf key x = placeOf key' x' ∧ path = path' := by
  have hpieces := congrArg (Text.pieces '/') h
  rw [pieces_filePath hroot hne, pieces_filePath hpath'.2 hpath'.1.ne_empty] at hpieces
  obtain ⟨hplace, hrest⟩ := split_steps hpieces
  exact ⟨hplace, Volume.pieces_inj.1 (List.cons.inj hrest).2⟩

theorem entryPath_ne_filePath (hroot : path ≠ ".") (hne : path ≠ "") :
    entryPath key x ≠ filePath key' x' path := by
  intro h
  have hpieces := congrArg (Text.pieces '/') h
  rw [pieces_entryPath, pieces_filePath hroot hne] at hpieces
  exact names_ne (List.cons.inj (split_steps hpieces).2).1

theorem filesDir_ne_entryPath : filesDir key x ≠ entryPath key' x' := by
  intro h
  have hpieces := congrArg (Text.pieces '/') h
  rw [pieces_filesDir, pieces_entryPath] at hpieces
  exact names_ne (List.cons.inj (split_steps hpieces).2).1.symm

theorem filesDir_ne_filePath (hpath : IsObject path) : filesDir key x ≠ filePath key' x' path := by
  intro h
  have hpieces := congrArg (Text.pieces '/') h
  rw [pieces_filesDir, pieces_filePath hpath.2 hpath.1.ne_empty] at hpieces
  have hnil := (List.cons.inj (split_steps hpieces).2).2
  have hne := List.splitOn_ne_nil '/' path.toList
  exact hne (List.map_eq_nil_iff.1 hnil.symm)

/-! ### Paths of objects -/

theorem isObject_of_pieces {p : String} (hroot : p ≠ ".")
    (h : ∀ name ∈ Text.pieces '/' p, Path.IsName name.toList) : IsObject p := by
  refine ⟨fun c hc => ?_, hroot⟩
  rw [pieces_eq hroot] at h
  have hname := h _ (List.mem_map_of_mem hc)
  rwa [String.toList_ofList] at hname

/-- Where an entry may be written, so may the files beside it. -/
theorem isNormal_filesDir (h : IsObject (entryPath key x)) : IsNormal (filesDir key x) := by
  have hnames := Volume.isName_of_mem_pieces h
  rw [pieces_entryPath] at hnames
  have hproper := ne_of_slash (slash_mem_filesDir key x)
  refine (isObject_of_pieces hproper.1 fun name hname => ?_).1
  rw [pieces_filesDir] at hname
  rcases List.mem_append.1 hname with hname | hname
  · exact hnames name (List.mem_append_left _ hname)
  · rw [List.mem_singleton.1 hname]
    decide

end Schemata.Store

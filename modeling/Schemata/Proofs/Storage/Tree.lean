import Schemata.Proofs.Except
import Schemata.Proofs.Path
import Schemata.Proofs.Storage.Listing

/-!
# The files of a tree

A tree holds files under lists of names. A walk from a folder shows the files whose names begin with
those that lead to the folder.
-/

namespace Schemata.Storage

open Schemata.Path (IsNormal IsName components components_of_ne covers)

/-! ### Names -/

/-- A name that a file system takes. -/
structure ValidName (name : String) : Prop where
  isName : IsName name.toList
  short : name.utf8ByteSize ≤ maxNameBytes
  noNul : hasNul name = false

mutual

/-- Whether all names in a node are valid, and no two in one folder are equal. -/
def Node.Named : Node → Prop
  | .file _ => True
  | .folder entries => Entries.Named entries

def Entries.Named : Entries → Prop
  | .nil => True
  | .cons name node rest => ValidName name ∧ rest.find? name = none ∧ node.Named ∧ rest.Named

end

mutual

/-- The lists of names that lead to the files of a node. -/
def Node.fileNames : Node → List (List String)
  | .file _ => [[]]
  | .folder entries => Entries.fileNames entries

def Entries.fileNames : Entries → List (List String)
  | .nil => []
  | .cons name node rest => (node.fileNames).map (name :: ·) ++ rest.fileNames

end

mutual

theorem Node.valid_of_mem : (node : Node) → node.Named → ∀ names ∈ node.fileNames,
    ∀ name ∈ names, ValidName name
  | .file _, _, names, hnames, name, hname => by
    rw [Node.fileNames, List.mem_singleton] at hnames
    rw [hnames] at hname
    cases hname
  | .folder entries, h, names, hnames, name, hname => by
    rw [Node.Named] at h
    rw [Node.fileNames] at hnames
    exact Entries.valid_of_mem entries h names hnames name hname

theorem Entries.valid_of_mem : (entries : Entries) → entries.Named → ∀ names ∈ entries.fileNames,
    ∀ name ∈ names, ValidName name
  | .nil, _, names, hnames, _, _ => by
    rw [Entries.fileNames] at hnames
    cases hnames
  | .cons first node rest, h, names, hnames, name, hname => by
    rw [Entries.Named] at h
    obtain ⟨hfirst, _, hnode, hrest⟩ := h
    rw [Entries.fileNames, List.mem_append, List.mem_map] at hnames
    rcases hnames with ⟨names', hnames', rfl⟩ | hnames
    · rcases List.mem_cons.1 hname with rfl | hname
      · exact hfirst
      · exact Node.valid_of_mem node hnode names' hnames' name hname
    · exact Entries.valid_of_mem rest hrest names hnames name hname

end

theorem Entries.ne_nil_of_mem : (entries : Entries) → ∀ names ∈ entries.fileNames, names ≠ []
  | .nil, names, hnames => by
    rw [fileNames] at hnames
    cases hnames
  | .cons first node rest, names, hnames => by
    rw [fileNames, List.mem_append, List.mem_map] at hnames
    rcases hnames with ⟨names', _, rfl⟩ | hnames
    · exact List.cons_ne_nil _ _
    · exact Entries.ne_nil_of_mem rest names hnames

/-! ### Walks -/

mutual

theorem Node.shown_stops : (node : Node) → (path : List String) →
    Tour.shown ⟨node.stops path, none⟩ =
      node.fileNames.map fun names => .plain (Text.joined '/' (path ++ names))
  | .file _, path => by
    simp [Node.stops, Node.fileNames, Tour.shown]
  | .folder entries, path => by
    rw [Node.stops, Node.fileNames]
    exact Node.shown_stopsIn entries path

theorem Node.shown_stopsIn : (entries : Entries) → (path : List String) →
    Tour.shown ⟨Node.stopsIn path entries, none⟩ =
      entries.fileNames.map fun names => .plain (Text.joined '/' (path ++ names))
  | .nil, path => by simp [Node.stopsIn, Entries.fileNames, Tour.shown]
  | .cons name node rest, path => by
    have hnode := Node.shown_stops node (path ++ [name])
    have hrest := Node.shown_stopsIn rest path
    simp only [Tour.shown] at hnode hrest ⊢
    rw [Node.stopsIn, List.filterMap_append, hnode, hrest, Entries.fileNames, List.map_append,
      List.map_map]
    simp

end

/-! ### Looking up -/

theorem Entries.find?_none_of_mem {entries : Entries} {name : String} {names : List String}
    (h : entries.find? name = none) : name :: names ∉ entries.fileNames := by
  match entries with
  | .nil =>
    rw [fileNames]
    exact List.not_mem_nil
  | .cons first node rest =>
    simp only [find?] at h
    split at h
    · cases h
    · rename_i hne
      rw [fileNames, List.mem_append, List.mem_map]
      rintro (⟨names', _, heq⟩ | hmem)
      · exact hne (List.cons.inj heq).1
      · exact find?_none_of_mem h hmem

theorem Entries.cons_mem_fileNames {entries : Entries} (hnamed : entries.Named) {name : String}
    {names : List String} :
    name :: names ∈ entries.fileNames ↔
      ∃ node, entries.find? name = some node ∧ names ∈ node.fileNames := by
  match entries with
  | .nil => simp [fileNames, find?]
  | .cons first node rest =>
    rw [Named] at hnamed
    obtain ⟨_, hnew, _, hrest⟩ := hnamed
    rw [fileNames, List.mem_append, List.mem_map, cons_mem_fileNames hrest]
    simp only [find?]
    split
    · rename_i heq
      subst heq
      simp [hnew]
    · rename_i hne
      simp [hne]

theorem Entries.named_of_find? {entries : Entries} (hnamed : entries.Named) {name : String}
    {node : Node} (h : entries.find? name = some node) : ValidName name ∧ node.Named := by
  match entries with
  | .nil => cases h
  | .cons first child rest =>
    rw [Named] at hnamed
    obtain ⟨hfirst, _, hchild, hrest⟩ := hnamed
    simp only [find?] at h
    split at h
    · rename_i heq
      cases h
      exact ⟨heq ▸ hfirst, hchild⟩
    · exact named_of_find? hrest h

namespace Node

theorem nil_mem_fileNames {node : Node} : [] ∈ node.fileNames ↔ ∃ c, node = .file c := by
  cases node with
  | file c => simp [fileNames]
  | folder entries =>
    rw [fileNames]
    refine iff_of_false (fun h => entries.ne_nil_of_mem [] h rfl) ?_
    rintro ⟨c, hc⟩
    cases hc

/-- The files below the node that some names lead to. -/
theorem append_mem_fileNames {node : Node} (hnamed : node.Named) {names rest : List String} :
    names ++ rest ∈ node.fileNames ↔ ∃ n, node.walkTo names = .ok n ∧ rest ∈ n.fileNames := by
  -- each name leads one folder down, so the node changes along the list
  induction names generalizing node with
  | nil => simp [walkTo]
  | cons name names ih =>
    cases node with
    | file c => simp [fileNames, walkTo]
    | folder entries =>
      rw [Named] at hnamed
      rw [fileNames, List.cons_append, Entries.cons_mem_fileNames hnamed, walkTo]
      cases hfind : entries.find? name with
      | none =>
        simp only [reduceCtorEq, false_and, exists_false, false_iff, not_exists, not_and]
        intro n hn
        split at hn <;> cases hn
      | some child =>
        obtain ⟨hvalid, hchild⟩ := Entries.named_of_find? hnamed hfind
        simp [ih hchild, Nat.not_lt.2 hvalid.short]

end Node

/-! ### Valid trees -/

theorem pathBytes_append (names rest : List String) :
    pathBytes (names ++ rest) = pathBytes names + pathBytes rest := by
  induction names with
  | nil => simp [pathBytes]
  | cons name names ih =>
    simp only [pathBytes, List.cons_append, List.foldr_cons] at ih ⊢
    omega

/-- A tree as a file system keeps it: its names are valid, and no file lies too deep. -/
structure Node.Valid (root : Node) : Prop where
  isFolder : ∃ entries, root = .folder entries
  named : root.Named
  short : ∀ names ∈ root.fileNames, pathBytes names ≤ maxPathBytes

namespace Node

variable {root : Node} {names rest : List String}

theorem Valid.ne_nil (h : root.Valid) (hmem : names ∈ root.fileNames) : names ≠ [] := by
  obtain ⟨entries, rfl⟩ := h.isFolder
  rw [fileNames] at hmem
  exact entries.ne_nil_of_mem names hmem

theorem Valid.checkPath (h : root.Valid) (hmem : names ++ rest ∈ root.fileNames) :
    checkPath names = .ok () := by
  have hbytes := h.short _ hmem
  rw [pathBytes_append] at hbytes
  have hnul : names.any hasNul = false := by
    refine List.any_eq_false.2 fun name hname => ?_
    have hvalid := valid_of_mem root h.named _ hmem name (List.mem_append_left _ hname)
    simp [hvalid.noNul]
  rw [Storage.checkPath, hnul, if_neg Bool.false_ne_true, if_neg (by omega)]

theorem Valid.append_mem (h : root.Valid) :
    names ++ rest ∈ root.fileNames ↔ ∃ n, root.resolve names = .ok n ∧ rest ∈ n.fileNames := by
  have hresolve (n : Node) : root.resolve names = .ok n ↔
      Storage.checkPath names = .ok () ∧ root.walkTo names = .ok n := by
    rw [resolve, bind_eq_ok]
    exact ⟨fun ⟨_, hcheck, hn⟩ => ⟨hcheck, hn⟩, fun ⟨hcheck, hn⟩ => ⟨(), hcheck, hn⟩⟩
  constructor
  · intro hmem
    obtain ⟨n, hn, hrest⟩ := (append_mem_fileNames h.named).1 hmem
    exact ⟨n, (hresolve n).2 ⟨h.checkPath hmem, hn⟩, hrest⟩
  · rintro ⟨n, hn, hrest⟩
    exact (append_mem_fileNames h.named).2 ⟨n, ((hresolve n).1 hn).2, hrest⟩

end Node

/-! ### Paths of files -/

theorem components_joined {names : List String} (hne : names ≠ [])
    (h : ∀ name ∈ names, IsName name.toList) :
    components (Text.joined '/' names) = names.map String.toList := by
  have hjoined : Text.joined '/' names = Path.ofComponents (names.map String.toList) :=
    (Path.ofComponents_of_ne (mt List.map_eq_nil_iff.1 hne)).symm
  rw [hjoined, Path.components_ofComponents]
  simpa using h

theorem pieces_eq {dir : String} (h : dir ≠ ".") :
    Text.pieces '/' dir = (components dir).map String.ofList := by
  rw [components_of_ne h]
  rfl

theorem covers_joined {dir : String} (hdir : IsNormal dir) (hroot : dir ≠ ".")
    {names : List String} (hne : names ≠ []) (h : ∀ name ∈ names, IsName name.toList) :
    covers dir (Text.joined '/' names) = true ↔ Text.pieces '/' dir <+: names := by
  have hcomponents := components_joined hne h
  have hnormal : IsNormal (Text.joined '/' names) := by
    rw [IsNormal, hcomponents]
    simpa using h
  rw [Path.covers_iff_components hdir hnormal, hcomponents, pieces_eq hroot]
  constructor
  · intro hprefix
    simpa using hprefix.map String.ofList
  · intro hprefix
    simpa using hprefix.map String.toList

/-! ### What a tree shows -/

section Shown

variable {root : Node} {dir : String} {info : ObjectInfo}

theorem Node.mem_shown :
    info ∈ ((Volume.tree root).tour ".").shown ↔
      ∃ names ∈ root.fileNames, info = .plain (Text.joined '/' names) := by
  rw [Volume.tour, if_pos rfl, Node.shown_stops]
  simp [eq_comm]

theorem Node.Valid.isObject (h : root.Valid) {names : List String} (hmem : names ∈ root.fileNames) :
    IsNormal (Text.joined '/' names) ∧ Text.joined '/' names ≠ "." := by
  have hnames : ∀ name ∈ names, IsName name.toList := fun name hname =>
    (Node.valid_of_mem root h.named names hmem name hname).isName
  have hcomponents := components_joined (h.ne_nil hmem) hnames
  constructor
  · rw [IsNormal, hcomponents]
    simpa using hnames
  · intro hdot
    rw [hdot, Path.components_root] at hcomponents
    exact h.ne_nil hmem (List.map_eq_nil_iff.1 hcomponents.symm)

theorem Node.tour_failure (hdir : IsNormal dir) : ((Volume.tree root).tour dir).failure = none := by
  rw [Volume.tour]
  split
  · rfl
  · rename_i hroot
    rw [checkObjectPath, Path.validateObject_eq_ok.2 ⟨hdir, hroot⟩]
    simp only
    split <;> rfl

theorem Node.Valid.mem_shown_dir (h : root.Valid) (hdir : IsNormal dir) :
    info ∈ ((Volume.tree root).tour dir).shown ↔
      info ∈ ((Volume.tree root).tour ".").shown ∧ covers dir info.path = true := by
  by_cases hroot : dir = "."
  · simp [hroot]
  have hshown : info ∈ ((Volume.tree root).tour dir).shown ↔ ∃ rest n,
      root.resolve (Text.pieces '/' dir) = .ok n ∧ rest ∈ n.fileNames ∧
        info = .plain (Text.joined '/' (Text.pieces '/' dir ++ rest)) := by
    rw [Volume.tour, if_neg hroot, checkObjectPath, Path.validateObject_eq_ok.2 ⟨hdir, hroot⟩]
    simp only
    cases root.resolve (Text.pieces '/' dir) with
    | error e => simp [Tour.shown]
    | ok n =>
      simp only [Node.shown_stops, List.mem_map, Except.ok.injEq, exists_eq_left', eq_comm]
  have hcovers {names : List String} (hmem : names ∈ root.fileNames) :
      covers dir (Text.joined '/' names) = true ↔ Text.pieces '/' dir <+: names :=
    covers_joined hdir hroot (h.ne_nil hmem) fun name hname =>
      (Node.valid_of_mem root h.named names hmem name hname).isName
  rw [hshown, Node.mem_shown]
  constructor
  · rintro ⟨rest, n, hn, hrest, rfl⟩
    have hmem := h.append_mem.2 ⟨n, hn, hrest⟩
    exact ⟨⟨_, hmem, rfl⟩, (hcovers hmem).2 (List.prefix_append _ _)⟩
  · rintro ⟨⟨names, hmem, rfl⟩, hin⟩
    obtain ⟨rest, rfl⟩ := (hcovers hmem).1 hin
    obtain ⟨n, hn, hrest⟩ := h.append_mem.1 hmem
    exact ⟨rest, n, hn, hrest, rfl⟩

end Shown

end Schemata.Storage

import Schemata.Proofs.Storage.Reading

/-!
# What writing changes

A volume holds contents under paths. A write that succeeds changes what is held under its own path
alone, and one that is refused changes nothing; in a tree it may leave folders behind, which hold
nothing by themselves.
-/

namespace Schemata.Storage

/-! ### Entries of folders -/

namespace Entries

def names : Entries → List String
  | .nil => []
  | .cons name _ rest => name :: rest.names

theorem find?_insert (entries : Entries) (name : String) (node : Node) (n : String) :
    (entries.insert name node).find? n = if name = n then some node else entries.find? n := by
  match entries with
  | .nil => rfl
  | .cons first old rest =>
    unfold insert
    split
    · rfl
    · split
      · rename_i heq
        subst heq
        simp only [find?]
        split
        · rfl
        · rfl
      · rename_i hne
        simp only [find?, find?_insert rest]
        by_cases h : name = n
        · subst h
          rw [if_neg (Ne.symm hne), if_pos rfl, if_pos rfl]
        · rw [if_neg h, if_neg h]

theorem mem_names_insert {entries : Entries} {name n : String} {node : Node} :
    n ∈ (entries.insert name node).names ↔ n = name ∨ n ∈ entries.names := by
  match entries with
  | .nil => simp [insert, names]
  | .cons first old rest =>
    unfold insert
    split
    · simp [names]
    · split
      · rename_i heq
        subst heq
        simp [names]
      · simp only [names, List.mem_cons, @mem_names_insert rest]
        rw [or_left_comm]

theorem find?_eq_none {entries : Entries} {name : String} :
    entries.find? name = none ↔ name ∉ entries.names := by
  match entries with
  | .nil => simp [find?, names]
  | .cons first node rest =>
    simp only [find?, names, List.mem_cons, not_or]
    split
    · rename_i heq
      simp [heq]
    · rename_i hne
      rw [@find?_eq_none rest]
      exact (and_iff_right (Ne.symm hne)).symm

end Entries

mutual

/-- Whether the entries of every folder stand in the order of their names. -/
def Node.Ordered : Node → Prop
  | .file _ => True
  | .folder entries => Entries.Ordered entries

def Entries.Ordered : Entries → Prop
  | .nil => True
  | .cons name node rest => (∀ n ∈ rest.names, name < n) ∧ node.Ordered ∧ rest.Ordered

end

/-- A node as writing makes it: in order, and with valid names. -/
structure Node.Tidy (node : Node) : Prop where
  ordered : node.Ordered
  named : node.Named

theorem Node.tidy_folder {entries : Entries} :
    (Node.folder entries).Tidy ↔ entries.Ordered ∧ entries.Named := by
  constructor
  · rintro ⟨hordered, hnamed⟩
    rw [Node.Ordered] at hordered
    rw [Node.Named] at hnamed
    exact ⟨hordered, hnamed⟩
  · rintro ⟨hordered, hnamed⟩
    refine ⟨?_, ?_⟩
    · rwa [Node.Ordered]
    · rwa [Node.Named]

namespace Entries

theorem ordered_of_find? {entries : Entries} (h : entries.Ordered) {name : String} {node : Node}
    (hfind : entries.find? name = some node) : node.Ordered := by
  match entries with
  | .nil => cases hfind
  | .cons first child rest =>
    rw [Ordered] at h
    simp only [find?] at hfind
    split at hfind
    · cases hfind
      exact h.2.1
    · exact ordered_of_find? h.2.2 hfind

theorem tidy_find? {entries : Entries} (h : (Node.folder entries).Tidy) {name : String}
    {node : Node} (hfind : entries.find? name = some node) : ValidName name ∧ node.Tidy := by
  obtain ⟨hordered, hnamed⟩ := Node.tidy_folder.1 h
  obtain ⟨hname, hnode⟩ := named_of_find? hnamed hfind
  exact ⟨hname, ordered_of_find? hordered hfind, hnode⟩

theorem lt_names_cons {name first : String} {old : Node} {rest : Entries} (hbefore : name < first)
    (hlt : ∀ n ∈ rest.names, first < n) : ∀ n ∈ (cons first old rest).names, name < n :=
  List.forall_mem_cons.2 ⟨hbefore, fun n hn => String.lt_trans hbefore (hlt n hn)⟩

theorem ordered_insert {entries : Entries} (h : entries.Ordered) {name : String} {node : Node}
    (hnode : node.Ordered) : (entries.insert name node).Ordered := by
  match entries with
  | .nil => simp [insert, Ordered, names, hnode]
  | .cons first old rest =>
    rw [Ordered] at h
    obtain ⟨hlt, hold, hrest⟩ := h
    unfold insert
    split
    · rename_i hbefore
      rw [Ordered, Ordered]
      exact ⟨lt_names_cons hbefore hlt, hnode, hlt, hold, hrest⟩
    · split
      · rename_i heq
        subst heq
        rw [Ordered]
        exact ⟨hlt, hnode, hrest⟩
      · rename_i hnot hne
        rw [Ordered]
        refine ⟨fun n hn => ?_, hold, ordered_insert hrest hnode⟩
        rcases mem_names_insert.1 hn with rfl | hn
        · exact Table.lt_of_not_lt hnot hne
        · exact hlt n hn

-- without the order a name could be put before an older entry of that name
theorem named_insert {entries : Entries} (hordered : entries.Ordered) (h : entries.Named)
    {name : String} {node : Node} (hname : ValidName name) (hnode : node.Named) :
    (entries.insert name node).Named := by
  match entries with
  | .nil => simp [insert, Named, find?, hname, hnode]
  | .cons first old rest =>
    rw [Ordered] at hordered
    rw [Named] at h
    obtain ⟨hlt, _, hrestOrdered⟩ := hordered
    obtain ⟨hfirst, hnew, hold, hrest⟩ := h
    unfold insert
    split
    · rename_i hbefore
      have hnone : (cons first old rest).find? name = none :=
        find?_eq_none.2 fun hmem => String.lt_irrefl _ (lt_names_cons hbefore hlt name hmem)
      rw [Named, Named]
      exact ⟨hname, hnone, hnode, hfirst, hnew, hold, hrest⟩
    · split
      · rename_i heq
        subst heq
        rw [Named]
        exact ⟨hname, hnew, hnode, hrest⟩
      · rename_i hnot hne
        rw [Named]
        refine ⟨hfirst, ?_, hold, named_insert hrestOrdered hrest hname hnode⟩
        rw [find?_insert, if_neg hne]
        exact hnew

theorem tidy_insert {entries : Entries} (h : (Node.folder entries).Tidy) {name : String}
    {node : Node} (hname : ValidName name) (hnode : node.Tidy) :
    (Node.folder (entries.insert name node)).Tidy := by
  obtain ⟨hordered, hnamed⟩ := Node.tidy_folder.1 h
  exact Node.tidy_folder.2
    ⟨ordered_insert hordered hnode.ordered, named_insert hordered hnamed hname hnode.named⟩

end Entries

/-! ### Files of trees -/

namespace Node

/-- The content of the file that names lead to. -/
def fileAt : Node → List String → Option ByteArray
  | .file content, [] => some content
  | .folder _, [] => none
  | .file _, _ :: _ => none
  | .folder entries, name :: names =>
    if name.utf8ByteSize > maxNameBytes then none
    else (entries.find? name).bind fun node => node.fileAt names

theorem fileAt_eq_some {node : Node} {names : List String} {content : ByteArray} :
    node.fileAt names = some content ↔ node.walkTo names = .ok (.file content) := by
  induction names generalizing node with
  | nil => cases node <;> simp [fileAt, walkTo]
  | cons name names ih =>
    cases node with
    | file c => simp [fileAt, walkTo]
    | folder entries =>
      rw [fileAt, walkTo]
      split
      · simp
      · cases entries.find? name with
        | none => simp
        | some child => simp [ih]

theorem fileAt_insert {entries : Entries} {name : String} {old new : Node}
    (hold : entries.find? name = some old ∨ entries.find? name = none ∧ ∀ ns, old.fileAt ns = none)
    {names : List String} (h : ∀ ns, name :: ns = names → new.fileAt ns = old.fileAt ns) :
    (Node.folder (entries.insert name new)).fileAt names = (Node.folder entries).fileAt names := by
  cases names with
  | nil => rfl
  | cons n ns =>
    rw [fileAt, fileAt, Entries.find?_insert]
    by_cases heq : name = n
    · subst heq
      rw [if_pos rfl, Option.bind_some, h ns rfl]
      rcases hold with hold | ⟨hnone, hempty⟩
      · rw [hold, Option.bind_some]
      · rw [hnone, hempty]
        rfl
    · rw [if_neg heq]

theorem fileAt_empty (names : List String) : (Node.folder .nil).fileAt names = none := by
  cases names with
  | nil => rfl
  | cons name names =>
    rw [fileAt]
    split
    · rfl
    · rfl

theorem tidy_empty : (Node.folder .nil).Tidy := ⟨by simp [Ordered, Entries.Ordered],
  by simp [Named, Entries.Named]⟩

/-- Making folders leaves a folder as it is, or goes on in one of its entries, which is new if there
was none. -/
theorem makeFolders_cases (entries : Entries) (path : List String) :
    ((Node.folder entries).makeFolders path).1 = .folder entries ∨
      ∃ name names child, path = name :: names ∧ name.utf8ByteSize ≤ maxNameBytes ∧
        (entries.find? name = some child ∨ entries.find? name = none ∧ child = .folder .nil) ∧
        ((Node.folder entries).makeFolders path).1 =
          .folder (entries.insert name (child.makeFolders names).1) := by
  cases path with
  | nil => exact .inl rfl
  | cons name names =>
    rw [makeFolders.eq_def]
    simp only
    split
    · exact .inl rfl
    · rename_i hlong
      split
      · exact .inl rfl
      · rename_i child hfind _
        exact .inr ⟨name, _, child, rfl, Nat.not_lt.1 hlong, .inl hfind, rfl⟩
      · rename_i hfind
        exact .inr ⟨name, _, .folder .nil, rfl, Nat.not_lt.1 hlong, .inr ⟨hfind, rfl⟩, rfl⟩

/-- Making folders changes no file. -/
theorem fileAt_makeFolders (node : Node) (path names : List String) :
    (node.makeFolders path).1.fileAt names = node.fileAt names := by
  induction path generalizing node names with
  | nil => cases node <;> rfl
  | cons name path ih =>
    cases node with
    | file content => rfl
    | folder entries =>
      obtain hsame | ⟨_, _, child, hpath, _, hchild, hmade⟩ :=
        makeFolders_cases entries (name :: path)
      · rw [hsame]
      · cases hpath
        rw [hmade]
        refine fileAt_insert (hchild.imp_right ?_) fun ns _ => ih child ns
        rintro ⟨hnone, rfl⟩
        exact ⟨hnone, fileAt_empty⟩

/-- Whether the names of a path may become names in a tree, but for their length. -/
def Fitting (path : List String) : Prop :=
  ∀ name ∈ path, Path.IsName name.toList ∧ hasNul name = false

theorem Fitting.valid {name : String} {path : List String} (h : Fitting (name :: path))
    (hshort : name.utf8ByteSize ≤ maxNameBytes) : ValidName name :=
  ⟨(h name List.mem_cons_self).1, hshort, (h name List.mem_cons_self).2⟩

theorem Fitting.tail {name : String} {path : List String} (h : Fitting (name :: path)) :
    Fitting path :=
  (List.forall_mem_cons.1 h).2

theorem tidy_makeFolders {node : Node} (h : node.Tidy) {path : List String} (hpath : Fitting path) :
    (node.makeFolders path).1.Tidy := by
  induction path generalizing node with
  | nil => cases node <;> exact h
  | cons name path ih =>
    cases node with
    | file content => exact h
    | folder entries =>
      obtain hsame | ⟨_, _, child, heq, hshort, hchild, hmade⟩ :=
        makeFolders_cases entries (name :: path)
      · rwa [hsame]
      · cases heq
        rw [hmade]
        have htidy : child.Tidy := by
          rcases hchild with hfind | ⟨_, rfl⟩
          · exact (Entries.tidy_find? h hfind).2
          · exact tidy_empty
        exact Entries.tidy_insert h (hpath.valid hshort) (ih htidy hpath.tail)

/-- A write that succeeds puts the file into a folder, or goes on in one of its entries. -/
theorem writeFile_cases {node node' : Node} {content : ByteArray} {path : List String}
    (h : node.writeFile content path = .ok node') :
    ∃ entries name names new, node = .folder entries ∧ path = name :: names ∧
      node' = .folder (entries.insert name new) ∧
      ((names = [] ∧ name.utf8ByteSize ≤ maxNameBytes ∧ new = .file content ∧
          ∀ inner, entries.find? name ≠ some (.folder inner)) ∨
        ∃ child, names ≠ [] ∧ entries.find? name = some child ∧
          child.writeFile content names = .ok new) := by
  cases path with
  | nil => cases h
  | cons name names =>
    cases node with
    | file c => cases names <;> cases h
    | folder entries =>
      cases names with
      | nil =>
        rw [writeFile] at h
        split at h
        · cases h
        · rename_i hlong
          split at h
          · cases h
          · rename_i hnofolder
            cases h
            exact ⟨entries, name, [], _, rfl, rfl, rfl,
              .inl ⟨rfl, Nat.not_lt.1 hlong, rfl, hnofolder⟩⟩
      | cons next names =>
        rw [writeFile] at h
        · split at h
          · rename_i child hfind
            obtain ⟨new, hchild, h⟩ := bind_eq_ok.1 h
            cases h
            exact ⟨entries, name, _, new, rfl, rfl, rfl, .inr ⟨child, nofun, hfind, hchild⟩⟩
          · cases h
        · simp

theorem fileAt_insert_cons {entries : Entries} {name : String} {new : Node}
    (hshort : name.utf8ByteSize ≤ maxNameBytes) (n : String) (ns : List String) :
    (Node.folder (entries.insert name new)).fileAt (n :: ns) =
      if n = name then new.fileAt ns else (Node.folder entries).fileAt (n :: ns) := by
  rw [fileAt, fileAt, Entries.find?_insert]
  by_cases heq : n = name
  · subst heq
    rw [if_pos rfl, if_pos rfl, if_neg (Nat.not_lt.2 hshort), Option.bind_some]
  · rw [if_neg (Ne.symm heq), if_neg heq]

/-- Below what is no folder there is no file. -/
theorem fileAt_cons_eq_none {entries : Entries} {name : String}
    (h : ∀ inner, entries.find? name ≠ some (.folder inner)) {ns : List String} (hne : ns ≠ []) :
    (Node.folder entries).fileAt (name :: ns) = none := by
  rw [fileAt]
  split
  · rfl
  · cases hfind : entries.find? name with
    | none => rfl
    | some node =>
      cases node with
      | file c => cases ns with
        | nil => exact absurd rfl hne
        | cons n ns => rfl
      | folder inner => exact absurd hfind (h inner)

theorem fileAt_writeFile {node node' : Node} (htidy : node.Tidy) {content : ByteArray}
    {path : List String} (h : node.writeFile content path = .ok node') (names : List String) :
    node'.fileAt names = if names = path then some content else node.fileAt names := by
  induction path generalizing node node' names with
  | nil => cases h
  | cons name path ih =>
    obtain ⟨entries, _, _, new, rfl, hpath, rfl, hnew⟩ := writeFile_cases h
    cases hpath
    have hshort : name.utf8ByteSize ≤ maxNameBytes := by
      rcases hnew with ⟨_, hshort, _⟩ | ⟨child, _, hfind, _⟩
      · exact hshort
      · exact (Entries.tidy_find? htidy hfind).1.short
    cases names with
    | nil => rfl
    | cons n ns =>
      rw [fileAt_insert_cons hshort]
      by_cases heq : n = name
      · subst heq
        simp only [if_true, List.cons.injEq, true_and]
        rcases hnew with ⟨rfl, _, rfl, hnofolder⟩ | ⟨child, _, hfind, hchild⟩
        · by_cases hns : ns = []
          · subst hns
            rfl
          · rw [if_neg hns, fileAt_cons_eq_none hnofolder hns]
            cases ns with
            | nil => exact absurd rfl hns
            | cons m ms => rfl
        · rw [ih (Entries.tidy_find? htidy hfind).2 hchild, fileAt, if_neg (Nat.not_lt.2 hshort),
            hfind, Option.bind_some]
      · have hne : n :: ns ≠ name :: path := fun h => heq (List.cons.inj h).1
        rw [if_neg heq, if_neg hne]

theorem tidy_writeFile {node node' : Node} (h : node.Tidy) {content : ByteArray}
    {path : List String} (hpath : Fitting path)
    (hwrite : node.writeFile content path = .ok node') : node'.Tidy := by
  induction path generalizing node node' with
  | nil => cases hwrite
  | cons name path ih =>
    obtain ⟨entries, _, _, new, rfl, heq, rfl, hnew⟩ := writeFile_cases hwrite
    cases heq
    rcases hnew with ⟨_, hshort, rfl, _⟩ | ⟨child, _, hfind, hchild⟩
    · have hfile : (Node.file content).Tidy := ⟨by simp [Ordered], by simp [Named]⟩
      exact Entries.tidy_insert h (hpath.valid hshort) hfile
    · obtain ⟨hvalid, htidy⟩ := Entries.tidy_find? h hfind
      exact Entries.tidy_insert h hvalid (ih htidy hpath.tail hchild)

theorem checkPath_eq_ok {path : List String} :
    checkPath path = .ok () ↔ (∀ name ∈ path, hasNul name = false) ∧ pathBytes path ≤ maxPathBytes := by
  unfold checkPath
  by_cases hnul : path.any hasNul = true
  · rw [if_pos hnul]
    refine iff_of_false nofun fun h => ?_
    obtain ⟨name, hname, hin⟩ := List.any_eq_true.1 hnul
    rw [h.1 name hname] at hin
    cases hin
  · have hall : ∀ name ∈ path, hasNul name = false := fun name hname =>
      Bool.eq_false_iff.2 fun hin => hnul (List.any_eq_true.2 ⟨name, hname, hin⟩)
    rw [if_neg hnul]
    split
    · exact iff_of_false nofun fun h => by omega
    · exact iff_of_true rfl ⟨hall, by omega⟩

/-- What writing leaves: the file, or all as it was. -/
theorem put_cases {root root' : Node} (htidy : root.Tidy) {path : List String}
    (hpath : ∀ name ∈ path, Path.IsName name.toList) {content : ByteArray}
    {refusal : Option FsError} (h : root.put path content = (root', refusal)) :
    root'.Tidy ∧ (refusal = none → checkPath path = .ok ()) ∧ ∀ names, root'.fileAt names =
      if refusal = none ∧ names = path then some content else root.fileAt names := by
  unfold put at h
  split at h
  · cases h
    exact ⟨htidy, nofun, fun names => by simp⟩
  · rename_i hcheck
    have hfolders : Fitting path.dropLast := fun name hname =>
      ⟨hpath name (List.dropLast_subset _ hname), (checkPath_eq_ok.1 hcheck).1 name hname⟩
    have hmade := tidy_makeFolders htidy hfolders
    have hsame := fileAt_makeFolders root path.dropLast
    split at h
    · rename_i made e hmakes
      cases h
      rw [hmakes] at hmade hsame
      exact ⟨hmade, nofun, fun names => by simpa using hsame names⟩
    · rename_i made hmakes
      rw [hmakes] at hmade hsame
      split at h
      · rename_i written hwritten
        cases h
        obtain ⟨⟨⟩, hfits, hwrite⟩ := bind_eq_ok.1 hwritten
        have hfitting : Fitting path := fun name hname =>
          ⟨hpath name hname, (checkPath_eq_ok.1 hfits).1 name hname⟩
        refine ⟨tidy_writeFile hmade hfitting hwrite, fun _ => hfits, fun names => ?_⟩
        rw [fileAt_writeFile hmade hwrite, hsame]
        simp
      · cases h
        exact ⟨hmade, nofun, fun names => by simpa using hsame names⟩

theorem isFolder_put {entries : Entries} (path : List String) (content : ByteArray) :
    ∃ entries', ((Node.folder entries).put path content).1 = .folder entries' := by
  obtain ⟨made, hmade⟩ : ∃ made, ((Node.folder entries).makeFolders path.dropLast).1 =
      .folder made := by
    obtain hsame | ⟨_, _, _, _, _, _, hmade⟩ := makeFolders_cases entries path.dropLast
    · exact ⟨_, hsame⟩
    · exact ⟨_, hmade⟩
  unfold put
  split
  · exact ⟨_, rfl⟩
  · split
    · rename_i hmakes
      rw [hmakes] at hmade
      exact ⟨_, hmade⟩
    · rename_i hmakes
      rw [hmakes] at hmade
      split
      · rename_i written hwritten
        obtain ⟨_, _, hwrite⟩ := bind_eq_ok.1 hwritten
        obtain ⟨_, _, _, _, _, _, rfl, _⟩ := writeFile_cases hwrite
        exact ⟨_, rfl⟩
      · exact ⟨_, hmade⟩

theorem mem_fileNames_iff {root : Node} (h : root.Named) {names : List String} :
    names ∈ root.fileNames ↔ ∃ content, root.fileAt names = some content := by
  have happend : names ++ [] ∈ root.fileNames ↔ _ := append_mem_fileNames h
  rw [List.append_nil] at happend
  rw [happend]
  simp only [nil_mem_fileNames, fileAt_eq_some]
  constructor
  · rintro ⟨_, hwalk, content, rfl⟩
    exact ⟨content, hwalk⟩
  · rintro ⟨content, hwalk⟩
    exact ⟨_, hwalk, content, rfl⟩

end Node

/-! ### Contents of volumes -/

namespace Volume

/-- The content that a volume holds under a path. -/
def held (v : Volume) (path : String) : Option ByteArray := (v.get true path).toOption.map Prod.snd

/-- A volume as writing makes it. -/
def Tidy : Volume → Prop
  | .table objects => ∀ key ∈ objects.keys, IsObject key
  | .tree root => root.Valid ∧ root.Tidy

theorem Tidy.proper {v : Volume} (h : v.Tidy) : v.Proper := by
  cases v with
  | table objects => exact h
  | tree root => exact h.1

theorem held_table (objects : Objects) (path : String) :
    (table objects).held path = objects.find? path := by
  unfold held
  rw [Volume.get]
  cases objects.find? path with
  | none => rfl
  | some content => rfl

theorem held_eq_none {v : Volume} (h : v.Tidy) {path : String} (hpath : ¬ IsObject path) :
    v.held path = none := by
  cases v with
  | table objects =>
    rw [held_table]
    cases hfind : objects.find? path with
    | none => rfl
    | some content => exact absurd (h path (Table.mem_keys.2 ⟨content, hfind⟩)) hpath
  | tree root =>
    have hcheck : checkObjectPath path ≠ .ok () := by
      intro hok
      unfold checkObjectPath at hok
      split at hok
      · rename_i hvalid
        exact hpath (Path.validateObject_eq_ok.1 hvalid)
      · cases hok
    unfold held
    rw [Volume.get]
    cases hc : checkObjectPath path with
    | ok u => exact absurd hc hcheck
    | error e => rfl

theorem isName_of_mem_pieces {path : String} (h : IsObject path) :
    ∀ name ∈ Text.pieces '/' path, Path.IsName name.toList := by
  intro name hname
  rw [pieces_eq h.2] at hname
  obtain ⟨c, hc, rfl⟩ := List.mem_map.1 hname
  rw [String.toList_ofList]
  exact h.1 c hc

theorem held_tree {root : Node} (h : root.Valid) {path : String} (hpath : IsObject path) :
    (tree root).held path = root.fileAt (Text.pieces '/' path) := by
  have hcheck : checkObjectPath path = .ok () := by
    rw [checkObjectPath, Path.validateObject_eq_ok.2 hpath]
  refine Option.ext fun content => ?_
  rw [Node.fileAt_eq_some]
  have hresolve : root.resolve (Text.pieces '/' path) = .ok (.file content) ↔
      root.walkTo (Text.pieces '/' path) = .ok (.file content) := by
    constructor
    · intro hok
      exact (bind_eq_ok.1 hok).choose_spec.2
    · intro hwalk
      have hmem : Text.pieces '/' path ++ [] ∈ root.fileNames := by
        rw [List.append_nil]
        exact (Node.mem_fileNames_iff h.named).2 ⟨content, Node.fileAt_eq_some.2 hwalk⟩
      exact bind_eq_ok.2 ⟨(), h.checkPath hmem, hwalk⟩
  rw [← hresolve]
  unfold held
  rw [Volume.get, hcheck]
  have hlive : checkLive true = .ok () := rfl
  rw [hlive]
  cases root.resolve (Text.pieces '/' path) with
  | error e =>
    show none = some content ↔ _
    simp
  | ok node =>
    cases node with
    | file c =>
      show some c = some content ↔ _
      simp
    | folder entries =>
      show none = some content ↔ _
      simp

theorem pieces_inj {p q : String} : Text.pieces '/' p = Text.pieces '/' q ↔ p = q := by
  constructor
  · intro h
    rw [← Text.joined_pieces '/' p, h, Text.joined_pieces]
  · exact congrArg _

theorem put_tree {root : Node} {v' : Volume} (h : (tree root).Tidy) {live : Bool} {path : String}
    {content : ByteArray} {outcome : Except Error Unit} (hobject : IsObject path)
    (hlive : live = true)
    (hput : (match root.put (Text.pieces '/' path) content with
      | (root, none) => (.ok (), .tree root)
      | (root, some e) => (.error (e.toError path), .tree root)) = (outcome, v')) :
    v'.Tidy ∧ (outcome = .ok () → live = true ∧ IsObject path) ∧ ∀ p, v'.held p =
      if outcome = .ok () ∧ p = path then some content else (tree root).held p := by
  obtain ⟨hvalid, htidy⟩ := h
  obtain ⟨root', refusal, hroot⟩ : ∃ root' refusal,
      root.put (Text.pieces '/' path) content = (root', refusal) := ⟨_, _, rfl⟩
  obtain ⟨htidy', hcheck, hfiles⟩ := Node.put_cases htidy (isName_of_mem_pieces hobject) hroot
  have hfolder : ∃ entries, root' = .folder entries := by
    obtain ⟨entries, rfl⟩ := hvalid.isFolder
    have hfolder := @Node.isFolder_put entries (Text.pieces '/' path) content
    rwa [hroot] at hfolder
  have hvalid' : root'.Valid := by
    refine ⟨hfolder, htidy'.named, fun names hnames => ?_⟩
    obtain ⟨c, hc⟩ := (Node.mem_fileNames_iff htidy'.named).1 hnames
    rw [hfiles] at hc
    split at hc
    · rename_i hnew
      rw [hnew.2]
      exact (Node.checkPath_eq_ok.1 (hcheck hnew.1)).2
    · exact hvalid.short names ((Node.mem_fileNames_iff hvalid.named).2 ⟨c, hc⟩)
  have hstored : v' = .tree root' ∧ (outcome = .ok () ↔ refusal = none) := by
    rw [hroot] at hput
    cases refusal with
    | none =>
      cases hput
      exact ⟨rfl, by simp⟩
    | some e =>
      cases hput
      exact ⟨rfl, by simp⟩
  obtain ⟨rfl, houtcome⟩ := hstored
  refine ⟨⟨hvalid', htidy'⟩, fun _ => ⟨hlive, hobject⟩, fun p => ?_⟩
  by_cases hp : IsObject p
  · rw [held_tree hvalid' hp, held_tree hvalid hp, hfiles]
    simp only [houtcome, pieces_inj]
  · have hne : p ≠ path := fun heq => hp (heq ▸ hobject)
    have hnone := held_eq_none (v := tree root') ⟨hvalid', htidy'⟩ hp
    have hnone' := held_eq_none (v := tree root) ⟨hvalid, htidy⟩ hp
    rw [hnone, hnone']
    simp [hne]

/-- What a write leaves: a content under its path, or all as it was. -/
theorem put_cases {v v' : Volume} (h : v.Tidy) {live : Bool} {path : String} {content : ByteArray}
    {outcome : Except Error Unit} (hput : v.put live path content = (outcome, v')) :
    v'.Tidy ∧ (outcome = .ok () → live = true ∧ IsObject path) ∧ ∀ p, v'.held p =
      if outcome = .ok () ∧ p = path then some content else v.held p := by
  unfold put at hput
  split at hput
  · cases hput
    exact ⟨h, nofun, fun p => by simp⟩
  · cases hput
    exact ⟨h, nofun, fun p => by simp⟩
  · rename_i hlive hcheck
    have hobject : IsObject path := by
      unfold checkObjectPath at hcheck
      split at hcheck
      · rename_i hvalid
        exact Path.validateObject_eq_ok.1 hvalid
      · cases hcheck
    have hlive' : live = true := by
      unfold checkLive at hlive
      split at hlive
      · assumption
      · cases hlive
    cases v with
    | table objects =>
      cases hput
      refine ⟨fun key hkey => ?_, fun _ => ⟨hlive', hobject⟩, fun p => ?_⟩
      · rcases Table.mem_keys_insert.1 hkey with rfl | hkey
        · exact hobject
        · exact h key hkey
      · rw [held_table, held_table, Table.find?_insert]
        simp [eq_comm]
    | tree root => exact put_tree h hobject hlive' hput

/-! ### Reading what is held -/

variable {v : Volume} {path : String}

theorem plain_of_get {info : ObjectInfo} {content : ByteArray}
    (h : v.get true path = .ok (info, content)) : info = .plain path := by
  cases v with
  | table objects =>
    obtain ⟨_, _, h⟩ := bind_eq_ok.1 h
    split at h
    · cases h
      rfl
    · cases h
  | tree root =>
    obtain ⟨_, _, h⟩ := bind_eq_ok.1 h
    obtain ⟨_, _, h⟩ := bind_eq_ok.1 h
    split at h
    · cases h
      rfl
    · cases h
    · cases h

theorem get_eq_ok {info : ObjectInfo} {content : ByteArray} :
    v.get true path = .ok (info, content) ↔ info = .plain path ∧ v.held path = some content := by
  unfold held
  cases hget : v.get true path with
  | error e => exact iff_of_false nofun fun h => nomatch h.2
  | ok answer =>
    obtain ⟨object, c⟩ := answer
    rw [plain_of_get hget]
    simp [Except.toOption, eq_comm]

theorem isObject_of_held (h : v.Tidy) {content : ByteArray} (hheld : v.held path = some content) :
    IsObject path := by
  by_contra hpath
  rw [held_eq_none h hpath] at hheld
  cases hheld

/-- A volume shows the paths under which it holds something. -/
theorem mem_shown_iff (h : v.Tidy) {info : ObjectInfo} :
    info ∈ (v.tour ".").shown ↔ info = .plain info.path ∧ ∃ content, v.held info.path = some content := by
  cases v with
  | table objects =>
    rw [mem_shown_table]
    simp only [held_table]
  | tree root =>
    have hvalid := h.1
    rw [Node.mem_shown]
    constructor
    · rintro ⟨names, hnames, rfl⟩
      obtain ⟨content, hcontent⟩ := (Node.mem_fileNames_iff hvalid.named).1 hnames
      have hobject := Node.Valid.isObject hvalid hnames
      have hpieces := pieces_joined (hvalid.ne_nil hnames)
        (fun name hname => (Node.valid_of_mem root hvalid.named names hnames name hname).isName)
        hobject.2
      refine ⟨rfl, content, ?_⟩
      show (tree root).held (Text.joined '/' names) = _
      rw [held_tree hvalid hobject, hpieces, hcontent]
    · rintro ⟨hplain, content, hheld⟩
      rw [held_tree hvalid (isObject_of_held h hheld)] at hheld
      refine ⟨_, (Node.mem_fileNames_iff hvalid.named).2 ⟨content, hheld⟩, ?_⟩
      rw [Text.joined_pieces]
      exact hplain

/-- Whether no file stands in the way to a path. -/
def Clear (v : Volume) (path : String) : Prop :=
  match v with
  | .table _ => True
  | .tree root => ∀ pre rest, rest ≠ [] → Text.pieces '/' path = pre ++ rest → root.fileAt pre = none

end Volume

/-- Below a file there is nothing. -/
theorem Node.fileAt_of_append {node : Node} {pre rest : List String} {content : ByteArray}
    (h : node.fileAt (pre ++ rest) = some content) (hrest : rest ≠ []) : node.fileAt pre = none := by
  induction pre generalizing node with
  | nil =>
    cases node with
    | file c =>
      obtain ⟨name, names, rfl⟩ := List.exists_cons_of_ne_nil hrest
      cases h
    | folder entries => rfl
  | cons name pre ih =>
    cases node with
    | file c => cases h
    | folder entries =>
      rw [List.cons_append, fileAt] at h
      rw [fileAt]
      split at h
      · cases h
      · rename_i hshort
        rw [if_neg hshort]
        cases hfind : entries.find? name with
        | none => rfl
        | some child =>
          rw [hfind] at h
          exact ih h

/-- Where no file stands in the way and none is there, nothing is found, or a folder. -/
theorem Node.walkTo_of_clear {node : Node} {names : List String}
    (hshort : ∀ name ∈ names, name.utf8ByteSize ≤ maxNameBytes)
    (hclear : ∀ pre rest, names = pre ++ rest → node.fileAt pre = none) :
    node.walkTo names = .error .notFound ∨ ∃ entries, node.walkTo names = .ok (.folder entries) := by
  induction names generalizing node with
  | nil =>
    cases node with
    | file c => cases hclear [] [] rfl
    | folder entries => exact .inr ⟨entries, rfl⟩
  | cons name names ih =>
    obtain ⟨hname, hnames⟩ := List.forall_mem_cons.1 hshort
    cases node with
    | file c => cases hclear [] _ rfl
    | folder entries =>
      have hfits : ¬ name.utf8ByteSize > maxNameBytes := Nat.not_lt.2 hname
      rw [walkTo, if_neg hfits]
      cases hfind : entries.find? name with
      | none => exact .inl rfl
      | some child =>
        refine ih hnames fun pre rest hsplit => ?_
        have hbelow := hclear (name :: pre) rest (by rw [hsplit]; rfl)
        rw [fileAt, if_neg hfits, hfind] at hbelow
        exact hbelow

namespace Volume

variable {v : Volume} {path : String}

theorem clear_of_held (h : v.Tidy) {content : ByteArray} (hheld : v.held path = some content) :
    v.Clear path := by
  cases v with
  | table objects => trivial
  | tree root =>
    rw [held_tree h.1 (isObject_of_held h hheld)] at hheld
    intro pre rest hrest hsplit
    rw [hsplit] at hheld
    exact Node.fileAt_of_append hheld hrest

/-- Whether the names of a path may stand in a volume. -/
def Fits (v : Volume) (path : String) : Prop :=
  match v with
  | .table _ => True
  | .tree _ => (∀ name ∈ Text.pieces '/' path, ValidName name) ∧
      pathBytes (Text.pieces '/' path) ≤ maxPathBytes

/-- Reading a path under which nothing is held finds nothing, unless a file stands in the way or
the path is too long. -/
theorem get_eq_missing (h : v.Tidy) (hpath : IsObject path) (hnone : v.held path = none)
    (hclear : v.Clear path) (hfits : v.Fits path) : v.get true path = .error (.missing path) := by
  cases v with
  | table objects =>
    rw [held_table] at hnone
    rw [Volume.get, hnone]
    rfl
  | tree root =>
    obtain ⟨hnames, hbytes⟩ := hfits
    have hcheck : checkObjectPath path = .ok () := by
      rw [checkObjectPath, Path.validateObject_eq_ok.2 hpath]
    rw [held_tree h.1 hpath] at hnone
    have hchecked : checkPath (Text.pieces '/' path) = .ok () :=
      Node.checkPath_eq_ok.2 ⟨fun name hname => (hnames name hname).noNul, hbytes⟩
    have hwalk := @Node.walkTo_of_clear root (Text.pieces '/' path)
      (fun name hname => (hnames name hname).short)
      fun pre rest hsplit => by
        by_cases hrest : rest = []
        · rw [hrest, List.append_nil] at hsplit
          rwa [← hsplit]
        · exact hclear pre rest hrest hsplit
    have hresolve : root.resolve (Text.pieces '/' path) = root.walkTo (Text.pieces '/' path) := by
      rw [Node.resolve, hchecked]
      rfl
    rw [Volume.get, hcheck, hresolve]
    rcases hwalk with hwalk | ⟨entries, hwalk⟩
    · rw [hwalk]
      rfl
    · rw [hwalk]
      rfl

/-- A volume without objects. -/
def Empty (v : Volume) : Prop := v = .table .empty ∨ v = .tree (.folder .nil)

theorem Empty.tidy (h : v.Empty) : v.Tidy := by
  rcases h with rfl | rfl
  · exact fun _ hkey => absurd hkey List.not_mem_nil
  · refine ⟨⟨⟨_, rfl⟩, Node.tidy_empty.named, fun names hnames => ?_⟩, Node.tidy_empty⟩
    rw [Node.fileNames, Entries.fileNames] at hnames
    cases hnames

theorem Empty.held (h : v.Empty) (path : String) : v.held path = none := by
  by_cases hpath : IsObject path
  · rcases h with rfl | rfl
    · rw [held_table]
      rfl
    · rw [held_tree (Empty.tidy (.inr rfl)).1 hpath, Node.fileAt_empty]
  · exact held_eq_none h.tidy hpath

end Volume

end Schemata.Storage

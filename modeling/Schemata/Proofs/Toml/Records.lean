import Mathlib.Data.List.Nodup
import Schemata.Proofs.Digest.Encoding
import Schemata.Proofs.ModuleName
import Schemata.Proofs.Toml.Writing

/-!
# Documents of records

A document that starts with one text and lists records of texts in an array, each in a table of its
own, is read back as what it was written for.
-/

namespace Schemata.Toml

/-- The fields of a record: texts under keys. -/
abbrev Fields := List (String × String)

namespace Fields

/-- Whether fields can be written as assignments, one to a line. -/
structure Plain (fields : Fields) : Prop where
  bare : ∀ f ∈ fields, IsBare f.1
  unbroken : ∀ f ∈ fields, '\n' ∉ f.2.toList
  distinct : (fields.map Prod.fst).Nodup

theorem plain_singleton {key text : String} (hkey : IsBare key) (hbreak : '\n' ∉ text.toList) :
    Plain [(key, text)] where
  bare := List.forall_mem_singleton.2 hkey
  unbroken := List.forall_mem_singleton.2 hbreak
  distinct := List.nodup_singleton _

def text (fields : Fields) : String := String.join (fields.map fun f => assignment f.1 f.2)

def statements (fields : Fields) : List Statement :=
  fields.map fun f => .assign ⟨[], f.1, .string f.2⟩

def draft (fields : Fields) : Draft := fields.map fun f => (f.1, .value (.string f.2))

def value (fields : Fields) : Value := .table (fields.map fun f => (f.1, .string f.2))

end Fields

/-- A document of a text and of records in an array. -/
structure Records where
  first : String × String
  key : String
  items : List Fields

namespace Records

structure Plain (r : Records) : Prop where
  first : Fields.Plain [r.first]
  key : IsBare r.key
  different : r.first.1 ≠ r.key
  items : ∀ fields ∈ r.items, fields.Plain

def itemText (key : String) (fields : Fields) : String := "\n[[" ++ key ++ "]]\n" ++ fields.text

def text (r : Records) : String :=
  assignment r.first.1 r.first.2 ++
    if r.items.isEmpty then r.key ++ " = []\n" else String.join (r.items.map (itemText r.key))

def value (r : Records) : Value :=
  .table [(r.first.1, .string r.first.2), (r.key, .array (r.items.map Fields.value))]

end Records

variable {fields : Fields} {key : String} {r : Records}

/-! ### Statements -/

theorem readStatements_fields (h : fields.Plain) (rest : List Char) :
    readStatements (fields.text.toList ++ rest) =
      (readStatements rest).map (fields.statements ++ ·) := by
  have hbare := h.bare
  have hunbroken := h.unbroken
  clear h
  unfold Fields.text
  rw [String.toList_join, List.flatMap_map]
  induction fields with
  | nil =>
    rw [List.flatMap_nil, List.nil_append]
    exact Option.map_id'.symm
  | cons f fields ih =>
    obtain ⟨hkey, hbare⟩ := List.forall_mem_cons.1 hbare
    obtain ⟨hbreak, hunbroken⟩ := List.forall_mem_cons.1 hunbroken
    rw [List.flatMap_cons, List.append_assoc, readStatements_assignment hkey hbreak,
      ih hbare hunbroken, Option.map_map]
    rfl

def itemStatements (key : String) (fields : Fields) : List Statement :=
  .openItem [key] :: fields.statements

theorem readStatements_item (hkey : IsBare key) (h : fields.Plain) (rest : List Char) :
    readStatements ((Records.itemText key fields).toList ++ rest) =
      (readStatements rest).map (itemStatements key fields ++ ·) := by
  have hsplit : (Records.itemText key fields).toList ++ rest =
      '\n' :: '[' :: '[' :: (key.toList ++ ']' :: ']' :: '\n' :: (fields.text.toList ++ rest)) := by
    simp [Records.itemText]
  rw [hsplit, readStatements_openItem hkey, readStatements_fields h, Option.map_map]
  rfl

theorem readStatements_items (hkey : IsBare key) {items : List Fields}
    (h : ∀ fields ∈ items, fields.Plain) :
    readStatements (String.join (items.map (Records.itemText key))).toList =
      some (items.flatMap (itemStatements key)) := by
  rw [String.toList_join, List.flatMap_map]
  induction items with
  | nil => exact readStatements_nil
  | cons fields items ih =>
    obtain ⟨hfields, hitems⟩ := List.forall_mem_cons.1 h
    rw [List.flatMap_cons, readStatements_item hkey hfields, ih hitems]
    rfl

def Records.statements (r : Records) : List Statement :=
  .assign ⟨[], r.first.1, .string r.first.2⟩ ::
    if r.items.isEmpty then [.assign ⟨[], r.key, .array []⟩]
    else r.items.flatMap (itemStatements r.key)

theorem readStatements_records (h : r.Plain) : readStatements r.text.toList = some r.statements := by
  have hfirst := h.first.bare _ List.mem_cons_self
  have hbreak := h.first.unbroken _ List.mem_cons_self
  unfold Records.text Records.statements
  rw [String.toList_append, readStatements_assignment hfirst hbreak]
  split
  · have hempty := readStatements_emptyArray r.key h.key []
    rw [readStatements_nil] at hempty
    have htext : (r.key ++ " = []\n").toList =
        r.key.toList ++ ' ' :: '=' :: ' ' :: ('[' :: ']' :: '\n' :: []) := by simp
    rw [htext, hempty]
    rfl
  · rw [readStatements_items h.key h.items]
    rfl

/-! ### Drafts -/

namespace Draft

variable {d : Draft} {node node' : Node}

theorem find?_cons_eq_none {e : String × Node} :
    find? (e :: d) key = none ↔ e.1 ≠ key ∧ d.find? key = none := by
  unfold find?
  rw [Option.map_eq_none_iff, Option.map_eq_none_iff, List.find?_cons]
  by_cases h : e.1 = key
  · simp [h]
  · simp [h, beq_eq_false_iff_ne.2 h]

theorem find?_append_of_none (h : d.find? key = none) : find? (d ++ [(key, node)]) key = some node := by
  unfold find? at h ⊢
  rw [List.find?_append, Option.map_eq_none_iff.1 h]
  simp

theorem set_of_none (h : d.find? key = none) : d.set key node = d ++ [(key, node)] := by
  induction d with
  | nil => rfl
  | cons e d ih =>
    obtain ⟨hne, hd⟩ := find?_cons_eq_none.1 h
    rw [set, if_neg hne, ih hd]
    rfl

theorem set_append_of_none (h : d.find? key = none) :
    set key node (d ++ [(key, node')]) = d ++ [(key, node)] := by
  induction d with
  | nil => simp [set]
  | cons e d ih =>
    obtain ⟨hne, hd⟩ := find?_cons_eq_none.1 h
    rw [List.cons_append, set, if_neg hne, ih hd]
    rfl

theorem assign_of_none {v : Value} (h : d.find? key = none) :
    d.assign key v [] = some (d ++ [(key, .value v)]) := by
  rw [assign, h]
  simp only
  rw [set_of_none h]

/-- A draft with the records of an array, the latest first. -/
def withItems (d : Draft) (key : String) (latest : List Fields) : Draft :=
  if latest.isEmpty then d else d ++ [(key, .tables (latest.map Fields.draft))]

theorem openItem_withItems (h : d.find? key = none) (latest : List Fields) :
    (withItems d key latest).openItem [key] = some (withItems d key ([] :: latest)) := by
  unfold openItem atHeader
  cases latest with
  | nil =>
    have hopen : (withItems d key []).find? key = none := h
    rw [hopen]
    exact congrArg some (set_of_none h)
  | cons last latest =>
    have hopen : withItems d key (last :: latest) =
        d ++ [(key, .tables ((last :: latest).map Fields.draft))] := rfl
    rw [hopen, find?_append_of_none h]
    exact congrArg some (set_append_of_none h)

theorem assignUnder_withItems (h : d.find? key = none) {last : Fields} {f : String × String}
    (hnew : find? last.draft f.1 = none) (latest : List Fields) :
    (withItems d key (last :: latest)).assignUnder [key] [] f.1 (.string f.2) =
      some (withItems d key ((last ++ [f]) :: latest)) := by
  have hopen : withItems d key (last :: latest) =
      d ++ [(key, .tables (last.draft :: latest.map Fields.draft))] := rfl
  unfold assignUnder atHeader
  rw [if_neg (List.cons_ne_nil _ _), hopen, find?_append_of_none h]
  simp only [assign_of_none hnew, Option.map_some, set_append_of_none h]
  unfold withItems Fields.draft
  simp

end Draft

open Draft (withItems)

theorem find?_draft {last : Fields} {k : String} (h : k ∉ last.map Prod.fst) :
    Draft.find? last.draft k = none := by
  induction last with
  | nil => rfl
  | cons f last ih =>
    obtain ⟨hne, hlast⟩ := not_or.1 (List.mem_cons.not.1 h)
    exact Draft.find?_cons_eq_none.2 ⟨Ne.symm hne, ih hlast⟩

theorem carryOut_fields {d : Draft} (h : d.find? key = none) {last : Fields}
    (hdistinct : ((last ++ fields).map Prod.fst).Nodup) (latest : List Fields)
    (rest : List Statement) :
    carryOut [key] (withItems d key (last :: latest)) (fields.statements ++ rest) =
      carryOut [key] (withItems d key ((last ++ fields) :: latest)) rest := by
  induction fields generalizing last with
  | nil => rw [List.append_nil]; rfl
  | cons f fields ih =>
    have hsplit : last ++ f :: fields = (last ++ [f]) ++ fields := List.append_cons last f fields
    have hnew : f.1 ∉ last.map Prod.fst := fun hmem => by
      rw [List.map_append, List.map_cons] at hdistinct
      exact (List.nodup_append.1 hdistinct).2.2 _ hmem _ List.mem_cons_self rfl
    have hassign := Draft.assignUnder_withItems h (find?_draft hnew) latest
    rw [hsplit] at hdistinct ⊢
    rw [← ih hdistinct]
    show Option.bind _ _ = _
    rw [hassign]
    rfl

theorem carryOut_item {d : Draft} (h : d.find? key = none)
    (hfields : fields.Plain) (header : List String) (latest : List Fields) (rest : List Statement) :
    carryOut header (withItems d key latest) (itemStatements key fields ++ rest) =
      carryOut [key] (withItems d key (fields :: latest)) rest := by
  show Option.bind _ _ = _
  rw [Draft.openItem_withItems h]
  exact @carryOut_fields fields key d h [] hfields.distinct latest rest

theorem carryOut_items {d : Draft} (h : d.find? key = none) {items : List Fields}
    (hitems : ∀ fields ∈ items, fields.Plain) (header : List String) (latest : List Fields) :
    carryOut header (withItems d key latest) (items.flatMap (itemStatements key)) =
      some (withItems d key (items.reverse ++ latest)) := by
  induction items generalizing header latest with
  | nil => rfl
  | cons fields items ih =>
    obtain ⟨hfields, hitems⟩ := List.forall_mem_cons.1 hitems
    rw [List.flatMap_cons, carryOut_item h hfields, ih hitems, List.reverse_cons, List.append_assoc]
    rfl

/-! ### Documents -/

theorem entriesOf_draft (fields : Fields) :
    Draft.entriesOf fields.draft = fields.map fun f => (f.1, .string f.2) := by
  induction fields with
  | nil => rfl
  | cons f fields ih =>
    show (f.1, _) :: Draft.entriesOf (Fields.draft fields) = _
    rw [ih]
    rfl

theorem tablesOf_drafts (items : List Fields) :
    Draft.tablesOf (items.map Fields.draft) = items.map Fields.value := by
  induction items with
  | nil => rfl
  | cons fields items ih =>
    rw [List.map_cons, Draft.tablesOf, ih, entriesOf_draft]
    rfl

theorem finish_statements (h : r.Plain) :
    (carryOut [] [] r.statements).map Draft.finish = some r.value := by
  obtain ⟨first, key, items⟩ := r
  have hfind : Draft.find? [(first.1, .value (.string first.2))] key = none :=
    Draft.find?_cons_eq_none.2 ⟨h.different, rfl⟩
  have hstart (rest : List Statement) :
      carryOut [] [] (.assign ⟨[], first.1, .string first.2⟩ :: rest) =
        carryOut [] (withItems [(first.1, .value (.string first.2))] key []) rest := rfl
  unfold Records.statements
  rw [hstart]
  cases items with
  | nil =>
    have hassign : carryOut [] (withItems [(first.1, .value (.string first.2))] key [])
        [.assign ⟨[], key, .array []⟩] =
          (Draft.assign key (.array []) [] [(first.1, .value (.string first.2))]).bind
            (carryOut [] · []) := rfl
    simp only [List.isEmpty_nil, if_true]
    rw [hassign, Draft.assign_of_none hfind]
    rfl
  | cons fields items =>
    have hne : (fields :: items).reverse.isEmpty = false := by simp
    simp only [List.isEmpty_cons, Bool.false_eq_true, if_false]
    rw [carryOut_items hfind h.items, List.append_nil, Option.map_some, withItems, hne]
    show some (Value.table [(first.1, .string first.2),
      (key, .array (Draft.tablesOf ((fields :: items).reverse.map Fields.draft)).reverse)]) = _
    rw [tablesOf_drafts, List.map_reverse, List.reverse_reverse]
    rfl

/-! ### Texts -/

theorem return_not_mem_assignment {key text : String} (hkey : '\r' ∉ key.toList)
    (hbreak : '\n' ∉ text.toList) : '\r' ∉ (assignment key text).toList := by
  simp [assignment, hkey, return_not_mem_writeString hbreak]

theorem return_not_mem_bare (h : IsBare key) : '\r' ∉ key.toList := fun hmem =>
  absurd (h.2 _ hmem) (by decide)

theorem return_not_mem_fields (h : fields.Plain) : '\r' ∉ fields.text.toList := by
  unfold Fields.text
  rw [String.toList_join, List.flatMap_map]
  intro hmem
  obtain ⟨f, hf, hin⟩ := List.mem_flatMap.1 hmem
  exact return_not_mem_assignment (return_not_mem_bare (h.bare f hf)) (h.unbroken f hf) hin

theorem return_not_mem_records (h : r.Plain) : '\r' ∉ r.text.toList := by
  have hfirst := return_not_mem_assignment (return_not_mem_bare (h.first.bare _ List.mem_cons_self))
    (h.first.unbroken _ List.mem_cons_self)
  have hkey := return_not_mem_bare h.key
  unfold Records.text
  rw [String.toList_append, List.mem_append, not_or]
  refine ⟨hfirst, ?_⟩
  split
  · simp [hkey]
  · rw [String.toList_join, List.flatMap_map]
    intro hmem
    obtain ⟨fields, hfields, hin⟩ := List.mem_flatMap.1 hmem
    have hnone := return_not_mem_fields (h.items fields hfields)
    simp [Records.itemText, hkey, hnone] at hin

/-- A bare key is no byte order mark. -/
theorem withoutMark_records (h : r.Plain) : withoutMark r.text.toList = r.text.toList := by
  obtain ⟨hne, hall⟩ := h.first.bare _ List.mem_cons_self
  obtain ⟨c, cs, hcs⟩ := List.exists_cons_of_ne_nil hne
  have hc : c ≠ '\uFEFF' := by
    rintro rfl
    exact absurd (hall _ (hcs ▸ List.mem_cons_self)) (by decide)
  unfold Records.text assignment
  simp only [String.toList_append, hcs, List.cons_append]
  rw [withoutMark]
  rintro s ⟨⟩
  exact hc rfl

/-- A document of records is read back. -/
theorem parse_records (h : r.Plain) : Toml.parse r.text = some r.value := by
  obtain ⟨draft, hdraft, hvalue⟩ := Option.map_eq_some_iff.1 (finish_statements h)
  unfold Toml.parse
  simp only [withoutMark_records h, unifyLineEnds_eq (return_not_mem_records h),
    readStatements_records h, Option.bind_eq_bind, Option.bind_some, hdraft, Option.pure_def, hvalue]

/-! ### Commits as records -/

/-- The fields that tell a commit: the module's name, the commit, and its digest if there is one. -/
def commitFields (name : ModuleName) (commit : CommitId) (digest : Option Digest) : Fields :=
  ("name", name.text) :: ("commit", commit.text) :: digest.toList.map fun d => ("digest", d.text)

theorem plain_commitFields (name : ModuleName) (commit : CommitId) (digest : Option Digest) :
    (commitFields name commit digest).Plain := by
  have hname : '\n' ∉ name.text.toList := name.not_mem_text (by decide) (by decide)
  have hcommit : '\n' ∉ commit.text.toList := commit.not_mem_text (by decide)
  cases digest with
  | none =>
    refine ⟨?_, by simp [commitFields, hname, hcommit], by simp [commitFields]⟩
    simp only [commitFields, Option.toList_none, List.map_nil, List.forall_mem_cons]
    decide
  | some d =>
    refine ⟨?_, by simp [commitFields, hname, hcommit, d.newline_not_mem_text], by simp [commitFields]⟩
    simp only [commitFields, Option.toList_some, List.map_cons, List.map_nil, List.forall_mem_cons]
    decide

theorem fields?_commitFields (name : ModuleName) (commit : CommitId) (digest : Option Digest) :
    (commitFields name commit digest).value.fields? ["name", "commit", "digest"] =
      some [some (.string name.text), some (.string commit.text),
        digest.map fun d => .string d.text] := by
  cases digest with
  | none => rfl
  | some d => rfl

end Schemata.Toml

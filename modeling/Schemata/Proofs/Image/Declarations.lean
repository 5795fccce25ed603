import Schemata.Image.Symbols
import Schemata.Proofs.Schema.Bare

/-!
# Declared types

The table of symbols is made of the declarations of all files, in order. It has no complaints
exactly when their full names are different, and then it knows each of them.
-/

namespace Schemata.Image

open Source

/-! ### Declarations -/

mutual

/-- A declared type and the types inside it, under their full names. -/
def declarations (file : FileId) (scope : String) : Schema.Item → List (String × Symbol)
  | .message decl nested =>
    (qualify scope decl.name, ⟨true, file, decl.nameSpan⟩) ::
      declarationsIn file (qualify scope decl.name) nested
  | .enumeration decl => [(qualify scope decl.name, ⟨false, file, decl.nameSpan⟩)]

/-- The declared types of a scope under their full names. -/
def declarationsIn (file : FileId) (scope : String) : List Schema.Item → List (String × Symbol)
  | [] => []
  | item :: items => declarations file scope item ++ declarationsIn file scope items

end

/-- The declared types of a file under their full names. -/
def declarationsOf (number : FileId) (f : Schema.File) : List (String × Symbol) :=
  declarationsIn number f.packageName f.items

mutual

theorem file_declarations (number : FileId) (scope : String) : (item : Schema.Item) →
    ∀ d ∈ declarations number scope item, d.2.file = number
  | .message decl nested => by
    rw [declarations, List.forall_mem_cons]
    exact ⟨rfl, file_declarationsIn number (qualify scope decl.name) nested⟩
  | .enumeration decl => by
    rw [declarations, List.forall_mem_singleton]

theorem file_declarationsIn (number : FileId) (scope : String) : (items : List Schema.Item) →
    ∀ d ∈ declarationsIn number scope items, d.2.file = number
  | [] => fun _ hd => absurd hd List.not_mem_nil
  | item :: items => by
    rw [declarationsIn, List.forall_mem_append]
    exact ⟨file_declarations number scope item, file_declarationsIn number scope items⟩

end

/-- The full names of the declared types of a file. -/
def declaredNames (f : Schema.File) : List String := (declarationsOf 0 f).map Prod.fst

/-- The full name of a declared type, and whether it is a message. -/
def namedType (d : String × Symbol) : String × Bool := (d.1, d.2.isMessage)

/-- The full names of the declared types of a file, each with whether it is a message. -/
def declaredTypes (f : Schema.File) : List (String × Bool) := (declarationsOf 0 f).map namedType

theorem names_declaredTypes (f : Schema.File) :
    (declaredTypes f).map Prod.fst = declaredNames f := List.map_map

theorem mem_declaredNames {f : Schema.File} {name : String} :
    name ∈ declaredNames f ↔ ∃ isMessage, (name, isMessage) ∈ declaredTypes f := by
  rw [← names_declaredTypes]
  simp

mutual

/-- The messages of a declared type under their full names. -/
def messages (scope : String) : Schema.Item → List (String × Schema.MessageDecl)
  | .message decl nested =>
    (qualify scope decl.name, decl) :: messagesIn (qualify scope decl.name) nested
  | .enumeration _ => []

/-- The messages of a scope under their full names. -/
def messagesIn (scope : String) : List Schema.Item → List (String × Schema.MessageDecl)
  | [] => []
  | item :: items => messages scope item ++ messagesIn scope items

end

/-- The messages of a file under their full names. -/
def messagesOf (f : Schema.File) : List (String × Schema.MessageDecl) :=
  messagesIn f.packageName f.items

/-- Whether the fields of a message have different numbers and different names. -/
def FieldsDiffer (fields : List Schema.Field) : Prop :=
  (fields.map Schema.Field.number).Nodup ∧ (fields.map Schema.Field.name).Nodup

/-- The full names that the type of a field may mean; none for a type that needs no declaration. -/
def meanings? (message : String) : Schema.TypeRef → Option (List String)
  | .scalar _ _ => none
  | .named name absolute _ => some (candidates message name absolute)

/-! ### Declarations without their places -/

mutual

theorem types_declarations_bare (n m : FileId) (scope : String) : (item : Schema.Item) →
    (declarations n scope item.bare).map namedType = (declarations m scope item).map namedType
  | .message decl nested => by
    have hnested := types_declarationsIn_bare n m (qualify scope decl.name) nested
    simp only [Schema.Item.bare, Schema.MessageDecl.bare, declarations, List.map_cons, hnested]
    rfl
  | .enumeration decl => rfl

theorem types_declarationsIn_bare (n m : FileId) (scope : String) : (items : List Schema.Item) →
    (declarationsIn n scope (Schema.bareItems items)).map namedType =
      (declarationsIn m scope items).map namedType
  | [] => rfl
  | item :: items => by
    simp only [Schema.bareItems, declarationsIn, List.map_append]
    rw [types_declarations_bare n m scope item, types_declarationsIn_bare n m scope items]

end

theorem packageName_bare (f : Schema.File) : f.bare.packageName = f.packageName := by
  simp only [Schema.File.bare, Schema.File.packageName, Option.map_map]
  rfl

theorem types_declarationsOf_bare (n m : FileId) (f : Schema.File) :
    (declarationsOf n f.bare).map namedType = (declarationsOf m f).map namedType := by
  rw [declarationsOf, packageName_bare]
  exact types_declarationsIn_bare n m f.packageName f.items

theorem types_declarationsOf {f g : Schema.File} (h : f.bare = g.bare) (n : FileId) :
    (declarationsOf n f).map namedType = declaredTypes g := by
  rw [declaredTypes, ← types_declarationsOf_bare 0 n f, h, types_declarationsOf_bare 0 0 g]

theorem names_declarationsOf {f g : Schema.File} (h : f.bare = g.bare) (n : FileId) :
    (declarationsOf n f).map Prod.fst = declaredNames g := by
  rw [← names_declaredTypes, ← types_declarationsOf h n, List.map_map]
  rfl

mutual

theorem messages_bare (scope : String) : (item : Schema.Item) →
    messages scope item.bare = (messages scope item).map fun m => (m.1, m.2.bare)
  | .message decl nested => by
    have hnested := messagesIn_bare (qualify scope decl.name) nested
    simp only [Schema.Item.bare, messages, List.map_cons, ← hnested]
    rfl
  | .enumeration decl => rfl

theorem messagesIn_bare (scope : String) : (items : List Schema.Item) →
    messagesIn scope (Schema.bareItems items) =
      (messagesIn scope items).map fun m => (m.1, m.2.bare)
  | [] => rfl
  | item :: items => by
    simp only [Schema.bareItems, messagesIn, List.map_append]
    rw [messages_bare scope item, messagesIn_bare scope items]

end

theorem messagesOf_bare (f : Schema.File) :
    messagesOf f.bare = (messagesOf f).map fun m => (m.1, m.2.bare) := by
  rw [messagesOf, packageName_bare]
  exact messagesIn_bare f.packageName f.items

theorem meanings?_bare (message : String) (type : Schema.TypeRef) :
    meanings? message type.bare = meanings? message type := by
  cases type with
  | scalar _ _ => rfl
  | named _ _ _ => rfl

/-! ### The table as a fold -/

namespace Symbols

/-- Adds declarations in turn. -/
def declareAll (ds : List (String × Symbol)) (s : Symbols) : Symbols :=
  ds.foldl (fun s d => s.declare d.1 d.2) s

theorem declareAll_append (ds es : List (String × Symbol)) (s : Symbols) :
    declareAll (ds ++ es) s = declareAll es (declareAll ds s) := List.foldl_append

mutual

theorem addItem_eq (file : FileId) : (scope : String) → (item : Schema.Item) → (s : Symbols) →
    addItem file scope item s = declareAll (declarations file scope item) s
  | scope, .message decl nested, s => by
    rw [addItem, addItems_eq file _ nested]
    rfl
  | scope, .enumeration decl, s => rfl

theorem addItems_eq (file : FileId) : (scope : String) → (items : List Schema.Item) →
    (s : Symbols) → addItems file scope items s = declareAll (declarationsIn file scope items) s
  | _, [], _ => rfl
  | scope, item :: items, s => by
    rw [addItems, addItem_eq file scope item, addItems_eq file scope items, declarationsIn,
      declareAll_append]

end

/-- The declarations of files, of which the first has the given number. -/
def declarationsFrom (files : List SourceFile) (n : Nat) : List (String × Symbol) :=
  (files.zipIdx n).flatMap fun e => declarationsOf e.2 e.1.file

theorem addFiles_eq (n : Nat) (files : List SourceFile) (s : Symbols) :
    addFiles n files s = declareAll (declarationsFrom files n) s := by
  induction files generalizing n s with
  | nil => rfl
  | cons f files ih =>
    rw [addFiles, ih, addItems_eq]
    simp only [declarationsFrom, List.zipIdx_cons, List.flatMap_cons, declareAll_append]
    rfl

def declarationsOfAll (s : Sources) : List (String × Symbol) := declarationsFrom s.files 0

theorem ofSources_eq (s : Sources) :
    ofSources s = declareAll (declarationsOfAll s) ⟨.empty, []⟩ := addFiles_eq 0 s.files _

/-! ### Complaints -/

theorem errors_declare {name : String} {symbol : Symbol} {s : Symbols} :
    (s.declare name symbol).errors = [] ↔ s.errors = [] ∧ s.table.find? name = none := by
  unfold declare
  split
  · rename_i first hfirst
    simp [hfirst]
  · rename_i hnone
    simp [hnone]

theorem find?_declare {name : String} {symbol : Symbol} {s : Symbols}
    (h : s.table.find? name = none) (k : String) :
    (s.declare name symbol).table.find? k = if k = name then some symbol else s.table.find? k := by
  have hdeclare : (s.declare name symbol).table = s.table.insert name symbol := by
    unfold declare
    rw [h]
  rw [hdeclare, Table.find?_insert]
  simp only [eq_comm]

theorem isError_declare {name : String} {symbol : Symbol} {s : Symbols}
    (h : ∀ d ∈ s.errors, d.isError = true) :
    ∀ d ∈ (s.declare name symbol).errors, d.isError = true := by
  unfold declare
  split
  · intro d hd
    rcases List.mem_append.1 hd with hd | hd
    · exact h d hd
    · cases List.mem_singleton.1 hd
      rfl
  · exact h

theorem isError_declareAll {ds : List (String × Symbol)} {s : Symbols}
    (h : ∀ d ∈ s.errors, d.isError = true) : ∀ d ∈ (declareAll ds s).errors, d.isError = true := by
  induction ds generalizing s with
  | nil => exact h
  | cons d ds ih => exact ih (isError_declare h)

theorem errors_declareAll {ds : List (String × Symbol)} {s : Symbols} :
    (declareAll ds s).errors = [] ↔
      s.errors = [] ∧ (ds.map Prod.fst).Nodup ∧ ∀ d ∈ ds, s.table.find? d.1 = none := by
  induction ds generalizing s with
  | nil => simp [declareAll]
  | cons d ds ih =>
    have hstep : declareAll (d :: ds) s = declareAll ds (s.declare d.1 d.2) := rfl
    rw [hstep, ih, errors_declare, List.map_cons, List.nodup_cons]
    constructor
    · rintro ⟨⟨herrors, hnone⟩, hnodup, hall⟩
      refine ⟨herrors, ⟨fun hmem => ?_, hnodup⟩, fun e he => ?_⟩
      · obtain ⟨e, he, hed⟩ := List.mem_map.1 hmem
        have hfind := hall e he
        rw [find?_declare hnone, if_pos hed] at hfind
        cases hfind
      · rcases List.mem_cons.1 he with rfl | he
        · exact hnone
        · have hfind := hall e he
          rw [find?_declare hnone] at hfind
          split at hfind
          · cases hfind
          · exact hfind
    · rintro ⟨herrors, ⟨hnot, hnodup⟩, hall⟩
      have hnone := hall d List.mem_cons_self
      refine ⟨⟨herrors, hnone⟩, hnodup, fun e he => ?_⟩
      have hne : e.1 ≠ d.1 := fun h => hnot (h ▸ List.mem_map_of_mem he)
      rw [find?_declare hnone, if_neg hne]
      exact hall e (List.mem_cons_of_mem _ he)

/-- Without complaints the table knows what was declared, and nothing else. -/
theorem find?_declareAll {ds : List (String × Symbol)} {s : Symbols}
    (h : (declareAll ds s).errors = []) {name : String} {symbol : Symbol} :
    (declareAll ds s).table.find? name = some symbol ↔
      (name, symbol) ∈ ds ∨ s.table.find? name = some symbol := by
  induction ds generalizing s with
  | nil => simp [declareAll]
  | cons d ds ih =>
    have hstep : declareAll (d :: ds) s = declareAll ds (s.declare d.1 d.2) := rfl
    have hnone : s.table.find? d.1 = none := (errors_declareAll.1 h).2.2 d List.mem_cons_self
    rw [hstep] at h ⊢
    rw [ih h, find?_declare hnone, List.mem_cons]
    split
    · rename_i hname
      subst hname
      rw [hnone]
      obtain ⟨n, sym⟩ := d
      simp [or_comm, eq_comm]
    · rename_i hname
      have hne : (name, symbol) ≠ d := fun heq => hname (heq ▸ rfl)
      simp [hne]

theorem isError_ofSources (s : Sources) : ∀ d ∈ (ofSources s).errors, d.isError = true := by
  rw [ofSources_eq]
  exact isError_declareAll fun _ hd => absurd hd List.not_mem_nil

theorem errors_ofSources (s : Sources) :
    (ofSources s).errors = [] ↔ ((declarationsOfAll s).map Prod.fst).Nodup := by
  rw [ofSources_eq, errors_declareAll]
  constructor
  · exact fun h => h.2.1
  · exact fun h => ⟨rfl, h, fun _ _ => rfl⟩

theorem find?_ofSources {s : Sources} (h : (ofSources s).errors = []) {name : String}
    {symbol : Symbol} :
    (ofSources s).table.find? name = some symbol ↔ (name, symbol) ∈ declarationsOfAll s := by
  rw [ofSources_eq] at h ⊢
  rw [find?_declareAll h]
  constructor
  · exact fun h => h.resolve_right (by simp)
  · exact .inl

end Symbols

end Schemata.Image

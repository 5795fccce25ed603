import Schemata.Proofs.Image.Build
import Schemata.Proofs.ModuleSet.OrderFree

/-!
# What type names refer to

A name is looked up in the scope it stands in and in those around it, the innermost first. It
refers to the first type of that name which the file may refer to: a type that is further in but in
a file out of sight does not hide one that is further out.
-/

namespace Schemata.Image

open Source

/-! ### Scopes -/

/-- Whether a text is a scope or one around it: what stands before one of its dots, or nothing. -/
def IsScopeOf (outer scope : String) : Prop :=
  outer = "" ∨ outer = scope ∨ ∃ inner, scope = outer ++ "." ++ inner

variable {outer scope : String}

theorem IsScopeOf.isPrefix (h : IsScopeOf outer scope) : outer.toList <+: scope.toList := by
  rcases h with rfl | rfl | ⟨inner, rfl⟩
  · exact List.nil_prefix
  · exact List.prefix_refl _
  · rw [String.toList_append, String.toList_append, List.append_assoc]
    exact List.prefix_append _ _

/-- Of two scopes around one the longer is the inner one, so scopes of one length are the same. -/
theorem IsScopeOf.eq_of_length_eq {other : String} (h : IsScopeOf outer scope)
    (h' : IsScopeOf other scope) (hlength : outer.length = other.length) : outer = other := by
  rw [← String.length_toList, ← String.length_toList] at hlength
  refine String.toList_inj.1 ?_
  exact (List.prefix_of_prefix_length_le h.isPrefix h'.isPrefix hlength.le).eq_of_length hlength

theorem intercalate_append {α : Type} (sep : α) {as bs : List (List α)} (ha : as ≠ [])
    (hb : bs ≠ []) :
    [sep].intercalate (as ++ bs) = [sep].intercalate as ++ sep :: [sep].intercalate bs := by
  induction as with
  | nil => exact absurd rfl ha
  | cons a as ih =>
    by_cases has : as = []
    · subst has
      rw [List.singleton_append, List.intercalate_cons_of_ne_nil hb, List.intercalate_singleton]
      simp
    · have hne : as ++ bs ≠ [] := List.append_ne_nil_of_left_ne_nil has bs
      rw [List.cons_append, List.intercalate_cons_of_ne_nil hne, ih has,
        List.intercalate_cons_of_ne_nil has]
      simp

/-- The first of some parts make nothing, all of the text, or what stands before a separator. -/
theorem intercalate_take {α : Type} (sep : α) (parts : List (List α)) (k : Nat) :
    [sep].intercalate (parts.take k) = [] ∨
      [sep].intercalate (parts.take k) = [sep].intercalate parts ∨
      ∃ rest, [sep].intercalate parts = [sep].intercalate (parts.take k) ++ sep :: rest := by
  by_cases htake : parts.take k = []
  · exact .inl (by rw [htake, List.intercalate_nil])
  · by_cases hdrop : parts.drop k = []
    · exact .inr (.inl (by rw [List.take_of_length_le (List.drop_eq_nil_iff.1 hdrop)]))
    · refine .inr (.inr ⟨[sep].intercalate (parts.drop k), ?_⟩)
      rw [← intercalate_append sep htake hdrop, List.take_append_drop]

theorem length_intercalate_take_le {α : Type} (sep : α) (parts : List (List α)) (k : Nat) :
    ([sep].intercalate (parts.take k)).length ≤ ([sep].intercalate parts).length := by
  rcases intercalate_take sep parts k with h | h | ⟨rest, h⟩
  · simp [h]
  · rw [h]
  · simp [h]

theorem toList_joined_pieces (scope : String) (k : Nat) :
    (Text.joined '.' ((Text.pieces '.' scope).take k)).toList =
      ['.'].intercalate ((scope.toList.splitOn '.').take k) := by
  rw [Text.joined, Text.pieces, String.toList_ofList, ← List.map_take, List.map_map]
  simp [Function.comp_def]

/-- The scopes around a scope are looked through, the innermost first. -/
theorem mem_scopes : outer ∈ scopes scope ↔ IsScopeOf outer scope := by
  unfold scopes
  split
  · rename_i hempty
    subst hempty
    rw [List.mem_singleton]
    exact ⟨.inl, fun h => String.toList_inj.1 (List.prefix_nil.1 h.isPrefix)⟩
  · simp only [List.mem_map, List.mem_range]
    constructor
    · rintro ⟨n, _, rfl⟩
      have hcases := intercalate_take '.' (scope.toList.splitOn '.')
        ((Text.pieces '.' scope).length - n)
      rw [List.intercalate_splitOn, ← toList_joined_pieces] at hcases
      rcases hcases with h | h | ⟨rest, h⟩
      · exact .inl (String.toList_inj.1 h)
      · exact .inr (.inl (String.toList_inj.1 h))
      · exact .inr (.inr ⟨String.ofList rest, String.toList_inj.1 (by simpa using h)⟩)
    · have hpieces (s : String) : (Text.pieces '.' s).length = (s.toList.splitOn '.').length :=
        List.length_map _
      rintro (rfl | rfl | ⟨inner, rfl⟩)
      · exact ⟨_, Nat.lt_succ_self _, by simp [Text.joined]⟩
      · refine ⟨0, Nat.succ_pos _, String.toList_inj.1 ?_⟩
        rw [toList_joined_pieces, hpieces, Nat.sub_zero, List.take_length,
          List.intercalate_splitOn]
      · have hsplit : (outer ++ "." ++ inner).toList.splitOn '.' =
            outer.toList.splitOn '.' ++ inner.toList.splitOn '.' := by
          rw [String.toList_append, String.toList_append, List.append_assoc]
          exact List.splitOn_append_cons_self _ _
        have hlength : (Text.pieces '.' (outer ++ "." ++ inner)).length =
            (outer.toList.splitOn '.').length + (inner.toList.splitOn '.').length := by
          rw [hpieces, hsplit, List.length_append]
        refine ⟨(inner.toList.splitOn '.').length, by omega, String.toList_inj.1 ?_⟩
        rw [toList_joined_pieces, hlength, Nat.add_sub_cancel, hsplit, List.take_left,
          List.intercalate_splitOn]

/-- Inner scopes come first. -/
theorem pairwise_scopes (scope : String) :
    (scopes scope).Pairwise fun inner outer => outer.length ≤ inner.length := by
  unfold scopes
  split
  · exact List.pairwise_singleton _ _
  · refine List.pairwise_map.2 (List.pairwise_lt_range.imp fun {a b} hab => ?_)
    have hle : (Text.pieces '.' scope).length - b ≤ (Text.pieces '.' scope).length - a := by omega
    have hlength := length_intercalate_take_le '.'
      ((scope.toList.splitOn '.').take ((Text.pieces '.' scope).length - a))
      ((Text.pieces '.' scope).length - b)
    rw [List.take_take, min_eq_left hle, ← toList_joined_pieces, ← toList_joined_pieces,
      String.length_toList, String.length_toList] at hlength
    exact hlength

/-! ### What a name refers to -/

/-- Whether the file at a path declares a type of a full name and kind. -/
def DeclaresType (w : World) (v : Module.View) (p name : String) (isMessage : Bool) : Prop :=
  ∃ text, HasText w v p text ∧ (name, isMessage) ∈ declaredTypes (parsedFile text)

theorem DeclaresType.declares {w : World} {v : Module.View} {p name : String} {isMessage : Bool}
    (h : DeclaresType w v p name isMessage) : Declares w v p name :=
  h.imp fun _ ht => ⟨ht.1, mem_declaredNames.2 ⟨isMessage, ht.2⟩⟩

/-- Whether a type of a full name is declared where the file at a path may refer to it. -/
def Sees (w : World) (v : Module.View) (p name : String) : Prop :=
  ∃ q, Visible w v p q ∧ Declares w v q name

/-- What a name in a scope refers to in the file at a path: an absolute name to the type of this
full name, any other to the type in the innermost scope that has one, if the file sees it. -/
inductive RefersTo (w : World) (v : Module.View) (p scope name : String) : Bool → String → Prop
  | absolute (hsees : Sees w v p name) : RefersTo w v p scope name true name
  | relative {outer : String} (houter : IsScopeOf outer scope)
    (hsees : Sees w v p (qualify outer name))
    (hlongest : ∀ other, IsScopeOf other scope → Sees w v p (qualify other name) →
      other.length ≤ outer.length) : RefersTo w v p scope name false (qualify outer name)

section Names

variable {w : World} {v : Module.View} {p name fullName fullName' : String} {absolute : Bool}

theorem RefersTo.sees (h : RefersTo w v p scope name absolute fullName) : Sees w v p fullName := by
  cases h with
  | absolute hsees => exact hsees
  | relative _ hsees _ => exact hsees

theorem RefersTo.mem_candidates (h : RefersTo w v p scope name absolute fullName) :
    fullName ∈ candidates scope name absolute := by
  cases h with
  | absolute _ => exact List.mem_singleton_self _
  | relative houter _ _ => exact List.mem_map_of_mem (mem_scopes.2 houter)

theorem RefersTo.unique (h : RefersTo w v p scope name absolute fullName)
    (h' : RefersTo w v p scope name absolute fullName') : fullName = fullName' := by
  cases h with
  | absolute _ =>
    cases h' with
    | absolute _ => rfl
  | relative houter hsees hlongest =>
    cases h' with
    | relative houter' hsees' hlongest' =>
      have hlength := le_antisymm (hlongest' _ houter hsees) (hlongest _ houter' hsees')
      rw [houter.eq_of_length_eq houter' hlength]

/-- The first candidate that a file sees is what the name refers to. -/
theorem refersTo_of_candidates {before after : List String}
    (hnames : candidates scope name absolute = before ++ fullName :: after)
    (hbefore : ∀ n ∈ before, ¬ Sees w v p n) (hsees : Sees w v p fullName) :
    RefersTo w v p scope name absolute fullName := by
  cases absolute with
  | true =>
    have hmem : fullName ∈ candidates scope name true :=
      hnames ▸ List.mem_append_right _ List.mem_cons_self
    rw [List.mem_singleton.1 hmem] at hsees ⊢
    exact .absolute hsees
  | false =>
    obtain ⟨inner, rest, hscopes, hinner, hrest⟩ := List.map_eq_append_iff.1 hnames
    obtain ⟨outer, others, rfl, rfl, _⟩ := List.map_eq_cons_iff.1 hrest
    have hmem : outer ∈ scopes scope := hscopes ▸ List.mem_append_right _ List.mem_cons_self
    refine .relative (mem_scopes.1 hmem) hsees fun other hother hothersees => ?_
    have hpairwise := pairwise_scopes scope
    rw [hscopes, List.pairwise_append] at hpairwise
    have hmem := hscopes ▸ mem_scopes.2 hother
    rcases List.mem_append.1 hmem with hmem | hmem
    · exact absurd hothersees (hbefore _ (hinner ▸ List.mem_map_of_mem hmem))
    · rcases List.mem_cons.1 hmem with rfl | hmem
      · exact le_rfl
      · exact List.rel_of_pairwise_cons hpairwise.2.1 hmem

end Names

/-! ### Looking up -/

namespace LinkContext

variable (c : LinkContext) {names : List String} {name fullName : String} {symbol : Symbol}
  {a : Access}

/-- What is looked up is the first candidate that the file may refer to. -/
theorem lookup?_eq_some (h : c.lookup? names = some (fullName, symbol, a)) :
    (∃ before after, names = before ++ fullName :: after ∧ ∀ n ∈ before, ¬ c.Knows n) ∧
      c.symbols.find? fullName = some symbol ∧ c.access symbol.file = a ∧ a ≠ .hidden := by
  induction names with
  | nil => cases h
  | cons name names ih =>
    rw [lookup?] at h
    have hskip (hunknown : ¬ c.Knows name) (h : c.lookup? names = some (fullName, symbol, a)) :
        (∃ before after, name :: names = before ++ fullName :: after ∧
          ∀ n ∈ before, ¬ c.Knows n) ∧
        c.symbols.find? fullName = some symbol ∧ c.access symbol.file = a ∧ a ≠ .hidden := by
      obtain ⟨⟨before, after, rfl, hbefore⟩, hfound⟩ := ih h
      exact ⟨⟨name :: before, after, rfl, List.forall_mem_cons.2 ⟨hunknown, hbefore⟩⟩, hfound⟩
    split at h
    · rename_i other hother
      split at h
      · rename_i hhidden
        refine hskip ?_ h
        rintro ⟨symbol', hsymbol', haccess⟩
        rw [hother] at hsymbol'
        cases hsymbol'
        exact haccess hhidden
      · rename_i hvisible
        cases h
        exact ⟨⟨[], names, rfl, fun _ hn => absurd hn List.not_mem_nil⟩, hother, rfl, hvisible⟩
    · rename_i hnone
      refine hskip ?_ h
      rintro ⟨symbol', hsymbol', _⟩
      rw [hnone] at hsymbol'
      cases hsymbol'

/-- The position of the import that a symbol is seen through. -/
def Access.position? : Access → Option Nat
  | .imported position => some position
  | _ => none

def typeOf (fullName : String) (isMessage : Bool) : Descriptor.FieldType :=
  if isMessage then .message fullName else .enumeration fullName

variable (scope : String) (absolute : Bool) (span : Span) (l : Link)

theorem resolve_of_some
    (h : c.lookup? (candidates scope name absolute) = some (fullName, symbol, a)) :
    c.resolve scope (.named name absolute span) l =
      (typeOf fullName symbol.isMessage, { l with used := a.position?.toList ++ l.used }) := by
  rw [resolve]
  simp only [h]
  cases a with
  | own => rfl
  | imported position => rfl
  | hidden => rfl

theorem resolve_of_none (h : c.lookup? (candidates scope name absolute) = none) :
    c.resolve scope (.named name absolute span) l =
      (.message name, { l with
        errors := c.unresolved name (candidates scope name absolute) span :: l.errors }) := by
  rw [resolve]
  simp only [h]
  rfl

end LinkContext

/-! ### Linked files -/

namespace Loaded

variable {w : World} {v : Module.View} {requested : List String} {s : Sources}
  (hs : Loaded w v requested s) (hnames : (Symbols.ofSources s).errors = [])
include hs hnames

theorem find?_iff {n : Nat} {g : SourceFile} (hg : s.files[n]? = some g) {name : String}
    {isMessage : Bool} :
    (∃ symbol, (Symbols.ofSources s).table.find? name = some symbol ∧
      symbol.isMessage = isMessage ∧ symbol.file = n) ↔ DeclaresType w v g.path name isMessage := by
  simp only [Symbols.find?_ofSources hnames]
  rw [hs.mem_declarationsOfAll (V := fun b m => b = isMessage ∧ m = n)]
  constructor
  · rintro ⟨_, g', _, hg', htype, rfl, rfl⟩
    rw [hg] at hg'
    cases hg'
    exact ⟨g.text, hs.faithful.hasText (List.mem_of_getElem? hg), htype⟩
  · rintro ⟨text, ht, htype⟩
    rw [ht.unique (hs.faithful.hasText (List.mem_of_getElem? hg))] at htype
    exact ⟨n, g, isMessage, hg, htype, rfl, rfl⟩

variable {n : Nat} {f : SourceFile} (hf : s.files[n]? = some f) {scope name fullName : String}
  {absolute : Bool}
include hf

/-- Looking up finds what the name refers to, as the file that declares it has it. -/
theorem lookup?_spec {symbol : Symbol} {a : LinkContext.Access}
    (h : (contextOf s (Symbols.ofSources s).table n f).lookup? (candidates scope name absolute) =
      some (fullName, symbol, a)) :
    RefersTo w v f.path scope name absolute fullName ∧
      ∃ g, s.files[symbol.file]? = some g ∧ Visible w v f.path g.path ∧
        DeclaresType w v g.path fullName symbol.isMessage := by
  obtain ⟨⟨before, after, hcandidates, hbefore⟩, hfind, haccess, hne⟩ :=
    LinkContext.lookup?_eq_some _ h
  have hknows (name : String) : (contextOf s (Symbols.ofSources s).table n f).Knows name ↔
    Sees w v f.path name := hs.knows_iff hnames hf
  have hsees := (hknows fullName).1 ⟨symbol, hfind, haccess ▸ hne⟩
  refine ⟨refersTo_of_candidates hcandidates
    (fun n hn hseen => hbefore n hn ((hknows n).2 hseen)) hsees, ?_⟩
  have hdeclared : ∃ symbol', (fullName, symbol') ∈ Symbols.declarationsOfAll s ∧
      symbol'.file = symbol.file := ⟨symbol, (Symbols.find?_ofSources hnames).1 hfind, rfl⟩
  obtain ⟨m, g, _, hg, _, rfl⟩ :=
    (hs.mem_declarationsOfAll (V := fun _ m => m = symbol.file)).1 hdeclared
  refine ⟨g, hg, ?_, (hs.find?_iff hnames hg).1 ⟨symbol, hfind, rfl, rfl⟩⟩
  refine (hs.visible_iff hf (hs.number?_file hg)).1 ?_
  have hvisible := (access_ne_hidden s (Symbols.ofSources s).table n f symbol.file).1
    (haccess ▸ hne)
  rwa [mem_visibleThrough] at hvisible

theorem lookup?_ne_none_iff :
    (contextOf s (Symbols.ofSources s).table n f).lookup? (candidates scope name absolute) ≠ none ↔
      ∃ fullName, RefersTo w v f.path scope name absolute fullName := by
  constructor
  · intro hne
    obtain ⟨⟨fullName, symbol, a⟩, hlookup⟩ := Option.ne_none_iff_exists'.1 hne
    exact ⟨fullName, (hs.lookup?_spec hnames hf hlookup).1⟩
  · rintro ⟨fullName, hrefers⟩
    rw [LinkContext.lookup?_ne_none]
    exact ⟨fullName, hrefers.mem_candidates, (hs.knows_iff hnames hf).2 hrefers.sees⟩

end Loaded

/-- A type reference in a file becomes what its name refers to, as the visible file that declares
it has it, and the errors stay as they are; or the name refers to nothing and that is an error. -/
theorem resolve_refersTo {w : World} {v : Module.View} {requested : List String} {s : Sources}
    (hload : Sources.load w v requested = .ok s) (hnames : (Symbols.ofSources s).errors = [])
    {n : Nat} {f : SourceFile} (hf : s.files[n]? = some f) (scope name : String) (absolute : Bool)
    (span : Span) (l : Link) :
    let found := (contextOf s (Symbols.ofSources s).table n f).resolve scope
      (.named name absolute span) l
    (∃ fullName, RefersTo w v f.path scope name absolute fullName ∧
      ∃ q isMessage, Visible w v f.path q ∧ DeclaresType w v q fullName isMessage ∧
        found.1 = (if isMessage then .message fullName else .enumeration fullName) ∧
        found.2.errors = l.errors) ∨
    (¬ ∃ fullName, RefersTo w v f.path scope name absolute fullName) ∧
      ∃ d : Diagnostic, d.isError = true ∧ d.span = span ∧ found.2.errors = d :: l.errors := by
  intro found
  have hs := Loaded.of_load hload
  have hlookup : _ ↔ ∃ fullName, RefersTo w v f.path scope name absolute fullName :=
    hs.lookup?_ne_none_iff hnames hf
  cases hfound : (contextOf s (Symbols.ofSources s).table n f).lookup?
      (candidates scope name absolute) with
  | some answer =>
    obtain ⟨fullName, symbol, a⟩ := answer
    have hresolve := LinkContext.resolve_of_some _ scope absolute span l hfound
    obtain ⟨hrefers, g, _, hvisible, hdeclares⟩ := hs.lookup?_spec hnames hf hfound
    exact .inl ⟨fullName, hrefers, g.path, symbol.isMessage, hvisible, hdeclares,
      congrArg Prod.fst hresolve, congrArg (fun r => r.2.errors) hresolve⟩
  | none =>
    have hresolve := LinkContext.resolve_of_none _ scope absolute span l hfound
    refine .inr ⟨fun h => hlookup.2 h hfound, _, LinkContext.isError_unresolved _ _ _ _,
      LinkContext.span_unresolved _ _ _ _, congrArg (fun r => r.2.errors) hresolve⟩

/-! ### A hidden inner type -/

open ModuleSet (ofModules workspaceModule)

/-- Files of which the first names a type that a file it does not import has further in. -/
def scopedView : Module.View := (ofModules [workspaceModule "m" [
  ("a.schema", "package p.q; import \"b.schema\"; message A \x7b T t = 1; \x7d"),
  ("b.schema", "import public \"c.schema\";"),
  ("c.schema", "package p; enum T \x7b ZERO = 0; \x7d"),
  ("d.schema", "package p.q; message T \x7b\x7d")]]).schemaView

/-- The number of duplicate symbols, and what a reference to `T` inside `p.q.A` becomes in the first
file, with the number of errors. -/
def resolvedIn (s : Sources) : Option (Nat × String × Descriptor.FieldType × Nat) :=
  s.files[0]?.map fun f =>
    let symbols := Symbols.ofSources s
    let found := (contextOf s symbols.table 0 f).resolve "p.q.A" (.named "T" false .nowhere)
      ⟨[], [], []⟩
    (symbols.errors.length, f.path, found.1, found.2.errors.length)

theorem resolve_refersTo_scopedView :
    ∃ s f, Sources.load World.empty scopedView ["a.schema", "d.schema"] = .ok s ∧
      (Symbols.ofSources s).errors = [] ∧ s.files[0]? = some f ∧ f.path = "a.schema" ∧
      RefersTo World.empty scopedView "a.schema" "p.q.A" "T" false "p.T" ∧
      ∃ q, Visible World.empty scopedView "a.schema" q ∧
        DeclaresType World.empty scopedView q "p.T" false := by
  have hload : ((Sources.load World.empty scopedView ["a.schema", "d.schema"]).toOption.bind
      resolvedIn) = some (0, "a.schema", .enumeration "p.T", 0) := by
    decide +kernel
  obtain ⟨s, hs, hresolved⟩ := Option.bind_eq_some_iff.1 hload
  obtain ⟨f, hf, heq⟩ := Option.map_eq_some_iff.1 hresolved
  simp only [Prod.mk.injEq] at heq
  obtain ⟨hlength, hpath, htype, herrors⟩ := heq
  have hnames := List.length_eq_zero_iff.1 hlength
  refine ⟨s, f, toOption_eq_some.1 hs, hnames, hf, hpath, ?_⟩
  rcases resolve_refersTo (toOption_eq_some.1 hs) hnames hf "p.q.A" "T" false .nowhere
    ⟨[], [], []⟩ with
    ⟨fullName, hrefers, q, isMessage, hvisible, hdeclares, hfound, _⟩ | ⟨_, d, _, _, hfound⟩
  · rw [htype] at hfound
    cases isMessage with
    | true => cases hfound
    | false =>
      cases hfound
      rw [hpath] at hrefers hvisible
      exact ⟨hrefers, q, hvisible, hdeclares⟩
  · rw [hfound] at herrors
    cases herrors

end Schemata.Image

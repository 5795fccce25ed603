import Schemata.Proofs.Image.Build
import Schemata.Proofs.Schema.Places

/-!
# Diagnostics in any order

Files are parsed side by side, and so they are linked: what is found wrong in them comes in any
order in which the diagnostics of each file keep theirs. The order of the outcome does not show
this, since a file is only complained about at places of its own.
-/

namespace Schemata.Image

open Source

/-! ### Interleavings -/

/-- Whether a list takes all members of some lists, each time the first that is left of one. -/
inductive Interleaves {α : Type} : List (List α) → List α → Prop
  | done {ls : List (List α)} (h : ∀ l ∈ ls, l = []) : Interleaves ls []
  | take {before after : List (List α)} {a : α} {l merged : List α}
    (h : Interleaves (before ++ l :: after) merged) :
    Interleaves (before ++ (a :: l) :: after) (a :: merged)

theorem Interleaves.perm {α : Type} {ls : List (List α)} {merged : List α}
    (h : Interleaves ls merged) : merged.Perm ls.flatten := by
  induction h with
  | done h => rw [List.flatten_eq_nil_iff.2 h]
  | @take before after a l merged h ih =>
    simp only [List.flatten_append, List.flatten_cons, List.cons_append] at ih ⊢
    exact (ih.cons a).trans List.perm_middle.symm

theorem interleaves_cons {α : Type} (l : List α) {ls : List (List α)} {merged : List α}
    (h : Interleaves ls merged) : Interleaves (l :: ls) (l ++ merged) := by
  have hempty : Interleaves ([] :: ls) merged := by
    induction h with
    | done h => exact .done (List.forall_mem_cons.2 ⟨rfl, h⟩)
    | @take before after a l merged h ih => exact (.take ih : Interleaves (([] :: before) ++ (a :: l) :: after) (a :: merged))
  induction l with
  | nil => exact hempty
  | cons a l ih => exact (.take ih : Interleaves ([] ++ (a :: l) :: ls) (a :: (l ++ merged)))

theorem interleaves_flatten {α : Type} (ls : List (List α)) : Interleaves ls ls.flatten := by
  induction ls with
  | nil => exact .done fun l hl => absurd hl List.not_mem_nil
  | cons l ls ih => exact interleaves_cons l ih

theorem Interleaves.reverse {α : Type} {ls : List (List α)} {merged : List α}
    (h : Interleaves ls merged) : Interleaves ls.reverse merged := by
  induction h with
  | done h => exact .done fun l hl => h l (List.mem_reverse.1 hl)
  | @take before after a l merged h ih =>
    simp only [List.reverse_append, List.reverse_cons, List.append_assoc] at ih ⊢
    exact .take ih

/-- Whether the diagnostics of each list are in a file of their own. -/
def OnePerFile (ls : List (List Diagnostic)) : Prop :=
  ls.Pairwise fun l l' => ∀ d ∈ l, ∀ d' ∈ l', d.span.file ≠ d'.span.file

theorem OnePerFile.tail {before after : List (List Diagnostic)} {d : Diagnostic}
    {l : List Diagnostic} (h : OnePerFile (before ++ (d :: l) :: after)) :
    OnePerFile (before ++ l :: after) := by
  unfold OnePerFile at h ⊢
  simp only [List.pairwise_append, List.pairwise_cons, List.forall_mem_cons] at h ⊢
  obtain ⟨hbefore, ⟨hl, hafter⟩, hboth⟩ := h
  exact ⟨hbefore, ⟨fun l' hl' => (hl l' hl').2, hafter⟩, fun l' hl' =>
    ⟨fun e he => ((hboth l' hl').1 e he).2, (hboth l' hl').2⟩⟩

/-! ### Diagnostics in order -/

instance : Std.TransCmp compareDiagnostics :=
  inferInstanceAs (Std.TransCmp (compareLex (compareOn fun d : Diagnostic => d.span.file)
    (compareLex (compareOn fun d : Diagnostic => d.span.start) (compareOn Diagnostic.message))))

theorem compareDiagnostics_of_lt {d e : Diagnostic} (h : d.span.file < e.span.file) :
    compareDiagnostics d e = .lt := by
  have hfile : compare d.span.file e.span.file = .lt := Nat.compare_eq_lt.2 h
  rw [compareDiagnostics, hfile]
  rfl

/-- Of diagnostics in different files one comes strictly earlier. -/
theorem isLE_of_ne {d e : Diagnostic} (h : d.span.file ≠ e.span.file) :
    (compareDiagnostics d e).isLE = !(compareDiagnostics e d).isLE := by
  have hswap : compareDiagnostics d e = (compareDiagnostics e d).swap := Std.OrientedCmp.eq_swap
  rcases Nat.lt_or_gt_of_ne h with hlt | hgt
  · have hlast : compareDiagnostics e d = .gt := by
      rw [← Ordering.swap_eq_lt, ← hswap, compareDiagnostics_of_lt hlt]
    rw [hlast, compareDiagnostics_of_lt hlt]
    rfl
  · rw [hswap, compareDiagnostics_of_lt hgt]
    rfl

/-- Puts a diagnostic among some in order, if it is an error. -/
def put (d : Diagnostic) (ds : List Diagnostic) : List Diagnostic :=
  if d.isError then insertInOrder (fun a b => (compareDiagnostics a b).isLE) d ds else ds

theorem ordered_append (ds es : List Diagnostic) :
    ordered (ds ++ es) = ds.foldr put (ordered es) := by
  induction ds with
  | nil => rfl
  | cons d ds ih =>
    rw [List.foldr_cons, ← ih, ordered, ordered, put, List.cons_append, List.filter_cons]
    split
    · rfl
    · rfl

theorem put_comm {d e : Diagnostic} (h : d.span.file ≠ e.span.file) (ds : List Diagnostic) :
    put d (put e ds) = put e (put d ds) := by
  unfold put
  split
  · split
    · exact insertInOrder_comm (fun _ _ _ => Std.TransCmp.isLE_trans) (isLE_of_ne h) ds
    · rfl
  · rfl

/-- A diagnostic may come before those of other files. -/
theorem put_foldr {d : Diagnostic} {ds : List Diagnostic}
    (h : ∀ e ∈ ds, d.span.file ≠ e.span.file) (es : List Diagnostic) :
    put d (ds.foldr put es) = ds.foldr put (put d es) := by
  induction ds with
  | nil => rfl
  | cons e ds ih =>
    obtain ⟨he, hds⟩ := List.forall_mem_cons.1 h
    rw [List.foldr_cons, List.foldr_cons, put_comm he, ih hds]

theorem foldr_put_interleaved {ls : List (List Diagnostic)} {merged : List Diagnostic}
    (h : Interleaves ls merged) (hls : OnePerFile ls) (es : List Diagnostic) :
    merged.foldr put es = ls.flatten.foldr put es := by
  induction h with
  | done h => rw [List.flatten_eq_nil_iff.2 h]
  | @take before after d l merged h ih =>
    have hbefore : ∀ e ∈ before.flatten, d.span.file ≠ e.span.file := by
      intro e he
      obtain ⟨l', hl', he⟩ := List.mem_flatten.1 he
      have hboth := (List.pairwise_append.1 hls).2.2 l' hl' (d :: l) List.mem_cons_self
      exact (hboth e he d List.mem_cons_self).symm
    rw [List.foldr_cons, ih hls.tail]
    simp only [List.flatten_append, List.flatten_cons, List.foldr_append, List.foldr_cons]
    exact put_foldr hbefore _

/-- Diagnostics come in the same order however those of different files are interleaved. -/
theorem ordered_interleaved {ls : List (List Diagnostic)} {merged : List Diagnostic}
    (h : Interleaves ls merged) (hls : OnePerFile ls) (before after : List Diagnostic) :
    ordered (before ++ (merged ++ after)) = ordered (before ++ (ls.flatten ++ after)) := by
  rw [ordered_append, ordered_append, ordered_append, ordered_append, foldr_put_interleaved h hls]

/-! ### What linking a file complains about -/

section Linking

variable {α β : Type} {n : FileId}

/-- Whether a step of linking complains only about a file. -/
def Confined (n : FileId) (act : LinkStep α) : Prop :=
  ∀ l : Link, (∀ d ∈ l.errors, d.span.file = n) → ∀ d ∈ (act l).2.errors, d.span.file = n

theorem confined_pure (a : α) : Confined n (pure a : LinkStep α) := fun _ h => h

theorem Confined.bind {act : LinkStep α} {f : α → LinkStep β} (h : Confined n act)
    (hf : ∀ a, Confined n (f a)) : Confined n (act >>= f) := fun l hl =>
  hf (act l).1 (act l).2 (h l hl)

namespace LinkContext

theorem confined_report {d : Diagnostic} (hd : d.span.file = n) : Confined n (report d) :=
  fun _ hl => List.forall_mem_cons.2 ⟨hd, hl⟩

theorem confined_modify {g : Link → Link} (h : ∀ l, (g l).errors = l.errors) :
    Confined n (modify g : LinkStep PUnit) := by
  intro l hl
  have heq : ((modify g : LinkStep PUnit) l).2.errors = l.errors := h l
  rw [heq]
  exact hl

theorem confined_reportSome {o : Option β} {complaint : β → Diagnostic}
    (hd : ∀ b, (complaint b).span.file = n) : Confined n (reportSome o complaint) := by
  cases o with
  | none => exact confined_pure ()
  | some b => exact confined_report (hd b)

variable (c : LinkContext)

theorem confined_record (symbol : String) (span : Span) : Confined n (c.record symbol span) :=
  confined_modify fun _ => rfl

theorem confined_resolve (message : String) {type : Schema.TypeRef} (htype : type.span.file = n) :
    Confined n (c.resolve message type) := by
  cases type with
  | scalar type span => exact confined_pure _
  | named name absolute span =>
    rw [resolve]
    cases hlookup : c.lookup? (candidates message name absolute) with
    | none =>
      have hspan : (c.unresolved name (candidates message name absolute) span).span.file = n := by
        rw [span_unresolved]
        exact htype
      exact (confined_report hspan).bind fun _ => confined_pure _
    | some found =>
      obtain ⟨fullName, symbol, a⟩ := found
      cases a with
      | imported position =>
        have hused : Confined n
            (modify fun l : Link => { l with used := position :: l.used }) :=
          confined_modify fun _ => rfl
        exact hused.bind fun _ => confined_pure _
      | own => exact confined_pure _
      | hidden => exact confined_pure _

theorem confined_linkFields (message : String) (before : List Schema.Field)
    {fs : List Schema.Field} (h : ∀ f ∈ fs, f.In n) :
    Confined n (c.linkFields message before fs) := by
  induction fs generalizing before with
  | nil =>
    rw [linkFields]
    exact confined_pure _
  | cons f fs ih =>
    obtain ⟨hf, hfs⟩ := List.forall_mem_cons.1 h
    rw [linkFields_cons]
    refine (confined_reportSome fun _ => hf.number).bind fun _ => ?_
    refine (confined_reportSome fun _ => hf.name).bind fun _ => ?_
    refine (c.confined_record _ _).bind fun _ => ?_
    refine (c.confined_resolve message hf.type).bind fun _ => ?_
    exact (ih (before ++ [f]) hfs).bind fun _ => confined_pure _

mutual

theorem confined_linkItem (scope : String) : {item : Schema.Item} → item.In n →
    Confined n (c.linkItem scope item)
  | .message decl nested, .message hfields hnested => by
    rw [linkItem]
    refine (c.confined_record _ _).bind fun _ => ?_
    refine (c.confined_linkFields (qualify scope decl.name) [] hfields).bind fun _ => ?_
    exact (confined_linkItems (qualify scope decl.name) hnested).bind fun _ => confined_pure _
  | .enumeration decl, _ => by
    rw [linkItem, linkEnum]
    exact ((c.confined_record _ _).bind fun _ => confined_pure _).bind fun _ => confined_pure _

theorem confined_linkItems (scope : String) : {items : List Schema.Item} →
    (∀ item ∈ items, item.In n) → Confined n (c.linkItems scope items)
  | [], _ => by
    rw [linkItems]
    exact confined_pure _
  | item :: items, h => by
    rw [linkItems]
    refine (confined_linkItem scope (h item List.mem_cons_self)).bind fun _ => ?_
    exact (confined_linkItems scope fun i hi => h i (List.mem_cons_of_mem _ hi)).bind fun _ =>
      confined_pure _

end

end LinkContext

theorem file_linkFile {s : Sources} {symbols : Table Symbol} {passed : Array (List FileId)}
    {keepPlaces : Bool} {f : SourceFile} (h : f.file.In n) :
    ∀ d ∈ (linkFile s symbols passed keepPlaces n f).errors, d.span.file = n := by
  intro d hd
  let c : LinkContext :=
    ⟨s, symbols, n, s.visibleThrough passed f, Document.ofText f.path f.external f.text⟩
  exact c.confined_linkItems f.file.packageName h ⟨[], [], []⟩
    (fun _ hd => absurd hd List.not_mem_nil) d (List.mem_reverse.1 hd)

end Linking

/-! ### Schedules -/

/-- How the diagnostics of files come together that are parsed side by side, or linked. -/
structure Schedule where
  parsing : List (List Diagnostic) → List Diagnostic
  linking : List (List Diagnostic) → List Diagnostic

/-- Whether a schedule may put diagnostics of different files in any order, but not those of one. -/
structure Schedule.Fair (σ : Schedule) : Prop where
  parsing : ∀ ls, Interleaves ls (σ.parsing ls)
  linking : ∀ ls, Interleaves ls (σ.linking ls)

/-- The files are parsed and linked in the order of their numbers. -/
def Schedule.forward : Schedule := ⟨List.flatten, List.flatten⟩

/-- The files are parsed and linked in the opposite order. -/
def Schedule.backward : Schedule := ⟨fun ls => ls.reverse.flatten, fun ls => ls.reverse.flatten⟩

theorem Schedule.fair_forward : Schedule.forward.Fair := ⟨interleaves_flatten, interleaves_flatten⟩

theorem Schedule.fair_backward : Schedule.backward.Fair := by
  have h : ∀ ls : List (List Diagnostic), Interleaves ls ls.reverse.flatten := fun ls => by
    have hreverse := (interleaves_flatten ls.reverse).reverse
    rw [List.reverse_reverse] at hreverse
    exact hreverse
  exact ⟨h, h⟩

/-- What parsing each of the files complains about. -/
def Sources.parseErrors (s : Sources) : List (List Diagnostic) :=
  s.files.zipIdx.map fun (f, n) => (Schema.parse n f.text).errors

/-- What becomes of the files that were read, under a schedule. -/
def Sources.compileUnder (σ : Schedule) (s : Sources) (requested : List String)
    (keepPlaces : Bool) : Compilation :=
  let parsed := σ.parsing s.parseErrors
  if Diagnostic.countErrors parsed > 0 then
    ⟨[], .empty, ordered (parsed ++ missingImports s), [], s.documents⟩
  else
    let symbols := Symbols.ofSources s
    let linked := linkAll s symbols.table keepPlaces
    let errors := parsed ++ missingImports s ++ importCycles s ++ symbols.errors ++
      σ.linking (linked.map fun (_, l) => l.errors)
    let warnings := sortedWith (fun a b => (Warning.compareWarnings a b).isLE)
      (linked.flatMap fun (f, l) => warningsOf s f l)
    if (ordered errors).isEmpty then
      let compiled := linked.map fun (f, l) =>
        (f.path, (⟨l.descriptor, f.external, f.module, f.commit⟩ : CompiledFile))
      ⟨(compiled.filter fun e => requested.contains e.1).map (·.2), Table.ofList compiled, [],
        warnings, s.documents⟩
    else ⟨[], .empty, ordered errors, warnings, s.documents⟩

def compileUnder (σ : Schedule) (w : World) (v : Module.View) (requested : List String)
    (keepPlaces : Bool) : Except Error Compilation := do
  return (← Sources.load w v requested).compileUnder σ requested keepPlaces

/-- Builds the image of the target schema files of a view, under a schedule. -/
def buildUnder (σ : Schedule) (w : World) (v : Module.View) (keepPlaces : Bool) :
    Except Error Outcome := do
  if !v.isSelfContained then
    throw (.fault
      "passed a module read bucket to build_image that was not expected to be self-contained")
  let targets ← (v.targets w).mapError .module
  let paths := (targets.filter fun f => f.kind = .schema).map FileInfo.path
  if paths.isEmpty then throw .noInputFiles
  let c ← compileUnder σ w v paths keepPlaces
  if !c.errors.isEmpty then return .failed (noticesOf c)
  return .built (← assemble paths (← inRequestedOrder paths c.files) c)

theorem pairwise_zipIdx {α : Type} (l : List α) : l.zipIdx.Pairwise fun a b => a.2 ≠ b.2 := by
  have h : (l.zipIdx.map Prod.snd).Pairwise (· < ·) := by
    rw [List.zipIdx_map_snd]
    exact List.pairwise_lt_range'
  exact (List.pairwise_map.1 h).imp Nat.ne_of_lt

variable {w : World} {v : Module.View} {s : Sources} {σ : Schedule}

theorem onePerFile_parseErrors (s : Sources) : OnePerFile s.parseErrors := by
  refine List.pairwise_map.2 ((pairwise_zipIdx s.files).imp fun {a b} hab d hd e he => ?_)
  rw [(Schema.in_parse a.2 a.1.text).errors d hd, (Schema.in_parse b.2 b.1.text).errors e he]
  exact hab

theorem Faithful.onePerFile_linkAll (hs : Faithful w v s) (symbols : Table Symbol)
    (keepPlaces : Bool) :
    OnePerFile ((linkAll s symbols keepPlaces).map fun e => e.2.errors) := by
  have hfile : ∀ e ∈ s.files.zipIdx, e.1.file.In e.2 := fun e he => by
    rw [(hs.file e.2 e.1 (mem_zipIdx.1 he)).2]
    exact (Schema.in_parse e.2 e.1.text).file
  rw [linkAll, List.map_map]
  refine List.pairwise_map.2 ((pairwise_zipIdx s.files).imp_of_mem fun {a b} ha hb hab d hd e he => ?_)
  rw [file_linkFile (hfile a ha) d hd, file_linkFile (hfile b hb) e he]
  exact hab

/-- What files compile to does not show the schedule. -/
theorem Faithful.compileUnder_eq (hs : Faithful w v s) (hσ : σ.Fair) (requested : List String)
    (keepPlaces : Bool) : s.compileUnder σ requested keepPlaces = s.compile requested keepPlaces := by
  have hparsed := hσ.parsing s.parseErrors
  have hflat : s.parseErrors.flatten = s.errors := by
    rw [hs.errors, List.flatMap_def]
    rfl
  have hcount : Diagnostic.countErrors (σ.parsing s.parseErrors) = Diagnostic.countErrors s.errors := by
    rw [← hflat]
    exact hparsed.perm.countP_eq _
  have hparse : ∀ after, ordered (σ.parsing s.parseErrors ++ after) = ordered (s.errors ++ after) :=
    fun after => by
      have h := ordered_interleaved hparsed (onePerFile_parseErrors s) [] after
      rw [hflat] at h
      exact h
  have hlink : ∀ before, ordered (before ++
        σ.linking ((linkAll s (Symbols.ofSources s).table keepPlaces).map fun e => e.2.errors)) =
      ordered (before ++
        (linkAll s (Symbols.ofSources s).table keepPlaces).flatMap fun e => e.2.errors) :=
    fun before => by
      have h := ordered_interleaved (hσ.linking _)
        (hs.onePerFile_linkAll (Symbols.ofSources s).table keepPlaces) before []
      rw [List.append_nil, List.append_nil] at h
      exact h
  have hall : ordered (σ.parsing s.parseErrors ++ missingImports s ++ importCycles s ++
        (Symbols.ofSources s).errors ++
        σ.linking ((linkAll s (Symbols.ofSources s).table keepPlaces).map fun e => e.2.errors)) =
      ordered (s.errors ++ missingImports s ++ importCycles s ++ (Symbols.ofSources s).errors ++
        (linkAll s (Symbols.ofSources s).table keepPlaces).flatMap fun e => e.2.errors) := by
    rw [hlink]
    simp only [List.append_assoc, hparse]
  rw [Sources.compileUnder, Sources.compile]
  simp only [hcount, hparse, hall]

theorem faithful_of_load {requested : List String} (h : Sources.load w v requested = .ok s) :
    Faithful w v s := by
  cases requested with
  | nil =>
    cases h
    exact faithful_nil
  | cons path requested =>
    exact (loaded_of_load (live_of_load (List.cons_ne_nil _ _) h) h).faithful

/-- What is built does not show in which order the diagnostics of different files came. -/
theorem buildUnder_eq (hσ : σ.Fair) (w : World) (v : Module.View) (keepPlaces : Bool) :
    buildUnder σ w v keepPlaces = build w v keepPlaces := by
  have hcompile : ∀ requested,
      compileUnder σ w v requested keepPlaces = compile w v requested keepPlaces := by
    intro requested
    unfold compileUnder compile
    cases hload : Sources.load w v requested with
    | error e => rfl
    | ok s => exact congrArg Except.ok ((faithful_of_load hload).compileUnder_eq hσ _ _)
  unfold buildUnder build
  simp only [hcompile]

end Schemata.Image

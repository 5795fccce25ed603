import Schemata.Proofs.Image.Build

/-!
# Images without repetitions

In an image that is built, files have different paths, the messages of a file have different full
names, and the fields of a message have different numbers. Linking keeps the messages and fields
that are declared, and the declarations are different when the files compile.
-/

namespace Schemata.Image

open Source

/-! ### Messages of a file -/

/-- Whether a message is one of some messages or inside one of them. -/
inductive Inside (ms : List Descriptor.Message) : Descriptor.Message → Prop
  | here {m : Descriptor.Message} (h : m ∈ ms) : Inside ms m
  | nested {m n : Descriptor.Message} (h : Inside ms m) (hn : n ∈ m.messages) : Inside ms n

theorem Inside.mono {ms ns : List Descriptor.Message} (hsub : ms ⊆ ns) {m : Descriptor.Message}
    (h : Inside ms m) : Inside ns m := by
  induction h with
  | here h => exact .here (hsub h)
  | nested _ hn ih => exact .nested ih hn

mutual

theorem mem_withNested : (m : Descriptor.Message) → (n : Descriptor.Message) →
    (n ∈ m.withNested ↔ Inside [m] n)
  | .mk name fullName fields messages enums, n => by
    rw [Descriptor.Message.withNested, List.mem_cons, mem_allNested messages n]
    constructor
    · rintro (rfl | h)
      · exact .here (List.mem_singleton_self _)
      · induction h with
        | here h => exact .nested (.here (List.mem_singleton_self _)) h
        | nested _ hn ih => exact .nested ih hn
    · intro h
      induction h with
      | here h => exact .inl (List.mem_singleton.1 h)
      | nested _ hn ih =>
        rcases ih with rfl | ih
        · exact .inr (.here hn)
        · exact .inr (.nested ih hn)

theorem mem_allNested : (ms : List Descriptor.Message) → (n : Descriptor.Message) →
    (n ∈ Descriptor.Message.allNested ms ↔ Inside ms n)
  | [], n => by
    rw [Descriptor.Message.allNested]
    refine iff_of_false List.not_mem_nil fun h => ?_
    induction h with
    | here h => cases h
    | nested _ _ ih => exact ih
  | m :: ms, n => by
    rw [Descriptor.Message.allNested, List.mem_append, mem_withNested m n, mem_allNested ms n]
    constructor
    · rintro (h | h)
      · exact h.mono (List.cons_subset_cons m (List.nil_subset ms))
      · exact h.mono (List.subset_cons_self m ms)
    · intro h
      induction h with
      | here h =>
        rcases List.mem_cons.1 h with rfl | h
        · exact .inl (.here (List.mem_singleton_self _))
        · exact .inr (.here h)
      | nested _ hn ih =>
        rcases ih with ih | ih
        · exact .inl (.nested ih hn)
        · exact .inr (.nested ih hn)

end

theorem mem_allMessages {f : Descriptor.File} {m : Descriptor.Message} :
    m ∈ f.allMessages ↔ Inside f.messages m := by
  rw [Descriptor.File.allMessages_eq, mem_allNested]

/-! ### What linking keeps -/

/-- The names of a message, the full one first, and the names and numbers of its fields. -/
abbrev Outline := String × String × List (String × Nat)

def outline (m : Descriptor.Message) : Outline :=
  (m.fullName, m.name, m.fields.map fun f => (f.name, f.number))

def declaredOutline (m : String × Schema.MessageDecl) : Outline :=
  (m.1, m.2.name, m.2.fields.map fun f => (f.name, f.number))

def outlines (ms : List Descriptor.Message) : List Outline :=
  (Descriptor.Message.allNested ms).map outline

theorem outlines_cons (name fullName : String) (fields : List Descriptor.Field)
    (messages ms : List Descriptor.Message) (enums : List Descriptor.Enum) :
    outlines (.mk name fullName fields messages enums :: ms) =
      (fullName, name, fields.map fun f => (f.name, f.number)) ::
        (outlines messages ++ outlines ms) := by
  simp only [outlines, Descriptor.Message.allNested, Descriptor.Message.withNested, List.map_append,
    List.cons_append, List.map_cons]
  rfl

namespace LinkContext

variable (c : LinkContext)

theorem outline_linkFields (message : String) (before fs : List Schema.Field) (l : Link) :
    ((c.linkFields message before fs l).1.map fun f => (f.name, f.number)) =
      fs.map fun f => (f.name, f.number) := by
  induction fs generalizing before l with
  | nil => rfl
  | cons f fs ih =>
    rw [linkFields_cons]
    exact congrArg ((f.name, f.number) :: ·) (ih (before ++ [f]) _)

mutual

theorem outlines_linkItem (scope : String) : (item : Schema.Item) → (l : Link) → (t : Types) →
    outlines ((c.linkItem scope item l).1 t).messages =
      (messages scope item).map declaredOutline ++ outlines t.messages
  | .message decl nested, l, t => by
    rw [linkItem]
    refine (outlines_cons decl.name (qualify scope decl.name) _ _ _ _).trans ?_
    rw [messages, List.map_cons, List.cons_append]
    congr 1
    · exact congrArg (fun fields => (_, decl.name, fields)) (c.outline_linkFields _ _ _ _)
    · congr 1
      exact outlines_linkItems (qualify scope decl.name) nested _
  | .enumeration decl, l, t => rfl

theorem outlines_linkItems (scope : String) : (items : List Schema.Item) → (l : Link) →
    outlines (c.linkItems scope items l).1.messages =
      (messagesIn scope items).map declaredOutline
  | [], l => rfl
  | item :: items, l => by
    rw [linkItems, messagesIn, List.map_append]
    refine (outlines_linkItem scope item l _).trans ?_
    congr 1
    exact outlines_linkItems scope items _

end

end LinkContext

theorem outlines_linkFile (s : Sources) (symbols : Table Symbol) (passed : Array (List FileId))
    (keepPlaces : Bool) (n : FileId) (f : SourceFile) :
    outlines (linkFile s symbols passed keepPlaces n f).descriptor.messages =
      (messagesOf f.file).map declaredOutline :=
  LinkContext.outlines_linkItems _ f.file.packageName f.file.items ⟨[], [], []⟩

mutual

theorem names_messages (n : FileId) (scope : String) : (item : Schema.Item) →
    ((messages scope item).map Prod.fst).Sublist ((declarations n scope item).map Prod.fst)
  | .message decl nested => (names_messagesIn n (qualify scope decl.name) nested).cons_cons _
  | .enumeration _ => List.nil_sublist _

theorem names_messagesIn (n : FileId) (scope : String) : (items : List Schema.Item) →
    ((messagesIn scope items).map Prod.fst).Sublist ((declarationsIn n scope items).map Prod.fst)
  | [] => .slnil
  | item :: items => by
    rw [messagesIn, declarationsIn, List.map_append, List.map_append]
    exact (names_messages n scope item).append (names_messagesIn n scope items)

end

/-! ### Files of an image -/

/-- Whether the files of an image have different paths, the messages of each file different names,
and the fields of each message different numbers. -/
structure Distinct (image : Image) : Prop where
  paths : image.paths.Nodup
  messages : ∀ f ∈ image.files, (f.descriptor.allMessages.map Descriptor.Message.fullName).Nodup
  fields : ∀ f ∈ image.files, ∀ m ∈ f.descriptor.allMessages,
    (m.fields.map Descriptor.Field.number).Nodup

theorem Sound.nodup_declarationsOf {s : Sources} (h : Sound s) {n : Nat} {f : SourceFile}
    (hf : s.files[n]? = some f) : ((declarationsOf n f.file).map Prod.fst).Nodup := by
  have hall := h.names
  rw [Symbols.declarationsOfAll, Symbols.declarationsFrom, List.map_flatMap,
    List.nodup_flatMap] at hall
  exact hall.1 (f, n) (mem_zipIdx.2 hf)

theorem Sound.distinct {s : Sources} (h : Sound s) {keepPlaces : Bool} {n : Nat} {f : SourceFile}
    (hf : s.files[n]? = some f) {d : Descriptor.File}
    (hd : d = (linkFile s (Symbols.ofSources s).table s.passedOn keepPlaces n f).descriptor) :
    (d.allMessages.map Descriptor.Message.fullName).Nodup ∧
      ∀ m ∈ d.allMessages, (m.fields.map Descriptor.Field.number).Nodup := by
  have houtlines : d.allMessages.map outline = (messagesOf f.file).map declaredOutline := by
    rw [d.allMessages_eq, hd]
    exact outlines_linkFile s _ _ keepPlaces n f
  constructor
  · have hnames : d.allMessages.map Descriptor.Message.fullName =
        (messagesOf f.file).map Prod.fst := by
      have hfst := congrArg (List.map Prod.fst) houtlines
      rw [List.map_map, List.map_map] at hfst
      exact hfst
    rw [hnames]
    exact (h.nodup_declarationsOf hf).sublist (names_messagesIn n _ _)
  · intro m hm
    have hmem : outline m ∈ (messagesOf f.file).map declaredOutline :=
      houtlines ▸ List.mem_map_of_mem hm
    obtain ⟨decl, hdecl, heq⟩ := List.mem_map.1 hmem
    have hnumbers : decl.2.fields.map Schema.Field.number =
        m.fields.map Descriptor.Field.number := by
      have hfields := congrArg (fun o : Outline => o.2.2.map Prod.snd) heq
      simp only [declaredOutline, outline, List.map_map] at hfields
      exact hfields
    rw [← hnumbers]
    exact (h.links n f hf decl hdecl).1.1

/-! ### Building -/

/-- The stack puts compiled files into order and nothing else. -/
theorem emit_mem {all : Table CompiledFile} {stack : List Frame} {e e' : Emission}
    (h : emit all stack e = .ok e') {P : CompiledFile → Prop}
    (hall : ∀ p f, all.find? p = some f → P f) (hstack : ∀ frame ∈ stack, P frame.1)
    (horder : ∀ f ∈ e.order, P f) : ∀ f ∈ e'.order, P f := by
  induction stack, e using emit.induct all with
  | case1 e =>
    rw [emit_nil] at h
    cases h
    exact horder
  | case2 e f stack ih =>
    rw [emit_done] at h
    obtain ⟨hf, hstack⟩ := List.forall_mem_cons.1 hstack
    exact ih h hstack (List.forall_mem_cons.2 ⟨hf, horder⟩)
  | case3 e f d ds stack hnone =>
    rw [emit.eq_def] at h
    simp only at h
    split at h
    · cases h
    · rename_i g hg
      rw [hnone] at hg
      cases hg
  | case4 e f d ds stack g hg hseen ih =>
    rw [emit_skip hg (List.contains_iff_mem.1 hseen)] at h
    exact ih h (List.forall_mem_cons.2 (List.forall_mem_cons.1 hstack)) horder
  | case5 e f d ds stack g hg hnew ih =>
    rw [emit_enter hg (mt List.contains_iff_mem.2 hnew)] at h
    have hstack := List.forall_mem_cons.1 hstack
    exact ih h (List.forall_mem_cons.2 ⟨hall d g hg, List.forall_mem_cons.2 hstack⟩) horder

theorem emitEach_mem {all : Table CompiledFile} {roots : List CompiledFile} {e e' : Emission}
    (h : emitEach all roots e = .ok e') {P : CompiledFile → Prop}
    (hall : ∀ p f, all.find? p = some f → P f) (horder : ∀ f ∈ e.order, P f) :
    ∀ f ∈ e'.order, P f := by
  induction roots generalizing e with
  | nil =>
    cases h
    exact horder
  | cons root roots ih =>
    rw [emitEach] at h
    split at h
    · cases h
    · rename_i f hf
      split at h
      · exact ih h horder
      · obtain ⟨e₁, hemit, hrest⟩ := bind_eq_ok.1 h
        refine ih hrest (emit_mem hemit hall ?_ horder)
        exact List.forall_mem_singleton.2 (hall _ f hf)

theorem nodup_of_repeatedPath? {seen : List String} {files : List ImageFile}
    (h : repeatedPath? seen files = none) :
    (files.map ImageFile.path).Nodup ∧ ∀ f ∈ files, f.path ∉ seen := by
  induction files generalizing seen with
  | nil => exact ⟨.nil, fun _ hf => absurd hf List.not_mem_nil⟩
  | cons f files ih =>
    rw [repeatedPath?] at h
    split at h
    · cases h
    · rename_i hnew
      obtain ⟨hnodup, hseen⟩ := ih h
      refine ⟨List.nodup_cons.2 ⟨fun hmem => ?_, hnodup⟩, List.forall_mem_cons.2 ⟨?_, ?_⟩⟩
      · obtain ⟨g, hg, hpath⟩ := List.mem_map.1 hmem
        exact hseen g hg (hpath ▸ List.mem_cons_self)
      · exact mt List.contains_iff_mem.2 hnew
      · exact fun g hg hmem => hseen g hg (List.mem_cons_of_mem _ hmem)

theorem nodup_of_make {files : List ImageFile} {image : Image} (h : make files = .ok image) :
    image.files = files ∧ (files.map ImageFile.path).Nodup := by
  unfold make at h
  split at h
  · cases h
  · rename_i hnone
    split at h
    · cases h
    · cases h
      exact ⟨rfl, (nodup_of_repeatedPath? hnone).1⟩

variable {w : World} {v : Module.View} {keepPlaces : Bool} {image : Image}

/-- What is built comes from a compilation without errors. -/
theorem compile_of_build (h : build w v keepPlaces = .ok (.built image)) :
    ∃ paths c requested, compile w v paths keepPlaces = .ok c ∧ c.errors = [] ∧
      assemble paths requested c = .ok image := by
  unfold build at h
  simp only at h
  split at h
  · cases h
  · obtain ⟨targets, _, h⟩ := bind_eq_ok.1 h
    split at h
    · cases h
    · obtain ⟨c, hc, h⟩ := bind_eq_ok.1 h
      split at h
      · cases h
      · rename_i herrors
        obtain ⟨requested, _, h⟩ := bind_eq_ok.1 h
        obtain ⟨image', hassemble, h⟩ := bind_eq_ok.1 h
        cases h
        exact ⟨_, c, requested, hc, by simpa using herrors, hassemble⟩

/-- The files of an image that is built are linked from the files that were read. -/
theorem linked_of_build (h : build w v keepPlaces = .ok (.built image)) :
    ∃ s, Faithful w v s ∧ Sound s ∧ image.paths.Nodup ∧
      ∀ f ∈ image.files, ∃ (n : Nat) (sf : SourceFile), s.files[n]? = some sf ∧
        f.external = sf.external ∧
        f.descriptor =
          (linkFile s (Symbols.ofSources s).table s.passedOn keepPlaces n sf).descriptor := by
  obtain ⟨paths, c, requested, hc, herrors, hassemble⟩ := compile_of_build h
  obtain ⟨s, hload, rfl⟩ := compile_eq_ok.1 hc
  have hs := Loaded.of_load hload
  have hsound : Sound s := (errors_compile hs.faithful.isError _ keepPlaces).1 herrors
  obtain ⟨e, hemit, hmake⟩ := bind_eq_ok.1 hassemble
  obtain ⟨hfiles, hnodup⟩ := nodup_of_make hmake
  have hlinked : ∀ f ∈ e.order, ∃ (n : Nat) (sf : SourceFile), s.files[n]? = some sf ∧
      f = compiledOf s keepPlaces n sf := by
    refine emitEach_mem hemit (fun p f hf => ?_) fun _ hf => absurd hf List.not_mem_nil
    rw [(compile_of_sound hsound hs.faithful.isError paths keepPlaces).2] at hf
    obtain ⟨⟨sf, n⟩, hsf, heq⟩ := List.mem_map.1 (hs.find?_entriesOf.1 hf)
    cases heq
    exact ⟨n, sf, mem_zipIdx.1 hsf, rfl⟩
  rw [← hfiles] at hnodup
  refine ⟨s, hs.faithful, hsound, hnodup, fun f hf => ?_⟩
  rw [hfiles] at hf
  obtain ⟨g, hg, rfl⟩ := List.mem_map.1 hf
  obtain ⟨n, sf, hsf, rfl⟩ := hlinked g (List.mem_reverse.1 hg)
  exact ⟨n, sf, hsf, rfl, rfl⟩

theorem distinct_of_build (h : build w v keepPlaces = .ok (.built image)) : image.Distinct := by
  obtain ⟨s, _, hsound, hnodup, hlinked⟩ := linked_of_build h
  have hdistinct : ∀ f ∈ image.files,
      (f.descriptor.allMessages.map Descriptor.Message.fullName).Nodup ∧
        ∀ m ∈ f.descriptor.allMessages, (m.fields.map Descriptor.Field.number).Nodup := by
    intro f hf
    obtain ⟨n, sf, hsf, _, hlink⟩ := hlinked f hf
    exact hsound.distinct hsf hlink
  exact ⟨hnodup, fun f hf => (hdistinct f hf).1, fun f hf => (hdistinct f hf).2⟩

end Schemata.Image

import Schemata.Proofs.Check.Reports
import Schemata.Proofs.Image.Distinct
import Schemata.Proofs.ModuleSet.OrderFree

/-!
# What the breaking-change rules find

The rules that come with the program find nothing exactly when each previous target file is still
there with all its messages and their fields, and the fields have the types they had. What they
find otherwise is about a file, a message, or a field that is gone or has another type.
-/

namespace Schemata.Check

open Descriptor (Field Message)
open Settings (BreakingSettings)
open Image (Inside)

/-! ### Keeping what was there -/

/-- Whether an image still has some files by path, with all their messages by full name and with all
fields of these by number and type. -/
def Keeps (files : List ImageFile) (new : Image) : Prop :=
  ∀ f ∈ files, ∃ g ∈ new.files, g.path = f.path ∧
    ∀ m, Inside f.descriptor.messages m → ∃ n, Inside g.descriptor.messages n ∧
      n.fullName = m.fullName ∧
        ∀ a ∈ m.fields, ∃ b ∈ n.fields, b.number = a.number ∧ b.type = a.type

/-- What may be gone, or of another type: a file, a message of a file, or a field of it. -/
inductive Break
  | file (path : String)
  | message (path fullName : String)
  | field (path fullName : String) (number : Nat)
  | type (path fullName : String) (number : Nat)

/-- Whether a break is the loss of what another break is about a part of. -/
inductive Break.Encloses : Break → Break → Prop
  | file_message (path fullName : String) : Encloses (.file path) (.message path fullName)
  | file_field (path fullName : String) (number : Nat) :
    Encloses (.file path) (.field path fullName number)
  | file_type (path fullName : String) (number : Nat) :
    Encloses (.file path) (.type path fullName number)
  | message_field (path fullName : String) (number : Nat) :
    Encloses (.message path fullName) (.field path fullName number)
  | message_type (path fullName : String) (number : Nat) :
    Encloses (.message path fullName) (.type path fullName number)
  | field_type (path fullName : String) (number : Nat) :
    Encloses (.field path fullName number) (.type path fullName number)

/-- Whether a previous target file is still there, as the current one. -/
structure FileStays (c : Change) (f g : ImageFile) : Prop where
  target : f ∈ c.previous.targets
  current : g ∈ c.current.files
  path : g.path = f.path

/-- Whether a message of a file that is still there is so too, as the current one. -/
structure MessageStays (c : Change) (f g : ImageFile) (m n : Message) : Prop
    extends FileStays c f g where
  old : Inside f.descriptor.messages m
  new : Inside g.descriptor.messages n
  name : n.fullName = m.fullName

/-- Whether a break lies between two images, and the notice of it. -/
inductive Shows (c : Change) : Break → Notice → Prop
  | file {f : ImageFile} (hf : f ∈ c.previous.targets)
    (hgone : ∀ g ∈ c.current.files, g.path ≠ f.path) :
    Shows c (.file f.path) (noticeOf fileNoDelete (.ofFile f
      s!"Previously present file \"{f.path}\" was deleted."))
  | message {f g : ImageFile} {m : Message} (hfile : FileStays c f g)
    (hm : Inside f.descriptor.messages m)
    (hgone : ∀ n, Inside g.descriptor.messages n → n.fullName ≠ m.fullName) :
    Shows c (.message f.path m.fullName) (noticeOf messageNoDelete (.ofFile g
      s!"Previously present message \"{m.fullName}\" was deleted from file."))
  | field {f g : ImageFile} {m n : Message} {a : Field} (hmessage : MessageStays c f g m n)
    (ha : a ∈ m.fields) (hgone : ∀ b ∈ n.fields, b.number ≠ a.number) :
    Shows c (.field f.path m.fullName a.number) (noticeOf fieldNoDelete (.ofSymbol g n.fullName
      s!"Previously present field \"{a.number}\" with name \"{a.name}\" on message \"{n.name}\" was deleted."))
  | type {f g : ImageFile} {m n : Message} {a b : Field} (hmessage : MessageStays c f g m n)
    (ha : a ∈ m.fields) (hb : b ∈ n.fields) (hnumber : b.number = a.number)
    (htype : b.type ≠ a.type) :
    Shows c (.type f.path m.fullName a.number) (noticeOf fieldSameType (.ofSymbol g
      (n.fullName ++ "." ++ b.name)
      s!"Field \"{b.number}\" with name \"{b.name}\" on message \"{n.name}\" changed type from \"{a.type.text}\" to \"{b.type.text}\"."))

/-- Whether a break lies between two images. -/
def Breaks (c : Change) (b : Break) : Prop := ∃ n, Shows c b n

/-! ### Images without repetitions -/

section Distinct

variable {image : Image} (h : image.Distinct)
include h

theorem file?_eq_some {path : String} {f : ImageFile} :
    image.file? path = some f ↔ f ∈ image.files ∧ f.path = path := find?_key_eq_some h.paths

theorem eq_of_path {f g : ImageFile} (hf : f ∈ image.files) (hg : g ∈ image.files)
    (hpath : f.path = g.path) : f = g := List.inj_on_of_nodup_map h.paths hf hg hpath

variable {f : ImageFile} (hf : f ∈ image.files)
include hf

theorem message?_eq_some {fullName : String} {m : Message} :
    message? f fullName = some m ↔ Inside f.descriptor.messages m ∧ m.fullName = fullName := by
  have hnodup : (f.descriptor.allMessages.reverse.map Message.fullName).Nodup := by
    rw [List.map_reverse]
    exact List.nodup_reverse.2 (h.messages f hf)
  rw [message?, find?_key_eq_some hnodup, List.mem_reverse]
  exact and_congr_left fun _ => Image.mem_allMessages

theorem eq_of_fullName {m n : Message} (hm : Inside f.descriptor.messages m)
    (hn : Inside f.descriptor.messages n) (hname : m.fullName = n.fullName) : m = n :=
  List.inj_on_of_nodup_map (h.messages f hf) (Image.mem_allMessages.2 hm)
    (Image.mem_allMessages.2 hn) hname

variable {m : Message} (hm : Inside f.descriptor.messages m)
include hm

theorem field?_eq_some {number : Nat} {a : Field} :
    m.field? number = some a ↔ a ∈ m.fields ∧ a.number = number :=
  find?_key_eq_some (h.fields f hf m (Image.mem_allMessages.2 hm))

theorem eq_of_number {a b : Field} (ha : a ∈ m.fields) (hb : b ∈ m.fields)
    (hnumber : a.number = b.number) : a = b :=
  List.inj_on_of_nodup_map (h.fields f hf m (Image.mem_allMessages.2 hm)) ha hb hnumber

end Distinct

/-! ### Rules -/

section Rules

theorem file?_eq_none {image : Image} {path : String} :
    (image.file? path).isNone = true ↔ ∀ g ∈ image.files, g.path ≠ path := by
  simp [Image.file?]

theorem message?_eq_none {f : ImageFile} {fullName : String} :
    (message? f fullName).isNone = true ↔
      ∀ n, Inside f.descriptor.messages n → n.fullName ≠ fullName := by
  simp only [message?, Option.isNone_iff_eq_none, List.find?_eq_none, List.mem_reverse,
    decide_eq_true_eq, Image.mem_allMessages, ne_eq]

theorem field?_eq_none {m : Message} {number : Nat} :
    (m.field? number).isNone = true ↔ ∀ a ∈ m.fields, a.number ≠ number := by
  simp [Message.field?]

variable {c : Change} {n : Notice}

theorem told_fileNoDelete :
    (∃ d ∈ fileNoDelete.check c, n = noticeOf fileNoDelete d) ↔ ∃ path, Shows c (.file path) n := by
  constructor
  · rintro ⟨d, hd, rfl⟩
    obtain ⟨f, hf, rfl⟩ := List.mem_map.1 hd
    obtain ⟨hf, hgone⟩ := List.mem_filter.1 hf
    exact ⟨_, .file hf (file?_eq_none.1 hgone)⟩
  · rintro ⟨path, hshows⟩
    cases hshows with
    | file hf hgone =>
      refine ⟨_, List.mem_map.2 ⟨_, List.mem_filter.2 ⟨hf, file?_eq_none.2 hgone⟩, rfl⟩, rfl⟩

variable (hcurrent : c.current.Distinct)
include hcurrent

theorem mem_survivingFiles {f g : ImageFile} :
    (f, g) ∈ survivingFiles c ↔ FileStays c f g := by
  simp only [survivingFiles, List.mem_filterMap, Option.map_eq_some_iff, file?_eq_some hcurrent]
  constructor
  · rintro ⟨f', hf, g', ⟨hg, hpath⟩, heq⟩
    cases heq
    exact ⟨hf, hg, hpath⟩
  · rintro ⟨hf, hg, hpath⟩
    exact ⟨f, hf, g, ⟨hg, hpath⟩, rfl⟩

theorem mem_survivingMessages {g : ImageFile} {m n : Message} :
    (g, m, n) ∈ survivingMessages c ↔ ∃ f, MessageStays c f g m n := by
  simp only [survivingMessages, List.mem_flatMap, List.mem_filterMap, Option.map_eq_some_iff,
    Prod.exists, mem_survivingFiles hcurrent]
  constructor
  · rintro ⟨f, g', hfile, m', hm, n', hn, heq⟩
    cases heq
    obtain ⟨hn, hname⟩ := (message?_eq_some hcurrent hfile.current).1 hn
    exact ⟨f, hfile, Image.mem_allMessages.1 hm, hn, hname⟩
  · rintro ⟨f, hfile, hm, hn, hname⟩
    exact ⟨f, g, hfile, m, Image.mem_allMessages.2 hm, n,
      (message?_eq_some hcurrent hfile.current).2 ⟨hn, hname⟩, rfl⟩

theorem told_messageNoDelete :
    (∃ d ∈ messageNoDelete.check c, n = noticeOf messageNoDelete d) ↔
      ∃ path fullName, Shows c (.message path fullName) n := by
  constructor
  · rintro ⟨d, hd, rfl⟩
    obtain ⟨⟨f, g⟩, hfile, hd⟩ := List.mem_flatMap.1 hd
    obtain ⟨m, hm, rfl⟩ := List.mem_map.1 hd
    obtain ⟨hm, hgone⟩ := List.mem_filter.1 hm
    exact ⟨_, _, .message ((mem_survivingFiles hcurrent).1 hfile) (Image.mem_allMessages.1 hm)
      (message?_eq_none.1 hgone)⟩
  · rintro ⟨path, fullName, hshows⟩
    cases hshows with
    | message hfile hm hgone =>
      exact ⟨_, List.mem_flatMap.2 ⟨_, (mem_survivingFiles hcurrent).2 hfile, List.mem_map.2
        ⟨_, List.mem_filter.2 ⟨Image.mem_allMessages.2 hm, message?_eq_none.2 hgone⟩, rfl⟩⟩,
        rfl⟩

theorem told_fieldNoDelete :
    (∃ d ∈ fieldNoDelete.check c, n = noticeOf fieldNoDelete d) ↔
      ∃ path fullName number, Shows c (.field path fullName number) n := by
  constructor
  · rintro ⟨d, hd, rfl⟩
    obtain ⟨⟨g, m, n⟩, hmessage, hd⟩ := List.mem_flatMap.1 hd
    obtain ⟨f, hmessage⟩ := (mem_survivingMessages hcurrent).1 hmessage
    obtain ⟨a, ha, rfl⟩ := List.mem_map.1 hd
    obtain ⟨ha, hgone⟩ := List.mem_filter.1 ha
    exact ⟨_, _, _, .field hmessage ha (field?_eq_none.1 hgone)⟩
  · rintro ⟨path, fullName, number, hshows⟩
    cases hshows with
    | field hmessage ha hgone =>
      exact ⟨_, List.mem_flatMap.2 ⟨_, (mem_survivingMessages hcurrent).2 ⟨_, hmessage⟩,
        List.mem_map.2 ⟨_, List.mem_filter.2 ⟨ha, field?_eq_none.2 hgone⟩, rfl⟩⟩, rfl⟩

theorem told_fieldSameType (hprevious : c.previous.Distinct) :
    (∃ d ∈ fieldSameType.check c, n = noticeOf fieldSameType d) ↔
      ∃ path fullName number, Shows c (.type path fullName number) n := by
  have hfield {f g : ImageFile} {m n : Message} (hmessage : MessageStays c f g m n) {number : Nat}
      {a : Field} : m.field? number = some a ↔ a ∈ m.fields ∧ a.number = number :=
    field?_eq_some hprevious (List.mem_of_mem_filter hmessage.target) hmessage.old
  constructor
  · rintro ⟨d, hd, rfl⟩
    obtain ⟨⟨g, m, n⟩, hmessage, hd⟩ := List.mem_flatMap.1 hd
    obtain ⟨f, hmessage⟩ := (mem_survivingMessages hcurrent).1 hmessage
    obtain ⟨b, hb, hchange⟩ := List.mem_filterMap.1 hd
    obtain ⟨a, ha, hguard⟩ := Option.bind_eq_some_iff.1 hchange
    obtain ⟨ha, hnumber⟩ := (hfield hmessage).1 ha
    by_cases htype : a.type = b.type
    · rw [guard, if_neg (not_not_intro htype)] at hguard
      cases hguard
    · rw [guard, if_pos htype] at hguard
      cases hguard
      exact ⟨_, _, _, .type hmessage ha hb hnumber.symm (Ne.symm htype)⟩
  · rintro ⟨path, fullName, number, hshows⟩
    cases hshows with
    | @type f g m n a b hmessage ha hb hnumber htype =>
      refine ⟨_, List.mem_flatMap.2 ⟨_, (mem_survivingMessages hcurrent).2 ⟨_, hmessage⟩,
        List.mem_filterMap.2 ⟨b, hb, ?_⟩⟩, rfl⟩
      refine Option.bind_eq_some_iff.2 ⟨a, (hfield hmessage).2 ⟨ha, hnumber.symm⟩, ?_⟩
      rw [guard, if_pos (Ne.symm htype)]
      rfl

/-- What the rules tell are the breaks. -/
theorem told_iff (hprevious : c.previous.Distinct) :
    (∃ r ∈ breakingRules, ∃ d ∈ r.check c, n = noticeOf r d) ↔ ∃ b, Shows c b n := by
  have hrules : (∃ r ∈ breakingRules, ∃ d ∈ r.check c, n = noticeOf r d) ↔
      (∃ path, Shows c (.file path) n) ∨ (∃ path fullName, Shows c (.message path fullName) n) ∨
        (∃ path fullName number, Shows c (.field path fullName number) n) ∨
        ∃ path fullName number, Shows c (.type path fullName number) n := by
    rw [← told_fileNoDelete, ← told_messageNoDelete hcurrent, ← told_fieldNoDelete hcurrent,
      ← told_fieldSameType hcurrent hprevious]
    simp only [breakingRules, List.exists_mem_cons_iff, List.not_mem_nil, false_and, exists_false,
      or_false]
  rw [hrules]
  constructor
  · rintro (⟨_, h⟩ | ⟨_, _, h⟩ | ⟨_, _, _, h⟩ | ⟨_, _, _, h⟩)
    · exact ⟨_, h⟩
    · exact ⟨_, h⟩
    · exact ⟨_, h⟩
    · exact ⟨_, h⟩
  · rintro ⟨b, h⟩
    cases b with
    | file path => exact .inl ⟨_, h⟩
    | message path fullName => exact .inr (.inl ⟨_, _, h⟩)
    | field path fullName number => exact .inr (.inr (.inl ⟨_, _, _, h⟩))
    | type path fullName number => exact .inr (.inr (.inr ⟨_, _, _, h⟩))

end Rules

/-! ### Breaks -/

section Breaks

variable {c : Change} {path fullName : String} {number : Nat}

theorem breaks_file : Breaks c (.file path) ↔
    ∃ f ∈ c.previous.targets, f.path = path ∧ ∀ g ∈ c.current.files, g.path ≠ path := by
  constructor
  · rintro ⟨_, hshows⟩
    cases hshows with
    | file hf hgone => exact ⟨_, hf, rfl, hgone⟩
  · rintro ⟨f, hf, rfl, hgone⟩
    exact ⟨_, .file hf hgone⟩

theorem breaks_message : Breaks c (.message path fullName) ↔
    ∃ f g m, FileStays c f g ∧ f.path = path ∧ Inside f.descriptor.messages m ∧
      m.fullName = fullName ∧ ∀ n, Inside g.descriptor.messages n → n.fullName ≠ fullName := by
  constructor
  · rintro ⟨_, hshows⟩
    cases hshows with
    | message hfile hm hgone => exact ⟨_, _, _, hfile, rfl, hm, rfl, hgone⟩
  · rintro ⟨f, g, m, hfile, rfl, hm, rfl, hgone⟩
    exact ⟨_, .message hfile hm hgone⟩

theorem breaks_field : Breaks c (.field path fullName number) ↔
    ∃ f g m n, MessageStays c f g m n ∧ f.path = path ∧ m.fullName = fullName ∧
      ∃ a ∈ m.fields, a.number = number ∧ ∀ b ∈ n.fields, b.number ≠ number := by
  constructor
  · rintro ⟨_, hshows⟩
    cases hshows with
    | field hmessage ha hgone => exact ⟨_, _, _, _, hmessage, rfl, rfl, _, ha, rfl, hgone⟩
  · rintro ⟨f, g, m, n, hmessage, rfl, rfl, a, ha, rfl, hgone⟩
    exact ⟨_, .field hmessage ha hgone⟩

theorem breaks_type : Breaks c (.type path fullName number) ↔
    ∃ f g m n, MessageStays c f g m n ∧ f.path = path ∧ m.fullName = fullName ∧
      ∃ a ∈ m.fields, a.number = number ∧ ∃ b ∈ n.fields, b.number = number ∧ b.type ≠ a.type := by
  constructor
  · rintro ⟨_, hshows⟩
    cases hshows with
    | type hmessage ha hb hnumber htype =>
      exact ⟨_, _, _, _, hmessage, rfl, rfl, _, ha, rfl, _, hb, hnumber, htype⟩
  · rintro ⟨f, g, m, n, hmessage, rfl, rfl, a, ha, rfl, b, hb, hnumber, htype⟩
    exact ⟨_, .type hmessage ha hb hnumber htype⟩

variable {f g : ImageFile} {m n : Message}

theorem FileStays.not_breaks (h : FileStays c f g) : ¬ Breaks c (.file f.path) := by
  rw [breaks_file]
  rintro ⟨_, _, _, hgone⟩
  exact hgone g h.current h.path

variable (hcurrent : c.current.Distinct)
include hcurrent

theorem FileStays.unique {f' g' : ImageFile} (h : FileStays c f g) (h' : FileStays c f' g')
    (hpath : f'.path = f.path) : g' = g :=
  eq_of_path hcurrent h'.current h.current (h'.path.trans (hpath.trans h.path.symm))

theorem MessageStays.unique {f' g' : ImageFile} {m' n' : Message} (h : MessageStays c f g m n)
    (h' : MessageStays c f' g' m' n') (hpath : f'.path = f.path)
    (hname : m'.fullName = m.fullName) : n' = n := by
  have hfile := FileStays.unique hcurrent h.toFileStays h'.toFileStays hpath
  subst hfile
  exact eq_of_fullName hcurrent h.current h'.new h.new
    (h'.name.trans (hname.trans h.name.symm))

theorem MessageStays.not_breaks (h : MessageStays c f g m n) :
    ¬ Breaks c (.message f.path m.fullName) := by
  rw [breaks_message]
  rintro ⟨f', g', _, hfile, hpath, _, _, hgone⟩
  have hsame := FileStays.unique hcurrent h.toFileStays hfile hpath
  subst hsame
  exact hgone n h.new h.name

theorem MessageStays.not_breaks_field (h : MessageStays c f g m n) {b : Field} (hb : b ∈ n.fields) :
    ¬ Breaks c (.field f.path m.fullName b.number) := by
  rw [breaks_field]
  rintro ⟨_, _, _, _, hmessage, hpath, hname, _, _, _, hgone⟩
  have hsame := MessageStays.unique hcurrent h hmessage hpath hname
  subst hsame
  exact hgone b hb rfl

end Breaks

/-! ### Keeping and breaking -/

namespace Keeps

variable {files : List ImageFile} {new : Image} (h : Keeps files new)
include h

theorem messages (hdistinct : new.Distinct) {f g : ImageFile} (hf : f ∈ files)
    (hg : g ∈ new.files) (hpath : g.path = f.path) {m : Message}
    (hm : Inside f.descriptor.messages m) :
    ∃ n, Inside g.descriptor.messages n ∧ n.fullName = m.fullName ∧
      ∀ a ∈ m.fields, ∃ b ∈ n.fields, b.number = a.number ∧ b.type = a.type := by
  obtain ⟨g', hg', hpath', hmessages⟩ := h f hf
  cases eq_of_path hdistinct hg' hg (hpath'.trans hpath.symm)
  exact hmessages m hm

theorem fields (hdistinct : new.Distinct) {f g : ImageFile} (hf : f ∈ files)
    (hg : g ∈ new.files) (hpath : g.path = f.path) {m n : Message}
    (hm : Inside f.descriptor.messages m) (hn : Inside g.descriptor.messages n)
    (hname : n.fullName = m.fullName) :
    ∀ a ∈ m.fields, ∃ b ∈ n.fields, b.number = a.number ∧ b.type = a.type := by
  obtain ⟨n', hn', hname', hfields⟩ := h.messages hdistinct hf hg hpath hm
  cases eq_of_fullName hdistinct hg hn' hn (hname'.trans hname.symm)
  exact hfields

theorem trans {newer : Image} (h' : Keeps new.files newer) : Keeps files newer := by
  intro f hf
  obtain ⟨g, hg, hpath, hmessages⟩ := h f hf
  obtain ⟨k, hk, hpath', hmessages'⟩ := h' g hg
  refine ⟨k, hk, hpath'.trans hpath, fun m hm => ?_⟩
  obtain ⟨n, hn, hname, hfields⟩ := hmessages m hm
  obtain ⟨o, ho, hname', hfields'⟩ := hmessages' n hn
  refine ⟨o, ho, hname'.trans hname, fun a ha => ?_⟩
  obtain ⟨b, hb, hnumber, htype⟩ := hfields a ha
  obtain ⟨d, hd, hnumber', htype'⟩ := hfields' b hb
  exact ⟨d, hd, hnumber'.trans hnumber, htype'.trans htype⟩

end Keeps

theorem keeps_self {image : Image} {files : List ImageFile} (h : files ⊆ image.files) :
    Keeps files image :=
  fun f hf => ⟨f, h hf, rfl, fun m hm => ⟨m, hm, rfl, fun a ha => ⟨a, ha, rfl, rfl⟩⟩⟩

/-- Nothing breaks exactly when the previous target files are kept. -/
theorem keeps_iff {c : Change} (hcurrent : c.current.Distinct) :
    Keeps c.previous.targets c.current ↔ ∀ b, ¬ Breaks c b := by
  constructor
  · rintro hkeeps b ⟨_, hshows⟩
    cases hshows with
    | file hf hgone =>
      obtain ⟨g, hg, hpath, _⟩ := hkeeps _ hf
      exact hgone g hg hpath
    | message hfile hm hgone =>
      obtain ⟨n, hn, hname, _⟩ :=
        hkeeps.messages hcurrent hfile.target hfile.current hfile.path hm
      exact hgone n hn hname
    | field hmessage ha hgone =>
      obtain ⟨b, hb, hnumber, _⟩ := hkeeps.fields hcurrent hmessage.target hmessage.current
        hmessage.path hmessage.old hmessage.new hmessage.name _ ha
      exact hgone b hb hnumber
    | type hmessage ha hb hnumber htype =>
      obtain ⟨b', hb', hnumber', htype'⟩ := hkeeps.fields hcurrent hmessage.target
        hmessage.current hmessage.path hmessage.old hmessage.new hmessage.name _ ha
      cases eq_of_number hcurrent hmessage.current hmessage.new hb' hb
        (hnumber'.trans hnumber.symm)
      exact htype htype'
  · intro hnone f hf
    obtain ⟨g, hg, hpath⟩ : ∃ g ∈ c.current.files, g.path = f.path := by
      by_contra hgone
      push Not at hgone
      exact hnone _ ⟨_, .file hf hgone⟩
    refine ⟨g, hg, hpath, fun m hm => ?_⟩
    obtain ⟨n, hn, hname⟩ : ∃ n, Inside g.descriptor.messages n ∧ n.fullName = m.fullName := by
      by_contra hgone
      push Not at hgone
      exact hnone _ ⟨_, .message ⟨hf, hg, hpath⟩ hm hgone⟩
    have hstays : MessageStays c f g m n := ⟨⟨hf, hg, hpath⟩, hm, hn, hname⟩
    refine ⟨n, hn, hname, fun a ha => ?_⟩
    obtain ⟨b, hb, hnumber⟩ : ∃ b ∈ n.fields, b.number = a.number := by
      by_contra hgone
      push Not at hgone
      exact hnone _ ⟨_, .field hstays ha hgone⟩
    refine ⟨b, hb, hnumber, ?_⟩
    by_contra htype
    exact hnone _ ⟨_, .type hstays ha hb hnumber htype⟩

section Added

variable {old new grown : Image} {f g : ImageFile} {m n : Message}

/-- Whether a break is a part of what was gone before something was added and is there now. -/
def Restored (old new grown : Image) (b : Break) : Prop :=
  ∃ d, d.Encloses b ∧ Breaks ⟨new, old⟩ d ∧ ¬ Breaks ⟨grown, old⟩ d

variable (new) in
/-- A file that is there after something was added was there before, or all about it is restored. -/
theorem FileStays.before (h : FileStays ⟨grown, old⟩ f g) :
    (∃ k, FileStays ⟨new, old⟩ f k) ∨
      ∀ b, Break.Encloses (.file f.path) b → Restored old new grown b := by
  by_cases hfile : ∃ k ∈ new.files, k.path = f.path
  · obtain ⟨k, hk, hpath⟩ := hfile
    exact .inl ⟨k, h.target, hk, hpath⟩
  · push Not at hfile
    exact .inr fun b hb => ⟨_, hb, breaks_file.2 ⟨f, h.target, rfl, hfile⟩, h.not_breaks⟩

variable (hdistinct : grown.Distinct) (hadded : Keeps new.files grown)
include hdistinct

variable (new) in
/-- A message that is there after something was added was there before, or all about it is
restored. -/
theorem MessageStays.before (h : MessageStays ⟨grown, old⟩ f g m n) :
    (∃ k o, MessageStays ⟨new, old⟩ f k m o) ∨
      ∀ b, Break.Encloses (.file f.path) b → Break.Encloses (.message f.path m.fullName) b →
        Restored old new grown b := by
  rcases h.toFileStays.before new with ⟨k, hk⟩ | hrestored
  · by_cases hmessage : ∃ o, Inside k.descriptor.messages o ∧ o.fullName = m.fullName
    · obtain ⟨o, ho, hname⟩ := hmessage
      exact .inl ⟨k, o, hk, h.old, ho, hname⟩
    · push Not at hmessage
      refine .inr fun b _ hb => ⟨_, hb, ?_, MessageStays.not_breaks hdistinct h⟩
      exact breaks_message.2 ⟨f, k, m, hk, rfl, h.old, rfl, hmessage⟩
  · exact .inr fun b hb _ => hrestored b hb

include hadded

theorem MessageStays.fields {k : ImageFile} {o : Message} (h : MessageStays ⟨grown, old⟩ f g m n)
    (h' : MessageStays ⟨new, old⟩ f k m o) :
    ∀ a ∈ o.fields, ∃ b ∈ n.fields, b.number = a.number ∧ b.type = a.type :=
  hadded.fields hdistinct h'.current h.current (h.path.trans h'.path.symm) h'.new h.new
    (h.name.trans h'.name.symm)

/-- What breaks after something was added broke before, or is restored. -/
theorem breaks_of_added {b : Break} (h : Breaks ⟨grown, old⟩ b) :
    Breaks ⟨new, old⟩ b ∨ Restored old new grown b := by
  cases b with
  | file path =>
    obtain ⟨f, hf, rfl, hgone⟩ := breaks_file.1 h
    refine .inl (breaks_file.2 ⟨f, hf, rfl, fun k hk hpath => ?_⟩)
    obtain ⟨g, hg, hpath', _⟩ := hadded k hk
    exact hgone g hg (hpath'.trans hpath)
  | message path fullName =>
    obtain ⟨f, g, m, hfile, rfl, hm, rfl, hgone⟩ := breaks_message.1 h
    rcases hfile.before new with ⟨k, hk⟩ | hrestored
    · refine .inl (breaks_message.2 ⟨f, k, m, hk, rfl, hm, rfl, fun o ho hname => ?_⟩)
      obtain ⟨n, hn, hname', _⟩ := hadded.messages hdistinct hk.current hfile.current
        (hfile.path.trans hk.path.symm) ho
      exact hgone n hn (hname'.trans hname)
    · exact .inr (hrestored _ (.file_message _ _))
  | field path fullName number =>
    obtain ⟨f, g, m, n, hmessage, rfl, rfl, a, ha, rfl, hgone⟩ := breaks_field.1 h
    rcases MessageStays.before new hdistinct hmessage with ⟨k, o, ho⟩ | hrestored
    · refine .inl (breaks_field.2 ⟨f, k, m, o, ho, rfl, rfl, a, ha, rfl, fun d hd hnumber => ?_⟩)
      obtain ⟨b, hb, hnumber', _⟩ := MessageStays.fields hdistinct hadded hmessage ho d hd
      exact hgone b hb (hnumber'.trans hnumber)
    · exact .inr (hrestored _ (.file_field _ _ _) (.message_field _ _ _))
  | type path fullName number =>
    obtain ⟨f, g, m, n, hmessage, rfl, rfl, a, ha, rfl, b, hb, hnumber, htype⟩ :=
      breaks_type.1 h
    rcases MessageStays.before new hdistinct hmessage with ⟨k, o, ho⟩ | hrestored
    · by_cases hfield : ∃ d ∈ o.fields, d.number = a.number
      · obtain ⟨d, hd, hdnumber⟩ := hfield
        refine .inl (breaks_type.2 ⟨f, k, m, o, ho, rfl, rfl, a, ha, rfl, d, hd, hdnumber, ?_⟩)
        obtain ⟨b', hb', hnumber', htype'⟩ :=
          MessageStays.fields hdistinct hadded hmessage ho d hd
        cases eq_of_number hdistinct hmessage.current hmessage.new hb' hb
          (hnumber'.trans (hdnumber.trans hnumber.symm))
        exact htype' ▸ htype
      · push Not at hfield
        refine .inr ⟨_, .field_type _ _ _, ?_, hnumber ▸
          MessageStays.not_breaks_field hdistinct hmessage hb⟩
        exact breaks_field.2 ⟨f, k, m, o, ho, rfl, rfl, a, ha, rfl, hfield⟩
    · exact .inr (hrestored _ (.file_type _ _ _) (.message_type _ _ _))

end Added

/-! ### The default settings -/

/-- The default settings select all rules that come with the program. -/
theorem selected_default {version : Settings.Version} {r : BreakingRule} :
    Selected Engine.standard.breaking (BreakingSettings.default version).checks r ↔
      r ∈ breakingRules := by
  refine ⟨Selected.mem, fun hr => ⟨hr, fun h => absurd h Bool.false_ne_true, ?_, ?_⟩⟩
  · have hid : ¬ ∃ r ∈ breakingRules, r.id = "FILE" := by
      simp [breakingRules, fileNoDelete, messageNoDelete, fieldNoDelete, fieldSameType]
    have hcategory : ∀ r ∈ breakingRules, "FILE" ∈ r.categories := by
      simp [breakingRules, fileNoDelete, messageNoDelete, fieldNoDelete, fieldSameType,
        breakingCategories]
    exact ⟨"FILE", List.mem_singleton_self _, .inr ⟨hid, r, hr, hcategory r hr, rfl⟩⟩
  · rintro ⟨_, hentry, _⟩
    cases hentry

theorem not_heldBack_default {version : Settings.Version} {r : BreakingRule} {path : String} :
    ¬ HeldBack (BreakingSettings.default version).checks r path := by
  rintro (⟨_, hdir, _⟩ | ⟨_, _, hfind, _⟩)
  · cases hdir
  · cases hfind

/-- Under the default settings the breaks are reported, and nothing else. -/
theorem compareImages_default (version : Settings.Version) {c : Change}
    (hcurrent : c.current.Distinct) (hprevious : c.previous.Distinct) :
    ∃ l, Engine.standard.compareImages true c (.default version) = .ok l ∧
      ∀ n, n ∈ l ↔ ∃ b, Shows c b n := by
  have hknows : ∀ entry, Mentions (BreakingSettings.default version).checks entry →
      Knows Engine.standard.breaking entry := by
    rintro entry (h | h | h)
    · cases List.mem_singleton.1 h
      exact .inr (by decide)
    · cases h
    · cases h
  obtain ⟨l, hl, _, hmem⟩ :=
    (reports_compareImages Engine.standard true c (.default version)).given hknows (.inl rfl)
  refine ⟨l, hl, fun n => (hmem n).trans (Iff.trans ?_ (told_iff hcurrent hprevious))⟩
  have hstable : (BreakingSettings.default version).ignoreUnstable = false := rfl
  simp only [BreakingReport, selected_default, not_heldBack_default, not_false_eq_true, hstable,
    Bool.false_eq_true, false_and, true_and]

/-- Whether comparing two images under the default settings reports nothing. -/
def Silent (version : Settings.Version) (new old : Image) : Prop :=
  Engine.standard.compareImages true ⟨new, old⟩ (.default version) = .ok []

theorem silent_iff {version : Settings.Version} {new old : Image} (hnew : new.Distinct)
    (hold : old.Distinct) : Silent version new old ↔ Keeps old.targets new := by
  obtain ⟨l, hl, hmem⟩ := compareImages_default version (c := ⟨new, old⟩) hnew hold
  have hkeeps := keeps_iff (c := ⟨new, old⟩) hnew
  rw [Silent, hl, hkeeps]
  constructor
  · rintro hnil b ⟨n, hshows⟩
    cases hnil
    exact List.not_mem_nil ((hmem n).2 ⟨b, hshows⟩)
  · intro hnone
    congr 1
    rw [List.eq_nil_iff_forall_not_mem]
    rintro n hn
    obtain ⟨b, hshows⟩ := (hmem n).1 hn
    exact hnone b ⟨n, hshows⟩

theorem targets_eq_files {image : Image} (h : ∀ f ∈ image.files, f.isImport = false) :
    image.targets = image.files :=
  List.filter_eq_self.2 fun f hf => by rw [h f hf]; rfl

/-- Whether an image has been built from the target schema files of a view. -/
def Built (image : Image) : Prop :=
  ∃ w v keepPlaces, Image.build w v keepPlaces = .ok (.built image)

theorem Built.distinct {image : Image} (h : Built image) : image.Distinct := by
  obtain ⟨_, _, _, hbuild⟩ := h
  exact Image.distinct_of_build hbuild

/-- Comparing images that were built reports the breaks between them, and so nothing exactly when
the previous target files are kept. An image is silent against itself. What keeps all of an image
and adds to it stays silent where that was, and all that it breaks anew is restored in it; and
silence is transitive when nothing in the middle is an import only. -/
theorem silent_of_built (version : Settings.Version) {old new : Image} (hold : Built old)
    (hnew : Built new) :
    (∃ l, Engine.standard.compareImages true ⟨new, old⟩ (.default version) = .ok l ∧
      ∀ n, n ∈ l ↔ ∃ b, Shows ⟨new, old⟩ b n) ∧
    (Silent version new old ↔ Keeps old.targets new) ∧
    Silent version old old ∧
    (∀ grown, Built grown → Keeps new.files grown →
      (Silent version new old → Silent version grown old) ∧
      ∀ b, Breaks ⟨grown, old⟩ b → Breaks ⟨new, old⟩ b ∨ Restored old new grown b) ∧
    ∀ oldest, Built oldest → (∀ f ∈ old.files, f.isImport = false) →
      Silent version old oldest → Silent version new old → Silent version new oldest := by
  have hsilent {new old : Image} (hnew : Built new) (hold : Built old) :
      Silent version new old ↔ Keeps old.targets new := silent_iff hnew.distinct hold.distinct
  have htargets (image : Image) : image.targets ⊆ image.files := fun _ h => List.mem_of_mem_filter h
  refine ⟨compareImages_default version hnew.distinct hold.distinct, hsilent hnew hold,
    (hsilent hold hold).2 (keeps_self (htargets old)), fun grown hgrown hadded => ⟨fun h => ?_,
    fun b hb => breaks_of_added hgrown.distinct hadded hb⟩, fun oldest holdest hall h h' => ?_⟩
  · exact (hsilent hgrown hold).2 (((hsilent hnew hold).1 h).trans hadded)
  · have hkept := (hsilent hnew hold).1 h'
    rw [targets_eq_files hall] at hkept
    exact (hsilent hnew holdest).2 (((hsilent hold holdest).1 h).trans hkept)

/-! ### Images of a few files -/

open ModuleSet (ofModules workspaceModule)

/-- The image of a local module with some files, if they compile. -/
def imageOf (files : List (String × String)) : Option Image :=
  match Image.build World.empty (ofModules [workspaceModule "m" files]).schemaView false with
  | .ok (.built image) => some image
  | _ => none

theorem built_of_imageOf {files : List (String × String)} {image : Image}
    (h : imageOf files = some image) : Built image := by
  unfold imageOf at h
  split at h
  · rename_i hbuild
    cases h
    exact ⟨_, _, _, hbuild⟩
  · cases h

/-- The rules that report something about two images under the default settings. -/
def reporting (new old : Image) : Option (List String) :=
  (Engine.standard.compareImages true ⟨new, old⟩ (.default .v2)).toOption.map fun l =>
    l.map Notice.type

theorem silent_of_reporting {new old : Image} (h : reporting new old = some []) :
    Silent .v2 new old := by
  obtain ⟨l, hl, hnil⟩ := Option.map_eq_some_iff.1 h
  rw [Silent, toOption_eq_some.1 hl, List.map_eq_nil_iff.1 hnil]

theorem exists_imageOf {files : List (List (String × String))} {P : List Image → Bool}
    (h : ((files.mapM imageOf).any P) = true) :
    ∃ images, files.mapM imageOf = some images ∧ (∀ image ∈ images, Built image) ∧
      P images = true := by
  obtain ⟨images, himages, hP⟩ := (Option.any_eq_true _ _).1 h
  refine ⟨images, himages, fun image hmem => ?_, hP⟩
  obtain ⟨_, _, himage⟩ := exists_of_mapM himages hmem
  exact built_of_imageOf himage

/-- A module in four stages, each of which adds to the one before. -/
def stages : List (List (String × String)) := [
  [("a.schema", "message A \x7b int32 n = 1; \x7d")],
  [("a.schema", "message A \x7b int32 n = 1; B b = 2; \x7d message B \x7b\x7d")],
  [("a.schema", "message A \x7b int32 n = 1; B b = 2; \x7d message B \x7b\x7d"),
    ("b.schema", "message C \x7b\x7d")],
  [("a.schema", "message A \x7b int32 n = 1; B b = 2; \x7d message B \x7b A a = 1; \x7d"),
    ("b.schema", "import \"a.schema\"; message C \x7b A a = 1; message D \x7b\x7d \x7d")]]

/-- Whether each stage is silent about the one before, and the second and third have no imports. -/
def stagesSilent : List Image → Bool
  | [oldest, old, new, grown] => reporting old oldest = some [] ∧ reporting new old = some [] ∧
    reporting grown new = some [] ∧ ∀ f ∈ old.files ++ new.files, f.isImport = false
  | _ => false

theorem silent_stages :
    ∃ oldest old new grown, stages.mapM imageOf = some [oldest, old, new, grown] ∧
      Built oldest ∧ Built old ∧ Built new ∧ Built grown ∧
      (∀ f ∈ old.files, f.isImport = false) ∧ Keeps new.files grown ∧
      Silent .v2 old oldest ∧ Silent .v2 new old ∧ Silent .v2 new oldest ∧
      Silent .v2 grown old := by
  have hstages : (stages.mapM imageOf).any stagesSilent = true := by
    decide +kernel
  obtain ⟨images, himages, hbuilt, hchecks⟩ := exists_imageOf hstages
  unfold stagesSilent at hchecks
  split at hchecks
  · rename_i oldest old new grown
    obtain ⟨hold, hnew, hgrown, hall⟩ := of_decide_eq_true hchecks
    simp only [List.forall_mem_cons] at hbuilt
    obtain ⟨boldest, bold, bnew, bgrown, _⟩ := hbuilt
    obtain ⟨hall, hall'⟩ := List.forall_mem_append.1 hall
    have hkeeps : Keeps new.files grown := by
      have h := (silent_iff bgrown.distinct bnew.distinct).1 (silent_of_reporting hgrown)
      rwa [targets_eq_files hall'] at h
    have hsilent := silent_of_reporting hold
    have hsilent' := silent_of_reporting hnew
    obtain ⟨_, _, _, hadded, htrans⟩ := silent_of_built .v2 bold bnew
    have hsilent'' := htrans oldest boldest hall hsilent hsilent'
    exact ⟨oldest, old, new, grown, himages, boldest, bold, bnew, bgrown, hall, hkeeps, hsilent,
      hsilent', hsilent'', (hadded grown bgrown hkeeps).1 hsilent'⟩
  · cases hchecks

/-- A message that is added may catch a reference; and one that is added again may lack what it
had. -/
def additions : List (List (String × String)) := [
  [("a.schema", "message T \x7b\x7d message A \x7b T t = 1; \x7d")],
  [("a.schema", "message T \x7b\x7d message A \x7b T t = 1; message T \x7b\x7d \x7d")],
  [("a.schema", "message T \x7b\x7d")],
  [("a.schema", "message T \x7b\x7d message A \x7b\x7d")]]

/-- Whether the additions are reported by these rules, and the module that lacks a message has no
imports. -/
def additionsReported : List Image → Bool
  | [old, caught, cut, again] => reporting old old = some [] ∧
    reporting caught old = some ["FIELD_SAME_TYPE"] ∧
    reporting cut old = some ["MESSAGE_NO_DELETE"] ∧
    reporting again old = some ["FIELD_NO_DELETE"] ∧
    reporting again cut = some [] ∧ ∀ f ∈ cut.files, f.isImport = false
  | _ => false

theorem reporting_additions :
    ∃ old caught cut again, additions.mapM imageOf = some [old, caught, cut, again] ∧
      Built old ∧ Built caught ∧ Built cut ∧ Built again ∧
      reporting old old = some [] ∧ reporting caught old = some ["FIELD_SAME_TYPE"] ∧
      Keeps cut.files again ∧ reporting cut old = some ["MESSAGE_NO_DELETE"] ∧
      reporting again old = some ["FIELD_NO_DELETE"] := by
  have hadditions : (additions.mapM imageOf).any additionsReported = true := by
    decide +kernel
  obtain ⟨images, himages, hbuilt, hchecks⟩ := exists_imageOf hadditions
  unfold additionsReported at hchecks
  split at hchecks
  · rename_i old caught cut again
    obtain ⟨hself, hcaught, hcut, hagain, hkept, hall⟩ := of_decide_eq_true hchecks
    simp only [List.forall_mem_cons] at hbuilt
    obtain ⟨bold, bcaught, bcut, bagain, _⟩ := hbuilt
    have hkeeps : Keeps cut.files again := by
      have h := (silent_iff bagain.distinct bcut.distinct).1 (silent_of_reporting hkept)
      rwa [targets_eq_files hall] at h
    exact ⟨old, caught, cut, again, himages, bold, bcaught, bcut, bagain, hself, hcaught, hkeeps,
      hcut, hagain⟩
  · cases hchecks

end Schemata.Check

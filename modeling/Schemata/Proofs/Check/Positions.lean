import Schemata.Proofs.Check.Breaking
import Schemata.Proofs.Image.Locations

/-!
# Where findings point

In an image that is built with the places of its declarations, what the built-in rules find about a
message or a field points at its declaration in the text of the file. One kind of declaration is
out of reach: a message inside another that has a field of its name. What is found about it points
at that field.
-/

namespace Schemata.Check

open Descriptor (Field Message)
open Image (Inside HasText Sources SourceFile Faithful Sound Symbols linkFile locationIn messagesOf)
open ModuleSet (ofModules workspaceModule)
open Source (Document Span)

/-! ### What findings are about -/

/-- A declaration that a finding may be about: a message, or a field of one. -/
inductive Declaration
  | message (m : Message)
  | field (m : Message) (a : Field)

def Declaration.symbol : Declaration → String
  | .message m => m.fullName
  | .field m a => m.fullName ++ "." ++ a.name

/-- Whether a declaration is in a file. -/
inductive Declaration.In (f : ImageFile) : Declaration → Prop
  | message {m : Message} (hm : Inside f.descriptor.messages m) : In f (.message m)
  | field {m : Message} {a : Field} (hm : Inside f.descriptor.messages m) (ha : a ∈ m.fields) :
    In f (.field m a)

/-- What the lint rules find about the declarations of a file. -/
inductive LintSays (f : ImageFile) : LintRule → Declaration → String → Prop
  | message {m : Message} (hm : Inside f.descriptor.messages m)
    (hname : isPascalCase m.name = false) :
    LintSays f messagePascalCase (.message m)
      s!"Message name \"{m.name}\" should be PascalCase, such as \"{toPascalCase m.name}\"."
  | field {m : Message} {a : Field} (hm : Inside f.descriptor.messages m) (ha : a ∈ m.fields)
    (hname : isLowerSnakeCase a.name = false) :
    LintSays f fieldLowerSnakeCase (.field m a)
      s!"Field name \"{a.name}\" should be lower_snake_case, such as \"{toLowerSnakeCase a.name}\"."

/-- What the breaking-change rules find about the declarations of a current file. -/
inductive BreakingSays (c : Change) : BreakingRule → ImageFile → Declaration → String → Prop
  | message {f g : ImageFile} {m n : Message} {a : Field} (hmessage : MessageStays c f g m n)
    (ha : a ∈ m.fields) (hgone : ∀ b ∈ n.fields, b.number ≠ a.number) :
    BreakingSays c fieldNoDelete g (.message n)
      s!"Previously present field \"{a.number}\" with name \"{a.name}\" on message \"{n.name}\" was deleted."
  | field {f g : ImageFile} {m n : Message} {a b : Field} (hmessage : MessageStays c f g m n)
    (ha : a ∈ m.fields) (hb : b ∈ n.fields) (hnumber : b.number = a.number)
    (htype : b.type ≠ a.type) :
    BreakingSays c fieldSameType g (.field n b)
      s!"Field \"{b.number}\" with name \"{b.name}\" on message \"{n.name}\" changed type from \"{a.type.text}\" to \"{b.type.text}\"."

theorem LintSays.mem {f : ImageFile} {r : LintRule} {x : Declaration} {message : String}
    (h : LintSays f r x message) : x.In f := by
  cases h with
  | message hm _ => exact .message hm
  | field hm ha _ => exact .field hm ha

theorem BreakingSays.mem {c : Change} {f : ImageFile} {r : BreakingRule} {x : Declaration}
    {message : String} (h : BreakingSays c r f x message) : x.In f := by
  cases h with
  | message hmessage _ _ => exact .message hmessage.new
  | field hmessage _ hb _ _ => exact .field hmessage.new hb

/-- A finding of a built-in lint rule is about its file or about a declaration of it. -/
theorem about_lint {f : ImageFile} {image : Image} {r : LintRule} (hr : r ∈ lintRules) {d : Finding}
    (hd : d ∈ r.check (f, image)) :
    ((r = importUsed ∨ r = syntaxSpecified ∨ r = packageDefined) ∧ d = .ofFile f d.message) ∨
      ∃ x, LintSays f r x d.message ∧ d = .ofSymbol f x.symbol d.message := by
  simp only [lintRules, List.mem_cons, List.not_mem_nil, or_false] at hr
  rcases hr with rfl | rfl | rfl | rfl | rfl
  · obtain ⟨_, _, rfl⟩ := List.mem_map.1 hd
    exact .inl ⟨.inl rfl, rfl⟩
  · refine .inl ⟨.inr (.inl rfl), ?_⟩
    simp only [syntaxSpecified] at hd
    split at hd
    · rw [List.mem_singleton.1 hd]
      rfl
    · cases hd
  · refine .inl ⟨.inr (.inr rfl), ?_⟩
    simp only [packageDefined] at hd
    split at hd
    · rw [List.mem_singleton.1 hd]
      rfl
    · cases hd
  · obtain ⟨m, hm, rfl⟩ := List.mem_map.1 hd
    obtain ⟨hm, hname⟩ := List.mem_filter.1 hm
    rw [Bool.not_eq_true'] at hname
    exact .inr ⟨.message m, .message (Image.mem_allMessages.1 hm) hname, rfl⟩
  · obtain ⟨m, hm, hd⟩ := List.mem_flatMap.1 hd
    obtain ⟨a, ha, rfl⟩ := List.mem_map.1 hd
    obtain ⟨ha, hname⟩ := List.mem_filter.1 ha
    rw [Bool.not_eq_true'] at hname
    exact .inr ⟨.field m a, .field (Image.mem_allMessages.1 hm) ha hname, rfl⟩

/-- A finding of a built-in breaking-change rule is about a file or about a declaration that is
still there. -/
theorem about_breaking {c : Change} (hcurrent : c.current.Distinct) {r : BreakingRule}
    (hr : r ∈ breakingRules) {d : Finding} (hd : d ∈ r.check c) :
    ((r = fileNoDelete ∨ r = messageNoDelete) ∧ ∃ f, d = .ofFile f d.message) ∨
      ∃ f ∈ c.current.files, ∃ x, BreakingSays c r f x d.message ∧
        d = .ofSymbol f x.symbol d.message := by
  simp only [breakingRules, List.mem_cons, List.not_mem_nil, or_false] at hr
  rcases hr with rfl | rfl | rfl | rfl
  · obtain ⟨f, _, rfl⟩ := List.mem_map.1 hd
    exact .inl ⟨.inl rfl, f, rfl⟩
  · obtain ⟨⟨_, g⟩, _, hd⟩ := List.mem_flatMap.1 hd
    obtain ⟨_, _, rfl⟩ := List.mem_map.1 hd
    exact .inl ⟨.inr rfl, g, rfl⟩
  · obtain ⟨⟨g, m, n⟩, hmessage, hd⟩ := List.mem_flatMap.1 hd
    obtain ⟨f, hmessage⟩ := (mem_survivingMessages hcurrent).1 hmessage
    obtain ⟨a, ha, rfl⟩ := List.mem_map.1 hd
    obtain ⟨ha, hgone⟩ := List.mem_filter.1 ha
    exact .inr ⟨g, hmessage.current, .message n, .message hmessage ha (field?_eq_none.1 hgone), rfl⟩
  · obtain ⟨⟨g, m, n⟩, hmessage, hd⟩ := List.mem_flatMap.1 hd
    obtain ⟨f, hmessage⟩ := (mem_survivingMessages hcurrent).1 hmessage
    obtain ⟨b, hb, hchange⟩ := List.mem_filterMap.1 hd
    obtain ⟨a, ha, hguard⟩ := Option.bind_eq_some_iff.1 hchange
    have hnumber := List.find?_some ha
    by_cases htype : a.type = b.type
    · rw [guard, if_neg (not_not_intro htype)] at hguard
      cases hguard
    · rw [guard, if_pos htype] at hguard
      cases hguard
      refine .inr ⟨g, hmessage.current, .field n b, ?_, rfl⟩
      exact .field hmessage (List.mem_of_find?_eq_some ha) hb (of_decide_eq_true hnumber).symm
        (Ne.symm htype)

/-! ### Where declarations stand -/

/-- Whether a file of an image was read from a text, without a complaint. -/
structure ReadFrom (w : World) (v : Module.View) (f : ImageFile) (text : String)
    (file : Schema.File) : Prop where
  hasText : HasText w v f.path text
  parsed : ∃ n, Schema.parse n text = ⟨file, []⟩

/-- The span of a declaration in a file that was read. -/
inductive SpanOf (file : Schema.File) : Declaration → Span → Prop
  | message {m : Message} {decl : Schema.MessageDecl} (h : (m.fullName, decl) ∈ messagesOf file)
    (hname : decl.name = m.name) : SpanOf file (.message m) decl.span
  | field {m : Message} {decl : Schema.MessageDecl} {a : Field} {b : Schema.Field}
    (h : (m.fullName, decl) ∈ messagesOf file) (hb : b ∈ decl.fields) (hname : b.name = a.name)
    (hnumber : b.number = a.number) : SpanOf file (.field m a) b.span

/-- Whether a field has the full name of a message. -/
inductive Hides (file : Schema.File) (b : Schema.Field) : Declaration → Prop
  | hides {p : String × Schema.MessageDecl} {m : Message} (hp : p ∈ messagesOf file)
    (hb : b ∈ p.2.fields) (hname : p.1 ++ "." ++ b.name = m.fullName) : Hides file b (.message m)

/-- Whether a finding is at a span of a text, as the place of a declaration. -/
def PointsAt (text : String) (x : Declaration) (d : Finding) (span : Span) : Prop :=
  d.location = some (locationIn (Document.ofText d.path d.external text) (x.symbol, span))

/-- Whether a finding about a declaration in a file points at that declaration, or at a field that
hides it. -/
def Placed (w : World) (v : Module.View) (f : ImageFile) (x : Declaration) (d : Finding) : Prop :=
  ∃ text file, ReadFrom w v f text file ∧ (∃ span, SpanOf file x span) ∧
    ((∀ b, ¬ Hides file b x) → ∀ span, SpanOf file x span → PointsAt text x d span) ∧
    ∀ b, Hides file b x → PointsAt text x d b.span

section Linked

variable {w : World} {v : Module.View} {s : Sources} {n : Nat} {sf : SourceFile} {f : ImageFile}
  (hlink : f.descriptor =
    (linkFile s (Symbols.ofSources s).table s.passedOn true n sf).descriptor)
include hlink

/-- Linking keeps the declarations of a file. -/
theorem exists_spanOf {x : Declaration} (hx : x.In f) : ∃ span, SpanOf sf.file x span := by
  have hdeclared {m : Message} (hm : Inside f.descriptor.messages m) :
      ∃ p ∈ messagesOf sf.file, Image.declaredOutline p = Image.outline m := by
    refine List.mem_map.1 ?_
    rw [← Image.outlines_linkFile s (Symbols.ofSources s).table s.passedOn true n sf, ← hlink]
    exact List.mem_map_of_mem ((Image.mem_allNested _ _).2 hm)
  cases hx with
  | message hm =>
    obtain ⟨⟨fullName, decl⟩, hdecl, heq⟩ := hdeclared hm
    obtain ⟨rfl, hrest⟩ := Prod.mk.inj heq
    exact ⟨_, .message hdecl (Prod.mk.inj hrest).1⟩
  | @field m a hm ha =>
    obtain ⟨⟨fullName, decl⟩, hdecl, heq⟩ := hdeclared hm
    obtain ⟨rfl, hrest⟩ := Prod.mk.inj heq
    have hfield : (a.name, a.number) ∈ decl.fields.map fun b => (b.name, b.number) := by
      rw [(Prod.mk.inj hrest).2]
      exact List.mem_map_of_mem ha
    obtain ⟨b, hb, hsame⟩ := List.mem_map.1 hfield
    exact ⟨_, .field hdecl hb (Prod.mk.inj hsame).1 (Prod.mk.inj hsame).2⟩

theorem pointsAt_of_find? (hexternal : f.external = sf.external) {x : Declaration} {span : Span}
    (h : (Image.spansOf sf.file).find? (fun e => e.1 = x.symbol) = some (x.symbol, span))
    (message : String) : PointsAt sf.text x (.ofSymbol f x.symbol message) span := by
  have hpath : f.path = sf.path := congrArg Descriptor.File.path hlink
  show f.descriptor.location? x.symbol = some (locationIn (Document.ofText f.path f.external _) _)
  rw [hlink, Image.location?_linkFile, h, hpath, hexternal]
  rfl

theorem placed_of_linked (hs : Faithful w v s) (hsound : Sound s) (hsf : s.files[n]? = some sf)
    (hexternal : f.external = sf.external) {x : Declaration} (hx : x.In f) (message : String) :
    Placed w v f x (.ofSymbol f x.symbol message) := by
  obtain ⟨hnodup, hapart⟩ := hsound.apart hs hsf
  have hpath : f.path = sf.path := congrArg Descriptor.File.path hlink
  have hread : ReadFrom w v f sf.text sf.file :=
    ⟨hpath ▸ (hs.file n sf hsf).1, n, hsound.parse hs hsf⟩
  refine ⟨sf.text, sf.file, hread, exists_spanOf hlink hx, ?_, ?_⟩
  · intro hfree span hspan
    refine pointsAt_of_find? hlink hexternal ?_ message
    cases hspan with
    | message hdecl _ =>
      exact Image.find?_message hnodup hdecl fun p hp b hb hname => hfree b (.hides hp hb hname)
    | field hdecl hb hname _ =>
      rw [Declaration.symbol, ← hname]
      exact Image.find?_spansIn _ _ hapart _ hdecl _ hb
  · rintro b ⟨hp, hb, hname⟩
    refine pointsAt_of_find? hlink hexternal ?_ message
    rw [Declaration.symbol, ← hname]
    exact Image.find?_spansIn _ _ hapart _ hp _ hb

end Linked

/-- In an image that is built with the places of its declarations, each finding of a built-in rule
about a message or a field of a file points at the declaration of that in the text of the file. Only
a message that has the full name of a field is hidden by it: what is found about the message points
at the field. All other findings are about files. -/
theorem findings_placed {w : World} {v : Module.View} {image : Image}
    (h : Image.build w v true = .ok (.built image)) :
    (∀ f ∈ image.files, ∀ r ∈ lintRules, ∀ d ∈ r.check (f, image),
      ((r = importUsed ∨ r = syntaxSpecified ∨ r = packageDefined) ∧ d = .ofFile f d.message) ∨
        ∃ x, LintSays f r x d.message ∧ d.path = f.path ∧ Placed w v f x d) ∧
    ∀ old, ∀ r ∈ breakingRules, ∀ d ∈ r.check ⟨image, old⟩,
      ((r = fileNoDelete ∨ r = messageNoDelete) ∧ ∃ f, d = .ofFile f d.message) ∨
        ∃ f ∈ image.files, ∃ x, BreakingSays ⟨image, old⟩ r f x d.message ∧ d.path = f.path ∧
          Placed w v f x d := by
  obtain ⟨s, hs, hsound, _, hlinked⟩ := Image.linked_of_build h
  have hplaced {f : ImageFile} (hf : f ∈ image.files) {x : Declaration} (hx : x.In f) {d : Finding}
      (hd : d = .ofSymbol f x.symbol d.message) : d.path = f.path ∧ Placed w v f x d := by
    obtain ⟨n, sf, hsf, hexternal, hlink⟩ := hlinked f hf
    rw [hd]
    exact ⟨rfl, placed_of_linked hlink hs hsound hsf hexternal hx d.message⟩
  constructor
  · intro f hf r hr d hd
    refine (about_lint hr hd).imp_right ?_
    rintro ⟨x, hsays, hfinding⟩
    exact ⟨x, hsays, hplaced hf hsays.mem hfinding⟩
  · intro old r hr d hd
    refine (about_breaking (Image.distinct_of_build h) hr hd).imp_right ?_
    rintro ⟨f, hf, x, hsays, hfinding⟩
    exact ⟨f, hf, x, hsays, hplaced hf hsays.mem hfinding⟩

/-! ### A field that hides a message -/

/-- A message with a field and a message of one name, and names that the lint rules find. -/
def hidingText : String :=
  "message A \x7b\n  int32 t = 1;\n  message t \x7b\n    int32 Bad = 1;\n  \x7d\n\x7d\n" ++
    "message b \x7b\x7d\n"

def hidingView : Module.View :=
  (ofModules [workspaceModule "m" [("a.schema", hidingText)]]).schemaView

/-- The image of a build that succeeds. -/
def builtImage? : Except Image.Error Image.Outcome → Option Image
  | .ok (.built image) => some image
  | _ => none

theorem exists_built {outcome : Except Image.Error Image.Outcome} {P : Image → Bool}
    (h : (builtImage? outcome).any P = true) :
    ∃ image, outcome = .ok (.built image) ∧ P image = true := by
  obtain ⟨image, himage, hP⟩ := (Option.any_eq_true _ _).1 h
  unfold builtImage? at himage
  split at himage
  · cases himage
    exact ⟨image, rfl, hP⟩
  · cases himage

/-- Where the lint rules for names find something in an image. -/
def nameFindings (image : Image) : List (Option Descriptor.Location) :=
  image.files.flatMap fun f =>
    (messagePascalCase.check (f, image) ++ fieldLowerSnakeCase.check (f, image)).map
      Finding.location

theorem findings_placed_hidingView :
    ∃ image, Image.build World.empty hidingView true = .ok (.built image) ∧
      nameFindings image = [some ⟨"A.t", ⟨2, 3⟩, ⟨2, 14⟩⟩, some ⟨"b", ⟨7, 1⟩, ⟨7, 12⟩⟩,
        some ⟨"A.t.Bad", ⟨4, 5⟩, ⟨4, 18⟩⟩] ∧
      ∀ f ∈ image.files, ∀ r ∈ lintRules, ∀ d ∈ r.check (f, image),
        d = .ofFile f d.message ∨ ∃ x, Placed World.empty hidingView f x d := by
  have hfound : (builtImage? (Image.build World.empty hidingView true)).any (fun image =>
      decide (nameFindings image = [some ⟨"A.t", ⟨2, 3⟩, ⟨2, 14⟩⟩, some ⟨"b", ⟨7, 1⟩, ⟨7, 12⟩⟩,
        some ⟨"A.t.Bad", ⟨4, 5⟩, ⟨4, 18⟩⟩])) = true := by
    decide +kernel
  obtain ⟨image, hbuild, hnames⟩ := exists_built hfound
  refine ⟨image, hbuild, of_decide_eq_true hnames, fun f hf r hr d hd => ?_⟩
  rcases (findings_placed hbuild).1 f hf r hr d hd with ⟨_, hfile⟩ | ⟨x, _, _, hplaced⟩
  · exact .inl hfile
  · exact .inr ⟨x, hplaced⟩

/-- Whether the place of the inner message is that of the field. -/
def mistakesMessage (image : Image) : Bool :=
  image.files.any fun f => f.path = "a.schema" && f.descriptor.allMessages.any fun m =>
    m.fullName = "A.t" && m.name = "t" &&
      f.descriptor.location? m.fullName = some ⟨"A.t", ⟨2, 3⟩, ⟨2, 14⟩⟩

/-- What is found about a message that a field hides does not point at the message. -/
theorem not_pointsAt_hidden :
    ∃ image f file m span, Image.build World.empty hidingView true = .ok (.built image) ∧
      f ∈ image.files ∧ ReadFrom World.empty hidingView f hidingText file ∧
      SpanOf file (.message m) span ∧ ∃ d ∈ messagePascalCase.check (f, image),
        LintSays f messagePascalCase (.message m) d.message ∧
        ¬ PointsAt hidingText (.message m) d span := by
  have hmistaken : (builtImage? (Image.build World.empty hidingView true)).any mistakesMessage =
      true := by
    decide +kernel
  have htext : Image.textAt? World.empty hidingView "a.schema" = some hidingText := by
    decide +kernel
  have hread : (Schema.parse 0 hidingText).errors = [] := by decide +kernel
  have hdeclared : (messagesOf (Schema.parse 0 hidingText).file).any (fun p =>
      p.1 = "A.t" && p.2.name = "t" && p.2.span = ⟨0, 29, 63⟩) = true := by
    decide +kernel
  obtain ⟨image, hbuild, hmistakes⟩ := exists_built hmistaken
  obtain ⟨f, hf, hmistakes⟩ := List.any_eq_true.1 hmistakes
  obtain ⟨hpath, hmistakes⟩ := Bool.and_eq_true _ _ ▸ hmistakes
  obtain ⟨m, hm, hmistakes⟩ := List.any_eq_true.1 hmistakes
  obtain ⟨⟨fullName, decl⟩, hdecl, hspan⟩ := List.any_eq_true.1 hdeclared
  simp only [Bool.and_eq_true, decide_eq_true_eq] at hpath hmistakes hspan
  obtain ⟨⟨hfull, hname⟩, hlocation⟩ := hmistakes
  obtain ⟨⟨rfl, hname'⟩, hspan⟩ := hspan
  have hodd : isPascalCase m.name = false := by
    rw [hname]
    decide
  refine ⟨image, f, (Schema.parse 0 hidingText).file, m, decl.span, hbuild, hf, ⟨?_, 0, ?_⟩, ?_, _,
    List.mem_map_of_mem (List.mem_filter.2 ⟨hm, ?_⟩),
    .message (Image.mem_allMessages.1 hm) hodd, ?_⟩
  · rw [hpath]
    exact Image.hasText_iff.2 htext
  · exact congrArg (Schema.Parsed.mk _) hread
  · exact .message (hfull ▸ hdecl) (hname'.trans hname.symm)
  · rw [hodd]
    rfl
  · intro hpoints
    have hplace := Option.some.inj (hlocation.symm.trans hpoints)
    have hline := congrArg (fun l => l.first.line) hplace
    rw [hspan] at hline
    have hthird : (Document.positionAmong (Source.startsOfLines hidingText) 29).line = 3 := by
      decide +kernel
    exact absurd (hline.trans hthird) (by decide)

end Schemata.Check

import Schemata.Proofs.ModuleSet.Serving

/-!
# Conflicting digests

Wherever a key comes from, it is compared with the first key of its name. If one of another commit
has another digest, the build fails with the two digests. Between keys of one commit a different
digest goes unnoticed. So a set that is built has one digest for each name if each commit has one.
-/

namespace Schemata.ModuleSet.Build

open Schemata.Module (Error)

variable {w w₁ w₂ w' : World} {keys : List ModuleKey} {locals : List ModuleName}
  {known rs : List RemoteModule} {e : Error}

/-! ### Comparisons that fail -/

/-- Whether an error tells of two keys of one name which have different digests. -/
def Conflicting (w : World) (keys : List ModuleKey) (e : Error) : Prop :=
  ∃ k ∈ keys, ∃ k' ∈ keys, ∃ x y, k.name = k'.name ∧ k.HasDigest w x ∧ k'.HasDigest w y ∧ x ≠ y ∧
    e = .conflict k'.name x y

theorem Conflicting.of_repeats (hw : w.Repeats keys w') (h : Conflicting w' keys e) :
    Conflicting w keys e := by
  obtain ⟨k, hk, k', hk', x, y, hname, hx, hy, hne, he⟩ := h
  exact ⟨k, hk, k', hk', x, y, hname, (hw.same k hk x).2 hx, (hw.same k' hk' y).2 hy, hne, he⟩

/-- Two keys of one name that answer agree, or are a conflict. -/
theorem run_compareKeys {first second : ModuleKey} (h : w.Resolves keys) (hfirst : first ∈ keys)
    (hsecond : second ∈ keys) (hname : first.name = second.name) :
    (∃ w', (compareKeys first second).Gives w () w' ∧ w.Repeats keys w') ∨
      ∃ e w', Conflicting w keys e ∧ (compareKeys first second).run w = (.error e, w') := by
  by_cases hcommit : first.commit = second.commit
  · exact .inl ⟨w, gives_compareKeys_of_commit hcommit, h.refl⟩
  · rw [compareKeys, if_pos hcommit]
    obtain ⟨x, w₁, hx, hgives, hrepeats⟩ := h.ask hfirst
    obtain ⟨y, w₂, hy, hgives', hrepeats'⟩ := hrepeats.resolves.ask hsecond
    by_cases heq : x = y
    · exact .inl ⟨w₂, Act.gives_bind.2 ⟨x, w₁, hgives, Act.gives_bind.2 ⟨y, w₂, hgives', by
        rw [if_neg (not_not_intro heq)]
        exact Act.gives_pure.2 ⟨rfl, rfl⟩⟩⟩, hrepeats.trans hrepeats'⟩
    · refine .inr ⟨.conflict second.name x y, w₂, ⟨first, hfirst, second, hsecond, x, y, hname, hx,
        (hrepeats.same second hsecond y).2 hy, heq, rfl⟩, ?_⟩
      rw [Act.run_bind hgives, Act.run_bind hgives', if_pos heq]
      rfl

/-- A declaration among keys that answer is added, or conflicts with one of its name. -/
theorem run_declare {r : RemoteModule} (h : w.Resolves keys) (hknown : keysOf known ⊆ keys)
    (hr : r.key ∈ keys) :
    (∃ q w', (declare r known).Gives w q w' ∧ w.Repeats keys w') ∨
      ∃ e w', Conflicting w keys e ∧ (declare r known).run w = (.error e, w') := by
  induction known with
  | nil => exact .inl ⟨_, w, Act.gives_pure.2 ⟨rfl, rfl⟩, h.refl⟩
  | cons first known ih =>
    obtain ⟨hfirst, hrest⟩ := List.cons_subset.1 hknown
    by_cases hname : first.key.name = r.key.name
    · rw [declare_same hname]
      rcases run_compareKeys h hfirst hr hname with
        ⟨w₁, hgives, hrepeats⟩ | ⟨e, w₁, hconflict, hrun⟩
      · exact .inl ⟨_, w₁, Act.gives_bind.2 ⟨(), w₁, hgives, Act.gives_pure.2 ⟨rfl, rfl⟩⟩, hrepeats⟩
      · exact .inr ⟨e, w₁, hconflict, Act.run_bind_error hrun _⟩
    · rw [declare_other hname]
      rcases ih hrest with ⟨q, w₁, hgives, hrepeats⟩ | ⟨e, w₁, hconflict, hrun⟩
      · exact .inl ⟨_, w₁, Act.gives_bind.2 ⟨q, w₁, hgives, Act.gives_pure.2 ⟨rfl, rfl⟩⟩, hrepeats⟩
      · exact .inr ⟨e, w₁, hconflict, Act.run_bind_error hrun _⟩

/-- The keys of declarations for which no local module stands in. -/
def unshadowed (locals : List ModuleName) (rs : List RemoteModule) : List ModuleKey :=
  (keysOf rs).filter fun k => k.name ∉ locals

theorem mem_unshadowed {k : ModuleKey} :
    k ∈ unshadowed locals rs ↔ k ∈ keysOf rs ∧ k.name ∉ locals := by
  simp [unshadowed]

theorem run_declareAll {added : List RemoteModule} (h : w.Resolves keys)
    (hknown : keysOf known ⊆ keys) (hadded : unshadowed locals added ⊆ keys) :
    (∃ rs w', (declareAll locals known added).Gives w rs w' ∧ w.Repeats keys w') ∨
      ∃ e w', Conflicting w keys e ∧ (declareAll locals known added).run w = (.error e, w') := by
  induction added generalizing known w with
  | nil => exact .inl ⟨known, w, Act.gives_pure.2 ⟨rfl, rfl⟩, h.refl⟩
  | cons r added ih =>
    have hrest : unshadowed locals added ⊆ keys := fun k hk => by
      obtain ⟨hmem, hlocal⟩ := mem_unshadowed.1 hk
      exact hadded (mem_unshadowed.2 ⟨List.mem_cons_of_mem _ hmem, hlocal⟩)
    rw [declareAll]
    by_cases hlocal : locals.contains r.key.name = true
    · rw [if_pos hlocal]
      exact ih h hknown hrest
    · rw [if_neg hlocal]
      have hr : r.key ∈ keys := hadded (mem_unshadowed.2
        ⟨List.mem_cons_self, fun hmem => hlocal (List.contains_iff_mem.2 hmem)⟩)
      rcases run_declare h hknown hr with
        ⟨⟨rs, isNew⟩, w₁, hgives, hrepeats⟩ | ⟨e, w₁, hconflict, hrun⟩
      · have hknown₁ : keysOf rs ⊆ keys := fun k hk => by
          rcases (keys_of_gives_declare hgives).2 k hk with hk | rfl
          · exact hknown hk
          · exact hr
        rcases ih hrepeats.resolves hknown₁ hrest with ⟨rs', w', hgives', hrepeats'⟩ |
          ⟨e, w', hconflict, hrun⟩
        · exact .inl ⟨rs', w', Act.gives_bind.2 ⟨_, w₁, hgives, hgives'⟩, hrepeats.trans hrepeats'⟩
        · refine .inr ⟨e, w', hconflict.of_repeats hrepeats, ?_⟩
          rw [Act.run_bind hgives]
          exact hrun
      · exact .inr ⟨e, w₁, hconflict, Act.run_bind_error hrun _⟩

/-- The keys that are compared when declarations are added to others. -/
def compared (locals : List ModuleName) (known added : List RemoteModule) : List ModuleKey :=
  keysOf known ++ unshadowed locals added

/-- Among keys that answer, and of which those of one commit have one digest, two digests of one
name are a conflict. -/
theorem run_declareAll_of_conflict {added : List RemoteModule}
    (hknown : Apart locals (keysOf known))
    (h : w.Resolves (compared locals known added))
    (hcommits : OneDigestPerCommit w (· ∈ compared locals known added))
    (hnames : ¬ OneDigestPerName w (· ∈ compared locals known added)) :
    ∃ e w', Conflicting w (compared locals known added) e ∧
      (declareAll locals known added).run w = (.error e, w') := by
  have hleft : keysOf known ⊆ compared locals known added := List.subset_append_left _ _
  have hright : unshadowed locals added ⊆ compared locals known added :=
    List.subset_append_right _ _
  -- if all were added, each would agree with the first of its name
  refine (run_declareAll h hleft hright).resolve_left ?_
  rintro ⟨rs, w', hgives, hrepeats⟩
  obtain ⟨hapart, hsub, _, hnew⟩ := gives_declareAll hknown hgives
  obtain ⟨_, _, _, hagrees⟩ := agrees_of_gives_declareAll (fun k hk => h.there k (hleft hk))
    (fun r hr hlocal => h.there r.key (hright (mem_unshadowed.2 ⟨List.mem_map_of_mem hr, hlocal⟩)))
    hgives
  have hcompared : ∀ k ∈ keysOf rs, k ∈ compared locals known added := by
    intro k hk
    rcases hnew k hk with hk' | ⟨r, hr, rfl⟩
    · exact hleft hk'
    · exact hright (mem_unshadowed.2 ⟨List.mem_map_of_mem hr, hapart.remote _ hk⟩)
  have hall : ∀ k, k ∈ compared locals known added → Agrees w' (keysOf rs) k := by
    intro k hk
    rcases List.mem_append.1 hk with hk | hk
    · exact agrees_of_mem (hsub hk)
    · obtain ⟨hmem, hlocal⟩ := mem_unshadowed.1 hk
      obtain ⟨r, hr, rfl⟩ := List.mem_map.1 hmem
      exact (hagrees r hr).resolve_left hlocal
  have hcommits' : OneDigestPerCommit w' (· ∈ compared locals known added) := by
    intro k k' hk hk' hname hcommit x x' hx hx'
    exact hcommits k k' hk hk' hname hcommit x x' ((hrepeats.same k hk x).2 hx)
      ((hrepeats.same k' hk' x').2 hx')
  refine hnames fun k k' hk hk' hname x x' hx hx' => ?_
  exact oneDigestPerName hapart.nodup hcompared hall hcommits' k k' hk hk' hname x x'
    ((hrepeats.same k hk x).1 hx) ((hrepeats.same k' hk' x').1 hx')

/-! ### Failures in a round -/

theorem run_declareDeps_of_error {deps : List ModuleKey}
    (h : (declareAll locals known (deps.map (⟨·, false, [], []⟩))).run w = (.error e, w')) :
    (declareDeps locals known deps).run w = (.error e, w') := by
  rw [declareAll_deps] at h
  cases hrun : (declareDeps locals known deps).run w with
  | mk outcome w₁ =>
    cases outcome with
    | error e' =>
      rw [Act.run_bind_error hrun] at h
      cases h
      rfl
    | ok q =>
      rw [Act.run_bind hrun] at h
      cases h

theorem run_receive_append {f f₁ : Fetched} {ds es : List Delivery} {next : List ModuleKey}
    (h : (receive locals f ds).Gives w (f₁, next) w₁)
    (herror : (receive locals f₁ es).run w₁ = (.error e, w')) :
    (receive locals f (ds ++ es)).run w = (.error e, w') := by
  induction ds generalizing f w next with
  | nil =>
    obtain ⟨heq, rfl⟩ := Act.gives_pure.1 h
    cases heq
    exact herror
  | cons d ds ih =>
    rw [receive] at h
    obtain ⟨⟨c, d'⟩, w₂, hcontents, h⟩ := Act.gives_bind.1 h
    obtain ⟨⟨rs, keys⟩, w₃, hdeps, h⟩ := Act.gives_bind.1 h
    obtain ⟨⟨f₂, more⟩, w₄, hrest, h⟩ := Act.gives_bind.1 h
    obtain ⟨heq, rfl⟩ := Act.gives_pure.1 h
    cases heq
    rw [List.cons_append, receive, Act.run_bind hcontents, Act.run_bind hdeps]
    exact Act.run_bind_error (ih hrest) _

/-- Whether a round begins: the provider is asked for keys and delivers as many modules. -/
structure Begins (provider : Provider) (keys : List ModuleKey) (w : World) (ds : List Delivery)
    (w' : World) : Prop where
  pending : keys ≠ []
  live : w.live = true
  delivered : (provider keys).Gives w ds w'
  counted : ds.length = keys.length

theorem Begins.run_fetch {provider : Provider} {ds : List Delivery}
    (h : Begins provider keys w ds w₁) (rounds : Nat) (f : Fetched) :
    (fetch provider locals (rounds + 1) keys f).run w =
      (receive locals { f with asked := f.asked ++ keys } ds >>= fun q =>
        fetch provider locals rounds q.2 q.1).run w₁ := by
  obtain ⟨key, rest, rfl⟩ := List.exists_cons_of_ne_nil h.pending
  rw [fetch_cons, Act.run_bind (Act.gives_checkLive h.live), Act.run_bind h.delivered,
    if_neg (not_not_intro h.counted)]

/-- Whether fetching keys comes, in some round, to add the dependencies of a delivery to what is
declared by then. -/
inductive Discovers (provider : Provider) (locals : List ModuleName) (known : List RemoteModule)
    (deps : List ModuleKey) (w' : World) : Nat → List ModuleKey → Fetched → World → Prop
  | now {rounds keys f w ds d es w₁ deliveries asked next w₂ files d'} :
    Begins provider keys w (ds ++ d :: es) w₁ →
    (receive locals { f with asked := f.asked ++ keys } ds).Gives w₁
      (⟨known, deliveries, asked⟩, next) w₂ →
    d.contents.Gives w₂ (⟨files, deps⟩, d') w' →
    Discovers provider locals known deps w' (rounds + 1) keys f w
  | later {rounds keys f w ds w₁ f₁ next w₂} :
    Begins provider keys w ds w₁ →
    (receive locals { f with asked := f.asked ++ keys } ds).Gives w₁ (f₁, next) w₂ →
    Discovers provider locals known deps w' rounds next f₁ w₂ →
    Discovers provider locals known deps w' (rounds + 1) keys f w

section Rounds

variable {provider : Provider} {rounds : Nat} {deps : List ModuleKey} {f : Fetched}

theorem Discovers.run_fetch (h : Discovers provider locals known deps w₁ rounds keys f w)
    (herror : (declareAll locals known (deps.map (⟨·, false, [], []⟩))).run w₁ = (.error e, w')) :
    (fetch provider locals rounds keys f).run w = (.error e, w') := by
  induction h with
  | now hbegins hreceive hd =>
    rw [hbegins.run_fetch]
    refine Act.run_bind_error (run_receive_append hreceive ?_) _
    rw [receive, Act.run_bind hd]
    exact Act.run_bind_error (run_declareDeps_of_error herror) _
  | later hbegins hreceive _ ih =>
    rw [hbegins.run_fetch, Act.run_bind hreceive]
    exact ih

theorem Discovers.apart (hprovider : provider.Faithful) {remotes : List RemoteModule}
    (hagreed : Agreed locals remotes w f) (hkeys : keys ⊆ keysOf f.declared)
    (h : Discovers provider locals known deps w₁ rounds keys f w) :
    Apart locals (keysOf known) := by
  have hround {keys f w ds v} (hagreed : Agreed locals remotes w f)
      (hkeys : keys ⊆ keysOf f.declared) (hbegins : Begins provider keys w ds v) :
      Agreed locals remotes v { f with asked := f.asked ++ keys } ∧ ∀ d ∈ ds, d.Sound v := by
    obtain ⟨hbefore, hsound⟩ := hprovider hagreed.closed
      (fun k hk => (hagreed.keys k (hkeys hk)).1) hbegins.delivered
    exact ⟨hagreed.after hbefore _, hsound⟩
  induction h with
  | now hbegins hreceive _ =>
    obtain ⟨hafter, hsound⟩ := hround hagreed hkeys hbegins
    have hds := fun d hd => hsound d (List.mem_append_left _ hd)
    exact (agreed_of_gives_receive hafter hds hreceive).2.2.2.apart
  | later hbegins hreceive _ ih =>
    obtain ⟨hafter, hsound⟩ := hround hagreed hkeys hbegins
    obtain ⟨_, hnext, _, hagreed'⟩ := agreed_of_gives_receive hafter hsound hreceive
    exact ih hagreed' hnext

end Rounds

/-! ### Failures of a build -/

/-- Whether a build comes to add declarations to others: those that it is given to none, later the
dependencies of a delivery to what is declared by then. -/
inductive Adds (provider : Provider) (rounds : Nat) (locals : List LocalModule)
    (remotes : List RemoteModule) (w : World) :
    List RemoteModule → List RemoteModule → World → Prop
  | declared : Adds provider rounds locals remotes w [] remotes w
  | discovered {rs w₁ known deps w'} :
    (declareAll (namesOf locals) [] remotes).Gives w rs w₁ →
    Discovers provider (namesOf locals) known deps w' rounds (keysOf rs) ⟨rs, [], []⟩ w₁ →
    Adds provider rounds locals remotes w known (deps.map (⟨·, false, [], []⟩)) w'

section Failures

variable {provider : Provider} {rounds : Nat} {locals : List LocalModule}
  {remotes added : List RemoteModule}

theorem Adds.run_build (h : Adds provider rounds locals remotes w known added w₁)
    (hlive : w.live = true) (hlocals : checkLocals [] [] locals = .ok ())
    (herror : (declareAll (namesOf locals) known added).run w₁ = (.error e, w')) :
    (ModuleSet.build provider rounds locals remotes).run w = (.error e, w') := by
  have hchecked : (Act.ofExcept (checkLocals [] [] locals)).Gives w () w :=
    Act.gives_ofExcept.2 ⟨hlocals, rfl⟩
  have hgather : (gather provider rounds locals remotes).run w = (.error e, w') := by
    rw [gather, Act.run_bind (Act.gives_checkLive hlive), Act.run_bind hchecked]
    cases h with
    | declared => exact Act.run_bind_error herror _
    | discovered hdeclare hdiscovers =>
      exact (Act.run_bind hdeclare _).trans (hdiscovers.run_fetch herror)
  exact Act.run_bind_error hgather _

theorem Adds.apart (hprovider : provider.Faithful) (hclosed : w.Closed)
    (hremotes : ∀ r ∈ remotes, r.key.In w)
    (h : Adds provider rounds locals remotes w known added w₁) :
    Apart (namesOf locals) (keysOf known) := by
  cases h with
  | declared => exact ⟨.nil, fun _ hk => absurd hk List.not_mem_nil⟩
  | discovered hdeclare hdiscovers =>
    obtain ⟨_, hagreed⟩ := agreed_of_gives_declareAll hclosed hremotes hdeclare
    exact hdiscovers.apart hprovider hagreed (List.Subset.refl _)

/-- If each commit has one digest, a set that is built has one digest for each name, and digests of
one name that differ make the build fail with both, wherever the second is added. -/
theorem build_agrees (hprovider : provider.Faithful) (hclosed : w.Closed)
    (hremotes : ∀ r ∈ remotes, r.key.In w) :
    (∀ s w', (ModuleSet.build provider rounds locals remotes).Gives w s w' →
      ∃ f w₁, (gather provider rounds locals remotes).Gives w f w₁ ∧
        (OneDigestPerCommit w' (Met (namesOf locals) remotes f) →
          OneDigestPerName w' (Met (namesOf locals) remotes f))) ∧
    ∀ known added w₁, w.live = true → checkLocals [] [] locals = .ok () →
      Adds provider rounds locals remotes w known added w₁ →
      w₁.Resolves (compared (namesOf locals) known added) →
      OneDigestPerCommit w₁ (· ∈ compared (namesOf locals) known added) →
      ¬ OneDigestPerName w₁ (· ∈ compared (namesOf locals) known added) →
      ∃ e w', Conflicting w₁ (compared (namesOf locals) known added) e ∧
        (ModuleSet.build provider rounds locals remotes).run w = (.error e, w') := by
  constructor
  · intro s w' h
    obtain ⟨f, w₁, hgather, hfinish⟩ := Act.gives_bind.1 h
    obtain ⟨_, hagreed⟩ := agreed_of_gives_gather hprovider hclosed hremotes hgather
    obtain ⟨hbefore, _⟩ := origins_of_gives_finish (fun d hd => (hagreed.sound d hd).2) hfinish
    have hmet : ∀ k, Met (namesOf locals) remotes f k → Agrees w' (keysOf f.declared) k :=
      fun k hk => (hagreed.met k hk).mono hbefore (List.Subset.refl _)
    exact ⟨f, w₁, hgather,
      oneDigestPerName hagreed.apart.nodup (fun k hk => (hagreed.keys k hk).2) hmet⟩
  · intro known added w₁ hlive hlocals hadds hresolves hcommits hnames
    have hapart := hadds.apart hprovider hclosed hremotes
    obtain ⟨e, w', hconflict, hrun⟩ := run_declareAll_of_conflict hapart hresolves hcommits hnames
    exact ⟨e, w', hconflict, hadds.run_build hlive hlocals hrun⟩

end Failures

/-! ### Two keys of one module -/

open Delivery

def otherCommit : CommitId := ⟨"fedcba9876543210fedcba9876543210", by decide⟩

/-- At another commit the key that the shop has, and the one with another digest. -/
def resold : RemoteModule := ⟨{ lonePets with commit := otherCommit }, false, [], []⟩
def rival : RemoteModule := ⟨{ wanted.key with commit := otherCommit }, false, [], []⟩

theorem gives_declareAll_pair {first second r : RemoteModule} {isNew : Bool}
    (h : (declare second [first]).Gives w ([r], isNew) w) :
    (declareAll [] [] [first, second]).Gives w [r] w :=
  Act.gives_bind.2 ⟨([first], true), w, rfl, Act.gives_bind.2 ⟨_, w, h, rfl⟩⟩

theorem gives_declareAll_resold :
    (declareAll [] [] [sold, resold]).Gives w [⟨lonePets, false, [], []⟩] w := by
  have hname : sold.key.name = resold.key.name := rfl
  have hcommit : sold.key.commit ≠ resold.key.commit := by decide
  have hfirst : sold.key.resolveDigest.Gives w petsAlone w := ModuleKey.run_known rfl
  have hsecond : resold.key.resolveDigest.Gives w petsAlone w := ModuleKey.run_known rfl
  have hdeclare : (declare resold [sold]).Gives w ([⟨lonePets, false, [], []⟩], false) w := by
    rw [declare, if_pos hname]
    simp only
    rw [if_pos hcommit]
    refine Act.gives_bind.2 ⟨_, w, hfirst, Act.gives_bind.2 ⟨_, w, hsecond, ?_⟩⟩
    rw [if_neg (not_not_intro rfl)]
    exact Act.gives_pure.2 ⟨rfl, rfl⟩
  exact gives_declareAll_pair hdeclare

theorem gives_declareAll_wanted :
    (declareAll [] [] [sold, wanted]).Gives w [⟨lonePets, false, [], []⟩] w := by
  have hname : sold.key.name = wanted.key.name := ModuleKey.name_withDigest _ _ _
  have hcommit : sold.key.commit = wanted.key.commit := ModuleKey.commit_withDigest _ _ _
  have hdeclare : (declare wanted [sold]).Gives w ([⟨lonePets, false, [], []⟩], false) w := by
    rw [declare, if_pos hname]
    simp only
    rw [if_neg (not_not_intro hcommit)]
    exact Act.gives_pure.2 ⟨rfl, rfl⟩
  exact gives_declareAll_pair hdeclare

/-- Digests of two commits are compared. -/
theorem build_resold :
    (∃ s f, (ModuleSet.build (shop restocked) 1 [] [sold, resold]).Gives World.empty s World.empty ∧
      Met [] [sold, resold] f sold.key ∧ Met [] [sold, resold] f resold.key ∧
      OneDigestPerName World.empty (Met [] [sold, resold] f)) ∧
    ∃ e w', Conflicting World.empty [sold.key, rival.key] e ∧
      (ModuleSet.build (shop restocked) 1 [] [sold, rival]).run World.empty = (.error e, w') := by
  have hclosed : World.empty.Closed := fun _ hc => absurd hc List.not_mem_nil
  constructor
  · obtain ⟨m, hgather, hbuild, _⟩ :=
      build_shop rfl hasFiles_restocked gives_declareAll_resold rfl rfl
    have hin : ∀ r ∈ [sold, resold], r.key.In World.empty := by
      intro r hr
      rcases List.mem_pair.1 hr with rfl | rfl
      · exact ModuleKey.in_of_known rfl
      · exact ModuleKey.in_of_known rfl
    obtain ⟨f, w₁, hgather', hagrees⟩ :=
      (build_agrees (faithful_shop restocked) hclosed hin).1 _ _ hbuild
    cases hgather.symm.trans hgather'
    have hmet : ∀ k, Met [] [sold, resold] (sale lonePets restocked m.files) k →
        k.digest = .known petsAlone := by
      rintro k ⟨_, hk | ⟨d, hd, c, hc, hk⟩⟩
      · rcases List.mem_pair.1 hk with rfl | rfl
        · rfl
        · rfl
      · cases List.mem_singleton.1 hd
        cases hc
        exact absurd hk List.not_mem_nil
    refine ⟨_, _, hbuild, ⟨List.not_mem_nil, .inl List.mem_cons_self⟩,
      ⟨List.not_mem_nil, .inl (List.mem_cons_of_mem _ List.mem_cons_self)⟩, hagrees ?_⟩
    intro k k' hk hk' _ _ x x' hx hx'
    rw [hx.unique ⟨_, ModuleKey.run_known (hmet k hk)⟩,
      hx'.unique ⟨_, ModuleKey.run_known (hmet k' hk')⟩]
  · have hkeys : compared (namesOf []) [] [sold, rival] = [sold.key, rival.key] := rfl
    have hknown : ∀ k ∈ [sold.key, rival.key], ∃ x, k.digest = .known x := by
      intro k hk
      rcases List.mem_pair.1 hk with rfl | rfl
      · exact ⟨petsAlone, rfl⟩
      · exact ⟨otherDigest, rfl⟩
    have hin : ∀ r ∈ [sold, rival], r.key.In World.empty := by
      intro r hr
      obtain ⟨x, hx⟩ := hknown r.key (List.mem_map_of_mem hr)
      exact ModuleKey.in_of_known hx
    have hcommit : sold.key.commit ≠ rival.key.commit := by decide
    have hcommits : OneDigestPerCommit World.empty (· ∈ [sold.key, rival.key]) := by
      intro k k' hk hk' _ hsame x x' hx hx'
      rcases List.mem_pair.1 hk with rfl | rfl
      · rcases List.mem_pair.1 hk' with rfl | rfl
        · exact hx.unique hx'
        · exact absurd hsame hcommit
      · rcases List.mem_pair.1 hk' with rfl | rfl
        · exact absurd hsame.symm hcommit
        · exact hx.unique hx'
    have hnames : ¬ OneDigestPerName World.empty (· ∈ [sold.key, rival.key]) := by
      intro h
      have hsame := h sold.key rival.key List.mem_cons_self
        (List.mem_cons_of_mem _ List.mem_cons_self)
        (ModuleKey.name_withDigest pets petsAlone otherDigest) petsAlone otherDigest
        ⟨_, ModuleKey.run_known rfl⟩ ⟨_, ModuleKey.run_known rfl⟩
      exact otherDigest_ne hsame.symm
    rw [← hkeys] at hcommits hnames ⊢
    exact (build_agrees (faithful_shop restocked) hclosed hin).2 [] [sold, rival] World.empty
      rfl rfl .declared (World.resolves_of_known hknown) hcommits hnames

/-- Digests of one commit are not. -/
theorem build_conceals :
    ∃ s, (ModuleSet.build (shop restocked) 1 [] [sold, wanted]).Gives World.empty s World.empty ∧
      sold.key.name = wanted.key.name ∧ sold.key.HasDigest World.empty petsAlone ∧
      wanted.key.HasDigest World.empty otherDigest ∧ otherDigest ≠ petsAlone := by
  obtain ⟨m, _, hbuild, _⟩ := build_shop rfl hasFiles_restocked gives_declareAll_wanted rfl rfl
  exact ⟨_, hbuild, ModuleKey.name_withDigest _ _ _, ⟨_, ModuleKey.run_known rfl⟩,
    ⟨_, ModuleKey.run_known rfl⟩, otherDigest_ne⟩

end Schemata.ModuleSet.Build

import Schemata.ModuleSet.Build
import Schemata.Proofs.Act

/-!
# Declaring remote modules

A declaration is merged with the first of its name, or comes last of all. While remote modules are
fetched, what is declared changes only by declaring the dependencies of what was delivered.
-/

namespace Schemata.ModuleSet.Build

variable {w w' : World}

/-! ### One declaration -/

/-- A declaration with a later one of its name added to it. -/
def merged (known r : RemoteModule) : RemoteModule :=
  { known with
    target := known.target || r.target
    paths := sortedSet (known.paths ++ r.paths)
    excludes := sortedSet (known.excludes ++ r.excludes) }

/-- Refuses two keys of one name and different commits unless their digests are the same. -/
def compareKeys (first second : ModuleKey) : Act Unit := do
  if first.commit ≠ second.commit then
    let x ← first.resolveDigest
    let y ← second.resolveDigest
    if x ≠ y then throw (.conflict second.name x y)

section Declare

variable {r first : RemoteModule} {known rs : List RemoteModule} {isNew : Bool}

theorem declare_same (h : first.key.name = r.key.name) :
    declare r (first :: known) = (do
      compareKeys first.key r.key
      return (merged first r :: known, false)) := by
  rw [declare, if_pos h, compareKeys]
  by_cases hcommit : first.key.commit ≠ r.key.commit
  · simp only [if_pos hcommit, bind_assoc]
    refine bind_congr fun x => bind_congr fun y => ?_
    by_cases hdigest : x ≠ y
    · simp only [if_pos hdigest]
      rfl
    · simp only [if_neg hdigest]
      rfl
  · simp only [if_neg hcommit]
    rfl

theorem declare_other (h : first.key.name ≠ r.key.name) :
    declare r (first :: known) = (do
      let (rest, isNew) ← declare r known
      return (first :: rest, isNew)) := by
  rw [declare, if_neg h]

theorem gives_declare_same (hname : first.key.name = r.key.name) :
    (declare r (first :: known)).Gives w (rs, isNew) w' ↔
      (compareKeys first.key r.key).Gives w () w' ∧ rs = merged first r :: known ∧
        isNew = false := by
  rw [declare_same hname, Act.gives_bind]
  constructor
  · rintro ⟨_, w₁, hagree, h⟩
    obtain ⟨heq, rfl⟩ := Act.gives_pure.1 h
    cases heq
    exact ⟨hagree, rfl, rfl⟩
  · rintro ⟨hagree, rfl, rfl⟩
    exact ⟨(), w', hagree, Act.gives_pure.2 ⟨rfl, rfl⟩⟩

theorem gives_declare_other (hname : first.key.name ≠ r.key.name) :
    (declare r (first :: known)).Gives w (rs, isNew) w' ↔
      ∃ rest, (declare r known).Gives w (rest, isNew) w' ∧ rs = first :: rest := by
  rw [declare_other hname, Act.gives_bind]
  constructor
  · rintro ⟨⟨rest, isNew₁⟩, w₁, hrest, h⟩
    obtain ⟨heq, rfl⟩ := Act.gives_pure.1 h
    cases heq
    exact ⟨rest, hrest, rfl⟩
  · rintro ⟨rest, hrest, rfl⟩
    exact ⟨(rest, isNew), w', hrest, Act.gives_pure.2 ⟨rfl, rfl⟩⟩

theorem gives_compareKeys_of_commit {first second : ModuleKey} (h : first.commit = second.commit) :
    (compareKeys first second).Gives w () w := by
  rw [compareKeys, if_neg (not_not_intro h)]
  exact Act.gives_pure.2 ⟨rfl, rfl⟩

end Declare

section Turns

variable {locals : List ModuleName}

/-! ### Declarations in turn -/

theorem declareAll_append (known rs rs' : List RemoteModule) :
    declareAll locals known (rs ++ rs') =
      (declareAll locals known rs >>= fun known => declareAll locals known rs') := by
  induction rs generalizing known with
  | nil => rfl
  | cons r rs ih =>
    rw [List.cons_append, declareAll, declareAll]
    split
    · exact ih known
    · simp only [bind_assoc, ih]

/-- Declarations that local modules stand in for add nothing. -/
theorem declareAll_shadowed (known : List RemoteModule) {rs : List RemoteModule}
    (h : ∀ r ∈ rs, r.key.name ∈ locals) : declareAll locals known rs = pure known := by
  induction rs with
  | nil => rfl
  | cons r rs ih =>
    obtain ⟨hr, hrs⟩ := List.forall_mem_cons.1 h
    rw [declareAll, if_pos (List.contains_iff_mem.2 hr), ih hrs]

/-! ### Rounds -/

theorem fetch_cons (provider : Provider) (rounds : Nat) (key : ModuleKey) (keys : List ModuleKey)
    (f : Fetched) :
    fetch provider locals (rounds + 1) (key :: keys) f = (do
      Act.checkLive
      let deliveries ← provider (key :: keys)
      if deliveries.length ≠ (key :: keys).length then
        throw (.fault
          s!"expected {(key :: keys).length} module datas, got {deliveries.length}")
      let (f, next) ← receive locals { f with asked := f.asked ++ (key :: keys) } deliveries
      fetch provider locals rounds next f) := by
  rw [fetch]
  exact List.cons_ne_nil key keys

/-- Whether declaring dependencies goes the same way for declarations that are related, and keeps
them related. -/
def KeptByDeps (locals : List ModuleName)
    (Related : List RemoteModule → List RemoteModule → Prop) : Prop :=
  ∀ known known' deps w rs keys w', Related known known' →
    (declareDeps locals known deps).Gives w (rs, keys) w' →
      ∃ rs', (declareDeps locals known' deps).Gives w (rs', keys) w' ∧ Related rs rs'

variable {Related : List RemoteModule → List RemoteModule → Prop} {f f₁ : Fetched}
  {known : List RemoteModule}

theorem KeptByDeps.receive (hkept : KeptByDeps locals Related) (hrelated : Related f.declared known)
    {ds : List Delivery} {next : List ModuleKey}
    (h : (receive locals f ds).Gives w (f₁, next) w') :
    ∃ rs, (Build.receive locals { f with declared := known } ds).Gives w
        ({ f₁ with declared := rs }, next) w' ∧ Related f₁.declared rs := by
  induction ds generalizing f known w f₁ next with
  | nil =>
    rw [Build.receive] at h
    obtain ⟨heq, rfl⟩ := Act.gives_pure.1 h
    cases heq
    exact ⟨known, Act.gives_pure.2 ⟨rfl, rfl⟩, hrelated⟩
  | cons d ds ih =>
    rw [Build.receive] at h ⊢
    obtain ⟨⟨c, d'⟩, w₁, hcontents, h⟩ := Act.gives_bind.1 h
    obtain ⟨⟨rs, keys⟩, w₂, hdeps, h⟩ := Act.gives_bind.1 h
    obtain ⟨⟨f₂, more⟩, w₃, hrest, h⟩ := Act.gives_bind.1 h
    obtain ⟨heq, rfl⟩ := Act.gives_pure.1 h
    cases heq
    obtain ⟨rs', hdeps', hrelated'⟩ := hkept _ _ _ _ _ _ _ hrelated hdeps
    obtain ⟨rs'', hrest', hrelated''⟩ :=
      ih (f := { f with declared := rs, deliveries := d' :: f.deliveries }) hrelated' hrest
    refine ⟨rs'', Act.gives_bind.2 ⟨_, _, hcontents, Act.gives_bind.2 ⟨_, _, hdeps', ?_⟩⟩,
      hrelated''⟩
    exact Act.gives_bind.2 ⟨_, _, hrest', Act.gives_pure.2 ⟨rfl, rfl⟩⟩

/-- What is fetched is the same where declarations are related, apart from the declarations. -/
theorem KeptByDeps.fetch (hkept : KeptByDeps locals Related) (hrelated : Related f.declared known)
    {provider : Provider} {rounds : Nat} {keys : List ModuleKey}
    (h : (fetch provider locals rounds keys f).Gives w f₁ w') :
    ∃ rs, (Build.fetch provider locals rounds keys { f with declared := known }).Gives w
        { f₁ with declared := rs } w' ∧ Related f₁.declared rs := by
  induction rounds generalizing keys f known w with
  | zero =>
    cases keys with
    | nil =>
      obtain ⟨rfl, rfl⟩ := Act.gives_pure.1 h
      exact ⟨known, Act.gives_pure.2 ⟨rfl, rfl⟩, hrelated⟩
    | cons key keys => exact absurd h Act.not_gives_throw
  | succ rounds ih =>
    cases keys with
    | nil =>
      obtain ⟨rfl, rfl⟩ := Act.gives_pure.1 h
      exact ⟨known, Act.gives_pure.2 ⟨rfl, rfl⟩, hrelated⟩
    | cons key keys =>
      rw [fetch_cons] at h
      obtain ⟨_, w₁, hlive, h⟩ := Act.gives_bind.1 h
      obtain ⟨ds, w₂, hdeliver, h⟩ := Act.gives_bind.1 h
      split at h
      · obtain ⟨_, _, hthrow, _⟩ := Act.gives_bind.1 h
        exact absurd hthrow Act.not_gives_throw
      · rename_i hlength
        obtain ⟨⟨f₂, next⟩, w₃, hreceive, h⟩ := Act.gives_bind.1 h
        obtain ⟨rs₁, hreceive', hrelated₁⟩ :=
          hkept.receive (f := { f with asked := f.asked ++ key :: keys }) hrelated hreceive
        obtain ⟨rs, hrest, hrelated'⟩ := ih hrelated₁ h
        refine ⟨rs, ?_, hrelated'⟩
        rw [fetch_cons]
        refine Act.gives_bind.2 ⟨_, _, hlive, Act.gives_bind.2 ⟨_, _, hdeliver, ?_⟩⟩
        rw [if_neg hlength]
        exact Act.gives_bind.2 ⟨_, _, hreceive', hrest⟩

/-- What declaring dependencies keeps of what is declared holds after fetching. -/
theorem declared_of_gives_fetch {Holds : List RemoteModule → Prop}
    (hkept : ∀ known deps w rs keys w', Holds known →
      (declareDeps locals known deps).Gives w (rs, keys) w' → Holds rs)
    (hholds : Holds f.declared) {provider : Provider} {rounds : Nat} {keys : List ModuleKey}
    (h : (fetch provider locals rounds keys f).Gives w f₁ w') : Holds f₁.declared := by
  have hsame : KeptByDeps locals fun rs rs' => rs = rs' ∧ Holds rs := by
    rintro known _ deps w rs keys w' ⟨rfl, hknown⟩ hdeps
    exact ⟨rs, hdeps, rfl, hkept _ _ _ _ _ _ hknown hdeps⟩
  obtain ⟨_, _, _, hdone⟩ := hsame.fetch (f := f) ⟨rfl, hholds⟩ h
  exact hdone

end Turns

end Schemata.ModuleSet.Build

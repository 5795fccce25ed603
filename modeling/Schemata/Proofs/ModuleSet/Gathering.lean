import Mathlib.Data.List.Nodup
import Mathlib.Logic.Relation
import Schemata.Proofs.Module.Delivery
import Schemata.Proofs.ModuleSet.Declaring

/-!
# What is gathered for a set

Round after round the provider is asked for the keys that are still pending. What was declared so
far stays apart by name, includes what the deliveries depend on, and is led to by the declarations
that the set is built from. In the end the provider was asked for each declared key once.
-/

namespace Schemata.ModuleSet.Build

open Schemata.Module (Error)
open Relation (ReflTransGen)

/-! ### Deliveries -/

/-- Whether a provider delivers for each key, in order, what carries that key. -/
def Answers (provider : Provider) : Prop :=
  ∀ keys w deliveries w', (provider keys).Gives w deliveries w' →
    deliveries.map Delivery.key = keys

/-- Whether a delivery was verified, with these contents. -/
def Verified (d : Delivery) (c : Contents) : Prop := d.check = .settled (.ok c)

variable {w w' : World}

/-- A delivery that gives its contents has been verified, and gives what was verified before. -/
theorem gives_contents {d d' : Delivery} {c : Contents} (h : d.contents.Gives w (c, d') w') :
    d'.key = d.key ∧ Verified d' c ∧ ∀ c', Verified d c' → c' = c := by
  unfold Verified
  rcases Delivery.gives_contents h with ⟨hcheck, rfl, _⟩ | ⟨hcheck, rfl, _⟩
  · exact ⟨rfl, hcheck, fun c' h => Except.ok.inj (Memo.settled.inj (hcheck.symm.trans h)).symm⟩
  · exact ⟨rfl, rfl, fun c' h => nomatch hcheck.symm.trans h⟩

/-! ### Declarations -/

def keysOf (rs : List RemoteModule) : List ModuleKey := rs.map RemoteModule.key

/-- Whether keys have different names, which no local module has. -/
structure Apart (locals : List ModuleName) (keys : List ModuleKey) : Prop where
  nodup : (keys.map ModuleKey.name).Nodup
  remote : ∀ k ∈ keys, k.name ∉ locals

theorem Apart.snoc {locals : List ModuleName} {keys : List ModuleKey} (h : Apart locals keys)
    {key : ModuleKey} (hkeys : key.name ∉ keys.map ModuleKey.name) (hlocals : key.name ∉ locals) :
    Apart locals (keys ++ [key]) := by
  constructor
  · rw [List.map_append, List.map_singleton, List.nodup_append]
    refine ⟨h.nodup, List.nodup_singleton _, fun a ha b hb => ?_⟩
    rw [List.mem_singleton.1 hb]
    exact fun hab => hkeys (hab ▸ ha)
  · intro k hk
    rcases List.mem_append.1 hk with hk | hk
    · exact h.remote k hk
    · rw [List.mem_singleton.1 hk]
      exact hlocals

/-- A declaration goes to those of its name, or is the last of the new ones. -/
theorem gives_declare {r : RemoteModule} {known rs : List RemoteModule} {isNew : Bool}
    (h : (declare r known).Gives w (rs, isNew) w') :
    keysOf rs = keysOf known ++ (if isNew then [r.key] else []) ∧
      (isNew = true ↔ r.key.name ∉ (keysOf known).map ModuleKey.name) := by
  induction known generalizing w rs isNew w' with
  | nil =>
    rw [declare] at h
    obtain ⟨heq, _⟩ := Act.gives_pure.1 h
    cases heq
    exact ⟨rfl, iff_of_true rfl List.not_mem_nil⟩
  | cons first known ih =>
    by_cases hname : first.key.name = r.key.name
    · -- merging keeps the first key, so nothing changes in the keys
      obtain ⟨_, rfl, rfl⟩ := (gives_declare_same hname).1 h
      have hmem : r.key.name ∈ (keysOf (first :: known)).map ModuleKey.name :=
        List.mem_cons.2 (.inl hname.symm)
      exact ⟨(List.append_nil _).symm, iff_of_false Bool.false_ne_true (not_not_intro hmem)⟩
    · obtain ⟨rest, hrest, rfl⟩ := (gives_declare_other hname).1 h
      obtain ⟨hkeys, hnew⟩ := ih hrest
      refine ⟨congrArg (first.key :: ·) hkeys, hnew.trans ?_⟩
      have hne : r.key.name ≠ first.key.name := fun h => hname h.symm
      simp only [keysOf, List.map_cons, List.mem_cons, hne, false_or]

/-- A declaration of a name that is not known comes last. -/
theorem declare_new {r : RemoteModule} {known : List RemoteModule}
    (h : r.key.name ∉ (keysOf known).map ModuleKey.name) :
    (declare r known).Gives w (known ++ [r], true) w := by
  induction known with
  | nil => exact Act.gives_pure.2 ⟨rfl, rfl⟩
  | cons first known ih =>
    obtain ⟨hfirst, hknown⟩ := not_or.1 (mt List.mem_cons.2 h)
    exact (gives_declare_other (Ne.symm hfirst)).2 ⟨known ++ [r], ih hknown, rfl⟩

/-- A declaration for the key of the last one is merged with it, whatever the digest. -/
theorem declare_again {r last : RemoteModule} {known : List RemoteModule} (hkey : last.key = r.key)
    (h : r.key.name ∉ (keysOf known).map ModuleKey.name) :
    (declare r (known ++ [last])).Gives w (known ++ [merged last r], false) w := by
  induction known with
  | nil =>
    refine (gives_declare_same (congrArg ModuleKey.name hkey)).2 ⟨?_, rfl, rfl⟩
    rw [hkey]
    exact gives_compareKeys_of_commit rfl
  | cons first known ih =>
    obtain ⟨hfirst, hknown⟩ := not_or.1 (mt List.mem_cons.2 h)
    exact (gives_declare_other (Ne.symm hfirst)).2 ⟨known ++ [merged last r], ih hknown, rfl⟩

section Declarations

variable {locals : List ModuleName}

theorem Apart.declare {r : RemoteModule} {known rs : List RemoteModule} {isNew : Bool}
    (hknown : Apart locals (keysOf known)) (hr : r.key.name ∉ locals)
    (h : (Build.declare r known).Gives w (rs, isNew) w') : Apart locals (keysOf rs) := by
  obtain ⟨hkeys, hnew⟩ := gives_declare h
  rw [hkeys]
  cases isNew with
  | true => exact hknown.snoc (hnew.1 rfl) hr
  | false => simpa using hknown

theorem name_mem_of_gives_declare {r : RemoteModule} {known rs : List RemoteModule} {isNew : Bool}
    (h : (declare r known).Gives w (rs, isNew) w') :
    r.key.name ∈ (keysOf rs).map ModuleKey.name := by
  obtain ⟨hkeys, hnew⟩ := gives_declare h
  rw [hkeys]
  cases isNew with
  | true => simp
  | false =>
    have hmem := not_not.1 (mt hnew.2 Bool.false_ne_true)
    simpa using hmem

/-- What declaring modules in turn gives: all of them are known unless a local module stands in, and
every new key is one of theirs. -/
theorem gives_declareAll {remotes known rs : List RemoteModule} (hknown : Apart locals (keysOf known))
    (h : (declareAll locals known remotes).Gives w rs w') :
    Apart locals (keysOf rs) ∧ keysOf known ⊆ keysOf rs ∧
      (∀ r ∈ remotes, r.key.name ∈ locals ∨ r.key.name ∈ (keysOf rs).map ModuleKey.name) ∧
      ∀ k ∈ keysOf rs, k ∈ keysOf known ∨ ∃ r ∈ remotes, r.key = k := by
  induction remotes generalizing known w with
  | nil =>
    rw [declareAll] at h
    obtain ⟨rfl, _⟩ := Act.gives_pure.1 h
    exact ⟨hknown, List.Subset.refl _, fun _ hr => absurd hr List.not_mem_nil, fun k hk => .inl hk⟩
  | cons r remotes ih =>
    rw [declareAll] at h
    split at h
    · rename_i hlocal
      obtain ⟨hapart, hsub, hall, hnew⟩ := ih hknown h
      refine ⟨hapart, hsub, fun q hq => ?_, fun k hk => ?_⟩
      · rcases List.mem_cons.1 hq with rfl | hq
        · exact .inl (List.contains_iff_mem.1 hlocal)
        · exact hall q hq
      · exact (hnew k hk).imp_right fun h => h.imp fun q hq => ⟨List.mem_cons_of_mem _ hq.1, hq.2⟩
    · rename_i hremote
      obtain ⟨⟨rs₁, isNew⟩, w₁, hdeclare, h⟩ := Act.gives_bind.1 h
      have hr : r.key.name ∉ locals := fun hmem => hremote (List.contains_iff_mem.2 hmem)
      obtain ⟨hkeys, _⟩ := gives_declare hdeclare
      obtain ⟨hapart, hsub, hall, hnew⟩ := ih (hknown.declare hr hdeclare) h
      have hsub₁ : keysOf known ⊆ keysOf rs₁ := by
        rw [hkeys]
        exact List.subset_append_left _ _
      refine ⟨hapart, fun k hk => hsub (hsub₁ hk), fun q hq => ?_, fun k hk => ?_⟩
      · rcases List.mem_cons.1 hq with rfl | hq
        · exact .inr (List.map_subset _ hsub (name_mem_of_gives_declare hdeclare))
        · exact hall q hq
      · rcases hnew k hk with hk | ⟨q, hq, hk⟩
        · rw [hkeys] at hk
          rcases List.mem_append.1 hk with hk | hk
          · exact .inl hk
          · cases isNew with
            | true => exact .inr ⟨r, List.mem_cons_self, (List.mem_singleton.1 hk).symm⟩
            | false => exact absurd hk List.not_mem_nil
        · exact .inr ⟨q, List.mem_cons_of_mem _ hq, hk⟩

/-- What declaring dependencies in turn gives: the new keys come last, in order. -/
theorem gives_declareDeps {deps : List ModuleKey} {known rs : List RemoteModule}
    {keys : List ModuleKey} (hknown : Apart locals (keysOf known))
    (h : (declareDeps locals known deps).Gives w (rs, keys) w') :
    Apart locals (keysOf rs) ∧ keysOf rs = keysOf known ++ keys ∧ keys ⊆ deps ∧
      ∀ dep ∈ deps, dep.name ∈ locals ∨ dep.name ∈ (keysOf rs).map ModuleKey.name := by
  induction deps generalizing known w rs keys w' with
  | nil =>
    rw [declareDeps] at h
    obtain ⟨heq, _⟩ := Act.gives_pure.1 h
    cases heq
    exact ⟨hknown, (List.append_nil _).symm, List.Subset.refl _,
      fun _ hd => absurd hd List.not_mem_nil⟩
  | cons dep deps ih =>
    rw [declareDeps] at h
    split at h
    · rename_i hlocal
      obtain ⟨hapart, hkeys, hsub, hall⟩ := ih hknown h
      refine ⟨hapart, hkeys, fun k hk => List.mem_cons_of_mem _ (hsub hk), fun d hd => ?_⟩
      rcases List.mem_cons.1 hd with rfl | hd
      · exact .inl (List.contains_iff_mem.1 hlocal)
      · exact hall d hd
    · rename_i hremote
      obtain ⟨⟨rs₁, isNew⟩, w₁, hdeclare, h⟩ := Act.gives_bind.1 h
      obtain ⟨⟨rs₂, keys₂⟩, w₂, hrest, h⟩ := Act.gives_bind.1 h
      obtain ⟨heq, _⟩ := Act.gives_pure.1 h
      cases heq
      have hdep : dep.name ∉ locals := fun hmem => hremote (List.contains_iff_mem.2 hmem)
      have hname := name_mem_of_gives_declare hdeclare
      obtain ⟨hkeys₁, _⟩ := gives_declare hdeclare
      have hdeclared := hknown.declare hdep hdeclare
      obtain ⟨hapart, hkeys, hsub, hall⟩ := ih hdeclared hrest
      have hsub₁ : keysOf rs₁ ⊆ keysOf rs := by
        rw [hkeys]
        exact List.subset_append_left _ _
      refine ⟨hapart, ?_, ?_, fun d hd => ?_⟩
      · rw [hkeys, hkeys₁]
        cases isNew with
        | true => simp
        | false => simp
      · cases isNew with
        | true => exact List.cons_subset_cons _ hsub
        | false => exact fun k hk => List.mem_cons_of_mem _ (hsub hk)
      · rcases List.mem_cons.1 hd with rfl | hd
        · exact .inr (List.map_subset _ hsub₁ hname)
        · exact hall d hd

end Declarations

/-! ### Rounds -/

/-- Whether the module of a key was delivered and declares to depend on another. -/
def DependsOn (f : Fetched) (key dep : ModuleKey) : Prop :=
  ∃ d ∈ f.deliveries, d.key = key ∧ ∃ c, Verified d c ∧ dep ∈ c.deps

/-- Whether a declared key, for which no local module stands in, leads to a key. -/
def LedTo (locals : List ModuleName) (remotes : List RemoteModule) (f : Fetched)
    (key : ModuleKey) : Prop :=
  ∃ r ∈ remotes, r.key.name ∉ locals ∧ ReflTransGen (DependsOn f) r.key key

/-- What holds of the remote modules of a set all the while they are fetched: the declarations are
apart, include what was delivered depends on, and are led to. -/
structure Gathered (locals : List ModuleName) (remotes : List RemoteModule) (f : Fetched) :
    Prop where
  apart : Apart locals (keysOf f.declared)
  closed : ∀ d ∈ f.deliveries, ∃ c, Verified d c ∧
    ∀ dep ∈ c.deps, dep.name ∈ locals ∨ dep.name ∈ (keysOf f.declared).map ModuleKey.name
  led : ∀ k ∈ keysOf f.declared, LedTo locals remotes f k

section Rounds

variable {locals : List ModuleName} {remotes : List RemoteModule} {f f' : Fetched}

theorem LedTo.mono {k : ModuleKey} (h : LedTo locals remotes f k)
    (hsub : f.deliveries ⊆ f'.deliveries) : LedTo locals remotes f' k := by
  obtain ⟨r, hr, hlocal, hreach⟩ := h
  refine ⟨r, hr, hlocal, ?_⟩
  induction hreach with
  | refl => exact .refl
  | tail _ hedge ih =>
    obtain ⟨d, hd, hkey, hc⟩ := hedge
    exact ih.tail ⟨d, hsub hd, hkey, hc⟩

theorem Gathered.deliver (h : Gathered locals remotes f) {d d' : Delivery} {c : Contents}
    (hd : d.key ∈ keysOf f.declared) (hkey : d'.key = d.key) (hc : Verified d' c)
    {rs : List RemoteModule} {keys : List ModuleKey} {w₁ w₂ : World}
    (hdeps : (declareDeps locals f.declared c.deps).Gives w₁ (rs, keys) w₂) :
    Gathered locals remotes { f with declared := rs, deliveries := d' :: f.deliveries } := by
  obtain ⟨hapart, hkeys, hsub, hall⟩ := gives_declareDeps h.apart hdeps
  have hgrow : f.deliveries ⊆ d' :: f.deliveries := List.subset_cons_self _ _
  refine ⟨hapart, fun e he => ?_, fun k hk => ?_⟩
  · rcases List.mem_cons.1 he with rfl | he
    · exact ⟨c, hc, hall⟩
    · obtain ⟨c₁, hc₁, hclosed⟩ := h.closed e he
      refine ⟨c₁, hc₁, fun dep hdep => (hclosed dep hdep).imp_right fun hmem => ?_⟩
      rw [hkeys, List.map_append]
      exact List.mem_append_left _ hmem
  · rw [hkeys] at hk
    rcases List.mem_append.1 hk with hk | hk
    · exact (h.led k hk).mono hgrow
    · -- a new key is one step on from the key that was delivered
      have hled : LedTo locals remotes
          { f with declared := rs, deliveries := d' :: f.deliveries } d.key :=
        (h.led d.key hd).mono hgrow
      obtain ⟨r, hr, hlocal, hreach⟩ := hled
      exact ⟨r, hr, hlocal, hreach.tail ⟨d', List.mem_cons_self, hkey, c, hc, hsub hk⟩⟩

theorem gives_receive {ds : List Delivery} {next : List ModuleKey}
    (h : Gathered locals remotes f) (hds : ∀ d ∈ ds, d.key ∈ keysOf f.declared)
    (hreceive : (receive locals f ds).Gives w (f', next) w') :
    Gathered locals remotes f' ∧ keysOf f'.declared = keysOf f.declared ++ next ∧
      f'.asked = f.asked ∧
      f'.deliveries.map Delivery.key =
        (ds.map Delivery.key).reverse ++ f.deliveries.map Delivery.key := by
  induction ds generalizing f w f' next w' with
  | nil =>
    rw [receive] at hreceive
    obtain ⟨heq, _⟩ := Act.gives_pure.1 hreceive
    cases heq
    exact ⟨h, (List.append_nil _).symm, rfl, rfl⟩
  | cons d ds ih =>
    rw [receive] at hreceive
    obtain ⟨⟨c, d'⟩, w₁, hcontents, hreceive⟩ := Act.gives_bind.1 hreceive
    obtain ⟨⟨rs, keys⟩, w₂, hdeps, hreceive⟩ := Act.gives_bind.1 hreceive
    obtain ⟨⟨f₁, more⟩, w₃, hrest, hreceive⟩ := Act.gives_bind.1 hreceive
    obtain ⟨heq, _⟩ := Act.gives_pure.1 hreceive
    cases heq
    obtain ⟨hkey, hc, _⟩ := gives_contents hcontents
    obtain ⟨_, hkeys, _, _⟩ := gives_declareDeps h.apart hdeps
    have hstep := h.deliver (hds d List.mem_cons_self) hkey hc hdeps
    have hds' : ∀ e ∈ ds, e.key ∈ keysOf rs := by
      intro e he
      rw [hkeys]
      exact List.mem_append_left _ (hds e (List.mem_cons_of_mem _ he))
    obtain ⟨hgathered, hdeclared, hasked, hdelivered⟩ := ih hstep hds' hrest
    refine ⟨hgathered, ?_, hasked, ?_⟩
    · rw [hdeclared]
      simp only
      rw [hkeys, List.append_assoc]
    · rw [hdelivered, List.map_cons, List.map_cons, hkey, List.reverse_cons, List.append_assoc]
      rfl

/-- Whether keys are what is left to ask for of the remote modules of a set. -/
structure Pending (f : Fetched) (keys : List ModuleKey) : Prop where
  declared : keysOf f.declared = f.asked ++ keys
  delivered : f.deliveries.map Delivery.key = f.asked.reverse

theorem Pending.asked (h : Pending f []) : keysOf f.declared = f.asked := by
  rw [h.declared, List.append_nil]

theorem Pending.mem_declared (h : Pending f []) {d : Delivery} (hd : d ∈ f.deliveries) :
    d.key ∈ keysOf f.declared := by
  have hmem : d.key ∈ f.asked.reverse := h.delivered ▸ List.mem_map_of_mem hd
  rw [h.asked]
  exact List.mem_reverse.1 hmem

/-- Round after round the provider is asked for what was declared and nothing else. -/
theorem gives_fetch {provider : Provider} (hprovider : Answers provider) {rounds : Nat}
    {keys : List ModuleKey} (h : Gathered locals remotes f) (hpending : Pending f keys)
    (hfetch : (fetch provider locals rounds keys f).Gives w f' w') :
    Gathered locals remotes f' ∧ Pending f' [] ∧ keysOf f.declared ⊆ keysOf f'.declared := by
  induction rounds generalizing keys f w with
  | zero =>
    cases keys with
    | nil =>
      obtain ⟨rfl, _⟩ := Act.gives_pure.1 hfetch
      exact ⟨h, hpending, List.Subset.refl _⟩
    | cons key keys => exact absurd hfetch Act.not_gives_throw
  | succ rounds ih =>
    cases keys with
    | nil =>
      obtain ⟨rfl, _⟩ := Act.gives_pure.1 hfetch
      exact ⟨h, hpending, List.Subset.refl _⟩
    | cons key keys =>
      rw [fetch_cons] at hfetch
      obtain ⟨_, w₁, _, hfetch⟩ := Act.gives_bind.1 hfetch
      obtain ⟨deliveries, w₂, hdeliver, hfetch⟩ := Act.gives_bind.1 hfetch
      have hkeys := hprovider _ _ _ _ hdeliver
      have hlength : deliveries.length = (key :: keys).length := by
        rw [← hkeys, List.length_map]
      rw [if_neg (not_not_intro hlength)] at hfetch
      obtain ⟨⟨f₁, next⟩, w₃, hreceive, hfetch⟩ := Act.gives_bind.1 hfetch
      have hds : ∀ d ∈ deliveries, d.key ∈ keysOf f.declared := by
        intro d hd
        rw [hpending.declared, ← hkeys]
        exact List.mem_append_right _ (List.mem_map_of_mem hd)
      have hasking : Gathered locals remotes { f with asked := f.asked ++ (key :: keys) } :=
        ⟨h.apart, h.closed, h.led⟩
      obtain ⟨hgathered, hdeclared, hasked, hdelivered⟩ := gives_receive hasking hds hreceive
      -- the keys of this round are done, those that it declared are left
      have hnext : Pending f₁ next := by
        constructor
        · rw [hdeclared, hasked, ← hpending.declared]
        · rw [hdelivered, hasked, List.reverse_append, hkeys]
          exact congrArg ((key :: keys).reverse ++ ·) hpending.delivered
      obtain ⟨hgathered', hpending', hsub⟩ := ih hgathered hnext hfetch
      refine ⟨hgathered', hpending', fun k hk => hsub ?_⟩
      rw [hdeclared]
      exact List.mem_append_left _ hk

end Rounds

/-! ### Local modules -/

def namesOf (locals : List LocalModule) : List ModuleName := locals.filterMap LocalModule.name

theorem of_checkLocals_cons {ids : List String} {names : List ModuleName} {l : LocalModule}
    {locals : List LocalModule} (h : checkLocals ids names (l :: locals) = .ok ()) :
    l.bucketId ∉ ids ∧ (∀ n, l.name = some n → n ∉ names) ∧
      checkLocals (l.bucketId :: ids) (l.name.toList ++ names) locals = .ok () := by
  rw [checkLocals] at h
  split at h
  · cases h
  · rename_i hid
    have hfresh : l.bucketId ∉ ids := fun hmem => hid (List.contains_iff_mem.2 hmem)
    cases hname : l.name with
    | none =>
      rw [hname] at h
      obtain ⟨_, _, hrest⟩ := bind_eq_ok.1 h
      exact ⟨hfresh, fun n hn => (nomatch hn), hrest⟩
    | some n =>
      rw [hname] at h
      simp only at h
      split at h
      · cases h
      · rename_i hnew
        obtain ⟨_, _, hrest⟩ := bind_eq_ok.1 h
        refine ⟨hfresh, fun m hm hmem => hnew ?_, hrest⟩
        rw [Option.some.inj hm]
        exact List.contains_iff_mem.2 hmem

/-- Local modules have different places, and those with names different names. -/
theorem nodup_of_checkLocals {ids : List String} {names : List ModuleName}
    {locals : List LocalModule} (h : checkLocals ids names locals = .ok ()) :
    (locals.map LocalModule.bucketId).Nodup ∧ (∀ l ∈ locals, l.bucketId ∉ ids) ∧
      (namesOf locals).Nodup ∧ ∀ n ∈ namesOf locals, n ∉ names := by
  induction locals generalizing ids names with
  | nil =>
    exact ⟨.nil, fun _ hl => absurd hl List.not_mem_nil, .nil, fun _ hn => absurd hn List.not_mem_nil⟩
  | cons l locals ih =>
    obtain ⟨hid, hname, hrest⟩ := of_checkLocals_cons h
    obtain ⟨hids, hnotIds, hnames, hnotNames⟩ := ih hrest
    refine ⟨?_, fun k hk => ?_, ?_⟩
    · refine List.nodup_cons.2 ⟨fun hmem => ?_, hids⟩
      obtain ⟨k, hk, hkid⟩ := List.mem_map.1 hmem
      exact hnotIds k hk (hkid ▸ List.mem_cons_self)
    · rcases List.mem_cons.1 hk with rfl | hk
      · exact hid
      · exact fun hmem => hnotIds k hk (List.mem_cons_of_mem _ hmem)
    · cases hl : l.name with
      | none =>
        have heq : namesOf (l :: locals) = namesOf locals := by
          rw [namesOf, List.filterMap_cons, hl]
          rfl
        rw [heq]
        exact ⟨hnames, fun n hn hmem => hnotNames n hn (List.mem_append_right _ hmem)⟩
      | some m =>
        have heq : namesOf (l :: locals) = m :: namesOf locals := by
          rw [namesOf, List.filterMap_cons, hl]
          rfl
        rw [hl] at hnotNames
        rw [heq]
        refine ⟨List.nodup_cons.2 ⟨fun hmem => hnotNames m hmem List.mem_cons_self, hnames⟩, ?_⟩
        intro n hn
        rcases List.mem_cons.1 hn with rfl | hn
        · exact hname n hl
        · exact fun hmem => hnotNames n hn (List.mem_cons_of_mem _ hmem)

/-! ### What is gathered -/

/-- Whatever a provider delivers, what is gathered has different names, which no local module has. -/
theorem apart_of_gives_gather {provider : Provider} {rounds : Nat} {locals : List LocalModule}
    {remotes : List RemoteModule} {f : Fetched}
    (h : (gather provider rounds locals remotes).Gives w f w') :
    checkLocals [] [] locals = .ok () ∧ Apart (namesOf locals) (keysOf f.declared) := by
  rw [gather] at h
  obtain ⟨_, w₁, _, h⟩ := Act.gives_bind.1 h
  obtain ⟨_, w₂, hlocals, h⟩ := Act.gives_bind.1 h
  obtain ⟨declared, w₃, hdeclare, hfetch⟩ := Act.gives_bind.1 h
  have hnone : Apart (namesOf locals) (keysOf []) := ⟨.nil, fun _ hk => absurd hk List.not_mem_nil⟩
  have hkept (known : List RemoteModule) (deps : List ModuleKey) (w : World)
      (rs : List RemoteModule) (keys : List ModuleKey) (w' : World)
      (hknown : Apart (namesOf locals) (keysOf known))
      (hdeps : (declareDeps (namesOf locals) known deps).Gives w (rs, keys) w') :
      Apart (namesOf locals) (keysOf rs) := (gives_declareDeps hknown hdeps).1
  exact ⟨(Act.gives_ofExcept.1 hlocals).1,
    declared_of_gives_fetch hkept (gives_declareAll hnone hdeclare).1 hfetch⟩

/-- What is gathered for a set: the declared modules and what they lead to, each asked for once. -/
theorem gives_gather {provider : Provider} (hprovider : Answers provider) {rounds : Nat}
    {locals : List LocalModule} {remotes : List RemoteModule} {f : Fetched}
    (h : (gather provider rounds locals remotes).Gives w f w') :
    checkLocals [] [] locals = .ok () ∧ Gathered (namesOf locals) remotes f ∧ Pending f [] ∧
      ∀ r ∈ remotes, r.key.name ∈ namesOf locals ∨
        r.key.name ∈ (keysOf f.declared).map ModuleKey.name := by
  rw [gather] at h
  obtain ⟨_, w₁, _, h⟩ := Act.gives_bind.1 h
  obtain ⟨_, w₂, hlocals, h⟩ := Act.gives_bind.1 h
  obtain ⟨declared, w₃, hdeclare, hfetch⟩ := Act.gives_bind.1 h
  have hnone : Apart (namesOf locals) (keysOf []) := ⟨.nil, fun _ hk => absurd hk List.not_mem_nil⟩
  obtain ⟨hapart, _, hall, hnew⟩ := gives_declareAll hnone hdeclare
  have hstart : Gathered (namesOf locals) remotes ⟨declared, [], []⟩ := by
    refine ⟨hapart, fun d hd => absurd hd List.not_mem_nil, fun k hk => ?_⟩
    obtain ⟨r, hr, rfl⟩ := (hnew k hk).resolve_left List.not_mem_nil
    exact ⟨r, hr, hapart.remote _ hk, .refl⟩
  have hpending : Pending ⟨declared, [], []⟩ (keysOf declared) := ⟨rfl, rfl⟩
  obtain ⟨hgathered, hdone, hsub⟩ := gives_fetch hprovider hstart hpending hfetch
  refine ⟨(Act.gives_ofExcept.1 hlocals).1, hgathered, hdone, fun r hr => ?_⟩
  exact (hall r hr).imp_right fun hmem => List.map_subset _ hsub hmem

end Schemata.ModuleSet.Build

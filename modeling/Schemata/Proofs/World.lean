import Schemata.Proofs.Act
import Schemata.Proofs.Except

/-!
# Digests of keys in the course of time

Asking for the digest of a key changes nothing in the world but the cells of deferred keys, and
there it only settles one that was unresolved. So what a digest was once found to be it stays.
-/

namespace Schemata

variable {w w₁ w' : World} {k : ModuleKey} {d d' : Digest}

/-- Whether the cell of a deferred key is there. -/
def ModuleKey.In (w : World) (k : ModuleKey) : Prop :=
  ∀ cell, k.digest = .asked cell → cell < w.cells.length

namespace World

/-- Whether the cells of the keys that the registry keeps are there. -/
def Closed (w : World) : Prop := ∀ c ∈ w.registry.commits.values, ∀ k ∈ c.deps, k.In w

/-- Whether a world may come before another: cells are added, and none changes but those that are
unresolved. -/
structure Before (w w' : World) : Prop where
  grown : w.cells.length ≤ w'.cells.length
  kept : ∀ (cell : DigestCell) memo, memo ≠ .unresolved → w.cells[cell]? = some memo →
    w'.cells[cell]? = some memo
  closed : w.Closed → w'.Closed

theorem Before.refl (w : World) : w.Before w := ⟨Nat.le_refl _, fun _ _ _ h => h, id⟩

theorem Before.trans (h : w.Before w₁) (h' : w₁.Before w') : w.Before w' :=
  ⟨Nat.le_trans h.grown h'.grown,
    fun cell memo hmemo hw => h'.kept cell memo hmemo (h.kept cell memo hmemo hw),
    fun hclosed => h'.closed (h.closed hclosed)⟩

/-- The content of a cell; one that is not there counts as unresolved. -/
def cell (w : World) (cell : DigestCell) : Memo Module.Error Digest :=
  w.cells[cell]?.getD .unresolved

def withCell (w : World) (cell : DigestCell) (memo : Memo Module.Error Digest) : World :=
  { w with cells := w.cells.set cell memo }

theorem before_withCell {cell : DigestCell} (h : w.cell cell = .unresolved)
    (memo : Memo Module.Error Digest) : w.Before (w.withCell cell memo) := by
  have hlength : w.cells.length = (w.withCell cell memo).cells.length := List.length_set.symm
  refine ⟨Nat.le_of_eq hlength, fun other kept hkept hother => ?_, fun hclosed c hc k hk => ?_⟩
  · have hne : cell ≠ other := by
      rintro rfl
      unfold World.cell at h
      rw [hother] at h
      exact hkept h
    rw [← hother]
    exact List.getElem?_set_ne hne
  · intro asked hasked
    rw [← hlength]
    exact hclosed c hc k hk asked hasked

end World

namespace ModuleKey

open World

/-- Whether the digest of a key has been found. -/
def Found (w : World) (k : ModuleKey) (d : Digest) : Prop :=
  k.digest = .known d ∨
    ∃ cell : DigestCell, k.digest = .asked cell ∧ w.cells[cell]? = some (.settled (.ok d))

theorem in_of_known (h : k.digest = .known d) : k.In w := by
  intro cell hcell
  cases h.symm.trans hcell

theorem Found.there (h : k.Found w d) : k.In w := by
  rcases h with hk | ⟨cell, hk, hcell⟩
  · exact in_of_known hk
  · intro cell' hcell'
    cases hk.symm.trans hcell'
    exact (List.getElem?_eq_some_iff.1 hcell).1

theorem In.mono (h : k.In w) (hw : w.Before w') : k.In w' :=
  fun cell hcell => Nat.lt_of_lt_of_le (h cell hcell) hw.grown

theorem Found.mono (h : k.Found w d) (hw : w.Before w') : k.Found w' d :=
  h.imp_right fun ⟨cell, hk, hcell⟩ => ⟨cell, hk, hw.kept cell _ (fun h => by cases h) hcell⟩

theorem Found.unique (h : k.Found w d) (h' : k.Found w d') : d = d' := by
  rcases h with hk | ⟨cell, hk, hcell⟩
  · rcases h' with hk' | ⟨cell', hk', _⟩
    · exact KeyDigest.known.inj (hk.symm.trans hk')
    · cases hk.symm.trans hk'
  · rcases h' with hk' | ⟨cell', hk', hcell'⟩
    · cases hk.symm.trans hk'
    · cases hk.symm.trans hk'
      cases hcell.symm.trans hcell'
      rfl

/-- What the registry answers for a deferred key. -/
def looked (w : World) (k : ModuleKey) : Except Module.Error Digest := do
  Module.checkLive w.live
  w.registry.digestOf k.name k.commit

theorem run_known (hk : k.digest = .known d) : k.resolveDigest.run w = (.ok d, w) := by
  unfold resolveDigest
  rw [hk]
  rfl

theorem run_asked {cell : DigestCell} (hk : k.digest = .asked cell) :
    k.resolveDigest.run w =
      match w.cell cell with
      | .unresolved => (looked w k, w.withCell cell (.settled (looked w k)))
      | .resolving => (.error (.internal .reentrant), w)
      | .settled outcome => (outcome, w) := by
  unfold resolveDigest World.cell
  rw [hk]
  simp only [ExceptT.run_mk, Memo.force]
  cases w.cells[cell]?.getD .unresolved with
  | unresolved =>
    simp only [Memo.answer?, List.set_set]
    rfl
  | resolving => rfl
  | settled outcome => rfl

theorem run_of_found (h : k.Found w d) : k.resolveDigest.run w = (.ok d, w) := by
  rcases h with hk | ⟨cell, hk, hcell⟩
  · exact run_known hk
  · rw [run_asked hk, World.cell, hcell]
    rfl

/-- Whether asking for the digest of a key gives a digest. -/
def HasDigest (w : World) (k : ModuleKey) (d : Digest) : Prop :=
  ∃ w', k.resolveDigest.Gives w d w'

theorem Found.hasDigest (h : k.Found w d) : k.HasDigest w d := ⟨w, run_of_found h⟩

theorem HasDigest.unique (h : k.HasDigest w d) (h' : k.HasDigest w d') : d = d' := by
  obtain ⟨_, hrun⟩ := h
  obtain ⟨_, hrun'⟩ := h'
  exact Except.ok.inj (Prod.mk.inj (hrun.symm.trans hrun')).1

theorem run_resolveDigest (k : ModuleKey) (w : World) :
    w.Before (k.resolveDigest.run w).2 ∧
      ∃ cells, (k.resolveDigest.run w).2 = { w with cells := cells } := by
  cases hk : k.digest with
  | known d =>
    rw [run_known hk]
    exact ⟨.refl w, w.cells, rfl⟩
  | asked cell =>
    rw [run_asked hk]
    cases hcell : w.cell cell with
    | unresolved => exact ⟨before_withCell hcell _, _, rfl⟩
    | resolving => exact ⟨.refl w, w.cells, rfl⟩
    | settled outcome => exact ⟨.refl w, w.cells, rfl⟩

theorem before_of_gives (h : k.resolveDigest.Gives w d w') : w.Before w' := by
  have hbefore := (run_resolveDigest k w).1
  rwa [show k.resolveDigest.run w = _ from h] at hbefore

theorem cells_of_gives (h : k.resolveDigest.Gives w d w') :
    ∃ cells, w' = { w with cells := cells } := by
  have hcells := (run_resolveDigest k w).2
  rwa [show k.resolveDigest.run w = _ from h] at hcells

theorem found_of_gives (hin : k.In w) (h : k.resolveDigest.Gives w d w') : k.Found w' d := by
  cases hk : k.digest with
  | known d' =>
    have hrun := (run_known hk).symm.trans h
    cases hrun
    exact .inl hk
  | asked cell =>
    have hrun := (run_asked hk).symm.trans h
    refine .inr ⟨cell, hk, ?_⟩
    have hlt := hin cell hk
    have hcell : w.cells[cell]? = some (w.cell cell) := by
      rw [World.cell, List.getElem?_eq_getElem hlt]
      rfl
    split at hrun
    · obtain ⟨hlooked, rfl⟩ := Prod.mk.inj hrun
      rw [World.withCell, List.getElem?_set_self hlt, hlooked]
    · cases hrun
    · rename_i outcome hsettled
      obtain ⟨rfl, rfl⟩ := Prod.mk.inj hrun
      rw [hcell, hsettled]

theorem answer_asked {cell : DigestCell} (hk : k.digest = .asked cell) :
    (k.resolveDigest.run w).1 =
      match w.cell cell with
      | .unresolved => looked w k
      | .resolving => .error (.internal .reentrant)
      | .settled outcome => outcome := by
  rw [run_asked hk]
  cases w.cell cell with
  | unresolved => rfl
  | resolving => rfl
  | settled outcome => rfl

theorem hasDigest_iff : k.HasDigest w d ↔ (k.resolveDigest.run w).1 = .ok d :=
  ⟨fun ⟨_, h⟩ => congrArg Prod.fst h, fun h => ⟨_, Prod.ext h rfl⟩⟩

/-- A key gives the same digest after another was asked. If both have one cell, they are to be of
one name and commit. -/
theorem HasDigest.after {k' : ModuleKey} (h : k.HasDigest w d) (hin : k.In w)
    (hcells : ∀ cell, k.digest = .asked cell → k'.digest = .asked cell →
      k.name = k'.name ∧ k.commit = k'.commit)
    (hk' : k'.resolveDigest.Gives w d' w') : k.HasDigest w' d := by
  cases hk : k.digest with
  | known x =>
    rw [hasDigest_iff, run_known hk] at h ⊢
    exact h
  | asked cell =>
    cases hd' : k'.digest with
    | known x =>
      cases (run_known hd').symm.trans hk'
      exact h
    | asked cell' =>
      have hrun := (run_asked hd').symm.trans hk'
      split at hrun
      · rename_i hunresolved
        obtain ⟨_, rfl⟩ := Prod.mk.inj hrun
        rw [hasDigest_iff, answer_asked hk] at h ⊢
        -- in one cell, the other key left what this one would have been told
        by_cases hcell : cell = cell'
        · subst hcell
          obtain ⟨hname, hcommit⟩ := hcells cell hk hd'
          have hset : (w.withCell cell (.settled (looked w k'))).cell cell =
              .settled (looked w k') := by
            rw [World.cell, World.withCell, List.getElem?_set_self (hin cell hk)]
            rfl
          rw [hunresolved] at h
          rw [hset]
          unfold looked at h ⊢
          rw [← hname, ← hcommit]
          exact h
        · have hother : (w.withCell cell' (.settled (looked w k'))).cell cell = w.cell cell := by
            rw [World.cell, World.withCell, List.getElem?_set_ne (Ne.symm hcell)]
            rfl
          rw [hother]
          exact h
      · cases hrun
      · obtain ⟨_, rfl⟩ := Prod.mk.inj hrun
        exact h

/-- The digest of a key has nothing to do with the store. -/
theorem gives_withStore (h : k.resolveDigest.Gives w d w') (v : Storage.Volume) :
    k.resolveDigest.Gives { w with store := v } d { w' with store := v } := by
  cases hk : k.digest with
  | known x =>
    cases (run_known hk).symm.trans h
    exact run_known hk
  | asked cell =>
    have hrun := (run_asked hk).symm.trans h
    refine (run_asked hk).trans ?_
    rw [show World.cell { w with store := v } cell = w.cell cell from rfl]
    cases hcell : w.cell cell with
    | unresolved =>
      rw [hcell] at hrun
      obtain ⟨hlooked, rfl⟩ := Prod.mk.inj hrun
      have hlooked' : looked { w with store := v } k = .ok d := hlooked
      simp only [hlooked']
      rw [hlooked]
      rfl
    | resolving =>
      rw [hcell] at hrun
      cases hrun
    | settled outcome =>
      rw [hcell] at hrun
      obtain ⟨rfl, rfl⟩ := Prod.mk.inj hrun
      rfl

/-- What a key gives depends on its cell and on what the registry would answer. -/
theorem hasDigest_congr (hcells : w'.cells = w.cells) (hlooked : looked w' k = looked w k) :
    k.HasDigest w' d ↔ k.HasDigest w d := by
  rw [hasDigest_iff, hasDigest_iff]
  cases hk : k.digest with
  | known x => rw [run_known hk, run_known hk]
  | asked cell => rw [answer_asked hk, answer_asked hk, World.cell, World.cell, hcells, hlooked]

end ModuleKey

namespace World

variable {keys : List ModuleKey}

/-- Whether keys give their digests when they are asked. Those with one cell are to be of one name
and commit. -/
structure Resolves (w : World) (keys : List ModuleKey) : Prop where
  there : ∀ k ∈ keys, k.In w
  answered : ∀ k ∈ keys, ∃ d, k.HasDigest w d
  apart : ∀ k ∈ keys, ∀ k' ∈ keys, ∀ cell, k.digest = .asked cell → k'.digest = .asked cell →
    k.name = k'.name ∧ k.commit = k'.commit

/-- Whether keys give the same digests in another world. -/
structure Repeats (w : World) (keys : List ModuleKey) (w' : World) : Prop where
  resolves : w'.Resolves keys
  same : ∀ k ∈ keys, ∀ d, k.HasDigest w d ↔ k.HasDigest w' d

theorem resolves_of_known (h : ∀ k ∈ keys, ∃ d, k.digest = .known d) : w.Resolves keys := by
  refine ⟨fun k hk => ?_, fun k hk => ?_, fun k hk _ _ cell hcell => ?_⟩
  · obtain ⟨d, hd⟩ := h k hk
    exact ModuleKey.in_of_known hd
  · obtain ⟨d, hd⟩ := h k hk
    exact ⟨d, w, ModuleKey.run_known hd⟩
  · obtain ⟨d, hd⟩ := h k hk
    cases hd.symm.trans hcell

theorem Resolves.refl (h : w.Resolves keys) : w.Repeats keys w := ⟨h, fun _ _ _ => Iff.rfl⟩

theorem Repeats.trans (h : w.Repeats keys w₁) (h' : w₁.Repeats keys w') : w.Repeats keys w' :=
  ⟨h'.resolves, fun k hk d => (h.same k hk d).trans (h'.same k hk d)⟩

theorem Resolves.ask (h : w.Resolves keys) (hk : k ∈ keys) :
    ∃ d w', k.HasDigest w d ∧ k.resolveDigest.Gives w d w' ∧ w.Repeats keys w' := by
  obtain ⟨d, w', hgives⟩ := h.answered k hk
  have hbefore := ModuleKey.before_of_gives hgives
  have hkept : ∀ k' ∈ keys, ∀ x, k'.HasDigest w x → k'.HasDigest w' x := fun k' hk' x hx =>
    hx.after (h.there k' hk') (h.apart k' hk' k hk) hgives
  have hthere : ∀ k' ∈ keys, k'.In w' := fun k' hk' => (h.there k' hk').mono hbefore
  refine ⟨d, w', ⟨w', hgives⟩, hgives, ⟨hthere, ?_, h.apart⟩, ?_⟩
  · intro k' hk'
    obtain ⟨x, hx⟩ := h.answered k' hk'
    exact ⟨x, hkept k' hk' x hx⟩
  · refine fun k' hk' x => ⟨hkept k' hk' x, fun hx => ?_⟩
    obtain ⟨y, hy⟩ := h.answered k' hk'
    rw [hx.unique (hkept k' hk' y hy)]
    exact hy

/-- A key leaves the same digests when it gives its own. -/
theorem Resolves.gives (h : w.Resolves keys) (hk : k ∈ keys) (hd : k.HasDigest w d) :
    ∃ w', k.resolveDigest.Gives w d w' ∧ w.Repeats keys w' := by
  obtain ⟨x, w', hx, hgives, hrepeats⟩ := h.ask hk
  rw [hd.unique hx]
  exact ⟨w', hgives, hrepeats⟩

/-- Nothing but cells and the answers of the registry matters to digests. -/
theorem Repeats.congr (h : w.Repeats keys w₁) (hcells : w'.cells = w₁.cells)
    (hlooked : ∀ k, ModuleKey.looked w' k = ModuleKey.looked w₁ k) : w.Repeats keys w' := by
  have hsame (k : ModuleKey) (d : Digest) : k.HasDigest w' d ↔ k.HasDigest w₁ d :=
    ModuleKey.hasDigest_congr hcells (hlooked k)
  refine ⟨⟨fun k hk cell hcell => ?_, fun k hk => ?_, h.resolves.apart⟩, fun k hk d => ?_⟩
  · rw [hcells]
    exact h.resolves.there k hk cell hcell
  · obtain ⟨d, hd⟩ := h.resolves.answered k hk
    exact ⟨d, (hsame k d).2 hd⟩
  · exact (h.same k hk d).trans (hsame k d).symm

/-- Keys give their digests in turn. -/
theorem Resolves.digests (h : w.Resolves keys) {deps : List (ModuleKey × Digest)}
    (hdeps : ∀ dep ∈ deps, dep.1 ∈ keys ∧ dep.1.HasDigest w dep.2) :
    ∃ w', ((deps.map Prod.fst).mapM ModuleKey.resolveDigest).Gives w (deps.map Prod.snd) w' ∧
      w.Repeats keys w' := by
  induction deps generalizing w with
  | nil => exact ⟨w, Act.gives_pure.2 ⟨rfl, rfl⟩, h.refl⟩
  | cons dep deps ih =>
    obtain ⟨⟨hin, hd⟩, hdeps⟩ := List.forall_mem_cons.1 hdeps
    obtain ⟨w₁, hgives, hrepeats⟩ := h.gives hin hd
    obtain ⟨w₂, hrest, hrepeats'⟩ := ih hrepeats.resolves fun other hother =>
      ⟨(hdeps other hother).1, (hrepeats.same _ (hdeps other hother).1 _).1 (hdeps other hother).2⟩
    refine ⟨w₂, ?_, hrepeats.trans hrepeats'⟩
    rw [List.map_cons, List.map_cons, List.mapM_cons]
    exact Act.gives_bind.2 ⟨dep.2, w₁, hgives, Act.gives_bind.2
      ⟨_, w₂, hrest, Act.gives_pure.2 ⟨rfl, rfl⟩⟩⟩

end World

/-! ### Operations that leave a later world -/

namespace Act

variable {α β : Type}

/-- Whether an operation leaves a later world when it gives an answer. -/
def Later (act : Act α) : Prop := ∀ w a w', act.Gives w a w' → w.Before w'

theorem later_pure (a : α) : (pure a : Act α).Later := by
  intro w b w' h
  obtain ⟨_, rfl⟩ := gives_pure.1 h
  exact .refl w

theorem later_ofWorld (f : World → Except Module.Error α) : (ofWorld f).Later := by
  intro w a w' h
  obtain ⟨_, rfl⟩ := gives_ofWorld.1 h
  exact .refl w

theorem Later.bind {x : Act α} {f : α → Act β} (hx : x.Later) (hf : ∀ a, (f a).Later) :
    (x >>= f).Later := by
  intro w b w' h
  obtain ⟨a, w₁, ha, hb⟩ := gives_bind.1 h
  exact (hx w a w₁ ha).trans (hf a w₁ b w' hb)

/-- Along steps that each leave a later world, every answer is given in between. -/
theorem gives_mapM_between {f : α → Act β} {xs : List α} {ys : List β}
    (hf : ∀ x ∈ xs, (f x).Later)
    (h : (xs.mapM f).Gives w ys w') :
    w.Before w' ∧ List.Forall₂
      (fun x y => ∃ w₁ w₂, w.Before w₁ ∧ (f x).Gives w₁ y w₂ ∧ w₂.Before w') xs ys := by
  induction xs generalizing w ys with
  | nil =>
    obtain ⟨rfl, rfl⟩ := gives_pure.1 h
    exact ⟨.refl _, .nil⟩
  | cons x xs ih =>
    obtain ⟨hx, hxs⟩ := List.forall_mem_cons.1 hf
    rw [List.mapM_cons] at h
    obtain ⟨y, w₁, hy, h⟩ := gives_bind.1 h
    obtain ⟨rest, w₂, hrest, h⟩ := gives_bind.1 h
    obtain ⟨rfl, rfl⟩ := gives_pure.1 h
    have hbefore := hx _ _ _ hy
    obtain ⟨hbefore', hall⟩ := ih hxs hrest
    refine ⟨hbefore.trans hbefore', .cons ⟨w, w₁, .refl w, hy, hbefore'⟩ ?_⟩
    exact hall.imp fun _ _ ⟨v, v', hv, hgives, hv'⟩ => ⟨v, v', hbefore.trans hv, hgives, hv'⟩

theorem later_mapM {f : α → Act β} (hf : ∀ x, (f x).Later) (xs : List α) : (xs.mapM f).Later := by
  intro w ys w' h
  exact (gives_mapM_between (fun x _ => hf x) h).1

theorem later_forIn {f : α → β → Act (ForInStep β)} (hf : ∀ x b, (f x b).Later) (xs : List α)
    (b : β) : (forIn xs b f).Later := by
  induction xs generalizing b with
  | nil => exact later_pure b
  | cons x xs ih =>
    rw [List.forIn_cons]
    refine (hf x b).bind fun step => ?_
    cases step with
    | done b => exact later_pure b
    | yield b => exact ih b

/-! ### Operations that change the cells alone -/

/-- Whether an operation changes the cells alone, also when it fails, and leaves a later world. -/
def Quiet (act : Act α) : Prop :=
  ∀ w, w.Before (act.run w).2 ∧ ∃ cells, (act.run w).2 = { w with cells := cells }

theorem quiet_of_same {act : Act α} (h : ∀ w, (act.run w).2 = w) : act.Quiet := by
  intro w
  rw [h w]
  exact ⟨.refl w, w.cells, rfl⟩

theorem quiet_ofExcept (x : Except Module.Error α) : (ofExcept x).Quiet :=
  quiet_of_same fun _ => rfl

theorem quiet_ofWorld (f : World → Except Module.Error α) : (ofWorld f).Quiet :=
  quiet_of_same fun _ => rfl

theorem Quiet.bind {x : Act α} {f : α → Act β} (hx : x.Quiet) (hf : ∀ a, (f a).Quiet) :
    (x >>= f).Quiet := by
  intro w
  obtain ⟨hbefore, cells, hcells⟩ := hx w
  cases hrun : x.run w with
  | mk outcome w₁ =>
    rw [hrun] at hbefore hcells
    cases outcome with
    | error e =>
      rw [run_bind_error hrun]
      exact ⟨hbefore, cells, hcells⟩
    | ok a =>
      obtain ⟨hbefore', cells', hcells'⟩ := hf a w₁
      rw [run_bind hrun, hcells']
      rw [hcells'] at hbefore'
      refine ⟨hbefore.trans hbefore', cells', ?_⟩
      rw [show w₁ = { w with cells := cells } from hcells]

theorem quiet_mapM {f : α → Act β} (hf : ∀ x, (f x).Quiet) (xs : List α) : (xs.mapM f).Quiet := by
  induction xs with
  | nil => exact quiet_of_same fun _ => rfl
  | cons x xs ih =>
    rw [List.mapM_cons]
    exact (hf x).bind fun _ => ih.bind fun _ => quiet_of_same fun _ => rfl

theorem Quiet.gives {act : Act α} {a : α} (h : act.Quiet) (hgives : act.Gives w a w') :
    w.Before w' ∧ ∃ cells, w' = { w with cells := cells } := by
  have hw := h w
  rwa [show act.run w = _ from hgives] at hw

/-- Along steps that change the cells alone, every answer is given where all but the cells is as in
the end. -/
theorem gives_mapM_quiet {f : α → Act β} {xs : List α} {ys : List β} (hf : ∀ x, (f x).Quiet)
    (h : (xs.mapM f).Gives w ys w') :
    List.Forall₂ (fun x y => ∃ w₁ w₂, (f x).Gives w₁ y w₂ ∧ ∃ cells, w' = { w₂ with cells })
      xs ys := by
  induction xs generalizing w ys with
  | nil =>
    obtain ⟨rfl, _⟩ := gives_pure.1 h
    exact .nil
  | cons x xs ih =>
    rw [List.mapM_cons] at h
    obtain ⟨y, w₁, hy, h⟩ := gives_bind.1 h
    obtain ⟨rest, w₂, hrest, h⟩ := gives_bind.1 h
    obtain ⟨rfl, rfl⟩ := gives_pure.1 h
    exact .cons ⟨w, w₁, hy, ((quiet_mapM hf xs).gives hrest).2⟩ (ih hrest)

end Act

theorem ModuleKey.quiet_resolveDigest (k : ModuleKey) : k.resolveDigest.Quiet :=
  run_resolveDigest k

theorem ModuleKey.later_resolveDigest (k : ModuleKey) : k.resolveDigest.Later :=
  fun _ _ _ => before_of_gives

end Schemata

import Mathlib.Data.List.Forall2
import Schemata.World

/-!
# What operations in the world give

An operation gives an answer when it does not fail. What a sequence of steps gives is what each
step gives in the world that the steps before it left.
-/

namespace Schemata.Act

variable {α β : Type} {w w' : World}

/-- Whether an operation in a world gives an answer and leaves another world. -/
def Gives (act : Act α) (w : World) (a : α) (w' : World) : Prop := act.run w = (.ok a, w')

theorem gives_pure {a b : α} : (pure a : Act α).Gives w b w' ↔ a = b ∧ w = w' := by
  constructor
  · intro h
    cases h
    exact ⟨rfl, rfl⟩
  · rintro ⟨rfl, rfl⟩
    rfl

theorem not_gives_throw {e : Module.Error} {a : α} : ¬ (throw e : Act α).Gives w a w' := by
  intro h
  cases h

theorem gives_bind {x : Act α} {f : α → Act β} {b : β} :
    (x >>= f).Gives w b w' ↔ ∃ a w₁, x.Gives w a w₁ ∧ (f a).Gives w₁ b w' := by
  have hbind : (x >>= f).run w = ExceptT.bindCont f (x.run w).1 (x.run w).2 := rfl
  unfold Gives
  rw [hbind]
  obtain ⟨outcome, w₁⟩ := x.run w
  cases outcome with
  | error e =>
    constructor
    · intro h
      cases h
    · rintro ⟨_, _, h, _⟩
      cases h
  | ok a =>
    constructor
    · exact fun h => ⟨a, w₁, rfl, h⟩
    · rintro ⟨_, _, h, h'⟩
      cases h
      exact h'

/-- After a step that gives an answer the next step runs on it. -/
theorem run_bind {x : Act α} {a : α} (h : x.Gives w a w') (f : α → Act β) :
    (x >>= f).run w = (f a).run w' := by
  have hbind : (x >>= f).run w = ExceptT.bindCont f (x.run w).1 (x.run w).2 := rfl
  rw [hbind, h]
  rfl

/-- After a step that fails no other step runs. -/
theorem run_bind_error {x : Act α} {e : Module.Error} (h : x.run w = (.error e, w'))
    (f : α → Act β) : (x >>= f).run w = (.error e, w') := by
  have hbind : (x >>= f).run w = ExceptT.bindCont f (x.run w).1 (x.run w).2 := rfl
  rw [hbind, h]
  rfl

theorem gives_ofExcept {x : Except Module.Error α} {a : α} :
    (ofExcept x).Gives w a w' ↔ x = .ok a ∧ w = w' := by
  constructor
  · intro h
    exact ⟨congrArg Prod.fst h, congrArg Prod.snd h⟩
  · rintro ⟨rfl, rfl⟩
    rfl

theorem gives_ofWorld {f : World → Except Module.Error α} {a : α} :
    (ofWorld f).Gives w a w' ↔ f w = .ok a ∧ w = w' := by
  constructor
  · intro h
    exact ⟨congrArg Prod.fst h, congrArg Prod.snd h⟩
  · rintro ⟨h, rfl⟩
    exact Prod.ext h rfl

theorem gives_checkLive (h : w.live = true) : checkLive.Gives w () w := by
  refine gives_ofWorld.2 ⟨?_, rfl⟩
  rw [h]
  rfl

theorem live_of_gives {u : Unit} (h : checkLive.Gives w u w') : w.live = true ∧ w = w' := by
  obtain ⟨hlive, rfl⟩ := gives_ofWorld.1 h
  refine ⟨?_, rfl⟩
  unfold Module.checkLive at hlive
  split at hlive
  · assumption
  · cases hlive

theorem gives_lift {x : StateM World α} {a : α} :
    Gives (ExceptT.lift x) w a w' ↔ x w = (a, w') := by
  constructor
  · intro h
    have hfst := Except.ok.inj (congrArg Prod.fst h)
    have hsnd := congrArg Prod.snd h
    exact Prod.ext hfst hsnd
  · intro h
    show ((.ok (x w).1 : Except Module.Error α), (x w).2) = _
    rw [h]

theorem gives_mapM {f : α → Act β} {xs : List α} {ys : List β} (h : (xs.mapM f).Gives w ys w') :
    List.Forall₂ (fun x y => ∃ w₁ w₂, (f x).Gives w₁ y w₂) xs ys := by
  induction xs generalizing w ys w' with
  | nil =>
    obtain ⟨rfl, _⟩ := gives_pure.1 h
    exact .nil
  | cons x xs ih =>
    rw [List.mapM_cons] at h
    obtain ⟨y, w₁, hy, h⟩ := gives_bind.1 h
    obtain ⟨rest, w₂, hrest, h⟩ := gives_bind.1 h
    obtain ⟨rfl, _⟩ := gives_pure.1 h
    exact .cons ⟨w, w₁, hy⟩ (ih hrest)

end Schemata.Act

import Mathlib.Data.List.Forall2

/-!
# Answers in a row

When a chain of answers succeeds, and what it gives then.
-/

namespace Schemata

variable {ε α β : Type}

theorem bind_eq_ok {x : Except ε α} {f : α → Except ε β} {b : β} :
    (x >>= f) = .ok b ↔ ∃ a, x = .ok a ∧ f a = .ok b := by
  cases x with
  | error e => simp [bind, Except.bind]
  | ok a => simp [bind, Except.bind]

theorem mapError_eq_ok {ε' : Type} {x : Except ε α} {f : ε → ε'} {a : α} :
    x.mapError f = .ok a ↔ x = .ok a := by
  cases x with
  | error e => simp [Except.mapError]
  | ok b => simp [Except.mapError]

theorem map_eq_ok {x : Except ε α} {f : α → β} {b : β} :
    x.map f = .ok b ↔ ∃ a, x = .ok a ∧ f a = b := by
  cases x with
  | error e => simp [Except.map]
  | ok a => simp [Except.map]

theorem toOption_eq_some {x : Except ε α} {a : α} : x.toOption = some a ↔ x = .ok a := by
  cases x with
  | error e => simp [Except.toOption]
  | ok b => simp [Except.toOption]

theorem mapM_eq_ok {f : α → Except ε β} {xs : List α} {ys : List β} :
    xs.mapM f = .ok ys ↔ List.Forall₂ (fun x y => f x = .ok y) xs ys := by
  induction xs generalizing ys with
  | nil => simp [pure, Except.pure, eq_comm]
  | cons x xs ih =>
    rw [List.mapM_cons, bind_eq_ok]
    constructor
    · rintro ⟨y, hy, hys⟩
      obtain ⟨zs, hzs, hcons⟩ := bind_eq_ok.1 hys
      cases hcons
      exact .cons hy (ih.1 hzs)
    · rintro (_ | ⟨hy, hys⟩)
      exact ⟨_, hy, bind_eq_ok.2 ⟨_, ih.2 hys, rfl⟩⟩

theorem exists_of_forall₂ {r : α → β → Prop} {xs : List α} {ys : List β}
    (h : List.Forall₂ r xs ys) {y : β} (hy : y ∈ ys) : ∃ x ∈ xs, r x y := by
  induction h with
  | nil => cases hy
  | @cons x y' xs ys hxy _ ih =>
    rcases List.mem_cons.1 hy with rfl | hy
    · exact ⟨x, List.mem_cons_self, hxy⟩
    · obtain ⟨x', hx', hxy'⟩ := ih hy
      exact ⟨x', List.mem_cons_of_mem _ hx', hxy'⟩

theorem exists_of_mapM {f : α → Option β} {xs : List α} {ys : List β} (h : xs.mapM f = some ys)
    {y : β} (hy : y ∈ ys) : ∃ x ∈ xs, f x = some y := by
  induction xs generalizing ys with
  | nil =>
    cases h
    exact absurd hy List.not_mem_nil
  | cons x xs ih =>
    simp only [List.mapM_cons, Option.bind_eq_bind, Option.bind_eq_some_iff] at h
    obtain ⟨y', hy', rest, hrest, heq⟩ := h
    cases heq
    rcases List.mem_cons.1 hy with rfl | hy
    · exact ⟨x, List.mem_cons_self, hy'⟩
    · obtain ⟨x', hx', hxy'⟩ := ih hrest hy
      exact ⟨x', List.mem_cons_of_mem _ hx', hxy'⟩

theorem exists_mapM_eq_ok {f : α → Except ε β} {xs : List α}
    (h : ∀ x ∈ xs, ∃ y, f x = .ok y) : ∃ ys, xs.mapM f = .ok ys := by
  induction xs with
  | nil => exact ⟨[], rfl⟩
  | cons x xs ih =>
    obtain ⟨y, hy⟩ := h x List.mem_cons_self
    obtain ⟨ys, hys⟩ := ih fun z hz => h z (List.mem_cons_of_mem _ hz)
    exact ⟨y :: ys, mapM_eq_ok.2 (.cons hy (mapM_eq_ok.1 hys))⟩

theorem map_eq_of_forall₂ {γ : Type} {r : α → β → Prop} {f : α → γ} {g : β → γ} {xs : List α}
    {ys : List β} (h : List.Forall₂ r xs ys) (hr : ∀ x y, r x y → f x = g y) :
    xs.map f = ys.map g := by
  induction h with
  | nil => rfl
  | cons hxy _ ih => exact congrArg₂ List.cons (hr _ _ hxy) ih

theorem map_eq_of_mapM {γ : Type} {f : α → Except ε β} {g : α → γ} {g' : β → γ} {xs : List α}
    {ys : List β} (h : xs.mapM f = .ok ys) (hg : ∀ x y, f x = .ok y → g' y = g x) :
    ys.map g' = xs.map g :=
  map_eq_of_forall₂ (mapM_eq_ok.1 h).flip fun y x hxy => hg x y hxy

theorem exists_of_mem_mapM {f : α → Except ε β} {xs : List α} {ys : List β}
    (h : xs.mapM f = .ok ys) {x : α} (hx : x ∈ xs) : ∃ y ∈ ys, f x = .ok y := by
  obtain ⟨y, hy, hxy⟩ := exists_of_forall₂ (mapM_eq_ok.1 h).flip hx
  exact ⟨y, hy, hxy⟩

/-- Answers in a row are a list of pairs, if each is the pair under its key. -/
theorem mapM_eq_ok_of_keys {κ : Type} {f : α → Except ε (κ × β)} {key : α → κ} {xs : List α}
    {es : List (κ × β)} (hkeys : xs.map key = es.map Prod.fst)
    (h : ∀ x ∈ xs, ∀ e ∈ es, key x = e.1 → f x = .ok e) : xs.mapM f = .ok es := by
  refine mapM_eq_ok.2 ?_
  induction es generalizing xs with
  | nil =>
    rw [List.map_eq_nil_iff.1 hkeys]
    exact .nil
  | cons e es ih =>
    cases xs with
    | nil => cases hkeys
    | cons x xs =>
      obtain ⟨hkey, hkeys⟩ := List.cons.inj hkeys
      refine .cons (h x List.mem_cons_self e List.mem_cons_self hkey) (ih hkeys ?_)
      exact fun y hy e' he' =>
        h y (List.mem_cons_of_mem _ hy) e' (List.mem_cons_of_mem _ he')

theorem forall₂_of_mapM {γ : Type} {f : α → Except ε β} {g : α → Option γ}
    {r : β → γ → Prop} {xs : List α} {ys : List β} (h : xs.mapM f = .ok ys)
    (hr : ∀ x y, f x = .ok y → ∃ z, g x = some z ∧ r y z) :
    ∃ zs, xs.mapM g = some zs ∧ List.Forall₂ r ys zs := by
  have hall := mapM_eq_ok.1 h
  induction hall with
  | nil => exact ⟨[], rfl, .nil⟩
  | @cons x y xs ys hxy hrest ih =>
    obtain ⟨z, hz, hyz⟩ := hr x y hxy
    obtain ⟨zs, hzs, hall⟩ := ih (mapM_eq_ok.2 hrest)
    exact ⟨z :: zs, by rw [List.mapM_cons, hz, hzs]; rfl, .cons hyz hall⟩

/-! ### Lists in step -/

theorem forall₂_zip {γ δ : Type} {r : α → β → Prop} {q : δ → γ → Prop} {f : α × β → δ}
    {xs : List α} {ys : List β} {zs : List γ} (h : List.Forall₂ r xs ys)
    (h' : List.Forall₂ q ((xs.zip ys).map f) zs) :
    List.Forall₂ (fun x z => ∃ y, r x y ∧ q (f (x, y)) z) xs zs := by
  induction h generalizing zs with
  | nil =>
    cases h'
    exact .nil
  | @cons x y xs ys hxy _ ih =>
    rw [List.zip_cons_cons, List.map_cons] at h'
    cases h' with
    | cons hz hrest => exact .cons ⟨y, hxy, hz⟩ (ih hrest)

theorem forall₂_zip_left {γ : Type} {p : α → γ → Prop} {q : β → γ → Prop} {xs : List α}
    {ys : List β} {zs : List γ} (h : List.Forall₂ p xs zs) (h' : List.Forall₂ q ys zs) :
    List.Forall₂ (fun x z => p x.1 z ∧ q x.2 z) (xs.zip ys) zs := by
  induction h generalizing ys with
  | nil =>
    cases h'
    exact .nil
  | cons hxz _ ih =>
    cases h' with
    | cons hyz hrest => exact .cons ⟨hxz, hyz⟩ (ih hrest)

theorem forall₂_trans {γ : Type} {p : α → β → Prop} {q : α → γ → Prop} {xs : List α}
    {ys : List β} {zs : List γ} (h : List.Forall₂ p xs ys) (h' : List.Forall₂ q xs zs) :
    List.Forall₂ (fun z y => ∃ x ∈ xs, q x z ∧ p x y) zs ys := by
  induction h generalizing zs with
  | nil =>
    cases h'
    exact .nil
  | @cons x y xs ys hxy _ ih =>
    cases h' with
    | cons hxz hrest =>
      refine .cons ⟨x, List.mem_cons_self, hxz, hxy⟩ ?_
      exact (ih hrest).imp fun _ _ ⟨x', hx', hq, hp⟩ => ⟨x', List.mem_cons_of_mem _ hx', hq, hp⟩

end Schemata

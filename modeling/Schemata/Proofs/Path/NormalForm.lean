import Mathlib.Data.List.Infix
import Schemata.Proofs.Path

/-!
# The normal form of a path

A path is read as steps: a name goes down and `..` goes back. It has a normal form just if it starts
from where it is read and no beginning of it goes back more often than down. The normal form
holds the names that the steps end below; it is its own normal form, and the normal forms
other than the root are the paths of objects.
-/

namespace Schemata.Path

/-! ### Steps -/

def isSeparator (c : Char) : Bool := c = '/' || c = '\\'

/-- Whether a path starts from a root of its own. -/
def IsAbsolute (p : String) : Prop := ∃ c ∈ p.toList.head?, isSeparator c = true

instance (p : String) : Decidable (IsAbsolute p) :=
  inferInstanceAs (Decidable (∃ c ∈ p.toList.head?, _))

/-- The step back. -/
def parentStep : List Char := ['.', '.']

/-- The components of a path in any spelling, but for those that stay where they are. -/
def steps (p : String) : List (List Char) :=
  (p.toList.splitOnP isSeparator).filter fun c => c ≠ [] ∧ c ≠ ['.']

/-- Whether no beginning of the steps, taken from below that many directories, leaves the root. -/
def StaysInside (depth : Nat) (cs : List (List Char)) : Prop :=
  ∀ first, first <+: cs → first.count parentStep ≤ depth + first.countP (· ≠ parentStep)

instance (depth : Nat) (cs : List (List Char)) : Decidable (StaysInside depth cs) :=
  decidable_of_iff
    (∀ first ∈ cs.inits, first.count parentStep ≤ depth + first.countP (· ≠ parentStep))
    (forall_congr' fun first => by rw [List.mem_inits])

/-- The names above the place that a step leads to. -/
def takeStep (names : List (List Char)) (c : List Char) : List (List Char) :=
  if c = parentStep then names.dropLast else names ++ [c]

/-- The names that the steps lead below, from the root. -/
def takeSteps (cs : List (List Char)) : List (List Char) := cs.foldl takeStep []

variable {cs stack names : List (List Char)} {c : List Char} {depth : Nat} {p q : String}

theorem splitOn_unified (p : String) :
    (unified p).splitOn '/' = p.toList.splitOnP isSeparator := by
  unfold unified
  induction p.toList with
  | nil => rfl
  | cons c cs ih =>
    rw [List.map_cons, List.splitOn_cons_eq_if_modifyHead, List.splitOnP_cons_eq_if_modifyHead, ih]
    by_cases hback : c = '\\'
    · simp [hback, isSeparator]
    · simp [hback, isSeparator]

theorem walk_step (hc : c ≠ [] ∧ c ≠ ['.']) (stack cs : List (List Char)) :
    walk stack (c :: cs) =
      if c = parentStep then
        match stack with
        | [] => none
        | _ :: below => walk below cs
      else walk (c :: stack) cs := by
  simp only [walk]
  exact if_neg fun h => h.elim hc.1 hc.2

theorem walk_stay (hc : c = [] ∨ c = ['.']) (stack cs : List (List Char)) :
    walk stack (c :: cs) = walk stack cs := by
  simp only [walk]
  exact if_pos hc

/-- Components that stay in place make no difference. -/
theorem walk_filter (stack cs : List (List Char)) :
    walk stack (cs.filter fun c => c ≠ [] ∧ c ≠ ['.']) = walk stack cs := by
  induction cs generalizing stack with
  | nil => rfl
  | cons c cs ih =>
    by_cases hc : c ≠ [] ∧ c ≠ ['.']
    · rw [List.filter_cons_of_pos (by simpa using hc), walk_step hc, walk_step hc]
      split
      · cases stack with
        | nil => rfl
        | cons top below => exact ih below
      · exact ih (c :: stack)
    · have hstays : c = [] ∨ c = ['.'] := by
        by_cases hnil : c = []
        · exact .inl hnil
        · exact .inr (by simpa [hnil] using hc)
      rw [List.filter_cons_of_neg (by simpa using hc), ih, walk_stay hstays]

/-! ### Staying inside -/

theorem staysInside_nil (depth : Nat) : StaysInside depth [] := by
  intro first hfirst
  rw [List.prefix_nil.1 hfirst]
  simp

theorem staysInside_name (hc : c ≠ parentStep) :
    StaysInside depth (c :: cs) ↔ StaysInside (depth + 1) cs := by
  constructor
  · intro h first hfirst
    have hcount := h (c :: first) ((List.prefix_cons_inj c).2 hfirst)
    rw [List.count_cons_of_ne hc, List.countP_cons_of_pos (by simpa using hc)] at hcount
    omega
  · intro h first hfirst
    rcases List.prefix_cons_iff.1 hfirst with rfl | ⟨rest, rfl, hrest⟩
    · simp
    · have hcount := h rest hrest
      rw [List.count_cons_of_ne hc, List.countP_cons_of_pos (by simpa using hc)]
      omega

theorem staysInside_parent :
    StaysInside depth (parentStep :: cs) ↔ 0 < depth ∧ StaysInside (depth - 1) cs := by
  constructor
  · intro h
    have hfirst := h [parentStep] ((List.prefix_cons_inj parentStep).2 List.nil_prefix)
    simp only [List.count_singleton_self, List.countP_singleton, ne_eq, not_true_eq_false,
      decide_false, Bool.false_eq_true, if_false] at hfirst
    refine ⟨by omega, fun first hfirst' => ?_⟩
    have hcount := h (parentStep :: first) ((List.prefix_cons_inj parentStep).2 hfirst')
    rw [List.count_cons_self, List.countP_cons_of_neg (by simp)] at hcount
    omega
  · rintro ⟨hdepth, h⟩ first hfirst
    rcases List.prefix_cons_iff.1 hfirst with rfl | ⟨rest, rfl, hrest⟩
    · simp
    · have hcount := h rest hrest
      rw [List.count_cons_self, List.countP_cons_of_neg (by simp)]
      omega

/-- The walk ends where the steps lead, unless they leave the root. -/
theorem walk_eq (hcs : ∀ c ∈ cs, c ≠ [] ∧ c ≠ ['.']) (stack : List (List Char)) :
    walk stack cs =
      if StaysInside stack.length cs then some (cs.foldl takeStep stack.reverse) else none := by
  induction cs generalizing stack with
  | nil => rw [if_pos (staysInside_nil _), walk, List.foldl_nil]
  | cons c cs ih =>
    obtain ⟨hc, hrest⟩ := List.forall_mem_cons.1 hcs
    rw [walk_step hc, List.foldl_cons]
    by_cases hup : c = parentStep
    · subst hup
      cases stack with
      | nil => simp [staysInside_parent]
      | cons top below =>
        have hbelow : takeStep (top :: below).reverse parentStep = below.reverse := by
          simp [takeStep]
        rw [if_pos rfl, hbelow]
        simp [staysInside_parent, ih hrest]
    · have hdown : takeStep stack.reverse c = (c :: stack).reverse := by
        simp [takeStep, hup]
      simp [staysInside_name hup, hup, hdown, ih hrest]

/-! ### The normal form -/

theorem isStep_of_mem_steps (hc : c ∈ steps p) : c ≠ [] ∧ c ≠ ['.'] := by
  simpa using (List.mem_filter.1 hc).2

theorem isAbsolute_iff (p : String) : IsAbsolute p ↔ ∃ rest, unified p = '/' :: rest := by
  unfold IsAbsolute unified
  cases p.toList with
  | nil => simp
  | cons c cs =>
    by_cases hback : c = '\\'
    · simp [hback, isSeparator]
    · simp [hback, isSeparator]

/-- The normal form of every path, or why it has none. -/
theorem normalize_eq (p : String) :
    normalize p =
      if p = "" then .error .empty
      else if IsAbsolute p then .error (.absolute p)
      else if StaysInside 0 (steps p) then .ok (ofComponents (takeSteps (steps p)))
      else .error (.escapesRoot p) := by
  have hwalk : walk [] ((unified p).splitOn '/') =
      if StaysInside 0 (steps p) then some (takeSteps (steps p)) else none := by
    rw [splitOn_unified, ← walk_filter]
    exact walk_eq (fun c hc => isStep_of_mem_steps hc) []
  unfold normalize
  split
  · rename_i hnil
    have hempty : p = "" := String.toList_eq_nil_iff.1 (List.map_eq_nil_iff.1 hnil)
    rw [if_pos hempty]
  · rename_i rest hcons
    have hne : p ≠ "" := by
      rintro rfl
      cases hcons
    rw [if_neg hne, if_pos ((isAbsolute_iff p).2 ⟨rest, hcons⟩)]
  · rename_i hnil hcons
    have hne : p ≠ "" := by
      rintro rfl
      exact hnil rfl
    have hrelative : ¬IsAbsolute p := by
      intro h
      obtain ⟨rest, hrest⟩ := (isAbsolute_iff p).1 h
      exact hcons rest hrest
    rw [if_neg hne, if_neg hrelative, hwalk]
    by_cases h : StaysInside 0 (steps p)
    · rw [if_pos h, if_pos h]
    · rw [if_neg h, if_neg h]

theorem normalize_eq_ok :
    normalize p = .ok q ↔
      (p ≠ "" ∧ ¬IsAbsolute p ∧ StaysInside 0 (steps p)) ∧
        q = ofComponents (takeSteps (steps p)) := by
  rw [normalize_eq]
  by_cases hempty : p = ""
  · simp [hempty]
  by_cases habsolute : IsAbsolute p
  · simp [hempty, habsolute]
  by_cases hinside : StaysInside 0 (steps p)
  · simp [hempty, habsolute, hinside, eq_comm]
  · simp [hempty, habsolute, hinside]

theorem IsNormal.cases (h : IsNormal q) :
    q = "." ∨ ∃ names, names ≠ [] ∧ (∀ c ∈ names, IsName c) ∧
      q.toList = List.intercalate ['/'] names := by
  by_cases hq : q = "."
  · exact .inl hq
  · refine .inr ⟨components q, fun hnil => hq (components_eq_nil.1 hnil), h, ?_⟩
    rw [components_of_ne hq, List.intercalate_splitOn]

/-- A path has a normal form just if it is relative and stays inside; the form says where its
steps lead, in names alone, and is its own. The normal forms but for the root are what is
accepted as the path of an object. -/
theorem normalize_canonical (p : String) :
    ((∃ q, normalize p = .ok q) ↔
        p ≠ "" ∧ ¬IsAbsolute p ∧ StaysInside 0 (steps p)) ∧
      (∀ q, normalize p = .ok q →
        q = ofComponents (takeSteps (steps p)) ∧
          (q = "." ∨ ∃ names, names ≠ [] ∧ (∀ c ∈ names, IsName c) ∧
            q.toList = List.intercalate ['/'] names) ∧
          normalize q = .ok q) ∧
      (validateObject p = .ok () ↔ p ≠ "." ∧ ∃ s, normalize s = .ok p) := by
  refine ⟨?_, ?_, ?_⟩
  · constructor
    · rintro ⟨q, h⟩
      exact (normalize_eq_ok.1 h).1
    · intro h
      exact ⟨_, normalize_eq_ok.2 ⟨h, rfl⟩⟩
  · intro q h
    have hnormal := isNormal_of_normalize h
    exact ⟨(normalize_eq_ok.1 h).2, hnormal.cases, hnormal.normalize_eq⟩
  · rw [validateObject_eq_ok]
    constructor
    · rintro ⟨hnormal, hroot⟩
      exact ⟨hroot, p, hnormal.normalize_eq⟩
    · rintro ⟨hroot, s, h⟩
      exact ⟨isNormal_of_normalize h, hroot⟩

example : normalize "a/../.." = .error (.escapesRoot "a/../..") := by decide

theorem normalize_canonical_mixed :
    normalize "a\\.//b/..\\c" = .ok "a/c" ∧ normalize "a/c" = .ok "a/c" ∧
      StaysInside 0 (steps "a\\.//b/..\\c") ∧
      "a/c" = ofComponents (takeSteps (steps "a\\.//b/..\\c")) := by
  have h : normalize "a\\.//b/..\\c" = .ok "a/c" := by decide
  obtain ⟨hsucceeds, hform, _⟩ := normalize_canonical "a\\.//b/..\\c"
  obtain ⟨hplace, _, hagain⟩ := hform _ h
  exact ⟨h, hagain, (hsucceeds.1 ⟨_, h⟩).2.2, hplace⟩

end Schemata.Path

import Mathlib.Data.List.Basic
import Schemata.Memo

/-!
# A cell is computed once

What happens to a cell while one thread uses it is a list of moments: computations start, calls
return, and somebody looks. A computation may ask its own cell, so the moments of a call enclose
those of its computation. Each moment is one of few steps, and a run of steps is enough to count the
computations and to see that a settled cell stays as it is.
-/

namespace Schemata.MemoCell

variable {ε α : Type}

/-! ### What happens to a cell -/

inductive Event (ε α : Type)
  /-- The computation of a call is started. -/
  | started
  /-- A call returns with an answer, or without one since its computation is abandoned. -/
  | returned (answer : Option (Except ε α))
  /-- Somebody looks for the outcome. -/
  | peeked (seen : Option (Except ε α))
  /-- Somebody looks whether the cell has settled. -/
  | looked (settled : Bool)

/-- Something that happens to a cell, inside so many computations. -/
structure Moment (ε α : Type) where
  depth : Nat
  before : MemoCell ε α
  event : Event ε α
  after : MemoCell ε α

/-- What happens in a call, given what happens in its computation. -/
def momentsOfCall (refusal : ε) (depth : Nat) (inner : Attempt ε α)
    (inside : MemoCell ε α → List (Moment ε α)) (cell : MemoCell ε α) : List (Moment ε α) :=
  let result := ask refusal inner cell
  match cell.memo.answer? refusal with
  | some _ => [⟨depth, cell, .returned result.1, result.2⟩]
  | none =>
    let begun : MemoCell ε α := ⟨.resolving, cell.started + 1⟩
    ⟨depth, cell, .started, begun⟩ ::
      (inside begun ++ [⟨depth, (work refusal inner begun).2, .returned result.1, result.2⟩])

/-- What happens to a cell in a computation, in order. A thread that uses the cell does the same as
a computation, but inside none. -/
def moments (refusal : ε) : Nat → Attempt ε α → MemoCell ε α → List (Moment ε α)
  | _, .succeed _, _ => []
  | _, .fail _, _ => []
  | _, .abandon, _ => []
  | depth, .peek next, cell =>
    ⟨depth, cell, .peeked cell.memo.peek, cell⟩ ::
      moments refusal depth (next cell.memo.peek) cell
  | depth, .look next, cell =>
    ⟨depth, cell, .looked cell.memo.isSettled, cell⟩ ::
      moments refusal depth (next cell.memo.isSettled) cell
  | depth, .call inner next, cell =>
    let result := ask refusal inner cell
    momentsOfCall refusal depth inner (moments refusal (depth + 1) inner) cell ++
      moments refusal depth (next result.1) result.2

/-! ### Steps and runs -/

/-- What can happen. Outside all computations a cell is computed when it is unresolved, and answers
when it has settled; inside one it refuses to answer. -/
inductive Step (refusal : ε) : Moment ε α → Prop
  | start {cell : MemoCell ε α} (h : cell.memo = .unresolved) :
      Step refusal ⟨0, cell, .started, ⟨.resolving, cell.started + 1⟩⟩
  | settle {cell : MemoCell ε α} (h : cell.memo = .resolving) (outcome : Except ε α) :
      Step refusal ⟨0, cell, .returned (some outcome), ⟨.settled outcome, cell.started⟩⟩
  | abandon {cell : MemoCell ε α} (h : cell.memo = .resolving) :
      Step refusal ⟨0, cell, .returned none, ⟨.unresolved, cell.started⟩⟩
  | answer {cell : MemoCell ε α} {outcome : Except ε α} (h : cell.memo = .settled outcome) :
      Step refusal ⟨0, cell, .returned (some outcome), cell⟩
  | refuse {depth : Nat} {cell : MemoCell ε α} (h : cell.memo = .resolving) :
      Step refusal ⟨depth + 1, cell, .returned (some (.error refusal)), cell⟩
  | peek {depth : Nat} {cell : MemoCell ε α} (h : cell.memo = .resolving ↔ 0 < depth) :
      Step refusal ⟨depth, cell, .peeked cell.memo.peek, cell⟩
  | look {depth : Nat} {cell : MemoCell ε α} (h : cell.memo = .resolving ↔ 0 < depth) :
      Step refusal ⟨depth, cell, .looked cell.memo.isSettled, cell⟩

/-- Whether moments follow on each other from one cell to another. -/
inductive Run (refusal : ε) : MemoCell ε α → List (Moment ε α) → MemoCell ε α → Prop
  | nil (cell : MemoCell ε α) : Run refusal cell [] cell
  | cons {m : Moment ε α} {ms : List (Moment ε α)} {last : MemoCell ε α} (h : Step refusal m)
      (hrest : Run refusal m.after ms last) : Run refusal m.before (m :: ms) last

variable {refusal : ε} {first last cell : MemoCell ε α} {ms ms' : List (Moment ε α)}
  {m : Moment ε α}

theorem Run.append {middle : MemoCell ε α} (h : Run refusal first ms middle)
    (h' : Run refusal middle ms' last) : Run refusal first (ms ++ ms') last := by
  induction h with
  | nil => exact h'
  | cons hstep _ ih => exact .cons hstep (ih h')

theorem Run.cut (h : Run refusal first (ms ++ m :: ms') last) :
    Run refusal first (ms ++ [m]) m.after ∧ Step refusal m ∧ Run refusal m.after ms' last := by
  induction ms generalizing first with
  | nil =>
    cases h with
    | cons hstep hrest => exact ⟨.cons hstep (.nil _), hstep, hrest⟩
  | cons m' ms ih =>
    cases h with
    | cons hstep hrest =>
      obtain ⟨hbefore, hmiddle, hafter⟩ := ih hrest
      exact ⟨.cons hstep hbefore, hmiddle, hafter⟩

/-! ### Calls -/

section Calls

variable {attempt : Attempt ε α} {outcome : Except ε α} {after : MemoCell ε α}

theorem ask_of_answer (h : cell.memo.answer? refusal = some outcome) :
    ask refusal attempt cell = (some outcome, cell) := by
  rw [ask, askWith, h]

theorem ask_of_outcome (h : cell.memo.answer? refusal = none)
    (hwork : work refusal attempt ⟨.resolving, cell.started + 1⟩ = (some outcome, after)) :
    ask refusal attempt cell = (some outcome, ⟨.settled outcome, after.started⟩) := by
  rw [ask, askWith, h]
  simp only [hwork]

theorem ask_of_abandoned (h : cell.memo.answer? refusal = none)
    (hwork : work refusal attempt ⟨.resolving, cell.started + 1⟩ = (none, after)) :
    ask refusal attempt cell = (none, ⟨.unresolved, after.started⟩) := by
  rw [ask, askWith, h]
  simp only [hwork]

theorem momentsOfCall_of_unresolved {depth : Nat}
    {inside : MemoCell ε α → List (Moment ε α)} (h : cell.memo = .unresolved) :
    momentsOfCall refusal depth attempt inside cell =
      ⟨depth, cell, .started, ⟨.resolving, cell.started + 1⟩⟩ ::
        (inside ⟨.resolving, cell.started + 1⟩ ++
          [⟨depth, (work refusal attempt ⟨.resolving, cell.started + 1⟩).2,
            .returned (ask refusal attempt cell).1, (ask refusal attempt cell).2⟩]) := by
  rw [momentsOfCall, h]
  rfl

end Calls

/-- In a computation every call is refused, so nothing happens to the cell. -/
theorem run_inside (refusal : ε) (hcell : cell.memo = .resolving) (attempt : Attempt ε α)
    (depth : Nat) :
    Run refusal cell (moments refusal (depth + 1) attempt cell) cell ∧
      (work refusal attempt cell).2 = cell := by
  induction attempt generalizing depth with
  | succeed value => exact ⟨.nil cell, rfl⟩
  | fail error => exact ⟨.nil cell, rfl⟩
  | abandon => exact ⟨.nil cell, rfl⟩
  | peek next ih =>
    obtain ⟨hrun, hwork⟩ := ih cell.memo.peek depth
    exact ⟨.cons (.peek (iff_of_true hcell depth.succ_pos)) hrun, hwork⟩
  | look next ih =>
    obtain ⟨hrun, hwork⟩ := ih cell.memo.isSettled depth
    exact ⟨.cons (.look (iff_of_true hcell depth.succ_pos)) hrun, hwork⟩
  | call inner next _ ih =>
    have hanswer : cell.memo.answer? refusal = some (.error refusal) := by rw [hcell]; rfl
    have hask : ask refusal inner cell = (some (.error refusal), cell) := ask_of_answer hanswer
    obtain ⟨hrun, hwork⟩ := ih (some (.error refusal)) depth
    constructor
    · rw [moments, momentsOfCall, hanswer, hask]
      exact .cons (.refuse hcell) hrun
    · rw [work]
      rw [ask] at hask
      rw [hask]
      exact hwork

/-- A call outside all computations is a run that leaves no computation behind. -/
theorem run_call (refusal : ε) (hcell : cell.memo ≠ .resolving) (inner : Attempt ε α) :
    Run refusal cell (momentsOfCall refusal 0 inner (moments refusal 1 inner) cell)
        (ask refusal inner cell).2 ∧
      (ask refusal inner cell).2.memo ≠ .resolving := by
  cases hmemo : cell.memo with
  | resolving => exact absurd hmemo hcell
  | settled outcome =>
    have hanswer : cell.memo.answer? refusal = some outcome := by rw [hmemo]; rfl
    rw [momentsOfCall, hanswer, ask_of_answer hanswer]
    exact ⟨.cons (.answer hmemo) (.nil _), hcell⟩
  | unresolved =>
    have hanswer : cell.memo.answer? refusal = none := by rw [hmemo]; rfl
    let begun : MemoCell ε α := ⟨.resolving, cell.started + 1⟩
    have hbegun : begun.memo = .resolving := rfl
    obtain ⟨hrun, hwork⟩ := run_inside refusal hbegun inner 0
    rw [momentsOfCall_of_unresolved hmemo, hwork]
    cases hresult : (work refusal inner begun).1 with
    | none =>
      rw [ask_of_abandoned hanswer (Prod.ext hresult hwork)]
      exact ⟨.cons (.start hmemo) (hrun.append (.cons (.abandon rfl) (.nil _))), nofun⟩
    | some outcome =>
      rw [ask_of_outcome hanswer (Prod.ext hresult hwork)]
      exact ⟨.cons (.start hmemo) (hrun.append (.cons (.settle rfl outcome) (.nil _))), nofun⟩

theorem run_moments (refusal : ε) (hcell : cell.memo ≠ .resolving) (thread : Attempt ε α) :
    Run refusal cell (moments refusal 0 thread cell) (work refusal thread cell).2 := by
  induction thread generalizing cell with
  | succeed value => exact .nil cell
  | fail error => exact .nil cell
  | abandon => exact .nil cell
  | peek next ih =>
    exact .cons (.peek (iff_of_false hcell (Nat.lt_irrefl 0))) (ih cell.memo.peek hcell)
  | look next ih =>
    exact .cons (.look (iff_of_false hcell (Nat.lt_irrefl 0))) (ih cell.memo.isSettled hcell)
  | call inner next _ ih =>
    -- the call leaves no computation behind, so the rest of the thread is outside all of them too
    obtain ⟨hcall, hafter⟩ := run_call refusal hcell inner
    rw [moments, work]
    exact hcall.append (ih _ hafter)

/-! ### What runs keep -/

def Event.isStart : Event ε α → Bool
  | .started => true
  | _ => false

def Event.isAbandonment : Event ε α → Bool
  | .returned none => true
  | _ => false

/-- The number of computations that are started in some moments. -/
def starts (ms : List (Moment ε α)) : Nat := ms.countP fun m => m.event.isStart

/-- The number of computations that are abandoned in some moments. -/
def abandonments (ms : List (Moment ε α)) : Nat := ms.countP fun m => m.event.isAbandonment

/-- One for a cell that is being resolved or has settled. -/
def claimed (cell : MemoCell ε α) : Nat :=
  match cell.memo with
  | .unresolved => 0
  | .resolving => 1
  | .settled _ => 1

/-- Whether an event tells the outcome of a settled cell, or that it has settled. -/
def Event.Tells (outcome : Except ε α) (e : Event ε α) : Prop :=
  e = .returned (some outcome) ∨ e = .peeked (some outcome) ∨ e = .looked true

/-- Whether an event tells that the cell is being resolved. -/
def Event.Refuses (refusal : ε) (e : Event ε α) : Prop :=
  e = .returned (some (.error refusal)) ∨ e = .peeked none ∨ e = .looked false

theorem Step.counts (h : Step refusal m) :
    m.after.started = m.before.started + starts [m] ∧
      starts [m] + claimed m.before = abandonments [m] + claimed m.after := by
  cases h with
  | start h => exact ⟨rfl, by rw [claimed, h]; rfl⟩
  | settle h outcome => exact ⟨rfl, by rw [claimed, h]; rfl⟩
  | abandon h => exact ⟨rfl, by rw [claimed, h]; rfl⟩
  | answer h => exact ⟨rfl, rfl⟩
  | refuse h => exact ⟨rfl, rfl⟩
  | peek h => exact ⟨rfl, rfl⟩
  | look h => exact ⟨rfl, rfl⟩

theorem Step.of_settled (h : Step refusal m) {outcome : Except ε α}
    (hmemo : m.before.memo = .settled outcome) : m.event.Tells outcome ∧ m.after = m.before := by
  cases h with
  | start h => cases h.symm.trans hmemo
  | settle h => cases h.symm.trans hmemo
  | abandon h => cases h.symm.trans hmemo
  | answer h =>
    cases h.symm.trans hmemo
    exact ⟨.inl rfl, rfl⟩
  | refuse h => cases h.symm.trans hmemo
  | peek h => exact ⟨.inr (.inl (by rw [hmemo]; rfl)), rfl⟩
  | look h => exact ⟨.inr (.inr (by rw [hmemo]; rfl)), rfl⟩

theorem Step.of_inside (h : Step refusal m) (hdepth : 0 < m.depth) :
    m.event.Refuses refusal ∧ m.after = m.before := by
  cases h with
  | start h => cases hdepth
  | settle h => cases hdepth
  | abandon h => cases hdepth
  | answer h => cases hdepth
  | refuse h => exact ⟨.inl rfl, rfl⟩
  | peek h => exact ⟨.inr (.inl (by rw [h.2 hdepth]; rfl)), rfl⟩
  | look h => exact ⟨.inr (.inr (by rw [h.2 hdepth]; rfl)), rfl⟩

theorem Step.of_kept (h : Step refusal m) (hdepth : m.depth = 0) (outcome : Except ε α)
    (hevent : m.event = .returned (some outcome)) : m.after.memo = .settled outcome := by
  cases h with
  | settle h => cases hevent; rfl
  | answer h => cases hevent; exact h
  | refuse h => cases hdepth
  | start | abandon | peek | look => cases hevent

theorem Step.of_abandoned (h : Step refusal m) (hevent : m.event = .returned none) :
    m.after.memo = .unresolved := by
  cases h <;> cases hevent
  rfl

theorem Run.counts (h : Run refusal first ms last) :
    last.started = first.started + starts ms ∧
      starts ms + claimed first = abandonments ms + claimed last := by
  induction h with
  | nil => exact ⟨rfl, rfl⟩
  | @cons m ms last hstep _ ih =>
    obtain ⟨hstarted, hclaimed⟩ := hstep.counts
    have hstarts : starts ([m] ++ ms) = starts [m] + starts ms := List.countP_append
    have habandoned : abandonments ([m] ++ ms) = abandonments [m] + abandonments ms :=
      List.countP_append
    rw [List.singleton_append] at hstarts habandoned
    omega

theorem Run.of_settled (h : Run refusal first ms last) {outcome : Except ε α}
    (hmemo : first.memo = .settled outcome) :
    ∀ m ∈ ms, m.event.Tells outcome ∧ m.after = first := by
  induction h with
  | nil => exact List.forall_mem_nil _
  | cons hstep _ ih =>
    obtain ⟨htells, hafter⟩ := hstep.of_settled hmemo
    rw [hafter] at ih
    exact List.forall_mem_cons.2 ⟨⟨htells, hafter⟩, ih hmemo⟩

theorem Run.step_of_mem (h : Run refusal first ms last) : ∀ m ∈ ms, Step refusal m := by
  induction h with
  | nil => exact List.forall_mem_nil _
  | cons hstep _ ih => exact List.forall_mem_cons.2 ⟨hstep, ih⟩

/-! ### Cells that are computed once -/

/-- What holds of everything that happens to a cell, where `made` counts the outcomes that it is
made with. -/
structure ComputedOnce (refusal : ε) (made : Nat) (ms : List (Moment ε α)) : Prop where
  /-- At any moment there are the abandoned computations, and one more if the cell is being
  resolved or has settled. -/
  counted : ∀ {earlier later : List (Moment ε α)} {m : Moment ε α}, ms = earlier ++ m :: later →
    m.after.started = starts (earlier ++ [m]) ∧
      starts (earlier ++ [m]) + made = abandonments (earlier ++ [m]) + claimed m.after
  /-- After a cell has settled, no computation is started and everybody gets its outcome. -/
  settled : ∀ {earlier later : List (Moment ε α)} {m : Moment ε α} {outcome : Except ε α},
    ms = earlier ++ m :: later → m.after.memo = .settled outcome →
      ∀ m' ∈ later, m'.event.Tells outcome ∧ m'.after = m.after
  /-- In a computation no other one is started, and the cell stays as it is. -/
  inside : ∀ m ∈ ms, 0 < m.depth → m.event.Refuses refusal ∧ m.after = m.before
  /-- What a call outside all computations gives is what the cell settles with. -/
  kept : ∀ m ∈ ms, m.depth = 0 → ∀ outcome : Except ε α,
    m.event = .returned (some outcome) → m.after.memo = .settled outcome
  abandoned : ∀ m ∈ ms, m.event = .returned none → m.after.memo = .unresolved

theorem Run.computedOnce (h : Run refusal first ms last) (hfirst : first.started = 0) :
    ComputedOnce refusal (claimed first) ms where
  counted := by
    rintro earlier later m rfl
    obtain ⟨hstarted, hclaimed⟩ := h.cut.1.counts
    exact ⟨by rw [hstarted, hfirst, Nat.zero_add], hclaimed⟩
  settled := by
    rintro earlier later m outcome rfl hmemo
    exact h.cut.2.2.of_settled hmemo
  inside m hm := (h.step_of_mem m hm).of_inside
  kept m hm := (h.step_of_mem m hm).of_kept
  abandoned m hm := (h.step_of_mem m hm).of_abandoned

/-- Whatever a thread does with a cell, the cell is computed once: a new one by the first
computation that is not abandoned, and one that is made with its value by none. -/
theorem computed_once (refusal : ε) (thread : Attempt ε α) :
    ComputedOnce refusal 0 (moments refusal 0 thread new) ∧
      ∀ value : α, ComputedOnce refusal 1 (moments refusal 0 thread (resolved value)) ∧
        ∀ m ∈ moments refusal 0 thread (resolved value),
          m.event.Tells (.ok value) ∧ m.after = resolved value := by
  constructor
  · have hnew : (new : MemoCell ε α).memo ≠ .resolving := by rintro ⟨⟩
    exact (run_moments refusal hnew thread).computedOnce rfl
  · intro value
    have hresolved : (resolved value : MemoCell ε α).memo ≠ .resolving := by rintro ⟨⟩
    have hrun := run_moments refusal hresolved thread
    exact ⟨hrun.computedOnce rfl, hrun.of_settled rfl⟩

/-- A cell that is made with its value has settled without any computation, so the abandoned
computations and one for the settled cell are not the ones that were started. -/
theorem settled_without_start :
    ¬ ∀ (thread : Attempt String Int) (value : Int) (m : Moment String Int),
      moments "refused" 0 thread (resolved value) = [m] →
        m.after.started = abandonments [m] + claimed m.after := by
  intro h
  have hstarted : 0 = 0 + 1 := h (.peek fun _ => .abandon) 7 _ rfl
  cases hstarted

/-- A computation that asks its own cell, ignores the refusal and is abandoned all the same, and one
that comes to a value: two are started. -/
example :
    (work "refused"
      (.call (.call (.succeed 1) fun _ => .abandon) fun _ => .call (.succeed 2) fun _ => .abandon)
      (new : MemoCell String Int)).2 = ⟨.settled (.ok 2), 2⟩ := rfl

end Schemata.MemoCell

/-!
# Values computed at most once

A memo cell is unresolved until somebody asks for its value. The first request runs the
computation; the outcome, a failure as much as a value, then stays for good. A computation that
asks its own cell is refused, and one that is abandoned half-way leaves the cell unresolved.
-/

namespace Schemata

inductive Memo (ε α : Type)
  | unresolved
  | resolving
  | settled (outcome : Except ε α)

instance {ε α : Type} : Inhabited (Memo ε α) := ⟨.unresolved⟩

namespace Memo

variable {ε α : Type}

def isSettled : Memo ε α → Bool
  | .settled _ => true
  | _ => false

/-- The outcome of a settled cell. -/
def peek : Memo ε α → Option (Except ε α)
  | .settled outcome => some outcome
  | _ => none

/-- What a cell answers without a computation: its outcome, or a refusal while it is being
resolved. An unresolved cell has no answer. -/
def answer? (refusal : ε) : Memo ε α → Option (Except ε α)
  | .unresolved => none
  | .resolving => some (.error refusal)
  | .settled outcome => some outcome

def stateName : Memo ε α → String
  | .unresolved => "unresolved"
  | .resolving => "resolving"
  | .settled (.ok _) => "resolved"
  | .settled (.error _) => "failed"

/-- The state as it is shown to a developer. -/
def describe (m : Memo ε α) : String :=
  "Memo \x7b state: \"" ++ m.stateName ++ "\" \x7d"

/-- Asks a cell that is kept in a state: an unresolved cell is marked, its computation run and the
outcome kept. -/
def force {σ : Type} (refusal : ε) (get : σ → Memo ε α) (set : Memo ε α → σ → σ)
    (compute : StateM σ (Except ε α)) : StateM σ (Except ε α) := fun s =>
  match (get s).answer? refusal with
  | some outcome => (outcome, s)
  | none =>
    let (outcome, s) := compute (set .resolving s)
    (outcome, set (.settled outcome) s)

end Memo

/-! ### Computations that ask their own cell -/

/-- What a computation does with the cell it was started for, up to its end. -/
inductive Attempt (ε α : Type)
  /-- It gives a value. -/
  | succeed (value : α)
  /-- It fails. -/
  | fail (error : ε)
  /-- It is abandoned. -/
  | abandon
  /-- It looks for the outcome of the cell and goes on by what it sees. -/
  | peek (next : Option (Except ε α) → Attempt ε α)
  /-- It looks whether the cell has settled. -/
  | look (next : Bool → Attempt ε α)
  /-- It asks the cell, offering another computation, and goes on by the answer. There is none when
  the other computation is abandoned. -/
  | call (inner : Attempt ε α) (next : Option (Except ε α) → Attempt ε α)

namespace Attempt

variable {ε α : Type}

/-- Comes to an outcome. -/
def finish : Except ε α → Attempt ε α
  | .ok value => .succeed value
  | .error error => .fail error

/-- Asks the cell, offering another computation, and gives the answer as its own or, with a
fallback, ignores it. Without an answer it is abandoned too. -/
def ask (inner : Attempt ε α) (fallback : Option α) : Attempt ε α :=
  .call inner fun
    | none => .abandon
    | some outcome => finish ((fallback.map .ok).getD outcome)

end Attempt

/-- A cell, with the number of computations that were started for it. -/
structure MemoCell (ε α : Type) where
  memo : Memo ε α
  started : Nat

namespace MemoCell

variable {ε α : Type}

/-- A cell that nobody has asked yet. -/
def new : MemoCell ε α := ⟨.unresolved, 0⟩

/-- A cell that is made with its value. -/
def resolved (value : α) : MemoCell ε α := ⟨.settled (.ok value), 0⟩

/-- Asks the cell, with what to do in the case that it is unresolved. The outcome of this is kept;
where it has none, the cell is unresolved again. -/
def askWith (refusal : ε) (work : MemoCell ε α → Option (Except ε α) × MemoCell ε α)
    (cell : MemoCell ε α) : Option (Except ε α) × MemoCell ε α :=
  match cell.memo.answer? refusal with
  | some outcome => (some outcome, cell)
  | none =>
    match work ⟨.resolving, cell.started + 1⟩ with
    | (some outcome, after) => (some outcome, ⟨.settled outcome, after.started⟩)
    | (none, after) => (none, ⟨.unresolved, after.started⟩)

/-- Does what a computation does. It has no outcome when it is abandoned. -/
def work (refusal : ε) : Attempt ε α → MemoCell ε α → Option (Except ε α) × MemoCell ε α
  | .succeed value, cell => (some (.ok value), cell)
  | .fail error, cell => (some (.error error), cell)
  | .abandon, cell => (none, cell)
  | .peek next, cell => work refusal (next cell.memo.peek) cell
  | .look next, cell => work refusal (next cell.memo.isSettled) cell
  | .call inner next, cell =>
    let (answer, after) := askWith refusal (work refusal inner) cell
    work refusal (next answer) after

/-- Asks the cell, with a computation for the case that it is unresolved. There is no answer when
the computation is abandoned. -/
def ask (refusal : ε) : Attempt ε α → MemoCell ε α → Option (Except ε α) × MemoCell ε α
  | attempt, cell => askWith refusal (work refusal attempt) cell

end MemoCell

end Schemata

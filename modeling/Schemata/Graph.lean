/-!
# Finite graphs

A graph is given by the successors of each node. A walk goes depth first and enters no node twice;
it says which nodes are reachable, in which order they are left again, and which of them lie on
common cycles. A walk never goes deeper than there are nodes, so their number bounds it.
-/

namespace Schemata.Graph

/-- The successors of a node of a graph that lists them by the number of each node. -/
def successors (lists : Array (List Nat)) (v : Nat) : List Nat := lists[v]?.getD []

variable {α : Type} [BEq α]

/-- The nodes that a walk has entered and the nodes that it has left, the latest first. -/
structure Walk (α : Type) where
  entered : List α
  left : List α

def Walk.start : Walk α := ⟨[], []⟩

/-- Enters a node, unless it was entered before, walks to its successors in turn and leaves it. -/
def visit (next : α → List α) : Nat → α → Walk α → Walk α
  | 0, _, w => w
  | depth + 1, v, w =>
    if w.entered.contains v then w
    else
      let w := (next v).foldl (fun w u => visit next depth u w) { w with entered := v :: w.entered }
      { w with left := v :: w.left }

/-- The walk that enters some nodes in turn, in a graph of at most `size` nodes. -/
def walk (next : α → List α) (size : Nat) (starts : List α) : Walk α :=
  starts.foldl (fun w v => visit next (size + 1) v w) .start

/-- The nodes that can be reached from some nodes, these included. -/
def reachable (next : α → List α) (size : Nat) (starts : List α) : List α :=
  (walk next size starts).entered

/-- The reachable nodes, each after all that it leads to except around a cycle. -/
def postorder (next : α → List α) (size : Nat) (starts : List α) : List α :=
  (walk next size starts).left.reverse

/-! ### Cycles -/

/-- The nodes, each with all that it reaches. -/
def reachTable (next : α → List α) (nodes : List α) : List (α × List α) :=
  nodes.map fun v => (v, reachable next nodes.length [v])

/-- The nodes that a node shares its cycles with, itself included. -/
def component (table : List (α × List α)) (v : α) : List α :=
  let reached := (table.lookup v).getD []
  (table.filter fun e => reached.contains e.1 && e.2.contains v).map (·.1)

/-- The first member of each component that is left last, in the order they are left: the
components of a node's successors come before its own. -/
def lastOfComponents (table : List (α × List α)) : List α → List α
  | [] => []
  | v :: later =>
    if later.any (component table v).contains then lastOfComponents table later
    else v :: lastOfComponents table later

/-- The components, each after those that it leads to. -/
def components (next : α → List α) (nodes : List α) : List (List α) :=
  let table := reachTable next nodes
  (lastOfComponents table (postorder next nodes.length nodes)).map (component table)

/-- Whether a component is a cycle: it has two members, or one that leads to itself. -/
def isCycle (next : α → List α) : List α → Bool
  | [] => false
  | [v] => (next v).contains v
  | _ => true

def cycles (next : α → List α) (nodes : List α) : List (List α) :=
  (components next nodes).filter (isCycle next)

end Schemata.Graph

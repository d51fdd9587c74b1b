import Flowgraph.Dataflow

/-!
# Dominators

A node dominates another if every path from the start to the other passes through it.  The sets of
dominators solve a forward dataflow problem over node sets: a node is dominated by itself and by
what dominates all its predecessors.

* `Dominators.compute`: the dominators of every reachable node.
* `Dominators.dominates`, `Dominators.immediate?`: queries on them.
-/

namespace Flowgraph

open Dataflow

/-- Intersect what arrives and add the node; nothing dominates the start from outside. -/
def dominatorProblem (g : Graph) : Problem NodeSet where
  direction := .forward
  top := .full g.bound
  boundary := some (.empty g.bound)
  transfer n input := [input.insert n]
  height := g.bound

/-- The start of a graph and its solved dominator problem. -/
structure Dominators where
  start : NodeId
  facts : State NodeSet

namespace Dominators

/-- Solve the dominator problem of a graph that has a start. -/
def compute (g : Graph) : Except GraphError Dominators := do
  let start ← g.entry
  let facts ← (dominatorProblem g).solve g
  return { start, facts }

variable (d : Dominators)

/-- The dominators of `n`, if the start leads to it. -/
def of? (n : NodeId) : Option NodeSet := d.facts.output n

/-- Every path from the start to `n` passes through `m`; never so if there is none. -/
def dominates (m n : NodeId) : Bool := ((d.of? n).map fun s => s.contains m).getD false

/-- The same for two different nodes. -/
def strictlyDominates (m n : NodeId) : Bool := m != n && d.dominates m n

/-- The start leads to `n`. -/
def isReachable (n : NodeId) : Bool := d.facts.isReached n

/-- The number of dominators of `n`. -/
def depth (n : NodeId) : Nat := ((d.of? n).map NodeSet.size).getD 0

/-- The deeper of two nodes with their depths, and the second of two that are equally deep. -/
def deeper (best : Option (NodeId × Nat)) (m : NodeId × Nat) : Option (NodeId × Nat) :=
  match best with
  | none => some m
  | some b => if m.2 < b.2 then some b else some m

/-- The strict dominator of `n` that has the most dominators itself. -/
def immediate? (n : NodeId) : Option NodeId := do
  let s ← d.of? n
  let strict := (s.toList.filter fun m => m ≠ n).map fun m => (m, d.depth m)
  (strict.foldl deeper none).map Prod.fst

end Dominators

end Flowgraph

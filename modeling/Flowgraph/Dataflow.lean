import Flowgraph.Graph.Basic
import Flowgraph.Lattice

/-!
# Dataflow problems and their solution

A dataflow problem gives every reachable node a value that is the meet of what arrives on its
edges, and every edge a value that is transferred from that of its node.  Values start at the
top; a queue holds the nodes whose arriving values may have changed since their last visit.

* `Problem`: direction, top, boundary and transfer.
* `Problem.step`: visit the first node in the queue.
* `Problem.solveWithin`: at most so many visits.
* `Problem.solve`: as many visits as the height of the lattice can call for.
-/

namespace Flowgraph.Dataflow

/-- The way in which values flow along edges. -/
inductive Direction where
  | forward
  | backward
  deriving DecidableEq

namespace Direction

/-- The nodes that values flow to from `n`, one for each edge. -/
def targets : Direction → Graph → NodeId → List NodeId
  | .forward, g, n => g.succs n
  | .backward, g, n => g.preds n

/-- The nodes that values flow from into `n`. -/
def sources : Direction → Graph → NodeId → List NodeId
  | .forward, g, n => g.preds n
  | .backward, g, n => g.succs n

/-- The order of the first visits: every node before its targets, as far as loops allow. -/
def order : Direction → Graph → NodeId → List NodeId
  | .forward, g, start => g.flow.reversePostorder start
  | .backward, g, start => g.flow.postorder start

end Direction

/-- A dataflow problem over the values `α`. -/
structure Problem (α : Type) where
  direction : Direction
  top : α
  /-- What enters the start of a forward problem, or the exits of a backward one. -/
  boundary : Option α
  /-- One value for all edges, or one for each edge. -/
  transfer : NodeId → α → List α
  /-- How often the value of one edge can fall. -/
  height : Nat

/-- What is known at a node: the value that enters it, the first value it transfers, and the value
on each of its edges. -/
structure Facts (α : Type) where
  input : Option α
  output : Option α
  edges : List α

namespace Facts

/-- Nothing is known where the start does not lead. -/
def unreached {α : Type} : Facts α := ⟨none, none, []⟩

end Facts

/-- The facts of every slot, the queue, and the number of visits so far. -/
structure State (α : Type) where
  facts : Array (Facts α)
  pending : List NodeId
  visits : Nat

namespace State

variable {α : Type} (s : State α)

/-- The facts of a slot.  Nothing is known of a slot that there is not. -/
def facts? (n : NodeId) : Facts α := (s.facts[n]?).getD .unreached

/-- The value that entered `n` at its last visit. -/
def input (n : NodeId) : Option α := (s.facts? n).input

/-- The first value that `n` transferred at its last visit. -/
def output (n : NodeId) : Option α := (s.facts? n).output

/-- The values on the edges of `n`. -/
def edges (n : NodeId) : List α := (s.facts? n).edges

/-- A node has been visited. -/
def isReached (n : NodeId) : Bool := (s.input n).isSome

end State

/-- The value of one edge after a visit: the only value transferred, or the one at the position of
the edge.  An edge for which there is none keeps the value it had. -/
def edgeValue {α : Type} (outputs : List α) (position : Nat) (old : α) : α :=
  match outputs with
  | [v] => v
  | vs => (vs[position]?).getD old

/-- Put nodes at the end of a queue, unless they wait in it already. -/
def enqueue (queue : List NodeId) (ns : List NodeId) : List NodeId :=
  ns.foldl (fun q n => if n ∈ q then q else q ++ [n]) queue

namespace Problem

variable {α : Type} [MeetLattice α] [DecidableEq α] (p : Problem α) (g : Graph)
  (reached : List NodeId) (start : NodeId)

/-- The values that arrive at `n` from the reached nodes, one for each edge. -/
def arriving (s : State α) (n : NodeId) : List α :=
  ((p.direction.sources g n).filter fun m => reached.contains m).flatMap fun m =>
    ((p.direction.targets g m).zip (s.edges m)).filterMap fun (t, v) =>
      if t = n then some v else none

/-- The meet of some values, or the top if there are none. -/
def meetAll : List α → α
  | [] => p.top
  | v :: vs => vs.foldl meet v

/-- Values enter from outside at the start, or at the nodes without successors. -/
def atBoundary (n : NodeId) : Bool :=
  match p.direction with
  | .forward => n == start
  | .backward => (g.succs n).isEmpty

/-- The value that enters `n`. -/
def inputAt (s : State α) (n : NodeId) : α :=
  match p.boundary, p.atBoundary g start n with
  | some v, true => v
  | _, _ => p.meetAll (p.arriving g reached s n)

/-- Visit `n`: take in what arrives, transfer it to the edges, and queue the targets of those edges
that change. -/
def visit (n : NodeId) (s : State α) : State α :=
  let input := p.inputAt g reached start s n
  let outputs := p.transfer n input
  let old := s.edges n
  let new := old.mapIdx (edgeValue outputs)
  let stale := ((p.direction.targets g n).zip (old.zip new)).filterMap fun (t, v, w) =>
    if v ≠ w ∧ t ∈ reached then some t else none
  { facts := s.facts.setIfInBounds n ⟨some input, outputs.head?, new⟩
    pending := enqueue s.pending stale
    visits := s.visits + 1 }

/-- Visit the first node in the queue. -/
def step (s : State α) : State α :=
  match s.pending with
  | [] => s
  | n :: rest => p.visit g reached start n { s with pending := rest }

/-- Every edge of a reached node carries the top, and every reached node waits for its first
visit. -/
def initial : State α where
  facts := ((List.range g.bound).map fun n =>
    if n ∈ reached then ⟨none, none, (p.direction.targets g n).map fun _ => p.top⟩
    else .unreached).toArray
  pending := p.direction.order g start
  visits := 0

/-- Visit nodes until none waits, but no more than so many. -/
def run : Nat → State α → State α
  | 0, s => s
  | visits + 1, s => if s.pending.isEmpty then s else run visits (p.step g reached start s)

/-- The state after at most so many visits. -/
def solveWithin (visits : Nat) : Except GraphError (State α) :=
  g.entry.map fun start =>
    let reached := g.reachable
    p.run g reached start visits (p.initial g reached start)

/-- The first visits, and one more each time that an edge falls. -/
def budget : Nat :=
  let reached := g.reachable
  reached.length + (reached.flatMap fun n => p.direction.targets g n).length * p.height

/-- The state when no node waits any more. -/
def solve : Except GraphError (State α) := p.solveWithin g (p.budget g)

end Problem

end Flowgraph.Dataflow

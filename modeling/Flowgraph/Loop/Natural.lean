import Flowgraph.Dominators

/-!
# Natural loops

An edge to a node that dominates its source closes a loop: the target is the header and the sources
of all such edges are the latches.  The body is the header with everything that leads to a latch
without passing the header.

* `NaturalLoop.ofHeader`: the loop that a header closes.
* `LoopForest.detect`: the loops of a graph; a header that lies in an earlier loop opens none.
-/

namespace Flowgraph

/-- A loop as a set of nodes with one way in. -/
structure NaturalLoop where
  header : NodeId
  /-- In ascending order. -/
  body : List NodeId
  /-- In the order in which the header lists its predecessors. -/
  latches : List NodeId
  deriving DecidableEq

/-- The predecessors of `header` that it dominates. -/
def backEdgeSources (g : Graph) (d : Dominators) (header : NodeId) : List NodeId :=
  (g.preds header).filter fun p => d.dominates header p

/-- The edges of a graph against their direction, within what the start leads to and without those
from the header. -/
def Graph.withoutHeader (g : Graph) (d : Dominators) (header : NodeId) : Digraph where
  bound := g.bound
  isLive := g.isLive
  succs n := (g.preds n).filter fun p => p != header && d.isReachable p
  lt_bound := Graph.lt_bound_of_isLive

/-- The header, the tails, and everything that leads to a tail without passing the header. -/
def loopBody (g : Graph) (d : Dominators) (header : NodeId) (tails : List NodeId) :
    List NodeId :=
  let inner := tails.filter fun t => t != header
  Ascending.ofList (header :: inner ++ (g.withoutHeader d header).closure inner)

/-- Some edge leads to a node that dominates its source. -/
def hasBackEdges (g : Graph) (d : Dominators) : Bool :=
  g.ids.any fun n => (g.succs n).any fun s => d.dominates s n

namespace NaturalLoop

/-- The loop that `header` closes. -/
def ofHeader (g : Graph) (d : Dominators) (header : NodeId) : NaturalLoop :=
  let latches := backEdgeSources g d header
  { header, latches, body := loopBody g d header latches }

variable (l : NaturalLoop)

/-- The node lies in the loop. -/
def contains (n : NodeId) : Bool := l.body.contains n

/-- The number of nodes of the loop. -/
def size : Nat := l.body.length

/-- The edges that leave the body, as pairs of source and target, each pair once. -/
def exits (g : Graph) : List (NodeId × NodeId) :=
  l.body.flatMap fun n => ((g.succs n).filter fun t => !l.contains t).eraseDups.map fun t => (n, t)

end NaturalLoop

/-- Loops in the order in which they were found. -/
abbrev LoopForest : Type := List NaturalLoop

namespace LoopForest

/-- Add the loop that an edge closes, if it closes one and its target lies in no loop yet. -/
def addEdge (g : Graph) (d : Dominators) (f : LoopForest) (tail target : NodeId) : LoopForest :=
  if d.dominates target tail && !f.any fun l => l.contains target then
    f ++ [NaturalLoop.ofHeader g d target]
  else f

/-- The edges of a graph in the order in which loops are looked for. -/
def edgesFrom (g : Graph) (start : NodeId) : List (NodeId × NodeId) :=
  (g.flow.reversePostorder start).flatMap fun n => (g.succs n).map fun s => (n, s)

/-- The loops of a graph. -/
def detect (g : Graph) (d : Dominators) : LoopForest :=
  (edgesFrom g d.start).foldl (fun f (tail, target) => addEdge g d f tail target) []

/-- The loop that a header opens. -/
def forHeader? (f : LoopForest) (header : NodeId) : Option NaturalLoop :=
  f.find? fun l => l.header == header

/-- The first loop that has `n` in its body. -/
def containing? (f : LoopForest) (n : NodeId) : Option NaturalLoop := f.find? fun l => l.contains n

end LoopForest

end Flowgraph

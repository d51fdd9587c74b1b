import Flowgraph.Event
import Flowgraph.Loop.Natural
import Flowgraph.Unroll.Loop

/-!
# Unrolling all loops

The loops of a graph are found once and then unrolled one after the other, in the order in which
they were found; what the start no longer leads to is dropped at the end.

* `unrollLoops`: unroll what can be unrolled and report on every loop.
* `UnrollReport.events`: the report as events.
-/

namespace Flowgraph

/-- What became of the loop of a header; `bodySize` counts its nodes when its turn came. -/
structure LoopReport where
  header : NodeId
  bodySize : Nat
  outcome : UnrollOutcome
  deriving DecidableEq

/-- What became of every loop, and how many nodes were dropped in the end. -/
structure UnrollReport where
  loops : List LoopReport
  swept : Nat
  deriving DecidableEq

namespace UnrollReport

/-- The number of loops that were unrolled. -/
def unrolled (r : UnrollReport) : Nat := r.loops.countP fun l => l.outcome.isUnrolled

/-- The event for one loop. -/
def loopEvent (function : String) (config : UnrollConfig) (l : LoopReport) : Event :=
  match l.outcome with
  | .unrolled header =>
      .atNode .loopUnrolled function l.header
        (toString l.bodySize ++ " nodes x" ++ toString config.factor ++ " (new header "
          ++ header.text ++ ")")
  | .skipped reason => .atNode .loopSkipped function l.header reason.message

/-- One event for each loop, and one for the nodes that were dropped. -/
def events (r : UnrollReport) (function : String) (config : UnrollConfig) : EventLog :=
  r.loops.map (loopEvent function config)
    ++ if r.swept = 0 then []
      else [.ofFunction .nodesSwept function (toString r.swept ++ " nodes of replaced loops")]

end UnrollReport

/-- The body of a loop in the graph as it is now: latches that no longer lead to the header do not
count. -/
def currentBody (g : Graph) (d : Dominators) (l : NaturalLoop) : List NodeId :=
  loopBody g d l.header (l.latches.filter fun t => (g.succs t).contains l.header)

/-- Unroll one of the loops that were found, unless its header is gone. -/
def unrollFound (d : Dominators) (config : UnrollConfig) (l : NaturalLoop) :
    Edit (Option LoopReport) := do
  let g ← get
  if g.isLive l.header then
    let body := currentBody g d l
    let outcome ← unrollLoop l.header body config
    return some { header := l.header, bodySize := body.length, outcome }
  else return none

/-- Unroll each of the loops in turn. -/
def unrollEach (d : Dominators) (config : UnrollConfig) : LoopForest → Edit (List LoopReport)
  | [] => return []
  | l :: rest => do
      let report ← unrollFound d config l
      return report.toList ++ (← unrollEach d config rest)

/-- Unroll every loop that can be unrolled, and then drop what the start does not lead to. -/
def unrollLoops (config : UnrollConfig) : Edit UnrollReport := do
  let g ← get
  match Dominators.compute g with
  | .error e => throw e
  | .ok d => do
      let loops ← unrollEach d config (LoopForest.detect g d)
      if loops.any fun l => l.outcome.isUnrolled then
        return { loops, swept := ← Edit.sweep }
      else return { loops, swept := 0 }

end Flowgraph

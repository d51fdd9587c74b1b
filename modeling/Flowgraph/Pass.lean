import Flowgraph.DeadCode
import Flowgraph.Unroll.Report

/-!
# Passes

A pass works on one function at a time and records what it does.

* `Pass`: the parts of a pass; `Pass.idle` has the least of each.
* `deadCodePass`, `unrollPass`: the passes of the optimizer.
-/

namespace Flowgraph

/-- The graph of one function together with the log of events. -/
structure Workspace where
  graph : Graph
  events : EventLog
  deriving DecidableEq

/-- A computation on one function.  What it has changed and recorded stays after an error. -/
abbrev Work (α : Type) : Type := EStateM GraphError Workspace α

namespace Work

/-- Change the graph and leave the log alone. -/
def edit {α : Type} (e : Edit α) : Work α := fun w =>
  match e w.graph with
  | .ok a g => .ok a { w with graph := g }
  | .error err g => .error err { w with graph := g }

/-- Add events to the log. -/
def record (events : EventLog) : Work Unit :=
  modify fun w => { w with events := w.events ++ events }

end Work

/-- A pass; `setup` and `teardown` run before and after each round over the functions. -/
structure Pass where
  name : String
  description : String
  shouldRun : OptimizerConfig → String → Bool
  setup : EStateM GraphError EventLog Unit
  /-- Work on the named function in the round with this number, counted from 0, and say whether that
  changed anything. -/
  run : OptimizerConfig → (round : Nat) → (function : String) → Work Bool
  teardown : EStateM GraphError EventLog Unit

namespace Pass

/-- A pass that may run everywhere and changes nothing. -/
def idle (name : String) : Pass where
  name := name
  description := "No description available"
  shouldRun _ _ := true
  setup := pure ()
  run _ _ _ := pure false
  teardown := pure ()

end Pass

/-- The event for nodes that were dropped before anything else. -/
def sweepEvents (function : String) (swept : Nat) : EventLog :=
  if swept = 0 then []
  else [.ofFunction .nodesSwept function (toString swept ++ " unreachable nodes")]

/-- Drop what the start does not lead to, if the configuration says so, and count it. -/
def sweepIfEnabled (config : CleanupConfig) : Edit Nat :=
  if config.sweepUnreachable then Edit.sweep else return 0

/-- Dead code elimination, after a sweep.  Something has changed if there is something to record. -/
def deadCodePass : Pass :=
  { Pass.idle "dead-code-elimination" with
    description := "Removes assignments whose value is never used"
    shouldRun := fun config _ => config.cleanup.enabled
    run := fun config _ function => do
      let swept ← Work.edit (sweepIfEnabled config.cleanup)
      let removed ← Work.edit eliminateDeadCode
      let events := sweepEvents function swept ++ removed.map (Removal.event function)
      Work.record events
      return !events.isEmpty }

/-- Loop unrolling.  Something has changed if a loop was unrolled. -/
def unrollPass : Pass :=
  { Pass.idle "loop-unrolling" with
    description := "Unrolls counted loops guarded by an induction variable"
    shouldRun := fun config _ => config.unroll.enabled
    run := fun config _ function => do
      let report ← Work.edit (unrollLoops config.unroll)
      Work.record (report.events function config.unroll)
      return report.unrolled != 0 }

end Flowgraph

import Flowgraph.Event
import Flowgraph.Graph.Edit
import Flowgraph.Liveness

/-!
# Dead code elimination

An assignment is dead if nothing that follows reads the variable it writes.  Dead assignments are
spliced out one after the other, in slot order, by what was live before the first of them went.

* `deadNodes`: the dead assignments of a graph.
* `eliminateDeadCode`: one round, which returns what it removed.
* `eliminateToFixpoint`: rounds until one removes nothing.
-/

namespace Flowgraph

/-- The node is an assignment, or a store to a bare temporary, and its variable is not live after
it. -/
def isDead (g : Graph) (l : Liveness) (n : NodeId) : Bool :=
  match (g.kind? n).bind Kind.target? with
  | some name => !l.isLiveAfter n name
  | none => false

/-- The dead nodes that the start leads to, in slot order. -/
def deadNodes (g : Graph) (l : Liveness) : List NodeId :=
  let reached := g.reachable
  g.ids.filter fun n => reached.contains n && isDead g l n

/-- A node that was spliced out, with its kind. -/
structure Removal where
  node : NodeId
  kind : Kind
  deriving DecidableEq

namespace Removal

/-- The event that reports a removal. -/
def event (function : String) (r : Removal) : Event :=
  .atNode .instructionRemoved function r.node r.kind.text

end Removal

/-- Splice out these nodes, except one that has become its own only successor. -/
def removeNodes : List NodeId → Edit (List Removal)
  | [] => return []
  | n :: rest => do
      let g ← get
      if g.succs n = [n] then removeNodes rest
      else
        let node ← Edit.require n
        Edit.removeNode n
        return ⟨n, node.kind⟩ :: (← removeNodes rest)

/-- One round: remove the dead assignments. -/
def eliminateDeadCode : Edit (List Removal) := do
  let g ← get
  match Liveness.compute g with
  | .error e => throw e
  | .ok l => removeNodes (deadNodes g l)

/-- At most so many rounds, until one removes nothing; returns the number of nodes removed. -/
def eliminateToFixpoint : Nat → Edit Nat
  | 0 => return 0
  | rounds + 1 => do
      let removed ← eliminateDeadCode
      if removed.isEmpty then return 0
      else return removed.length + (← eliminateToFixpoint rounds)

end Flowgraph

import Flowgraph.Kind
import Flowgraph.NodeId

/-!
# Errors of graph operations

Each way an operation on a graph can be refused, as a cause, and its wording.

* `GraphError.message`: the text of an error.
* `Defect.message`: the text of a defect, for the errors that report a graph out of shape.
* `Kind.blockOf`: nodes made into one block, where every one of them has to hold a statement.
-/

namespace Flowgraph

/-- What is out of shape, in a graph or in a request that would put a graph out of shape. -/
inductive Defect where
  | selfLoopMoved (node : NodeId)
  | noSuchSlot (node : NodeId) (position : Nat)
  | stubReplacesItself (stub : NodeId)
  | stubInUse (stub : NodeId) (users : Nat)
  | startHasPreds (start : NodeId)
  | wrongDegree (node : NodeId) (kind : Kind) (found : Nat)
  | secondStart (node : NodeId)
  | selfLoopAstray (node : NodeId)
  | vacantTarget (node target : NodeId)
  | unlistedEdge (node target : NodeId)
  | vacantPred (node pred : NodeId)
  | strayPred (node pred : NodeId)
  | repeatedPred (node pred : NodeId)
  | reachableStub (stub : NodeId)
  deriving DecidableEq

namespace Defect

/-- The wording of a defect. -/
def message : Defect → String
  | selfLoopMoved node => "self-loop " ++ node.text ++ " must remain its own successor"
  | noSuchSlot node position => node.text ++ " has no edge in slot " ++ toString position
  | stubReplacesItself stub => "stub " ++ stub.text ++ " cannot replace itself"
  | stubInUse stub users =>
      "stub " ++ stub.text ++ " is still referenced by " ++ toString users ++ " node(s)"
  | startHasPreds start => "start node " ++ start.text ++ " has predecessors"
  | wrongDegree node kind found =>
      node.text ++ " (" ++ kind.name ++ ") has " ++ toString found ++ " successor(s), expected "
        ++ toString kind.degree
  | secondStart node => "second start node " ++ node.text
  | selfLoopAstray node => "self-loop " ++ node.text ++ " does not target itself"
  | vacantTarget node target => node.text ++ " targets vacant slot " ++ target.text
  | unlistedEdge node target =>
      "edge " ++ node.text ++ " -> " ++ target.text ++ " missing from predecessor list"
  | vacantPred node pred => node.text ++ " lists vacant predecessor " ++ pred.text
  | strayPred node pred =>
      node.text ++ " lists " ++ pred.text ++ " as predecessor without an edge"
  | repeatedPred node pred => node.text ++ " lists " ++ pred.text ++ " twice"
  | reachableStub stub => "unresolved stub " ++ stub.text ++ " is reachable"

end Defect

/-- Why an operation on a graph was refused. -/
inductive GraphError where
  | notASuccessor (node target : NodeId)
  | notAStub (node : NodeId)
  | unreferencedStub (stub : NodeId)
  | stubLinkMissing (stub pred : NodeId)
  | arityMismatch (node : NodeId) (kind : Kind) (found : Nat)
  | startRemoval
  | nonLinearRemoval (node : NodeId)
  | invalidNode (node : NodeId)
  | noStart
  | duplicateStart (existing : NodeId)
  | unsupportedInBlock (kind : Kind)
  | inconsistent (defect : Defect)
  deriving DecidableEq

namespace GraphError

/-- The wording of an error; some of them name what they are about. -/
def message : GraphError → String
  | notASuccessor node target => target.text ++ " is not a successor of " ++ node.text
  | notAStub node => node.text ++ " is not a stub node"
  | unreferencedStub stub => "stub " ++ stub.text ++ " has no predecessors to substitute"
  | stubLinkMissing stub pred =>
      "stub " ++ stub.text ++ " lists " ++ pred.text
        ++ " as predecessor, but the edge is missing"
  | arityMismatch node kind found =>
      node.text ++ " (" ++ kind.name ++ ") expects " ++ toString kind.arity
        ++ " successor(s), found " ++ toString found
  | startRemoval => "the start node cannot be removed"
  | nonLinearRemoval node => node.text ++ " cannot be spliced out: it has no unique successor"
  | invalidNode node => node.text ++ " is not a node of this graph"
  | noStart => "the graph has no start node"
  | duplicateStart existing => "the graph already has a start node (" ++ existing.text ++ ")"
  | unsupportedInBlock kind => kind.name ++ " nodes are not allowed inside a block"
  | inconsistent defect => defect.message

end GraphError

namespace Kind

/-- The statement that a node of this kind puts into a block. -/
def toStmt (k : Kind) : Except GraphError Stmt :=
  match k.stmt? with
  | some s => .ok s
  | none => .error (.unsupportedInBlock k)

/-- The block of the statements of these nodes; the first that has none is reported. -/
def blockOf (ks : List Kind) : Except GraphError Kind := (ks.mapM toStmt).map .block

end Kind

end Flowgraph

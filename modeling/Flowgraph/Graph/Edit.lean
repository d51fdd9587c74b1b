import Flowgraph.Graph.Basic

/-!
# Editing flow graphs

Operations that change a graph or are refused.  Each one makes all its checks before its only
change, so that a refused operation leaves the graph as it was.

* `Edit.addNode`: fill the next slot, with edges to nodes that exist.
* `Edit.replaceSucc`, `Edit.redirectEdge`: move edges.
* `Edit.substituteStub`, `Edit.removeNode`: take a node out and lead its predecessors on.
* `Edit.discardStub`, `Edit.sweep`: drop what nothing refers to.
-/

namespace Flowgraph

/-- A computation on a graph.  What has been changed stays changed after an error. -/
abbrev Edit (α : Type) : Type := EStateM GraphError Graph α

namespace Graph

/-- Fill the next slot with a node of this kind and list it with its successors.  A self-loop
also succeeds itself, and a start node becomes the start of the graph. -/
def attach (g : Graph) (kind : Kind) (succs : List NodeId) : Graph :=
  let targets := if kind.isSelfLoop then succs ++ [g.bound] else succs
  let linked := targets.foldl (fun h t => h.link g.bound t) (g.push ⟨kind, targets, []⟩)
  if kind.isStart then { linked with start := some g.bound } else linked

/-- Turn the edges from `node` to `old` into edges to `new`. -/
def moveEdges (g : Graph) (node old new : NodeId) : Graph :=
  if old = new then g else ((g.retarget node old new).unlink node old).link node new

/-- Turn the edge at `position` of `node`, which leads to `old`, into one to `new`. -/
def moveEdge (g : Graph) (node : NodeId) (position : Nat) (old new : NodeId) : Graph :=
  ((g.update node fun n => { n with succs := n.succs.set position new }).unlink node old).link
    node new

/-- Lead each of `preds` to `target` in place of `node`, and vacate the slot of `node`. -/
def bypass (g : Graph) (node target : NodeId) (preds : List NodeId) : Graph :=
  (preds.foldl (fun h p => (h.retarget p node target).link p target) g).vacate node

/-- The live nodes that the start does not lead to; none without a start. -/
def unreachable (g : Graph) : List NodeId :=
  match g.start with
  | none => []
  | some _ =>
      let reached := g.reachable
      g.ids.filter fun id => !reached.contains id

/-- Keep only what the start leads to; without a start everything stays. -/
def swept (g : Graph) : Graph :=
  match g.start with
  | none => g
  | some _ =>
      let reached := g.reachable
      g.restrict fun id => reached.contains id

end Graph

namespace Edit

/-- Go on only if `p` holds. -/
def ensure (p : Prop) [Decidable p] (e : GraphError) : Edit Unit :=
  if p then pure () else throw e

/-- The node in a slot that has to be live. -/
def require (id : NodeId) : Edit Node := do
  match (← get).node? id with
  | some n => pure n
  | none => throw (.invalidNode id)

/-- All of these have to be live; the first that is not is reported. -/
def requireAll (ids : List NodeId) : Edit Unit := do
  let g ← get
  match ids.find? fun id => !g.isLive id with
  | some id => throw (.invalidNode id)
  | none => pure ()

/-- All of these have to lead to `stub`; the first that does not is reported. -/
def requireLinks (stub : NodeId) (preds : List NodeId) : Edit Unit := do
  let g ← get
  match preds.find? fun p => !(g.succs p).contains stub with
  | some p => throw (.stubLinkMissing stub p)
  | none => pure ()

/-- A second start node is refused. -/
def requireNoStart : Edit Unit := do
  match (← get).start with
  | some s => throw (.duplicateStart s)
  | none => pure ()

/-! ### Building -/

/-- Add a node with these successors and return its identifier. -/
def addNode (kind : Kind) (succs : List NodeId) : Edit NodeId := do
  let id := (← get).bound
  ensure (succs.length = kind.arity) (.arityMismatch id kind succs.length)
  if kind.isStart then requireNoStart
  requireAll succs
  modifyGet fun g => (id, g.attach kind succs)

/-- Add the start, where runs begin. -/
def addStart (next : NodeId) : Edit NodeId := addNode .start [next]

/-- Add an assignment to a temporary. -/
def addAssign (target : String) (value : Expr) (next : NodeId) : Edit NodeId :=
  addNode (.stmt (.assign target value)) [next]

/-- Add a store to an address, or to a bare temporary. -/
def addStore (target value : Expr) (next : NodeId) : Edit NodeId :=
  addNode (.stmt (.store target value)) [next]

/-- Add a call. -/
def addCall (call : Call) (next : NodeId) : Edit NodeId := addNode (.stmt (.call call)) [next]

/-- Add a branch on a condition. -/
def addBranch (cond : Expr) (onTrue onFalse : NodeId) : Edit NodeId :=
  addNode (.branch cond) [onTrue, onFalse]

/-- Add a node at which runs end. -/
def addReturn : Edit NodeId := addNode .ret []

/-- Add a node that succeeds itself and nothing else. -/
def addSelfLoop : Edit NodeId := addNode .selfLoop []

/-- Add a placeholder, to be substituted later. -/
def addStub : Edit NodeId := addNode .stub []

/-- Add a block of the statements that these nodes would hold. -/
def addBlock (kinds : List Kind) (next : NodeId) : Edit NodeId := do
  match Kind.blockOf kinds with
  | .error e => throw e
  | .ok block => addNode block [next]

/-- Add a node of the same kind as `node`. -/
def cloneNode (node : NodeId) (succs : List NodeId) : Edit NodeId := do
  addNode (← require node).kind succs

/-! ### Moving edges -/

/-- Turn every edge from `node` to `old` into one to `new`. -/
def replaceSucc (node old new : NodeId) : Edit Unit := do
  let _ ← require new
  let n ← require node
  ensure (old ∈ n.succs) (.notASuccessor node old)
  ensure (n.kind.isSelfLoop = true → new = node) (.inconsistent (.selfLoopMoved node))
  modify fun g => g.moveEdges node old new

/-- Turn the edge at `position` of `node` into one to `new`. -/
def redirectEdge (node : NodeId) (position : Nat) (new : NodeId) : Edit Unit := do
  let _ ← require new
  let n ← require node
  ensure (n.kind.isSelfLoop = false) (.inconsistent (.selfLoopMoved node))
  match n.succs[position]? with
  | none => throw (.inconsistent (.noSuchSlot node position))
  | some old => modify fun g => g.moveEdge node position old new

/-! ### Taking nodes out -/

/-- Put `real` in the place of `stub`. -/
def substituteStub (stub real : NodeId) : Edit Unit := do
  let _ ← require real
  let n ← require stub
  ensure (n.kind.isStub = true) (.notAStub stub)
  ensure (stub ≠ real) (.inconsistent (.stubReplacesItself stub))
  ensure (n.preds ≠ []) (.unreferencedStub stub)
  requireLinks stub n.preds
  modify fun g => g.bypass stub real n.preds

/-- Drop a stub that nothing leads to. -/
def discardStub (stub : NodeId) : Edit Unit := do
  let n ← require stub
  ensure (n.kind.isStub = true) (.notAStub stub)
  ensure (n.preds = []) (.inconsistent (.stubInUse stub n.preds.length))
  modify fun g => g.vacate stub

/-- Put `real` in the place of `stub`, or drop the stub if nothing leads to it. -/
def resolveStub (stub real : NodeId) : Edit Unit := do
  if ((← get).preds stub).isEmpty then discardStub stub else substituteStub stub real

/-- Lead the predecessors of `node` to its only successor, and vacate its slot. -/
def removeNode (node : NodeId) : Edit Unit := do
  ensure ((← get).start ≠ some node) .startRemoval
  let n ← require node
  match n.succs with
  | [next] =>
      ensure (next ≠ node) (.nonLinearRemoval node)
      modify fun g => (g.bypass node next n.preds).unlink node next
  | _ => throw (.nonLinearRemoval node)

/-- Drop what the start does not lead to, and count it. -/
def sweep : Edit Nat := modifyGet fun g => (g.unreachable.length, g.swept)

end Edit

end Flowgraph

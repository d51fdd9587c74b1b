import Flowgraph.GraphError
import Flowgraph.Search

/-!
# Flow graphs

A flow graph keeps its nodes in numbered slots that are filled in order and never reused; a slot
whose node has been taken out stays vacant.  Successor lists are the edges.  Predecessor lists
are kept beside them, each predecessor once, in the order in which the edges were made.

* `Graph.node?`: the view of a graph; every other query reads it.
* `Graph.push`, `Graph.vacate`, `Graph.update`: the three ways to change a slot.
* `Graph.link`, `Graph.unlink`: keep a predecessor list in step with an edge.
* `Graph.reachable`: what the start node leads to.
-/

namespace Flowgraph

/-- What a slot holds: the kind of a node and its edges, from both ends. -/
structure Node where
  kind : Kind
  succs : List NodeId
  preds : List NodeId
  deriving DecidableEq

/-- Numbered slots, filled in order, and the node at which runs begin. -/
structure Graph where
  slots : Array (Option Node)
  start : Option NodeId
  deriving DecidableEq

namespace Graph

/-- No slots and no start. -/
def empty : Graph := ⟨#[], none⟩

/-- The number of slots, vacant ones included. -/
def bound (g : Graph) : Nat := g.slots.size

/-- The node in a slot. -/
def node? (g : Graph) (id : NodeId) : Option Node := g.slots[id]?.join

/-- The slot holds a node. -/
def isLive (g : Graph) (id : NodeId) : Bool := (g.node? id).isSome

/-- The kind of the node in a slot. -/
def kind? (g : Graph) (id : NodeId) : Option Kind := (g.node? id).map Node.kind

/-- The successors of a node in the order of its edges; a branch has that for true first. -/
def succs (g : Graph) (id : NodeId) : List NodeId := ((g.node? id).map Node.succs).getD []

/-- The predecessors of a node, each once, in the order in which the edges were made. -/
def preds (g : Graph) (id : NodeId) : List NodeId := ((g.node? id).map Node.preds).getD []

/-- The temporaries the node writes. -/
def defs (g : Graph) (id : NodeId) : List String := ((g.kind? id).map Kind.defs).getD []

/-- The temporaries the node reads before it writes them. -/
def uses (g : Graph) (id : NodeId) : List String := ((g.kind? id).map Kind.uses).getD []

/-- The live nodes in slot order. -/
def ids (g : Graph) : List NodeId := (List.range g.bound).filter g.isLive

/-- The number of live nodes. -/
def count (g : Graph) : Nat := g.ids.length

/-- Nodes are found in slots only. -/
theorem lt_bound_of_isLive {g : Graph} {id : NodeId} (h : g.isLive id = true) : id < g.bound := by
  simp only [isLive, node?] at h
  cases hs : g.slots[id]? with
  | none => simp [hs] at h
  | some s => exact (Array.getElem?_eq_some_iff.1 hs).1

/-- The edges of a graph. -/
def flow (g : Graph) : Digraph := ⟨g.bound, g.isLive, g.succs, lt_bound_of_isLive⟩

/-- The nodes the start leads to, in the order of the search. -/
def reachable (g : Graph) : List NodeId := (g.start.map g.flow.dfs).getD []

/-- The start, or the error that there is none. -/
def entry (g : Graph) : Except GraphError NodeId :=
  match g.start with
  | some s => .ok s
  | none => .error .noStart

/-! ### Changing slots -/

/-- Fill the next slot. -/
def push (g : Graph) (n : Node) : Graph := { g with slots := g.slots.push (some n) }

/-- Empty a slot, and leave all edges as they are. -/
def vacate (g : Graph) (id : NodeId) : Graph := { g with slots := g.slots.setIfInBounds id none }

/-- Change the node in a slot, if there is one. -/
def update (g : Graph) (id : NodeId) (f : Node → Node) : Graph :=
  { g with slots := g.slots.modify id (Option.map f) }

/-- List `source` as a predecessor of `target`, if it is not listed yet. -/
def link (g : Graph) (source target : NodeId) : Graph :=
  g.update target fun n =>
    if source ∈ n.preds then n else { n with preds := n.preds ++ [source] }

/-- Take `source` off the predecessors of `target`, unless it still has an edge there. -/
def unlink (g : Graph) (source target : NodeId) : Graph :=
  if target ∈ g.succs source then g
  else g.update target fun n => { n with preds := n.preds.filter fun p => p ≠ source }

/-- Turn every edge from `source` to `old` into one to `new`, in the successor list alone. -/
def retarget (g : Graph) (source old new : NodeId) : Graph :=
  g.update source fun n => { n with succs := n.succs.map fun s => if s = old then new else s }

/-- Keep the nodes that satisfy `keep`, and of every predecessor list the part that does. -/
def restrict (g : Graph) (keep : NodeId → Bool) : Graph :=
  { g with slots := g.slots.mapIdx fun id slot =>
      if keep id then slot.map fun n => { n with preds := n.preds.filter keep } else none }

/-! ### The view of a changed graph -/

@[simp] theorem bound_push (g : Graph) (n : Node) : (g.push n).bound = g.bound + 1 := by
  simp [bound, push]

@[simp] theorem bound_vacate (g : Graph) (id : NodeId) : (g.vacate id).bound = g.bound := by
  simp [bound, vacate]

@[simp] theorem bound_update (g : Graph) (id : NodeId) (f : Node → Node) :
    (g.update id f).bound = g.bound := by
  simp [bound, update]

theorem node?_eq_none_of_bound_le {g : Graph} {id : NodeId} (h : g.bound ≤ id) :
    g.node? id = none := by
  simp [node?, Array.getElem?_eq_none h]

/-- A new node is found in the next slot, and all others where they were. -/
theorem node?_push (g : Graph) (n : Node) (id : NodeId) :
    (g.push n).node? id = if id = g.bound then some n else g.node? id := by
  simp only [node?, push, bound, Array.getElem?_push]
  by_cases h : id = g.slots.size <;> simp [h]

theorem node?_vacate (g : Graph) (v id : NodeId) :
    (g.vacate v).node? id = if v = id then none else g.node? id := by
  simp only [node?, vacate, Array.getElem?_setIfInBounds]
  split
  · split <;> rfl
  · rfl

/-- A change of one slot is seen there alone, and only if there is a node. -/
theorem node?_update (g : Graph) (m : NodeId) (f : Node → Node) (id : NodeId) :
    (g.update m f).node? id = if m = id then (g.node? id).map f else g.node? id := by
  simp only [node?, update, Array.getElem?_modify]
  split
  · cases g.slots[id]? with
    | none => rfl
    | some s => cases s <;> rfl
  · rfl

/-- The nodes that stay keep their successors, and of their predecessors those that stay. -/
theorem node?_restrict (g : Graph) (keep : NodeId → Bool) (id : NodeId) :
    (g.restrict keep).node? id =
      if keep id then (g.node? id).map fun n => { n with preds := n.preds.filter keep }
      else none := by
  simp only [node?, restrict, Array.getElem?_mapIdx]
  cases g.slots[id]? with
  | none => simp
  | some s => by_cases h : keep id <;> simp [h]

end Graph

end Flowgraph

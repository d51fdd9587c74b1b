import Flowgraph.Graph.Basic

/-!
# Auditing flow graphs

What a graph in shape has to satisfy, as the list of the defects that it has.

* `Graph.defects`: every defect, the start first, then node by node in slot order.
* `Graph.verify`: passes without a defect, and reports the first one otherwise.
-/

namespace Flowgraph.Graph

/-- The defects of one edge of `id`. -/
def edgeDefects (g : Graph) (id target : NodeId) : List Defect :=
  if !g.isLive target then [.vacantTarget id target]
  else if (g.preds target).contains id then []
  else [.unlistedEdge id target]

/-- The defects of one predecessor of `id`; `earlier` are those listed before it. -/
def predDefects (g : Graph) (id : NodeId) (earlier : List NodeId) (pred : NodeId) :
    List Defect :=
  if !g.isLive pred then [.vacantPred id pred]
  else if !(g.succs pred).contains id then [.strayPred id pred]
  else if earlier.contains pred then [.repeatedPred id pred]
  else []

/-- The defects of the node in slot `id`. -/
def nodeDefects (g : Graph) (start id : NodeId) (n : Node) : List Defect :=
  (if n.succs.length = n.kind.degree then [] else [.wrongDegree id n.kind n.succs.length])
  ++ (if n.kind.isStart && id != start then [.secondStart id] else [])
  ++ (if n.kind.isSelfLoop && n.succs != [id] then [.selfLoopAstray id] else [])
  ++ n.succs.flatMap (g.edgeDefects id)
  ++ n.preds.zipIdx.flatMap fun (p, i) => g.predDefects id (n.preds.take i) p

/-- The stubs that the start leads to. -/
def stubDefects (g : Graph) : List Defect :=
  let reached := g.reachable
  (g.ids.filter fun id => reached.contains id && ((g.kind? id).map Kind.isStub).getD false).map
    .reachableStub

/-- Everything that is out of shape in a graph with this start. -/
def defects (g : Graph) (start : NodeId) : List Defect :=
  (if (g.preds start).isEmpty then [] else [.startHasPreds start])
  ++ g.ids.flatMap (fun id => ((g.node? id).map (g.nodeDefects start id)).getD [])
  ++ g.stubDefects

/-- A graph passes if it has a start and no defect. -/
def verify (g : Graph) : Except GraphError Unit :=
  match g.start with
  | none => .error .noStart
  | some start =>
      match g.defects start with
      | [] => .ok ()
      | d :: _ => .error (.inconsistent d)

end Flowgraph.Graph

import Flowgraph.Graph.Edit

/-!
# Copies of a loop body

A copy follows the edges of a body depth first from one of its nodes.  An edge to the header becomes
an edge to `back`, one within the body leads to the copy of its target, and any other edge keeps its
target.  A node that is being copied is stood for by a stub until its copy is there.

* `BodyCopy.copyNode`: the copy of one node with all that it leads to in the body.
* `copyBody`: a copy of everything that `entry` leads to in the body.
-/

namespace Flowgraph

/-- The nodes copied so far, each with what stands for it, the latest first. -/
abbrev CopyMap : Type := List (NodeId × NodeId)

/-- A computation that copies nodes of a graph. -/
abbrev CopyM (α : Type) : Type := StateT CopyMap Edit α

namespace BodyCopy

/-- What stands for a node. -/
def copyOf? (n : NodeId) : CopyM (Option NodeId) := do return (← get).lookup n

/-- From now on `copy` stands for `n`. -/
def setCopy (n copy : NodeId) : CopyM Unit := modify ((n, copy) :: ·)

/-- The copy of `n`.  Nodes open at the same time are distinct members of the body, so that a
depth beyond its size is never used up. -/
def copyNode (body : List NodeId) (header back : NodeId) : Nat → NodeId → CopyM NodeId
  | 0, n => return n
  | depth + 1, n => do
      if let some copy ← copyOf? n then return copy
      let g ← getThe Graph
      if ((g.kind? n).map Kind.isSelfLoop).getD false then
        let copy ← Edit.cloneNode n []
        setCopy n copy
        return copy
      let pending ← Edit.addStub
      setCopy n pending
      let succs ← (g.succs n).mapM fun s => do
        if s = header then return back
        else if s ∈ body then copyNode body header back depth s
        else return s
      let copy ← Edit.cloneNode n succs
      setCopy n copy
      Edit.resolveStub pending copy
      return copy

end BodyCopy

/-- Copy what `entry` leads to in `body` without passing `header`, and return the copy of
`entry`. -/
def copyBody (body : List NodeId) (header back entry : NodeId) : Edit NodeId := do
  let (copy, _) ← (BodyCopy.copyNode body header back (body.length + 1) entry).run []
  return copy

end Flowgraph

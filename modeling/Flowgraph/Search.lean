import Flowgraph.NodeId

/-!
# Depth-first searches

Searches over any directed graph whose live nodes have bounded identifiers.  Successor lists may
name vacant nodes; those are passed over.

* `Digraph.closure`: everything that can be reached from a list of nodes, in the order found.
* `Digraph.dfs`: the same from one node.
* `Digraph.postorder`: each node after everything found through it.
-/

namespace Flowgraph

/-- A finite directed graph. -/
structure Digraph where
  bound : Nat
  isLive : NodeId → Bool
  succs : NodeId → List NodeId
  lt_bound : ∀ {n : NodeId}, isLive n = true → n < bound

namespace Digraph

variable (g : Digraph)

/-- The total of `weight` over the nodes below a bound that are not in `seen`. -/
def unseenWeight (weight : NodeId → Nat) (seen : List NodeId) : Nat → Nat
  | 0 => 0
  | n + 1 => unseenWeight weight seen n + if n ∈ seen then 0 else weight n

/-- A node that there is not does not count. -/
theorem unseenWeight_cons_of_le (weight : NodeId → Nat) (seen : List NodeId) {bound n : Nat}
    (h : bound ≤ n) : unseenWeight weight (n :: seen) bound = unseenWeight weight seen bound := by
  induction bound with
  | zero => rfl
  | succ b ih =>
      have hb : b ∈ n :: seen ↔ b ∈ seen := by simp; omega
      simp only [unseenWeight, ih (by omega), hb]

/-- Seeing one more node takes its weight away. -/
theorem unseenWeight_cons (weight : NodeId → Nat) {seen : List NodeId} {bound n : Nat}
    (hn : n < bound) (hs : n ∉ seen) :
    unseenWeight weight (n :: seen) bound + weight n = unseenWeight weight seen bound := by
  induction bound with
  | zero => omega
  | succ b ih =>
      rcases Nat.lt_or_ge n b with h | h
      · have hb : b ∈ n :: seen ↔ b ∈ seen := by simp; omega
        have := ih h
        simp only [unseenWeight, hb]
        omega
      · obtain rfl : n = b := by omega
        simp [unseenWeight, hs, unseenWeight_cons_of_le weight seen (Nat.le_refl n)]

/-- The live nodes of a list that have not been seen, once each.  Of a repeated node the last
occurrence counts. -/
def fresh (seen ns : List NodeId) : List NodeId :=
  ns.foldr (fun n later =>
    if g.isLive n = true ∧ n ∉ seen ∧ n ∉ later then n :: later else later) []

/-- What is put on the stack has been paid for. -/
theorem unseenWeight_fresh (seen ns : List NodeId) :
    unseenWeight (fun _ => 2) (g.fresh seen ns ++ seen) g.bound + 2 * (g.fresh seen ns).length
      = unseenWeight (fun _ => 2) seen g.bound := by
  induction ns with
  | nil => simp [fresh]
  | cons n ns ih =>
      simp only [fresh, List.foldr_cons] at ih ⊢
      split
      · next h =>
          have hn := unseenWeight_cons (fun _ => 2) (g.lt_bound h.1)
            fun hm => (List.mem_append.1 hm).elim h.2.2 h.2.1
          simp only [List.cons_append, List.length_cons]
          omega
      · exact ih

/-- Visit the top of the stack and put its unseen successors on the stack, the first one on top.
A node counts as seen once it has been put on the stack. -/
def visitFrom (stack seen : List NodeId) : List NodeId :=
  match stack with
  | [] => []
  | n :: rest =>
      n :: visitFrom (g.fresh seen (g.succs n) ++ rest) (g.fresh seen (g.succs n) ++ seen)
termination_by unseenWeight (fun _ => 2) seen g.bound + stack.length
decreasing_by
  have := g.unseenWeight_fresh seen (g.succs n)
  simp only [List.length_append, List.length_cons]
  omega

/-- The nodes reachable from `roots`, in the order of the search. -/
def closure (roots : List NodeId) : List NodeId :=
  g.visitFrom (g.fresh [] roots) (g.fresh [] roots)

/-- The nodes reachable from `root`; none if it is not live. -/
def dfs (root : NodeId) : List NodeId := g.closure [root]

/-- Room for the frames of the nodes that have not been seen. -/
abbrev frameWeight (n : NodeId) : Nat := (g.succs n).length + 2

/-- A frame holds an open node and the successors it has still to look at; a node is finished
when none is left. -/
def finishFrom (frames : List (NodeId × List NodeId)) (seen : List NodeId) : List NodeId :=
  match frames with
  | [] => []
  | (n, []) :: rest => n :: finishFrom rest seen
  | (n, s :: more) :: rest =>
      if _h : g.isLive s = true ∧ s ∉ seen then
        finishFrom ((s, g.succs s) :: (n, more) :: rest) (s :: seen)
      else finishFrom ((n, more) :: rest) seen
termination_by
  unseenWeight g.frameWeight seen g.bound + (frames.flatMap fun f => f.1 :: f.2).length
decreasing_by
  · simp
  · have := unseenWeight_cons g.frameWeight (g.lt_bound _h.1) _h.2
    simp only [List.flatMap_cons, List.length_append, List.length_cons]
    simp only [frameWeight] at this ⊢
    omega
  · simp

/-- The nodes reachable from `root`, each when the search leaves it. -/
def postorder (root : NodeId) : List NodeId :=
  if g.isLive root then g.finishFrom [(root, g.succs root)] [root] else []

/-- The nodes reachable from `root`, last finished first. -/
def reversePostorder (root : NodeId) : List NodeId := (g.postorder root).reverse

end Digraph

end Flowgraph

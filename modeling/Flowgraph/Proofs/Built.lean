import Flowgraph.Proofs.WellFormed

/-!
# What public operations can build

A graph is *built* when public operations lead to it from the empty graph, each of which may have
succeeded or have been refused.  Building blocks, edits, dead code elimination, unrolling with any
set of nodes as body and whole passes all count.

* `Operation`: one operation that the users of a graph can ask for.
* `Built.wellFormed`: what they build is well formed.
* `built_representation`: what this means for the lists of nodes, for the graphs built later and
  for an audit.
-/

namespace Flowgraph

open Flowgraph.Graph

/-- One public operation takes a graph to another one, whether it succeeds or is refused. -/
inductive Operation : Graph → Graph → Prop
  | addStart (g : Graph) (next : NodeId) : Operation g (after (Edit.addStart next) g)
  | addAssign (g : Graph) (target : String) (value : Expr) (next : NodeId) :
      Operation g (after (Edit.addAssign target value next) g)
  | addStore (g : Graph) (target value : Expr) (next : NodeId) :
      Operation g (after (Edit.addStore target value next) g)
  | addCall (g : Graph) (call : Call) (next : NodeId) :
      Operation g (after (Edit.addCall call next) g)
  | addBranch (g : Graph) (cond : Expr) (onTrue onFalse : NodeId) :
      Operation g (after (Edit.addBranch cond onTrue onFalse) g)
  | addReturn (g : Graph) : Operation g (after Edit.addReturn g)
  | addSelfLoop (g : Graph) : Operation g (after Edit.addSelfLoop g)
  | addStub (g : Graph) : Operation g (after Edit.addStub g)
  | addBlock (g : Graph) (kinds : List Kind) (next : NodeId) :
      Operation g (after (Edit.addBlock kinds next) g)
  | addNode (g : Graph) (kind : Kind) (succs : List NodeId) :
      Operation g (after (Edit.addNode kind succs) g)
  | cloneNode (g : Graph) (node : NodeId) (succs : List NodeId) :
      Operation g (after (Edit.cloneNode node succs) g)
  | replaceSucc (g : Graph) (node old new : NodeId) :
      Operation g (after (Edit.replaceSucc node old new) g)
  | redirectEdge (g : Graph) (node : NodeId) (position : Nat) (new : NodeId) :
      Operation g (after (Edit.redirectEdge node position new) g)
  | substituteStub (g : Graph) (stub real : NodeId) :
      Operation g (after (Edit.substituteStub stub real) g)
  | discardStub (g : Graph) (stub : NodeId) : Operation g (after (Edit.discardStub stub) g)
  | removeNode (g : Graph) (node : NodeId) : Operation g (after (Edit.removeNode node) g)
  | sweep (g : Graph) : Operation g (after Edit.sweep g)
  | eliminateDeadCode (g : Graph) : Operation g (after Flowgraph.eliminateDeadCode g)
  | eliminateToFixpoint (g : Graph) (rounds : Nat) :
      Operation g (after (Flowgraph.eliminateToFixpoint rounds) g)
  | unrollLoop (g : Graph) (header : NodeId) (body : List NodeId) (config : UnrollConfig) :
      Operation g (after (Flowgraph.unrollLoop header body config) g)
  | unrollLoops (g : Graph) (config : UnrollConfig) :
      Operation g (after (Flowgraph.unrollLoops config) g)
  | deadCodePass (w : Workspace) (config : OptimizerConfig) (round : Nat) (function : String) :
      Operation w.graph (after (Flowgraph.deadCodePass.run config round function) w).graph
  | unrollPass (w : Workspace) (config : OptimizerConfig) (round : Nat) (function : String) :
      Operation w.graph (after (Flowgraph.unrollPass.run config round function) w).graph

/-- Any sequence of public operations. -/
abbrev Operations : Graph → Graph → Prop := Relation.ReflTransGen Operation

/-- Public operations lead from the empty graph to this one. -/
def Built (g : Graph) : Prop := Operations .empty g

variable {g h : Graph}

/-- Whatever its outcome, an operation makes a sequence of changes. -/
theorem Operation.changes (o : Operation g h) : Changes g h := by
  cases o with
  | addStart | addAssign | addStore | addCall | addBranch | addReturn | addSelfLoop | addStub
  | addNode => exact Edit.proper_addNode _ _ _
  | addBlock _ kinds next => exact Edit.proper_addBlock kinds next _
  | cloneNode _ node succs => exact Edit.proper_cloneNode node succs _
  | replaceSucc _ node old new => exact Edit.proper_replaceSucc node old new _
  | redirectEdge _ node position new => exact Edit.proper_redirectEdge node position new _
  | substituteStub _ stub real => exact Edit.proper_substituteStub stub real _
  | discardStub _ stub => exact Edit.proper_discardStub stub _
  | removeNode _ node => exact Edit.proper_removeNode node _
  | sweep => exact Edit.proper_sweep _
  | eliminateDeadCode => exact proper_eliminateDeadCode _
  | eliminateToFixpoint _ rounds => exact proper_eliminateToFixpoint rounds _
  | unrollLoop _ header body config => exact proper_unrollLoop header body config _
  | unrollLoops _ config => exact proper_unrollLoops config _
  | deadCodePass w config round function => exact proper_run_deadCodePass config round function w
  | unrollPass w config round function => exact proper_run_unrollPass config round function w

/-- So does a sequence of operations. -/
theorem Operations.changes (o : Operations g h) : Changes g h := by
  induction o with
  | refl => exact .refl
  | tail _ hstep ih => exact ih.trans hstep.changes

/-- What public operations build is well formed. -/
theorem Built.wellFormed (hg : Built g) : g.WellFormed :=
  Changes.wellFormed (Operations.changes hg) wellFormed_empty

/-- In a built graph every node has the successors that its kind calls for, and a self-loop has
itself; what is listed as a successor or as a predecessor is a node; the two kinds of lists describe
the same edges, and no predecessor is listed twice; the start is the one start node.  No operation
takes slots away or fills one that was vacated.  An audit asks for no more than a start that nothing
leads to and that leads to no stub. -/
theorem built_representation (hg : Built g) :
    (∀ a k, g.kind? a = some k → (g.succs a).length = k.degree) ∧
    (∀ a, g.kind? a = some .selfLoop → g.succs a = [a]) ∧
    (∀ a b, b ∈ g.succs a → g.isLive b = true) ∧
    (∀ a b, a ∈ g.preds b → g.isLive a = true) ∧
    (∀ a b, b ∈ g.succs a ↔ a ∈ g.preds b) ∧
    (∀ a, (g.preds a).Nodup) ∧
    (∀ s, g.start = some s ↔
      g.kind? s = some .start ∧ ∀ t, g.kind? t = some .start → t = s) ∧
    (∀ h, Operations g h → g.bound ≤ h.bound ∧
      ∀ id, id < g.bound → g.isLive id = false → h.isLive id = false) ∧
    (g.verify = .ok () ↔
      ∃ s, g.start = some s ∧ g.preds s = [] ∧ ∀ n, g.Reaches s n → g.kind? n ≠ some .stub) ∧
    (∀ d, g.verify = .error (.inconsistent d) →
      (∃ s, d = .startHasPreds s) ∨ ∃ t, d = .reachableStub t) := by
  have hw := hg.wellFormed
  refine ⟨fun _ _ => hw.degree, fun _ => hw.selfLoop, fun _ _ => hw.isLive_succ,
    fun _ _ => hw.isLive_pred, fun _ _ => hw.mem_preds.symm, hw.nodup_preds, fun s => ?_,
    fun h o => ?_, hw.verify_eq_ok_iff, fun d hd => ?_⟩
  · refine ⟨fun hs => ⟨hw.start_iff.mp hs, fun t ht => ?_⟩, fun hs => hw.start_iff.mpr hs.1⟩
    have : g.start = some t := hw.start_iff.mpr ht
    rw [hs, Option.some.injEq] at this
    exact this.symm
  · have c := Operations.changes o
    exact ⟨Changes.bound_le c, fun _ => Changes.vacant c⟩
  · obtain ⟨s, -, hd⟩ := hw.verify_eq_error hd
    rcases hd with ⟨hd, -⟩ | ⟨t, hd, -⟩
    · exact .inl ⟨s, hd⟩
    · exact .inr ⟨t, hd⟩

/-- A start that goes straight to a return is built and passes its audit. -/
theorem verify_addStart_addReturn :
    Built (after (Edit.addStart 0) (after Edit.addReturn .empty)) ∧
      (after (Edit.addStart 0) (after Edit.addReturn .empty)).verify = .ok () := by
  have hg : Built (after (Edit.addStart 0) (after Edit.addReturn .empty)) :=
    .tail (.single (.addReturn _)) (.addStart _ 0)
  obtain ⟨-, -, -, -, -, -, -, -, haudit, -⟩ := built_representation hg
  refine ⟨hg, haudit.mpr ⟨1, by decide, by decide, fun n hn => ?_⟩⟩
  -- the start leads to itself and to the return
  have hmem : n ∈ (after (Edit.addStart 0) (after Edit.addReturn .empty)).ids :=
    mem_ids.mpr (hg.wellFormed.isLive_of_reaches (by decide) hn)
  have hkinds : ∀ n ∈ (after (Edit.addStart 0) (after Edit.addReturn .empty)).ids,
      (after (Edit.addStart 0) (after Edit.addReturn .empty)).kind? n ≠ some .stub := by decide
  exact hkinds n hmem

end Flowgraph

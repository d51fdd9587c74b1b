import Flowgraph.Proofs.Dataflow.Termination

/-!
# What a forward problem can see

A forward problem is solved over the nodes that the start leads to.  It reads the successors of such
a node, and of its predecessors those that the start leads to as well.  Two graphs that differ in
nothing else have the same solution, with the same visits in the same order.

* `Graph.SameFlow`: two graphs that are the same as far as the start leads.
* `Graph.SameFlow.reachable_eq`, `Graph.SameFlow.reversePostorder_eq`: so are the searches from the
  start.
* `Problem.visit_eq`, `Problem.run_eq`: one visit, and so every run.
* `Problem.solve_eq_of_sameFlow`: the solution.
-/

namespace Flowgraph

variable {g h : Graph} {n start : NodeId}

/-- Two graphs have the same slots and the same start, and the nodes that it leads to have the same
successors and, among themselves, the same predecessors. -/
structure Graph.SameFlow (g h : Graph) : Prop where
  bound_eq : h.bound = g.bound
  start_eq : h.start = g.start
  isLive : ∀ {n}, n ∈ g.reachable → h.isLive n = true
  succs_eq : ∀ {n}, n ∈ g.reachable → h.succs n = g.succs n
  preds_eq : ∀ {n}, n ∈ g.reachable →
    ((h.preds n).filter fun m => g.reachable.contains m) =
      (g.preds n).filter fun m => g.reachable.contains m

namespace Graph.SameFlow

/-- As far as the start leads the edges are the same. -/
theorem agreeOn (hgh : g.SameFlow h) (hg : g.WellFormed) (hs : g.start = some start) :
    g.flow.AgreeOn h.flow (· ∈ g.reachable) where
  isLive_eq hn := (hgh.isLive hn).trans (isLive_of_mem_reachable hn).symm
  succs_eq hn := hgh.succs_eq hn
  closed ha hab := hg.mem_reachable_of_succ hs ha hab

/-- A search from the start cannot tell the graphs apart. -/
theorem reachable_eq (hgh : g.SameFlow h) (hg : g.WellFormed) (hs : g.start = some start) :
    h.reachable = g.reachable := by
  rw [reachable, reachable, hgh.start_eq, hs, Option.map_some, Option.map_some, Option.getD_some,
    (hgh.agreeOn hg hs).dfs_eq ((hg.mem_reachable hs).mpr .refl), Option.getD_some]

/-- Nor can the order of the first visits. -/
theorem reversePostorder_eq (hgh : g.SameFlow h) (hg : g.WellFormed) (hs : g.start = some start) :
    h.flow.reversePostorder start = g.flow.reversePostorder start := by
  rw [Digraph.reversePostorder, Digraph.reversePostorder,
    (hgh.agreeOn hg hs).postorder_eq ((hg.mem_reachable hs).mpr .refl)]

end Graph.SameFlow

namespace Dataflow.Problem

variable {α : Type} [MeetLattice α] {p : Problem α} {s : State α}

omit [MeetLattice α] in
theorem targets_eq (hp : p.direction = .forward) (hgh : g.SameFlow h) (hn : n ∈ g.reachable) :
    p.direction.targets h n = p.direction.targets g n := by
  rw [hp]
  exact hgh.succs_eq hn

omit [MeetLattice α] in
/-- The same values arrive: of the predecessors only those that the start leads to count. -/
theorem arriving_eq (hp : p.direction = .forward) (hgh : g.SameFlow h) (hn : n ∈ g.reachable) :
    p.arriving h g.reachable s n = p.arriving g g.reachable s n := by
  have hsources : ((p.direction.sources h n).filter fun m => g.reachable.contains m) =
      (p.direction.sources g n).filter fun m => g.reachable.contains m := by
    rw [hp]
    exact hgh.preds_eq hn
  rw [arriving, arriving, hsources]
  refine List.flatMap_congr fun m hm => ?_
  rw [targets_eq hp hgh (List.contains_iff_mem.mp (List.mem_filter.mp hm).2)]

/-- So the input of a node is the same. -/
theorem inputAt_eq (hp : p.direction = .forward) (hgh : g.SameFlow h) (hn : n ∈ g.reachable) :
    p.inputAt h g.reachable start s n = p.inputAt g g.reachable start s n := by
  simp only [inputAt, atBoundary, hp, arriving_eq hp hgh hn]

variable [DecidableEq α]

/-- A visit sees no difference. -/
theorem visit_eq (hp : p.direction = .forward) (hgh : g.SameFlow h) (hn : n ∈ g.reachable) :
    p.visit h g.reachable start n s = p.visit g g.reachable start n s := by
  rw [visit, visit, inputAt_eq hp hgh hn, targets_eq hp hgh hn]

/-- Nor does a run, as only nodes that the start leads to ever wait. -/
theorem run_eq (hp : p.direction = .forward) (hgh : g.SameFlow h) (k : Nat)
    (hs : ∀ m ∈ s.pending, m ∈ g.reachable) :
    p.run h g.reachable start k s = p.run g g.reachable start k s := by
  induction k generalizing s with
  | zero => rfl
  | succ k ih =>
      rw [run, run]
      cases hpend : s.pending with
      | nil => rfl
      | cons n rest =>
          have hn : n ∈ g.reachable := hs n (hpend ▸ List.mem_cons_self)
          have hstep : p.step h g.reachable start s = p.step g g.reachable start s := by
            rw [step, step, hpend]
            exact visit_eq hp hgh hn
          rw [hstep]
          refine ih fun m hm => ?_
          rw [step, hpend] at hm
          rcases mem_pending_visit.mp hm with hm | hm
          · exact hs m (hpend ▸ List.mem_cons_of_mem _ hm)
          · exact (mem_stale.mp hm).1

section Start

omit [MeetLattice α] [DecidableEq α]

/-- The solver begins in the same state. -/
theorem initial_eq (hp : p.direction = .forward) (hgh : g.SameFlow h) (hg : g.WellFormed)
    (hs : g.start = some start) :
    p.initial h g.reachable start = p.initial g g.reachable start := by
  have horder : p.direction.order h start = p.direction.order g start := by
    rw [hp]
    exact hgh.reversePostorder_eq hg hs
  simp only [initial, horder, hgh.bound_eq]
  congr 3
  refine funext fun n => ?_
  split
  · next hn => rw [targets_eq hp hgh hn]
  · rfl

/-- It may make as many visits. -/
theorem budget_eq (hp : p.direction = .forward) (hgh : g.SameFlow h) (hg : g.WellFormed)
    (hs : g.start = some start) : p.budget h = p.budget g := by
  rw [budget, budget, hgh.reachable_eq hg hs,
    List.flatMap_congr fun n hn => targets_eq hp hgh hn]

end Start

/-- A forward problem has the same solution on graphs that are the same as far as the start
leads. -/
theorem solve_eq_of_sameFlow (hp : p.direction = .forward) (hgh : g.SameFlow h)
    (hg : g.WellFormed) (hs : g.start = some start) : p.solve h = p.solve g := by
  have hpending : ∀ m ∈ (p.initial g g.reachable start).pending, m ∈ g.reachable := fun m hm =>
    (Direction.mem_order hg.toLinked _ hs (hg.isLive_start hs)).mp hm
  rw [solve, solve, budget_eq hp hgh hg hs, solveWithin_eq hs,
    solveWithin_eq (hgh.start_eq.trans hs), hgh.reachable_eq hg hs, initial_eq hp hgh hg hs,
    run_eq hp hgh _ hpending]

end Dataflow.Problem

end Flowgraph

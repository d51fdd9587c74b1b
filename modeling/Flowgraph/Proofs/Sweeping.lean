import Flowgraph.Proofs.Dataflow.Reached
import Flowgraph.Proofs.NaturalLoops

/-!
# What a sweep takes away

A sweep vacates the slots of all nodes that the start does not lead to at once, and then takes them
off the predecessor lists.  What is left has the same flow as before, so that dominators and loops
are the same, and there is nothing left for another sweep.

* `Graph.WellFormed.sameFlow_swept`: the start leads to the same nodes by the same edges.
* `Graph.SameFlow.dominators_eq`, `Graph.SameFlow.detect_eq`: dominators and loops depend on nothing
  else.
* `sweep_exact`: sweeping a built graph.
-/

namespace Flowgraph

open Flowgraph.Graph

variable {g h : Graph} {d : Dominators} {n header start target : NodeId} {tails : List NodeId}

/-! ### What is left -/

namespace Graph

theorem ascending_unreachable (g : Graph) : Ascending g.unreachable := by
  rw [unreachable]
  split
  · exact .nil
  · exact (List.pairwise_lt_range.filter _).filter _

/-- The nodes that are left and those that are not are all that there were. -/
theorem count_swept (hs : g.start = some start) :
    g.count = g.swept.count + g.unreachable.length := by
  have hids : g.swept.ids = g.ids.filter fun n => g.reachable.contains n := by
    rw [ids, ids, bound_swept, List.filter_filter, swept_of_start hs]
    exact List.filter_congr fun n _ => isLive_restrict ..
  rw [count, count, hids, unreachable, hs]
  exact List.length_eq_length_filter_add _

namespace WellFormed

/-- A sweep leaves the graph as it was as far as the start leads. -/
theorem sameFlow_swept (hg : g.WellFormed) (hs : g.start = some start) : g.SameFlow g.swept where
  bound_eq := bound_swept g
  start_eq := start_swept g
  isLive hn := (hg.isLive_swept_iff hs).mpr ((hg.mem_reachable hs).mp hn)
  succs_eq hn := hg.succs_swept hs ((hg.mem_reachable hs).mp hn)
  preds_eq hn := by
    rw [swept_of_start hs, preds_restrict, if_pos (List.contains_iff_mem.mpr hn),
      List.filter_filter]
    simp only [Bool.and_self]

/-- The start leads to the same nodes. -/
theorem reaches_swept (hg : g.WellFormed) (hs : g.start = some start) :
    g.swept.Reaches start n ↔ g.Reaches start n := by
  rw [← hg.swept.mem_reachable ((start_swept g).trans hs), ← hg.mem_reachable hs,
    (hg.sameFlow_swept hs).reachable_eq hg hs]

/-- A sweep drops the nodes that the start does not lead to. -/
theorem mem_unreachable (hg : g.WellFormed) (hs : g.start = some start) :
    n ∈ g.unreachable ↔ g.isLive n = true ∧ ¬g.Reaches start n := by
  rw [unreachable, hs]
  refine List.mem_filter.trans (and_congr mem_ids ?_)
  rw [Bool.not_eq_true', ← Bool.not_eq_true, hg.contains_reachable_iff hs]

/-- After a sweep there is nothing left to sweep. -/
theorem unreachable_swept (hg : g.WellFormed) (hs : g.start = some start) :
    g.swept.unreachable = [] := by
  refine List.eq_nil_iff_forall_not_mem.mpr fun n hn => ?_
  obtain ⟨hlive, hout⟩ := (hg.swept.mem_unreachable ((start_swept g).trans hs)).mp hn
  exact hout ((hg.reaches_swept hs).mpr ((hg.isLive_swept_iff hs).mp hlive))

end WellFormed

end Graph

/-! ### Dominators and loops -/

namespace Graph.SameFlow

/-- Two graphs have the same predecessors with a property that only nodes have that the start leads
to. -/
theorem filter_preds_eq (hgh : g.SameFlow h) (hn : n ∈ g.reachable) {p : NodeId → Bool}
    (hp : ∀ m, p m = true → m ∈ g.reachable) : (h.preds n).filter p = (g.preds n).filter p := by
  have hand : p = fun m => p m && g.reachable.contains m := funext fun m => by
    cases hm : p m with
    | false => rfl
    | true => simpa using hp m hm
  rw [hand, ← List.filter_filter, ← List.filter_filter, hgh.preds_eq hn]

/-- Dominance looks no further than the start leads. -/
theorem dominators_eq (hgh : g.SameFlow h) (hg : g.WellFormed) (hs : g.start = some start) :
    Dominators.compute h = Dominators.compute g := by
  have hproblem : dominatorProblem h = dominatorProblem g := by
    rw [dominatorProblem, dominatorProblem, hgh.bound_eq]
  rw [Dominators.compute, Dominators.compute, entry, entry, hgh.start_eq, hproblem,
    Dataflow.Problem.solve_eq_of_sameFlow rfl hgh hg hs]

variable (hgh : g.SameFlow h) (hg : g.WellFormed) (hs : g.start = some start)
  (hd : d.Correct g start)

include hgh hg hs hd

theorem backEdgeSources_eq (hn : header ∈ g.reachable) :
    backEdgeSources h d header = backEdgeSources g d header :=
  hgh.filter_preds_eq hn fun _ hm => (hg.mem_reachable hs).mpr (hd.dominates_iff.mp hm).1

/-- The edges that are followed against their direction are the same too. -/
theorem agreeOn_withoutHeader :
    (g.withoutHeader d header).AgreeOn (h.withoutHeader d header) (· ∈ g.reachable) := by
  have hreach {m : NodeId} (hm : (m != header && d.isReachable m) = true) : m ∈ g.reachable :=
    (hg.mem_reachable hs).mpr (hd.isReachable_iff.mp (Bool.and_eq_true_iff.mp hm).2)
  exact
    { isLive_eq := fun hn => (hgh.isLive hn).trans (isLive_of_mem_reachable hn).symm
      succs_eq := fun hn => hgh.filter_preds_eq hn fun _ => hreach
      closed := fun _ hb => hreach (List.mem_filter.mp hb).2 }

/-- Nor do the bodies of loops. -/
theorem loopBody_eq (htails : ∀ t ∈ tails, t ∈ g.reachable) :
    loopBody h d header tails = loopBody g d header tails := by
  rw [loopBody, loopBody, (hgh.agreeOn_withoutHeader hg hs hd).closure_eq fun t ht =>
    htails t (List.mem_filter.mp ht).1]

theorem ofHeader_eq (hn : header ∈ g.reachable) :
    NaturalLoop.ofHeader h d header = NaturalLoop.ofHeader g d header := by
  have htails : ∀ t ∈ backEdgeSources g d header, t ∈ g.reachable := fun t ht =>
    (hg.mem_reachable hs).mpr (hd.dominates_iff.mp (List.mem_filter.mp ht).2).1
  rw [NaturalLoop.ofHeader, NaturalLoop.ofHeader, hgh.backEdgeSources_eq hg hs hd hn,
    hgh.loopBody_eq hg hs hd htails]

/-- The same loops are found in the same order. -/
theorem detect_eq : LoopForest.detect h d = LoopForest.detect g d := by
  have horder {m : NodeId} : m ∈ g.flow.reversePostorder start ↔ m ∈ g.reachable :=
    Dataflow.Direction.mem_order hg.toLinked .forward hs (hg.isLive_start hs)
  have hedges : LoopForest.edgesFrom h start = LoopForest.edgesFrom g start := by
    rw [LoopForest.edgesFrom, LoopForest.edgesFrom, hgh.reversePostorder_eq hg hs]
    exact List.flatMap_congr fun m hm => by rw [hgh.succs_eq (horder.mp hm)]
  rw [LoopForest.detect, LoopForest.detect, hd.start_eq, hedges]
  refine List.foldl_ext _ _ [] fun f e he => ?_
  obtain ⟨m, hm, he⟩ := List.mem_flatMap.mp he
  obtain ⟨target, htarget, rfl⟩ := List.mem_map.mp he
  have hn := hg.mem_reachable_of_succ hs (horder.mp hm) htarget
  dsimp only [LoopForest.addEdge]
  rw [hgh.ofHeader_eq hg hs hd hn]

end Graph.SameFlow

/-! ### Sweeping a built graph -/

/-- A sweep of a built graph with a start leaves what paths from the start lead to, with the same
kinds and successors and with those of the predecessors that are left, in the same order.  It counts
what is gone.  Dominators and loops are as before, and a second sweep takes nothing away.  Without a
start nothing changes. -/
theorem sweep_exact (hg : Built g) :
    (∀ start, g.start = some start → ∃ swept h, Edit.sweep g = .ok swept h ∧
      h.bound = g.bound ∧ h.start = some start ∧
      (∀ n, h.isLive n = true ↔ g.Reaches start n) ∧
      (∀ n, g.Reaches start n → h.kind? n = g.kind? n ∧ h.succs n = g.succs n ∧
        h.preds n = (g.preds n).filter h.isLive) ∧
      g.count = h.count + swept ∧
      (∃ d, Dominators.compute g = .ok d ∧ Dominators.compute h = .ok d ∧
        LoopForest.detect h d = LoopForest.detect g d) ∧
      Edit.sweep h = .ok 0 h) ∧
    (g.start = none → Edit.sweep g = .ok 0 g) := by
  have hw := hg.wellFormed
  refine ⟨fun start hs => ?_, fun hs => ?_⟩
  · have hflow := hw.sameFlow_swept hs
    have hlive {n : NodeId} := hw.isLive_swept_iff hs (a := n)
    obtain ⟨d, hd, -⟩ := Dominators.compute_spec hw hs
    have hcorrect := Dominators.correct_of_compute hw hs hd
    have hnone := hw.unreachable_swept hs
    refine ⟨_, g.swept, rfl, hflow.bound_eq, hflow.start_eq.trans hs, fun n => hlive,
      fun n hn => ⟨hw.kind?_swept hs hn, hw.succs_swept hs hn, ?preds⟩, count_swept hs,
      ⟨d, hd, (hflow.dominators_eq hw hs).trans hd, hflow.detect_eq hw hs hcorrect⟩, ?again⟩
    case preds =>
      rw [swept_of_start hs, preds_restrict, if_pos ((hw.contains_reachable_iff hs).mpr hn),
        ← swept_of_start hs]
      refine List.filter_congr fun m _ => Bool.eq_iff_iff.mpr ?_
      rw [hlive, hw.contains_reachable_iff hs]
    case again =>
      have hself := hw.swept.swept_eq_self (hflow.start_eq.trans hs) hnone
      rw [Edit.sweep_apply, hnone, hself, List.length_nil]
  · obtain ⟨hsame, hnil⟩ := swept_of_no_start hs
    rw [Edit.sweep_apply, hsame, hnil, List.length_nil]

/-- A start that goes to a return, beside a cycle of two assignments and a branch that goes to the
cycle and to the return. -/
def cycleBeside : Graph :=
  after (Edit.addStart 0) (after (Edit.addBranch (.temp "c") 0 2) (after (Edit.substituteStub 1 3)
    (after (Edit.addAssign "y" (.temp "x") 2) (after (Edit.addAssign "x" (.temp "y") 1)
      (after Edit.addStub (after Edit.addReturn .empty))))))

/-- The cycle and the branch go in one sweep, and the return keeps the start as its predecessor. -/
theorem sweep_exact_cycleBeside :
    Built cycleBeside ∧ cycleBeside.start = some 5 ∧ cycleBeside.preds 2 = [3, 4] ∧
      cycleBeside.preds 0 = [4, 5] ∧
      ∃ h, Edit.sweep cycleBeside = .ok 3 h ∧ h.count = 2 ∧ h.preds 0 = [5] ∧
        Edit.sweep h = .ok 0 h := by
  have hg : Built cycleBeside :=
    .tail (.tail (.tail (.tail (.tail (.tail (.single (.addReturn _)) (.addStub _))
      (.addAssign _ _ _ _)) (.addAssign _ _ _ _)) (.substituteStub _ _ _)) (.addBranch _ _ _ _))
      (.addStart _ _)
  have hs : cycleBeside.start = some 5 := by decide +kernel
  obtain ⟨swept, h, hok, -, -, -, -, hcount, -, hagain⟩ := (sweep_exact hg).1 5 hs
  have hdone : after Edit.sweep cycleBeside = h := after_of_ok hok
  have hleft : h.count = 2 := hdone ▸ (by decide +kernel)
  have hall : cycleBeside.count = 5 := by decide +kernel
  obtain rfl : swept = 3 := by omega
  exact ⟨hg, hs, by decide +kernel, by decide +kernel, h, hok, hleft, hdone ▸ (by decide +kernel),
    hagain⟩

end Flowgraph

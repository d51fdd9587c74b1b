import Flowgraph.Proofs.Built
import Flowgraph.Proofs.LiveVariables

/-!
# The solver finds the greatest solution

On every built graph with a start, visits end in the greatest solution of a lawful problem whose
values cannot fall for ever.  The order of the visits and of the queue does not matter.

* `final_state`: what any finished sequence of visits has found.
* `solve_spec`: what the solver finds when the values have ranks.
* `greatest_solution`: the solver finishes, with the greatest solution.
-/

namespace Flowgraph.Dataflow

open Flowgraph.Graph

variable {α : Type} [MeetLattice α] [DecidableEq α] {p : Problem α} {g : Graph} {start : NodeId}
  {valid : α → Prop} {s : State α}

/-- Visits that begin with every node in the queue and end with an empty one find a solution, and no
solution is above it. -/
theorem final_state (hp : p.Lawful g valid) (hg : g.Linked) {queue : List NodeId}
    (hq : ∀ n, n ∈ queue ↔ n ∈ g.reachable)
    (hv : Relation.ReflTransGen (Visits p g start)
      { p.initial g g.reachable start with pending := queue } s) (hend : s.pending = []) :
    Records p g (s.family p) s ∧ Solves p g start (s.family p) ∧ (s.family p).Valid p g valid ∧
      ∀ G, Solves p g start G → G.Valid p g valid → G.Le p g (s.family p) := by
  have hi : Underway p g start valid { p.initial g g.reachable start with pending := queue } :=
    .initial hp hq
  have hs := hi.of_reflTransGen hp hg hv
  refine ⟨hs.records hend, hs.solves hp hg hend, hs.valid_family hend, fun G hG hGv => ?_⟩
  exact hs.le_family hp hg hend hG hGv
    (hi.above_of_reflTransGen hp hg hG hGv (Underway.above_initial hp hGv) hv)

/-- If the values have ranks and the top has no more rank than the problem says, the solver finishes
with the greatest solution. -/
theorem solve_spec (hp : p.Lawful g valid) (hg : g.WellFormed) (hs : g.start = some start)
    {rank : α → Nat} (hrank : Ranks valid rank) (htop : rank p.top ≤ p.height) :
    ∃ F r, p.solve g = .ok r ∧ Records p g F r ∧ Solves p g start F ∧ F.Valid p g valid ∧
      ∀ G, Solves p g start G → G.Valid p g valid → G.Le p g F := by
  obtain ⟨r, hr, hend, -⟩ := solve_eq hp hg hs hrank htop
  have hrun := hr
  rw [Problem.solve, solveWithin_eq hs, Except.ok.injEq] at hrun
  have horder : ∀ n, n ∈ p.direction.order g start ↔ n ∈ g.reachable := fun _ =>
    Direction.mem_order hg.toLinked _ hs (hg.isLive_start hs)
  exact ⟨_, r, hr, final_state hp hg.toLinked horder (hrun ▸ reflTransGen_run _) hend⟩

/-- Take a built graph with a start and a problem that is lawful on some set of values, none of
which begins an infinite strict descent.  There is a solution above all others.  The solver
finishes and records it for the nodes that the start leads to, and nothing for any other slot; and
so does every other sequence of visits, whatever the order of the queue.  If the top has no more
rank than the height of the problem, the solver needs no more visits than its budget. -/
theorem greatest_solution (hg : Built g) (hs : g.start = some start) (hp : p.Lawful g valid)
    (hfin : NoDescent valid) :
    ∃ F : Family α, Solves p g start F ∧ F.Valid p g valid ∧
      (∀ G, Solves p g start G → G.Valid p g valid → G.Le p g F) ∧
      (∃ r N, (∀ k, N ≤ k → p.solveWithin g k = .ok r) ∧ r.pending = [] ∧ Records p g F r) ∧
      (∀ queue, (∀ n, n ∈ queue ↔ n ∈ g.reachable) →
        Acc (fun t s => Visits p g start s t)
          { p.initial g g.reachable start with pending := queue } ∧
        ∀ s, Relation.ReflTransGen (Visits p g start)
          { p.initial g g.reachable start with pending := queue } s →
          s.pending = [] → Records p g F s) ∧
      (∀ rank, Ranks valid rank → rank p.top ≤ p.height →
        ∃ r, p.solve g = .ok r ∧ r.pending = [] ∧ Records p g F r) ∧
      (∀ n, n ∈ g.reachable ↔ g.Reaches start n) := by
  have hw := hg.wellFormed
  have hl := hw.toLinked
  have horder : ∀ n, n ∈ p.direction.order g start ↔ n ∈ g.reachable := fun _ =>
    Direction.mem_order hl _ hs (hw.isLive_start hs)
  have hinit : Underway p g start valid (p.initial g g.reachable start) := .initial hp horder
  obtain ⟨N, hN⟩ := exists_run_of_acc (hinit.acc_visits hp hl hfin)
  obtain ⟨hrec, hsol, hval, hgreat⟩ := final_state hp hl horder (reflTransGen_run N) hN
  -- visits that end elsewhere have found a solution above all others too
  have hsame : ∀ queue, (∀ n, n ∈ queue ↔ n ∈ g.reachable) → ∀ s,
      Relation.ReflTransGen (Visits p g start)
        { p.initial g g.reachable start with pending := queue } s →
      s.pending = [] → Records p g
        ((p.run g g.reachable start N (p.initial g g.reachable start)).family p) s := by
    intro queue hq s hv hend
    obtain ⟨hrec', hsol', hval', hgreat'⟩ := final_state hp hl hq hv hend
    exact Family.Le.of_records hp hval' hval (hgreat _ hsol' hval') (hgreat' _ hsol hval) hrec'
  refine ⟨_, hsol, hval, hgreat, ⟨_, N, fun k hk => ?_, hN, hrec⟩, fun queue hq => ⟨?_, ?_⟩,
    fun rank hrank htop => ?_, fun n => hw.mem_reachable hs⟩
  · rw [solveWithin_eq hs, run_eq_of_pending_nil hN hk]
  · exact (Underway.initial hp hq).acc_visits hp hl hfin
  · exact hsame queue hq
  · obtain ⟨r, hr, hend, -⟩ := solve_eq hp hw hs hrank htop
    refine ⟨r, hr, hend, ?_⟩
    rw [Problem.solve, solveWithin_eq hs, Except.ok.injEq] at hr
    exact hsame _ horder r (hr ▸ reflTransGen_run _) hend

/-- A branch on a return temporary both of whose edges lead to the return. -/
def parallelBranch : Graph :=
  after (Edit.addStart 1) (after (Edit.addBranch (.temp "_RV") 0 0) (after Edit.addReturn .empty))

/-- Liveness has a greatest solution on a graph with parallel edges.  What enters it at the return
is the set of the one return temporary, which is live before the start as well. -/
theorem greatest_solution_parallelBranch :
    Built parallelBranch ∧ parallelBranch.start = some 2 ∧
      ∃ (F : Family VarSet) (r : State VarSet) (N : Nat),
        Solves (Variables.ofGraph parallelBranch).problem parallelBranch 2 F ∧
        (∀ k, N ≤ k →
          (Variables.ofGraph parallelBranch).problem.solveWithin parallelBranch k = .ok r) ∧
        F.input 0 = ⟨.ofList 1 [0]⟩ ∧ r.input 0 = some ⟨.ofList 1 [0]⟩ ∧
        r.output 2 = some ⟨.ofList 1 [0]⟩ := by
  have hg : Built parallelBranch :=
    .tail (.tail (.single (.addReturn _)) (.addBranch _ _ _ _)) (.addStart _ _)
  have hs : parallelBranch.start = some 2 := by decide
  obtain ⟨F, hF, -, -, ⟨r, N, hr, -, hrec⟩, -, hsolve, -⟩ := greatest_solution hg hs
    (Variables.lawful (Variables.fits_ofGraph parallelBranch) parallelBranch)
    (noDescent_of_ranks (VarSet.ranks _))
  have hreturn : 0 ∈ parallelBranch.reachable := by decide +kernel
  have hinput : F.input 0 = ⟨.ofList 1 [0]⟩ :=
    hF.boundary hreturn (by decide +kernel) (show parallelBranch.succs 0 = [] by decide)
  -- the solver records the same solution within its budget, where it can be run
  obtain ⟨r', hr', -, hrec'⟩ := hsolve _ (VarSet.ranks _) (VarSet.card_missing_le _ _)
  have hstart : 2 ∈ parallelBranch.reachable := by decide +kernel
  have hfound : ((Variables.ofGraph parallelBranch).problem.solve parallelBranch).toOption.map
      (fun s => s.output 2) = some (some ⟨.ofList 1 [0]⟩) := by decide +kernel
  rw [hr'] at hfound
  refine ⟨hg, hs, F, r, N, hF, hr, hinput, ?_, ?_⟩
  · rw [State.input, hrec.reached hreturn, hinput]
  · rw [State.output, hrec.reached hstart, ← hrec'.reached hstart]
    exact Option.some.inj hfound

end Flowgraph.Dataflow

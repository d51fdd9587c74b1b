import Flowgraph.Proofs.BitSetMembers
import Flowgraph.Proofs.Dominance

/-!
# The analyses keep the contract of the solver

Sets of nodes and sets of variables of one capacity are meet semilattices in which the bottom is
what no meet changes.  The transfers of dominators and of liveness are monotone on them.  So both
analyses end, and each visit after the first one of a node is paid for by an edge that has lost a
node or gained a variable.

* `BottomAbsorbs`, `Problem.Monotone`: what the contract asks of bottoms and of transfers.
* `NodeSet.bottomAbsorbs`, `VarSet.bottomAbsorbs`: the bottoms of the two lattices.
* `monotone_dominatorProblem`, `Variables.monotone_problem`: the transfers of the two analyses.
* `analyses_end_in_bounds`: the contract, and how many visits the analyses of a built graph take.
-/

namespace Flowgraph

open Dataflow Flowgraph.Graph

variable {g : Graph} {start : NodeId}

namespace Dataflow

variable {α : Type} [MeetLattice α]

/-- Exactly the bottoms are left alone by every meet. -/
def BottomAbsorbs (valid : α → Prop) : Prop :=
  ∀ a, valid a → (isBottom a = true ↔ ∀ b, valid b → meet a b = a)

/-- Values do not rise when the input falls. -/
def Problem.Monotone (p : Problem α) (valid : α → Prop) : Prop :=
  ∀ n a b, valid a → valid b → Below a b → List.Forall₂ Below (p.transfer n a) (p.transfer n b)

omit [MeetLattice α] in
/-- The budget of a problem, said with the number of the edges at each node. -/
theorem Problem.budget_eq_add (p : Problem α) (g : Graph) :
    p.budget g = g.reachable.length +
      (g.reachable.map fun n => (p.direction.targets g n).length).sum * p.height := by
  rw [budget, List.length_flatMap]

end Dataflow

/-- The bottom of the sets of nodes is the empty set. -/
theorem NodeSet.bottomAbsorbs (capacity : Nat) : BottomAbsorbs (NodeSet.Fits capacity) := by
  intro s hs
  have hbottom : isBottom s = true ↔ ∀ i, s.bits.bit i = false := BitSet.all_words_eq_zero_iff
  rw [hbottom]
  constructor
  · intro h t ht
    refine (below_iff hs ht).mpr fun i hi => ?_
    rw [h i] at hi
    cases hi
  · intro h i
    refine Bool.eq_false_iff.mpr fun hi => not_bit_empty capacity i ?_
    exact (below_iff hs (fits_empty capacity)).mp (h _ (fits_empty capacity)) i hi

/-- The bottom of the sets of variables is the set of all of them. -/
theorem VarSet.bottomAbsorbs (capacity : Nat) : BottomAbsorbs (VarSet.Fits capacity) := by
  intro s hs
  have hrange : s.bits.members ⊆ Finset.range capacity := fun i hi =>
    Finset.mem_range.mpr (hs.lt_capacity ((BitSet.Fits.mem_members hs).mp hi))
  have hbottom : isBottom s = true ↔ Finset.range capacity ⊆ s.bits.members := by
    have hcount : isBottom s = true ↔ s.bits.members.card = capacity := by
      rw [← BitSet.Fits.count_eq_card hs, ← BitSet.Fits.capacity_eq hs]
      exact decide_eq_true_iff
    rw [hcount]
    refine ⟨fun h => ?_, fun h => ?_⟩
    · exact (Finset.eq_of_subset_of_card_le hrange (by rw [Finset.card_range, h])).ge
    · rw [hrange.antisymm h, Finset.card_range]
  rw [hbottom]
  constructor
  · intro h t ht
    refine (below_iff hs ht).mpr fun i hi => (BitSet.Fits.mem_members hs).mp (h ?_)
    exact Finset.mem_range.mpr (ht.lt_capacity hi)
  · intro h i hi
    have hfull : VarSet.Fits capacity ⟨BitSet.full capacity⟩ := BitSet.fits_full capacity
    refine (BitSet.Fits.mem_members hs).mpr ((below_iff hs hfull).mp (h _ hfull) i ?_)
    rw [BitSet.bit_full]
    exact decide_eq_true (Finset.mem_range.mp hi)

/-- Adding the node to a set respects inclusion. -/
theorem monotone_dominatorProblem (g : Graph) :
    (dominatorProblem g).Monotone (NodeSet.Fits g.bound) := fun n _ _ ha hb hab =>
  .cons (NodeSet.insert_mono ha hb hab n) .nil

/-- So does the transfer of liveness. -/
theorem Variables.monotone_problem {v : Variables} (hv : v.Fits) :
    v.problem.Monotone (VarSet.Fits v.count) := fun _ _ _ ha hb hab =>
  .cons (transfer_mono hv ha hb hab) .nil

/-- The sets of nodes of one capacity are a meet semilattice with the set of all of them as its top,
the sets of variables of one capacity are one with the empty set as its top, and in both exactly the
bottoms are left alone by every meet.  The transfers of dominators and of liveness are monotone.  On
every built graph with a start both analyses are done after visiting every reached node once, and
once more for each edge and each node or variable that the sets on it can lose or gain. -/
theorem analyses_end_in_bounds (hg : Built g) (hs : g.start = some start) :
    (∀ capacity, MeetLaws (NodeSet.Fits capacity) (.full capacity) ∧
      BottomAbsorbs (NodeSet.Fits capacity)) ∧
    (∀ capacity, MeetLaws (VarSet.Fits capacity) (.empty capacity) ∧
      BottomAbsorbs (VarSet.Fits capacity)) ∧
    (dominatorProblem g).Monotone (NodeSet.Fits g.bound) ∧
    (Variables.ofGraph g).problem.Monotone (VarSet.Fits (Variables.ofGraph g).count) ∧
    (dominatorProblem g).EndsWithin g (g.reachable.length +
      (g.reachable.map fun n => (g.succs n).length).sum * g.bound) ∧
    (Variables.ofGraph g).problem.EndsWithin g (g.reachable.length +
      (g.reachable.map fun n => (g.preds n).length).sum * (Variables.ofGraph g).count) ∧
    g.reachable.Nodup ∧ ∀ n, n ∈ g.reachable ↔ g.Reaches start n := by
  have hw := hg.wellFormed
  have hv := Variables.fits_ofGraph g
  refine ⟨fun capacity => ⟨NodeSet.meetLaws capacity, NodeSet.bottomAbsorbs capacity⟩,
    fun capacity => ⟨VarSet.meetLaws capacity, VarSet.bottomAbsorbs capacity⟩,
    monotone_dominatorProblem g, Variables.monotone_problem hv, ?_, ?_, nodup_reachable g,
    fun n => hw.mem_reachable hs⟩
  · have hends := endsWithin_budget (dominatorProblem_lawful g) hw hs (NodeSet.ranks g.bound)
      (NodeSet.card_members_le g.bound _)
    rwa [Problem.budget_eq_add] at hends
  · have hends := endsWithin_budget (Variables.lawful hv g) hw hs (VarSet.ranks _)
      (VarSet.card_missing_le _ _)
    rwa [Problem.budget_eq_add] at hends

/-- With three nodes, three edges, room for four nodes and one variable, fifteen visits are enough
for dominators and six for liveness, although there is a cycle through the start. -/
theorem analyses_end_in_bounds_backToStart :
    Built backToStart ∧ backToStart.start = some 3 ∧ 3 ∈ backToStart.succs 2 ∧
      (dominatorProblem backToStart).EndsWithin backToStart 15 ∧
      (Variables.ofGraph backToStart).problem.EndsWithin backToStart 6 := by
  have hg : Built backToStart :=
    .tail (.tail (.tail (.tail (.single (.addReturn _)) (.addStub _)) (.addBranch _ _ _ _))
      (.addStart _ _)) (.substituteStub _ _ _)
  have hs : backToStart.start = some 3 := by decide
  obtain ⟨-, -, -, -, hdom, hlive, -⟩ := analyses_end_in_bounds hg hs
  have hfor : backToStart.reachable.length +
      (backToStart.reachable.map fun n => (backToStart.succs n).length).sum * backToStart.bound =
        15 := by decide +kernel
  have hback : backToStart.reachable.length +
      (backToStart.reachable.map fun n => (backToStart.preds n).length).sum *
        (Variables.ofGraph backToStart).count = 6 := by decide +kernel
  rw [hfor] at hdom
  rw [hback] at hlive
  exact ⟨hg, hs, by decide, hdom, hlive⟩

end Flowgraph

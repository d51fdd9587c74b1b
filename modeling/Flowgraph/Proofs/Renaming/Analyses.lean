import Flowgraph.Loop.Natural
import Flowgraph.Proofs.Dataflow.Matching
import Flowgraph.Proofs.PathLiveness
import Flowgraph.Proofs.Renaming.Graphs
import Flowgraph.Unroll.Report

/-!
# What the analyses find in a renamed graph

Dominators and loops are read off the edges, and so they are the same in a renamed graph.  Live
variables are numbered in the order of their names, which a renaming may change in any way: a set of
variables goes with the set of the renamed ones, whatever their numbers are, and the two liveness
problems are solved in step.

* `Problem.solve_rename`, `Dominators.compute_rename`, `LoopForest.detect_rename`: what does not
  look at names.
* `VarSet.Renamed`: two sets of variables that go with each other; `Variables.matches_rename`: the
  two liveness problems match along it.
* `Liveness.compute_rename`: as many visits, and the renamed names live at every node.
-/

namespace Flowgraph

open Dataflow

variable {ρ : String → String} {g : Graph} {n start : NodeId}

/-! ### What does not look at names -/

namespace Dataflow

@[simp] theorem Direction.targets_rename (d : Direction) :
    d.targets (g.rename ρ) = d.targets g := by
  funext n
  cases d <;> simp [targets]

@[simp] theorem Direction.sources_rename (d : Direction) :
    d.sources (g.rename ρ) = d.sources g := by
  funext n
  cases d <;> simp [sources]

@[simp] theorem Direction.order_rename (d : Direction) : d.order (g.rename ρ) = d.order g := by
  funext n
  cases d <;> simp [order]

variable {α : Type} [MeetLattice α] [DecidableEq α] (p : Problem α) (s : State α)

/-- A visit looks at edges and not at names. -/
theorem Problem.visit_rename (reached : List NodeId) (start n : NodeId) :
    p.visit (g.rename ρ) reached start n s = p.visit g reached start n s := by
  simp only [visit, inputAt, arriving, atBoundary, Direction.targets_rename,
    Direction.sources_rename, Graph.succs_rename]

theorem Problem.run_rename (reached : List NodeId) (start : NodeId) (k : Nat) :
    p.run (g.rename ρ) reached start k s = p.run g reached start k s := by
  induction k generalizing s with
  | zero => rfl
  | succ k ih => simp only [run, step, visit_rename, ih]

/-- A problem is solved alike on a graph and on its renaming. -/
theorem Problem.solve_rename : p.solve (g.rename ρ) = p.solve g := by
  simp only [solve, solveWithin, budget, initial, run_rename, Graph.entry_rename,
    Graph.reachable_rename, Graph.bound_rename, Direction.targets_rename, Direction.order_rename]

end Dataflow

/-- Renaming does not change dominance. -/
theorem Dominators.compute_rename : Dominators.compute (g.rename ρ) = Dominators.compute g := by
  have hproblem : dominatorProblem (g.rename ρ) = dominatorProblem g := by simp [dominatorProblem]
  rw [compute, hproblem, Problem.solve_rename, Graph.entry_rename, compute]

/-- Nor does it change the body of a loop. -/
theorem loopBody_rename (d : Dominators) (header : NodeId) (tails : List NodeId) :
    loopBody (g.rename ρ) d header tails = loopBody g d header tails := by
  simp [loopBody, Graph.withoutHeader]

/-- The same loops are found. -/
theorem LoopForest.detect_rename (d : Dominators) :
    LoopForest.detect (g.rename ρ) d = LoopForest.detect g d := by
  simp [detect, edgesFrom, addEdge, NaturalLoop.ofHeader, backEdgeSources, loopBody_rename]

theorem currentBody_rename (d : Dominators) (l : NaturalLoop) :
    currentBody (g.rename ρ) d l = currentBody g d l := by
  simp [currentBody, loopBody_rename]

/-! ### Sets of variables by their names -/

namespace Variables

variable {s t : VarSet} {x : String}

/-- Sets with the same names are equal. -/
theorem eq_iff_has (hs : s.Fits (ofGraph g).count) (ht : t.Fits (ofGraph g).count) :
    s = t ↔ ∀ x, s.Has (ofGraph g).names x ↔ t.Has (ofGraph g).names x := by
  refine ⟨fun h _ => h ▸ Iff.rfl, fun h => hs.ext_names ht fun {x i} hx => ?_⟩
  rw [← has_iff hx, ← has_iff hx]
  exact h x

theorem not_has_empty : ¬(VarSet.empty (ofGraph g).count).Has (ofGraph g).names x := by
  simp [VarSet.Has, VarSet.empty, BitSet.bit_empty]

/-- A meet has the names of both sets. -/
theorem has_meet (hs : s.Fits (ofGraph g).count) (ht : t.Fits (ofGraph g).count) :
    (meet s t).Has (ofGraph g).names x ↔
      s.Has (ofGraph g).names x ∨ t.Has (ofGraph g).names x := by
  have hbits : (meet s t).bits = s.bits.union t.bits := rfl
  simp only [VarSet.Has, hbits, BitSet.bit_union hs ht, Bool.or_eq_true, and_or_left, exists_or]

/-- What enters at an exit has the return temporaries that occur. -/
theorem has_boundary :
    VarSet.Has (ofGraph g).names ⟨(BitSet.empty (ofGraph g).count).union (ofGraph g).exits⟩ x ↔
      g.Occurs x ∧ isReturnTemp x = true := by
  cases hx : indexIn? (ofGraph g).names x with
  | none => exact iff_of_false (not_has hx) fun h => not_occurs hx h.1
  | some i => rw [has_iff hx, bit_boundary hx, and_iff_right (occurs_of_indexIn? hx)]

/-- A slot that was not there is passed through. -/
theorem transfer_of_bound_le (hn : g.bound ≤ n) (s : VarSet) : (ofGraph g).transfer n s = s := by
  simp [transfer, useSet?, defSet?, ofGraph, hn]

end Variables

/-! ### Matching sets -/

/-- One set has the variables of the other under their new names. -/
structure VarSet.Renamed (ρ : String → String) (g : Graph) (s t : VarSet) : Prop where
  fits : s.Fits (Variables.ofGraph g).count
  fits_renamed : t.Fits (Variables.ofGraph (g.rename ρ)).count
  has_iff : ∀ y, t.Has (Variables.ofGraph (g.rename ρ)).names y ↔
    ∃ x, s.Has (Variables.ofGraph g).names x ∧ ρ x = y

/-- The names that occur are renamed. -/
theorem Graph.occurs_rename (hρ : Renaming ρ) {y : String} :
    (g.rename ρ).Occurs y ↔ ∃ x, g.Occurs x ∧ ρ x = y := by
  simp only [Occurs, mem_defs_rename, mem_uses_rename hρ]
  constructor
  · rintro ⟨n, ⟨x, hx, rfl⟩ | ⟨x, hx, rfl⟩⟩
    · exact ⟨x, ⟨n, .inl hx⟩, rfl⟩
    · exact ⟨x, ⟨n, .inr hx⟩, rfl⟩
  · rintro ⟨x, ⟨n, hx | hx⟩, rfl⟩
    · exact ⟨n, .inl ⟨x, hx, rfl⟩⟩
    · exact ⟨n, .inr ⟨x, hx, rfl⟩⟩

namespace VarSet.Renamed

variable {s s' t t' : VarSet}

theorem empty (g : Graph) :
    Renamed ρ g (.empty (Variables.ofGraph g).count)
      (.empty (Variables.ofGraph (g.rename ρ)).count) where
  fits := BitSet.fits_empty _
  fits_renamed := BitSet.fits_empty _
  has_iff _ := iff_of_false Variables.not_has_empty fun ⟨_, h, _⟩ => Variables.not_has_empty h

/-- Meets of renamed sets are renamed. -/
theorem meet (h : Renamed ρ g s t) (h' : Renamed ρ g s' t') :
    Renamed ρ g (meet s s') (meet t t') where
  fits := BitSet.Fits.union h.fits h'.fits
  fits_renamed := BitSet.Fits.union h.fits_renamed h'.fits_renamed
  has_iff y := by
    rw [Variables.has_meet h.fits_renamed h'.fits_renamed, h.has_iff, h'.has_iff]
    simp only [Variables.has_meet h.fits h'.fits, or_and_right, exists_or]

variable (hρ : Renaming ρ)

include hρ

theorem has_rename_iff (h : Renamed ρ g s t) (x : String) :
    t.Has (Variables.ofGraph (g.rename ρ)).names (ρ x) ↔ s.Has (Variables.ofGraph g).names x := by
  simp [h.has_iff, hρ.injective.eq_iff]

/-- Sets are equal if the renamed ones are, so that the same edges change. -/
theorem eq_iff (h : Renamed ρ g s t) (h' : Renamed ρ g s' t') : s = s' ↔ t = t' := by
  rw [Variables.eq_iff_has h.fits h'.fits, Variables.eq_iff_has h.fits_renamed h'.fits_renamed]
  constructor
  · intro heq y
    simp only [h.has_iff, h'.has_iff, heq]
  · intro heq x
    rw [← h.has_rename_iff hρ, ← h'.has_rename_iff hρ, heq]

/-- A transfer of renamed sets is renamed, although names may have other numbers. -/
theorem transfer (h : Renamed ρ g s t) (n : NodeId) :
    Renamed ρ g ((Variables.ofGraph g).transfer n s)
      ((Variables.ofGraph (g.rename ρ)).transfer n t) := by
  rcases Nat.lt_or_ge n g.bound with hn | hn
  · refine ⟨Variables.fits_transfer (Variables.fits_ofGraph g) h.fits,
      Variables.fits_transfer (Variables.fits_ofGraph _) h.fits_renamed, fun y => ?_⟩
    rw [Variables.has_transfer (by simpa using hn) h.fits_renamed, Graph.mem_uses_rename hρ,
      h.has_iff]
    simp only [Variables.has_transfer hn h.fits, or_and_right, exists_or]
    -- as no two names become one, a name is taken out by a write of itself only
    refine or_congr_right ⟨?_, ?_⟩
    · rintro ⟨⟨x, hx, rfl⟩, hnot⟩
      exact ⟨x, ⟨hx, mt (Graph.rename_mem_defs_rename hρ).mpr hnot⟩, rfl⟩
    · rintro ⟨x, ⟨hx, hnot⟩, rfl⟩
      exact ⟨⟨x, hx, rfl⟩, mt (Graph.rename_mem_defs_rename hρ).mp hnot⟩
  · rw [Variables.transfer_of_bound_le hn, Variables.transfer_of_bound_le (by simpa using hn)]
    exact h

end VarSet.Renamed

namespace Variables

/-- What enters at an exit is renamed, as return temporaries stay return temporaries. -/
theorem renamed_boundary (hρ : Renaming ρ) :
    VarSet.Renamed ρ g ⟨(BitSet.empty (ofGraph g).count).union (ofGraph g).exits⟩
      ⟨(BitSet.empty (ofGraph (g.rename ρ)).count).union (ofGraph (g.rename ρ)).exits⟩ where
  fits := BitSet.Fits.union (BitSet.fits_empty _) (fits_ofGraph _).exits
  fits_renamed := BitSet.Fits.union (BitSet.fits_empty _) (fits_ofGraph _).exits
  has_iff y := by
    simp only [has_boundary, Graph.occurs_rename hρ]
    constructor
    · rintro ⟨⟨x, hx, rfl⟩, hreturn⟩
      exact ⟨x, ⟨hx, hρ.isReturnTemp_eq x ▸ hreturn⟩, rfl⟩
    · rintro ⟨x, ⟨hx, hreturn⟩, rfl⟩
      exact ⟨⟨x, hx, rfl⟩, (hρ.isReturnTemp_eq x).trans hreturn⟩

/-- There are as many temporaries under the new names. -/
theorem count_rename (hρ : Renaming ρ) : (ofGraph (g.rename ρ)).count = (ofGraph g).count := by
  have hperm : (ofGraph (g.rename ρ)).names.Perm ((ofGraph g).names.map ρ) :=
    (List.perm_ext_iff_of_nodup (nodup_names _) ((nodup_names g).map hρ.injective)).mpr fun y => by
      simp only [mem_names, Graph.occurs_rename hρ, List.mem_map]
  simpa [count] using hperm.length_eq

/-- The liveness problems of a graph and of its renaming are the same up to the names. -/
theorem matches_rename (hρ : Renaming ρ) (g : Graph) :
    (ofGraph g).problem.Matches (VarSet.Renamed ρ g) (ofGraph (g.rename ρ)).problem where
  direction_eq := rfl
  height_eq := count_rename hρ
  top := .empty g
  boundary := .some (renamed_boundary hρ)
  transfer n _ _ h := .cons (h.transfer hρ n) .nil
  meet h h' := h.meet h'
  eq_iff h h' := h.eq_iff hρ h'

end Variables

/-! ### Liveness -/

namespace Liveness

/-- Two analyses made as many visits, and what the one finds live is under its new name what the
other does. -/
structure Renamed (ρ : String → String) (l l' : Liveness) : Prop where
  visits_eq : l'.facts.visits = l.facts.visits
  before_iff : ∀ n y, l'.isLiveBefore n y = true ↔ ∃ x, l.isLiveBefore n x = true ∧ ρ x = y
  after_iff : ∀ n y, l'.isLiveAfter n y = true ↔ ∃ x, l.isLiveAfter n x = true ∧ ρ x = y

theorem holds_some {l : Liveness} {s : VarSet} (hs : s.Fits l.names.length) (x : String) :
    l.holds (some s) x = true ↔ s.Has l.names x := by
  cases hx : Variables.indexIn? l.names x with
  | none => simp [holds, VarSet.Has, hx]
  | some i => simp [holds, VarSet.Has, hx, VarSet.contains, hs.contains_eq]

/-- A name is live if what it comes from was. -/
theorem holds_rename {live live' : Option VarSet} (h : Option.Rel (VarSet.Renamed ρ g) live live')
    (facts facts' : State VarSet) (y : String) :
    holds ⟨(Variables.ofGraph (g.rename ρ)).names, facts'⟩ live' y = true ↔
      ∃ x, holds ⟨(Variables.ofGraph g).names, facts⟩ live x = true ∧ ρ x = y := by
  cases h with
  | none => simp [holds]
  | some h =>
      rw [holds_some (l := ⟨_, facts'⟩) h.fits_renamed, h.has_iff]
      exact exists_congr fun x =>
        and_congr_left fun _ => (holds_some (l := ⟨_, facts⟩) h.fits x).symm

/-- Liveness is computed for a renamed graph as for the graph itself. -/
theorem compute_rename (hρ : Renaming ρ) (hs : g.start = some start) :
    ∃ l l', Liveness.compute g = .ok l ∧ Liveness.compute (g.rename ρ) = .ok l' ∧
      Renamed ρ l l' := by
  obtain ⟨s, t, hp, hq, hst⟩ := (Variables.matches_rename hρ g).solve hs
  rw [← Problem.solve_rename (ρ := ρ)] at hq
  refine ⟨_, _, by rw [compute, ofVariables, hp]; rfl, by rw [compute, ofVariables, hq]; rfl,
    hst.visits_eq, fun n y => ?_, fun n y => ?_⟩
  · exact holds_rename (hst.facts n).output s t y
  · exact holds_rename (hst.facts n).input s t y

end Liveness

end Flowgraph

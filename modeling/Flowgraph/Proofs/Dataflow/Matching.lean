import Flowgraph.Proofs.Dataflow.Termination
import Mathlib.Data.List.Forall2

/-!
# Problems that are solved in step

Two problems match along a relation of their values if it relates their tops and boundaries, is kept
by the meet and by every transfer, and never relates two different values to one.  Then a visit
takes in related values, transfers related values and finds the same edges changed, so that the
solver makes the same visits in the same order for both.

* `Problem.Matches`: the conditions.
* `Problem.Matches.inputAt`, `Problem.Matches.newEdges`: what a visit takes in and gives out.
* `Problem.Matches.visit`, `Problem.Matches.run`: one visit, and so every run.
* `Problem.Matches.solve`: the solutions.
-/

namespace Flowgraph.Dataflow

variable {α β : Type} {R : α → β → Prop} {vs vs' : List α} {ws ws' : List β}

/-! ### Lists of related values -/

theorem rel_getElem? (h : List.Forall₂ R vs ws) (i : Nat) : Option.Rel R vs[i]? ws[i]? := by
  induction h generalizing i with
  | nil => exact .none
  | cons hvw _ ih =>
      cases i with
      | zero => exact .some hvw
      | succ i => exact ih i

theorem rel_head? (h : List.Forall₂ R vs ws) : Option.Rel R vs.head? ws.head? := by
  cases h with
  | nil => exact .none
  | cons hvw _ => exact .some hvw

theorem rel_getD {o : Option α} {o' : Option β} {v : α} {w : β} (h : Option.Rel R o o')
    (hvw : R v w) : R (o.getD v) (o'.getD w) := by
  cases h with
  | none => exact hvw
  | some h => exact h

/-- Related values are transferred to related values of an edge. -/
theorem rel_edgeValue {v : α} {w : β} (h : List.Forall₂ R vs ws) (i : Nat) (hvw : R v w) :
    R (edgeValue vs i v) (edgeValue ws i w) := by
  have hpositional : R (vs[i]?.getD v) (ws[i]?.getD w) := rel_getD (rel_getElem? h i) hvw
  match h with
  | .nil => exact hpositional
  | .cons h .nil => exact h
  | .cons _ (.cons _ _) => exact hpositional

theorem rel_mapIdx {f : Nat → α → α} {f' : Nat → β → β} (hf : ∀ i v w, R v w → R (f i v) (f' i w))
    (h : List.Forall₂ R vs ws) : List.Forall₂ R (vs.mapIdx f) (ws.mapIdx f') := by
  induction h generalizing f f' with
  | nil => exact .nil
  | cons hvw _ ih =>
      rw [List.mapIdx_cons, List.mapIdx_cons]
      exact .cons (hf 0 _ _ hvw) (ih fun i => hf (i + 1))

/-- Of two related lists the values at the same positions are chosen. -/
theorem rel_filterMap_zip (targets : List NodeId) (n : NodeId) (h : List.Forall₂ R vs ws) :
    List.Forall₂ R ((targets.zip vs).filterMap fun (t, v) => if t = n then some v else none)
      ((targets.zip ws).filterMap fun (t, w) => if t = n then some w else none) := by
  induction h generalizing targets with
  | nil => simp
  | cons hvw _ ih =>
      cases targets with
      | nil => exact .nil
      | cons t targets =>
          rw [List.zip_cons_cons, List.zip_cons_cons, List.filterMap_cons, List.filterMap_cons]
          by_cases ht : t = n
          · simp only [if_pos ht]
            exact .cons hvw (ih targets)
          · simp only [if_neg ht]
            exact ih targets

/-! ### Matching problems -/

/-- The relation is kept by everything that a solver does with values, and it is one-to-one. -/
structure Problem.Matches [MeetLattice α] [MeetLattice β] (R : α → β → Prop) (p : Problem α)
    (q : Problem β) : Prop where
  direction_eq : q.direction = p.direction
  height_eq : q.height = p.height
  top : R p.top q.top
  boundary : Option.Rel R p.boundary q.boundary
  transfer : ∀ n {a b}, R a b → List.Forall₂ R (p.transfer n a) (q.transfer n b)
  meet : ∀ {a b a' b'}, R a b → R a' b' → R (meet a a') (meet b b')
  eq_iff : ∀ {a b a' b'}, R a b → R a' b' → (a = a' ↔ b = b')

/-- What is known at a node, value by value. -/
structure Facts.Related (R : α → β → Prop) (f : Facts α) (f' : Facts β) : Prop where
  input : Option.Rel R f.input f'.input
  output : Option.Rel R f.output f'.output
  edges : List.Forall₂ R f.edges f'.edges

theorem Facts.related_unreached : Facts.Related R .unreached .unreached := ⟨.none, .none, .nil⟩

/-- After as many visits the same nodes wait in the same order, and all values are related. -/
structure State.InStep (R : α → β → Prop) (s : State α) (t : State β) : Prop where
  size_eq : t.facts.size = s.facts.size
  facts : ∀ n, (s.facts? n).Related R (t.facts? n)
  pending_eq : t.pending = s.pending
  visits_eq : t.visits = s.visits

namespace Problem.Matches

variable [MeetLattice α] [MeetLattice β] {p : Problem α} {q : Problem β} {g : Graph} {s : State α}
  {t : State β} {start n : NodeId} (h : p.Matches R q)

include h

/-- Related states let related values arrive at a node. -/
theorem arriving (hst : s.InStep R t) (n : NodeId) :
    List.Forall₂ R (p.arriving g g.reachable s n) (q.arriving g g.reachable t n) := by
  rw [Problem.arriving, Problem.arriving, h.direction_eq]
  refine List.rel_flatMap (R := Eq) (List.forall₂_eq_eq_eq ▸ rfl) ?_
  rintro m _ rfl
  exact rel_filterMap_zip _ n (hst.facts m).edges

/-- Their meets are related. -/
theorem meetAll (hvw : List.Forall₂ R vs ws) : R (p.meetAll vs) (q.meetAll ws) := by
  cases hvw with
  | nil => exact h.top
  | cons hv hvw =>
      refine List.rel_foldl (P := R) (R := R) ?_ hv hvw
      exact fun _ _ ha _ _ hb => h.meet ha hb

/-- So the inputs of a node are, at the boundary and elsewhere. -/
theorem inputAt (hst : s.InStep R t) (n : NodeId) :
    R (p.inputAt g g.reachable start s n) (q.inputAt g g.reachable start t n) := by
  have hat : q.atBoundary g start n = p.atBoundary g start n := by
    rw [atBoundary, atBoundary, h.direction_eq]
  have hinner := h.meetAll (h.arriving (g := g) hst n)
  have hboundary := h.boundary
  rw [Problem.inputAt, Problem.inputAt, hat]
  generalize p.boundary = b, q.boundary = b' at hboundary ⊢
  cases hboundary with
  | none => exact hinner
  | some hvw =>
      cases p.atBoundary g start n with
      | false => exact hinner
      | true => exact hvw

/-- The values that the edges get are related as well. -/
theorem newEdges (hst : s.InStep R t) (n : NodeId) :
    List.Forall₂ R (p.newEdges g start s n) (q.newEdges g start t n) :=
  rel_mapIdx (fun i _ _ => rel_edgeValue (h.transfer n (h.inputAt hst n)) i) (hst.facts n).edges

variable [DecidableEq α] [DecidableEq β]

/-- The same edges have changed. -/
theorem stale_eq (reached targets : List NodeId) (hold : List.Forall₂ R vs ws)
    (hnew : List.Forall₂ R vs' ws') :
    stale reached targets ws ws' = stale reached targets vs vs' := by
  induction hold generalizing targets vs' ws' with
  | nil => simp [stale]
  | cons hv _ ih =>
      cases hnew with
      | nil => simp [stale]
      | cons hw hnew =>
          cases targets with
          | nil => rfl
          | cons m targets =>
              have hrest := ih targets hnew
              rw [stale, stale] at hrest ⊢
              simp only [List.zip_cons_cons, List.filterMap_cons, hrest, ne_eq, h.eq_iff hv hw]

/-- A visit of one node keeps the states in step. -/
theorem visit (hst : s.InStep R t) (n : NodeId) (rest : List NodeId) :
    (p.visit g g.reachable start n { s with pending := rest }).InStep R
      (q.visit g g.reachable start n { t with pending := rest }) := by
  have hinput : R (p.inputAt g g.reachable start s n) (q.inputAt g g.reachable start t n) :=
    h.inputAt hst n
  have hnew : List.Forall₂ R (p.newEdges g start s n) (q.newEdges g start t n) := h.newEdges hst n
  have hstale : stale g.reachable (q.direction.targets g n) (t.edges n) (q.newEdges g start t n) =
      stale g.reachable (p.direction.targets g n) (s.edges n) (p.newEdges g start s n) := by
    rw [h.direction_eq]
    exact h.stale_eq _ _ (hst.facts n).edges hnew
  refine ⟨by simp [Problem.visit, hst.size_eq], fun m => ?_, congrArg (enqueue rest) hstale,
    congrArg (· + 1) hst.visits_eq⟩
  rcases Nat.lt_or_ge n s.facts.size with hn | hn
  · rw [Problem.facts?_visit hn, Problem.facts?_visit (hst.size_eq ▸ hn)]
    split
    · exact ⟨.some hinput, rel_head? (h.transfer n hinput), hnew⟩
    · exact hst.facts m
  · -- neither state has a slot to write to
    have hs : (p.visit g g.reachable start n { s with pending := rest }).facts = s.facts :=
      Array.setIfInBounds_eq_of_size_le hn
    have ht : (q.visit g g.reachable start n { t with pending := rest }).facts = t.facts :=
      Array.setIfInBounds_eq_of_size_le (hst.size_eq ▸ hn)
    rw [State.facts?, hs, State.facts?, ht]
    exact hst.facts m

/-- One visit keeps two solvers in step. -/
theorem step (hst : s.InStep R t) :
    (p.step g g.reachable start s).InStep R (q.step g g.reachable start t) := by
  rw [Problem.step, Problem.step, hst.pending_eq]
  cases s.pending with
  | nil => exact hst
  | cons n rest => exact h.visit hst n rest

/-- So does every run. -/
theorem run (hst : s.InStep R t) (k : Nat) :
    (p.run g g.reachable start k s).InStep R (q.run g g.reachable start k t) := by
  induction k generalizing s t with
  | zero => exact hst
  | succ k ih =>
      rw [Problem.run, Problem.run, hst.pending_eq]
      split
      · exact hst
      · exact ih (h.step hst)

omit [DecidableEq α] [DecidableEq β]

/-- They begin in step, with the top on every edge. -/
theorem initial : (p.initial g g.reachable start).InStep R (q.initial g g.reachable start) where
  size_eq := by simp [Problem.initial]
  facts n := by
    have hp := Underway.facts?_initial p g start n (p.direction.order g start)
    have hq := Underway.facts?_initial q g start n (q.direction.order g start)
    rw [h.direction_eq] at hq
    refine hp ▸ hq ▸ ?_
    split
    · refine ⟨.none, .none, ?_⟩
      rw [List.forall₂_map_left_iff, List.forall₂_map_right_iff]
      exact List.forall₂_same.mpr fun _ _ => h.top
    · exact Facts.related_unreached
  pending_eq := by rw [Problem.initial, Problem.initial, h.direction_eq]
  visits_eq := rfl

/-- Problems of one height have the same budget. -/
theorem budget_eq (g : Graph) : q.budget g = p.budget g := by
  rw [Problem.budget, Problem.budget, h.direction_eq, h.height_eq]

/-- Both problems are solved with the same visits. -/
theorem solve [DecidableEq α] [DecidableEq β] (hs : g.start = some start) :
    ∃ s t, p.solve g = .ok s ∧ q.solve g = .ok t ∧ s.InStep R t :=
  ⟨_, _, solveWithin_eq hs _, solveWithin_eq hs _,
    h.budget_eq g ▸ h.run h.initial _⟩

end Problem.Matches

end Flowgraph.Dataflow

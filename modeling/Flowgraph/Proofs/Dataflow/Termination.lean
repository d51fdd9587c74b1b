import Flowgraph.Proofs.Dataflow.Visit
import Flowgraph.Proofs.WellFormed
import Mathlib.Algebra.Ring.Nat

/-!
# Visits come to an end

Whatever waiting node is visited next, visits come to an end: each of them lets some edge fall or
takes a node out of the queue and puts none in.  If the values have ranks, no more visits are
needed than there are nodes and ranks on the edges.

* `Visits`: one visit of some waiting node.
* `Underway.acc_visits`: no infinite sequence of visits.
* `exists_run_of_acc`, `run_eq_of_pending_nil`: a run that is long enough ends with an empty
  queue, and longer ones end in the same state.
* `pending_run_budget`, `endsWithin_budget`: how long is long enough.
-/

namespace Flowgraph.Dataflow

open Flowgraph.Graph

variable {α : Type} [MeetLattice α] [DecidableEq α] {p : Problem α} {g : Graph} {start n : NodeId}
  {valid : α → Prop} {s t : State α}

/-- One visit of some waiting node, which then leaves the queue. -/
def Visits (p : Problem α) (g : Graph) (start : NodeId) (s t : State α) : Prop :=
  ∃ n ∈ s.pending, t = p.visit g g.reachable start n { s with pending := s.pending.erase n }

/-- A visit of any waiting node keeps the invariant. -/
theorem Underway.of_visits (hs : Underway p g start valid s) (hp : p.Lawful g valid)
    (hg : g.Linked) (h : Visits p g start s t) : Underway p g start valid t := by
  obtain ⟨n, hn, rfl⟩ := h
  exact hs.visit hp hg (hs.reached hn) (fun m hm => hs.reached (List.mem_of_mem_erase hm))
    fun m hm hne => (List.mem_erase_of_ne hne).mpr hm

/-- So does any sequence of visits. -/
theorem Underway.of_reflTransGen (hs : Underway p g start valid s) (hp : p.Lawful g valid)
    (hg : g.Linked) (h : Relation.ReflTransGen (Visits p g start) s t) :
    Underway p g start valid t := by
  induction h with
  | refl => exact hs
  | tail _ hv ih => exact ih.of_visits hp hg hv

/-- The solver visits the first node in the queue. -/
theorem visits_step (h : s.pending ≠ []) : Visits p g start s (p.step g g.reachable start s) := by
  rw [Problem.step]
  cases hs : s.pending with
  | nil => exact absurd hs h
  | cons n rest =>
      refine ⟨n, by rw [hs]; exact List.mem_cons_self, ?_⟩
      rw [hs, List.erase_cons_head]

/-- What the solver does is a sequence of visits. -/
theorem reflTransGen_run (k : Nat) :
    Relation.ReflTransGen (Visits p g start) s (p.run g g.reachable start k s) := by
  induction k generalizing s with
  | zero => exact .refl
  | succ k ih =>
      rw [Problem.run]
      split
      · exact .refl
      · next h => exact .head (visits_step (by simpa using h)) ih

/-! ### All edges together -/

/-- The values on all edges of reached nodes. -/
def allEdges (g : Graph) (s : State α) : List α := g.reachable.flatMap s.edges

namespace Underway

/-- A visit changes the edges of one node among all edges. -/
theorem allEdges_visit (hs : Underway p g start valid s) (hn : n ∈ g.reachable)
    (rest : List NodeId) :
    ∃ before behind, allEdges g s = before ++ (s.edges n ++ behind) ∧
      allEdges g (p.visit g g.reachable start n { s with pending := rest }) =
        before ++ (p.newEdges g start s n ++ behind) := by
  have hedges : ∀ m, (p.visit g g.reachable start n { s with pending := rest }).edges m =
      if m = n then p.newEdges g start s n else s.edges m := hs.edges_visit hn
  generalize p.visit g g.reachable start n { s with pending := rest } = t at hedges
  obtain ⟨l, r, hlr⟩ := List.append_of_mem hn
  have hnd : (l ++ n :: r).Nodup := hlr ▸ nodup_reachable g
  have hl : n ∉ l := fun h => (List.nodup_append.mp hnd).2.2 n h n List.mem_cons_self rfl
  have hr : n ∉ r := (List.nodup_cons.mp (List.nodup_append.mp hnd).2.1).1
  have hsame : ∀ ms : List NodeId, n ∉ ms → ms.flatMap t.edges = ms.flatMap s.edges := by
    intro ms hms
    refine List.flatMap_congr fun m hm => ?_
    rw [hedges, if_neg fun e : m = n => hms (e ▸ hm)]
  -- `n` is listed once, so the edges before and behind its own are as they were
  refine ⟨l.flatMap s.edges, r.flatMap s.edges, ?_, ?_⟩
  · rw [allEdges, hlr, List.flatMap_append, List.flatMap_cons]
  · rw [allEdges, hlr, List.flatMap_append, List.flatMap_cons, hsame l hl, hsame r hr,
      hedges, if_pos rfl]

omit [DecidableEq α] in
/-- The new values of the edges are valid and lie below the old ones. -/
theorem forall₂_newEdges (hs : Underway p g start valid s) (hp : p.Lawful g valid)
    (hg : g.Linked) (hn : n ∈ g.reachable) :
    List.Forall₂ (fun v w => valid v ∧ valid w ∧ Below v w) (p.newEdges g start s n)
      (s.edges n) := by
  refine List.forall₂_iff_get.mpr ⟨(hs.length_newEdges hn).trans (hs.length_edges hn).symm,
    fun i hi hj => ?_⟩
  obtain ⟨v, hv, hb⟩ := hs.newEdges_below hp hg hn (List.getElem?_eq_getElem hj)
  obtain rfl : (p.newEdges g start s n)[i] = v := by
    simpa [List.getElem?_eq_getElem hi] using hv
  exact ⟨hs.valid_newEdges hp hg hn _ (List.getElem_mem hi),
    hs.valid_edges n hn _ (List.getElem_mem hj), hb⟩

/-- A visit lets some edge fall, or the queue gets shorter. -/
theorem falls_or_shorter (hs : Underway p g start valid s) (hp : p.Lawful g valid)
    (hg : g.Linked) (h : Visits p g start s t) :
    Falls valid (allEdges g t) (allEdges g s) ∨
      allEdges g t = allEdges g s ∧ t.pending.length < s.pending.length := by
  obtain ⟨n, hn, rfl⟩ := h
  have hr := hs.reached hn
  obtain ⟨before, behind, hold, hnew⟩ := hs.allEdges_visit hr (s.pending.erase n)
  rw [hold, hnew]
  by_cases he : p.newEdges g start s n = s.edges n
  · -- no edge has changed, so that nothing is queued
    have hstale : Problem.stale g.reachable (p.direction.targets g n) (s.edges n)
        (p.newEdges g start s n) = [] := by
      rw [he, List.eq_nil_iff_forall_not_mem]
      intro m hm
      obtain ⟨-, i, v, w, -, hv, hw, hne⟩ := Problem.mem_stale.mp hm
      exact hne (Option.some.inj (hv.symm.trans hw))
    refine .inr ⟨by rw [he], ?_⟩
    change (enqueue (s.pending.erase n) (Problem.stale _ _ (s.edges n)
      (p.newEdges g start s n))).length < _
    rw [hstale, enqueue, List.foldl_nil, List.length_erase_of_mem hn]
    exact Nat.sub_lt (List.length_pos_of_mem hn) Nat.one_pos
  · refine .inl ⟨?_, fun e => he ?_⟩
    · -- the edges of all other nodes stay as they are
      have hkept : ∀ l : List α, (∀ v ∈ l, valid v) →
          List.Forall₂ (fun v w => valid v ∧ valid w ∧ Below v w) l l := fun l hl =>
        List.forall₂_same.mpr fun v hv => ⟨hl v hv, hl v hv, hp.below_refl (hl v hv)⟩
      have hall : ∀ v ∈ before ++ (s.edges n ++ behind), valid v := by
        intro v hv
        rw [← hold, allEdges, List.mem_flatMap] at hv
        obtain ⟨m, hm, hv⟩ := hv
        exact hs.valid_edges m hm v hv
      refine List.rel_append (hkept before fun v hv => hall v (List.mem_append_left _ hv)) ?_
      refine List.rel_append (hs.forall₂_newEdges hp hg hr) (hkept behind fun v hv => hall v ?_)
      exact List.mem_append_right _ (List.mem_append_right _ hv)
    · exact List.append_cancel_right (List.append_cancel_left e)

/-- Visits do not go on for ever. -/
theorem acc_visits (hs : Underway p g start valid s) (hp : p.Lawful g valid) (hg : g.Linked)
    (hfin : NoDescent valid) : Acc (fun t s => Visits p g start s t) s := by
  -- the edges come first: a visit that lets one fall may make the queue longer
  have hwf := InvImage.wf (fun s : State α => (allEdges g s, s.pending.length))
    (WellFounded.prod_lex (wellFounded_falls hfin) Nat.lt_wfRel.wf)
  induction s using hwf.induction with
  | _ s ih =>
      refine .intro s fun t ht => ih t ?_ (hs.of_visits hp hg ht)
      rcases hs.falls_or_shorter hp hg ht with hfall | ⟨heq, hlt⟩
      · exact .left _ _ hfall
      · change Prod.Lex _ _ (allEdges g t, t.pending.length) (allEdges g s, s.pending.length)
        rw [heq]
        exact .right _ hlt

end Underway

/-! ### Runs -/

/-- When no node waits the solver does nothing more. -/
theorem run_of_pending_nil (h : s.pending = []) (k : Nat) :
    p.run g g.reachable start k s = s := by
  cases k with
  | zero => rfl
  | succ k => rw [Problem.run, h]; rfl

/-- A run that has emptied the queue stays where it is. -/
theorem run_eq_of_pending_nil {k m : Nat} (h : (p.run g g.reachable start k s).pending = [])
    (hkm : k ≤ m) : p.run g g.reachable start m s = p.run g g.reachable start k s := by
  induction k generalizing s m with
  | zero => exact run_of_pending_nil h m
  | succ k ih =>
      obtain ⟨m, rfl⟩ : ∃ m', m = m' + 1 := ⟨m - 1, by omega⟩
      rw [Problem.run] at h ⊢
      rw [Problem.run]
      split
      · rfl
      · next hne =>
          rw [if_neg hne] at h
          exact ih h (Nat.le_of_succ_le_succ hkm)

/-- Some run empties the queue. -/
theorem exists_run_of_acc (h : Acc (fun t s => Visits p g start s t) s) :
    ∃ k, (p.run g g.reachable start k s).pending = [] := by
  induction h with
  | intro s _ ih =>
      by_cases hs : s.pending = []
      · exact ⟨0, hs⟩
      · obtain ⟨k, hk⟩ := ih _ (visits_step hs)
        refine ⟨k + 1, ?_⟩
        rwa [Problem.run, if_neg (by simpa using hs)]

/-! ### How many visits -/

section Budget

variable {rank : α → Nat}

/-- The ranks of the values on all edges. -/
def weight (g : Graph) (rank : α → Nat) (s : State α) : Nat := ((allEdges g s).map rank).sum

/-- Each stale edge has lost a rank. -/
theorem length_stale_add_le (hrank : Ranks valid rank) {new old : List α}
    (targets reached : List NodeId)
    (h : List.Forall₂ (fun v w => valid v ∧ valid w ∧ Below v w) new old) :
    (Problem.stale reached targets old new).length + (new.map rank).sum ≤ (old.map rank).sum := by
  induction h generalizing targets with
  | nil => simp [Problem.stale]
  | @cons v w new old hvw _ ih =>
      have hle : rank v ≤ rank w := by
        by_cases e : v = w
        · rw [e]
        · exact Nat.le_of_lt (hrank hvw.1 hvw.2.1 hvw.2.2 e)
      cases targets with
      | nil =>
          have := ih []
          simp only [Problem.stale, List.zip_nil_left, List.filterMap_nil, List.length_nil,
            List.map_cons, List.sum_cons] at this ⊢
          omega
      | cons t ts =>
          have := ih ts
          simp only [Problem.stale, List.zip_cons_cons, List.filterMap_cons, List.map_cons,
            List.sum_cons] at this ⊢
          by_cases hst : w ≠ v ∧ t ∈ reached
          · have := hrank hvw.1 hvw.2.1 hvw.2.2 (Ne.symm hst.1)
            simp only [if_pos hst, List.length_cons]
            omega
          · simp only [if_neg hst]
            omega

/-- A visit is paid for by the queue and by the ranks on the edges. -/
theorem Underway.visits_add_le (hs : Underway p g start valid s) (hp : p.Lawful g valid)
    (hg : g.Linked) (hrank : Ranks valid rank) (h : Visits p g start s t) :
    t.visits = s.visits + 1 ∧
      t.visits + t.pending.length + weight g rank t ≤
        s.visits + s.pending.length + weight g rank s := by
  obtain ⟨n, hn, rfl⟩ := h
  have hr := hs.reached hn
  obtain ⟨before, behind, hold, hnew⟩ := hs.allEdges_visit hr (s.pending.erase n)
  have hstale := length_stale_add_le hrank (p.direction.targets g n) g.reachable
    (hs.forall₂_newEdges hp hg hr)
  have hqueue := length_enqueue_le (s.pending.erase n)
    (Problem.stale g.reachable (p.direction.targets g n) (s.edges n) (p.newEdges g start s n))
  have herase := List.length_erase_of_mem hn
  have hpos := List.length_pos_of_mem hn
  refine ⟨rfl, ?_⟩
  change s.visits + 1 + (enqueue (s.pending.erase n) (Problem.stale _ _ (s.edges n)
    (p.newEdges g start s n))).length + _ ≤ _
  simp only [weight, hold, hnew, List.map_append, List.sum_append]
  omega

/-- A run either empties the queue or makes all the visits that it may. -/
theorem Underway.run_budget (hs : Underway p g start valid s) (hp : p.Lawful g valid)
    (hg : g.Linked) (hrank : Ranks valid rank) (k : Nat) :
    (p.run g g.reachable start k s).visits + (p.run g g.reachable start k s).pending.length +
        weight g rank (p.run g g.reachable start k s) ≤
      s.visits + s.pending.length + weight g rank s ∧
    ((p.run g g.reachable start k s).pending = [] ∨
      (p.run g g.reachable start k s).visits = s.visits + k) := by
  induction k generalizing s with
  | zero => exact ⟨Nat.le_refl _, .inr rfl⟩
  | succ k ih =>
      by_cases he : s.pending = []
      · rw [run_of_pending_nil he]
        exact ⟨Nat.le_refl _, .inl he⟩
      · have hv : Visits p g start s (p.step g g.reachable start s) := visits_step he
        obtain ⟨hone, hle⟩ := hs.visits_add_le hp hg hrank hv
        obtain ⟨ihle, ihend⟩ := ih (hs.of_visits hp hg hv)
        rw [Problem.run, if_neg (by simpa using he)]
        exact ⟨ihle.trans hle, ihend.imp id fun e => by omega⟩

omit [MeetLattice α] [DecidableEq α] in
/-- At first every edge has the rank of the top. -/
theorem weight_initial_le (htop : rank p.top ≤ p.height) (queue : List NodeId) :
    weight g rank { p.initial g g.reachable start with pending := queue } ≤
      (g.reachable.flatMap fun n => p.direction.targets g n).length * p.height := by
  have hedges : ∀ n ∈ g.reachable,
      State.edges { p.initial g g.reachable start with pending := queue } n =
        List.replicate (p.direction.targets g n).length p.top := by
    intro n hn
    rw [State.edges, Underway.facts?_initial, if_pos hn, List.map_const']
  rw [weight, allEdges, List.flatMap_congr hedges]
  induction g.reachable with
  | nil => simp
  | cons n ns ih =>
      simp only [List.flatMap_cons, List.map_append, List.map_replicate, List.sum_append,
        List.sum_replicate_nat, List.length_append, Nat.add_mul] at ih ⊢
      exact Nat.add_le_add (Nat.mul_le_mul_left _ htop) ih

/-- If the top has no more rank than the problem says, its budget pays for all visits and for what
still waits. -/
theorem run_initial_le (start : NodeId) (hp : p.Lawful g valid) (hg : g.Linked)
    (hrank : Ranks valid rank) (htop : rank p.top ≤ p.height) {queue : List NodeId}
    (hq : queue.Perm g.reachable) (k : Nat) :
    let s := p.run g g.reachable start k { p.initial g g.reachable start with pending := queue }
    s.visits + s.pending.length ≤ p.budget g ∧ (s.pending = [] ∨ s.visits = k) := by
  have hs : Underway p g start valid { p.initial g g.reachable start with pending := queue } :=
    .initial hp fun m => hq.mem_iff
  obtain ⟨hle, hend⟩ := hs.run_budget hp hg hrank k
  have hweight : weight g rank { p.initial g g.reachable start with pending := queue } ≤
      (g.reachable.flatMap fun n => p.direction.targets g n).length * p.height :=
    weight_initial_le htop queue
  have hlen := hq.length_eq
  rw [Problem.budget]
  simp only [Problem.initial] at hle hweight hend ⊢
  exact ⟨by omega, hend.imp id fun hv => by omega⟩

/-- So its budget is enough. -/
theorem pending_run_budget (hp : p.Lawful g valid) (hg : g.Linked) (hrank : Ranks valid rank)
    (htop : rank p.top ≤ p.height) {queue : List NodeId} (hq : queue.Perm g.reachable) :
    (p.run g g.reachable start (p.budget g)
      { p.initial g g.reachable start with pending := queue }).pending = [] := by
  obtain ⟨hle, hend⟩ := run_initial_le start hp hg hrank htop hq (p.budget g)
  -- a run that has made all these visits has nothing left to pay for what waits
  exact hend.elim id fun hv => List.eq_nil_of_length_eq_zero (by omega)

end Budget

/-! ### The solver -/

/-- With a start the solver succeeds, however many visits it may make. -/
theorem solveWithin_eq (hs : g.start = some start) (k : Nat) :
    p.solveWithin g k =
      .ok (p.run g g.reachable start k (p.initial g g.reachable start)) := by
  rw [Problem.solveWithin, entry, hs]
  rfl

/-- Every node that the start leads to has a first visit. -/
theorem Direction.mem_order_iff (hg : g.WellFormed) (hs : g.start = some start) (d : Direction) :
    n ∈ d.order g start ↔ n ∈ g.reachable :=
  mem_order hg.toLinked d hs (hg.isLive_start hs)

/-- Every node that the start leads to is visited first in its turn, once. -/
theorem perm_order (hg : g.WellFormed) (hs : g.start = some start) (d : Direction) :
    (d.order g start).Perm g.reachable :=
  (List.perm_ext_iff_of_nodup (Direction.nodup_order ..) (nodup_reachable g)).mpr fun _ =>
    Direction.mem_order_iff hg hs d

/-- The invariant holds after every number of visits. -/
theorem Underway.of_solveWithin (hp : p.Lawful g valid) (hg : g.WellFormed)
    (hs : g.start = some start) (k : Nat) :
    Underway p g start valid (p.run g g.reachable start k (p.initial g g.reachable start)) :=
  (Underway.initial hp fun _ => Direction.mem_order_iff hg hs _).of_reflTransGen hp hg.toLinked
    (reflTransGen_run k)

/-- With ranks the solver stays within its budget. -/
theorem solve_eq (hp : p.Lawful g valid) (hg : g.WellFormed) (hs : g.start = some start)
    {rank : α → Nat} (hrank : Ranks valid rank) (htop : rank p.top ≤ p.height) :
    ∃ r, p.solve g = .ok r ∧ r.pending = [] ∧ Underway p g start valid r :=
  ⟨_, solveWithin_eq hs _, pending_run_budget hp hg.toLinked hrank htop (perm_order hg hs _),
    .of_solveWithin hp hg hs _⟩

/-- The solver is done after at most so many visits, and would do nothing if it could make more. -/
def Problem.EndsWithin (p : Problem α) (g : Graph) (bound : Nat) : Prop :=
  ∃ r, p.solve g = .ok r ∧ r.pending = [] ∧ r.visits ≤ bound ∧
    ∀ k, bound ≤ k → p.solveWithin g k = .ok r

/-- With ranks it is done within its budget. -/
theorem endsWithin_budget (hp : p.Lawful g valid) (hg : g.WellFormed) (hs : g.start = some start)
    {rank : α → Nat} (hrank : Ranks valid rank) (htop : rank p.top ≤ p.height) :
    p.EndsWithin g (p.budget g) := by
  have hq := perm_order hg hs p.direction
  have hend :
      (p.run g g.reachable start (p.budget g) (p.initial g g.reachable start)).pending = [] :=
    pending_run_budget hp hg.toLinked hrank htop hq
  refine ⟨_, solveWithin_eq hs _, hend, ?_, fun k hk => ?_⟩
  · exact Nat.le_of_add_right_le (run_initial_le start hp hg.toLinked hrank htop hq _).1
  · rw [solveWithin_eq hs]
    exact congrArg _ (run_eq_of_pending_nil hend hk)

end Flowgraph.Dataflow

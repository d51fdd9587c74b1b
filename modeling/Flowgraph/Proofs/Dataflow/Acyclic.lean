import Flowgraph.Proofs.Built
import Flowgraph.Proofs.Dataflow.Solution
import Mathlib.Data.List.Induction

/-!
# Acyclic graphs are solved in one visit for each node

Where the start leads to no cycle, the order of the first visits puts every node before its targets.
So a visit changes no input of a node that was visited before, and whatever it would put in the
queue waits there already.  This asks nothing of the lattice, and of the transfers only that every
edge gets a value.

* `Graph.AcyclicFrom`, `Direction.pairwise_order`: the order of the first visits.
* `Direction.order_induction`: induction from the nodes where values come from to those where they
  go.
* `SolvesInOrder`: the equations without laws of the lattice; on an acyclic graph they have one
  solution at most.
* `Midway`: the state when a first part of the order has been visited.
* `Midway.step`, `Midway.run`: one visit, and all of them.
* `acyclic_solved_in_one_pass`: what the solver does on a built graph.
-/

namespace Flowgraph

open Flowgraph.Graph

variable {g : Graph} {start m n : NodeId} {done rest : List NodeId}

/-! ### Acyclic graphs -/

/-- The start leads to no node that leads to itself. -/
def Graph.AcyclicFrom (g : Graph) (start : NodeId) : Prop :=
  ∀ n, g.Reaches start n → ¬Relation.TransGen (fun a b => b ∈ g.succs a) n n

/-- A graph whose edges all lead downward has no cycle. -/
theorem Graph.acyclicFrom_of_lt (h : ∀ a b, b ∈ g.succs a → b < a) : g.AcyclicFrom start := by
  intro n _ hcycle
  have hlt {a b : NodeId} (hab : Relation.TransGen (fun a b => b ∈ g.succs a) a b) : b < a := by
    induction hab with
    | single hab => exact h _ _ hab
    | tail _ hbc ih => exact (h _ _ hbc).trans ih
  exact Nat.lt_irrefl n (hlt hcycle)

namespace Dataflow

namespace Direction

variable (hg : g.WellFormed) (hs : g.start = some start) (hac : g.AcyclicFrom start)

include hg hs hac

omit hs in
/-- No node comes before one that it is a target of. -/
theorem pairwise_order (d : Direction) :
    (d.order g start).Pairwise fun m n => m ∉ d.targets g n := by
  have hpost : (g.flow.postorder start).Pairwise fun a b => b ∉ g.succs a := by
    refine (Digraph.pairwise_postorder g.flow start).imp_of_mem fun {a b} ha _ hback hab => ?_
    have hreach := hg.flow_reaches.mp (Digraph.mem_postorder.mp ha).2
    exact hac a hreach (.head' hab (hg.flow_reaches.mp (hback ⟨hab, hg.isLive_succ hab⟩)))
  cases d with
  | forward => exact List.pairwise_reverse.mpr hpost
  | backward => exact hpost.imp fun hab h => hab (hg.mem_preds.mp h)

/-- The targets of a node come after it. -/
theorem not_mem_targets {d : Direction} (horder : d.order g start = done ++ n :: rest)
    (hm : m ∈ done ∨ m = n) : m ∉ d.targets g n := by
  rcases hm with hm | rfl
  · have hpair := pairwise_order hg hac d
    rw [horder] at hpair
    exact (List.pairwise_append.mp hpair).2.2 m hm n List.mem_cons_self
  · have hm : m ∈ d.order g start := horder ▸ List.mem_append_right _ List.mem_cons_self
    have hreach := (hg.mem_reachable hs).mp ((mem_order_iff hg hs d).mp hm)
    intro hloop
    cases d with
    | forward => exact hac m hreach (.single hloop)
    | backward => exact hac m hreach (.single (hg.mem_preds.mp hloop))

/-- What is true of a node if it is true of all those that values come from is true of all. -/
theorem order_induction (d : Direction) {P : NodeId → Prop}
    (hstep : ∀ n ∈ g.reachable, (∀ m ∈ g.reachable, n ∈ d.targets g m → P m) → P n) :
    ∀ n ∈ g.reachable, P n := by
  suffices hall : ∀ done rest, d.order g start = done ++ rest → ∀ n ∈ done, P n from
    fun n hn => hall _ [] (List.append_nil _).symm n ((mem_order_iff hg hs d).mpr hn)
  intro done
  induction done using List.reverseRecOn with
  | nil => exact fun _ _ _ hn => absurd hn List.not_mem_nil
  | append_singleton done k ih =>
      intro rest horder n hn
      rw [List.append_assoc, List.singleton_append] at horder
      have hdone := ih (k :: rest) horder
      rcases List.mem_append.mp hn with hn | hn
      · exact hdone n hn
      obtain rfl := List.mem_singleton.mp hn
      have hn : n ∈ d.order g start := horder ▸ List.mem_append_right _ List.mem_cons_self
      refine hstep n ((mem_order_iff hg hs d).mp hn) fun m hm htarget => ?_
      -- a node that has this one as its target comes before it
      have hmem := (mem_order_iff hg hs d).mpr hm
      have hpair := pairwise_order hg hac d
      rw [horder] at hmem hpair
      rcases List.mem_append.mp hmem with hmem | hmem
      · exact hdone m hmem
      rcases List.mem_cons.mp hmem with rfl | hmem
      · exact absurd htarget (not_mem_targets hg hs hac horder (.inr rfl))
      · exact absurd htarget
          ((List.pairwise_cons.mp (List.pairwise_append.mp hpair).2.1).1 m hmem)

end Direction

/-! ### Equations without laws -/

variable {α : Type} [MeetLattice α] {p : Problem α} {d : Direction} {F G : Family α}
  {valid : α → Prop} {i : Nat} {s : State α}

/-- The edges that enter `n` from reached nodes, in the order in which `n` lists these. -/
def enteringInOrder (d : Direction) (g : Graph) (n : NodeId) : List (NodeId × Nat) :=
  ((d.sources g n).filter fun m => g.reachable.contains m).flatMap fun m =>
    ((List.range (d.targets g m).length).filter fun i => (d.targets g m)[i]? = some n).map
      fun i => (m, i)

/-- The same edges enter, in whatever order they are listed. -/
theorem mem_enteringInOrder (hg : g.Linked) :
    (m, i) ∈ enteringInOrder d g n ↔ (m, i) ∈ entering d g n := by
  simp only [enteringInOrder, mem_entering, List.mem_flatMap, List.mem_map, List.mem_filter,
    List.mem_range, List.contains_iff_mem, decide_eq_true_eq, Prod.mk.injEq,
    Direction.mem_sources hg]
  constructor
  · rintro ⟨_, ⟨-, hm⟩, _, ⟨-, hi⟩, rfl, rfl⟩
    exact ⟨hm, hi⟩
  · rintro ⟨hm, hi⟩
    exact ⟨m, ⟨List.mem_of_getElem? hi, hm⟩, i, ⟨(List.getElem?_eq_some_iff.mp hi).1, hi⟩, rfl, rfl⟩

/-- The equations of a problem, for the nodes that the start leads to, with a meet in the order in
which the node lists where values come from. -/
structure SolvesInOrder (p : Problem α) (g : Graph) (start : NodeId) (F : Family α) : Prop where
  boundary : ∀ {n v}, n ∈ g.reachable → p.boundary = some v → p.direction.Entry g start n →
    F.input n = v
  inner : ∀ {n}, n ∈ g.reachable → p.boundary = none ∨ ¬p.direction.Entry g start n →
    F.input n = p.meetAll ((enteringInOrder p.direction g n).map fun e => F.edge e.1 e.2)
  edge : ∀ {n i}, n ∈ g.reachable → i < (p.direction.targets g n).length →
    valueAt (p.transfer n (F.input n)) i = some (F.edge n i)

namespace SolvesInOrder

/-- Under the laws of the lattice the order does not matter. -/
theorem solves (hF : SolvesInOrder p g start F) (hg : g.Linked) (hlaws : MeetLaws valid p.top)
    (hvalid : F.Valid p g valid) : Solves p g start F where
  boundary := hF.boundary
  inner {n} hn hb := by
    have hv : ∀ v ∈ (enteringInOrder p.direction g n).map fun e => F.edge e.1 e.2, valid v := by
      intro v hv
      obtain ⟨⟨m, i⟩, he, rfl⟩ := List.mem_map.mp hv
      obtain ⟨hm, hi⟩ := mem_entering.mp ((mem_enteringInOrder hg).mp he)
      exact hvalid.edge hm (List.getElem?_eq_some_iff.mp hi).1
    rw [hF.inner hn hb, hlaws.meetAll_eq hv]
    refine hlaws.foldr_eq_of_mem_iff hv fun v => ?_
    rw [List.mem_map, List.mem_map]
    exact exists_congr fun e => and_congr_left fun _ => mem_enteringInOrder hg
  edge := hF.edge

section Acyclic

variable (hg : g.WellFormed) (hs : g.start = some start) (hac : g.AcyclicFrom start)

include hg hs hac

/-- Values are valid if what enters from outside is and transfers keep them so. -/
theorem valid_values (hF : SolvesInOrder p g start F) (hlaws : MeetLaws valid p.top)
    (hboundary : ∀ v, p.boundary = some v → valid v)
    (htransfer : ∀ n ∈ g.reachable, ∀ a, valid a → ∀ v ∈ p.transfer n a, valid v) :
    F.Valid p g valid := by
  have hinput : ∀ n ∈ g.reachable, valid (F.input n) := by
    refine Direction.order_induction hg hs hac p.direction fun n hn ih => ?_
    rcases Problem.inputAt_cases p g start n with ⟨v, hb, hat, -⟩ | ⟨hb, -⟩
    · rw [hF.boundary hn hb hat]
      exact hboundary v hb
    · have hv : ∀ v ∈ (enteringInOrder p.direction g n).map fun e => F.edge e.1 e.2, valid v := by
        intro v hv
        obtain ⟨⟨m, i⟩, he, rfl⟩ := List.mem_map.mp hv
        obtain ⟨hm, hi⟩ := mem_entering.mp ((mem_enteringInOrder hg.toLinked).mp he)
        have hin := ih m hm (List.mem_of_getElem? hi)
        exact htransfer m hm _ hin _
          (mem_of_valueAt (hF.edge hm (List.getElem?_eq_some_iff.mp hi).1))
      rw [hF.inner hn hb, hlaws.meetAll_eq hv]
      exact hlaws.valid_foldr hv
  exact ⟨fun hn => hinput _ hn, fun hn hi =>
    htransfer _ hn _ (hinput _ hn) _ (mem_of_valueAt (hF.edge hn hi))⟩

/-- There is at most one solution. -/
theorem unique (hF : SolvesInOrder p g start F) (hG : SolvesInOrder p g start G) :
    ∀ n ∈ g.reachable, F.input n = G.input n ∧
      ∀ i < (p.direction.targets g n).length, F.edge n i = G.edge n i := by
  have hedge {n : NodeId} (hn : n ∈ g.reachable) (he : F.input n = G.input n) {i : Nat}
      (hi : i < (p.direction.targets g n).length) : F.edge n i = G.edge n i :=
    Option.some.inj ((hF.edge hn hi).symm.trans (he ▸ hG.edge hn hi))
  have hinput : ∀ n ∈ g.reachable, F.input n = G.input n := by
    refine Direction.order_induction hg hs hac p.direction fun n hn ih => ?_
    rcases Problem.inputAt_cases p g start n with ⟨v, hb, hat, -⟩ | ⟨hb, -⟩
    · rw [hF.boundary hn hb hat, hG.boundary hn hb hat]
    · rw [hF.inner hn hb, hG.inner hn hb]
      refine congrArg _ (List.map_congr_left fun e he => ?_)
      obtain ⟨hm, hi⟩ := mem_entering.mp ((mem_enteringInOrder hg.toLinked).mp he)
      exact hedge hm (ih _ hm (List.mem_of_getElem? hi)) (List.getElem?_eq_some_iff.mp hi).1
  exact fun n hn => ⟨hinput n hn, fun i hi => hedge hn (hinput n hn) hi⟩

end Acyclic

end SolvesInOrder

/-! ### The nodes that are visited -/

section Visited

variable [DecidableEq α]

/-- The nodes that a run visits, in order. -/
def Problem.visited (p : Problem α) (g : Graph) (reached : List NodeId) (start : NodeId) :
    Nat → State α → List NodeId
  | 0, _ => []
  | visits + 1, s =>
      match s.pending with
      | [] => []
      | n :: _ => n :: visited p g reached start visits (p.step g reached start s)

/-- They are counted. -/
theorem visits_run (p : Problem α) (g : Graph) (start : NodeId) (k : Nat) (s : State α) :
    (p.run g g.reachable start k s).visits =
      s.visits + (p.visited g g.reachable start k s).length := by
  induction k generalizing s with
  | zero => rfl
  | succ k ih =>
      rw [Problem.run, Problem.visited]
      cases hs : s.pending with
      | nil => rfl
      | cons n rest =>
          have hstep : (p.step g g.reachable start s).visits = s.visits + 1 := by
            rw [Problem.step, hs]
            rfl
          rw [List.isEmpty_cons, if_neg Bool.false_ne_true, ih, hstep, List.length_cons,
            Nat.add_right_comm, Nat.add_assoc]

/-! ### One visit after the other -/

/-- Nodes that wait already are not queued again. -/
theorem enqueue_of_subset {queue ns : List NodeId} (h : ∀ n ∈ ns, n ∈ queue) :
    enqueue queue ns = queue := by
  induction ns with
  | nil => rfl
  | cons n ns ih =>
      obtain ⟨hn, hns⟩ := List.forall_mem_cons.mp h
      rw [enqueue, List.foldl_cons, if_pos hn]
      exact ih hns

/-- The facts of a node after a first visit with this input. -/
def Problem.factsAt (p : Problem α) (g : Graph) (n : NodeId) (a : α) : Facts α where
  input := some a
  output := (p.transfer n a).head?
  edges := ((p.direction.targets g n).map fun _ => p.top).mapIdx (edgeValue (p.transfer n a))

/-- The nodes of a first part of the order have been visited, with the inputs that they would have
now.  The others have not, and wait in their order. -/
structure Midway (p : Problem α) (g : Graph) (start : NodeId) (done rest : List NodeId)
    (s : State α) : Prop where
  order_eq : p.direction.order g start = done ++ rest
  pending_eq : s.pending = rest
  size : s.facts.size = g.bound
  visited : ∀ {n}, n ∈ done → s.facts? n = p.factsAt g n (p.inputAt g g.reachable start s n)
  waiting : ∀ {n}, n ∈ rest → s.edges n = (p.direction.targets g n).map fun _ => p.top
  unreached : ∀ {n}, n ∉ g.reachable → s.facts? n = .unreached

namespace Midway

variable (hg : g.WellFormed) (hs : g.start = some start) (hac : g.AcyclicFrom start)

include hg hs

omit [DecidableEq α] in
/-- A node that the start leads to has had its turn or waits for it. -/
theorem mem_reachable_iff (h : Midway p g start done rest s) :
    n ∈ g.reachable ↔ n ∈ done ∨ n ∈ rest := by
  rw [← Direction.mem_order_iff hg hs p.direction, h.order_eq, List.mem_append]

omit [DecidableEq α] in
/-- Before the first visit all nodes wait, in the order of the problem. -/
theorem initial (p : Problem α) :
    Midway p g start [] (p.direction.order g start) (p.initial g g.reachable start) where
  order_eq := rfl
  pending_eq := rfl
  size := by simp [Problem.initial]
  visited hn := absurd hn List.not_mem_nil
  waiting {n} hn := by
    have hfacts := Underway.facts?_initial p g start n (p.direction.order g start)
    rw [if_pos ((Direction.mem_order_iff hg hs p.direction).mp hn)] at hfacts
    exact congrArg Facts.edges hfacts
  unreached {n} hn := by
    have hfacts := Underway.facts?_initial p g start n (p.direction.order g start)
    rwa [if_neg hn] at hfacts

include hac

/-- A visit of the next node changes no input of a node that has been visited, and queues
nothing. -/
theorem step (h : Midway p g start done (n :: rest) s) :
    Midway p g start (done ++ [n]) rest (p.step g g.reachable start s) := by
  have hn : n ∈ g.reachable := (h.mem_reachable_iff hg hs).mpr (.inr List.mem_cons_self)
  have hlt : n < s.facts.size := h.size ▸ lt_bound_of_isLive (isLive_of_mem_reachable hn)
  have hfacts (m : NodeId) : (p.step g g.reachable start s).facts? m =
      if m = n then p.factsAt g n (p.inputAt g g.reachable start s n) else s.facts? m := by
    rw [Problem.step, h.pending_eq, Problem.factsAt, ← h.waiting List.mem_cons_self]
    exact Problem.facts?_visit hlt
  have hinput {m : NodeId} (hm : m ∈ done ∨ m = n) :
      p.inputAt g g.reachable start (p.step g g.reachable start s) m =
        p.inputAt g g.reachable start s m := by
    refine Problem.inputAt_congr fun k _ i hi => ?_
    have hne : k ≠ n := fun e => Direction.not_mem_targets hg hs hac h.order_eq hm
      (e ▸ List.mem_of_getElem? hi)
    rw [State.edges, hfacts, if_neg hne, State.edges]
  have hpending : (p.step g g.reachable start s).pending = rest := by
    rw [Problem.step, h.pending_eq]
    refine enqueue_of_subset fun m hm => ?_
    obtain ⟨hreach, i, -, -, hi, -⟩ := Problem.mem_stale.mp hm
    -- a target of this node comes later
    have htarget : m ∈ p.direction.targets g n := List.mem_of_getElem? hi
    rcases (h.mem_reachable_iff hg hs).mp hreach with hm | hm
    · exact absurd htarget (Direction.not_mem_targets hg hs hac h.order_eq (.inl hm))
    · refine (List.mem_cons.mp hm).resolve_left fun e => ?_
      exact absurd htarget (Direction.not_mem_targets hg hs hac h.order_eq (.inr e))
  have hnew : n ∉ rest := by
    have hnodup := Direction.nodup_order g start p.direction
    rw [h.order_eq] at hnodup
    exact (List.nodup_cons.mp (List.nodup_append.mp hnodup).2.1).1
  refine ⟨?_, hpending, ?_, fun {m} hm => ?_, fun {m} hm => ?_, fun {m} hm => ?_⟩
  · rw [h.order_eq, List.append_assoc, List.singleton_append]
  · rw [Problem.step, h.pending_eq]
    exact Problem.size_facts_visit.trans h.size
  · rw [List.mem_append, List.mem_singleton] at hm
    rw [hfacts, hinput hm]
    split
    · next e => rw [e]
    · next e => exact h.visited (hm.resolve_right e)
  · rw [State.edges, hfacts, if_neg fun e : m = n => hnew (e ▸ hm)]
    exact h.waiting (List.mem_cons_of_mem _ hm)
  · rw [hfacts, if_neg fun e : m = n => hm (e ▸ hn)]
    exact h.unreached hm

/-- With as many visits as there are nodes waiting, each of these is visited once. -/
theorem run {k : Nat} (h : Midway p g start done rest s) (hk : rest.length ≤ k) :
    Midway p g start (done ++ rest) [] (p.run g g.reachable start k s) ∧
      p.visited g g.reachable start k s = rest := by
  induction rest generalizing done s k with
  | nil =>
      rw [run_of_pending_nil h.pending_eq, List.append_nil]
      refine ⟨h, ?_⟩
      cases k with
      | zero => rfl
      | succ k => rw [Problem.visited, h.pending_eq]
  | cons n rest ih =>
      obtain ⟨k, rfl⟩ : ∃ k', k = k' + 1 := ⟨k - 1, by simp at hk; omega⟩
      obtain ⟨hlater, hvisited⟩ := ih (h.step hg hs hac) (Nat.le_of_succ_le_succ hk)
      rw [Problem.run, Problem.visited, h.pending_eq, hvisited]
      rw [List.append_assoc, List.singleton_append] at hlater
      exact ⟨hlater, rfl⟩

end Midway

end Visited

/-! ### When all have been visited -/

namespace Midway

variable (hg : g.WellFormed) (hs : g.start = some start) (h : Midway p g start done [] s)

include hg hs h

/-- In the end every node has the facts of a visit with the final input. -/
theorem facts?_eq (hn : n ∈ g.reachable) :
    s.facts? n = p.factsAt g n (p.inputAt g g.reachable start s n) :=
  h.visited (((h.mem_reachable_iff hg hs).mp hn).resolve_right List.not_mem_nil)

theorem input_family (hn : n ∈ g.reachable) :
    (s.family p).input n = p.inputAt g g.reachable start s n := by
  rw [Flowgraph.Dataflow.family_input, State.input, h.facts?_eq hg hs hn]
  rfl

theorem edges_eq (hn : n ∈ g.reachable) :
    s.edges n = (List.range (p.direction.targets g n).length).map ((s.family p).edge n) := by
  refine edges_eq_map ?_
  rw [State.edges, h.facts?_eq hg hs hn]
  simp [Problem.factsAt]

theorem edge_family (hn : n ∈ g.reachable) (hi : i < (p.direction.targets g n).length) :
    (s.edges n)[i]? = some ((s.family p).edge n i) := by
  rw [h.edges_eq hg hs hn]
  simp [hi]

/-- So the state records the family of its own values. -/
theorem records : Records p g (s.family p) s where
  reached {n} hn := by
    rw [← h.edges_eq hg hs hn, h.input_family hg hs hn, State.edges, h.facts?_eq hg hs hn]
    rfl
  unreached := h.unreached

/-- What is stored solves the equations. -/
theorem solvesInOrder (harity : ∀ n ∈ g.reachable, ∀ a, (p.transfer n a).length = 1 ∨
      (p.transfer n a).length = (p.direction.targets g n).length) :
    SolvesInOrder p g start (s.family p) where
  boundary hn hv hat :=
    (h.input_family hg hs hn).trans (Problem.inputAt_of_boundary hv hat)
  inner {n} hn hb := by
    rw [h.input_family hg hs hn, Problem.inputAt_of_inner hb, Problem.arriving_eq_filterMap,
      enteringInOrder, List.map_flatMap]
    refine congrArg _ (List.flatMap_congr fun m hm => ?_)
    have hm := List.contains_iff_mem.mp (List.mem_filter.mp hm).2
    rw [List.map_map, ← List.filterMap_eq_map, List.filterMap_filter]
    refine List.filterMap_congr fun i hi => ?_
    rw [h.edge_family hg hs hm (List.mem_range.mp hi)]
    simp
  edge {n i} hn hi := by
    obtain ⟨v, hv⟩ := exists_valueAt hi (harity n hn (p.inputAt g g.reachable start s n))
    have hedge := h.edge_family hg hs hn hi
    rw [State.edges, h.facts?_eq hg hs hn, Problem.factsAt, List.getElem?_mapIdx,
      List.getElem?_map, List.getElem?_eq_getElem hi, Option.map_some, Option.map_some,
      edgeValue_eq, hv, Option.getD_some] at hedge
    rw [h.input_family hg hs hn, hv, hedge]

end Midway

/-- Take a built graph with a start that leads to no cycle, and a problem of either direction over
any values, whose transfers give each node one value for all its edges or one for each.  The solver
visits every node that the start leads to once.  What it has stored then solves the equations, which
have no other solution; under the laws of a lattice the order of the meets makes no difference to
them.  The solver would do nothing if it could make more visits. -/
theorem acyclic_solved_in_one_pass [DecidableEq α] (p : Problem α) (hg : Built g)
    (hs : g.start = some start) (hac : g.AcyclicFrom start)
    (harity : ∀ n ∈ g.reachable, ∀ a, (p.transfer n a).length = 1 ∨
      (p.transfer n a).length = (p.direction.targets g n).length) :
    ∃ r, p.solve g = .ok r ∧ r.pending = [] ∧ r.visits = g.reachable.length ∧
      (p.visited g g.reachable start (p.budget g) (p.initial g g.reachable start)).Perm
        g.reachable ∧
      (∀ k, g.reachable.length ≤ k → p.solveWithin g k = .ok r) ∧
      Records p g (r.family p) r ∧ SolvesInOrder p g start (r.family p) ∧
      (∀ G, SolvesInOrder p g start G → ∀ n ∈ g.reachable, G.input n = (r.family p).input n ∧
        ∀ i < (p.direction.targets g n).length, G.edge n i = (r.family p).edge n i) ∧
      (∀ valid, MeetLaws valid p.top → (∀ v, p.boundary = some v → valid v) →
        (∀ n ∈ g.reachable, ∀ a, valid a → ∀ v ∈ p.transfer n a, valid v) →
        Solves p g start (r.family p)) ∧
      g.reachable.Nodup ∧ ∀ n, n ∈ g.reachable ↔ g.Reaches start n := by
  have hw := hg.wellFormed
  have hperm := perm_order hw hs p.direction
  have hrun {k : Nat} (hk : g.reachable.length ≤ k) :
      Midway p g start (p.direction.order g start) []
          (p.run g g.reachable start k (p.initial g g.reachable start)) ∧
        p.visited g g.reachable start k (p.initial g g.reachable start) =
          p.direction.order g start :=
    (Midway.initial hw hs p).run hw hs hac (hperm.length_eq.trans_le hk)
  have hbudget : g.reachable.length ≤ p.budget g := Nat.le_add_right ..
  obtain ⟨hend, hvisited⟩ := hrun hbudget
  have hsolves := hend.solvesInOrder hw hs harity
  refine ⟨_, solveWithin_eq hs _, hend.pending_eq, ?_, hvisited ▸ hperm, fun k hk => ?_,
    hend.records hw hs, hsolves, fun G hG => hG.unique hw hs hac hsolves,
    fun valid hlaws hboundary htransfer => hsolves.solves hw.toLinked hlaws
      (hsolves.valid_values hw hs hac hlaws hboundary htransfer),
    nodup_reachable g, fun n => hw.mem_reachable hs⟩
  · rw [visits_run, hvisited, hperm.length_eq]
    exact Nat.zero_add _
  · -- as many visits as there are nodes are enough
    have hshort := (hrun (Nat.le_refl _)).1.pending_eq
    rw [solveWithin_eq hs, run_eq_of_pending_nil hshort hk, run_eq_of_pending_nil hshort hbudget]

/-- A branch on `c` to the return, at once or behind an assignment. -/
def earlyJoin : Graph :=
  after (Edit.addStart 2) (after (Edit.addBranch (.temp "c") 0 1)
    (after (Edit.addAssign "x" (.const 1) 0) (after Edit.addReturn .empty)))

/-- The empty set becomes the full one, and every other set becomes the empty one. -/
def reversing : Problem NodeSet where
  direction := .forward
  top := .full 4
  boundary := some (.empty 4)
  transfer _ s := [if isBottom s then .full 4 else .empty 4]
  height := 0

/-- Every node is visited once, although the transfer turns the order around and the return is found
before the assignment that leads to it. -/
theorem acyclic_solved_in_one_pass_earlyJoin :
    Built earlyJoin ∧ earlyJoin.start = some 3 ∧ earlyJoin.AcyclicFrom 3 ∧
      earlyJoin.reachable = [3, 2, 0, 1] ∧
      ∃ r, reversing.solve earlyJoin = .ok r ∧ r.visits = 4 ∧
        SolvesInOrder reversing earlyJoin 3 (r.family reversing) ∧
        (r.family reversing).input 1 = .empty 4 ∧ (r.family reversing).edge 1 0 = .full 4 ∧
        (r.family reversing).input 0 = .empty 4 := by
  have hg : Built earlyJoin :=
    .tail (.tail (.tail (.single (.addReturn _)) (.addAssign _ _ _ _)) (.addBranch _ _ _ _))
      (.addStart _ _)
  have hs : earlyJoin.start = some 3 := by decide +kernel
  have hlt : ∀ a < earlyJoin.bound, ∀ b ∈ earlyJoin.succs a, b < a := by decide +kernel
  have hac : earlyJoin.AcyclicFrom 3 :=
    acyclicFrom_of_lt fun a b hb => hlt a (lt_bound_of_isLive (isLive_of_mem_succs hb)) b hb
  have hreach : earlyJoin.reachable = [3, 2, 0, 1] := by decide +kernel
  obtain ⟨r, hr, -, hvisits, -, -, -, hsolves, -⟩ :=
    acyclic_solved_in_one_pass reversing hg hs hac fun _ _ _ => .inl rfl
  have hfound : (reversing.solve earlyJoin).toOption.map (fun r => ((r.family reversing).input 1,
      (r.family reversing).edge 1 0, (r.family reversing).input 0)) =
        some (.empty 4, .full 4, .empty 4) := by decide +kernel
  rw [hr] at hfound
  injection hfound with hfound
  simp only [Prod.mk.injEq] at hfound
  rw [hreach] at hvisits
  exact ⟨hg, hs, hac, hreach, r, hr, hvisits, hsolves, hfound⟩

end Dataflow

end Flowgraph

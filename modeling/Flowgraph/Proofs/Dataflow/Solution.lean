import Flowgraph.Proofs.Dataflow.Termination

/-!
# Solutions of dataflow problems

A family of inputs and edge values solves a problem when every input is the meet over the entering
edges, or what enters from outside, and every edge has the value transferred from the input of its
node.  Here the equations stand on their own, without the solver.

* `Solves`: the equations.
* `Underway.solves`: a state in which no node waits holds a solution.
* `Underway.above_of_reflTransGen`: no solution has a greater value on an edge than any state that
  visits lead to.
* `Underway.le_family`: no solution is above a state in which no node waits.
* `Family.Le.of_records`: solutions below each other are recorded in the same facts.
-/

namespace Flowgraph.Dataflow

open Flowgraph.Graph

variable {α : Type} [MeetLattice α]

/-- An input for every node and a value for every edge. -/
structure Family (α : Type) where
  input : NodeId → α
  edge : NodeId → Nat → α

/-- The edges that enter `n` from reached nodes, as their sources and positions. -/
def entering (d : Direction) (g : Graph) (n : NodeId) : List (NodeId × Nat) :=
  g.reachable.flatMap fun m =>
    ((List.range (d.targets g m).length).filter fun i => (d.targets g m)[i]? = some n).map
      fun i => (m, i)

/-- An edge enters from a node that the start leads to, at the position where it has the target. -/
theorem mem_entering {d : Direction} {g : Graph} {m n : NodeId} {i : Nat} :
    (m, i) ∈ entering d g n ↔ m ∈ g.reachable ∧ (d.targets g m)[i]? = some n := by
  simp only [entering, List.mem_flatMap, List.mem_map, List.mem_filter, List.mem_range,
    decide_eq_true_eq, Prod.mk.injEq]
  constructor
  · rintro ⟨_, hm, _, ⟨-, hi⟩, rfl, rfl⟩
    exact ⟨hm, hi⟩
  · rintro ⟨hm, hi⟩
    exact ⟨m, hm, i, ⟨(List.getElem?_eq_some_iff.mp hi).1, hi⟩, rfl, rfl⟩

omit [MeetLattice α] in
/-- The values on those edges, if they are the values of their sources. -/
theorem mem_map_entering {d : Direction} {g : Graph} {n : NodeId} {v : α} {edge : NodeId → Nat → α}
    {value : NodeId → α} (hedge : ∀ {m i}, (m, i) ∈ entering d g n → edge m i = value m) :
    v ∈ (entering d g n).map (fun e => edge e.1 e.2) ↔
      ∃ m i, (m, i) ∈ entering d g n ∧ value m = v := by
  rw [List.mem_map]
  constructor
  · rintro ⟨⟨m, i⟩, he, rfl⟩
    exact ⟨m, i, he, (hedge he).symm⟩
  · rintro ⟨m, i, he, rfl⟩
    exact ⟨(m, i), he, hedge he⟩

/-- The equations of a problem, for the nodes that the start leads to. -/
structure Solves (p : Problem α) (g : Graph) (start : NodeId) (F : Family α) : Prop where
  /-- What enters from outside enters at the start, or at the nodes without successors if the
  problem is a backward one. -/
  boundary : ∀ {n v}, n ∈ g.reachable → p.boundary = some v → p.direction.Entry g start n →
    F.input n = v
  /-- Everywhere else enters the meet over the entering edges, which is the top without any. -/
  inner : ∀ {n}, n ∈ g.reachable → p.boundary = none ∨ ¬p.direction.Entry g start n →
    F.input n = ((entering p.direction g n).map fun e => F.edge e.1 e.2).foldr meet p.top
  /-- Every edge has the value transferred to it. -/
  edge : ∀ {n i}, n ∈ g.reachable → i < (p.direction.targets g n).length →
    valueAt (p.transfer n (F.input n)) i = some (F.edge n i)

namespace Family

/-- All values of a family at reached nodes are valid. -/
structure Valid (p : Problem α) (g : Graph) (valid : α → Prop) (F : Family α) : Prop where
  input : ∀ {n}, n ∈ g.reachable → valid (F.input n)
  edge : ∀ {n i}, n ∈ g.reachable → i < (p.direction.targets g n).length → valid (F.edge n i)

/-- At reached nodes no value of `F` is above that of `G`. -/
structure Le (p : Problem α) (g : Graph) (F G : Family α) : Prop where
  input : ∀ {n}, n ∈ g.reachable → Below (F.input n) (G.input n)
  edge : ∀ {n i}, n ∈ g.reachable → i < (p.direction.targets g n).length →
    Below (F.edge n i) (G.edge n i)

end Family

/-- The facts of a state are those of a family, with the first transferred value as output, and
nothing is known where the start does not lead. -/
structure Records (p : Problem α) (g : Graph) (F : Family α) (s : State α) : Prop where
  reached : ∀ {n}, n ∈ g.reachable → s.facts? n =
    ⟨some (F.input n), (p.transfer n (F.input n)).head?,
      (List.range (p.direction.targets g n).length).map (F.edge n)⟩
  unreached : ∀ {n}, n ∉ g.reachable → s.facts? n = .unreached

/-- The values that a state holds. -/
def State.family (p : Problem α) (s : State α) : Family α where
  input n := (s.input n).getD p.top
  edge n i := ((s.edges n)[i]?).getD p.top

variable {p : Problem α} {g : Graph} {start n : NodeId} {valid : α → Prop} {F G : Family α}
  {s t : State α}

omit [MeetLattice α] in
theorem family_input : (s.family p).input n = (s.input n).getD p.top := rfl

omit [MeetLattice α] in
theorem family_edge {i : Nat} : (s.family p).edge n i = ((s.edges n)[i]?).getD p.top := rfl

omit [MeetLattice α] in
/-- With one value for each edge of a node, they are those of the family. -/
theorem edges_eq_map (hlen : (s.edges n).length = (p.direction.targets g n).length) :
    s.edges n = (List.range (p.direction.targets g n).length).map ((s.family p).edge n) := by
  refine List.ext_getElem (by simp [hlen]) fun i hi _ => ?_
  rw [List.getElem_map, List.getElem_range, family_edge, List.getElem?_eq_getElem hi,
    Option.getD_some]

/-! ### A state in which no node waits -/

namespace Underway

/-- The family has the value that is stored for an edge. -/
theorem edge_family (hs : Underway p g start valid s) (hn : n ∈ g.reachable) {i : Nat}
    (hi : i < (p.direction.targets g n).length) :
    (s.edges n)[i]? = some ((s.family p).edge n i) := by
  have hlen : i < (s.edges n).length := hs.length_edges hn ▸ hi
  rw [family_edge, List.getElem?_eq_getElem hlen, Option.getD_some]

/-- When no node waits, the stored inputs are what would be taken in now. -/
theorem input_family (hs : Underway p g start valid s) (hend : s.pending = [])
    (hn : n ∈ g.reachable) :
    s.input n = some ((s.family p).input n) ∧
      (s.family p).input n = p.inputAt g g.reachable start s n := by
  have hin := (hs.waiting hn).resolve_left (by simp [hend])
  rw [family_input, hin, Option.getD_some]
  exact ⟨rfl, rfl⟩

theorem valid_family (hs : Underway p g start valid s) (hend : s.pending = []) :
    (s.family p).Valid p g valid where
  input hn := hs.valid_input (hs.input_family hend hn).1
  edge hn hi := hs.valid_edges _ hn _ (List.mem_of_getElem? (hs.edge_family hn hi))

/-- Such a state records the family of its own values. -/
theorem records (hs : Underway p g start valid s) (hend : s.pending = []) :
    Records p g (s.family p) s where
  reached {n} hn := by
    have hin := (hs.input_family hend hn).1
    have hout := hs.output_eq hin
    have hedges := edges_eq_map (hs.length_edges hn)
    rw [← hout, ← hin, ← hedges]
    rfl
  unreached hn := hs.unreached hn

/-- What the solver takes as input of a node is the meet over the edges that enter it. -/
theorem inputAt_eq (hs : Underway p g start valid s) (hp : p.Lawful g valid) (hg : g.Linked)
    (hb : p.boundary = none ∨ ¬p.direction.Entry g start n) :
    p.inputAt g g.reachable start s n =
      ((entering p.direction g n).map fun e => (s.family p).edge e.1 e.2).foldr meet p.top := by
  -- the solver meets in the order of the predecessor lists, the equations in that of the nodes
  have hval := Problem.valid_arriving (p := p) (n := n) hg hs.valid_edges
  rw [Problem.inputAt_of_inner hb, hp.meetAll_eq hval]
  refine hp.foldr_eq_of_mem_iff hval fun v => ?_
  rw [Problem.mem_arriving hg, List.mem_map]
  constructor
  · rintro ⟨m, hm, i, hi, hv⟩
    have he := hs.edge_family hm (List.getElem?_eq_some_iff.mp hi).1
    exact ⟨(m, i), mem_entering.mpr ⟨hm, hi⟩, Option.some.inj (he.symm.trans hv)⟩
  · rintro ⟨⟨m, i⟩, he, rfl⟩
    obtain ⟨hm, hi⟩ := mem_entering.mp he
    exact ⟨m, hm, i, hi, hs.edge_family hm (List.getElem?_eq_some_iff.mp hi).1⟩

/-- That family solves the equations. -/
theorem solves (hs : Underway p g start valid s) (hp : p.Lawful g valid) (hg : g.Linked)
    (hend : s.pending = []) : Solves p g start (s.family p) where
  boundary hn hv hat :=
    (hs.input_family hend hn).2.trans (Problem.inputAt_of_boundary hv hat)
  inner hn hb := (hs.input_family hend hn).2.trans (hs.inputAt_eq hp hg hb)
  edge hn hi := hs.transferred hn (hs.input_family hend hn).1 (hs.edge_family hn hi)

end Underway

/-! ### Solutions stay below -/

/-- No value of the family is above the value that a state has on the same edge. -/
def Above (p : Problem α) (g : Graph) (F : Family α) (s : State α) : Prop :=
  ∀ {n i}, n ∈ g.reachable → i < (p.direction.targets g n).length →
    Below (F.edge n i) ((s.family p).edge n i)

namespace Underway

/-- If the edges of a state are above a solution, so are its inputs. -/
theorem input_above (hs : Underway p g start valid s) (hp : p.Lawful g valid) (hg : g.Linked)
    (hF : Solves p g start F) (hFv : F.Valid p g valid) (hle : Above p g F s)
    (hn : n ∈ g.reachable) : Below (F.input n) (p.inputAt g g.reachable start s n) := by
  have hlt {m i} (he : (m, i) ∈ entering p.direction g n) :
      m ∈ g.reachable ∧ i < (p.direction.targets g m).length :=
    ⟨(mem_entering.mp he).1, (List.getElem?_eq_some_iff.mp (mem_entering.mp he).2).1⟩
  rcases Problem.inputAt_cases p g start n with ⟨v, hv, hat, h⟩ | ⟨hb, -⟩
  · rw [h, hF.boundary hn hv hat]
    exact hp.below_refl (hp.valid_boundary hv)
  · rw [hs.inputAt_eq hp hg hb, hF.inner hn hb]
    refine hp.foldr_below_foldr (fun v hv => ?_) (fun v hv => ?_) fun w hw => ?_
    · obtain ⟨⟨m, i⟩, he, rfl⟩ := List.mem_map.mp hv
      exact hFv.edge (hlt he).1 (hlt he).2
    · obtain ⟨⟨m, i⟩, he, rfl⟩ := List.mem_map.mp hv
      exact hs.valid_edges m (hlt he).1 _
        (List.mem_of_getElem? (hs.edge_family (hlt he).1 (hlt he).2))
    · obtain ⟨⟨m, i⟩, he, rfl⟩ := List.mem_map.mp hw
      exact ⟨F.edge m i, List.mem_map.mpr ⟨(m, i), he, rfl⟩, hle (hlt he).1 (hlt he).2⟩

variable [DecidableEq α]

/-- A visit leaves the edges above every solution. -/
theorem above_of_visits (hs : Underway p g start valid s) (hp : p.Lawful g valid) (hg : g.Linked)
    (hF : Solves p g start F) (hFv : F.Valid p g valid) (hle : Above p g F s)
    (hv : Visits p g start s t) : Above p g F t := by
  obtain ⟨n, hn, rfl⟩ := hv
  have hr := hs.reached hn
  intro m i hm hi
  rw [family_edge, hs.edges_visit hr]
  split
  · next h =>
      subst h
      obtain ⟨v, hv, he⟩ := hs.newEdges_getElem? hp hg hm hi
      rw [he, Option.getD_some]
      exact hp.monotone hm (hFv.input hm) (Problem.valid_inputAt hp hg hs.valid_edges)
        (hs.input_above hp hg hF hFv hle hm) hi (hF.edge hm hi) hv
  · exact hle hm hi

/-- However nodes are visited, the edges stay above every solution. -/
theorem above_of_reflTransGen (hs : Underway p g start valid s) (hp : p.Lawful g valid)
    (hg : g.Linked) (hF : Solves p g start F) (hFv : F.Valid p g valid) (hle : Above p g F s)
    (h : Relation.ReflTransGen (Visits p g start) s t) : Above p g F t := by
  induction h with
  | refl => exact hle
  | tail h hv ih => exact (hs.of_reflTransGen hp hg h).above_of_visits hp hg hF hFv ih hv

omit [DecidableEq α] in
/-- With the top on every edge, the first state is above every family. -/
theorem above_initial (hp : p.Lawful g valid) (hFv : F.Valid p g valid) {queue : List NodeId} :
    Above p g F { p.initial g g.reachable start with pending := queue } := by
  intro n i hn hi
  have htop : (State.family p { p.initial g g.reachable start with pending := queue }).edge n i =
      p.top := by
    rw [family_edge, State.edges, facts?_initial, if_pos hn]
    simp [hi]
  rw [htop]
  exact hp.below_top (hFv.edge hn hi)

end Underway

/-! ### The greatest solution -/

/-- A state in which no node waits is above every solution that its edges are above. -/
theorem Underway.le_family (hs : Underway p g start valid s) (hp : p.Lawful g valid)
    (hg : g.Linked) (hend : s.pending = []) (hF : Solves p g start F) (hFv : F.Valid p g valid)
    (hle : Above p g F s) : F.Le p g (s.family p) where
  input hn := (hs.input_family hend hn).2 ▸ hs.input_above hp hg hF hFv hle hn
  edge hn hi := hle hn hi

/-- Families below each other have the same values at reached nodes. -/
theorem Family.Le.of_records (hp : p.Lawful g valid) (hF : F.Valid p g valid)
    (hG : G.Valid p g valid) (hFG : F.Le p g G) (hGF : G.Le p g F) (hs : Records p g F s) :
    Records p g G s where
  reached {n} hn := by
    have hin : F.input n = G.input n :=
      hp.below_antisymm (hF.input hn) (hG.input hn) (hFG.input hn) (hGF.input hn)
    have hedges : (List.range (p.direction.targets g n).length).map (F.edge n) =
        (List.range (p.direction.targets g n).length).map (G.edge n) := by
      refine List.map_congr_left fun i hi => ?_
      have hi := List.mem_range.mp hi
      exact hp.below_antisymm (hF.edge hn hi) (hG.edge hn hi) (hFG.edge hn hi) (hGF.edge hn hi)
    rw [hs.reached hn, hin, hedges]
  unreached hn := hs.unreached hn

end Flowgraph.Dataflow

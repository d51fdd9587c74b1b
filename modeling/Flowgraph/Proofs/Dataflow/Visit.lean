import Flowgraph.Proofs.Dataflow.Laws
import Mathlib.Data.List.Nodup

/-!
# One visit of the solver

A visit of a node takes in what arrives there, gives the edges of the node their new values and
queues the targets of the edges that changed.  `Underway` is what visits keep: every value that is
stored was transferred from the input that is stored, values only fall, and a node whose input is
out of date waits in the queue.

* `facts?_visit`, `mem_pending_visit`: the state after a visit.
* `Direction.Entry`, `atBoundary_iff`: where values enter from outside.
* `mem_arriving`, `inputAt_congr`, `inputAt_below`: an input is the meet over the entering edges,
  depends on nothing else, and falls with them.
* `Underway.initial`: the state before the first visit, whatever the order of the queue.
* `Underway.edges_visit_below`: a visit lets the edges of a node fall.
* `Underway.visit`: a visit of any waiting node keeps the invariant.
-/

namespace Flowgraph.Dataflow

variable {α : Type}

/-! ### Queues -/

/-- The nodes that wait are those that did and those that are queued. -/
theorem mem_enqueue {queue ns : List NodeId} {m : NodeId} :
    m ∈ enqueue queue ns ↔ m ∈ queue ∨ m ∈ ns := by
  induction ns generalizing queue with
  | nil => simp [enqueue]
  | cons n ns ih =>
      have h := @ih (if n ∈ queue then queue else queue ++ [n])
      rw [enqueue] at h ⊢
      rw [List.foldl_cons, h, List.mem_cons]
      split <;> grind

/-- A queue grows by no more than what is queued. -/
theorem length_enqueue_le (queue ns : List NodeId) :
    (enqueue queue ns).length ≤ queue.length + ns.length := by
  induction ns generalizing queue with
  | nil => simp [enqueue]
  | cons n ns ih =>
      have h := ih (if n ∈ queue then queue else queue ++ [n])
      rw [enqueue] at h ⊢
      rw [List.foldl_cons]
      refine h.trans ?_
      split
      · simp only [List.length_cons]; omega
      · simp only [List.length_append, List.length_cons, List.length_nil]; omega

/-! ### Directions -/

namespace Direction

variable {g : Graph} {m n s : NodeId}

/-- Where values enter from outside: at the start of a forward problem, and at the nodes without
successors of a backward one. -/
def Entry : Direction → Graph → (start n : NodeId) → Prop
  | .forward, _, start, n => n = start
  | .backward, g, _, n => g.succs n = []

/-- Values come from the nodes that have this one as a target. -/
theorem mem_sources (hg : g.Linked) (d : Direction) : m ∈ d.sources g n ↔ n ∈ d.targets g m := by
  cases d with
  | forward => exact hg.mem_preds
  | backward => exact hg.mem_preds.symm

/-- The first visits are those of the nodes that the start leads to, in either direction. -/
theorem mem_order (hg : g.Linked) (d : Direction) (hs : g.start = some s)
    (hl : g.isLive s = true) : n ∈ d.order g s ↔ n ∈ g.reachable := by
  rw [hg.mem_reachable hs hl, ← hg.flow_reaches]
  cases d with
  | forward =>
      rw [order, Digraph.reversePostorder, List.mem_reverse, Digraph.mem_postorder]
      exact and_iff_right hl
  | backward =>
      rw [order, Digraph.mem_postorder]
      exact and_iff_right hl

theorem nodup_order (g : Graph) (s : NodeId) (d : Direction) : (d.order g s).Nodup := by
  cases d with
  | forward => exact List.nodup_reverse.mpr (Digraph.nodup_postorder ..)
  | backward => exact Digraph.nodup_postorder ..

end Direction

/-! ### What arrives at a node -/

namespace Problem

variable [MeetLattice α] {p : Problem α} {g : Graph} {start n : NodeId} {s : State α}

omit [MeetLattice α] in
/-- What arrives are the values on the edges from reached nodes. -/
theorem mem_arriving (hg : g.Linked) {v : α} :
    v ∈ p.arriving g g.reachable s n ↔
      ∃ m ∈ g.reachable, ∃ i : Nat,
        (p.direction.targets g m)[i]? = some n ∧ (s.edges m)[i]? = some v := by
  simp only [arriving, List.mem_flatMap, List.mem_filter, List.contains_iff_mem, List.mem_filterMap,
    Direction.mem_sources hg]
  constructor
  · rintro ⟨m, ⟨-, hm⟩, ⟨t, w⟩, hz, h⟩
    obtain ⟨i, hi⟩ := List.mem_iff_getElem?.mp hz
    obtain ⟨ht, hw⟩ := List.getElem?_zip_eq_some.mp hi
    simp only [Option.ite_none_right_eq_some, Option.some.injEq] at h
    obtain ⟨rfl, rfl⟩ := h
    exact ⟨m, hm, i, ht, hw⟩
  · rintro ⟨m, hm, i, ht, hv⟩
    refine ⟨m, ⟨List.mem_of_getElem? ht, hm⟩, (n, v), ?_, if_pos rfl⟩
    exact List.mem_of_getElem? (List.getElem?_zip_eq_some.mpr ⟨ht, hv⟩)

omit [MeetLattice α] in
/-- The values of those edges that lead to `n`, by their positions. -/
theorem filterMap_zip_eq (targets : List NodeId) (values : List α) :
    ((targets.zip values).filterMap fun (t, v) => if t = n then some v else none) =
      (List.range targets.length).filterMap fun i =>
        if targets[i]? = some n then values[i]? else none := by
  induction targets generalizing values with
  | nil => rfl
  | cons t targets ih =>
      rw [List.length_cons, List.range_succ_eq_map, List.filterMap_cons, List.filterMap_map]
      cases values with
      | nil => simp
      | cons v values =>
          rw [List.zip_cons_cons, List.filterMap_cons, ih values]
          by_cases h : t = n <;> simp [h]

omit [MeetLattice α] in
/-- What arrives, by the positions of the edges in the lists of their sources. -/
theorem arriving_eq_filterMap (p : Problem α) (g : Graph) (s : State α) (n : NodeId) :
    p.arriving g g.reachable s n =
      ((p.direction.sources g n).filter fun m => g.reachable.contains m).flatMap fun m =>
        (List.range (p.direction.targets g m).length).filterMap fun i =>
          if (p.direction.targets g m)[i]? = some n then (s.edges m)[i]? else none := by
  rw [arriving]
  exact List.flatMap_congr fun m _ => filterMap_zip_eq ..

omit [MeetLattice α] in
/-- The test of the solver says where values enter. -/
theorem atBoundary_iff (p : Problem α) (g : Graph) (start n : NodeId) :
    p.atBoundary g start n = true ↔ p.direction.Entry g start n := by
  rw [atBoundary]
  cases p.direction with
  | forward => exact beq_iff_eq
  | backward => exact List.isEmpty_iff

/-- Where values enter the input is given. -/
theorem inputAt_of_boundary {v : α} (hv : p.boundary = some v)
    (hat : p.direction.Entry g start n) : p.inputAt g g.reachable start s n = v := by
  simp only [inputAt, hv, (p.atBoundary_iff g start n).mpr hat]

/-- Everywhere else it is the meet of what arrives. -/
theorem inputAt_of_inner (h : p.boundary = none ∨ ¬p.direction.Entry g start n) :
    p.inputAt g g.reachable start s n = p.meetAll (p.arriving g g.reachable s n) := by
  unfold inputAt
  split
  · next hv hat => simp [hv, (p.atBoundary_iff g start n).mp hat] at h
  · rfl

/-- One of the two, in whatever state. -/
theorem inputAt_cases (p : Problem α) (g : Graph) (start n : NodeId) :
    (∃ v, p.boundary = some v ∧ p.direction.Entry g start n ∧
      ∀ s, p.inputAt g g.reachable start s n = v) ∨
    ((p.boundary = none ∨ ¬p.direction.Entry g start n) ∧
      ∀ s, p.inputAt g g.reachable start s n = p.meetAll (p.arriving g g.reachable s n)) := by
  cases hb : p.boundary with
  | none => exact .inr ⟨.inl rfl, fun _ => inputAt_of_inner (.inl hb)⟩
  | some v =>
      by_cases hat : p.direction.Entry g start n
      · exact .inl ⟨v, rfl, hat, fun _ => inputAt_of_boundary hb hat⟩
      · exact .inr ⟨.inr hat, fun _ => inputAt_of_inner (.inr hat)⟩

/-- The input of a node depends only on the edges that enter it. -/
theorem inputAt_congr {t : State α} (heq : ∀ m ∈ g.reachable, ∀ i : Nat,
      (p.direction.targets g m)[i]? = some n → (s.edges m)[i]? = (t.edges m)[i]?) :
    p.inputAt g g.reachable start s n = p.inputAt g g.reachable start t n := by
  have harriving : p.arriving g g.reachable s n = p.arriving g g.reachable t n := by
    rw [arriving_eq_filterMap, arriving_eq_filterMap]
    refine List.flatMap_congr fun m hm => List.filterMap_congr fun i _ => ?_
    split
    · next hi => exact heq m (List.contains_iff_mem.mp (List.mem_filter.mp hm).2) i hi
    · rfl
  rcases inputAt_cases p g start n with ⟨v, -, -, h⟩ | ⟨-, h⟩
  · rw [h, h]
  · rw [h, h, harriving]

end Problem

namespace MeetLaws

variable [MeetLattice α] {valid : α → Prop} {p : Problem α} {vs : List α}

/-- Under the laws it makes no difference whether the top takes part in a meet. -/
theorem meetAll_eq (h : MeetLaws valid p.top) (hvs : ∀ v ∈ vs, valid v) :
    p.meetAll vs = vs.foldr meet p.top := by
  cases vs with
  | nil => rfl
  | cons v vs =>
      exact h.foldl_eq_foldr (hvs v List.mem_cons_self) fun x hx =>
        hvs x (List.mem_cons_of_mem _ hx)

end MeetLaws

namespace Problem

variable [MeetLattice α] {valid : α → Prop} {p : Problem α} {g : Graph}
  {start m n : NodeId} {s t : State α}

/-- All values that reached nodes hold on their edges are valid. -/
def ValidEdges (g : Graph) (valid : α → Prop) (s : State α) : Prop :=
  ∀ n ∈ g.reachable, ∀ v ∈ s.edges n, valid v

omit [MeetLattice α] in
/-- Values that arrive are valid if those on the edges are. -/
theorem valid_arriving (hg : g.Linked) (hs : ValidEdges g valid s) :
    ∀ v ∈ p.arriving g g.reachable s n, valid v := by
  intro v hv
  obtain ⟨m, hm, i, -, hi⟩ := (mem_arriving hg).mp hv
  exact hs m hm v (List.mem_of_getElem? hi)

/-- So is the input of a node. -/
theorem valid_inputAt (hp : p.Lawful g valid) (hg : g.Linked) (hs : ValidEdges g valid s) :
    valid (p.inputAt g g.reachable start s n) := by
  have harr := valid_arriving (p := p) (n := n) hg hs
  rcases inputAt_cases p g start n with ⟨v, hb, -, h⟩ | ⟨-, h⟩
  · rw [h]; exact hp.valid_boundary hb
  · rw [h, hp.meetAll_eq harr]; exact hp.valid_foldr harr

/-- The input of a node falls with the edges that enter it. -/
theorem inputAt_below (hp : p.Lawful g valid) (hg : g.Linked) (hs : ValidEdges g valid s)
    (ht : ValidEdges g valid t)
    (hfall : ∀ m ∈ g.reachable, ∀ (i : Nat) (w : α), (p.direction.targets g m)[i]? = some n →
      (t.edges m)[i]? = some w → ∃ v, (s.edges m)[i]? = some v ∧ Below v w) :
    Below (p.inputAt g g.reachable start s n) (p.inputAt g g.reachable start t n) := by
  have hvs := valid_arriving (p := p) (n := n) hg hs
  have hvt := valid_arriving (p := p) (n := n) hg ht
  rcases inputAt_cases p g start n with ⟨v, hb, -, h⟩ | ⟨-, h⟩
  · rw [h, h]; exact hp.below_refl (hp.valid_boundary hb)
  · rw [h, h, hp.meetAll_eq hvs, hp.meetAll_eq hvt]
    refine hp.foldr_below_foldr hvs hvt fun w hw => ?_
    obtain ⟨m, hm, i, hi, hwi⟩ := (mem_arriving hg).mp hw
    obtain ⟨v, hv, hb⟩ := hfall m hm i w hi hwi
    exact ⟨v, (mem_arriving hg).mpr ⟨m, hm, i, hi, hv⟩, hb⟩

end Problem

/-! ### What a visit changes -/

namespace Problem

variable [MeetLattice α] {p : Problem α} {g : Graph} {start m n : NodeId} {s : State α}

/-- The values that a visit of `n` gives to its edges. -/
def newEdges (p : Problem α) (g : Graph) (start : NodeId) (s : State α) (n : NodeId) : List α :=
  (s.edges n).mapIdx (edgeValue (p.transfer n (p.inputAt g g.reachable start s n)))

variable [DecidableEq α]

/-- The reached targets of the edges whose values differ. -/
def stale (reached targets : List NodeId) (old new : List α) : List NodeId :=
  (targets.zip (old.zip new)).filterMap fun (t, v, w) =>
    if v ≠ w ∧ t ∈ reached then some t else none

omit [MeetLattice α] in
/-- A target is queued if the value of some edge to it has changed. -/
theorem mem_stale {reached targets : List NodeId} {old new : List α} :
    m ∈ stale reached targets old new ↔ m ∈ reached ∧ ∃ (i : Nat) (v w : α), targets[i]? = some m ∧
      old[i]? = some v ∧ new[i]? = some w ∧ v ≠ w := by
  simp only [stale, List.mem_filterMap]
  constructor
  · rintro ⟨⟨t, v, w⟩, hz, h⟩
    obtain ⟨i, hi⟩ := List.mem_iff_getElem?.mp hz
    obtain ⟨ht, hvw⟩ := List.getElem?_zip_eq_some.mp hi
    obtain ⟨hv, hw⟩ := List.getElem?_zip_eq_some.mp hvw
    simp only [Option.ite_none_right_eq_some, Option.some.injEq] at h
    obtain ⟨⟨hne, hr⟩, rfl⟩ := h
    exact ⟨hr, i, v, w, ht, hv, hw, hne⟩
  · rintro ⟨hr, i, v, w, ht, hv, hw, hne⟩
    refine ⟨(m, v, w), List.mem_of_getElem? (i := i) ?_, if_pos ⟨hne, hr⟩⟩
    exact List.getElem?_zip_eq_some.mpr ⟨ht, List.getElem?_zip_eq_some.mpr ⟨hv, hw⟩⟩

variable {rest : List NodeId}

/-- A visit stores facts of its node alone. -/
theorem facts?_visit (hn : n < s.facts.size) :
    (p.visit g g.reachable start n { s with pending := rest }).facts? m =
      if m = n then
        ⟨some (p.inputAt g g.reachable start s n),
          (p.transfer n (p.inputAt g g.reachable start s n)).head?, p.newEdges g start s n⟩
      else s.facts? m := by
  have hset : (p.visit g g.reachable start n { s with pending := rest }).facts =
      s.facts.setIfInBounds n ⟨some (p.inputAt g g.reachable start s n),
        (p.transfer n (p.inputAt g g.reachable start s n)).head?, p.newEdges g start s n⟩ := rfl
  rw [State.facts?, hset, Array.getElem?_setIfInBounds]
  by_cases h : m = n
  · subst h
    simp [hn]
  · rw [if_neg h, if_neg (Ne.symm h), State.facts?]

theorem size_facts_visit :
    (p.visit g g.reachable start n { s with pending := rest }).facts.size = s.facts.size := by
  simp [visit]

/-- After a visit wait those that did and the targets of edges that changed. -/
theorem mem_pending_visit :
    m ∈ (p.visit g g.reachable start n { s with pending := rest }).pending ↔
      m ∈ rest ∨
        m ∈ stale g.reachable (p.direction.targets g n) (s.edges n) (p.newEdges g start s n) :=
  mem_enqueue

end Problem

/-! ### What visits keep -/

section Underway

open Flowgraph.Graph

variable [MeetLattice α] {p : Problem α} {g : Graph} {start n : NodeId} {valid : α → Prop}
  {s : State α}

/-- A state on the way to the solution. -/
structure Underway (p : Problem α) (g : Graph) (start : NodeId) (valid : α → Prop)
    (s : State α) : Prop where
  size : s.facts.size = g.bound
  unreached : ∀ {n}, n ∉ g.reachable → s.facts? n = .unreached
  length_edges : ∀ {n}, n ∈ g.reachable → (s.edges n).length = (p.direction.targets g n).length
  valid_edges : Problem.ValidEdges g valid s
  valid_input : ∀ {n v}, s.input n = some v → valid v
  reached : ∀ {n}, n ∈ s.pending → n ∈ g.reachable
  /-- A node that does not wait has the input that it would have now. -/
  waiting : ∀ {n}, n ∈ g.reachable → n ∈ s.pending ∨
    s.input n = some (p.inputAt g g.reachable start s n)
  output_eq : ∀ {n v}, s.input n = some v → s.output n = (p.transfer n v).head?
  transferred : ∀ {n v i w}, n ∈ g.reachable → s.input n = some v → (s.edges n)[i]? = some w →
    valueAt (p.transfer n v) i = some w
  unvisited : ∀ {n v}, n ∈ g.reachable → s.input n = none → v ∈ s.edges n → v = p.top
  /-- Inputs only fall. -/
  falling : ∀ {n v}, n ∈ g.reachable → s.input n = some v →
    Below (p.inputAt g g.reachable start s n) v

namespace Underway

/-- A visit gives every edge the value that is transferred to it. -/
theorem newEdges_getElem? (hs : Underway p g start valid s) (hp : p.Lawful g valid)
    (hg : g.Linked) (hn : n ∈ g.reachable) {i : Nat} (hi : i < (p.direction.targets g n).length) :
    ∃ v, valueAt (p.transfer n (p.inputAt g g.reachable start s n)) i = some v ∧
      (p.newEdges g start s n)[i]? = some v := by
  have hin : valid (p.inputAt g g.reachable start s n) :=
    Problem.valid_inputAt hp hg hs.valid_edges
  obtain ⟨v, hv⟩ := exists_valueAt hi (hp.arity hn hin)
  have hold : i < (s.edges n).length := hs.length_edges hn ▸ hi
  refine ⟨v, hv, ?_⟩
  rw [Problem.newEdges, List.getElem?_mapIdx, List.getElem?_eq_getElem hold, Option.map_some,
    edgeValue_eq, hv, Option.getD_some]

theorem length_newEdges (hs : Underway p g start valid s) (hn : n ∈ g.reachable) :
    (p.newEdges g start s n).length = (p.direction.targets g n).length := by
  rw [Problem.newEdges, List.length_mapIdx, hs.length_edges hn]

/-- The values that a visit gives the edges are valid. -/
theorem valid_newEdges (hs : Underway p g start valid s) (hp : p.Lawful g valid)
    (hg : g.Linked) (hn : n ∈ g.reachable) : ∀ v ∈ p.newEdges g start s n, valid v := by
  intro v hv
  obtain ⟨i, hi, rfl⟩ := List.getElem_of_mem hv
  obtain ⟨w, hw, he⟩ := hs.newEdges_getElem? hp hg hn (hs.length_newEdges hn ▸ hi)
  rw [List.getElem?_eq_getElem hi, Option.some.injEq] at he
  have hin : valid (p.inputAt g g.reachable start s n) :=
    Problem.valid_inputAt hp hg hs.valid_edges
  exact he ▸ hp.valid_transfer hn hin (mem_of_valueAt hw)

/-- A visit lets the edges of the node fall. -/
theorem newEdges_below (hs : Underway p g start valid s) (hp : p.Lawful g valid) (hg : g.Linked)
    (hn : n ∈ g.reachable) {i : Nat} {w : α} (hw : (s.edges n)[i]? = some w) :
    ∃ v, (p.newEdges g start s n)[i]? = some v ∧ Below v w := by
  have hi : i < (p.direction.targets g n).length :=
    hs.length_edges hn ▸ (List.getElem?_eq_some_iff.mp hw).1
  have hin : valid (p.inputAt g g.reachable start s n) :=
    Problem.valid_inputAt hp hg hs.valid_edges
  obtain ⟨v, hv, he⟩ := hs.newEdges_getElem? hp hg hn hi
  refine ⟨v, he, ?_⟩
  cases hold : s.input n with
  | none =>
      rw [hs.unvisited hn hold (List.mem_of_getElem? hw)]
      exact hp.below_top (hp.valid_transfer hn hin (mem_of_valueAt hv))
  | some u =>
      exact hp.monotone hn hin (hs.valid_input hold) (hs.falling hn hold) hi hv
        (hs.transferred hn hold hw)

variable [DecidableEq α] {rest : List NodeId}

theorem facts?_visit (hs : Underway p g start valid s) (hn : n ∈ g.reachable) (m : NodeId) :
    (p.visit g g.reachable start n { s with pending := rest }).facts? m =
      if m = n then
        ⟨some (p.inputAt g g.reachable start s n),
          (p.transfer n (p.inputAt g g.reachable start s n)).head?, p.newEdges g start s n⟩
      else s.facts? m :=
  Problem.facts?_visit (hs.size ▸ lt_bound_of_isLive (isLive_of_mem_reachable hn))

theorem edges_visit (hs : Underway p g start valid s) (hn : n ∈ g.reachable) (m : NodeId) :
    (p.visit g g.reachable start n { s with pending := rest }).edges m =
      if m = n then p.newEdges g start s n else s.edges m := by
  rw [State.edges, hs.facts?_visit hn]
  split <;> rfl

theorem input_visit (hs : Underway p g start valid s) (hn : n ∈ g.reachable) (m : NodeId) :
    (p.visit g g.reachable start n { s with pending := rest }).input m =
      if m = n then some (p.inputAt g g.reachable start s n) else s.input m := by
  rw [State.input, hs.facts?_visit hn]
  split <;> rfl

theorem output_visit (hs : Underway p g start valid s) (hn : n ∈ g.reachable) (m : NodeId) :
    (p.visit g g.reachable start n { s with pending := rest }).output m =
      if m = n then (p.transfer n (p.inputAt g g.reachable start s n)).head? else s.output m := by
  rw [State.output, hs.facts?_visit hn]
  split <;> rfl

/-- A visit lets all edges fall. -/
theorem edges_visit_below (hs : Underway p g start valid s) (hp : p.Lawful g valid)
    (hg : g.Linked) (hn : n ∈ g.reachable) {m : NodeId} (hm : m ∈ g.reachable) {i : Nat} {w : α}
    (hw : (s.edges m)[i]? = some w) :
    ∃ v, ((p.visit g g.reachable start n { s with pending := rest }).edges m)[i]? = some v ∧
      Below v w := by
  rw [hs.edges_visit hn]
  by_cases h : m = n
  · subst h
    rw [if_pos rfl]
    exact hs.newEdges_below hp hg hn hw
  · rw [if_neg h]
    exact ⟨w, hw, hp.below_refl (hs.valid_edges m hm w (List.mem_of_getElem? hw))⟩

/-- All values on edges stay valid. -/
theorem valid_edges_visit (hs : Underway p g start valid s) (hp : p.Lawful g valid)
    (hg : g.Linked) (hn : n ∈ g.reachable) :
    Problem.ValidEdges g valid (p.visit g g.reachable start n { s with pending := rest }) := by
  intro m hm v hv
  rw [hs.edges_visit hn] at hv
  split at hv
  · exact hs.valid_newEdges hp hg hn v hv
  · exact hs.valid_edges m hm v hv

/-- A node that does not wait after a visit has the same values arriving as before. -/
theorem inputAt_visit_of_not_pending (hs : Underway p g start valid s) (hp : p.Lawful g valid)
    (hg : g.Linked) (hn : n ∈ g.reachable) {m : NodeId} (hm : m ∈ g.reachable)
    (hpend : m ∉ (p.visit g g.reachable start n { s with pending := rest }).pending) :
    p.inputAt g g.reachable start (p.visit g g.reachable start n { s with pending := rest }) m =
      p.inputAt g g.reachable start s m := by
  refine Problem.inputAt_congr fun k hk i hi => ?_
  rw [hs.edges_visit hn]
  split
  · next h =>
      subst h
      have hlen : i < (p.direction.targets g k).length := (List.getElem?_eq_some_iff.mp hi).1
      obtain ⟨v, -, hv⟩ := hs.newEdges_getElem? hp hg hn hlen
      obtain ⟨w, hw⟩ : ∃ w, (s.edges k)[i]? = some w :=
        ⟨_, List.getElem?_eq_getElem (hs.length_edges hn ▸ hlen)⟩
      -- had the edge changed, its target would wait
      rw [Problem.mem_pending_visit, Problem.mem_stale] at hpend
      by_contra hne
      rw [hv, hw, Option.some.injEq] at hne
      exact hpend (.inr ⟨hm, i, w, v, hi, hw, hv, Ne.symm hne⟩)
  · rfl

/-- A visit lets all inputs fall. -/
theorem inputAt_visit_below (hs : Underway p g start valid s) (hp : p.Lawful g valid)
    (hg : g.Linked) (hn : n ∈ g.reachable) (rest : List NodeId) (m : NodeId) :
    Below (p.inputAt g g.reachable start
      (p.visit g g.reachable start n { s with pending := rest }) m)
      (p.inputAt g g.reachable start s m) :=
  Problem.inputAt_below hp hg (hs.valid_edges_visit hp hg hn) hs.valid_edges
    fun _ hk _ _ _ hw => hs.edges_visit_below hp hg hn hk hw

/-- After a visit too, a node that does not wait has the input that it would have now. -/
theorem waiting_visit (hs : Underway p g start valid s) (hp : p.Lawful g valid) (hg : g.Linked)
    (hn : n ∈ g.reachable) (hkeep : ∀ m ∈ s.pending, m ≠ n → m ∈ rest) {m : NodeId}
    (hm : m ∈ g.reachable) :
    m ∈ (p.visit g g.reachable start n { s with pending := rest }).pending ∨
      (p.visit g g.reachable start n { s with pending := rest }).input m =
        some (p.inputAt g g.reachable start
          (p.visit g g.reachable start n { s with pending := rest }) m) := by
  by_cases hpend : m ∈ (p.visit g g.reachable start n { s with pending := rest }).pending
  · exact .inl hpend
  · rw [hs.inputAt_visit_of_not_pending hp hg hn hm hpend, hs.input_visit hn]
    split
    · next h => subst h; exact .inr rfl
    · next h =>
        refine .inr ((hs.waiting hm).resolve_left fun hmem => hpend ?_)
        exact Problem.mem_pending_visit.mpr (.inl (hkeep m hmem h))

/-- After a visit too, the edges of a node have the values transferred to them. -/
theorem transferred_visit (hs : Underway p g start valid s) (hp : p.Lawful g valid)
    (hg : g.Linked) (hn : n ∈ g.reachable) {m : NodeId} {v w : α} {i : Nat} (hm : m ∈ g.reachable)
    (hv : (p.visit g g.reachable start n { s with pending := rest }).input m = some v)
    (hw : ((p.visit g g.reachable start n { s with pending := rest }).edges m)[i]? = some w) :
    valueAt (p.transfer m v) i = some w := by
  rw [hs.input_visit hn] at hv
  rw [hs.edges_visit hn] at hw
  split at hv
  · next h =>
      subst h
      rw [if_pos rfl] at hw
      have hlen := (List.getElem?_eq_some_iff.mp hw).1
      obtain ⟨u, hu, he⟩ := hs.newEdges_getElem? hp hg hm (hs.length_newEdges hm ▸ hlen)
      rw [← Option.some.inj hv, hu, ← he, hw]
  · next h => rw [if_neg h] at hw; exact hs.transferred hm hv hw

/-- A visit keeps the invariant, if no other node leaves the queue. -/
theorem visit (hs : Underway p g start valid s) (hp : p.Lawful g valid) (hg : g.Linked)
    (hn : n ∈ g.reachable) (hrest : ∀ m ∈ rest, m ∈ g.reachable)
    (hkeep : ∀ m ∈ s.pending, m ≠ n → m ∈ rest) :
    Underway p g start valid (p.visit g g.reachable start n { s with pending := rest }) where
  size := Problem.size_facts_visit.trans hs.size
  unreached {m} hm := by
    rw [hs.facts?_visit hn, if_neg fun e : m = n => hm (e ▸ hn)]
    exact hs.unreached hm
  length_edges {m} hm := by
    rw [hs.edges_visit hn]
    split
    · next h => subst h; exact hs.length_newEdges hn
    · exact hs.length_edges hm
  valid_edges := hs.valid_edges_visit hp hg hn
  valid_input {m v} hv := by
    rw [hs.input_visit hn] at hv
    split at hv
    · exact Option.some.inj hv ▸ Problem.valid_inputAt hp hg hs.valid_edges
    · exact hs.valid_input hv
  reached {m} hm := by
    rw [Problem.mem_pending_visit, Problem.mem_stale] at hm
    exact hm.elim (hrest m) And.left
  waiting hm := hs.waiting_visit hp hg hn hkeep hm
  output_eq {m v} hv := by
    rw [hs.input_visit hn] at hv
    rw [hs.output_visit hn]
    split at hv
    · next h => subst h; rw [if_pos rfl, Option.some.inj hv]
    · next h => rw [if_neg h]; exact hs.output_eq hv
  transferred hm hv hw := hs.transferred_visit hp hg hn hm hv hw
  unvisited {m v} hm hv hmem := by
    rw [hs.input_visit hn] at hv
    rw [hs.edges_visit hn] at hmem
    split at hv
    · cases hv
    · next h => rw [if_neg h] at hmem; exact hs.unvisited hm hv hmem
  falling {m v} hm hv := by
    have hfall := hs.inputAt_visit_below hp hg hn rest m
    rw [hs.input_visit hn] at hv
    split at hv
    · next h => subst h; exact Option.some.inj hv ▸ hfall
    · exact hp.below_trans (Problem.valid_inputAt hp hg (hs.valid_edges_visit hp hg hn))
        (Problem.valid_inputAt hp hg hs.valid_edges) (hs.valid_input hv) hfall (hs.falling hm hv)

omit [MeetLattice α] [DecidableEq α] in
theorem facts?_initial (p : Problem α) (g : Graph) (start m : NodeId) (queue : List NodeId) :
    State.facts? { p.initial g g.reachable start with pending := queue } m =
      if m ∈ g.reachable then ⟨none, none, (p.direction.targets g m).map fun _ => p.top⟩
      else .unreached := by
  simp only [State.facts?, Problem.initial, List.getElem?_toArray, List.getElem?_map]
  rcases Nat.lt_or_ge m g.bound with hm | hm
  · rw [List.getElem?_range hm]
    rfl
  · have hr : m ∉ g.reachable := fun h =>
      absurd (lt_bound_of_isLive (isLive_of_mem_reachable h)) (Nat.not_lt.mpr hm)
    rw [List.getElem?_eq_none (by simpa using hm), if_neg hr]
    rfl

omit [DecidableEq α] in
/-- Before the first visit every node waits, in any order. -/
theorem initial (hp : p.Lawful g valid) {queue : List NodeId}
    (hq : ∀ m, m ∈ queue ↔ m ∈ g.reachable) :
    Underway p g start valid { p.initial g g.reachable start with pending := queue } := by
  have hinput : ∀ m,
      State.input { p.initial g g.reachable start with pending := queue } m = none := by
    intro m
    rw [State.input, facts?_initial]
    split <;> rfl
  have hedges : ∀ m ∈ g.reachable,
      State.edges { p.initial g g.reachable start with pending := queue } m =
        (p.direction.targets g m).map fun _ => p.top := by
    intro m hm
    rw [State.edges, facts?_initial, if_pos hm]
  have htop : ∀ m ∈ g.reachable,
      ∀ v ∈ State.edges { p.initial g g.reachable start with pending := queue } m, v = p.top := by
    intro m hm v hv
    rw [hedges m hm] at hv
    obtain ⟨_, -, rfl⟩ := List.mem_map.mp hv
    rfl
  exact
    { size := by simp [Problem.initial]
      unreached := fun {m} hm => by rw [facts?_initial, if_neg hm]
      length_edges := fun {m} hm => by rw [hedges m hm, List.length_map]
      valid_edges := fun m hm v hv => htop m hm v hv ▸ hp.valid_top
      valid_input := fun {m v} hv => by rw [hinput] at hv; cases hv
      reached := fun {m} hm => (hq m).mp hm
      waiting := fun {m} hm => .inl ((hq m).mpr hm)
      output_eq := fun {m v} hv => by rw [hinput] at hv; cases hv
      transferred := fun {m v i w} _ hv => by rw [hinput] at hv; cases hv
      unvisited := fun {m v} hm _ hv => htop m hm v hv
      falling := fun {m v} _ hv => by rw [hinput] at hv; cases hv }

end Underway

end Underway

end Flowgraph.Dataflow

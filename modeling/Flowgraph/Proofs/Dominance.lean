import Flowgraph.Dominators
import Flowgraph.Proofs.Dataflow.Greatest
import Flowgraph.Proofs.Paths

/-!
# What dominators compute

The dominator problem of a graph is lawful on the sets of its nodes.  Dominance, said over all paths
from the start, satisfies the equations of the problem; every solution says no more than dominance,
by induction along a path; so the greatest solution is dominance.

* `Graph.Dominates`: on every path from the start to a node.
* `dominates_iff_of_ne_start`: a node is dominated by itself and by what dominates all its
  predecessors.
* `dominatorProblem_lawful`, `NodeSet.ranks`: the laws, and how far a set can fall.
* `Dominators.compute_spec`: what is computed, for every node.
* `Dominators.correct_of_compute`: so the computed dominators are correct.
* `dominators_exact`: the same on built graphs, with the paths written out.
-/

namespace Flowgraph

open Dataflow Flowgraph.Graph

/-! ### Dominance -/

namespace Graph

variable {g : Graph} {start a b c n : NodeId}

/-- The start leads to `b`, and on no path around `a`. -/
def Dominates (g : Graph) (start a b : NodeId) : Prop :=
  g.Reaches start b ∧ ∀ ns, g.Path start b ns → a ∈ ns

theorem dominates_self (h : g.Reaches start b) : g.Dominates start b b :=
  ⟨h, fun _ hns => hns.right_mem⟩

/-- Nothing but itself dominates the start. -/
theorem dominates_start_iff : g.Dominates start a start ↔ a = start := by
  refine ⟨fun h => List.mem_singleton.mp (h.2 _ (.single start)), fun h => ?_⟩
  exact h ▸ dominates_self .refl

/-- What dominates another node dominates its predecessors. -/
theorem Dominates.of_succ (h : g.Dominates start a b) (hne : a ≠ b) (hn : g.Reaches start n)
    (hb : b ∈ g.succs n) : g.Dominates start a n := by
  refine ⟨hn, fun ns hns => ?_⟩
  rcases List.mem_append.mp (h.2 _ (hns.snoc hb)) with ha | ha
  · exact ha
  · exact absurd (List.mem_singleton.mp ha) hne

/-- Every node but the start is dominated by itself and by what dominates all its predecessors. -/
theorem dominates_iff_of_ne_start (hb : g.Reaches start b) (hne : b ≠ start) :
    g.Dominates start a b ↔
      a = b ∨ ∀ n, g.Reaches start n → b ∈ g.succs n → g.Dominates start a n := by
  constructor
  · intro h
    by_cases he : a = b
    · exact .inl he
    · exact .inr fun n hn hs => h.of_succ he hn hs
  · rintro (rfl | h)
    · exact dominates_self hb
    · refine ⟨hb, fun ns hns => ?_⟩
      rcases hns.snoc_cases with ⟨he, -⟩ | ⟨n, ms, rfl, hms, hs⟩
      · exact absurd he.symm hne
      · exact List.mem_append_left _ ((h n hms.reaches hs).2 ms hms)

/-- What dominates a node is on the way to it, so the start leads there. -/
theorem Dominates.reaches_left (h : g.Dominates start a b) : g.Reaches start a := by
  obtain ⟨ns, hns⟩ := exists_path h.1
  have ha := h.2 ns hns
  clear h
  induction hns with
  | single => rw [List.mem_singleton.mp ha]; exact .refl
  | cons hs _ ih =>
      rcases List.mem_cons.mp ha with rfl | ha
      · exact .refl
      · exact .head hs (ih ha)

end Graph

/-! ### Sets of nodes -/

namespace NodeSet

variable {capacity : Nat} {s t : NodeSet} {vs : List NodeSet}

/-- The set fits this many nodes. -/
def Fits (capacity : Nat) (s : NodeSet) : Prop := s.bits.Fits capacity

theorem fits_empty (capacity : Nat) : (NodeSet.empty capacity).Fits capacity :=
  BitSet.fits_empty capacity

theorem not_bit_empty (capacity i : Nat) : ¬(NodeSet.empty capacity).bits.bit i = true := fun h =>
  Bool.false_ne_true ((BitSet.bit_empty capacity i).symm.trans h)

theorem Fits.insert (hs : s.Fits capacity) (n : NodeId) : (s.insert n).Fits capacity :=
  BitSet.Fits.insert hs n

/-- Sets of one capacity with the same bits are equal. -/
theorem Fits.ext (hs : s.Fits capacity) (ht : t.Fits capacity)
    (h : ∀ i, s.bits.bit i = true ↔ t.bits.bit i = true) : s = t :=
  congrArg NodeSet.mk (BitSet.Fits.ext hs ht fun i => Bool.eq_iff_iff.mpr (h i))

theorem bit_insert {n i : NodeId} (hs : s.Fits capacity) (hn : n < capacity) :
    (s.insert n).bits.bit i = true ↔ i = n ∨ s.bits.bit i = true := by
  rw [insert, BitSet.bit_insert hs hn, Bool.or_eq_true, decide_eq_true_eq, or_comm, eq_comm]

/-- The order on sets of nodes is inclusion. -/
theorem below_iff (hs : s.Fits capacity) (ht : t.Fits capacity) :
    Below s t ↔ ∀ i, s.bits.bit i = true → t.bits.bit i = true := by
  rw [← BitSet.inter_eq_left_iff hs ht, Below]
  exact ⟨congrArg NodeSet.bits, congrArg NodeSet.mk⟩

theorem insert_mono (hs : s.Fits capacity) (ht : t.Fits capacity) (h : Below s t) (n : NodeId) :
    Below (s.insert n) (t.insert n) := by
  by_cases hn : n < capacity
  · refine (below_iff (hs.insert n) (ht.insert n)).mpr fun i hi => ?_
    exact (bit_insert ht hn).mpr (((bit_insert hs hn).mp hi).imp id ((below_iff hs ht).mp h i))
  · rwa [insert, insert, BitSet.insert, BitSet.insert, if_neg (hs.capacity_eq ▸ hn),
      if_neg (ht.capacity_eq ▸ hn)]

/-- Intersection makes a semilattice with the full set on top. -/
theorem meetLaws (capacity : Nat) : MeetLaws (Fits capacity) (NodeSet.full capacity) where
  valid_top := BitSet.fits_full capacity
  valid_meet ha hb := BitSet.Fits.inter ha hb
  assoc ha hb hc := congrArg NodeSet.mk (BitSet.inter_assoc ha hb hc)
  comm ha hb := congrArg NodeSet.mk (BitSet.inter_comm ha hb)
  idem ha := congrArg NodeSet.mk (BitSet.inter_self ha)
  top_meet ha := congrArg NodeSet.mk (BitSet.full_inter ha)

/-- A meet has the nodes that are in all its parts. -/
theorem bit_foldr (hvs : ∀ v ∈ vs, v.Fits capacity) (i : Nat) :
    (vs.foldr meet (NodeSet.full capacity)).bits.bit i = true ↔
      i < capacity ∧ ∀ v ∈ vs, v.bits.bit i = true := by
  induction vs with
  | nil => simp [NodeSet.full, BitSet.bit_full]
  | cons v vs ih =>
      have hrest : ∀ x ∈ vs, x.Fits capacity := fun x hx => hvs x (List.mem_cons_of_mem _ hx)
      have hmeet : ((v :: vs).foldr meet (NodeSet.full capacity)).bits =
          v.bits.inter (vs.foldr meet (NodeSet.full capacity)).bits := rfl
      rw [hmeet, BitSet.bit_inter (hvs v List.mem_cons_self)
        ((meetLaws capacity).valid_foldr hrest), Bool.and_eq_true, ih hrest, List.forall_mem_cons]
      exact and_left_comm

/-- The nodes of a set. -/
def members (capacity : Nat) (s : NodeSet) : Finset Nat :=
  (Finset.range capacity).filter fun i => s.bits.bit i = true

/-- A set that falls loses a node. -/
theorem ranks (capacity : Nat) : Ranks (Fits capacity) fun s => (members capacity s).card := by
  intro a b ha hb hab hne
  have hsub := (below_iff ha hb).mp hab
  refine Finset.card_lt_card
    ⟨fun i hi => ?_, fun h => hne (ha.ext hb fun i => ⟨hsub i, fun hi => ?_⟩)⟩
  · rw [members, Finset.mem_filter] at hi ⊢
    exact ⟨hi.1, hsub i hi.2⟩
  · have : i ∈ members capacity a :=
      h (Finset.mem_filter.mpr ⟨Finset.mem_range.mpr (hb.lt_capacity hi), hi⟩)
    rw [members, Finset.mem_filter] at this
    exact this.2

theorem card_members_le (capacity : Nat) (s : NodeSet) : (members capacity s).card ≤ capacity :=
  (Finset.card_filter_le _ _).trans (Finset.card_range capacity).le

end NodeSet

/-! ### The dominator problem -/

variable {g : Graph} {start a b n : NodeId}

theorem lt_bound_of_reachable (hn : n ∈ g.reachable) : n < g.bound :=
  lt_bound_of_isLive (isLive_of_mem_reachable hn)

/-- The dominator problem is lawful on sets of the right capacity. -/
theorem dominatorProblem_lawful (g : Graph) :
    (dominatorProblem g).Lawful g (NodeSet.Fits g.bound) where
  toMeetLaws := NodeSet.meetLaws g.bound
  valid_boundary h := by
    rw [← Option.some.inj h]
    exact BitSet.fits_empty g.bound
  valid_transfer _ ha h := by
    rw [List.mem_singleton.mp h]
    exact ha.insert _
  arity _ _ := .inl rfl
  monotone {n a b i v w} _ ha hb hab _ hv hw := by
    rw [← Option.some.inj hv, ← Option.some.inj hw]
    exact NodeSet.insert_mono ha hb hab n

/-- The edges that enter a node forwards come from its predecessors. -/
theorem exists_entering_iff {m : NodeId} :
    (∃ i, (m, i) ∈ entering .forward g n) ↔ m ∈ g.reachable ∧ n ∈ g.succs m := by
  simp only [mem_entering, exists_and_left]
  exact and_congr_right fun _ => List.mem_iff_getElem?.symm

/-- A meet over the edges that enter a node, each with the set of its source. -/
theorem bit_meet_entering {edge : NodeId → Nat → NodeSet} (value : NodeId → NodeSet)
    (hvalue : ∀ m ∈ g.reachable, (value m).Fits g.bound)
    (hedge : ∀ {m i}, (m, i) ∈ entering .forward g n → edge m i = value m) :
    (((entering .forward g n).map fun e => edge e.1 e.2).foldr meet
        (NodeSet.full g.bound)).bits.bit a = true ↔
      a < g.bound ∧ ∀ m ∈ g.reachable, n ∈ g.succs m → (value m).bits.bit a = true := by
  have hfits : ∀ v ∈ (entering .forward g n).map fun e => edge e.1 e.2, v.Fits g.bound := by
    intro v hv
    obtain ⟨m, i, he, rfl⟩ := (mem_map_entering hedge).mp hv
    exact hvalue m (mem_entering.mp he).1
  rw [NodeSet.bit_foldr hfits]
  refine and_congr_right fun _ => ⟨fun h m hm hs => ?_, fun h v hv => ?_⟩
  · obtain ⟨i, hi⟩ := exists_entering_iff.mpr ⟨hm, hs⟩
    exact h _ ((mem_map_entering hedge).mpr ⟨m, i, hi, rfl⟩)
  · obtain ⟨m, i, hi, rfl⟩ := (mem_map_entering hedge).mp hv
    obtain ⟨hm, hs⟩ := exists_entering_iff.mp ⟨i, hi⟩
    exact h m hm hs

/-! ### A solution says no more than dominance -/

section Solution

variable (hg : g.WellFormed) (hs : g.start = some start) {F : Family NodeSet}
  (hF : Solves (dominatorProblem g) g start F)
  (hval : F.Valid (dominatorProblem g) g (NodeSet.Fits g.bound))

include hF in
theorem input_start (hs : start ∈ g.reachable) : F.input start = .empty g.bound :=
  hF.boundary hs rfl rfl

include hF in
/-- On every edge of a solution lies the input of its source, with the source. -/
theorem edge_eq_insert {m : NodeId} {i : Nat} (he : (m, i) ∈ entering .forward g n) :
    F.edge m i = (F.input m).insert m := by
  obtain ⟨hm, hi⟩ := mem_entering.mp he
  exact (Option.some.inj (hF.edge hm (List.getElem?_eq_some_iff.mp hi).1)).symm

include hF hval in
/-- What a solution says of a node other than the start it says of all its predecessors. -/
theorem bit_insert_of_input {m : NodeId} (hn : n ∈ g.reachable) (hne : n ≠ start)
    (hm : m ∈ g.reachable) (hsucc : n ∈ g.succs m) (h : (F.input n).bits.bit a = true) :
    ((F.input m).insert m).bits.bit a = true := by
  rw [hF.inner hn (.inr hne)] at h
  exact ((bit_meet_entering _ (fun m hm => (hval.input hm).insert m)
    (edge_eq_insert hF)).mp h).2 m hm hsucc

include hg hs hF hval in
/-- Along a path, what a solution does not say of the first node and does not meet on the way it
does not say of the last. -/
theorem not_bit_of_path {m : NodeId} {ns : List NodeId} (hns : g.Path m b ns)
    (hm : m ∈ g.reachable) (ha : a ∉ ns) (hbit : ¬((F.input m).insert m).bits.bit a = true) :
    ¬((F.input b).insert b).bits.bit a = true := by
  induction hns with
  | single => exact hbit
  | @cons m k b ns hk hns ih =>
      have ha := List.not_mem_of_not_mem_cons ha
      have hkr := hg.mem_reachable_of_succ hs hm hk
      obtain ⟨ks, rfl⟩ := hns.exists_eq_cons
      have hak : a ≠ k := List.ne_of_not_mem_cons ha
      refine ih hkr ha fun hnext => ?_
      rcases (NodeSet.bit_insert (hval.input hkr) (lt_bound_of_reachable hkr)).mp hnext with he | he
      · exact hak he
      · by_cases hstart : k = start
        · subst hstart
          rw [input_start hF hkr] at he
          exact NodeSet.not_bit_empty _ _ he
        · exact hbit (bit_insert_of_input hF hval hkr hstart hm hk he)

include hg hs hF hval in
/-- What a solution says of a node holds on every path. -/
theorem dominates_of_bit (hb : b ∈ g.reachable)
    (h : ((F.input b).insert b).bits.bit a = true) : g.Dominates start a b := by
  have hstart : start ∈ g.reachable := (hg.mem_reachable hs).mpr .refl
  refine ⟨(hg.mem_reachable hs).mp hb, fun ns hns => by_contra fun ha => ?_⟩
  refine not_bit_of_path hg hs hF hval hns hstart ha (fun hbit => ?_) h
  obtain ⟨ks, rfl⟩ := hns.exists_eq_cons
  rw [input_start hF hstart, NodeSet.bit_insert (NodeSet.fits_empty _)
    (lt_bound_of_reachable hstart)] at hbit
  rcases hbit with he | he
  · exact ha (he ▸ List.mem_cons_self)
  · exact NodeSet.not_bit_empty _ _ he

end Solution

/-! ### Dominance is a solution -/

/-- What dominates a node from outside of it. -/
noncomputable def outerDominators (g : Graph) (start n : NodeId) : NodeSet :=
  ⟨.setOf g.bound fun a =>
    n ≠ start ∧ ∀ m, g.Reaches start m → n ∈ g.succs m → g.Dominates start a m⟩

/-- Dominance as a family of node sets. -/
noncomputable def dominanceFamily (g : Graph) (start : NodeId) : Family NodeSet where
  input n := outerDominators g start n
  edge n _ := (outerDominators g start n).insert n

theorem fits_outerDominators : (outerDominators g start n).Fits g.bound := BitSet.fits_setOf ..

/-- With the node itself, the family has the dominators of each node. -/
theorem bit_outerDominators (hg : g.WellFormed) (hs : g.start = some start)
    (hb : b ∈ g.reachable) :
    ((outerDominators g start b).insert b).bits.bit a = true ↔ g.Dominates start a b := by
  have hreach := (hg.mem_reachable hs).mp hb
  rw [NodeSet.bit_insert fits_outerDominators (lt_bound_of_reachable hb), outerDominators,
    BitSet.bit_setOf]
  by_cases he : b = start
  · subst he
    rw [dominates_start_iff]
    exact or_iff_left fun h => h.2.1 rfl
  · rw [dominates_iff_of_ne_start hreach he]
    refine or_congr_right ⟨fun h => h.2.2, fun h => ⟨?_, he, h⟩⟩
    -- a node that dominates a predecessor is a node of the graph
    obtain ⟨m, hm, hsucc⟩ := (Relation.ReflTransGen.cases_tail hreach).resolve_left he
    have hlive := hg.toLinked.isLive_of_reaches (hg.isLive_start hs) (h m hm hsucc).reaches_left
    exact lt_bound_of_isLive hlive

theorem dominanceFamily_valid :
    (dominanceFamily g start).Valid (dominatorProblem g) g (NodeSet.Fits g.bound) where
  input _ := fits_outerDominators
  edge _ _ := fits_outerDominators.insert _

/-- Dominance itself solves the problem. -/
theorem dominanceFamily_solves (hg : g.WellFormed) (hs : g.start = some start) :
    Solves (dominatorProblem g) g start (dominanceFamily g start) where
  boundary {n v} hn hv hat := by
    obtain rfl : n = start := hat
    obtain rfl := Option.some.inj hv
    refine fits_outerDominators.ext (NodeSet.fits_empty _) fun i => iff_of_false (fun h => ?_) ?_
    · exact (BitSet.bit_setOf.mp h).2.1 rfl
    · exact NodeSet.not_bit_empty _ _
  inner {n} hn hb := by
    have hne : n ≠ start := hb.resolve_left nofun
    have hlaws := NodeSet.meetLaws g.bound
    refine fits_outerDominators.ext (hlaws.valid_foldr ?_) fun i => ?_
    · intro v hv
      obtain ⟨⟨m, j⟩, -, rfl⟩ := List.mem_map.mp hv
      exact fits_outerDominators.insert m
    · refine Iff.trans ?_ (bit_meet_entering (fun m => (outerDominators g start m).insert m)
        (fun m _ => fits_outerDominators.insert m) fun _ => rfl).symm
      refine BitSet.bit_setOf.trans ?_
      refine and_congr_right fun _ => (and_iff_right hne).trans ⟨fun h m hm hsucc => ?_,
        fun h m hm hsucc => ?_⟩
      · exact (bit_outerDominators hg hs hm).mpr (h m ((hg.mem_reachable hs).mp hm) hsucc)
      · have hr := (hg.mem_reachable hs).mpr hm
        exact (bit_outerDominators hg hs hr).mp (h m hr hsucc)
  edge _ _ := rfl

/-! ### What is computed -/

namespace Dominators

/-- Dominators are computed for every graph with a start.  A node that the start does not lead to
has none; the set of any other node has what dominates it. -/
theorem compute_spec (hg : g.WellFormed) (hs : g.start = some start) :
    ∃ d, Dominators.compute g = .ok d ∧ d.start = start ∧
      (∀ b, b ∉ g.reachable → d.of? b = none ∧ d.isReachable b = false) ∧
      ∀ b ∈ g.reachable, d.isReachable b = true ∧ ∃ s, d.of? b = some s ∧ s.Fits g.bound ∧
        ∀ a, s.bits.bit a = true ↔ g.Dominates start a b := by
  obtain ⟨F, r, hr, hrec, hF, hval, hgreat⟩ :=
    solve_spec (dominatorProblem_lawful g) hg hs (NodeSet.ranks g.bound)
      (NodeSet.card_members_le g.bound _)
  have hentry : g.entry = .ok start := by rw [entry, hs]
  refine ⟨⟨start, r⟩, by rw [compute, hentry, hr]; rfl, rfl, fun b hb => ?_,
    fun b hb => ⟨?_, (F.input b).insert b, ?_, (hval.input hb).insert b, fun a => ?_⟩⟩
  · rw [of?, State.output, isReachable, State.isReached, State.input, hrec.unreached hb]
    exact ⟨rfl, rfl⟩
  · rw [isReachable, State.isReached, State.input, hrec.reached hb]
    rfl
  · rw [of?, State.output, hrec.reached hb]
    rfl
  · refine ⟨dominates_of_bit hg hs hF hval hb, fun h => ?_⟩
    have hlt := lt_bound_of_reachable hb
    have hle := (hgreat _ (dominanceFamily_solves hg hs) dominanceFamily_valid).input hb
    refine (NodeSet.bit_insert (hval.input hb) hlt).mpr
      (((NodeSet.bit_insert fits_outerDominators hlt).mp
        ((bit_outerDominators hg hs hb).mpr h)).imp id ?_)
    exact (NodeSet.below_iff fits_outerDominators (hval.input hb)).mp hle a

/-- Nothing but the start itself is in the set of the start. -/
theorem toList_start {s : NodeSet} (hs : ∀ a, s.bits.bit a = true ↔ g.Dominates start a start) :
    s.toList = [start] := by
  refine Ascending.eq_of_mem_iff (BitSet.ascending_toList _) (List.pairwise_singleton ..)
    fun a => ?_
  rw [NodeSet.toList, BitSet.mem_toList, hs, dominates_start_iff, List.mem_singleton]

/-- Dominators that say of every node what is the case. -/
structure Correct (d : Dominators) (g : Graph) (start : NodeId) : Prop where
  start_eq : d.start = start
  isReachable_iff : ∀ {n}, d.isReachable n = true ↔ g.Reaches start n
  dominates_iff : ∀ {a b}, d.dominates a b = true ↔ g.Dominates start a b

/-- Those that are computed do. -/
theorem correct_of_compute (hg : g.WellFormed) (hs : g.start = some start) {d : Dominators}
    (hd : Dominators.compute g = .ok d) : d.Correct g start := by
  obtain ⟨d', hd', hstart, hnone, hsome⟩ := compute_spec hg hs
  obtain rfl : d' = d := Except.ok.inj (hd'.symm.trans hd)
  refine ⟨hstart, fun {n} => ?_, fun {a b} => ?_⟩
  · rw [← hg.mem_reachable hs]
    refine ⟨fun h => by_contra fun hn => ?_, fun hn => (hsome n hn).1⟩
    exact Bool.false_ne_true ((hnone n hn).2.symm.trans h)
  · by_cases hb : b ∈ g.reachable
    · obtain ⟨-, s, hof, hfits, hbit⟩ := hsome b hb
      have hdom : d'.dominates a b = s.bits.contains a := by rw [dominates, hof]; rfl
      rw [hdom, hfits.contains_eq]
      exact hbit a
    · have hdom : d'.dominates a b = false := by rw [dominates, (hnone b hb).1]; rfl
      rw [hdom]
      exact iff_of_false Bool.false_ne_true fun h => hb ((hg.mem_reachable hs).mpr h.1)

end Dominators

/-- The dominators of a built graph with a start are computed.  One node dominates another when the
start leads to the other on no path around the one; a node has dominators when the start leads to
it; and the start has itself alone, whatever leads back to it. -/
theorem dominators_exact (hg : Built g) (hs : g.start = some start) :
    ∃ d, Dominators.compute g = .ok d ∧
      (∀ a b, d.dominates a b = true ↔
        g.Reaches start b ∧ ∀ ns, g.Path start b ns → a ∈ ns) ∧
      (∀ b, d.of? b = none ↔ ¬g.Reaches start b) ∧
      (d.of? start).map NodeSet.toList = some [start] := by
  have hw := hg.wellFormed
  obtain ⟨d, hd, -, hnone, hsome⟩ := Dominators.compute_spec hw hs
  refine ⟨d, hd, fun a b => (Dominators.correct_of_compute hw hs hd).dominates_iff, fun b => ?_, ?_⟩
  · rw [← hw.mem_reachable hs]
    refine ⟨fun h hb => ?_, fun hb => (hnone b hb).1⟩
    obtain ⟨-, s, hof, -⟩ := hsome b hb
    rw [h] at hof
    cases hof
  · obtain ⟨-, s, hof, -, hbit⟩ := hsome start ((hw.mem_reachable hs).mpr .refl)
    rw [hof, Option.map_some, Dominators.toList_start hbit]

/-- A branch on `c` that goes to the return or back to the start. -/
def backToStart : Graph :=
  after (Edit.substituteStub 1 3) (after (Edit.addStart 2)
    (after (Edit.addBranch (.temp "c") 0 1) (after Edit.addStub (after Edit.addReturn .empty))))

/-- The start is on every path to the return, although the branch leads back to it. -/
theorem dominators_backToStart :
    Built backToStart ∧ backToStart.start = some 3 ∧ backToStart.preds 3 = [2] ∧
      ∃ d, Dominators.compute backToStart = .ok d ∧
        d.dominates 3 0 = true ∧ (d.of? 3).map NodeSet.toList = some [3] := by
  have hg : Built backToStart :=
    .tail (.tail (.tail (.tail (.single (.addReturn _)) (.addStub _)) (.addBranch _ _ _ _))
      (.addStart _ _)) (.substituteStub _ _ _)
  have hs : backToStart.start = some 3 := by decide
  obtain ⟨d, hd, hdom, -, hself⟩ := dominators_exact hg hs
  have hreach : backToStart.Reaches 3 0 :=
    .head (b := 2) (by decide : 2 ∈ backToStart.succs 3)
      (.single (by decide : 0 ∈ backToStart.succs 2))
  refine ⟨hg, hs, by decide, d, hd, (hdom 3 0).mpr ⟨hreach, fun ns hns => ?_⟩, hself⟩
  obtain ⟨ms, rfl⟩ := hns.exists_eq_cons
  exact List.mem_cons_self

end Flowgraph

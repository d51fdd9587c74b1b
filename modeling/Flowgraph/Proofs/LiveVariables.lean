import Flowgraph.Liveness
import Flowgraph.Proofs.BitSets
import Flowgraph.Proofs.Dataflow.Solution
import Flowgraph.Proofs.WellFormed
import Mathlib.Data.Finset.Card

/-!
# What liveness computes

The liveness problem of a graph is lawful on the sets of its variables, so that the solver finds
its solution within its budget.  Read back as names, the solution satisfies the equations that
define live variables.

* `Variables.lawful`, `Variables.ranks`: the laws, and how far a set can fall.
* `Variables.bit_numbers`: the numbers of names stand for the names.
* `VarSet.Has`, `Variables.has_transfer`: the names in a set, before and after a transfer.
* `Liveness.compute_spec`: the equations, for every node that the start leads to.
-/

namespace Flowgraph

open Dataflow Flowgraph.Graph

/-! ### Sets of variables -/

namespace VarSet

variable {capacity : Nat} {s t : VarSet} {vs : List VarSet}

/-- The set fits this many variables. -/
def Fits (capacity : Nat) (s : VarSet) : Prop := s.bits.Fits capacity

/-- The order on sets of variables is inclusion reversed. -/
theorem below_iff (hs : s.Fits capacity) (ht : t.Fits capacity) :
    Below s t ↔ ∀ i, t.bits.bit i = true → s.bits.bit i = true := by
  rw [← BitSet.union_eq_left_iff hs ht, Below]
  exact ⟨congrArg VarSet.bits, congrArg VarSet.mk⟩

/-- Union makes a semilattice with the empty set on top. -/
theorem meetLaws (capacity : Nat) : MeetLaws (Fits capacity) (VarSet.empty capacity) where
  valid_top := BitSet.fits_empty capacity
  valid_meet ha hb := BitSet.Fits.union ha hb
  assoc ha hb hc := congrArg VarSet.mk (BitSet.union_assoc ha hb hc)
  comm ha hb := congrArg VarSet.mk (BitSet.union_comm ha hb)
  idem ha := congrArg VarSet.mk (BitSet.union_self ha)
  top_meet ha := congrArg VarSet.mk (BitSet.empty_union ha)

/-- A meet has the variables that are in some of its parts. -/
theorem bit_foldr (hvs : ∀ v ∈ vs, v.Fits capacity) (i : Nat) :
    (vs.foldr meet (VarSet.empty capacity)).bits.bit i = true ↔
      ∃ v ∈ vs, v.bits.bit i = true := by
  induction vs with
  | nil => simp [VarSet.empty, BitSet.bit_empty]
  | cons v vs ih =>
      have hrest : ∀ x ∈ vs, x.Fits capacity := fun x hx => hvs x (List.mem_cons_of_mem _ hx)
      have hmeet : ((v :: vs).foldr meet (VarSet.empty capacity)).bits =
          v.bits.union (vs.foldr meet (VarSet.empty capacity)).bits := rfl
      rw [hmeet,
        BitSet.bit_union (hvs v List.mem_cons_self) ((meetLaws capacity).valid_foldr hrest),
        Bool.or_eq_true, ih hrest]
      simp

/-- The variables that a set of so many variables does not have. -/
def missing (capacity : Nat) (s : VarSet) : Finset Nat :=
  (Finset.range capacity).filter fun i => s.bits.bit i = false

/-- A set that falls takes in a variable that it did not have. -/
theorem ranks (capacity : Nat) : Ranks (Fits capacity) fun s => (missing capacity s).card := by
  intro a b ha hb hab hne
  have hsub := (below_iff ha hb).mp hab
  obtain ⟨i, hi⟩ : ∃ i, a.bits.bit i ≠ b.bits.bit i := by
    by_contra h
    have := BitSet.Fits.ext ha hb fun i => by_contra fun e => h ⟨i, e⟩
    exact hne (congrArg VarSet.mk this)
  have hbi : b.bits.bit i = false := by
    cases hb' : b.bits.bit i with
    | false => rfl
    | true => exact absurd ((hsub i hb').trans hb'.symm) hi
  have hai : a.bits.bit i = true := by
    cases ha' : a.bits.bit i with
    | true => rfl
    | false => exact absurd (ha'.trans hbi.symm) hi
  refine Finset.card_lt_card ⟨fun j hj => ?_, fun h => ?_⟩
  · simp only [missing, Finset.mem_filter] at hj ⊢
    refine ⟨hj.1, Bool.eq_false_iff.mpr fun hbj => ?_⟩
    rw [hsub j hbj] at hj
    cases hj.2
  · have : i ∈ missing capacity a :=
      h (Finset.mem_filter.mpr ⟨Finset.mem_range.mpr (ha.lt_capacity hai), hbi⟩)
    rw [missing, Finset.mem_filter, hai] at this
    cases this.2

theorem card_missing_le (capacity : Nat) (s : VarSet) : (missing capacity s).card ≤ capacity :=
  (Finset.card_filter_le _ _).trans (Finset.card_range capacity).le

end VarSet

/-! ### The liveness problem -/

namespace Variables

variable {v : Variables} {g : Graph} {n : NodeId} {x : String} {names chosen : List String}

/-- All sets fit the number of the variables. -/
structure Fits (v : Variables) : Prop where
  uses : ∀ b ∈ v.uses, b.Fits v.count
  defs : ∀ b ∈ v.defs, b.Fits v.count
  exits : v.exits.Fits v.count

/-- What a node does not write fits. -/
theorem fits_kept (hv : v.Fits) {s : VarSet} (hs : s.Fits v.count) :
    (((v.defSet? n).map s.bits.diff).getD s.bits).Fits v.count := by
  cases hd : v.defSet? n with
  | none => exact hs
  | some d => exact BitSet.Fits.diff hs (hv.defs d (List.mem_of_getElem? hd))

theorem fits_transfer (hv : v.Fits) {s : VarSet} (hs : s.Fits v.count) :
    (v.transfer n s).Fits v.count := by
  rw [transfer, VarSet.Fits]
  cases hu : v.useSet? n with
  | none => exact fits_kept hv hs
  | some u => exact (fits_kept hv hs).union (hv.uses u (List.mem_of_getElem? hu))

/-- A transfer drops what the node writes and adds what it reads.  A slot that was not there when
the sets were made does neither. -/
theorem bit_transfer (hv : v.Fits) {s : VarSet} (hs : s.Fits v.count) (i : Nat) :
    (v.transfer n s).bits.bit i =
      ((s.bits.bit i && !((v.defSet? n).map fun d => d.bit i).getD false) ||
        ((v.useSet? n).map fun u => u.bit i).getD false) := by
  have hkept : (((v.defSet? n).map s.bits.diff).getD s.bits).bit i =
      (s.bits.bit i && !((v.defSet? n).map fun d => d.bit i).getD false) := by
    cases hd : v.defSet? n with
    | none => exact (Bool.and_true _).symm
    | some d => exact BitSet.bit_diff hs (hv.defs d (List.mem_of_getElem? hd)) i
  rw [transfer, ← hkept]
  cases hu : v.useSet? n with
  | none => exact (Bool.or_false _).symm
  | some u => exact BitSet.bit_union (fits_kept hv hs) (hv.uses u (List.mem_of_getElem? hu)) i

/-- With more live after a node, no less is live before it. -/
theorem transfer_mono (hv : v.Fits) {s t : VarSet} (hs : s.Fits v.count) (ht : t.Fits v.count)
    (h : Below s t) : Below (v.transfer n s) (v.transfer n t) := by
  have hsub := (VarSet.below_iff hs ht).mp h
  refine (VarSet.below_iff (fits_transfer hv hs) (fits_transfer hv ht)).mpr fun i hi => ?_
  rw [bit_transfer hv ht, Bool.or_eq_true, Bool.and_eq_true] at hi
  rw [bit_transfer hv hs, Bool.or_eq_true, Bool.and_eq_true]
  exact hi.imp_left (And.imp_left (hsub i))

/-- The liveness problem is lawful on sets of the right capacity. -/
theorem lawful (hv : v.Fits) (g : Graph) : v.problem.Lawful g (VarSet.Fits v.count) where
  toMeetLaws := VarSet.meetLaws v.count
  valid_boundary h := by
    rw [← Option.some.inj h]
    exact BitSet.Fits.union (BitSet.fits_empty v.count) hv.exits
  valid_transfer _ ha h := by
    rw [List.mem_singleton.mp h]
    exact fits_transfer hv ha
  arity _ _ := .inl rfl
  monotone _ ha hb hab _ hx hy := by
    rw [← Option.some.inj hx, ← Option.some.inj hy]
    exact transfer_mono hv ha hb hab

/-! ### Numbers of names -/

/-- The number of a name is its position. -/
theorem getElem?_of_indexIn? {i : Nat} (h : indexIn? names x = some i) : names[i]? = some x := by
  obtain ⟨hi, hx, -⟩ := List.findIdx?_eq_some_iff_getElem.mp h
  rw [List.getElem?_eq_getElem hi, eq_of_beq hx]

theorem exists_indexIn? (h : x ∈ names) : ∃ i, indexIn? names x = some i := by
  cases hi : indexIn? names x with
  | none => exact absurd h (List.idxOf?_eq_none_iff.mp hi)
  | some i => exact ⟨i, rfl⟩

/-- Numbers of names lie below the number of all names. -/
theorem fits_numbers (names chosen : List String) :
    (numbers names chosen).Fits names.length := BitSet.fits_ofList ..

/-- The number of a name is among those of the chosen names exactly if the name is chosen. -/
theorem bit_numbers {i : Nat} (h : indexIn? names x = some i) :
    (numbers names chosen).bit i = true ↔ x ∈ chosen := by
  rw [numbers, BitSet.bit_ofList, List.mem_filterMap]
  have hx := getElem?_of_indexIn? h
  constructor
  · rintro ⟨-, y, hy, hi⟩
    rw [getElem?_of_indexIn? hi] at hx
    exact Option.some.inj hx ▸ hy
  · exact fun hmem => ⟨(List.getElem?_eq_some_iff.mp hx).1, x, hmem, h⟩

/-- All sets that are made for a graph have one capacity. -/
theorem fits_ofGraph (g : Graph) : (ofGraph g).Fits where
  uses b hb := by
    obtain ⟨n, -, rfl⟩ := List.mem_map.mp hb
    exact fits_numbers _ _
  defs b hb := by
    obtain ⟨n, -, rfl⟩ := List.mem_map.mp hb
    exact fits_numbers _ _
  exits := fits_numbers _ _

end Variables

/-- Some node of the graph writes or reads the temporary. -/
def Graph.Occurs (g : Graph) (x : String) : Prop := ∃ n, x ∈ g.defs n ∨ x ∈ g.uses n

/-- Only nodes write. -/
theorem Graph.isLive_of_mem_defs {g : Graph} {n : NodeId} {x : String} (h : x ∈ g.defs n) :
    g.isLive n = true := by
  rw [isLive_iff_kind?]
  cases hk : g.kind? n with
  | none => simp [Graph.defs, hk] at h
  | some k => exact ⟨k, rfl⟩

/-- Only nodes read. -/
theorem Graph.isLive_of_mem_uses {g : Graph} {n : NodeId} {x : String} (h : x ∈ g.uses n) :
    g.isLive n = true := by
  rw [isLive_iff_kind?]
  cases hk : g.kind? n with
  | none => simp [Graph.uses, hk] at h
  | some k => exact ⟨k, rfl⟩

/-- The names that are numbered are those that occur. -/
theorem Variables.mem_names {g : Graph} {x : String} :
    x ∈ (Variables.ofGraph g).names ↔ g.Occurs x := by
  simp only [Variables.ofGraph, Ascending.mem_unions, List.mem_map, mem_ids]
  constructor
  · rintro ⟨l, ⟨n, -, rfl⟩, h⟩
    exact ⟨n, Ascending.mem_union.mp h⟩
  · rintro ⟨n, h⟩
    exact ⟨_, ⟨n, h.elim isLive_of_mem_defs isLive_of_mem_uses, rfl⟩, Ascending.mem_union.mpr h⟩

theorem Variables.occurs_of_indexIn? {g : Graph} {x : String} {i : Nat}
    (hx : indexIn? (ofGraph g).names x = some i) : g.Occurs x :=
  mem_names.mp (List.mem_of_getElem? (getElem?_of_indexIn? hx))

/-- A name without a number occurs nowhere. -/
theorem Variables.not_occurs {g : Graph} {x : String}
    (hx : indexIn? (ofGraph g).names x = none) : ¬g.Occurs x := fun h => by
  obtain ⟨i, hi⟩ := exists_indexIn? (mem_names.mpr h)
  rw [hx] at hi
  cases hi

/-- No name has two numbers. -/
theorem Variables.nodup_names (g : Graph) : (ofGraph g).names.Nodup :=
  (Ascending.pairwise_unions _).imp Std.ne_of_lt

/-! ### The solution by names -/

/-- The set has the number of the name. -/
def VarSet.Has (names : List String) (s : VarSet) (x : String) : Prop :=
  ∃ i, Variables.indexIn? names x = some i ∧ s.bits.bit i = true

namespace Variables

variable {g : Graph} {start n : NodeId} {x : String} {i : Nat}

/-- A transfer, for the number of a name. -/
theorem bit_transfer_ofGraph (hn : n < g.bound) {s : VarSet} (hs : s.Fits (ofGraph g).count)
    (hx : indexIn? (ofGraph g).names x = some i) :
    ((ofGraph g).transfer n s).bits.bit i = true ↔
      x ∈ g.uses n ∨ s.bits.bit i = true ∧ x ∉ g.defs n := by
  have hu : (ofGraph g).useSet? n = some (numbers (ofGraph g).names (g.uses n)) := by
    simp [useSet?, ofGraph, List.getElem?_range hn]
  have hd : (ofGraph g).defSet? n = some (numbers (ofGraph g).names (g.defs n)) := by
    simp [defSet?, ofGraph, List.getElem?_range hn]
  rw [bit_transfer (fits_ofGraph g) hs, hu, hd, Option.map_some, Option.map_some,
    Option.getD_some, Option.getD_some, Bool.or_eq_true, Bool.and_eq_true, bit_numbers hx,
    Bool.not_eq_true', ← Bool.not_eq_true, bit_numbers hx, or_comm]

/-- A set has a name if it has its number. -/
theorem has_iff {s : VarSet} (hx : indexIn? (ofGraph g).names x = some i) :
    s.Has (ofGraph g).names x ↔ s.bits.bit i = true := by
  simp [VarSet.Has, hx]

/-- It has no name without a number. -/
theorem not_has {s : VarSet} (hx : indexIn? (ofGraph g).names x = none) :
    ¬s.Has (ofGraph g).names x := by
  simp [VarSet.Has, hx]

/-- After a transfer a set has the names that the node reads, and those that it had and the node
does not write. -/
theorem has_transfer (hn : n < g.bound) {s : VarSet} (hs : s.Fits (ofGraph g).count) :
    ((ofGraph g).transfer n s).Has (ofGraph g).names x ↔
      x ∈ g.uses n ∨ s.Has (ofGraph g).names x ∧ x ∉ g.defs n := by
  cases hx : indexIn? (ofGraph g).names x with
  | none =>
      refine iff_of_false (not_has hx) ?_
      rintro (h | h)
      · exact not_occurs hx ⟨n, .inr h⟩
      · exact not_has hx h.1
  | some i => rw [has_iff hx, has_iff hx, bit_transfer_ofGraph hn hs hx]

/-- What enters at an exit, for the number of a name: the return temporaries. -/
theorem bit_boundary (hx : indexIn? (ofGraph g).names x = some i) :
    ((BitSet.empty (ofGraph g).count).union (ofGraph g).exits).bit i = true ↔
      isReturnTemp x = true := by
  have hexits : (ofGraph g).exits =
    numbers (ofGraph g).names ((ofGraph g).names.filter isReturnTemp) := rfl
  rw [BitSet.empty_union (fits_ofGraph g).exits, hexits, bit_numbers hx, List.mem_filter]
  exact and_iff_right (List.mem_of_getElem? (getElem?_of_indexIn? hx))

/-- The edges that enter a node backwards come from its successors. -/
theorem exists_entering_iff {m : NodeId} (hg : g.WellFormed) (hs : g.start = some start)
    (hn : n ∈ g.reachable) : (∃ j, (m, j) ∈ entering .backward g n) ↔ m ∈ g.succs n := by
  simp only [mem_entering, exists_and_left]
  refine ⟨fun ⟨_, _, hj⟩ => hg.mem_preds.mp (List.mem_of_getElem? hj), fun hm => ?_⟩
  exact ⟨hg.mem_reachable_of_succ hs hn hm, List.mem_iff_getElem?.mp (hg.mem_preds.mpr hm)⟩

/-- A meet over the edges that enter a node backwards, each with the set of the successor. -/
theorem bit_meet_entering (hg : g.WellFormed) (hs : g.start = some start) (hn : n ∈ g.reachable)
    {edge : NodeId → Nat → VarSet} (value : NodeId → VarSet)
    (hvalue : ∀ m ∈ g.reachable, (value m).Fits (ofGraph g).count)
    (hedge : ∀ {m j}, (m, j) ∈ entering .backward g n → edge m j = value m) :
    (((entering .backward g n).map fun e => edge e.1 e.2).foldr meet
        (VarSet.empty (ofGraph g).count)).bits.bit i = true ↔
      ∃ m ∈ g.succs n, (value m).bits.bit i = true := by
  have hfits : ∀ v ∈ (entering .backward g n).map fun e => edge e.1 e.2,
      v.Fits (ofGraph g).count := by
    intro v hv
    obtain ⟨m, j, he, rfl⟩ := (mem_map_entering hedge).mp hv
    exact hvalue m (mem_entering.mp he).1
  rw [VarSet.bit_foldr hfits]
  refine ⟨?_, fun ⟨m, hm, hb⟩ => ?_⟩
  · rintro ⟨v, hv, hb⟩
    obtain ⟨m, j, he, rfl⟩ := (mem_map_entering hedge).mp hv
    exact ⟨m, (exists_entering_iff hg hs hn).mp ⟨j, he⟩, hb⟩
  · obtain ⟨j, hj⟩ := (exists_entering_iff hg hs hn).mpr hm
    exact ⟨value m, (mem_map_entering hedge).mpr ⟨m, j, hj, rfl⟩, hb⟩

section Solution

variable (hg : g.WellFormed) (hs : g.start = some start) {F : Family VarSet}
  (hF : Solves (ofGraph g).problem g start F)
  (hval : F.Valid (ofGraph g).problem g (VarSet.Fits (ofGraph g).count))

include hF in
/-- At an exit, the input of the solution holds the return temporaries. -/
theorem bit_input_exit (hn : n ∈ g.reachable) (hnil : g.succs n = [])
    (hx : indexIn? (ofGraph g).names x = some i) :
    (F.input n).bits.bit i = true ↔ isReturnTemp x = true := by
  rw [hF.boundary hn rfl hnil]
  exact bit_boundary hx

include hg hs hF hval in
/-- Elsewhere, it holds what is transferred at some successor. -/
theorem bit_input_inner (hn : n ∈ g.reachable) (hne : g.succs n ≠ []) :
    (F.input n).bits.bit i = true ↔
      ∃ m ∈ g.succs n, ((ofGraph g).transfer m (F.input m)).bits.bit i = true := by
  rw [hF.inner hn (.inr hne)]
  refine bit_meet_entering hg hs hn (fun m => (ofGraph g).transfer m (F.input m))
    (fun m hm => fits_transfer (fits_ofGraph g) (hval.input hm)) fun {m j} he => ?_
  obtain ⟨hm, hj⟩ := mem_entering.mp he
  exact (Option.some.inj (hF.edge hm (List.getElem?_eq_some_iff.mp hj).1)).symm

end Solution

end Variables

namespace Liveness

variable {g : Graph} {start : NodeId}

/-- A name that does not occur is nowhere live, read or written. -/
theorem not_live_of_absent {r : State VarSet} {n : NodeId} {x : String}
    (hx : Variables.indexIn? (Variables.ofGraph g).names x = none) :
    ¬g.Occurs x ∧ isLiveBefore ⟨(Variables.ofGraph g).names, r⟩ n x = false ∧
      isLiveAfter ⟨(Variables.ofGraph g).names, r⟩ n x = false :=
  ⟨Variables.not_occurs hx, by simp [isLiveBefore, holds, hx], by simp [isLiveAfter, holds, hx]⟩

section Recorded

variable {F : Family VarSet} {r : State VarSet} {x : String} {i : Nat}
  (hval : F.Valid (Variables.ofGraph g).problem g (VarSet.Fits (Variables.ofGraph g).count))
  (hrec : Records (Variables.ofGraph g).problem g F r)
  (hx : Variables.indexIn? (Variables.ofGraph g).names x = some i)

include hval hrec hx

/-- What is live after a node is the input of the solution there. -/
theorem isLiveAfter_eq {n : NodeId} (hn : n ∈ g.reachable) :
    isLiveAfter ⟨(Variables.ofGraph g).names, r⟩ n x = (F.input n).bits.bit i := by
  rw [isLiveAfter, after?, State.input, hrec.reached hn]
  simp only [holds, hx]
  exact (hval.input hn).contains_eq i

/-- What is live before it is what is transferred there. -/
theorem isLiveBefore_eq {n : NodeId} (hn : n ∈ g.reachable) :
    isLiveBefore ⟨(Variables.ofGraph g).names, r⟩ n x =
      ((Variables.ofGraph g).transfer n (F.input n)).bits.bit i := by
  rw [isLiveBefore, before?, State.output, hrec.reached hn]
  simp only [holds, hx]
  exact (Variables.fits_transfer (Variables.fits_ofGraph g) (hval.input hn)).contains_eq i

end Recorded

/-- Liveness is computed for every graph with a start.  At a node that the start leads to, live
before it are the names that it reads and those live after it that it does not write; live after
it are those live before some successor, or at an exit the return temporaries. -/
theorem compute_spec (hg : g.WellFormed) (hs : g.start = some start) :
    ∃ l, Liveness.compute g = .ok l ∧ ∀ n ∈ g.reachable, ∀ x,
      (l.isLiveBefore n x = true ↔
        x ∈ g.uses n ∨ l.isLiveAfter n x = true ∧ x ∉ g.defs n) ∧
      (l.isLiveAfter n x = true ↔
        if g.succs n = [] then g.Occurs x ∧ isReturnTemp x = true
        else ∃ m ∈ g.succs n, l.isLiveBefore m x = true) := by
  have hv := Variables.fits_ofGraph g
  have hp := Variables.lawful hv g
  obtain ⟨r, hr, hend, hu⟩ := solve_eq hp hg hs (VarSet.ranks _) (VarSet.card_missing_le _ _)
  refine ⟨⟨(Variables.ofGraph g).names, r⟩, by rw [compute, ofVariables, hr]; rfl, fun n hn x => ?_⟩
  have hF := hu.solves hp hg.toLinked hend
  have hval := hu.valid_family hend
  have hrec := hu.records hend
  generalize r.family (Variables.ofGraph g).problem = F at hF hval hrec
  cases hx : Variables.indexIn? (Variables.ofGraph g).names x with
  | none =>
      -- a name that does not occur has no number and is live nowhere
      obtain ⟨hno, hbefore, hafter⟩ := not_live_of_absent (r := r) (n := n) hx
      have huse : x ∉ g.uses n := fun h => hno ⟨n, .inr h⟩
      have hsuccs : ∀ m, isLiveBefore ⟨(Variables.ofGraph g).names, r⟩ m x = false := fun m =>
        (not_live_of_absent hx).2.1
      simp [hbefore, hafter, hno, huse, hsuccs]
  | some i =>
      have hoccurs : g.Occurs x := Variables.occurs_of_indexIn? hx
      have hbound : n < g.bound := lt_bound_of_isLive (isLive_of_mem_reachable hn)
      rw [isLiveBefore_eq hval hrec hx hn, isLiveAfter_eq hval hrec hx hn]
      refine ⟨Variables.bit_transfer_ofGraph hbound (hval.input hn) hx, ?_⟩
      split
      · next hnil =>
          rw [Variables.bit_input_exit hF hn hnil hx]
          exact (and_iff_right hoccurs).symm
      · next hne =>
          rw [Variables.bit_input_inner hg hs hF hval hn hne]
          refine exists_congr fun m => and_congr_right fun hm => ?_
          rw [isLiveBefore_eq hval hrec hx (hg.mem_reachable_of_succ hs hn hm)]

end Liveness

end Flowgraph

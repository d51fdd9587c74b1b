import Flowgraph.Loop.Natural
import Flowgraph.Proofs.Built
import Flowgraph.Proofs.Dominance
import Flowgraph.Proofs.Unroll.BodyCopies

/-!
# What natural loops are

The body that is collected for a header has everything that leads to a tail without passing the
header.  In a loop that is found, the header dominates all of it, so that nothing leads into the
loop from outside except to the header, and within the body the header leads to every node and every
node leads to a latch.

* `mem_loopBody`: the body, for any header and tails.
* `NaturalLoop.Closed`: what is known of a loop of a graph.
* `NaturalLoop.Closed.dominates`, `NaturalLoop.Closed.from_header`: what follows from it for the
  nodes of the body.
* `NaturalLoop.Closed.mem_of_reachesBy`, `NaturalLoop.Closed.mem_body_iff`: the body, by paths to a
  latch.
* `NaturalLoop.Closed.header_mem_or`: of two loops that share a node, one has the header of the
  other.
* `LoopForest.found_detect`: the loops that are found are closed, and no header of one of them lies
  in one found earlier.
* `loops_natural`: what this says of the loops of a built graph.
-/

namespace Flowgraph

open Flowgraph.Graph

variable {g : Graph} {d : Dominators} {start header n m t : NodeId} {tails : List NodeId}
  {l l' : NaturalLoop}

/-! ### The body that is collected -/

/-- One node leads to another over nodes that the start leads to, other than the header; nothing is
said about the last one. -/
def LeadsTo (g : Graph) (d : Dominators) (header : NodeId) : NodeId → NodeId → Prop :=
  Relation.ReflTransGen fun a b => b ∈ g.succs a ∧ a ≠ header ∧ d.isReachable a = true

/-- To search against the edges without the header is to lead to a tail without passing it. -/
theorem withoutHeader_reaches (hg : g.Linked) :
    (g.withoutHeader d header).Reaches t n ↔ LeadsTo g d header n t := by
  have hedge : (g.withoutHeader d header).Edge =
      Function.swap fun a b => b ∈ g.succs a ∧ a ≠ header ∧ d.isReachable a = true := by
    funext b a
    simp only [Digraph.Edge, withoutHeader, List.mem_filter, hg.mem_preds, Function.swap,
      Bool.and_eq_true, bne_iff_ne, eq_iff_iff]
    exact ⟨fun h => ⟨h.1.1, h.1.2⟩, fun h => ⟨h, hg.isLive_pred (hg.mem_preds.mpr h.1)⟩⟩
  rw [Digraph.Reaches, hedge, Relation.reflTransGen_swap, LeadsTo]

/-- The header and what leads to a tail without passing the header. -/
theorem mem_loopBody (hg : g.Linked) (htails : ∀ t ∈ tails, g.isLive t = true) :
    n ∈ loopBody g d header tails ↔
      n = header ∨ ∃ t ∈ tails, t ≠ header ∧ LeadsTo g d header n t := by
  simp only [loopBody, Ascending.mem_ofList, List.cons_append, List.mem_cons, List.mem_append,
    Digraph.mem_closure, withoutHeader_reaches hg, List.mem_filter, bne_iff_ne]
  refine or_congr_right ⟨?_, ?_⟩
  · rintro (⟨ht, hne⟩ | ⟨t, ⟨ht, hne⟩, -, hlead⟩)
    · exact ⟨n, ht, hne, .refl⟩
    · exact ⟨t, ht, hne, hlead⟩
  · rintro ⟨t, ht, hne, hlead⟩
    exact .inr ⟨t, ⟨ht, hne⟩, htails t ht, hlead⟩

/-- The header lies in its own body. -/
theorem header_mem_loopBody : header ∈ loopBody g d header tails := by
  rw [loopBody, Ascending.mem_ofList]
  exact List.mem_cons_self

/-! ### Loops that are closed -/

namespace NaturalLoop

/-- The latches are the nodes with an edge to the header that it dominates.  The body is entered
only at the header, and whatever else is in it leads to a latch without passing the header again. -/
structure Closed (g : Graph) (start : NodeId) (l : NaturalLoop) : Prop where
  header_mem : l.header ∈ l.body
  mem_latches : ∀ {t}, t ∈ l.latches ↔ l.header ∈ g.succs t ∧ g.Dominates start l.header t
  latched : ∃ t, t ∈ l.latches
  latch_mem : ∀ {t}, t ∈ l.latches → t ∈ l.body
  reaches : ∀ {n}, n ∈ l.body → g.Reaches start n
  mem_of_succ : ∀ {m n}, g.Reaches start m → n ∈ g.succs m → n ∈ l.body → n ≠ l.header → m ∈ l.body
  to_latch : ∀ {n}, n ∈ l.body → n ≠ l.header →
    ∃ t ∈ l.latches, t ≠ l.header ∧ g.Inner l.body l.header n t

/-- A header closes a loop if it dominates some node with an edge to it. -/
theorem closed_ofHeader (hg : g.WellFormed) (hd : d.Correct g start) (ht : header ∈ g.succs t)
    (hdom : d.dominates header t = true) : (ofHeader g d header).Closed g start := by
  have hlatch {t} : t ∈ backEdgeSources g d header ↔
      header ∈ g.succs t ∧ g.Dominates start header t := by
    rw [backEdgeSources, List.mem_filter, hg.mem_preds, hd.dominates_iff]
  have hbody {n} : n ∈ (ofHeader g d header).body ↔ n = header ∨
      ∃ t ∈ backEdgeSources g d header, t ≠ header ∧ LeadsTo g d header n t :=
    mem_loopBody hg.toLinked fun t h => hg.isLive_pred (hg.mem_preds.mpr (hlatch.mp h).1)
  constructor
  case header_mem => exact hbody.mpr (.inl rfl)
  case mem_latches => exact hlatch
  case latched => exact ⟨t, hlatch.mpr ⟨ht, hd.dominates_iff.mp hdom⟩⟩
  case latch_mem =>
    intro t h
    exact hbody.mpr (or_iff_not_imp_left.mpr fun hne => ⟨t, h, hne, .refl⟩)
  case reaches =>
    intro n hn
    rcases hbody.mp hn with rfl | ⟨t, h, -, hlead⟩
    · exact (hd.dominates_iff.mp hdom).reaches_left
    · rcases Relation.ReflTransGen.cases_head hlead with rfl | ⟨m, hm, -⟩
      · exact (hlatch.mp h).2.1
      · exact hd.isReachable_iff.mp hm.2.2
  case mem_of_succ =>
    intro m n hm hs hn hne
    obtain ⟨t, h, htne, hlead⟩ := (hbody.mp hn).resolve_left hne
    refine hbody.mpr (or_iff_not_imp_left.mpr fun he => ⟨t, h, htne, .head ?_ hlead⟩)
    exact ⟨hs, he, hd.isReachable_iff.mpr hm⟩
  case to_latch =>
    intro n hn hne
    obtain ⟨t, h, htne, hlead⟩ := (hbody.mp hn).resolve_left hne
    refine ⟨t, h, htne, ?_⟩
    -- the rest of the way is in the body, since it leads to the latch too
    suffices n ≠ header ∧ g.Inner (ofHeader g d header).body header n t from this.2
    clear hn hne
    induction hlead using Relation.ReflTransGen.head_induction_on with
    | refl => exact ⟨htne, .refl⟩
    | @head a b hstep hrest ih =>
        have hb := hbody.mpr (.inr ⟨t, h, htne, hrest⟩)
        exact ⟨hstep.2.1, .head ⟨hstep.1, hb, ih.1⟩ ih.2⟩

namespace Closed

variable (hl : l.Closed g start)

include hl

/-- The header dominates the body. -/
theorem dominates (hn : n ∈ l.body) : g.Dominates start l.header n := by
  by_cases he : n = l.header
  · rw [he]
    exact dominates_self (hl.reaches hl.header_mem)
  · obtain ⟨t, ht, -, hinner⟩ := hl.to_latch hn he
    have hreach := hl.reaches hn
    clear hn he
    induction hinner using Relation.ReflTransGen.head_induction_on with
    | refl => exact (hl.mem_latches.mp ht).2
    | head hstep _ ih => exact (ih (hreach.tail hstep.1)).of_succ hstep.2.2.symm hreach hstep.1

/-- Within the body the header leads to every node. -/
theorem from_header (hn : n ∈ l.body) : g.Inner l.body l.header l.header n := by
  obtain ⟨ns, hns⟩ := exists_path (hl.reaches hn)
  have hlead := hns.reachesBy_of_mem ((hl.dominates hn).2 ns hns)
  clear hns
  induction hlead with
  | refl => exact .refl
  | @tail m n hm hstep ih =>
      have hreach : g.Reaches start m :=
        (hl.reaches hl.header_mem).trans (ReachesBy.reaches hm)
      exact (ih (hl.mem_of_succ hreach hstep.1 hn hstep.2)).tail ⟨hstep.1, hn, hstep.2⟩

/-- What leads into the body without passing the header on the way is in the body. -/
theorem mem_of_reachesBy (hn : g.Reaches start n) (hway : g.ReachesBy (· ≠ l.header) n m)
    (hm : m ∈ l.body) : n ∈ l.body := by
  induction hway using Relation.ReflTransGen.head_induction_on with
  | refl => exact hm
  | head hstep _ ih => exact hl.mem_of_succ hn hstep.1 (ih (hn.tail hstep.1)) hstep.2

/-- The body is the header and what has a path around the header to a latch. -/
theorem mem_body_iff :
    n ∈ l.body ↔ n = l.header ∨
      g.Reaches start n ∧ ∃ t ∈ l.latches, ∃ ns, g.Path n t ns ∧ l.header ∉ ns := by
  constructor
  · refine fun hn => or_iff_not_imp_left.mpr fun hne => ⟨hl.reaches hn, ?_⟩
    obtain ⟨t, ht, -, hinner⟩ := hl.to_latch hn hne
    obtain ⟨ns, hns, hin⟩ := reachesBy_iff.mp hinner
    refine ⟨t, ht, n :: ns, hns, fun hmem => ?_⟩
    rcases List.mem_cons.mp hmem with he | hmem
    · exact hne he.symm
    · exact (hin _ hmem).2 rfl
  · rintro (rfl | ⟨hreach, t, ht, ns, hns, hout⟩)
    · exact hl.header_mem
    · obtain ⟨ms, rfl⟩ := hns.exists_eq_cons
      have hway : g.ReachesBy (· ≠ l.header) n t :=
        reachesBy_iff.mpr ⟨ms, hns, fun m hm he => hout (he ▸ List.mem_cons_of_mem _ hm)⟩
      exact hl.mem_of_reachesBy hreach hway (hl.latch_mem ht)

/-- A start without predecessors is in no loop. -/
theorem start_not_mem (hg : g.Linked) (hpreds : g.preds start = []) : start ∉ l.body := by
  intro hn
  have hno {m : NodeId} (hm : start ∈ g.succs m) : False :=
    List.not_mem_nil (hpreds ▸ hg.mem_preds.mpr hm)
  rcases Relation.ReflTransGen.cases_tail (hl.from_header hn) with he | ⟨m, -, hs⟩
  · obtain ⟨t, ht⟩ := hl.latched
    exact hno (he ▸ (hl.mem_latches.mp ht).1)
  · exact hno hs.1

/-- Of two loops that share a node, one has the header of the other. -/
theorem header_mem_or (hl' : l'.Closed g start) (hn : n ∈ l.body) (hn' : n ∈ l'.body) :
    l.header ∈ l'.body ∨ l'.header ∈ l.body := by
  have hinner := hl'.from_header hn'
  clear hn'
  induction hinner with
  | refl => exact .inr hn
  | @tail m n hm hstep ih =>
      by_cases he : n = l.header
      · exact .inl (he ▸ hstep.2.1)
      · refine ih (hl.mem_of_succ ?_ hstep.1 hn he)
        exact (hl'.reaches hl'.header_mem).trans (ReachesBy.reaches hm)

end Closed

end NaturalLoop

/-! ### The loops of a graph -/

namespace LoopForest

/-- Loops that are closed, none of whose headers lies in an earlier one. -/
structure Found (g : Graph) (start : NodeId) (f : LoopForest) : Prop where
  closed : ∀ l ∈ f, l.Closed g start
  apart : f.Pairwise fun l l' => l'.header ∉ l.body

/-- What an edge adds is the loop of its target, if the target dominates its source. -/
theorem Found.addEdge {f : LoopForest} (hf : f.Found g start) (hg : g.WellFormed)
    (hd : d.Correct g start) (ht : header ∈ g.succs t) :
    (LoopForest.addEdge g d f t header).Found g start := by
  rw [LoopForest.addEdge]
  split
  · next h =>
      rw [Bool.and_eq_true, Bool.not_eq_true', List.any_eq_false] at h
      obtain ⟨hdom, hnew⟩ := h
      refine ⟨fun l hl => ?_, List.pairwise_append.mpr ⟨hf.apart, List.pairwise_singleton .., ?_⟩⟩
      · rcases List.mem_append.mp hl with hl | hl
        · exact hf.closed l hl
        · exact List.mem_singleton.mp hl ▸ NaturalLoop.closed_ofHeader hg hd ht hdom
      · intro l hl l' hl' hmem
        obtain rfl := List.mem_singleton.mp hl'
        exact hnew l hl (List.contains_iff_mem.mpr hmem)
  · exact hf

/-- So it is for all edges, one after the other. -/
theorem found_foldl {f : LoopForest} {edges : List (NodeId × NodeId)} (hf : f.Found g start)
    (hg : g.WellFormed) (hd : d.Correct g start) (hedges : ∀ e ∈ edges, e.2 ∈ g.succs e.1) :
    (edges.foldl (fun f (tail, target) => LoopForest.addEdge g d f tail target) f).Found g
      start := by
  induction edges generalizing f with
  | nil => exact hf
  | cons e edges ih =>
      obtain ⟨he, hedges⟩ := List.forall_mem_cons.mp hedges
      exact ih (hf.addEdge hg hd he) hedges

/-- Every loop that is found is the one that its header closes. -/
theorem eq_ofHeader_of_mem_detect (hl : l ∈ detect g d) : l = .ofHeader g d l.header := by
  suffices h : ∀ (edges : List (NodeId × NodeId)) (f : LoopForest),
      (∀ l ∈ f, l = .ofHeader g d l.header) →
      ∀ l ∈ edges.foldl (fun f (tail, target) => LoopForest.addEdge g d f tail target) f,
        l = .ofHeader g d l.header from h _ [] nofun l hl
  intro edges
  induction edges with
  | nil => exact fun f hf => hf
  | cons e edges ih =>
      refine fun f hf => ih _ fun l hl => ?_
      dsimp only [LoopForest.addEdge] at hl
      split at hl
      · rcases List.mem_append.mp hl with hl | hl
        · exact hf l hl
        · rw [List.mem_singleton.mp hl]
          rfl
      · exact hf l hl

theorem ascending_of_mem_detect (hl : l ∈ detect g d) : Ascending l.body := by
  rw [eq_ofHeader_of_mem_detect hl]
  exact Ascending.pairwise_ofList _

/-- The loops that are found in a graph. -/
theorem found_detect (hg : g.WellFormed) (hd : d.Correct g start) :
    (detect g d).Found g start := by
  refine found_foldl ⟨nofun, .nil⟩ hg hd fun e he => ?_
  obtain ⟨n, -, he⟩ := List.mem_flatMap.mp he
  obtain ⟨s, hs, rfl⟩ := List.mem_map.mp he
  exact hs

end LoopForest

open LoopForest in
/-- Every loop that is found in a built graph with a start is the natural loop of its header.  The
latches are, in the order in which the header lists its predecessors, those of them that the start
leads to on no path around the header, and there is one.  The body is the header with every node
that the start leads to and that has a path around the header to a latch.  The header dominates it,
and an edge that the start leads to enters it at the header only. -/
theorem loops_natural (hg : Built g) (hs : g.start = some start) :
    ∃ d, Dominators.compute g = .ok d ∧ ∀ l ∈ detect g d,
      l.latches ≠ [] ∧
      l.latches.Sublist (g.preds l.header) ∧
      (g.preds l.header).Nodup ∧
      (∀ t, t ∈ l.latches ↔ t ∈ g.preds l.header ∧
        g.Reaches start t ∧ ∀ ns, g.Path start t ns → l.header ∈ ns) ∧
      Ascending l.body ∧
      (∀ n, n ∈ l.body ↔ n = l.header ∨
        g.Reaches start n ∧ ∃ t ∈ l.latches, ∃ ns, g.Path n t ns ∧ l.header ∉ ns) ∧
      (∀ n ∈ l.body, g.Reaches start n ∧ ∀ ns, g.Path start n ns → l.header ∈ ns) ∧
      ∀ m n, g.Reaches start m → m ∉ l.body → n ∈ g.succs m → n ∈ l.body → n = l.header := by
  have hw := hg.wellFormed
  obtain ⟨d, hd, -⟩ := Dominators.compute_spec hw hs
  have hcorrect := Dominators.correct_of_compute hw hs hd
  refine ⟨d, hd, fun l hl => ?_⟩
  have hclosed := (found_detect hw hcorrect).closed l hl
  obtain ⟨t, ht⟩ := hclosed.latched
  refine ⟨List.ne_nil_of_mem ht, ?_, hw.nodup_preds _, fun t => ?_, ascending_of_mem_detect hl,
    fun n => hclosed.mem_body_iff, fun n hn => hclosed.dominates hn, fun m n hm hout hedge hn => ?_⟩
  · rw [eq_ofHeader_of_mem_detect hl]
    exact List.filter_sublist
  · rw [hclosed.mem_latches, hw.mem_preds, Dominates]
  · by_contra hne
    exact hout (hclosed.mem_of_succ hm hedge hn hne)

/-- A branch on `c` in a loop on `i`, with an edge to the header from either side and one from an
assignment that nothing leads to. -/
def twoLatches : Graph :=
  after (Edit.addStart 5) (after (Edit.addAssign "x" (.const 1) 5) (after (Edit.substituteStub 1 5)
    (after (Edit.addBranch (.binop .lt (.temp "i") (.temp "n")) 4 0)
      (after (Edit.addBranch (.temp "c") 2 3)
        (after (Edit.addAssign "i" (.binop .add (.temp "i") (.const 2)) 1)
          (after (Edit.addAssign "i" (.binop .add (.temp "i") (.const 1)) 1)
            (after Edit.addStub (after Edit.addReturn .empty))))))))

/-- Of the predecessors of the header the start and the assignment `x = 1` are no latches, and the
assignment is not in the body although it leads there. -/
theorem loops_natural_twoLatches :
    Built twoLatches ∧ twoLatches.start = some 7 ∧ twoLatches.preds 5 = [2, 3, 6, 7] ∧
      ∃ d, Dominators.compute twoLatches = .ok d ∧
        LoopForest.detect twoLatches d = [⟨5, [2, 3, 4, 5], [2, 3]⟩] ∧
        ¬∃ ns, twoLatches.Path 7 4 ns ∧ 5 ∉ ns := by
  have hg : Built twoLatches :=
    .tail (.tail (.tail (.tail (.tail (.tail (.tail (.tail (.single (.addReturn _)) (.addStub _))
      (.addAssign _ _ _ _)) (.addAssign _ _ _ _)) (.addBranch _ _ _ _)) (.addBranch _ _ _ _))
      (.substituteStub _ _ _)) (.addAssign _ _ _ _)) (.addStart _ _)
  have hs : twoLatches.start = some 7 := by decide +kernel
  have hdetect : (match Dominators.compute twoLatches with
      | .ok d => decide (LoopForest.detect twoLatches d = [⟨5, [2, 3, 4, 5], [2, 3]⟩])
      | .error _ => false) = true := by decide +kernel
  obtain ⟨d, hd, hnatural⟩ := loops_natural hg hs
  rw [hd] at hdetect
  have hloops := of_decide_eq_true hdetect
  rw [hloops] at hnatural
  obtain ⟨-, -, -, -, -, -, hdominates, -⟩ := hnatural _ (List.mem_singleton_self _)
  refine ⟨hg, hs, by decide +kernel, d, hd, hloops, fun ⟨ns, hns, hout⟩ => hout ?_⟩
  exact (hdominates 4 (by decide)).2 ns hns

end Flowgraph

import Flowgraph.Proofs.NaturalLoops
import Flowgraph.Proofs.Built

/-!
# How the loops of a graph lie to one another

Loops are looked for edge by edge, and a header that lies in a loop found before opens none.  So
whatever edge closes a loop, its target lies in one of those that are found; and of two loops that
share a node, the one found first lies inside the other, since its header is dominated by the other
header and leads to nothing outside of the other body without passing that header.

* `NaturalLoop.Inside`: one body is part of another one and not all of it.
* `NaturalLoop.Closed.body_subset`, `NaturalLoop.Closed.disjoint_or_inside`: two loops.
* `LoopForest.Found.nested`: the loops of a forest, in the order in which they were found.
* `LoopForest.exists_loop_of_backEdge`, `LoopForest.detect_eq_nil_iff`: no loop is missed.
* `LoopForest.containing?_eq_some_iff`: the first loop with a node is the innermost one.
* `loops_nested`: all of this for the loops of a built graph.
-/

namespace Flowgraph

open Flowgraph.Graph

variable {g : Graph} {d : Dominators} {start header n tail : NodeId} {l l' : NaturalLoop}
  {f : LoopForest}

/-! ### Two loops -/

namespace NaturalLoop

/-- The body is part of the other one and not all of it. -/
def Inside (l l' : NaturalLoop) : Prop := l.body ⊆ l'.body ∧ ¬l'.body ⊆ l.body

/-- A loop inside another one has fewer nodes. -/
theorem Inside.size_lt (h : l.Inside l') (hnd : l.body.Nodup) : l.size < l'.size := by
  obtain ⟨hsub, hnot⟩ := h
  have hperm := List.subperm_of_subset hnd hsub
  refine Nat.lt_of_le_of_ne hperm.length_le fun hlen => hnot ?_
  exact (hperm.perm_of_length_le (Nat.le_of_eq hlen.symm)).symm.subset

namespace Closed

variable (hl : l.Closed g start) (hl' : l'.Closed g start)

include hl hl'

/-- If the header of another loop lies in the body, and its own header not in the other body, then
the whole of the other body does: what leads to a latch of the other loop does not pass the own
header. -/
theorem body_subset (hmem : l'.header ∈ l.body) (hout : l.header ∉ l'.body) : l'.body ⊆ l.body := by
  have hne : ∀ {m}, m ∈ l'.body → m ≠ l.header := fun hm e => hout (e ▸ hm)
  have hlatch : ∀ {t}, t ∈ l'.latches → t ∈ l.body := fun {t} ht =>
    hl.mem_of_succ (hl'.mem_latches.mp ht).2.1 (hl'.mem_latches.mp ht).1 hmem (hne hl'.header_mem)
  intro n hn
  by_cases he : n = l'.header
  · exact he ▸ hmem
  · obtain ⟨t, ht, -, hinner⟩ := hl'.to_latch hn he
    have hway : g.ReachesBy (· ≠ l.header) n t :=
      Relation.ReflTransGen.mono (fun _ _ hstep => ⟨hstep.1, hne hstep.2.1⟩) _ _ hinner
    exact hl.mem_of_reachesBy (hl'.reaches hn) hway (hlatch ht)

/-- Two loops, of which the first has not the header of the second, share no node, or the first lies
inside the second. -/
theorem disjoint_or_inside (hout : l'.header ∉ l.body) :
    List.Disjoint l.body l'.body ∨ l.Inside l' := by
  refine or_iff_not_imp_left.mpr fun hshare => ?_
  obtain ⟨n, hn, hn'⟩ : ∃ n, n ∈ l.body ∧ n ∈ l'.body := by
    by_contra hno
    exact hshare fun n hn hn' => hno ⟨n, hn, hn'⟩
  have hmem : l.header ∈ l'.body := (hl.header_mem_or hl' hn hn').resolve_right hout
  exact ⟨hl'.body_subset hl hmem hout, fun hsub => hout (hsub hl'.header_mem)⟩

end Closed

end NaturalLoop

/-! ### The loops of a forest -/

namespace LoopForest

namespace Found

variable (hf : f.Found g start)

include hf

/-- No two loops have the same header. -/
theorem nodup_headers : (f.map NaturalLoop.header).Nodup := by
  rw [List.Nodup, List.pairwise_map]
  refine hf.apart.imp_of_mem fun {l l'} hl _ hout he => hout ?_
  exact he ▸ (hf.closed l hl).header_mem

/-- A loop shares no node with those found after it, or lies inside of them. -/
theorem nested : f.Pairwise fun l l' => List.Disjoint l.body l'.body ∨ l.Inside l' :=
  hf.apart.imp_of_mem fun {l l'} hl hl' hout =>
    (hf.closed l hl).disjoint_or_inside (hf.closed l' hl') hout

end Found

/-- No loop is found for a node that lies in none. -/
theorem containing?_eq_none_iff : f.containing? n = none ↔ ∀ l ∈ f, n ∉ l.body := by
  simp only [containing?, NaturalLoop.contains, List.find?_eq_none, List.contains_iff_mem]

/-- Where loops are disjoint or lie inside of those found later, the first one with a node lies
inside of every other one with that node. -/
theorem containing?_eq_some_iff
    (hf : f.Pairwise fun l l' => List.Disjoint l.body l'.body ∨ l.Inside l') :
    f.containing? n = some l ↔
      l ∈ f ∧ n ∈ l.body ∧ ∀ l' ∈ f, n ∈ l'.body → l' = l ∨ l.Inside l' := by
  have hsome {l : NaturalLoop} (h : f.containing? n = some l) :
      l ∈ f ∧ n ∈ l.body ∧ ∀ l' ∈ f, n ∈ l'.body → l' = l ∨ l.Inside l' := by
    obtain ⟨hn, before, after, rfl, hbefore⟩ := List.find?_eq_some_iff_append.mp h
    have hn : n ∈ l.body := List.contains_iff_mem.mp hn
    refine ⟨List.mem_append_right _ List.mem_cons_self, hn, fun l' hl' hn' => ?_⟩
    rcases List.mem_append.mp hl' with hl' | hl'
    · have hno := hbefore l' hl'
      rw [NaturalLoop.contains, List.contains_iff_mem.mpr hn'] at hno
      cases hno
    · rcases List.mem_cons.mp hl' with rfl | hl'
      · exact .inl rfl
      · have hlater := List.pairwise_cons.mp (List.pairwise_append.mp hf).2.1
        exact .inr ((hlater.1 l' hl').resolve_left fun hdis => hdis hn hn')
  refine ⟨hsome, fun ⟨hl, hn, hleast⟩ => ?_⟩
  cases hfirst : f.containing? n with
  | none => exact absurd hn (containing?_eq_none_iff.mp hfirst l hl)
  | some m =>
      -- of two loops that lie inside every other one, each lies inside the other
      obtain ⟨hm, hnm, hleast'⟩ := hsome hfirst
      rcases hleast m hm hnm with rfl | hin
      · rfl
      · rcases hleast' l hl hn with rfl | hin'
        · rfl
        · exact absurd hin'.1 hin.2

/-! ### No loop is missed -/

/-- Loops that were found stay. -/
theorem mem_addEdge (hl : l ∈ f) : l ∈ addEdge g d f tail header := by
  rw [addEdge]
  split
  · exact List.mem_append_left _ hl
  · exact hl

/-- After an edge that closes a loop its target lies in one. -/
theorem exists_loop_addEdge (hdom : d.dominates header tail = true) :
    ∃ l ∈ addEdge g d f tail header, header ∈ l.body := by
  rw [addEdge]
  split
  · exact ⟨.ofHeader g d header, List.mem_append_right _ (List.mem_singleton_self _),
      header_mem_loopBody⟩
  · next hold =>
      rw [hdom, Bool.true_and, Bool.not_eq_true', Bool.not_eq_false] at hold
      obtain ⟨l, hl, hmem⟩ := List.any_eq_true.mp hold
      exact ⟨l, hl, List.contains_iff_mem.mp hmem⟩

/-- Loops that have been found stay, and every edge that closes one has its target in one. -/
theorem exists_loop_foldl {edges : List (NodeId × NodeId)} :
    (∀ l ∈ f, l ∈ edges.foldl (fun f (tail, target) => addEdge g d f tail target) f) ∧
      ∀ e ∈ edges, d.dominates e.2 e.1 = true →
        ∃ l ∈ edges.foldl (fun f (tail, target) => addEdge g d f tail target) f, e.2 ∈ l.body := by
  induction edges generalizing f with
  | nil => exact ⟨fun _ => id, nofun⟩
  | cons e edges ih =>
      obtain ⟨hstay, hfound⟩ := @ih (addEdge g d f e.1 e.2)
      refine ⟨fun l hl => hstay l (mem_addEdge hl),
        List.forall_mem_cons.mpr ⟨fun hdom => ?_, hfound⟩⟩
      obtain ⟨l, hl, hmem⟩ := exists_loop_addEdge (g := g) (f := f) hdom
      exact ⟨l, hstay l hl, hmem⟩

section Detect

variable (hg : g.WellFormed) (hs : g.start = some start) (hd : d.Correct g start)

include hg hs hd

/-- The target of every edge that closes a loop lies in one that is found. -/
theorem exists_loop_of_backEdge (hedge : header ∈ g.succs tail)
    (hdom : g.Dominates start header tail) : ∃ l ∈ detect g d, header ∈ l.body := by
  refine exists_loop_foldl.2 (tail, header) ?_ (hd.dominates_iff.mpr hdom)
  refine List.mem_flatMap.mpr ⟨tail, ?_, List.mem_map.mpr ⟨header, hedge, rfl⟩⟩
  rw [hd.start_eq, Digraph.reversePostorder, List.mem_reverse, Digraph.mem_postorder,
    hg.flow_reaches]
  exact ⟨hg.isLive_start hs, hdom.1⟩

/-- There is no loop exactly if no edge closes one. -/
theorem detect_eq_nil_iff : detect g d = [] ↔ hasBackEdges g d = false := by
  rw [hasBackEdges, ← Bool.not_eq_true, List.any_eq_true]
  constructor
  · rintro hnil ⟨tail, -, hback⟩
    obtain ⟨header, hedge, hdom⟩ := List.any_eq_true.mp hback
    obtain ⟨l, hl, -⟩ := exists_loop_of_backEdge hg hs hd hedge (hd.dominates_iff.mp hdom)
    rw [hnil] at hl
    cases hl
  · intro hno
    refine List.eq_nil_iff_forall_not_mem.mpr fun l hl => hno ?_
    have hclosed := (found_detect hg hd).closed l hl
    obtain ⟨t, ht⟩ := hclosed.latched
    obtain ⟨hedge, hdom⟩ := hclosed.mem_latches.mp ht
    exact ⟨t, mem_ids.mpr (isLive_of_mem_succs hedge),
      List.any_eq_true.mpr ⟨l.header, hedge, hd.dominates_iff.mpr hdom⟩⟩

end Detect

end LoopForest

open LoopForest in
/-- The loops of a built graph with a start have different headers.  A loop shares no node with
those found after it, or lies inside of them.  Wherever an edge leads to a node that dominates its
source, that node lies in some loop, and there is no loop exactly if there is no such edge.  The
loop that is given for a node is the smallest one that has it: it lies inside of every other one. -/
theorem loops_nested (hg : Built g) (hs : g.start = some start) :
    ∃ d, Dominators.compute g = .ok d ∧
      ((detect g d).map NaturalLoop.header).Nodup ∧
      ((detect g d).Pairwise fun l l' => List.Disjoint l.body l'.body ∨ l.Inside l') ∧
      (∀ tail header, header ∈ g.succs tail → g.Dominates start header tail →
        ∃ l ∈ detect g d, header ∈ l.body) ∧
      (detect g d = [] ↔ hasBackEdges g d = false) ∧
      (∀ n, (detect g d).containing? n = none ↔ ∀ l ∈ detect g d, n ∉ l.body) ∧
      ∀ n l, (detect g d).containing? n = some l ↔
        l ∈ detect g d ∧ n ∈ l.body ∧
          ∀ l' ∈ detect g d, n ∈ l'.body → l' = l ∨ l.Inside l' ∧ l.size < l'.size := by
  have hw := hg.wellFormed
  obtain ⟨d, hd, -⟩ := Dominators.compute_spec hw hs
  have hcorrect := Dominators.correct_of_compute hw hs hd
  have hfound := found_detect hw hcorrect
  refine ⟨d, hd, hfound.nodup_headers, hfound.nested,
    fun _ _ => exists_loop_of_backEdge hw hs hcorrect, detect_eq_nil_iff hw hs hcorrect,
    fun n => containing?_eq_none_iff, fun n l => ?_⟩
  rw [containing?_eq_some_iff hfound.nested]
  refine and_congr_right fun hl => and_congr_right fun _ => forall₃_congr fun l' _ _ => ?_
  refine or_congr_right (iff_self_and.mpr fun hin => hin.size_lt ?_)
  exact (ascending_of_mem_detect hl).imp Nat.ne_of_lt

/-- A loop on `j` inside one on `i`, and behind both a branch to the return or to a self-loop. -/
def spinBehindNest : Graph :=
  after (Edit.addStart 8) (after (Edit.substituteStub 3 8)
    (after (Edit.addBranch (.binop .lt (.temp "i") (.temp "n")) 7 2)
      (after (Edit.substituteStub 5 7)
        (after (Edit.addBranch (.binop .geq (.temp "j") (.temp "m")) 4 6)
          (after (Edit.addAssign "j" (.binop .add (.temp "j") (.const 1)) 5) (after Edit.addStub
            (after (Edit.addAssign "i" (.binop .add (.temp "i") (.const 1)) 3)
              (after Edit.addStub (after (Edit.addBranch (.temp "c") 0 1)
                (after Edit.addSelfLoop (after Edit.addReturn .empty)))))))))))

/-- Node 6 lies in two of its three loops.  The inner one is given for it, and lies inside the
other. -/
theorem loops_nested_spinBehindNest :
    Built spinBehindNest ∧ spinBehindNest.start = some 9 ∧
      ∃ d, Dominators.compute spinBehindNest = .ok d ∧
        LoopForest.detect spinBehindNest d =
          [⟨1, [1], [1]⟩, ⟨7, [6, 7], [6]⟩, ⟨8, [4, 6, 7, 8], [4]⟩] ∧
        NaturalLoop.Inside ⟨7, [6, 7], [6]⟩ ⟨8, [4, 6, 7, 8], [4]⟩ ∧
        List.Disjoint [1] [4, 6, 7, 8] := by
  have hg : Built spinBehindNest :=
    .tail (.tail (.tail (.tail (.tail (.tail (.tail (.tail (.tail (.tail (.tail
      (.single (.addReturn _)) (.addSelfLoop _)) (.addBranch _ _ _ _)) (.addStub _))
      (.addAssign _ _ _ _)) (.addStub _)) (.addAssign _ _ _ _)) (.addBranch _ _ _ _))
      (.substituteStub _ _ _)) (.addBranch _ _ _ _)) (.substituteStub _ _ _)) (.addStart _ _)
  have hs : spinBehindNest.start = some 9 := by decide +kernel
  have hdetect : (match Dominators.compute spinBehindNest with
      | .ok d => decide (LoopForest.detect spinBehindNest d =
          [⟨1, [1], [1]⟩, ⟨7, [6, 7], [6]⟩, ⟨8, [4, 6, 7, 8], [4]⟩])
      | .error _ => false) = true := by decide +kernel
  obtain ⟨d, hd, -, hnested, -, -, -, hsmallest⟩ := loops_nested hg hs
  rw [hd] at hdetect
  have hloops := of_decide_eq_true hdetect
  rw [hloops] at hnested hsmallest
  obtain ⟨-, -, hleast⟩ := (hsmallest 6 ⟨7, [6, 7], [6]⟩).mp rfl
  refine ⟨hg, hs, d, hd, hloops, ?_, ?_⟩
  · exact ((hleast ⟨8, [4, 6, 7, 8], [4]⟩ (by decide) (by decide)).resolve_left (by decide)).1
  · have hfirst := (List.pairwise_cons.mp hnested).1 ⟨8, [4, 6, 7, 8], [4]⟩ (by decide)
    refine hfirst.resolve_right fun hin => ?_
    exact absurd (hin.1 (List.mem_singleton_self 1)) (by decide)

end Flowgraph

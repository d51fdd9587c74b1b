import Flowgraph.Proofs.Unroll.Isomorphism

/-!
# What replaces a natural loop

Whatever enters a natural loop enters it at the header, and unrolling leads it to the new header
instead.  So nothing of the old loop is reached any more, and everything that is new is reached: the
new header leads to the last copy of the chain and to the epilogue, and each copy of the chain leads
to the one before it through a latch.

* `NaturalLoop.Closed.exists_entering`: some edge enters the loop from outside.
* `NaturalLoop.Closed.inner_iff`: the entry leads to the whole body but the header.
* `CopiedLoop.reaches_fresh`: the new header leads to everything that is new.
* `Replaced.not_reaches_loop`, `Replaced.reaches_iff`: what is reached when the loop has been
  replaced.
* `natural_loop_replaced`: all of this for the loops of a graph that passes its audit.
-/

namespace Flowgraph

open Flowgraph.Graph

variable {g h : Graph} {d : Dominators} {l : NaturalLoop} {body : List NodeId}
  {start header entry exit newHeader epilogue chain n t c : NodeId} {factor i : Nat} {test : Expr}
  {config : UnrollConfig}

/-! ### How a natural loop is entered -/

namespace NaturalLoop.Closed

variable (hl : l.Closed g start)

include hl

/-- A way from a start outside of the loop into it has an edge to the header from outside. -/
theorem exists_entering (hout : start ∉ l.body) (hn : g.Reaches start n) (hmem : n ∈ l.body) :
    ∃ m, g.Reaches start m ∧ m ∉ l.body ∧ l.header ∈ g.succs m := by
  induction hn with
  | refl => exact absurd hmem hout
  | @tail m n hm hs ih =>
      by_cases hb : m ∈ l.body
      · exact ih hb
      · have he : n = l.header := by_contra fun hne => hb (hl.mem_of_succ hm hs hmem hne)
        exact ⟨m, hm, hb, he ▸ hs⟩

/-- The entry leads to the whole body but the header, since the header leads to all of it and the
first step is to the entry. -/
theorem inner_iff (hg : g.Linked) (he : Entry g l.body l.header entry)
    (hsuccs : g.succs l.header = [entry, exit]) (hexit : exit ∉ l.body) :
    g.Inner l.body l.header entry n ↔ n ∈ l.body ∧ n ≠ l.header := by
  refine ⟨fun hn => ⟨(he.inner hg hn).1, (he.inner hg hn).2.1⟩, fun ⟨hn, hne⟩ => ?_⟩
  rcases Relation.ReflTransGen.cases_head (hl.from_header hn) with hself | ⟨m, hstep, hrest⟩
  · exact absurd hself.symm hne
  · obtain ⟨hm, hb, -⟩ := hstep
    rw [hsuccs, List.mem_pair] at hm
    rcases hm with rfl | rfl
    · exact hrest
    · exact absurd hb hexit

end NaturalLoop.Closed

/-! ### What the new header leads to -/

namespace CopiedLoop

variable {inner : Finset NodeId} {copy : Nat → NodeId → NodeId}
  (hl : CopiedLoop g h body header entry exit factor test newHeader epilogue inner copy)
  (hinner : ∀ n, n ∈ inner ↔ g.Inner body header entry n)

include hl hinner

/-- A copy is reached as a whole from where it is entered. -/
theorem reaches_copy (hi : i ≤ factor) (hentry : h.Reaches start (copy i entry)) (hn : n ∈ inner) :
    h.Reaches start (copy i n) := by
  rw [hinner] at hn
  induction hn with
  | refl => exact hentry
  | @tail m n hm hstep ih =>
      refine ih.tail ?_
      rw [hl.succs_copy hi ((hinner m).mpr hm)]
      refine List.mem_map.mpr ⟨n, hstep.1, ?_⟩
      rw [if_neg hstep.2.2, if_pos ((hinner n).mpr (hm.tail hstep))]

variable (ht : t ∈ inner) (hback : header ∈ g.succs t) (hnew : h.Reaches start newHeader)

include ht hback hnew

/-- The copies of the chain are reached from the last one down, each through the latch of the one
after it. -/
theorem reaches_chain (hi : i ≤ factor) (hne : i ≠ 0) : h.Reaches start (copy i entry) := by
  induction hi using Nat.decreasingInduction with
  | self =>
      refine hnew.tail ?_
      rw [hl.succs_new]
      exact List.mem_cons_self
  | of_succ i hi ih =>
      obtain ⟨i, rfl⟩ := Nat.exists_eq_succ_of_ne_zero hne
      refine (hl.reaches_copy hinner hi (ih (Nat.succ_ne_zero _)) ht).tail ?_
      rw [hl.succs_copy hi ht]
      exact List.mem_map.mpr ⟨header, hback, if_pos rfl⟩

/-- The new header leads to everything that is new. -/
theorem reaches_fresh (hc : g.bound ≤ c ∧ h.isLive c = true) : h.Reaches start c := by
  have hepilogue : h.Reaches start epilogue := by
    refine hnew.tail ?_
    rw [hl.succs_new]
    exact List.mem_cons_of_mem _ List.mem_cons_self
  rcases hl.fresh_iff.mp hc with rfl | rfl | ⟨i, hi, n, hn, rfl⟩
  · exact hnew
  · exact hepilogue
  · refine hl.reaches_copy hinner hi ?_ hn
    by_cases hzero : i = 0
    · subst hzero
      refine hepilogue.tail ?_
      rw [hl.succs_epilogue]
      exact List.mem_cons_self
    · exact hl.reaches_chain hinner ht hback hnew hi hzero

end CopiedLoop

/-! ### When a natural loop has been replaced -/

namespace Replaced

variable {rest : NodeId → NodeId}
  (hr : Replaced g h l.body l.header entry exit factor test newHeader chain epilogue rest)
  (hl : l.Closed g start) (hout : start ∉ l.body)

include hr hl hout

/-- What entered the loop enters the new header. -/
theorem reaches_newHeader : h.Reaches start newHeader := by
  obtain ⟨m, hm, hmout, hs⟩ := hl.exists_entering hout (hl.reaches hl.header_mem) hl.header_mem
  refine (hr.reaches_of_not_mem hm hmout).tail ?_
  exact (hr.mem_succs_iff (lt_bound_of_isLive (isLive_of_mem_succs hs)) hmout).mpr (.inl ⟨rfl, hs⟩)

variable (hstart : g.isLive start = true)

include hstart

/-- Nothing leads into the old loop past its header, so it is not reached any more. -/
theorem not_reaches_loop (hn : n ∈ l.body) : ¬h.Reaches start n :=
  hr.not_reaches_body (lt_bound_of_isLive hstart) hout
    (fun _ hn => lt_bound_of_isLive (hr.linked.isLive_of_reaches hstart (hl.reaches hn)))
    hl.mem_of_succ hn

/-- What is reached is what was reached outside of the loop and whatever is new. -/
theorem reaches_iff (hh : h.Linked) (hlive : h.isLive start = true)
    (hfresh : ∀ {c}, g.bound ≤ c ∧ h.isLive c = true → h.Reaches start c) :
    h.Reaches start n ↔ g.Reaches start n ∧ n ∉ l.body ∨ g.bound ≤ n ∧ h.isLive n = true := by
  constructor
  · intro hreach
    rcases Nat.lt_or_ge n g.bound with hlt | hge
    · exact .inl ⟨hr.reaches_of_reaches (lt_bound_of_isLive hstart) hreach hlt,
        fun hn => hr.not_reaches_loop hl hout hstart hn hreach⟩
    · exact .inr ⟨hge, hh.isLive_of_reaches hlive hreach⟩
  · rintro (⟨hn, hb⟩ | hn)
    · exact hr.reaches_of_not_mem hn hb
    · exact hfresh hn

end Replaced

/-- A natural loop that is unrolled has been replaced, and its body without the header has been
copied. -/
theorem replaced_and_copied (hg : g.WellFormed) (hl : l.Closed g start)
    (hok : unrollLoop l.header l.body config g = .ok (.unrolled newHeader) h) :
    ∃ guard chain epilogue rest copy, Guard.analyze g l.header l.body config = .ok guard ∧
      Replaced g h l.body l.header guard.entry guard.exit config.factor
        (guard.lookahead (.ofNat (config.factor - 1))) newHeader chain epilogue rest ∧
      CopiedLoop g h l.body l.header guard.entry guard.exit config.factor
        (guard.lookahead (.ofNat (config.factor - 1))) newHeader epilogue
        (l.body.toFinset.erase l.header) copy ∧
      ∀ n, n ∈ l.body.toFinset.erase l.header ↔ g.Inner l.body l.header guard.entry n := by
  have hh := (proper_unrollLoop l.header l.body config).wellFormed_of_ok hok hg
  obtain ⟨guard, v, epilogue, rest, copy, mark, ha, hanalyzed, hentry, hslots⟩ :=
    slots_of_ok hg hl.header_mem hok
  obtain ⟨hfactor, -⟩ := Guard.analyze_ok ha
  have hinner n : n ∈ l.body.toFinset.erase l.header ↔
      g.Inner l.body l.header guard.entry n := by
    rw [Finset.mem_erase, List.mem_toFinset, and_comm,
      hl.inner_iff hg.toLinked hentry hanalyzed.succs_header hanalyzed.exit_not_mem]
  have hloop := hslots.copiedLoop hg.toLinked hentry (isLive_of_kind? hanalyzed.kind_header)
    hh.toLinked hfactor hinner
  exact ⟨guard, _, epilogue, rest, _, ha, ⟨hg.toLinked, hentry, hanalyzed.succs_header,
    hl.header_mem, hanalyzed.exit_not_mem, hslots.layout⟩, hloop, hinner⟩

/-- Unrolling a loop found in a graph that passes its audit replaces just this loop.  Nothing
of it is reached any more; what is reached is what was reached outside of it and everything that is
new.  Every node of the body but the header has been copied, once for the epilogue and once for each
round of the chain, and beside these copies only the new header and the epilogue are new. -/
theorem natural_loop_replaced (hg : Built g) (hv : g.verify = .ok ())
    (hd : Dominators.compute g = .ok d) (hl : l ∈ LoopForest.detect g d)
    (hok : unrollLoop l.header l.body config g = .ok (.unrolled newHeader) h) :
    ∃ start, g.start = some start ∧ h.start = some start ∧
      (∀ n ∈ l.body, g.Reaches start n ∧ ¬h.Reaches start n) ∧
      (∀ n, h.Reaches start n ↔
        g.Reaches start n ∧ n ∉ l.body ∨ g.bound ≤ n ∧ h.isLive n = true) ∧
      ∃ guard epilogue copy, Guard.analyze g l.header l.body config = .ok guard ∧
        CopiedLoop g h l.body l.header guard.entry guard.exit config.factor
          (guard.lookahead (.ofNat (config.factor - 1))) newHeader epilogue
          (l.body.toFinset.erase l.header) copy ∧
        h.count = g.count + (config.factor + 1) * (l.body.length - 1) + 2 := by
  have hw := hg.wellFormed
  obtain ⟨start, hs, hpreds, -⟩ := hw.verify_eq_ok_iff.mp hv
  have hclosed := (LoopForest.found_detect hw (Dominators.correct_of_compute hw hs hd)).closed l hl
  have hout := hclosed.start_not_mem hw.toLinked hpreds
  have hstart := hw.isLive_start hs
  obtain ⟨guard, chain, epilogue, rest, copy, ha, hr, hloop, hinner⟩ :=
    replaced_and_copied hw hclosed hok
  have hh := (proper_unrollLoop l.header l.body config).wellFormed_of_ok hok hw
  have hhs := (Stage.of_replaced hr (lt_bound_of_isLive hstart)).start_eq hw hh hs
  -- the entry lies in the body, so some latch lies behind it
  obtain ⟨t, ht, -, hlatch⟩ := hclosed.to_latch hr.entered.mem hr.entered.ne
  have hfresh {c : NodeId} := hloop.reaches_fresh (c := c) hinner ((hinner t).mpr hlatch)
    (hclosed.mem_latches.mp ht).1 (hr.reaches_newHeader hclosed hout)
  have hcard : (l.body.toFinset.erase l.header).card = l.body.length - 1 := by
    rw [Finset.card_erase_of_mem (List.mem_toFinset.mpr hclosed.header_mem),
      List.toFinset_card_of_nodup ((LoopForest.ascending_of_mem_detect hl).imp Nat.ne_of_lt)]
  exact ⟨start, hs, hhs,
    fun n hn => ⟨hclosed.reaches hn, hr.not_reaches_loop hclosed hout hstart hn⟩,
    fun n => hr.reaches_iff hclosed hout hstart hh.toLinked (hh.isLive_start hhs) hfresh,
    guard, epilogue, copy, ha, hloop, hcard ▸ hloop.count_eq⟩

/-- The outer loop of two: with it the inner one is left behind, and the return is still reached. -/
theorem natural_loop_replaced_innerBeside :
    Built innerBeside ∧ innerBeside.verify = .ok () ∧
      ∃ d newHeader h, Dominators.compute innerBeside = .ok d ∧
        ⟨8, [2, 4, 5, 6, 7, 8], [2]⟩ ∈ LoopForest.detect innerBeside d ∧
        unrollLoop 8 [2, 4, 5, 6, 7, 8] (.withFactor 2 10) innerBeside =
          .ok (.unrolled newHeader) h ∧
        ¬h.Reaches 9 5 ∧ h.Reaches 9 0 ∧ h.count = 25 := by
  have hv : innerBeside.verify = .ok () := by decide +kernel
  have hrun : (match Dominators.compute innerBeside,
        unrollLoop 8 [2, 4, 5, 6, 7, 8] (.withFactor 2 10) innerBeside with
      | .ok d, .ok (.unrolled _) _ =>
          decide (⟨8, [2, 4, 5, 6, 7, 8], [2]⟩ ∈ LoopForest.detect innerBeside d)
      | _, _ => false) = true := by decide +kernel
  split at hrun
  case h_1 d newHeader h hd hok =>
    have hl := of_decide_eq_true hrun
    obtain ⟨start, hs, -, hbody, hreached, guard, epilogue, copy, -, -, hcount⟩ :=
      natural_loop_replaced built_innerBeside hv hd hl hok
    obtain rfl : 9 = start := Option.some.inj (hs ▸ by decide +kernel)
    have hbefore : innerBeside.count = 8 := by decide +kernel
    rw [hbefore] at hcount
    refine ⟨built_innerBeside, hv, d, newHeader, h, hd, hl, hok, (hbody 5 (by decide)).2,
      (hreached 0).mpr (.inl ⟨?_, by decide⟩), hcount⟩
    exact .head (b := 8) (by decide +kernel : 8 ∈ innerBeside.succs 9)
      (.single (by decide +kernel : 0 ∈ innerBeside.succs 8))
  case h_2 => cases hrun

end Flowgraph

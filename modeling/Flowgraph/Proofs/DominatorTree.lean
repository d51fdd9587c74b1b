import Flowgraph.Proofs.BitSetMembers
import Flowgraph.Proofs.Dominance

/-!
# The tree of dominators

Of two dominators of a node one dominates the other, as a path to the one that avoids the other
would go on to the node.  A node has more dominators than any of its strict dominators, so that the
strict dominator with the most of them is the one that all others dominate.  From it the next one is
taken in the same way, and this passes through all of them and ends at the start.

* `Graph.Dominates.trans`, `Graph.Dominates.antisymm`, `Graph.Dominates.chain`: dominance as an
  order.
* `Dominators.depth_lt`: a node lies deeper than its strict dominators.
* `Dominators.immediate?_eq_none_iff`, `Dominators.immediate?_eq_some_iff`: what is taken for a
  node.
* `Dominators.ancestor?`: what is taken again and again.
* `immediate_dominators_form_tree`: all of this on built graphs.
-/

namespace Flowgraph

open Flowgraph.Graph

variable {g : Graph} {start a b c m n : NodeId} {d : Dominators}

/-! ### Dominance as an order -/

namespace Graph

theorem dominates_of_start (h : g.Reaches start b) : g.Dominates start start b := by
  refine ⟨h, fun ns hns => ?_⟩
  obtain ⟨ms, rfl⟩ := hns.exists_eq_cons
  exact List.mem_cons_self

namespace Dominates

/-- Dominance is transitive. -/
theorem trans (hab : g.Dominates start a b) (hbc : g.Dominates start b c) :
    g.Dominates start a c := by
  refine ⟨hbc.1, fun ns hns => ?_⟩
  obtain ⟨ms, ks, rfl, -, hms⟩ := hns.exists_first (hbc.2 ns hns)
  rcases List.mem_append.mp (hab.2 _ hms) with ha | ha
  · exact List.mem_append_left _ ha
  · exact List.mem_append_right _ (List.mem_singleton.mp ha ▸ List.mem_cons_self)

/-- Of two different nodes, one does not dominate the other. -/
theorem antisymm (hab : g.Dominates start a b) (hba : g.Dominates start b a) : a = b := by
  by_contra hne
  obtain ⟨ns, hns⟩ := exists_path hba.1
  -- before the path gets to `a` for the first time it passes `b`, and before that it passes `a`
  obtain ⟨ms, ks, rfl, hfirst, hms⟩ := hns.exists_first hns.right_mem
  have hb : b ∈ ms := by
    refine (List.mem_append.mp (hba.2 _ hms)).resolve_right fun hb => hne ?_
    exact (List.mem_singleton.mp hb).symm
  obtain ⟨before, after, rfl⟩ := List.append_of_mem hb
  rw [List.append_assoc, List.cons_append] at hms
  rcases List.mem_append.mp (hab.2 _ (Path.append_iff.mp hms).1) with ha | ha
  · exact hfirst (List.mem_append_left _ ha)
  · exact hne (List.mem_singleton.mp ha)

/-- Of two dominators of a node one dominates the other. -/
theorem chain (ha : g.Dominates start a n) (hb : g.Dominates start b n) :
    g.Dominates start a b ∨ g.Dominates start b a := by
  refine or_iff_not_imp_left.mpr fun hno => ⟨ha.reaches_left, fun ns hns => ?_⟩
  obtain ⟨around, haround, hout⟩ : ∃ ps, g.Path start b ps ∧ a ∉ ps := by
    by_contra h
    exact hno ⟨hb.reaches_left, fun ps hps => by_contra fun hout => h ⟨ps, hps, hout⟩⟩
  obtain ⟨ps, hps⟩ := exists_path ha.1
  obtain ⟨ks, hks, hnever⟩ := reachesBy_iff.mp (hps.reachesBy_of_mem (ha.2 ps hps))
  -- were `b` passed after `a`, the path around `a` could go on from there
  have hlater : b ∉ ks := by
    intro hmem
    obtain ⟨ks, ls, rfl⟩ := List.append_of_mem hmem
    have hall : g.Path a n ((a :: ks) ++ b :: ls) := hks
    have hrest : g.Path b n (b :: ls) := (Path.append_iff.mp hall).2
    rcases List.mem_append.mp (ha.2 _ (haround.append hrest)) with h | h
    · exact hout h
    · exact hnever a (List.mem_append_right _ (List.mem_cons_of_mem _ h)) rfl
  exact (List.mem_append.mp (hb.2 _ (hns.append hks))).resolve_right hlater

end Dominates

end Graph

/-! ### The deepest strict dominator -/

namespace Dominators

/-- The deepest of some nodes is one of them, and none is deeper. -/
theorem exists_foldl_deeper (best : NodeId × Nat) (ms : List (NodeId × Nat)) :
    ∃ m ∈ best :: ms, ms.foldl deeper (some best) = some m ∧ ∀ x ∈ best :: ms, x.2 ≤ m.2 := by
  induction ms generalizing best with
  | nil => exact ⟨best, List.mem_cons_self, rfl, by simp⟩
  | cons x ms ih =>
      rw [List.foldl_cons, deeper]
      split
      · next hlt =>
          obtain ⟨m, hm, hfold, hmax⟩ := ih best
          refine ⟨m, List.cons_subset_cons _ (List.subset_cons_self ..) hm, hfold, ?_⟩
          have hbest : best.2 ≤ m.2 := hmax best List.mem_cons_self
          simp only [List.forall_mem_cons] at hmax ⊢
          exact ⟨hbest, by omega, hmax.2⟩
      · next hle =>
          obtain ⟨m, hm, hfold, hmax⟩ := ih x
          refine ⟨m, List.mem_cons_of_mem _ hm, hfold, ?_⟩
          have hx : x.2 ≤ m.2 := hmax x List.mem_cons_self
          exact List.forall_mem_cons.mpr ⟨by omega, hmax⟩

section Computed

variable (hg : g.WellFormed) (hs : g.start = some start) (hd : Dominators.compute g = .ok d)

include hg hs hd

/-- The set of a node lists its dominators. -/
theorem exists_of? (hn : g.Reaches start n) :
    ∃ s, d.of? n = some s ∧ ∀ a, a ∈ s.toList ↔ g.Dominates start a n := by
  obtain ⟨d', hd', -, -, hsome⟩ := compute_spec hg hs
  obtain rfl : d' = d := Except.ok.inj (hd'.symm.trans hd)
  obtain ⟨-, s, hof, -, hbit⟩ := hsome n ((hg.mem_reachable hs).mpr hn)
  exact ⟨s, hof, fun a => BitSet.mem_toList.trans (hbit a)⟩

/-- A strict dominator has fewer dominators. -/
theorem depth_lt (hab : g.Dominates start a b) (hne : a ≠ b) : d.depth a < d.depth b := by
  obtain ⟨s, hs', hmem⟩ := exists_of? hg hs hd hab.reaches_left
  obtain ⟨t, ht, hmem'⟩ := exists_of? hg hs hd hab.1
  have hdepth {n : NodeId} {s : NodeSet} (h : d.of? n = some s) : d.depth n = s.toList.length := by
    rw [depth, h]
    exact BitSet.count_eq_length_toList s.bits
  rw [hdepth hs', hdepth ht]
  have hnodup : (b :: s.toList).Nodup := by
    refine List.nodup_cons.mpr ⟨fun hb => hne (hab.antisymm ((hmem b).mp hb)), ?_⟩
    exact (BitSet.ascending_toList s.bits).imp Nat.ne_of_lt
  refine (List.subperm_of_subset hnodup (List.cons_subset.mpr ⟨?_, fun c hc => ?_⟩)).length_le
  · exact (hmem' b).mpr (dominates_self hab.1)
  · exact (hmem' c).mpr (((hmem c).mp hc).trans hab)

/-- What is taken for a node is the deepest of its strict dominators. -/
theorem immediate?_cases (hn : g.Reaches start n) :
    (d.immediate? n = none ∧ ∀ a, g.Dominates start a n → a = n) ∨
      ∃ m, d.immediate? n = some m ∧ m ≠ n ∧ g.Dominates start m n ∧
        ∀ a, a ≠ n → g.Dominates start a n → d.depth a ≤ d.depth m := by
  obtain ⟨s, hof, hmem⟩ := exists_of? hg hs hd hn
  have hstrict {a : NodeId} : a ∈ s.toList.filter (fun m => m ≠ n) ↔
      a ≠ n ∧ g.Dominates start a n := by
    rw [List.mem_filter, hmem, decide_eq_true_eq, and_comm]
  have himm : d.immediate? n = (((s.toList.filter fun m => m ≠ n).map fun m =>
      (m, d.depth m)).foldl deeper none).map Prod.fst := by
    rw [immediate?, hof]
    rfl
  rw [himm]
  cases hl : s.toList.filter (fun m => m ≠ n) with
  | nil =>
      refine .inl ⟨rfl, fun a ha => by_contra fun hne => ?_⟩
      exact List.not_mem_nil (hl ▸ hstrict.mpr ⟨hne, ha⟩)
  | cons x xs =>
      obtain ⟨y, hy, hfold, hmax⟩ :=
        exists_foldl_deeper (x, d.depth x) (xs.map fun m => (m, d.depth m))
      rw [← List.map_cons (f := fun m => (m, d.depth m)), ← hl] at hy hmax
      obtain ⟨m, hm, rfl⟩ := List.mem_map.mp hy
      obtain ⟨hne, hdom⟩ := hstrict.mp hm
      refine .inr ⟨m, congrArg (Option.map Prod.fst) hfold, hne, hdom, fun a ha hadom => ?_⟩
      exact hmax (a, d.depth a) (List.mem_map_of_mem (hstrict.mpr ⟨ha, hadom⟩))

/-- A node that the start does not lead to has no immediate dominator. -/
theorem immediate?_of_not_reaches (hn : ¬g.Reaches start n) : d.immediate? n = none := by
  obtain ⟨d', hd', -, hnone, -⟩ := compute_spec hg hs
  obtain rfl : d' = d := Except.ok.inj (hd'.symm.trans hd)
  rw [immediate?, (hnone n (mt (hg.mem_reachable hs).mp hn)).1]
  rfl

/-- Nothing is taken for the start and for what it does not lead to. -/
theorem immediate?_eq_none_iff : d.immediate? n = none ↔ ¬g.Reaches start n ∨ n = start := by
  by_cases hn : g.Reaches start n
  · rw [or_iff_right (not_not_intro hn)]
    rcases immediate?_cases hg hs hd hn with ⟨hnone, hself⟩ | ⟨m, hsome, hne, hdom, -⟩
    · exact iff_of_true hnone (hself start (dominates_of_start hn)).symm
    · rw [hsome]
      exact iff_of_false nofun fun he => hne ((dominates_start_iff.mp (he ▸ hdom)).trans he.symm)
  · exact iff_of_true (immediate?_of_not_reaches hg hs hd hn) (.inl hn)

/-- For any other node the strict dominator is taken that all strict dominators dominate. -/
theorem immediate?_eq_some_iff :
    d.immediate? n = some m ↔ (m ≠ n ∧ g.Dominates start m n) ∧
      ∀ a, a ≠ n → g.Dominates start a n → g.Dominates start a m := by
  by_cases hn : g.Reaches start n
  · rcases immediate?_cases hg hs hd hn with ⟨hnone, hself⟩ | ⟨k, hsome, hne, hdom, hdeep⟩
    · rw [hnone]
      exact iff_of_false nofun fun h => h.1.1 (hself m h.1.2)
    · -- a strict dominator that does not dominate the deepest one would lie deeper
      have hall : ∀ a, a ≠ n → g.Dominates start a n → g.Dominates start a k := by
        intro a ha hadom
        refine (hadom.chain hdom).elim id fun hka => ?_
        by_cases he : k = a
        · exact he ▸ dominates_self hdom.reaches_left
        · exact absurd (depth_lt hg hs hd hka he) (Nat.not_lt.mpr (hdeep a ha hadom))
      rw [hsome, Option.some.injEq]
      constructor
      · rintro rfl
        exact ⟨⟨hne, hdom⟩, hall⟩
      · rintro ⟨⟨hmn, hm⟩, hmall⟩
        exact (hmall k hne hdom).antisymm (hall m hmn hm)
  · rw [immediate?_of_not_reaches hg hs hd hn]
    exact iff_of_false nofun fun h => hn h.1.2.1

end Computed

/-! ### Going up -/

/-- Where so many immediate dominators lead from `n`. -/
def ancestor? (d : Dominators) : Nat → NodeId → Option NodeId
  | 0, n => some n
  | k + 1, n => (d.immediate? n).bind (d.ancestor? k)

theorem ancestor?_succ (d : Dominators) (k : Nat) (n : NodeId) :
    d.ancestor? (k + 1) n = (d.ancestor? k n).bind d.immediate? := by
  induction k generalizing n with
  | zero =>
      rw [ancestor?, ancestor?, Option.bind_some]
      exact Option.bind_fun_some _
  | succ k ih =>
      rw [ancestor?, ancestor?, Option.bind_assoc]
      exact congrArg _ (funext ih)

section Computed

variable (hg : g.WellFormed) (hs : g.start = some start) (hd : Dominators.compute g = .ok d)

include hg hs hd

/-- Every proper ancestor is a strict dominator. -/
theorem strict_of_ancestor? {k : Nat} (h : d.ancestor? (k + 1) n = some a) :
    a ≠ n ∧ g.Dominates start a n := by
  induction k generalizing n with
  | zero =>
      obtain ⟨m, hm, ha⟩ := Option.bind_eq_some_iff.mp h
      obtain rfl := Option.some.inj ha
      exact ((immediate?_eq_some_iff hg hs hd).mp hm).1
  | succ k ih =>
      obtain ⟨m, hm, ha⟩ := Option.bind_eq_some_iff.mp h
      obtain ⟨hne, hdom⟩ := ((immediate?_eq_some_iff hg hs hd).mp hm).1
      obtain ⟨hne', hdom'⟩ := ih ha
      refine ⟨fun he => hne' ?_, hdom'.trans hdom⟩
      exact hdom'.antisymm (he ▸ hdom)

/-- Going up meets every strict dominator. -/
theorem exists_ancestor? (hne : a ≠ n) (hdom : g.Dominates start a n) :
    ∃ k, d.ancestor? (k + 1) n = some a := by
  -- by induction on the depth of the node, as what is taken for it lies less deep
  induction hdepth : d.depth n using Nat.strongRecOn generalizing n with
  | ind depth ih =>
      obtain ⟨m, hm⟩ : ∃ m, d.immediate? n = some m := by
        refine Option.ne_none_iff_exists'.mp fun hnone => hne ?_
        have hn := ((immediate?_eq_none_iff hg hs hd).mp hnone).resolve_left (not_not_intro hdom.1)
        exact (dominates_start_iff.mp (hn ▸ hdom)).trans hn.symm
      obtain ⟨⟨hmn, hmdom⟩, hall⟩ := (immediate?_eq_some_iff hg hs hd).mp hm
      by_cases he : a = m
      · exact ⟨0, by rw [ancestor?, hm, Option.bind_some, ancestor?, he]⟩
      · have hlt : d.depth m < depth := hdepth ▸ depth_lt hg hs hd hmdom hmn
        obtain ⟨k, hk⟩ := ih _ hlt he (hall a hne hdom) rfl
        exact ⟨k + 1, by rw [ancestor?, hm, Option.bind_some, hk]⟩

/-- Going up from any node ends at the start. -/
theorem exists_ancestor?_start (hn : g.Reaches start n) :
    ∃ k, d.ancestor? k n = some start ∧ d.ancestor? (k + 1) n = none := by
  obtain ⟨k, hk⟩ : ∃ k, d.ancestor? k n = some start := by
    by_cases he : n = start
    · exact ⟨0, congrArg some he⟩
    · obtain ⟨k, hk⟩ := exists_ancestor? hg hs hd (Ne.symm he) (dominates_of_start hn)
      exact ⟨k + 1, hk⟩
  refine ⟨k, hk, ?_⟩
  rw [ancestor?_succ, hk, Option.bind_some]
  exact (immediate?_eq_none_iff hg hs hd).mpr (.inr rfl)

end Computed

end Dominators

/-- The dominators of a built graph with a start are computed.  Of two different nodes one strictly
dominates the other when the start leads to the other on no path around the one.  The start and the
nodes that it does not lead to have no immediate dominator; every other node has the one strict
dominator that all of its strict dominators dominate.  Going from immediate dominator to immediate
dominator, one meets exactly the strict dominators, and in the end the start. -/
theorem immediate_dominators_form_tree (hg : Built g) (hs : g.start = some start) :
    ∃ d, Dominators.compute g = .ok d ∧
      (∀ a b, d.strictlyDominates a b = true ↔
        a ≠ b ∧ g.Reaches start b ∧ ∀ ns, g.Path start b ns → a ∈ ns) ∧
      (∀ n, d.immediate? n = none ↔ ¬g.Reaches start n ∨ n = start) ∧
      (∀ n, g.Reaches start n → n ≠ start → ∃! m, d.strictlyDominates m n = true ∧
        ∀ a, d.strictlyDominates a n = true → d.dominates a m = true) ∧
      (∀ n m, d.immediate? n = some m ↔ d.strictlyDominates m n = true ∧
        ∀ a, d.strictlyDominates a n = true → d.dominates a m = true) ∧
      (∀ a n, d.strictlyDominates a n = true ↔ ∃ k, d.ancestor? (k + 1) n = some a) ∧
      ∀ n, g.Reaches start n →
        ∃ k, d.ancestor? k n = some start ∧ d.ancestor? (k + 1) n = none := by
  have hw := hg.wellFormed
  obtain ⟨d, hd, -⟩ := Dominators.compute_spec hw hs
  have hcorrect := Dominators.correct_of_compute hw hs hd
  have hstrict {a b : NodeId} :
      d.strictlyDominates a b = true ↔ a ≠ b ∧ g.Dominates start a b := by
    rw [Dominators.strictlyDominates, Bool.and_eq_true, bne_iff_ne, hcorrect.dominates_iff]
  have hnone {n : NodeId} := Dominators.immediate?_eq_none_iff hw hs hd (n := n)
  have hsome {n m : NodeId} : d.immediate? n = some m ↔ d.strictlyDominates m n = true ∧
      ∀ a, d.strictlyDominates a n = true → d.dominates a m = true := by
    simp only [Dominators.immediate?_eq_some_iff hw hs hd, hstrict, hcorrect.dominates_iff, and_imp]
  refine ⟨d, hd, fun a b => hstrict, fun n => hnone, fun n hn hne => ?_, fun n m => hsome,
    fun a n => ?_, fun n => Dominators.exists_ancestor?_start hw hs hd⟩
  · obtain ⟨m, hm⟩ : ∃ m, d.immediate? n = some m :=
      Option.ne_none_iff_exists'.mp fun h => (hnone.mp h).elim (fun h => h hn) hne
    exact ⟨m, hsome.mp hm, fun k hk => Option.some.inj ((hsome.mpr hk).symm.trans hm)⟩
  · rw [hstrict]
    exact ⟨fun h => Dominators.exists_ancestor? hw hs hd h.1 h.2,
      fun ⟨k, hk⟩ => Dominators.strict_of_ancestor? hw hs hd hk⟩

/-- A branch on `d` to either node of a cycle, of which one goes on to the return as well. -/
def twoEntries : Graph :=
  after (Edit.addStart 4) (after (Edit.addBranch (.temp "d") 2 3) (after (Edit.substituteStub 1 3)
    (after (Edit.addBranch (.temp "c") 2 0) (after (Edit.addAssign "x" (.const 1) 1)
      (after Edit.addStub (after Edit.addReturn .empty))))))

/-- Neither node of the cycle dominates the other, so that both have the branch in front of them as
their immediate dominator. -/
theorem immediate_dominators_form_tree_twoEntries :
    Built twoEntries ∧ twoEntries.start = some 5 ∧ twoEntries.succs 2 = [3] ∧
      twoEntries.succs 3 = [2, 0] ∧
      ∃ d, Dominators.compute twoEntries = .ok d ∧ d.immediate? 2 = some 4 ∧
        d.immediate? 3 = some 4 ∧ d.immediate? 0 = some 3 ∧ d.immediate? 5 = none ∧
        d.strictlyDominates 2 3 = false ∧ d.strictlyDominates 3 2 = false ∧
        (∀ a, d.strictlyDominates a 0 = true → d.dominates a 3 = true) ∧
        (∃ k, d.ancestor? (k + 1) 0 = some 4) ∧ ∃ k, d.ancestor? k 0 = some 5 := by
  have hg : Built twoEntries :=
    .tail (.tail (.tail (.tail (.tail (.tail (.single (.addReturn _)) (.addStub _))
      (.addAssign _ _ _ _)) (.addBranch _ _ _ _)) (.substituteStub _ _ _)) (.addBranch _ _ _ _))
      (.addStart _ _)
  have hs : twoEntries.start = some 5 := by decide +kernel
  obtain ⟨d, hd, -, -, -, hsome, hstrict, hroot⟩ := immediate_dominators_form_tree hg hs
  have htree : (Dominators.compute twoEntries).toOption.map (fun d =>
      [d.immediate? 2, d.immediate? 3, d.immediate? 0, d.immediate? 5]) =
        some [some 4, some 4, some 3, none] := by decide +kernel
  have hcycle : (Dominators.compute twoEntries).toOption.map (fun d =>
      [d.strictlyDominates 2 3, d.strictlyDominates 3 2, d.strictlyDominates 4 0]) =
        some [false, false, true] := by decide +kernel
  have hreach : twoEntries.Reaches 5 0 :=
    .head (b := 4) (by decide +kernel : 4 ∈ twoEntries.succs 5)
      (.head (b := 3) (by decide +kernel : 3 ∈ twoEntries.succs 4)
        (.single (by decide +kernel : 0 ∈ twoEntries.succs 3)))
  rw [hd] at htree hcycle
  injection htree with htree
  injection hcycle with hcycle
  simp only [List.cons.injEq, and_true] at htree hcycle
  obtain ⟨htwo, hthree, hzero, hfive⟩ := htree
  obtain ⟨k, hk, -⟩ := hroot 0 hreach
  exact ⟨hg, hs, by decide +kernel, by decide +kernel, d, hd, htwo, hthree, hzero, hfive, hcycle.1,
    hcycle.2.1, ((hsome 0 3).mp hzero).2, (hstrict 4 0).mp hcycle.2.2, k, hk⟩

end Flowgraph

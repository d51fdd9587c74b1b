import Flowgraph.Proofs.NaturalLoops
import Flowgraph.Proofs.Unroll.Behaviour
import Mathlib.Algebra.Group.Basic
import Mathlib.Algebra.Group.Int.Defs

/-!
# Trips around a loop that is unrolled

The variable of a guard is written by one node of the body, which changes it by a stride.  So the
variable counts how often a run passes that node.  It does not count the trips around the loop: when
the update lies on an inner loop, one trip passes it as often as the inner loop turns, and nothing
that is asked of a loop before it is unrolled excludes this.

* `Graph.Passage`: a way through the body.
* `NaturalLoop.Closed.count_le_one_iff`: a node is passed once in a trip if no way through the body
  leads from it back to it.
* `temps_run`: the variable along a run through the body.
* `unrolled_trips`: both, for every loop that is found and unrolled.
-/

namespace Flowgraph

open Flowgraph.Graph Machine

variable {g h : Graph} {body ns ms : List NodeId} {header a b c n newHeader start : NodeId}
  {l : NaturalLoop}

/-! ### Ways through a body -/

namespace Graph

/-- Edges lead from `a` to `b` through the nodes of the list, which are nodes of the body other than
the header. -/
def Passage (g : Graph) (body : List NodeId) (header a b : NodeId) (ns : List NodeId) : Prop :=
  g.Path a b (a :: (ns ++ [b])) ∧ ∀ n ∈ ns, n ∈ body ∧ n ≠ header

/-- There is a way through the body to every successor of a node that is entered. -/
theorem exists_passage_iff :
    (∃ ns, g.Passage body header a b ns) ↔ ∃ m, g.Inner body header a m ∧ b ∈ g.succs m :=
  exists_path_snoc_iff

/-- A way through the body can be cut at any node on it. -/
theorem passage_append_iff :
    g.Passage body header a c (ns ++ b :: ms) ↔
      g.Passage body header a b ns ∧ (b ∈ body ∧ b ≠ header) ∧ g.Passage body header b c ms := by
  have hlist : a :: ((ns ++ b :: ms) ++ [c]) = (a :: ns) ++ b :: (ms ++ [c]) := by simp
  rw [Passage, Passage, Passage, hlist, Path.append_iff, List.cons_append, List.forall_mem_append,
    List.forall_mem_cons]
  tauto

theorem passage_nil_iff : g.Passage body header a b [] ↔ b ∈ g.succs a := by
  refine ⟨fun h => ?_, fun h => ⟨.cons h (.single b), nofun⟩⟩
  cases h.1 with
  | cons hs hns =>
      obtain ⟨ms, hms⟩ := hns.exists_eq_cons
      exact (List.cons.inj hms).1 ▸ hs

end Graph

/-- A way through the body leads from the header to any other node of it. -/
theorem NaturalLoop.Closed.exists_passage_from (hl : l.Closed g start) (hn : n ∈ l.body)
    (hne : n ≠ l.header) : ∃ ns, g.Passage l.body l.header l.header n ns := by
  rcases Relation.ReflTransGen.cases_tail (hl.from_header hn) with he | ⟨m, hm, hs⟩
  · exact absurd he hne
  · exact exists_passage_iff.mpr ⟨m, hm, hs.1⟩

/-- A way through the body leads from any other node of it back to the header. -/
theorem NaturalLoop.Closed.exists_passage_back (hl : l.Closed g start) (hn : n ∈ l.body)
    (hne : n ≠ l.header) : ∃ ns, g.Passage l.body l.header n l.header ns := by
  obtain ⟨t, ht, -, hinner⟩ := hl.to_latch hn hne
  exact exists_passage_iff.mpr ⟨t, hinner, (hl.mem_latches.mp ht).1⟩

/-- A list that has an element twice has it in two places. -/
theorem exists_eq_of_two_le_count (h : 2 ≤ ns.count a) :
    ∃ as bs cs, ns = as ++ a :: (bs ++ a :: cs) := by
  have hmem : a ∈ ns := List.count_pos_iff.mp (Nat.lt_of_lt_of_le Nat.zero_lt_two h)
  obtain ⟨as, rest, rfl, has⟩ := List.eq_append_cons_of_mem hmem
  rw [List.count_append, List.count_cons_self, List.count_eq_zero_of_not_mem has, Nat.zero_add] at h
  obtain ⟨bs, cs, rfl⟩ := List.append_of_mem (List.count_pos_iff.mp (Nat.lt_of_succ_lt_succ h))
  exact ⟨as, bs, cs, rfl⟩

/-- Every trip around a loop passes a node of the body at most once exactly if no way through the
body leads from the node back to it. -/
theorem NaturalLoop.Closed.count_le_one_iff (hl : l.Closed g start) (hn : n ∈ l.body)
    (hne : n ≠ l.header) :
    (∀ ns, g.Passage l.body l.header l.header l.header ns → ns.count n ≤ 1) ↔
      ∀ ns, ¬g.Passage l.body l.header n n ns := by
  constructor
  · intro hcount bs hbs
    -- from the header to the node, once around, and back to the header
    obtain ⟨as, has⟩ := hl.exists_passage_from hn hne
    obtain ⟨cs, hcs⟩ := hl.exists_passage_back hn hne
    have htrip := hcount _ (passage_append_iff.mpr
      ⟨has, ⟨hn, hne⟩, passage_append_iff.mpr ⟨hbs, ⟨hn, hne⟩, hcs⟩⟩)
    rw [List.count_append, List.count_cons_self, List.count_append, List.count_cons_self] at htrip
    omega
  · intro hno ns hns
    by_contra hcount
    obtain ⟨as, bs, cs, rfl⟩ := exists_eq_of_two_le_count (Nat.lt_of_not_le hcount)
    exact hno bs (passage_append_iff.mp (passage_append_iff.mp hns).2.2).1

/-! ### The variable along a run -/

variable {M : Machine Int} {v : InductionVar} {config : UnrollConfig} {d : Dominators}

/-- Along a run through the body an induction variable makes one stride for every pass of its
update. -/
theorem temps_run (hg : g.Linked) (hM : M.Exact) (hv : v ∈ inductionVars g body) (c : Config Int)
    (k : Nat) (hb : ∀ i < k, (M.run g i c).node ∈ body) :
    (M.run g k c).state.temps v.name =
      c.state.temps v.name + v.stride.toInt * M.visits g v.update k c := by
  obtain ⟨-, ⟨value, hkind, -⟩, -⟩ := mem_inductionVars hv
  have hgoes (s : Snapshot Int) : M.step g ⟨v.update, s⟩ ≠ none := by
    obtain ⟨m, -, hstep⟩ := exists_step (M := M) (c := ⟨v.update, s⟩) hg hkind Nat.one_ne_zero
    rw [hstep]
    exact Option.some_ne_none _
  have hns : ∀ n ∈ M.trail g k c, n ∈ body := fun n hn => by
    obtain ⟨i, hi, rfl⟩ := exists_of_mem_trail hn
    exact hb i hi
  have hM' : M.Updates v (· + v.stride.toInt) := fun _ _ h => hM.eval_selfIncrement h
  rw [(along_trail k c).temps_eq hns hM' hv, count_trail hgoes, add_right_iterate, Int.nsmul_eq_mul,
    Int.mul_comm]

/-! ### Loops that are unrolled -/

/-- Take a loop that is found in a graph that passes its audit, and that is unrolled.  Its header
tests a variable that one node of the body changes by a constant stride: along every run through the
body the variable makes one stride for each pass of this update.  A trip around the loop passes the
update at most once, so that the stride is the change in one iteration, exactly if the update lies
on no inner loop, that is, if no way through the body leads from it back to it without passing the
header. -/
theorem unrolled_trips (hg : Built g) (hv : g.verify = .ok ()) (hd : Dominators.compute g = .ok d)
    (hl : l ∈ LoopForest.detect g d)
    (hok : unrollLoop l.header l.body config g = .ok (.unrolled newHeader) h) :
    ∃ v ∈ inductionVars g l.body,
      (∃ op bound, g.kind? l.header = some (.branch (.binop op (.temp v.name) bound))) ∧
      (∀ {M : Machine Int}, M.Exact → ∀ c k, (∀ i < k, (M.run g i c).node ∈ l.body) →
        (M.run g k c).state.temps v.name =
          c.state.temps v.name + v.stride.toInt * M.visits g v.update k c) ∧
      ((∀ ns, g.Passage l.body l.header l.header l.header ns → ns.count v.update ≤ 1) ↔
        ∀ ns, ¬g.Passage l.body l.header v.update v.update ns) := by
  have hw := hg.wellFormed
  obtain ⟨start, hs, -⟩ := hw.verify_eq_ok_iff.mp hv
  have hclosed : l.Closed g start :=
    (LoopForest.found_detect hw (Dominators.correct_of_compute hw hs hd)).closed l hl
  obtain ⟨guard, ha, -⟩ := unrollLoop_ok hok
  obtain ⟨-, v, hanalyzed⟩ := Guard.analyze_ok ha
  have hkind := hanalyzed.kind_header
  obtain ⟨hmem, ⟨value, hvalue, -⟩, -⟩ := mem_inductionVars hanalyzed.var_mem
  -- the update is an assignment and the header is a branch
  have hne : v.update ≠ l.header := fun e => by
    rw [e, hkind] at hvalue
    cases hvalue
  exact ⟨v, hanalyzed.var_mem, ⟨guard.op, guard.bound, hanalyzed.name_eq ▸ hkind⟩,
    fun hM => temps_run hw.toLinked hM hanalyzed.var_mem, hclosed.count_le_one_iff hmem hne⟩

/-! ### A loop around its own update -/

/-- While `i` is below `n`, an inner loop counts it up to the next multiple of three. -/
def stepsOfThree : Graph :=
  after (Edit.addStart 5) (after (Edit.substituteStub 2 5)
    (after (Edit.addBranch (.binop .lt (.temp "i") (.temp "n")) 3 0)
      (after (Edit.substituteStub 1 4)
        (after (Edit.addBranch (.binop .eq (.binop .mod (.temp "i") (.const 3)) (.const 0)) 2 3)
          (after (Edit.addAssign "i" (.binop .add (.temp "i") (.const 1)) 1)
            (after Edit.addStub (after Edit.addStub (after Edit.addReturn .empty))))))))

theorem built_stepsOfThree : Built stepsOfThree :=
  .tail (.tail (.tail (.tail (.tail (.tail (.tail (.tail (.single (.addReturn _)) (.addStub _))
    (.addStub _)) (.addAssign _ _ _ _)) (.addBranch _ _ _ _)) (.substituteStub _ _ _))
    (.addBranch _ _ _ _)) (.substituteStub _ _ _)) (.addStart _ _)

/-- The outer loop is found, with the inner loop in its body. -/
theorem detect_stepsOfThree :
    ∃ d, Dominators.compute stepsOfThree = .ok d ∧
      LoopForest.detect stepsOfThree d = [⟨5, [3, 4, 5], [4]⟩] := by
  have hdetect : (match Dominators.compute stepsOfThree with
      | .ok d => decide (LoopForest.detect stepsOfThree d = [⟨5, [3, 4, 5], [4]⟩])
      | .error _ => false) = true := by decide +kernel
  split at hdetect
  case h_1 d hd => exact ⟨d, hd, of_decide_eq_true hdetect⟩
  case h_2 => cases hdetect

theorem inductionVars_stepsOfThree :
    inductionVars stepsOfThree [3, 4, 5] = [⟨"i", 1, 3, .add⟩] := by decide +kernel

/-- `n` is three, and everything else is zero. -/
def upToThree : Snapshot Int := ⟨fun x => if x = "n" then 3 else 0, fun _ => 0, []⟩

theorem unrollLoop_stepsOfThree :
    ∃ newHeader h, unrollLoop 5 [3, 4, 5] (.withFactor 2 10) stepsOfThree =
        .ok (.unrolled newHeader) h ∧ h.start = some 6 ∧
      h.kind? ((integers fun _ _ => 0).run h 20 ⟨6, upToThree⟩).node = some .ret ∧
      ((integers fun _ _ => 0).run h 20 ⟨6, upToThree⟩).state.temps "i" = 6 := by
  have hunrolled : (match unrollLoop 5 [3, 4, 5] (.withFactor 2 10) stepsOfThree with
      | .ok (.unrolled _) h => decide (h.start = some 6 ∧
          h.kind? ((integers fun _ _ => 0).run h 20 ⟨6, upToThree⟩).node = some .ret ∧
          ((integers fun _ _ => 0).run h 20 ⟨6, upToThree⟩).state.temps "i" = 6)
      | .ok (.skipped _) _ => false
      | .error _ _ => false) = true := by decide +kernel
  split at hunrolled
  case h_1 newHeader h hok => exact ⟨newHeader, h, hok, of_decide_eq_true hunrolled⟩
  case h_2 | h_3 => cases hunrolled

/-- The outer loop is unrolled, although the inner one turns about its update: three strides are not
one trip. -/
theorem unrolled_trips_stepsOfThree :
    Built stepsOfThree ∧ stepsOfThree.verify = .ok () ∧
      ¬∀ ns, stepsOfThree.Passage [3, 4, 5] 5 5 5 ns → ns.count 3 ≤ 1 := by
  have hv : stepsOfThree.verify = .ok () := by decide +kernel
  obtain ⟨d, hd, hdetect⟩ := detect_stepsOfThree
  obtain ⟨newHeader, h, hok, -⟩ := unrollLoop_stepsOfThree
  have hl : ⟨5, [3, 4, 5], [4]⟩ ∈ LoopForest.detect stepsOfThree d := by
    rw [hdetect]
    exact List.mem_singleton_self _
  obtain ⟨v, hmem, -, -, hiff⟩ := unrolled_trips built_stepsOfThree hv hd hl hok
  rw [inductionVars_stepsOfThree, List.mem_singleton] at hmem
  subst hmem
  refine ⟨built_stepsOfThree, hv, fun h => hiff.mp h [4] ⟨?_, by decide⟩⟩
  exact .cons (by decide) (.cons (by decide) (.single 3))

/-- One of its trips passes the update twice, and so the unrolled loop goes too far: where the loop
ends with three in `i`, the unrolled one ends with six. -/
theorem stepsOfThree_strides_twice :
    Built stepsOfThree ∧ stepsOfThree.verify = .ok () ∧
      ∃ d newHeader h, Dominators.compute stepsOfThree = .ok d ∧
        ⟨5, [3, 4, 5], [4]⟩ ∈ LoopForest.detect stepsOfThree d ∧
        unrollLoop 5 [3, 4, 5] (.withFactor 2 10) stepsOfThree = .ok (.unrolled newHeader) h ∧
        inductionVars stepsOfThree [3, 4, 5] = [⟨"i", 1, 3, .add⟩] ∧
        stepsOfThree.Passage [3, 4, 5] 5 5 5 [3, 4, 3, 4] ∧ [3, 4, 3, 4].count 3 = 2 ∧
        ∃ r r', (integers fun _ _ => 0).Returns stepsOfThree upToThree r ∧ r.temps "i" = 3 ∧
          (integers fun _ _ => 0).Returns h upToThree r' ∧ r'.temps "i" = 6 := by
  have hv : stepsOfThree.verify = .ok () := by decide +kernel
  obtain ⟨d, hd, hdetect⟩ := detect_stepsOfThree
  obtain ⟨newHeader, h, hok, hstart, hret, hsix⟩ := unrollLoop_stepsOfThree
  have hpath : stepsOfThree.Path 5 5 (5 :: ([3, 4, 3, 4] ++ [5])) :=
    .cons (by decide) (.cons (by decide) (.cons (by decide) (.cons (by decide)
      (.cons (by decide) (.single 5)))))
  have hreturn : stepsOfThree.kind?
      ((integers fun _ _ => 0).run stepsOfThree 20 ⟨6, upToThree⟩).node = some .ret := by
    decide +kernel
  have hthree :
      ((integers fun _ _ => 0).run stepsOfThree 20 ⟨6, upToThree⟩).state.temps "i" = 3 := by
    decide +kernel
  exact ⟨built_stepsOfThree, hv, d, newHeader, h, hd, hdetect ▸ List.mem_singleton_self _, hok,
    inductionVars_stepsOfThree, ⟨hpath, by decide⟩, by decide, _, _,
    ⟨6, 20, _, by decide, rfl, hreturn⟩, hthree, ⟨6, 20, _, hstart, rfl, hret⟩, hsix⟩

end Flowgraph

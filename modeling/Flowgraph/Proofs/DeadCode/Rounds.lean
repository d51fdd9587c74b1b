import Flowgraph.Proofs.DeadCode.Splicing
import Flowgraph.Proofs.PathLiveness

/-!
# What rounds of dead code elimination take out

A round takes out every assignment that the start leads to and whose variable is not live after it,
except the last one of every cycle of such assignments.  If it takes nothing out, all of these are
their own successors.  Every other round leaves fewer assignments than there were, so as many rounds
as there are assignments come to one that takes nothing out, and after that nothing changes.

* `Graph.DeadAssignment`, `Graph.Eliminated`: what is dead, and what goes.
* `eliminateDeadCode_pruned`: what a round takes out.
* `dead_assignments_go`: what it leaves of a built graph, edge by edge.
* `Graph.assignments`, `assignments_length_lt`: what a round that takes something out leaves fewer
  of.
* `eliminateToFixpoint_add`, `eliminateToFixpoint_spec`: several rounds.
* `rounds_reach_fixpoint`: all of this for built graphs.
-/

namespace Flowgraph

open Flowgraph.Graph

variable {g h k : Graph} {gone : NodeId → Prop} {start n m : NodeId} {removed : List Removal}
  {a b rounds : Nat}

/-! ### What is dead -/

namespace Graph

/-- The start leads to the node, which assigns one temporary that is not live after it. -/
def DeadAssignment (g : Graph) (start n : NodeId) : Prop :=
  g.Reaches start n ∧ DeadAt g (fun n t => g.LiveAhead t n) n

/-- The node is a dead assignment, and not the last one of a cycle of them. -/
def Eliminated (g : Graph) (start n : NodeId) : Prop :=
  g.DeadAssignment start n ∧ ¬g.ClosesCycle (g.DeadAssignment start) n

/-- The start is never dead. -/
theorem not_eliminated_start (hg : g.WellFormed) (hs : g.start = some start) :
    ¬g.Eliminated start start := fun hn => hn.1.2.ne_start hg hs

end Graph

/-- The candidates of a round are the dead assignments. -/
theorem mem_deadNodes_iff (hg : g.WellFormed) (hs : g.start = some start) {l : Liveness}
    (hl : Liveness.compute g = .ok l) : n ∈ deadNodes g l ↔ g.DeadAssignment start n := by
  obtain ⟨l', hl', heq, hsound, -⟩ := Liveness.exists_compute_eq hg hs
  obtain rfl : l' = l := Except.ok.inj (hl'.symm.trans hl)
  rw [mem_deadNodes, DeadAssignment, ← hg.mem_reachable hs]
  refine and_congr_right fun hn => exists₂_congr fun k t => and_congr_right fun _ =>
    and_congr_right fun _ => not_congr ?_
  exact ⟨hsound n hn t, heq.after_of_liveAhead hg hs hn⟩

theorem ascending_deadNodes (l : Liveness) : Ascending (deadNodes g l) :=
  (List.pairwise_lt_range.filter _).filter _

/-! ### Live nodes of what is left -/

namespace Pruned

variable (hp : Pruned g h gone)

include hp

/-- The nodes of the pruned graph are those that have not gone. -/
theorem isLive_iff : h.isLive n = true ↔ g.isLive n = true ∧ ¬gone n := by
  by_cases hn : gone n
  · rw [hp.isLive_of_gone hn]
    exact iff_of_false Bool.false_ne_true fun hlive => hlive.2 hn
  · rw [hp.isLive_eq hn, and_iff_left hn]

/-- The nodes that were there are those that are left and those that are gone. -/
theorem count_eq : g.count = h.count + (g.ids.filter fun n => !h.isLive n).length := by
  have hids : h.ids = g.ids.filter h.isLive := by
    rw [ids, ids, hp.bound_eq, List.filter_filter]
    refine List.filter_congr fun n _ => ?_
    rw [Bool.eq_iff_iff, Bool.and_eq_true]
    exact (and_iff_left_of_imp fun hlive => (hp.isLive_iff.mp hlive).1).symm
  rw [count, count, hids]
  exact List.length_eq_length_filter_add h.isLive

/-- Where edges lead, said by what is left. -/
theorem lands_on_live (hg : g.Linked) (hn : ¬gone n) :
    List.Forall₂ (g.LandsOn fun m => h.isLive m = false) (g.succs n) (h.succs n) := by
  have hlands := (List.forall₂_and_left _ _).mpr ⟨fun s hs => hg.isLive_succ hs, hp.lands hn⟩
  refine hlands.imp fun s t ⟨hs, hst⟩ => hst.trans (fun m => hp.isLive_of_gone) (.stays ?_)
  rw [Bool.not_eq_false]
  exact hp.isLive_iff.mpr ⟨hg.isLive_of_reaches hs hst.reaches, hst.not_gone⟩

end Pruned

/-! ### One round -/

/-- A round takes out the dead assignments but the last one of every cycle of them. -/
theorem eliminateDeadCode_pruned (hg : g.WellFormed) (hs : g.start = some start) :
    ∃ removed h, eliminateDeadCode g = .ok removed h ∧ Pruned g h (g.Eliminated start) ∧
      removed.map Removal.node = g.ids.filter (fun n => !h.isLive n) ∧
      ∀ r ∈ removed, g.kind? r.node = some r.kind := by
  obtain ⟨l, hl, -⟩ := Liveness.exists_compute_eq hg hs
  have hdead {n : NodeId} : n ∈ deadNodes g l ↔ g.DeadAssignment start n :=
    mem_deadNodes_iff hg hs hl
  have hasc : Ascending (deadNodes g l) := ascending_deadNodes l
  have hset : (· ∈ deadNodes g l) = g.DeadAssignment start := funext fun n => propext hdead
  have hgone : (fun m => m ∈ deadNodes g l ∧ ¬g.ClosesCycle (· ∈ deadNodes g l) m) =
      g.Eliminated start := by
    funext m
    rw [hset, hdead, Eliminated]
  have hnone : Pruned g g fun m => m ∈ [] ∧ ¬g.ClosesCycle (· ∈ deadNodes g l) m := by
    simpa using Pruned.refl g
  obtain ⟨removed, h, hok, hp, hremoved, hkinds⟩ :=
    removeNodes_pruned (fun n hn => (hdead.mp hn).2.exists_succ hg.toLinked) hasc
      (fun n hn => (hdead.mp hn).2.ne_start hg) (List.nil_append _).symm hnone hg
  rw [hgone] at hp
  refine ⟨removed, h, (eliminateDeadCode_eq hl).trans hok, hp, ?_, hkinds⟩
  rw [hremoved]
  refine Ascending.eq_of_mem_iff (hasc.filter _)
    ((List.pairwise_lt_range.filter _).filter _) fun n => ?_
  rw [List.mem_filter, List.mem_filter, mem_ids, hdead, Bool.not_eq_true']
  refine and_congr_left fun hvacant => ⟨fun hn => ?_, fun hlive => ?_⟩
  · exact hg.isLive_of_reaches (hg.isLive_start hs) hn.1
  · -- a node that was there and is gone was dead
    by_contra hstays
    rw [hp.isLive_eq fun hn => hstays hn.1, hlive] at hvacant
    cases hvacant

/-- A round on a built graph with a start takes out exactly the dead assignments that are not the
last one of a cycle of dead assignments, and returns them with their kinds, in slot order.  Whatever
else was there stays, with its kind.  Each of its edges leads to the first node that stays, of those
that its target leads to over only successors.  What is reached is what was reached and stays. -/
theorem dead_assignments_go (hg : Built g) (hs : g.start = some start) :
    ∃ removed h, eliminateDeadCode g = .ok removed h ∧ h.bound = g.bound ∧ h.start = some start ∧
      (∀ n, h.isLive n = true ↔ g.isLive n = true ∧
        ¬(g.DeadAssignment start n ∧ ¬g.ClosesCycle (g.DeadAssignment start) n)) ∧
      removed.map Removal.node = g.ids.filter (fun n => !h.isLive n) ∧
      (∀ r ∈ removed, g.kind? r.node = some r.kind) ∧
      g.count = h.count + removed.length ∧
      (∀ n, h.isLive n = true → h.kind? n = g.kind? n ∧
        List.Forall₂ (g.LandsOn fun m => h.isLive m = false) (g.succs n) (h.succs n)) ∧
      ∀ n, h.Reaches start n ↔ g.Reaches start n ∧ h.isLive n = true := by
  have hw := hg.wellFormed
  obtain ⟨removed, h, hok, hp, hremoved, hkinds⟩ := eliminateDeadCode_pruned hw hs
  refine ⟨removed, h, hok, hp.bound_eq, hp.start_eq.trans hs, fun n => hp.isLive_iff, hremoved,
    hkinds, ?_, fun n hn => ?_, fun n => ?_⟩
  · rw [hp.count_eq, ← hremoved, List.length_map]
  · have hstays := (hp.isLive_iff.mp hn).2
    exact ⟨hp.kind_eq hstays, hp.lands_on_live hw.toLinked hstays⟩
  · rw [hp.reaches_iff (not_eliminated_start hw hs), hp.isLive_iff]
    refine and_congr_right fun hn => (and_iff_right ?_).symm
    exact hw.isLive_of_reaches (hw.isLive_start hs) hn

/-- A dead assignment to `z`, and behind a branch two dead assignments that lead to each other. -/
def deadCycle : Graph :=
  after (Edit.addStart 5) (after (Edit.addAssign "z" (.const 1) 4)
    (after (Edit.addBranch (.temp "c") 3 0) (after (Edit.substituteStub 1 3)
      (after (Edit.addAssign "x" (.const 1) 2) (after (Edit.addAssign "y" (.const 2) 1)
        (after Edit.addStub (after Edit.addReturn .empty)))))))

/-- The later node of the cycle is left, with itself as its successor. -/
theorem dead_assignments_go_deadCycle :
    Built deadCycle ∧ deadCycle.start = some 6 ∧
      ∃ removed h, eliminateDeadCode deadCycle = .ok removed h ∧
        removed.map Removal.node = [2, 5] ∧ h.count = 4 ∧ h.succs 3 = [3] ∧ h.Reaches 6 3 := by
  have hg : Built deadCycle :=
    .tail (.tail (.tail (.tail (.tail (.tail (.tail (.single (.addReturn _)) (.addStub _))
      (.addAssign _ _ _ _)) (.addAssign _ _ _ _)) (.substituteStub _ _ _)) (.addBranch _ _ _ _))
      (.addAssign _ _ _ _)) (.addStart _ _)
  have hs : deadCycle.start = some 6 := by decide +kernel
  obtain ⟨removed, h, hok, -, -, -, hremoved, -, hcount, -, hreached⟩ :=
    dead_assignments_go hg hs
  have hleft :
      deadCycle.ids.filter (fun n => !(after eliminateDeadCode deadCycle).isLive n) = [2, 5] ∧
        (after eliminateDeadCode deadCycle).succs 3 = [3] := by decide +kernel
  rw [after_of_ok hok] at hleft
  have hbefore : deadCycle.count = 6 := by decide +kernel
  have hnodes := hremoved.trans hleft.1
  have hlength : removed.length = 2 := by rw [← List.length_map, hnodes]; rfl
  refine ⟨hg, hs, removed, h, hok, hnodes, by omega, hleft.2, (hreached 3).mpr ⟨?_, ?_⟩⟩
  · exact .head (b := 5) (by decide +kernel : 5 ∈ deadCycle.succs 6)
      (.head (b := 4) (by decide +kernel : 4 ∈ deadCycle.succs 5)
        (.single (by decide +kernel : 3 ∈ deadCycle.succs 4)))
  · exact isLive_of_mem_succs (b := 3) (by rw [hleft.2]; exact List.mem_cons_self)

/-! ### Several rounds -/

namespace Graph

/-- The assignments of one temporary that the start leads to. -/
def assignments (g : Graph) : List NodeId :=
  g.reachable.filter fun n => ((g.kind? n).bind Kind.target?).isSome

theorem mem_assignments (hg : g.WellFormed) (hs : g.start = some start) :
    n ∈ g.assignments ↔ g.Reaches start n ∧ ∃ k t, g.kind? n = some k ∧ k.target? = some t := by
  rw [assignments, List.mem_filter, hg.mem_reachable hs, Option.isSome_iff_exists]
  simp only [Option.bind_eq_some_iff]
  exact and_congr_right fun _ => ⟨fun ⟨t, k, hk, ht⟩ => ⟨k, t, hk, ht⟩,
    fun ⟨k, t, hk, ht⟩ => ⟨t, k, hk, ht⟩⟩

/-- A dead assignment is one of the assignments that the start leads to. -/
theorem DeadAssignment.mem_assignments (hg : g.WellFormed) (hs : g.start = some start)
    (hn : g.DeadAssignment start n) : n ∈ g.assignments := by
  obtain ⟨hreach, k, t, hk, ht, -⟩ := hn
  exact (Graph.mem_assignments hg hs).mpr ⟨hreach, k, t, hk, ht⟩

end Graph

/-- When a node goes, the assignments that are left are some of those that were there, and it is not
among them. -/
theorem assignments_length_lt (hg : g.WellFormed) (hh : h.WellFormed) (hs : g.start = some start)
    (hp : Pruned g h (g.Eliminated start)) (hn : g.Eliminated start n) :
    h.assignments.length < g.assignments.length := by
  have hhs : h.start = some start := hp.start_eq.trans hs
  have hreached {m : NodeId} := hp.reaches_iff (n := m) (not_eliminated_start hg hs)
  have hsub : h.assignments ⊆ g.assignments := by
    intro m hm
    obtain ⟨hreach, k, t, hk, ht⟩ := (mem_assignments hh hhs).mp hm
    obtain ⟨hreach, hstays⟩ := hreached.mp hreach
    exact (mem_assignments hg hs).mpr ⟨hreach, k, t, (hp.kind_eq hstays).symm.trans hk, ht⟩
  have hnot : n ∉ h.assignments := fun hm =>
    (hreached.mp ((mem_assignments hh hhs).mp hm).1).2 hn
  have hnodup : (n :: h.assignments).Nodup :=
    List.nodup_cons.mpr ⟨hnot, (nodup_reachable h).filter _⟩
  have hmem : n ∈ g.assignments := hn.1.mem_assignments hg hs
  exact (List.subperm_of_subset hnodup (List.cons_subset.mpr ⟨hmem, hsub⟩)).length_le

/-- A round goes through.  The graph gets smaller by as many nodes as it takes out, and if it takes
out any, fewer assignments are left. -/
theorem eliminateDeadCode_spec (hg : g.WellFormed) (hs : g.start = some start) :
    ∃ removed h, eliminateDeadCode g = .ok removed h ∧ h.WellFormed ∧ h.start = some start ∧
      g.count = h.count + removed.length ∧
      (removed ≠ [] → h.assignments.length < g.assignments.length) := by
  obtain ⟨removed, h, hok, hp, hremoved, -⟩ := eliminateDeadCode_pruned hg hs
  have hh := proper_eliminateDeadCode.wellFormed_of_ok hok hg
  refine ⟨removed, h, hok, hh, hp.start_eq.trans hs, ?_, fun hne => ?_⟩
  · rw [hp.count_eq, ← hremoved, List.length_map]
  · obtain ⟨r, hr⟩ := List.exists_mem_of_ne_nil removed hne
    have hnode : r.node ∈ g.ids.filter fun n => !h.isLive n :=
      hremoved ▸ List.mem_map_of_mem hr
    rw [List.mem_filter, mem_ids, Bool.not_eq_true'] at hnode
    refine assignments_length_lt hg hh hs hp (n := r.node) ?_
    by_contra hstays
    rw [hp.isLive_eq hstays, hnode.1] at hnode
    cases hnode.2

/-- Going on from where so many rounds stopped is the same as allowing for all rounds at once. -/
theorem eliminateToFixpoint_add {total later : Nat} (ha : eliminateToFixpoint a g = .ok total h)
    (hb : eliminateToFixpoint b h = .ok later k) :
    eliminateToFixpoint (a + b) g = .ok (total + later) k := by
  induction a generalizing g total with
  | zero =>
      cases ha
      rwa [Nat.zero_add, Nat.zero_add]
  | succ a ih =>
      rcases eliminateToFixpoint_cases ha with
        ⟨hnil, rfl, rfl⟩ | ⟨removed, m, rest, hround, hne, hrest, rfl⟩
      · rw [eliminateToFixpoint_of_nil hnil] at hb ⊢
        cases hb
        rfl
      · rw [Nat.succ_add, Nat.add_assoc]
        exact eliminateToFixpoint_succ hround hne (ih hrest)

/-- Rounds take out as many nodes as they return, and as many rounds as there are assignments come
to a graph from which a round takes nothing out. -/
theorem eliminateToFixpoint_spec (hg : g.WellFormed) (hs : g.start = some start) (rounds : Nat) :
    ∃ total h, eliminateToFixpoint rounds g = .ok total h ∧ h.WellFormed ∧ h.start = some start ∧
      g.count = h.count + total ∧
      (g.assignments.length ≤ rounds → eliminateDeadCode h = .ok [] h) := by
  induction rounds generalizing g with
  | zero =>
      refine ⟨0, g, rfl, hg, hs, rfl, fun hle => ?_⟩
      obtain ⟨removed, h, hok, -, -, -, hfewer⟩ := eliminateDeadCode_spec hg hs
      obtain rfl : removed = [] := by
        by_contra hne
        exact Nat.not_lt_zero _ (Nat.lt_of_lt_of_le (hfewer hne) hle)
      rwa [eq_of_eliminateDeadCode_nil hok] at hok
  | succ rounds ih =>
      obtain ⟨removed, h, hok, hh, hhs, hcount, hfewer⟩ := eliminateDeadCode_spec hg hs
      by_cases hne : removed = []
      · subst hne
        obtain rfl := eq_of_eliminateDeadCode_nil hok
        exact ⟨0, h, eliminateToFixpoint_of_nil hok _, hg, hs, rfl, fun _ => hok⟩
      · obtain ⟨later, k, hlater, hk, hks, hcount', hsettled⟩ := ih hh hhs
        refine ⟨removed.length + later, k, eliminateToFixpoint_succ hok hne hlater, hk, hks, ?_,
          fun hle => hsettled ?_⟩
        · rw [hcount, hcount', Nat.add_assoc, Nat.add_comm later]
        · exact Nat.le_of_lt_succ (Nat.lt_of_lt_of_le (hfewer hne) hle)

/-- If a round takes nothing out, whatever is dead is its own successor. -/
theorem succs_eq_self_of_nil (hg : g.WellFormed) (hs : g.start = some start)
    (hnil : eliminateDeadCode g = .ok [] g) (hn : g.DeadAssignment start n) : g.succs n = [n] := by
  obtain ⟨removed, h, hok, hp, -⟩ := eliminateDeadCode_pruned hg hs
  obtain ⟨-, rfl⟩ := EStateM.Result.ok.inj (hnil.symm.trans hok)
  refine ClosesCycle.succs_eq_self (fun m hm => hm.2.exists_succ hg.toLinked) (fun m hm => ?_) hn
  by_contra hopen
  obtain ⟨-, k, t, hk, -⟩ := id hm
  cases (hp.vacant ⟨hm, hopen⟩).symm.trans hk

/-- On a built graph with a start, any number of rounds goes through, and it can be cut in two:
going on after the first part comes to the same graph, and the numbers of removals add up.  The
number is by how much the graph gets smaller.  When there are as many rounds as assignments of one
temporary that the start leads to, a further round takes nothing out, and the variable of every such
assignment that is left is live after it or the assignment is its own only successor. -/
theorem rounds_reach_fixpoint (hg : Built g) (hs : g.start = some start) :
    (∀ a b, ∃ total h later k, eliminateToFixpoint a g = .ok total h ∧
      eliminateToFixpoint b h = .ok later k ∧
      eliminateToFixpoint (a + b) g = .ok (total + later) k) ∧
    ∀ rounds, ∃ total h, eliminateToFixpoint rounds g = .ok total h ∧
      g.count = h.count + total ∧
      (g.assignments.length ≤ rounds →
        eliminateDeadCode h = .ok [] h ∧
        ∀ n k t, h.Reaches start n → h.kind? n = some k → k.target? = some t →
          h.LiveAhead t n ∨ h.succs n = [n]) := by
  have hw := hg.wellFormed
  refine ⟨fun a b => ?_, fun rounds => ?_⟩
  · obtain ⟨total, h, ha, hh, hhs, -⟩ := eliminateToFixpoint_spec hw hs a
    obtain ⟨later, k, hb, -⟩ := eliminateToFixpoint_spec hh hhs b
    exact ⟨total, h, later, k, ha, hb, eliminateToFixpoint_add ha hb⟩
  · obtain ⟨total, h, hok, hh, hhs, hcount, hsettled⟩ := eliminateToFixpoint_spec hw hs rounds
    refine ⟨total, h, hok, hcount, fun hle => ⟨hsettled hle, fun n k t hreach hk ht => ?_⟩⟩
    refine or_iff_not_imp_left.mpr fun hdead => ?_
    exact succs_eq_self_of_nil hh hhs (hsettled hle) ⟨hreach, k, t, hk, ht, hdead⟩

/-- An assignment to `x`, and one to `y` that reads it. -/
def deadInTurn : Graph :=
  after (Edit.addStart 2) (after (Edit.addAssign "x" (.const 1) 1)
    (after (Edit.addAssign "y" (.temp "x") 0) (after Edit.addReturn .empty)))

/-- The first round takes out one of them, and the second round the other one. -/
theorem rounds_reach_fixpoint_deadInTurn :
    Built deadInTurn ∧ deadInTurn.start = some 3 ∧
      ∃ h k, eliminateToFixpoint 1 deadInTurn = .ok 1 h ∧ eliminateToFixpoint 1 h = .ok 1 k ∧
        eliminateToFixpoint 2 deadInTurn = .ok 2 k ∧ eliminateDeadCode k = .ok [] k := by
  have hg : Built deadInTurn :=
    .tail (.tail (.tail (.single (.addReturn _)) (.addAssign _ _ _ _)) (.addAssign _ _ _ _))
      (.addStart _ _)
  have hs : deadInTurn.start = some 3 := by decide +kernel
  obtain ⟨hcut, hrounds⟩ := rounds_reach_fixpoint hg hs
  obtain ⟨first, h, second, k, hfirst, hsecond, hboth⟩ := hcut 1 1
  obtain ⟨total, k', hok, hcount, hsettled⟩ := hrounds 2
  obtain ⟨rfl, rfl⟩ := EStateM.Result.ok.inj (hok.symm.trans hboth)
  have hone : (match eliminateToFixpoint 1 deadInTurn, eliminateToFixpoint 2 deadInTurn with
      | .ok first _, .ok both _ => decide (first = 1 ∧ both = 2)
      | _, _ => false) = true := by decide +kernel
  rw [hfirst, hok] at hone
  obtain ⟨rfl, htwo⟩ := of_decide_eq_true hone
  obtain rfl : second = 1 := by omega
  exact ⟨hg, hs, h, k', hfirst, hsecond, hok, (hsettled (by decide +kernel)).1⟩

end Flowgraph

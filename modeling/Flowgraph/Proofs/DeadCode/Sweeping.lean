import Flowgraph.Proofs.DeadCode.Rounds
import Flowgraph.Proofs.Passes
import Flowgraph.Proofs.Rewiring
import Flowgraph.Proofs.Sweeping

/-!
# Sweeping and eliminating dead code commute

Nodes that the start does not lead to take part in the numbering of the temporaries, in what is live
at the exits and in predecessor lists.  Still the same assignments are dead without them, since a
path from a node that the start leads to meets none of them.  Splicing out a node that stays changes
what is left of a graph in the same way in which it changes the graph, down to the order of the
predecessor lists.  So it does not matter whether a graph is swept before or after.

* `Graph.WellFormed.liveAhead_swept`: what is live along paths.
* `Graph.WellFormed.deadNodes_swept`: the same assignments are dead, in the same order.
* `spliced_restrict`, `removeNodes_restrict`: splicing out nodes of a part that no edge leaves.
* `eliminateDeadCode_swept`, `eliminateToFixpoint_swept`: one round, and any number of rounds.
* `sweeping_and_elimination_commute`: all of this for built graphs.
-/

namespace Flowgraph

open Flowgraph.Graph

variable {g h : Graph} {start n m node next : NodeId} {x : String} {keep : NodeId → Bool}
  {removed : List Removal}

/-! ### What is dead -/

namespace Graph.WellFormed

variable (hg : g.WellFormed) (hs : g.start = some start)

include hg hs

/-- Paths that the start leads to are left. -/
theorem reachesBy_swept {p q : NodeId → Prop} (hpq : ∀ m, g.Reaches start m → (p m ↔ q m))
    (hn : g.Reaches start n) : g.swept.ReachesBy p n m ↔ g.ReachesBy q n m := by
  constructor
  · refine Relation.ReflTransGen.mono (fun a b hab => ?_) n m
    obtain ⟨ha, hb⟩ := (hg.mem_succs_swept hs).mp hab.1
    exact ⟨hb, (hpq b (ha.tail hb)).mp hab.2⟩
  · intro h
    induction h with
    | refl => exact .refl
    | @tail a b ha hab ih =>
        have hreach := hn.trans (ReachesBy.reaches ha)
        exact ih.tail ⟨(hg.mem_succs_swept hs).mpr ⟨hreach, hab.1⟩,
          (hpq b (hreach.tail hab.1)).mpr hab.2⟩

theorem defs_swept (hn : g.Reaches start n) : g.swept.defs n = g.defs n := by
  rw [Graph.defs, Graph.defs, hg.kind?_swept hs hn]

theorem uses_swept (hn : g.Reaches start n) : g.swept.uses n = g.uses n := by
  rw [Graph.uses, Graph.uses, hg.kind?_swept hs hn]

/-- A sweep keeps the paths along which a value is kept. -/
theorem keeps_swept (hn : g.Reaches start n) : g.swept.Keeps x n m ↔ g.Keeps x n m :=
  hg.reachesBy_swept hs (fun k hk => by rw [hg.defs_swept hs hk]) hn

/-- A sweep changes nothing about where a name is live that is still written by some node. -/
theorem liveAhead_swept (hn : g.Reaches start n) (hx : x ∈ g.defs n) :
    g.swept.LiveAhead x n ↔ g.LiveAhead x n := by
  have hoccurs : g.swept.Occurs x ↔ g.Occurs x :=
    iff_of_true ⟨n, .inl (hg.defs_swept hs hn ▸ hx)⟩ ⟨n, .inl hx⟩
  refine or_congr (exists_congr fun m => ?_)
    (and_congr_right fun _ => and_congr hoccurs (exists_congr fun m => ?_))
  · rw [hg.keeps_swept hs hn]
    refine and_congr_right fun hk => ?_
    have hm := hn.trans (ReachesBy.reaches hk)
    rw [hg.succs_swept hs hm]
    refine exists_congr fun b => and_congr_right fun hb => ?_
    rw [hg.uses_swept hs (hm.tail hb)]
  · rw [hg.keeps_swept hs hn]
    refine and_congr_right fun hk => ?_
    rw [hg.succs_swept hs (hn.trans (ReachesBy.reaches hk))]

/-- So it keeps the dead assignments. -/
theorem deadAssignment_swept : g.swept.DeadAssignment start n ↔ g.DeadAssignment start n := by
  rw [DeadAssignment, DeadAssignment, hg.reaches_swept hs]
  refine and_congr_right fun hn => ?_
  rw [DeadAt, DeadAt, hg.kind?_swept hs hn]
  refine exists₂_congr fun k t => and_congr_right fun hk => and_congr_right fun ht => not_congr ?_
  refine hg.liveAhead_swept hs hn ?_
  rw [Graph.defs, hk, Option.map_some, Option.getD_some, (defs_of_target? ht).1]
  exact List.mem_singleton_self t

/-- They are listed in the same order. -/
theorem deadNodes_swept {l l' : Liveness} (hl : Liveness.compute g = .ok l)
    (hl' : Liveness.compute g.swept = .ok l') : deadNodes g.swept l' = deadNodes g l := by
  refine Ascending.eq_of_mem_iff (ascending_deadNodes l') (ascending_deadNodes l) fun n => ?_
  rw [mem_deadNodes_iff hg hs hl, mem_deadNodes_iff hg.swept ((start_swept g).trans hs) hl',
    hg.deadAssignment_swept hs]

end Graph.WellFormed

/-! ### Splicing out what stays -/

/-- No edge leaves the part after a node in it has been spliced out. -/
theorem keep_of_mem_succs_spliced (hg : g.Linked)
    (hkeep : ∀ a b, keep a = true → b ∈ g.succs a → keep b = true) (hn : keep node = true)
    (hs : g.succs node = [next]) {a b : NodeId} (ha : keep a = true)
    (hb : b ∈ (spliced g node next).succs a) : keep b = true := by
  rw [succs_spliced hg] at hb
  split at hb
  · cases hb
  · obtain ⟨s, hsa, rfl⟩ := List.mem_map.mp hb
    by_cases he : s = node
    · rw [he, divert_self]
      exact hkeep node next hn (hs ▸ List.mem_singleton_self next)
    · rw [divert_of_ne he]
      exact hkeep a s ha hsa

/-- Splicing out a node of a part that no edge leaves, in the part and in the whole. -/
theorem spliced_restrict (hg : g.Linked)
    (hkeep : ∀ a b, keep a = true → b ∈ g.succs a → keep b = true) (hn : keep node = true)
    (hs : g.succs node = [next]) (hne : next ≠ node) :
    spliced (g.restrict keep) node next = (spliced g node next).restrict keep := by
  have hs' : (g.restrict keep).succs node = [next] := by rw [succs_restrict, if_pos hn, hs]
  have hwhole : Rewires g (spliced g node next) [node] (g.preds node) fun a =>
      if a = node then [] else (g.succs a).map (divert node next) := hg.rewires_splice hne hs
  have hpart : Rewires (g.restrict keep) (spliced (g.restrict keep) node next) [node]
      ((g.restrict keep).preds node) fun a =>
        if a = node then [] else ((g.restrict keep).succs a).map (divert node next) :=
    (hg.restrict hkeep).rewires_splice hne hs'
  have hsuccs : (fun a => if a = node then [] else
        ((g.restrict keep).succs a).map (divert node next)) =
      fun a => if keep a then if a = node then [] else (g.succs a).map (divert node next)
        else [] := funext fun a => by
    rw [succs_restrict]
    grind
  rw [preds_restrict, if_pos hn, hsuccs] at hpart
  exact (hwhole.restrict fun a b => keep_of_mem_succs_spliced hg hkeep hn hs).unique hpart

/-- Nodes of a part closed under successors are spliced out of it as of the whole. -/
theorem removeNodes_restrict {ns : List NodeId} (hg : g.Linked)
    (hkeep : ∀ a b, keep a = true → b ∈ g.succs a → keep b = true)
    (hns : ∀ n ∈ ns, keep n = true) (hok : removeNodes ns g = .ok removed h) :
    removeNodes ns (g.restrict keep) = .ok removed (h.restrict keep) := by
  induction ns generalizing g removed with
  | nil => cases hok; rfl
  | cons n rest ih =>
      obtain ⟨hn, hrest⟩ := List.forall_mem_cons.mp hns
      rcases removeNodes_cons_ok hok with
        ⟨hself, hok⟩ | ⟨next, k, removed', hstart, hk, hsucc, hne, hlater, rfl⟩
      · rw [removeNodes_of_self (by rw [succs_restrict, if_pos hn, hself])]
        exact ih hg hkeep hrest hok
      · refine removeNodes_of_succ hstart (by rw [kind?_restrict, if_pos hn, hk])
          (by rw [succs_restrict, if_pos hn, hsucc]) hne ?_
        rw [spliced_restrict hg hkeep hn hsucc hne]
        exact ih (hg.splice hne hsucc)
          (fun a b => keep_of_mem_succs_spliced hg hkeep hn hsucc) hrest hlater

/-! ### Rounds -/

/-- A round takes out the same assignments after a sweep, and leaves as much to sweep. -/
theorem eliminateDeadCode_swept (hg : g.WellFormed) (hs : g.start = some start)
    (hok : eliminateDeadCode g = .ok removed h) :
    eliminateDeadCode g.swept = .ok removed h.swept ∧ h.unreachable = g.unreachable := by
  obtain ⟨_, _, hok', hp, -⟩ := eliminateDeadCode_pruned hg hs
  obtain ⟨rfl, rfl⟩ := EStateM.Result.ok.inj (hok.symm.trans hok')
  have hh := proper_eliminateDeadCode.wellFormed_of_ok hok hg
  have hhs : h.start = some start := hp.start_eq.trans hs
  have hreached {n : NodeId} := hp.reaches_iff (n := n) (not_eliminated_start hg hs)
  constructor
  · obtain ⟨l, hl, -⟩ := Liveness.exists_compute_eq hg hs
    obtain ⟨l', hl', -⟩ := Liveness.exists_compute_eq hg.swept ((start_swept g).trans hs)
    have hkeep {n : NodeId} : g.reachable.contains n = true ↔ g.Reaches start n :=
      hg.contains_reachable_iff hs
    have hpart : h.restrict (fun n => g.reachable.contains n) = h.swept := by
      rw [swept_of_start hhs]
      refine hh.toLinked.restrict_congr fun n hn => ?_
      rw [Bool.eq_iff_iff, hkeep, hh.contains_reachable_iff hhs, hreached]
      exact (and_iff_left (hp.isLive_iff.mp hn).2).symm
    rw [eliminateDeadCode_eq hl] at hok
    rw [eliminateDeadCode_eq hl', hg.deadNodes_swept hs hl hl', ← hpart, swept_of_start hs]
    refine removeNodes_restrict hg.toLinked (fun a b ha hb => ?_) (fun n hn => ?_) hok
    · exact hkeep.mpr ((hkeep.mp ha).tail hb)
    · exact hkeep.mpr ((mem_deadNodes_iff hg hs hl).mp hn).1
  · refine Ascending.eq_of_mem_iff (ascending_unreachable h) (ascending_unreachable g) fun n => ?_
    rw [hh.mem_unreachable hhs, hg.mem_unreachable hs, hp.isLive_iff, hreached]
    -- whatever is gone was reached
    have hgone : g.Eliminated start n → g.Reaches start n := fun hn => hn.1.1
    tauto

/-- Rounds before and after a sweep come to the same. -/
theorem eliminateToFixpoint_swept {rounds total : Nat} (hg : g.WellFormed)
    (hs : g.start = some start) (hok : eliminateToFixpoint rounds g = .ok total h) :
    eliminateToFixpoint rounds g.swept = .ok total h.swept ∧ h.unreachable = g.unreachable := by
  induction rounds generalizing g total with
  | zero => cases hok; exact ⟨rfl, rfl⟩
  | succ rounds ih =>
      rcases eliminateToFixpoint_cases hok with
        ⟨hnil, rfl, rfl⟩ | ⟨removed, k, later, hround, hne, hlater, rfl⟩
      · exact ⟨eliminateToFixpoint_of_nil (eliminateDeadCode_swept hg hs hnil).1 _, rfl⟩
      · obtain ⟨hfirst, hleft⟩ := eliminateDeadCode_swept hg hs hround
        obtain ⟨_, _, hok', hp, -⟩ := eliminateDeadCode_pruned hg hs
        obtain ⟨-, rfl⟩ := EStateM.Result.ok.inj (hround.symm.trans hok')
        obtain ⟨hrest, hleft'⟩ := ih (proper_eliminateDeadCode.wellFormed_of_ok hround hg)
          (hp.start_eq.trans hs) hlater
        exact ⟨eliminateToFixpoint_succ hfirst hne hrest, hleft'.trans hleft⟩

/-- On a built graph with a start, a sweep and a round of dead code elimination come to the same
graph in either order, with the same removals and with as many nodes swept.  So do a sweep and any
number of rounds.  The pass removes the same assignments whether or not it is told to sweep. -/
theorem sweeping_and_elimination_commute (hg : Built g) (hs : g.start = some start) :
    ∃ swept m removed h k,
      Edit.sweep g = .ok swept m ∧ eliminateDeadCode m = .ok removed k ∧
      eliminateDeadCode g = .ok removed h ∧ Edit.sweep h = .ok swept k ∧
      (∀ rounds, ∃ total h k, eliminateToFixpoint rounds m = .ok total k ∧
        eliminateToFixpoint rounds g = .ok total h ∧ Edit.sweep h = .ok swept k) ∧
      ∀ config round function log, ∃ changed,
        deadCodePass.run config round function ⟨g, log⟩ = .ok changed
          ⟨if config.cleanup.sweepUnreachable then k else h,
            log ++ ((if config.cleanup.sweepUnreachable then sweepEvents function swept else []) ++
              removed.map (Removal.event function))⟩ := by
  have hw := hg.wellFormed
  obtain ⟨removed, h, hok⟩ := eliminateDeadCode_succeeds hw hs
  obtain ⟨hround, hleft⟩ := eliminateDeadCode_swept hw hs hok
  refine ⟨_, g.swept, removed, h, h.swept, Edit.sweep_apply g, hround, hok, ?_, fun rounds => ?_,
    fun config round function log => ?_⟩
  · rw [Edit.sweep_apply, hleft]
  · obtain ⟨total, h, hok, -⟩ := eliminateToFixpoint_spec hw hs rounds
    obtain ⟨hrounds, hleft⟩ := eliminateToFixpoint_swept hw hs hok
    exact ⟨total, h, h.swept, hrounds, hok, by rw [Edit.sweep_apply, hleft]⟩
  · have hsweep := sweepIfEnabled_apply config.cleanup g
    split at hsweep
    · next hon =>
        rw [if_pos hon, if_pos hon]
        exact ⟨_, run_deadCodePass hsweep hround⟩
    · next hoff =>
        rw [if_neg hoff, if_neg hoff]
        exact ⟨_, run_deadCodePass hsweep hok⟩

/-- A dead assignment to `x`, and in front of it one that reads `x` and that nothing leads to. -/
def readOutside : Graph :=
  after (Edit.addStart 1) (after (Edit.addAssign "y" (.temp "x") 1)
    (after (Edit.addAssign "x" (.const 1) 0) (after Edit.addReturn .empty)))

/-- The assignment that nothing leads to is first handed on to the return as a predecessor and then
swept, or it is swept first. -/
theorem sweeping_and_elimination_commute_readOutside :
    Built readOutside ∧ readOutside.start = some 3 ∧
      ∃ m h k, Edit.sweep readOutside = .ok 1 m ∧
        eliminateDeadCode m = .ok [⟨1, .stmt (.assign "x" (.const 1))⟩] k ∧
        eliminateDeadCode readOutside = .ok [⟨1, .stmt (.assign "x" (.const 1))⟩] h ∧
        Edit.sweep h = .ok 1 k ∧ h.preds 0 = [2, 3] ∧ k.preds 0 = [3] := by
  have hg : Built readOutside :=
    .tail (.tail (.tail (.single (.addReturn _)) (.addAssign _ _ _ _)) (.addAssign _ _ _ _))
      (.addStart _ _)
  have hs : readOutside.start = some 3 := by decide +kernel
  obtain ⟨swept, m, removed, h, k, hsweep, hpart, hwhole, hafter, -⟩ :=
    sweeping_and_elimination_commute hg hs
  have hfirst : (match Edit.sweep readOutside, eliminateDeadCode readOutside with
      | .ok swept _, .ok removed h => decide (swept = 1 ∧
          removed = [⟨1, .stmt (.assign "x" (.const 1))⟩] ∧ h.preds 0 = [2, 3] ∧
          (after Edit.sweep h).preds 0 = [3])
      | _, _ => false) = true := by decide +kernel
  rw [hsweep, hwhole] at hfirst
  obtain ⟨rfl, rfl, hbefore, hleft⟩ := of_decide_eq_true hfirst
  rw [after_of_ok hafter] at hleft
  exact ⟨hg, hs, m, h, k, hsweep, hpart, hwhole, hafter, hbefore, hleft⟩

end Flowgraph

import Flowgraph.Proofs.Built

/-!
# What rewiring does to the lists of a graph

Moving edges, and putting one node in the place of another, are substitutions on the successor
lists.  The predecessor lists follow: whoever was listed and still has an edge stays, in the old
order, and whoever has got an edge stands behind them, in an order that is given.

* `Rewires`: what rewiring keeps, what it vacates, and how it lists successors and predecessors.
* `Rewires.unique`, `Rewires.restrict`: it determines the graph, and a part that no edge leaves.
* `Linked.rewires_rewired`: moving edges of one node.
* `Linked.rewires_bypass`, `Linked.rewires_splice`: putting one node in the place of another.
* `rewiring_exact`: every operation on a built graph that goes through.
-/

namespace Flowgraph

open Flowgraph.Graph

variable {g h : Graph} {a b node old new target : NodeId} {f : List NodeId → List NodeId}

/-- The nodes of `g` but for those that are vacated stand in their slots, with the successors that
are given.  Every predecessor list holds the old entries that still have an edge, in the old order,
and behind them those of `order` that have an edge now and were not listed before. -/
structure Rewires (g h : Graph) (vacated order : List NodeId) (succs : NodeId → List NodeId) :
    Prop where
  bound_eq : h.bound = g.bound
  start_eq : h.start = g.start
  kind_eq : ∀ a, h.kind? a = if a ∈ vacated then none else g.kind? a
  succs_eq : ∀ a, h.succs a = succs a
  preds_eq : ∀ b, h.preds b =
    ((g.preds b).filter fun a => b ∈ h.succs a) ++
      order.filter fun a => b ∈ h.succs a ∧ a ∉ g.preds b

namespace Rewires

variable {vacated order : List NodeId} {succs : NodeId → List NodeId}

/-- Nothing is left open. -/
theorem unique (hgh : Rewires g h vacated order succs) {h' : Graph}
    (hgh' : Rewires g h' vacated order succs) : h' = h := by
  have hsuccs (a : NodeId) : h'.succs a = h.succs a := (hgh'.succs_eq a).trans (hgh.succs_eq a).symm
  refine eq_of_views (hgh'.bound_eq.trans hgh.bound_eq.symm) (hgh'.start_eq.trans hgh.start_eq.symm)
    (fun a => (hgh'.kind_eq a).trans (hgh.kind_eq a).symm) hsuccs fun b => ?_
  rw [hgh'.preds_eq, hgh.preds_eq]
  simp only [hsuccs]

/-- Rewiring goes on within a set of nodes that no edge leaves afterwards. -/
theorem restrict (hgh : Rewires g h vacated order succs) {keep : NodeId → Bool}
    (hkeep : ∀ a b, keep a = true → b ∈ h.succs a → keep b = true) :
    Rewires (g.restrict keep) (h.restrict keep) vacated (order.filter keep) fun a =>
      if keep a then succs a else [] where
  bound_eq := by rw [bound_restrict, bound_restrict, hgh.bound_eq]
  start_eq := hgh.start_eq
  kind_eq a := by
    rw [kind?_restrict, kind?_restrict, hgh.kind_eq]
    split
    · rfl
    · rw [ite_self]
  succs_eq a := by rw [succs_restrict, hgh.succs_eq]
  preds_eq b := by
    rw [preds_restrict, preds_restrict]
    by_cases hb : keep b = true
    · rw [if_pos hb, if_pos hb, hgh.preds_eq, List.filter_append, List.filter_filter,
        List.filter_filter, List.filter_filter, List.filter_filter]
      congr 1
      · refine List.filter_congr fun a _ => ?_
        rw [succs_restrict]
        cases keep a <;> simp
      · refine List.filter_congr fun a _ => ?_
        rw [succs_restrict]
        cases ha : keep a <;> simp [ha]
    · -- no edge leads from what stays to a node that goes
      rw [if_neg hb, if_neg hb, List.filter_nil, List.nil_append, eq_comm,
        List.filter_eq_nil_iff]
      intro a ha hedge
      rw [decide_eq_true_eq, succs_restrict, if_pos (List.mem_filter.mp ha).2] at hedge
      exact hb (hkeep a b (List.mem_filter.mp ha).2 hedge.1)

end Rewires

/-! ### Edges of one node -/

section Moved

variable (hg : g.Linked) (hf : f [] = []) (hmoved : Moved old new (g.succs node) (f (g.succs node)))

include hg hmoved

/-- Whoever still has an edge is whoever was listed, but for the node itself where it has lost its
last edge. -/
theorem Graph.Linked.filter_preds_rewired (b : NodeId) :
    ((g.preds b).filter fun a => b ∈ if node = a then f (g.succs a) else g.succs a) =
      if b = old ∧ old ∉ f (g.succs node) then (g.preds b).filter fun a => a ≠ node
      else g.preds b := by
  have hother := hmoved.mem_of_ne
  split
  · next hlost =>
      refine List.filter_congr fun a ha => ?_
      have := hg.mem_preds.mp ha
      grind
  · next hkept =>
      refine List.filter_eq_self.mpr fun a ha => ?_
      have := hg.mem_preds.mp ha
      grind

include hf

/-- The node leaves the list where it has lost its last edge, and comes to the end of the list where
it has got its first one. -/
theorem Graph.Linked.preds_rewired (hnew : g.isLive new = true) (b : NodeId) :
    (g.rewired node old new f).preds b =
      ((g.preds b).filter fun a => b ∈ (g.rewired node old new f).succs a) ++
        [node].filter fun a => b ∈ (g.rewired node old new f).succs a ∧ a ∉ g.preds b := by
  have hsuccs := fun a => succs_rewired g node old new a hf
  have hstay : ((g.update node fun n => { n with succs := f n.succs }).unlink node old).preds b =
      (g.preds b).filter fun a => b ∈ (g.rewired node old new f).succs a := by
    have hnode := hsuccs node
    rw [Graph.rewired, succs_link, succs_unlink, if_pos rfl] at hnode
    have hpreds : (g.update node fun n => { n with succs := f n.succs }).preds b = g.preds b := by
      rw [preds_update]
      split <;> rfl
    simp only [hsuccs]
    rw [hg.filter_preds_rewired hmoved, preds_unlink, hnode, hpreds]
  have hnode : b ∈ (g.rewired node old new f).succs node ↔ b ∈ f (g.succs node) := by
    rw [hsuccs, if_pos rfl]
  have hlink : (g.rewired node old new f).preds b =
      if b = new ∧ node ∉ g.preds b then
        ((g.preds b).filter fun a => b ∈ (g.rewired node old new f).succs a) ++ [node]
      else (g.preds b).filter fun a => b ∈ (g.rewired node old new f).succs a := by
    rw [← hstay, Graph.rewired, preds_link, isLive_unlink, isLive_update]
    refine if_congr (and_congr_right fun he => ?_) rfl rfl
    -- the node has an edge to `new` now, so it is still listed there if it was
    subst he
    rw [and_iff_right hnew, hstay, List.mem_filter, decide_eq_true_eq, hnode,
      and_iff_left hmoved.mem_new]
  rw [hlink]
  split
  · next hb =>
      obtain ⟨rfl, hout⟩ := hb
      rw [List.filter_cons_of_pos (by simp [hnode, hmoved.mem_new, hout]), List.filter_nil]
  · next hb =>
      rw [List.filter_cons_of_neg, List.filter_nil, List.append_nil]
      rw [decide_eq_true_eq, hnode, hg.mem_preds]
      exact fun hlisted => (hmoved.mem_or_eq b hlisted.1).elim hlisted.2 fun he =>
        hb ⟨he, hg.mem_preds.not.mpr hlisted.2⟩

/-- A rewired node is taken off where no edge of it is left and comes last where it is new. -/
theorem Graph.Linked.rewires_rewired (hnew : g.isLive new = true) :
    Rewires g (g.rewired node old new f) [] [node] fun a =>
      if a = node then f (g.succs a) else g.succs a where
  bound_eq := bound_rewired ..
  start_eq := start_rewired ..
  kind_eq a := by rw [kind?_rewired, if_neg List.not_mem_nil]
  succs_eq a := by
    rw [succs_rewired _ _ _ _ _ hf]
    exact if_congr eq_comm rfl rfl
  preds_eq := hg.preds_rewired hf hmoved hnew

end Moved

/-- Leading edges to where they lead already moves nothing. -/
theorem Graph.Linked.rewires_self (hg : g.Linked) (order : List NodeId) :
    Rewires g g [] order g.succs where
  bound_eq := rfl
  start_eq := rfl
  kind_eq a := by rw [if_neg List.not_mem_nil]
  succs_eq _ := rfl
  preds_eq b := by
    rw [List.filter_eq_self.mpr fun a ha => decide_eq_true (hg.mem_preds.mp ha),
      List.filter_eq_nil_iff.mpr, List.append_nil]
    intro a _ h
    rw [decide_eq_true_eq] at h
    exact h.2 (hg.mem_preds.mpr h.1)

/-! ### One node in the place of another -/

section Replaced

variable (hg : g.Linked) (hne : target ≠ node) (honly : ∀ s ∈ g.succs node, s = target)

include hg hne honly

/-- A node with no other successor than `target` is gone from its list there, and the predecessors
of the node come behind those that are left. -/
theorem Graph.Linked.filter_preds_replaced (b : NodeId) :
    ((g.preds b).filter fun a =>
        b ∈ if node = a then [] else (g.succs a).map (divert node target)) ++
      ((g.preds node).filter fun a =>
        b ∈ (if node = a then [] else (g.succs a).map (divert node target)) ∧ a ∉ g.preds b) =
      if b = node then []
      else if b = target then
        ((g.preds b).filter fun a => a ≠ node) ++ (g.preds node).filter fun a => a ∉ g.preds b
      else g.preds b := by
  have hlead {a : NodeId} : (b ∈ if node = a then [] else (g.succs a).map (divert node target)) ↔
      a ≠ node ∧ (b ∈ g.succs a ∧ b ≠ node ∨ b = target ∧ (node ∈ g.succs a ∨ b ∈ g.succs a)) := by
    split
    · next he => exact iff_of_false List.not_mem_nil fun h => h.1 he.symm
    · next he =>
        rw [mem_map_divert hne.symm]
        grind
  have hpreds {a c : NodeId} : a ∈ g.preds c ↔ c ∈ g.succs a := hg.mem_preds
  simp only [hlead, hpreds]
  split
  · next hb =>
      rw [List.filter_eq_nil_iff.mpr (by grind), List.filter_eq_nil_iff.mpr (by grind),
        List.append_nil]
  · next hb =>
      split
      · next ht =>
          congr 1
          · exact List.filter_congr fun a ha => by grind
          · exact List.filter_congr fun a ha => by grind
      · next ht =>
          rw [List.filter_eq_self.mpr (by grind), List.filter_eq_nil_iff.mpr (by grind),
            List.append_nil]

end Replaced

/-- The predecessors of a bypassed node come behind those that the target had. -/
theorem Graph.Linked.preds_bypass (hg : g.Linked) (ht : g.isLive target = true) (b : NodeId) :
    (g.bypass node target (g.preds node)).preds b =
      if b = node then []
      else if b = target then g.preds b ++ (g.preds node).filter fun a => a ∉ g.preds b
      else g.preds b := by
  rw [bypass_eq, preds_vacate, preds_rerouted (hg.nodup_preds node)]
  exact if_congr eq_comm rfl (if_congr (and_iff_left ht) rfl rfl)

/-- Another node takes the place of one that has no successors. -/
theorem Graph.Linked.rewires_bypass (hg : g.Linked) (ht : g.isLive target = true)
    (hne : target ≠ node) (hnil : g.succs node = []) :
    Rewires g (g.bypass node target (g.preds node)) [node] (g.preds node) fun a =>
      (g.succs a).map (divert node target) where
  bound_eq := bound_bypass ..
  start_eq := start_bypass ..
  kind_eq a := by
    rw [kind?_bypass]
    exact if_congr (by rw [List.mem_singleton, eq_comm]) rfl rfl
  succs_eq a := by
    rw [hg.succs_bypass]
    split
    · next he => rw [← he, hnil, List.map_nil]
    · rfl
  preds_eq b := by
    have hout : ∀ a ∈ g.preds b, decide (a ≠ node) = true := fun a ha => by
      have : b ∈ g.succs a := hg.mem_preds.mp ha
      grind
    simp only [hg.succs_bypass]
    rw [hg.filter_preds_replaced hne (by simp [hnil]), hg.preds_bypass ht,
      List.filter_eq_self.mpr hout]

/-- The only other successor of a node takes its place. -/
theorem Graph.Linked.rewires_splice (hg : g.Linked) (hne : target ≠ node)
    (hs : g.succs node = [target]) :
    Rewires g ((g.bypass node target (g.preds node)).unlink node target) [node] (g.preds node)
      fun a => if a = node then [] else (g.succs a).map (divert node target) where
  bound_eq := (bound_unlink ..).trans (bound_bypass ..)
  start_eq := (start_unlink ..).trans (start_bypass ..)
  kind_eq a := by
    rw [kind?_unlink, kind?_bypass]
    exact if_congr (by rw [List.mem_singleton, eq_comm]) rfl rfl
  succs_eq a := by
    rw [succs_unlink, hg.succs_bypass]
    exact if_congr eq_comm rfl rfl
  preds_eq b := by
    have ht : g.isLive target = true := hg.isLive_succ (hs ▸ List.mem_singleton_self target)
    have hself : ∀ a ∈ (g.preds node).filter (fun a => a ∉ g.preds b), decide (a ≠ node) = true :=
      fun a ha => by
        have : node ∈ g.succs a := hg.mem_preds.mp (List.mem_filter.mp ha).1
        grind
    simp only [succs_unlink, hg.succs_bypass]
    rw [hg.filter_preds_replaced hne (by simp [hs]), preds_unlink, hg.succs_bypass, if_pos rfl,
      hg.preds_bypass ht]
    by_cases hb : b = target
    · rw [if_pos ⟨hb, List.not_mem_nil⟩, if_neg (hb ▸ hne), if_pos hb, if_neg (hb ▸ hne), if_pos hb,
        List.filter_append, List.filter_eq_self.mpr hself]
    · rw [if_neg fun h => hb h.1, if_neg hb, if_neg hb]

/-! ### The operations -/

/-- Moving all edges between two nodes is a rewiring, also when nothing moves. -/
theorem Graph.Linked.rewires_moveEdges (hg : g.Linked) (hnew : g.isLive new = true)
    (hold : old ∈ g.succs node) :
    Rewires g (g.moveEdges node old new) [] [node] fun a =>
      if a = node then (g.succs a).map (divert old new) else g.succs a := by
  by_cases hon : old = new
  · subst hon
    simp only [map_divert_self, ite_self]
    rw [Graph.moveEdges, if_pos rfl]
    exact hg.rewires_self [node]
  · rw [moveEdges_eq hon]
    exact hg.rewires_rewired List.map_nil (moved_map hon hold) hnew

theorem Graph.Linked.rewires_moveEdge {position : Nat} (hg : g.Linked) (hnew : g.isLive new = true)
    (hold : (g.succs node)[position]? = some old) :
    Rewires g (g.moveEdge node position old new) [] [node] fun a =>
      if a = node then (g.succs a).set position new else g.succs a := by
  rw [moveEdge_eq]
  exact hg.rewires_rewired List.set_nil (moved_set hold) hnew

/-- Every operation that rewires a built graph and goes through substitutes on the successor lists,
keeps all else where it is, and lets no predecessor list change more than it must.  When a node
gives its place to another one, its predecessors come to the list there in the order in which it had
them. -/
theorem rewiring_exact (hg : Built g) :
    (∀ {node old new h}, Edit.replaceSucc node old new g = .ok () h →
      Rewires g h [] [node] fun a =>
        if a = node then (g.succs a).map (divert old new) else g.succs a) ∧
    (∀ {node position new h}, Edit.redirectEdge node position new g = .ok () h →
      position < (g.succs node).length ∧ Rewires g h [] [node] fun a =>
        if a = node then (g.succs a).set position new else g.succs a) ∧
    (∀ {stub real h}, Edit.substituteStub stub real g = .ok () h →
      Rewires g h [stub] (g.preds stub) fun a => (g.succs a).map (divert stub real)) ∧
    ∀ {node h}, Edit.removeNode node g = .ok () h → ∃ next, g.succs node = [next] ∧ next ≠ node ∧
      Rewires g h [node] (g.preds node) fun a =>
        if a = node then [] else (g.succs a).map (divert node next) := by
  have hl := hg.wellFormed.toLinked
  refine ⟨?replaceSucc, ?redirectEdge, ?substituteStub, ?removeNode⟩
  case replaceSucc =>
    intro node old new h hok
    rcases Edit.replaceSucc_cases node old new g with ⟨e, he⟩ | ⟨he, hnew, hold, -⟩
    · cases he.symm.trans hok
    · cases he.symm.trans hok
      exact hl.rewires_moveEdges hnew hold
  case redirectEdge =>
    intro node position new h hok
    rcases Edit.redirectEdge_cases node position new g with ⟨e, he⟩ | ⟨old, he, hnew, hold, -⟩
    · cases he.symm.trans hok
    · cases he.symm.trans hok
      exact ⟨(List.getElem?_eq_some_iff.mp hold).1, hl.rewires_moveEdge hnew hold⟩
  case substituteStub =>
    intro stub real h hok
    rcases Edit.substituteStub_cases stub real g with ⟨e, he⟩ | ⟨he, hreal, hstub, hne, -⟩
    · cases he.symm.trans hok
    · cases he.symm.trans hok
      exact hl.rewires_bypass hreal (Ne.symm hne) (hg.wellFormed.succs_of_stub hstub)
  case removeNode =>
    intro node h hok
    rcases Edit.removeNode_cases node g with ⟨e, he⟩ | ⟨next, he, -, hs, hne⟩
    · cases he.symm.trans hok
    · cases he.symm.trans hok
      exact ⟨next, hs, hne, hl.rewires_splice hne hs⟩

/-- A branch with both edges to a stub, and one with an edge to it and one to an assignment that
goes to the return. -/
def wired : Graph :=
  after (Edit.addBranch (.temp "x") 3 1) (after (Edit.addBranch (.temp "x") 1 1)
    (after (Edit.addAssign "x" (.const 1) 0) (after (Edit.addAssign "x" (.const 2) 1)
      (after Edit.addStub (after Edit.addReturn .empty)))))

/-- The assignment that takes the place of the stub keeps its own predecessor in front. -/
theorem rewiring_exact_wired :
    Built wired ∧
      (∃ h, Edit.replaceSucc 4 1 3 wired = .ok () h ∧ h.succs 4 = [3, 3] ∧
        h.preds 1 = [2, 5] ∧ h.preds 3 = [5, 4]) ∧
      (∃ h, Edit.redirectEdge 4 1 3 wired = .ok () h ∧ h.succs 4 = [1, 3] ∧
        h.preds 1 = [2, 4, 5] ∧ h.preds 3 = [5, 4]) ∧
      (∃ h, Edit.substituteStub 1 3 wired = .ok () h ∧ h.kind? 1 = none ∧
        h.succs 4 = [3, 3] ∧ h.preds 3 = [5, 2, 4]) ∧
      ∃ h, Edit.removeNode 3 wired = .ok () h ∧ h.kind? 3 = none ∧
        h.succs 5 = [0, 1] ∧ h.preds 0 = [5] := by
  have hg : Built wired :=
    .tail (.tail (.tail (.tail (.tail (.single (.addReturn _)) (.addStub _)) (.addAssign _ _ _ _))
      (.addAssign _ _ _ _)) (.addBranch _ _ _ _)) (.addBranch _ _ _ _)
  obtain ⟨hreplace, hredirect, hsubstitute, hremove⟩ := rewiring_exact hg
  have replaced := hreplace (show Edit.replaceSucc 4 1 3 wired = .ok () _ from rfl)
  have redirected := (hredirect (show Edit.redirectEdge 4 1 3 wired = .ok () _ from rfl)).2
  have substituted := hsubstitute (show Edit.substituteStub 1 3 wired = .ok () _ from rfl)
  obtain ⟨next, hnext, -, removed⟩ := hremove (show Edit.removeNode 3 wired = .ok () _ from rfl)
  obtain rfl : 0 = next := by
    have hzero : wired.succs 3 = [0] := by decide +kernel
    rwa [hzero, List.singleton_inj] at hnext
  exact ⟨hg,
    ⟨_, rfl, (replaced.succs_eq 4).trans (by decide +kernel),
      (replaced.preds_eq 1).trans (by decide +kernel),
      (replaced.preds_eq 3).trans (by decide +kernel)⟩,
    ⟨_, rfl, (redirected.succs_eq 4).trans (by decide +kernel),
      (redirected.preds_eq 1).trans (by decide +kernel),
      (redirected.preds_eq 3).trans (by decide +kernel)⟩,
    ⟨_, rfl, (substituted.kind_eq 1).trans (by decide +kernel),
      (substituted.succs_eq 4).trans (by decide +kernel),
      (substituted.preds_eq 3).trans (by decide +kernel)⟩,
    ⟨_, rfl, (removed.kind_eq 3).trans (by decide +kernel),
      (removed.succs_eq 5).trans (by decide +kernel),
      (removed.preds_eq 0).trans (by decide +kernel)⟩⟩

end Flowgraph

import Flowgraph.Graph.Audit
import Flowgraph.Proofs.Changes
import Flowgraph.Proofs.Reach
import Mathlib.Data.List.Nodup

/-!
# Well-formed graphs

A graph is *well formed* when its lists fit together and its start is its one start node.  Every
change keeps this, fills slots only at the end and never fills a vacant one.

* `WellFormed.attach`, `WellFormed.swept`: kept when a node is added and when a graph is swept.
* `Change.wellFormed`, `Change.bound_le`, `Change.vacant`: what one change keeps.
* `Changes.wellFormed`, `Changes.bound_le`, `Changes.vacant`: what a sequence of changes keeps.
* `WellFormed.nodeDefects`: an audit finds nothing wrong with any single node.
* `WellFormed.verify_eq_ok_iff`, `WellFormed.verify_eq_error`: what an audit can still find.
-/

namespace Flowgraph

namespace Graph

/-- The lists of the graph fit together, and its start is the start node, if there is one. -/
structure WellFormed (g : Graph) : Prop extends g.Linked where
  start_iff : ∀ {s}, g.start = some s ↔ g.kind? s = some .start

variable {g : Graph} {a b s : NodeId}

theorem wellFormed_empty : Graph.empty.WellFormed where
  toLinked := linked_empty
  start_iff := by simp [kind?, node?, empty]

/-- Where the lists fit together, all that a stub lists as predecessors leads to it: no stub is kept
in its place by a missing link. -/
theorem Linked.requireLinks_eq (hg : g.Linked) (stub : NodeId) :
    Edit.requireLinks stub (g.preds stub) g = .ok () g :=
  Edit.requireLinks_eq fun _ => hg.mem_preds.mp

/-- A sweep restricts a graph to what the start leads to. -/
theorem swept_of_start (hs : g.start = some s) :
    g.swept = g.restrict fun n => g.reachable.contains n := by
  rw [swept, hs]

/-- Without a start a sweep drops nothing. -/
theorem swept_of_no_start (hs : g.start = none) : g.swept = g ∧ g.unreachable = [] := by
  rw [swept, unreachable, hs]
  exact ⟨rfl, rfl⟩

theorem bound_swept (g : Graph) : g.swept.bound = g.bound := by
  rw [swept]
  split
  · rfl
  · exact bound_restrict ..

theorem start_swept (g : Graph) : g.swept.start = g.start := by
  rw [swept]
  split
  · rfl
  · exact start_restrict ..

namespace WellFormed

/-- The start is a node. -/
theorem isLive_start (hg : g.WellFormed) (hs : g.start = some s) : g.isLive s = true :=
  isLive_of_kind? (hg.start_iff.mp hs)

/-- The search from the start finds what it leads to. -/
theorem mem_reachable (hg : g.WellFormed) (hs : g.start = some s) :
    a ∈ g.reachable ↔ g.Reaches s a :=
  hg.toLinked.mem_reachable hs (hg.isLive_start hs)

/-- The nodes that the start leads to are closed under successors. -/
theorem mem_reachable_of_succ (hg : g.WellFormed) (hs : g.start = some s) (ha : a ∈ g.reachable)
    (h : b ∈ g.succs a) : b ∈ g.reachable :=
  (hg.mem_reachable hs).mpr (((hg.mem_reachable hs).mp ha).tail h)

/-- A stub has no successors. -/
theorem succs_of_stub (hg : g.WellFormed) (h : g.kind? a = some .stub) : g.succs a = [] :=
  List.eq_nil_of_length_eq_zero (hg.degree h)

/-- Adding a node keeps a graph well formed, if there is no second start. -/
theorem attach (hg : g.WellFormed) {kind : Kind} {succs : List NodeId}
    (hlen : succs.length = kind.arity) (hstart : kind = .start → g.start = none)
    (hlive : ∀ s ∈ succs, g.isLive s = true) : (g.attach kind succs).WellFormed where
  toLinked := hg.toLinked.attach hlen hlive
  start_iff {s} := by
    have hnew : g.kind? g.bound = none := by
      rw [kind?, node?_eq_none_of_bound_le (Nat.le_refl _)]; rfl
    have hs := hg.start_iff (s := s)
    rw [start_attach, kind?_attach]
    by_cases hk : kind = .start
    · -- there was no start before
      have hno : g.kind? s ≠ some .start := by simp [← hs, hstart hk]
      rw [if_pos (Kind.isStart_iff.mpr hk)]
      grind
    · rw [if_neg (mt Kind.isStart_iff.mp hk)]
      grind

/-- A sweep keeps the start. -/
theorem swept (hg : g.WellFormed) : g.swept.WellFormed := by
  rw [Graph.swept]
  cases hs : g.start with
  | none => exact hg
  | some t =>
      have hmem {a : NodeId} : g.reachable.contains a = true ↔ a ∈ g.reachable :=
        List.contains_iff_mem
      refine ⟨hg.restrict fun a b ha hb => ?_, fun {s} => ?_⟩
      · exact hmem.mpr (hg.mem_reachable_of_succ hs (hmem.mp ha) hb)
      · rw [start_restrict, kind?_restrict]
        split
        · exact hg.start_iff
        · next hns =>
            refine iff_of_false (fun e => hns ?_) (by simp)
            rw [hs] at e
            exact hmem.mpr (Option.some.inj e ▸ (hg.mem_reachable hs).mpr .refl)

/-! ### What a sweep leaves -/

theorem contains_reachable_iff (hg : g.WellFormed) (hs : g.start = some s) :
    g.reachable.contains a = true ↔ g.Reaches s a :=
  List.contains_iff_mem.trans (hg.mem_reachable hs)

/-- After a sweep there are the nodes that the start leads to, of the same kinds. -/
theorem kind?_swept_iff (hg : g.WellFormed) (hs : g.start = some s) {kind : Kind} :
    g.swept.kind? a = some kind ↔ g.Reaches s a ∧ g.kind? a = some kind := by
  rw [swept_of_start hs, kind?_restrict, ← hg.contains_reachable_iff hs]
  split
  · next h => exact (and_iff_right h).symm
  · next h => exact iff_of_false nofun fun hk => h hk.1

theorem kind?_swept (hg : g.WellFormed) (hs : g.start = some s) (ha : g.Reaches s a) :
    g.swept.kind? a = g.kind? a := by
  rw [swept_of_start hs, kind?_restrict, if_pos ((hg.contains_reachable_iff hs).mpr ha)]

theorem isLive_swept_iff (hg : g.WellFormed) (hs : g.start = some s) :
    g.swept.isLive a = true ↔ g.Reaches s a := by
  rw [isLive_iff_kind?]
  simp only [hg.kind?_swept_iff hs, exists_and_left]
  refine and_iff_left_of_imp fun h => isLive_iff_kind?.mp ?_
  exact hg.toLinked.isLive_of_reaches (hg.isLive_start hs) h

/-- Their edges are the same. -/
theorem mem_succs_swept (hg : g.WellFormed) (hs : g.start = some s) :
    b ∈ g.swept.succs a ↔ g.Reaches s a ∧ b ∈ g.succs a := by
  rw [swept_of_start hs, succs_restrict, ← hg.contains_reachable_iff hs]
  split
  · next h => exact (and_iff_right h).symm
  · next h => exact iff_of_false List.not_mem_nil fun hb => h hb.1

theorem succs_swept (hg : g.WellFormed) (hs : g.start = some s) (ha : g.Reaches s a) :
    g.swept.succs a = g.succs a := by
  rw [swept_of_start hs, succs_restrict, if_pos ((hg.contains_reachable_iff hs).mpr ha)]

/-- If everything is reached, a sweep changes nothing. -/
theorem swept_eq_self (hg : g.WellFormed) (hs : g.start = some s) (h : g.unreachable = []) :
    g.swept = g := by
  have hall {n : NodeId} (hn : g.isLive n = true) : g.reachable.contains n = true := by
    rw [unreachable, hs] at h
    simpa using List.filter_eq_nil_iff.mp h n (mem_ids.mpr hn)
  rw [swept_of_start hs]
  refine eq_of_node? (bound_restrict ..) (start_restrict ..) fun id => ?_
  rw [node?_restrict]
  cases hn : g.node? id with
  | none => split <;> rfl
  | some n =>
      rw [if_pos (hall (isLive_iff.mpr ⟨n, hn⟩)), Option.map_some]
      have hpreds : n.preds.filter (fun p => g.reachable.contains p) = n.preds :=
        List.filter_eq_self.mpr fun p hp => hall (hg.isLive_pred (preds_of_node? hn ▸ hp))
      rw [hpreds]

end WellFormed

end Graph

open Flowgraph.Graph

variable {g h : Graph}

namespace Change

/-- One change keeps a graph well formed. -/
theorem wellFormed (c : Change g h) (hg : g.WellFormed) : h.WellFormed := by
  cases c with
  | attach hlen hstart hlive => exact hg.attach hlen hstart hlive
  | moveEdges hnew hold hself =>
      exact ⟨hg.moveEdges hnew hold hself, fun {s} => by
        rw [start_moveEdges, kind?_moveEdges, hg.start_iff]⟩
  | moveEdge hnew hold hself =>
      exact ⟨hg.moveEdge hnew hold hself, fun {s} => by
        rw [start_moveEdge, kind?_moveEdge, hg.start_iff]⟩
  | @substitute stub real hreal hkind hne =>
      refine ⟨hg.bypass hreal hne (hg.succs_of_stub hkind), fun {s} => ?_⟩
      rw [start_bypass, kind?_bypass, hg.start_iff]
      grind
  | @discard stub hkind hpreds =>
      refine ⟨hg.vacate (hg.succs_of_stub hkind) hpreds, fun {s} => ?_⟩
      rw [start_vacate, kind?_vacate, hg.start_iff]
      grind
  | @splice node next hstart hsucc hne =>
      refine ⟨hg.splice hne hsucc, fun {s} => ?_⟩
      rw [start_unlink, start_bypass, kind?_unlink, kind?_bypass]
      split
      · next e => simpa [e] using hstart
      · exact hg.start_iff
  | sweep => exact hg.swept

/-- Slots are only ever added. -/
theorem bound_le (c : Change g h) : g.bound ≤ h.bound := by
  cases c with
  | attach => simp
  | moveEdges => simp
  | moveEdge => simp
  | substitute => simp
  | discard => simp
  | splice => simp
  | sweep => rw [swept]; split <;> simp

/-- A slot that has been vacated is not filled again. -/
theorem vacant {id : NodeId} (c : Change g h) (hid : id < g.bound) (hv : g.isLive id = false) :
    h.isLive id = false := by
  cases c with
  | attach => rw [isLive_attach, if_neg (Nat.ne_of_lt hid)]; exact hv
  | moveEdges => rwa [isLive_moveEdges]
  | moveEdge => rwa [isLive_moveEdge]
  | substitute => rw [isLive_bypass, hv]; split <;> rfl
  | discard => rw [isLive_vacate, hv]; split <;> rfl
  | splice => rw [isLive_unlink, isLive_bypass, hv]; split <;> rfl
  | sweep =>
      rw [swept]
      split
      · exact hv
      · rw [isLive_restrict, hv, Bool.and_false]

end Change

namespace Changes

/-- So does a sequence of changes. -/
theorem wellFormed (c : Changes g h) (hg : g.WellFormed) : h.WellFormed := by
  induction c with
  | refl => exact hg
  | tail _ hstep ih => exact hstep.wellFormed ih

/-- Slots are never given up. -/
theorem bound_le (c : Changes g h) : g.bound ≤ h.bound := by
  induction c with
  | refl => exact Nat.le_refl _
  | tail _ hstep ih => exact Nat.le_trans ih hstep.bound_le

/-- A slot that has become vacant stays so. -/
theorem vacant {id : NodeId} (c : Changes g h) (hid : id < g.bound) (hv : g.isLive id = false) :
    h.isLive id = false := by
  induction c with
  | refl => exact hv
  | tail c hstep ih => exact hstep.vacant (Nat.lt_of_lt_of_le hid (bound_le c)) ih

end Changes

/-- What a proper computation leaves is well formed. -/
theorem Proper.wellFormed_of_ok {α : Type} {e : Edit α} {a : α} (he : Proper id e)
    (hok : e g = .ok a h) (hg : g.WellFormed) : h.WellFormed :=
  Changes.wellFormed (he.changes_of_ok hok) hg

namespace Graph.WellFormed

variable {n : Node} {id s t : NodeId}

/-! ### What an audit can still find -/

/-- An audit finds nothing wrong with an edge. -/
theorem edgeDefects (hg : g.WellFormed) {target : NodeId} (h : target ∈ g.succs id) :
    g.edgeDefects id target = [] := by
  simp [Graph.edgeDefects, hg.isLive_succ h, hg.mem_preds.mpr h]

/-- Nor with a predecessor. -/
theorem predDefects (hg : g.WellFormed) {pred : NodeId} {earlier : List NodeId}
    (h : pred ∈ g.preds id) (hnew : pred ∉ earlier) : g.predDefects id earlier pred = [] := by
  simp [Graph.predDefects, hg.isLive_pred h, hg.mem_preds.mp h, hnew]

/-- Nothing is wrong with a single node. -/
theorem nodeDefects (hg : g.WellFormed) (hs : g.start = some s) (hn : g.node? id = some n) :
    g.nodeDefects s id n = [] := by
  have hk := kind?_of_node? hn
  have hsu := succs_of_node? hn
  have hpr := preds_of_node? hn
  have hdeg : n.succs.length = n.kind.degree := hsu ▸ hg.degree hk
  have hstart : (n.kind.isStart && id != s) = false := by
    by_cases h : n.kind = .start
    · have : g.start = some id := hg.start_iff.mpr (h ▸ hk)
      rw [hs, Option.some.injEq] at this
      simp [this]
    · simp [Bool.eq_false_iff.mpr (mt Kind.isStart_iff.mp h)]
  have hself : (n.kind.isSelfLoop && n.succs != [id]) = false := by
    by_cases h : n.kind = .selfLoop
    · simp [← hsu, hg.selfLoop (h ▸ hk)]
    · simp [Bool.eq_false_iff.mpr (mt Kind.isSelfLoop_iff.mp h)]
  have hedges : n.succs.flatMap (g.edgeDefects id) = [] :=
    List.flatMap_eq_nil_iff.mpr fun t ht => hg.edgeDefects (hsu ▸ ht)
  have hpreds : ∀ e ∈ n.preds.zipIdx, g.predDefects id (n.preds.take e.2) e.1 = [] := by
    rintro ⟨p, i⟩ hp
    obtain ⟨hi, e⟩ : ∃ hi : i < n.preds.length, n.preds[i] = p :=
      List.getElem?_eq_some_iff.mp (List.mem_zipIdx_iff_getElem?.mp hp)
    subst e
    refine hg.predDefects (by rw [hpr]; exact List.getElem_mem hi) fun htake => ?_
    -- the same predecessor would be listed at an earlier position
    obtain ⟨j, hj, e⟩ := List.mem_take_iff_getElem.mp htake
    have hnd : n.preds.Nodup := hpr ▸ hg.nodup_preds id
    have := (List.Nodup.getElem_inj_iff hnd).mp e
    omega
  rw [Graph.nodeDefects, if_pos hdeg, hstart, hself, hedges, List.flatMap_eq_nil_iff.mpr hpreds]
  rfl

/-- All that an audit can find is a predecessor of the start, or a stub. -/
theorem defects_eq (hg : g.WellFormed) (hs : g.start = some s) :
    g.defects s = (if (g.preds s).isEmpty then [] else [.startHasPreds s]) ++ g.stubDefects := by
  have hnodes : (g.ids.flatMap fun id => ((g.node? id).map (g.nodeDefects s id)).getD []) = [] := by
    refine List.flatMap_eq_nil_iff.mpr fun id _ => ?_
    cases hn : g.node? id with
    | none => rfl
    | some n => exact hg.nodeDefects hs hn
  rw [defects, hnodes, List.append_nil]

/-- It finds the stubs that the start leads to. -/
theorem mem_stubDefects (hg : g.WellFormed) (hs : g.start = some s) {d : Defect} :
    d ∈ g.stubDefects ↔ ∃ t, d = .reachableStub t ∧ g.Reaches s t ∧ g.kind? t = some .stub := by
  have hstub {t : NodeId} : ((g.kind? t).map Kind.isStub).getD false = true ↔
      g.kind? t = some .stub := by
    cases g.kind? t <;> simp
  simp only [stubDefects, List.mem_map, List.mem_filter, Bool.and_eq_true, hstub,
    List.contains_iff_mem, hg.mem_reachable hs, mem_ids]
  constructor
  · rintro ⟨t, ⟨-, hr, hk⟩, rfl⟩
    exact ⟨t, rfl, hr, hk⟩
  · rintro ⟨t, rfl, hr, hk⟩
    exact ⟨t, ⟨isLive_of_kind? hk, hr, hk⟩, rfl⟩

/-- A well-formed graph passes its audit exactly if it has a start, nothing leads to the start, and
the start leads to no stub. -/
theorem verify_eq_ok_iff (hg : g.WellFormed) :
    g.verify = .ok () ↔
      ∃ s, g.start = some s ∧ g.preds s = [] ∧ ∀ n, g.Reaches s n → g.kind? n ≠ some .stub := by
  cases hs : g.start with
  | none => simp [verify, hs]
  | some s =>
      have hnil : g.defects s = [] ↔
          g.preds s = [] ∧ ∀ n, g.Reaches s n → g.kind? n ≠ some .stub := by
        have hstubs : g.stubDefects = [] ↔ ∀ n, g.Reaches s n → g.kind? n ≠ some .stub := by
          rw [List.eq_nil_iff_forall_not_mem]
          refine ⟨fun h n hr hk => h _ ((hg.mem_stubDefects hs).mpr ⟨n, rfl, hr, hk⟩), ?_⟩
          rintro h d hd
          obtain ⟨t, -, hr, hk⟩ := (hg.mem_stubDefects hs).mp hd
          exact h t hr hk
        rw [hg.defects_eq hs, List.append_eq_nil_iff, hstubs]
        cases g.preds s <;> simp
      have hok : (∃ t, some s = some t ∧ g.preds t = [] ∧
          ∀ n, g.Reaches t n → g.kind? n ≠ some .stub) ↔ g.defects s = [] := by
        rw [hnil]
        exact ⟨fun ⟨t, ht, h⟩ => (Option.some.inj ht) ▸ h, fun h => ⟨s, rfl, h⟩⟩
      rw [hok, verify, hs]
      cases hd : g.defects s <;> simp [hd]

/-- Otherwise the start is missing, something leads to it, or it leads to a stub. -/
theorem verify_eq_error (hg : g.WellFormed) {d : Defect} (h : g.verify = .error (.inconsistent d)) :
    ∃ s, g.start = some s ∧
      (d = .startHasPreds s ∧ g.preds s ≠ [] ∨
        ∃ t, d = .reachableStub t ∧ g.Reaches s t ∧ g.kind? t = some .stub) := by
  rw [verify] at h
  cases hs : g.start with
  | none => rw [hs] at h; cases h
  | some s =>
      rw [hs] at h
      cases hd : g.defects s with
      | nil => simp [hd] at h
      | cons d' ds =>
          obtain rfl : d' = d := by simpa [hd] using h
          have hmem : d' ∈ g.defects s := by rw [hd]; exact List.mem_cons_self
          rw [hg.defects_eq hs, List.mem_append, hg.mem_stubDefects hs] at hmem
          refine ⟨s, rfl, hmem.imp (fun hp => ?_) id⟩
          cases hps : g.preds s with
          | nil => simp [hps] at hp
          | cons p ps => simpa [hps] using hp

end Graph.WellFormed

end Flowgraph

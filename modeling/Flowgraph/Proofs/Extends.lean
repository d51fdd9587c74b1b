import Flowgraph.Proofs.WellFormed

/-!
# Graphs that hold another one

Transformations build new nodes beside the old ones.  A graph *extends* another one if all slots
that the other has are as they were, as far as a run can tell: their kinds and their successors.

* `Extends.attach`: a new node changes no other one.
* `Edit.cloneNode_ok`, `Edit.resolveStub_ok`: what building and resolving leave, seen by a run.
* `Extends.resolve`: resolving a new stub changes no old node.
-/

namespace Flowgraph

open Flowgraph.Graph

variable {g h k : Graph} {n m c stub real : NodeId} {succs : List NodeId}

namespace Graph

/-- The slots of `g` have the same kinds and the same successors in `h`. -/
structure Extends (g h : Graph) : Prop where
  bound_le : g.bound ≤ h.bound
  kind_eq : ∀ {n}, n < g.bound → h.kind? n = g.kind? n
  succs_eq : ∀ {n}, n < g.bound → h.succs n = g.succs n

theorem lt_bound_of_kind? {kind : Kind} (h : g.kind? n = some kind) : n < g.bound :=
  lt_bound_of_isLive (isLive_of_kind? h)

theorem lt_bound_attach (g : Graph) (kind : Kind) (succs : List NodeId) :
    g.bound < (g.attach kind succs).bound := by
  rw [bound_attach]
  exact Nat.lt_succ_self _

namespace Extends

theorem refl (g : Graph) : g.Extends g := ⟨Nat.le_refl _, fun _ => rfl, fun _ => rfl⟩

/-- A graph can be extended further. -/
theorem trans (hgh : g.Extends h) (hhk : h.Extends k) : g.Extends k where
  bound_le := Nat.le_trans hgh.bound_le hhk.bound_le
  kind_eq hn := (hhk.kind_eq (Nat.lt_of_lt_of_le hn hgh.bound_le)).trans (hgh.kind_eq hn)
  succs_eq hn := (hhk.succs_eq (Nat.lt_of_lt_of_le hn hgh.bound_le)).trans (hgh.succs_eq hn)

/-- Adding a node extends a graph. -/
theorem attach (g : Graph) (kind : Kind) (succs : List NodeId) :
    g.Extends (g.attach kind succs) where
  bound_le := Nat.le_of_lt (lt_bound_attach g kind succs)
  kind_eq hn := by rw [kind?_attach, if_neg (Nat.ne_of_lt hn)]
  succs_eq hn := by rw [succs_attach, if_neg (Nat.ne_of_lt hn)]

theorem kind?_of_some (hgh : g.Extends h) {kind : Kind} (hn : g.kind? n = some kind) :
    h.kind? n = some kind :=
  (hgh.kind_eq (lt_bound_of_kind? hn)).trans hn

theorem isLive (hgh : g.Extends h) (hn : g.isLive n = true) : h.isLive n = true := by
  obtain ⟨kind, hk⟩ := isLive_iff_kind?.mp hn
  exact isLive_of_kind? (hgh.kind?_of_some hk)

end Extends

/-! ### Resolving a stub -/

/-- A stub is gone, and what led to it leads to another node. -/
structure Resolves (stub real : NodeId) (g h : Graph) : Prop where
  bound_eq : h.bound = g.bound
  kind_eq : ∀ n, h.kind? n = if stub = n then none else g.kind? n
  succs_eq : ∀ n, h.succs n = if stub = n then [] else (g.succs n).map (divert stub real)

namespace Resolves

theorem kind?_of_ne (hr : Resolves stub real g h) (hn : stub ≠ n) : h.kind? n = g.kind? n := by
  rw [hr.kind_eq, if_neg hn]

/-- Elsewhere edges to the stub have become edges to the other node. -/
theorem succs_of_ne (hr : Resolves stub real g h) (hn : stub ≠ n) :
    h.succs n = (g.succs n).map (divert stub real) := by
  rw [hr.succs_eq, if_neg hn]

end Resolves

/-- Resolving a stub changes nothing in what was there before the stub. -/
theorem Extends.resolve (hgh : g.Extends h) (hg : g.Linked) (hstub : g.bound ≤ stub)
    (hr : Resolves stub real h k) : g.Extends k where
  bound_le := hr.bound_eq ▸ hgh.bound_le
  kind_eq hn := by
    rw [hr.kind?_of_ne (Nat.ne_of_gt (Nat.lt_of_lt_of_le hn hstub)), hgh.kind_eq hn]
  succs_eq {n} hn := by
    rw [hr.succs_of_ne (Nat.ne_of_gt (Nat.lt_of_lt_of_le hn hstub)), hgh.succs_eq hn]
    refine map_divert_of_not_mem fun hmem => ?_
    exact Nat.not_lt.mpr hstub (lt_bound_of_isLive (hg.isLive_succ hmem))

end Graph

namespace Edit

/-- If a node is added it is attached in the next slot. -/
theorem addNode_ok {kind : Kind} (hok : addNode kind succs g = .ok n h) :
    n = g.bound ∧ h = g.attach kind succs := by
  rcases addNode_cases kind succs g with ⟨e, he⟩ | ⟨he, -⟩
  · rw [he] at hok; cases hok
  · rw [he] at hok; cases hok; exact ⟨rfl, rfl⟩

/-- If a node is copied the copy has its kind. -/
theorem cloneNode_ok (hok : cloneNode m succs g = .ok n h) :
    ∃ kind, g.kind? m = some kind ∧ n = g.bound ∧ h = g.attach kind succs := by
  rcases cloneNode_cases m succs g with ⟨e, he⟩ | ⟨kind, hk, he⟩
  · rw [he] at hok; cases hok
  · rw [he] at hok
    exact ⟨kind, hk, addNode_ok hok⟩

theorem replaceSucc_ok (hok : replaceSucc n m real g = .ok () h) : h = g.moveEdges n m real := by
  rcases replaceSucc_cases n m real g with ⟨e, he⟩ | ⟨he, -⟩
  · rw [he] at hok; cases hok
  · rw [he] at hok; cases hok; rfl

/-- Resolving a stub looks the same to a run, whether it was in use or not. -/
theorem resolveStub_ok (hg : g.Linked) (hok : resolveStub stub real g = .ok () h) :
    Resolves stub real g h := by
  rw [resolveStub_eq] at hok
  split at hok
  · rcases discardStub_cases stub g with ⟨e, he⟩ | ⟨he, -, hp⟩
    · rw [he] at hok; cases hok
    rw [he] at hok
    cases hok
    refine ⟨bound_vacate .., fun n => kind?_vacate .., fun n => ?_⟩
    rw [succs_vacate]
    split
    · rfl
    · refine (map_divert_of_not_mem fun hmem => ?_).symm
      exact List.ne_nil_of_mem (hg.mem_preds.mpr hmem) hp
  · rcases substituteStub_cases stub real g with ⟨e, he⟩ | ⟨he, -⟩
    · rw [he] at hok; cases hok
    rw [he] at hok
    cases hok
    exact ⟨bound_bypass .., fun n => kind?_bypass .., fun n => hg.succs_bypass ..⟩

end Edit

end Flowgraph

import Flowgraph.Proofs.Edits
import Flowgraph.Proofs.Renaming.Graphs

/-!
# Edits of a renamed graph

An operation on graphs asks a kind only for its shape, and moves nodes and edges without looking at
names.  So it does to a renamed graph what it does to the graph itself: it is refused for the same
reason, or makes the renamed change.

* `Graph.attach_rename`, `Graph.moveEdges_rename`, `Graph.bypass_rename`, `Graph.swept_rename`: the
  compound changes.
* `Edit.Renames`: two computations that run in step on every graph and its renaming; `Renames.pure`,
  `Renames.get`, `Renames.bind` put them together.
* `Edit.addNode_renames`, `Edit.replaceSucc_renames`, `Edit.resolveStub_renames`,
  `Edit.removeNode_renames`, `Edit.sweep_renames`: the operations.
-/

namespace Flowgraph

variable {ρ : String → String}

/-! ### Changes -/

namespace Graph

variable (g : Graph)

theorem push_rename (n : Node) : (g.push n).rename ρ = (g.rename ρ).push (n.rename ρ) := by
  simp [push, rename]

theorem vacate_rename (n : NodeId) : (g.vacate n).rename ρ = (g.rename ρ).vacate n :=
  eq_of_node? (by simp) rfl fun m => by
    simp only [node?_rename, node?_vacate]
    split <;> rfl

/-- A change of a node that does not look at its kind. -/
theorem update_rename (n : NodeId) {f : Node → Node} (hf : ∀ m, (f m).rename ρ = f (m.rename ρ)) :
    (g.update n f).rename ρ = (g.rename ρ).update n f :=
  eq_of_node? (by simp) rfl fun m => by
    simp only [node?_rename, node?_update]
    split
    · cases g.node? m <;> simp [hf]
    · rfl

/-- Links do not look at names. -/
theorem link_rename (source target : NodeId) :
    (g.link source target).rename ρ = (g.rename ρ).link source target :=
  g.update_rename target fun m => by
    by_cases h : source ∈ m.preds <;> simp [Node.rename, h]

theorem unlink_rename (source target : NodeId) :
    (g.unlink source target).rename ρ = (g.rename ρ).unlink source target := by
  simp only [unlink, succs_rename]
  split
  · rfl
  · exact g.update_rename target fun _ => rfl

theorem retarget_rename (source old new : NodeId) :
    (g.retarget source old new).rename ρ = (g.rename ρ).retarget source old new :=
  g.update_rename source fun _ => rfl

theorem restrict_rename (keep : NodeId → Bool) :
    (g.restrict keep).rename ρ = (g.rename ρ).restrict keep :=
  eq_of_node? (by simp [bound, restrict, rename]) rfl fun m => by
    simp only [node?_rename, node?_restrict]
    split
    · cases g.node? m <;> rfl
    · rfl

theorem moveEdges_rename (node old new : NodeId) :
    (g.moveEdges node old new).rename ρ = (g.rename ρ).moveEdges node old new := by
  simp only [moveEdges]
  split
  · rfl
  · rw [link_rename, unlink_rename, retarget_rename]

/-- Edges are listed one after the other. -/
theorem foldl_rename {step : Graph → NodeId → Graph}
    (hstep : ∀ h n, (step h n).rename ρ = step (h.rename ρ) n) (ns : List NodeId) :
    (ns.foldl step g).rename ρ = ns.foldl step (g.rename ρ) := by
  induction ns generalizing g with
  | nil => rfl
  | cons n ns ih => rw [List.foldl_cons, ih, hstep, List.foldl_cons]

/-- Nor does leading predecessors elsewhere. -/
theorem bypass_rename (node target : NodeId) (preds : List NodeId) :
    (g.bypass node target preds).rename ρ = (g.rename ρ).bypass node target preds := by
  rw [bypass, vacate_rename, foldl_rename _ fun h p => ?_, bypass]
  rw [link_rename, retarget_rename]

/-- Adding a renamed node gives the renamed graph. -/
theorem attach_rename (kind : Kind) (succs : List NodeId) :
    (g.attach kind succs).rename ρ = (g.rename ρ).attach (kind.rename ρ) succs := by
  have hlinked (targets : List NodeId) :
      (targets.foldl (fun h t => h.link g.bound t) (g.push ⟨kind, targets, []⟩)).rename ρ =
        targets.foldl (fun h t => h.link g.bound t)
          ((g.rename ρ).push ⟨kind.rename ρ, targets, []⟩) := by
    rw [foldl_rename _ fun h t => h.link_rename g.bound t, push_rename]
    rfl
  simp only [attach, Kind.isStart_rename, Kind.isSelfLoop_rename, bound_rename, ← hlinked]
  split
  · rfl
  · rfl

/-- A sweep keeps the same nodes. -/
theorem swept_rename : (g.swept).rename ρ = (g.rename ρ).swept := by
  simp only [swept, start_rename, reachable_rename]
  split
  · rfl
  · exact g.restrict_rename _

end Graph

/-! ### Computations -/

namespace Edit

variable {α β γ δ : Type} {f : α → β} {e : Edit α} {e' : Edit β}

/-- The result with its graph and its error renamed, and with `f` of what it returns. -/
def renameResult (ρ : String → String) (f : α → β) :
    EStateM.Result GraphError Graph α → EStateM.Result GraphError Graph β
  | .ok a g => .ok (f a) (g.rename ρ)
  | .error e g => .error (e.rename ρ) (g.rename ρ)

/-- On the renaming of a graph, `e'` does the renaming of what `e` does on the graph. -/
def Renames (ρ : String → String) (f : α → β) (e : Edit α) (e' : Edit β) : Prop :=
  ∀ g : Graph, e' (g.rename ρ) = renameResult ρ f (e g)

namespace Renames

/-- What succeeds on a graph succeeds on its renaming. -/
theorem ok {a : α} {g h : Graph} (hee : Renames ρ f e e') (hok : e g = .ok a h) :
    e' (g.rename ρ) = .ok (f a) (h.rename ρ) := by
  rw [hee g, hok, renameResult]

theorem pure (a : α) : Renames ρ f (pure a) (pure (f a)) := fun _ => rfl

/-- Errors are renamed where they report the kind of a node. -/
theorem throw (err : GraphError) : Renames ρ f (throw err) (throw (err.rename ρ)) := fun _ => rfl

theorem get : Renames ρ (Graph.rename ρ) get get := fun _ => rfl

/-- A change commutes with renaming if it does as a function. -/
theorem modify {change change' : Graph → Graph}
    (h : ∀ g, (change g).rename ρ = change' (g.rename ρ)) :
    Renames ρ id (modify change) (modify change') := fun g => by
  rw [modify_apply, modify_apply, ← h]
  rfl

/-- What runs in step, one after the other. -/
theorem bind {φ : γ → δ} {k : α → Edit γ} {k' : β → Edit δ} (h : Renames ρ f e e')
    (hk : ∀ a, Renames ρ φ (k a) (k' (f a))) : Renames ρ φ (e >>= k) (e' >>= k') := fun g => by
  rw [bind_apply, bind_apply, h g]
  cases e g with
  | error err s => rfl
  | ok a s => exact hk a s

theorem map {φ : γ → δ} {k : α → γ} {k' : β → δ} (h : Renames ρ f e e')
    (hk : ∀ a, φ (k a) = k' (f a)) :
    Renames ρ φ (do return k (← e)) (do return k' (← e')) :=
  h.bind fun a g => by rw [← hk]; rfl

end Renames

/-- A check that does not look at names fails for both or for neither. -/
theorem ensure_renames {p p' : Prop} [Decidable p] [Decidable p'] (hp : p ↔ p')
    (err : GraphError) : Renames ρ id (ensure p err) (ensure p' (err.rename ρ)) := fun g => by
  simp only [ensure_apply, ← hp]
  split <;> rfl

theorem require_renames (id : NodeId) :
    Renames ρ (Node.rename ρ) (require id) (require id) := fun g => by
  rw [require_apply, require_apply, Graph.node?_rename]
  cases g.node? id <;> rfl

theorem requireAll_renames (ids : List NodeId) :
    Renames ρ id (requireAll ids) (requireAll ids) := fun g => by
  rw [requireAll_apply, requireAll_apply, Graph.isLive_rename]
  cases ids.find? fun id => !g.isLive id <;> rfl

theorem requireLinks_renames (stub : NodeId) (preds : List NodeId) :
    Renames ρ id (requireLinks stub preds) (requireLinks stub preds) := fun g => by
  rw [requireLinks_apply, requireLinks_apply, Graph.succs_rename]
  cases preds.find? fun p => !(g.succs p).contains stub <;> rfl

theorem requireNoStart_renames : Renames ρ id requireNoStart requireNoStart := fun g => by
  rw [requireNoStart_apply, requireNoStart_apply, Graph.start_rename]
  cases g.start <;> rfl

/-! ### Operations -/

variable (node stub real old new : NodeId) (kind : Kind) (succs : List NodeId)

/-- Adding a renamed node is refused when adding the node is, for the same reason. -/
theorem addNode_renames :
    Renames ρ id (addNode kind succs) (addNode (kind.rename ρ) succs) := by
  -- the identifier is read off before the checks
  have hrest (fresh : NodeId) : Renames ρ id
      (do requireAll succs; modifyGet fun g => (fresh, g.attach kind succs) : Edit NodeId)
      (do requireAll succs; modifyGet fun g => (fresh, g.attach (kind.rename ρ) succs)) :=
    (requireAll_renames succs).bind fun _ g => by
      change EStateM.Result.ok _ _ = EStateM.Result.ok _ _
      rw [← Graph.attach_rename]
      rfl
  refine Renames.get.bind fun g => ?_
  rw [Kind.isStart_rename, Graph.bound_rename]
  refine (ensure_renames (by rw [Kind.arity_rename]) _).bind fun _ => ?_
  by_cases hk : kind.isStart = true
  · rw [if_pos hk, if_pos hk]
    exact requireNoStart_renames.bind fun _ => hrest g.bound
  · rw [if_neg hk, if_neg hk]
    exact hrest g.bound

theorem addStub_renames : Renames ρ id addStub addStub := addNode_renames .stub []

theorem addBranch_renames (cond : Expr) :
    Renames ρ id (addBranch cond old new) (addBranch (cond.rename ρ) old new) :=
  addNode_renames (.branch cond) [old, new]

theorem cloneNode_renames : Renames ρ id (cloneNode node succs) (cloneNode node succs) :=
  (require_renames node).bind fun n => addNode_renames n.kind succs

theorem replaceSucc_renames :
    Renames ρ id (replaceSucc node old new) (replaceSucc node old new) := by
  rw [replaceSucc]
  refine (require_renames new).bind fun _ => (require_renames node).bind fun n => ?_
  refine (ensure_renames Iff.rfl _).bind fun _ => ?_
  refine (ensure_renames (by simp [Node.rename]) _).bind fun _ => ?_
  exact Renames.modify fun g => g.moveEdges_rename node old new

/-- A stub is a stub under any names. -/
theorem substituteStub_renames :
    Renames ρ id (substituteStub stub real) (substituteStub stub real) := by
  rw [substituteStub]
  refine (require_renames real).bind fun _ => (require_renames stub).bind fun n => ?_
  refine (ensure_renames (by simp [Node.rename]) _).bind fun _ => ?_
  refine (ensure_renames Iff.rfl _).bind fun _ => (ensure_renames Iff.rfl _).bind fun _ => ?_
  refine (requireLinks_renames stub n.preds).bind fun _ => ?_
  exact Renames.modify fun g => g.bypass_rename stub real n.preds

theorem discardStub_renames : Renames ρ id (discardStub stub) (discardStub stub) := by
  rw [discardStub]
  refine (require_renames stub).bind fun n => ?_
  refine (ensure_renames (by simp [Node.rename]) _).bind fun _ => ?_
  refine (ensure_renames Iff.rfl _).bind fun _ => ?_
  exact Renames.modify fun g => g.vacate_rename stub

theorem resolveStub_renames :
    Renames ρ id (resolveStub stub real) (resolveStub stub real) := fun g => by
  rw [resolveStub_eq, resolveStub_eq, Graph.preds_rename]
  split
  · exact discardStub_renames stub g
  · exact substituteStub_renames stub real g

/-- Splicing a node out looks at its edges alone. -/
theorem removeNode_renames : Renames ρ id (removeNode node) (removeNode node) := by
  rw [removeNode]
  refine Renames.get.bind fun g => (ensure_renames Iff.rfl _).bind fun _ => ?_
  refine (require_renames node).bind fun n => ?_
  simp only [Node.rename]
  rcases n.succs with _ | ⟨next, _ | ⟨second, rest⟩⟩
  · exact Renames.throw _
  · refine (ensure_renames Iff.rfl _).bind fun _ => Renames.modify fun g => ?_
    rw [Graph.unlink_rename, Graph.bypass_rename]
  · exact Renames.throw _

theorem sweep_renames : Renames ρ id sweep sweep := fun g => by
  rw [sweep_apply, sweep_apply, Graph.unreachable_rename, ← Graph.swept_rename]
  rfl

end Edit

end Flowgraph

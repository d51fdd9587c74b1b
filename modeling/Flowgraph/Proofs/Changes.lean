import Flowgraph.Pass
import Flowgraph.Proofs.Edits
import Flowgraph.Proofs.Unroll.CopySteps
import Mathlib.Logic.Relation

/-!
# The changes that graphs go through

There are seven ways in which a graph changes, each under the conditions that the operations check.
Everything that runs on a graph, up to whole passes and whether it succeeds or is refused, leaves a
graph that a sequence of such changes leads to.

* `Change`: one change, with its conditions.
* `Proper`: a computation whose effect on a graph is a sequence of changes.
* `Edit.proper_addNode` to `Edit.proper_sweep`: the operations on graphs are proper.
* `proper_eliminateToFixpoint`, `proper_unrollLoop`, `proper_unrollLoops`: so are the
  transformations.
* `proper_run_deadCodePass`, `proper_run_unrollPass`: and so are the passes.
-/

namespace Flowgraph

open Flowgraph.Graph

variable {σ α β : Type}

/-- One change to a graph. -/
inductive Change : Graph → Graph → Prop
  | attach {g : Graph} {kind : Kind} {succs : List NodeId} (hlen : succs.length = kind.arity)
      (hstart : kind = .start → g.start = none) (hlive : ∀ s ∈ succs, g.isLive s = true) :
      Change g (g.attach kind succs)
  | moveEdges {g : Graph} {node old new : NodeId} (hnew : g.isLive new = true)
      (hold : old ∈ g.succs node) (hself : g.kind? node = some .selfLoop → new = node) :
      Change g (g.moveEdges node old new)
  | moveEdge {g : Graph} {node old new : NodeId} {position : Nat} (hnew : g.isLive new = true)
      (hold : (g.succs node)[position]? = some old) (hself : g.kind? node ≠ some .selfLoop) :
      Change g (g.moveEdge node position old new)
  | substitute {g : Graph} {stub real : NodeId} (hreal : g.isLive real = true)
      (hkind : g.kind? stub = some .stub) (hne : stub ≠ real) :
      Change g (g.bypass stub real (g.preds stub))
  | discard {g : Graph} {stub : NodeId} (hkind : g.kind? stub = some .stub)
      (hpreds : g.preds stub = []) : Change g (g.vacate stub)
  | splice {g : Graph} {node next : NodeId} (hstart : g.start ≠ some node)
      (hsucc : g.succs node = [next]) (hne : next ≠ node) :
      Change g ((g.bypass node next (g.preds node)).unlink node next)
  | sweep {g : Graph} : Change g g.swept

/-- A sequence of changes. -/
abbrev Changes : Graph → Graph → Prop := Relation.ReflTransGen Change

/-- The state that a computation leaves, whether it succeeds or not. -/
def after (m : EStateM GraphError σ α) (s : σ) : σ :=
  match m s with
  | .ok _ t => t
  | .error _ t => t

/-- What a computation leaves is what its result comes with. -/
theorem after_of_ok {m : EStateM GraphError σ α} {s t : σ} {a : α} (h : m s = .ok a t) :
    after m s = t := by
  rw [after, h]

/-- The same goes for an error. -/
theorem after_of_error {m : EStateM GraphError σ α} {s t : σ} {e : GraphError}
    (h : m s = .error e t) : after m s = t := by
  rw [after, h]

theorem after_congr {m m' : EStateM GraphError σ α} {s : σ} (h : m s = m' s) :
    after m s = after m' s := by
  rw [after, after, h]

/-- After an error the rest of a sequence is not run. -/
theorem after_bind (m : EStateM GraphError σ α) (f : α → EStateM GraphError σ β) (s : σ) :
    after (m >>= f) s = match m s with
      | .ok a t => after (f a) t
      | .error _ t => t := by
  change after (EStateM.bind m f) s = _
  unfold after EStateM.bind
  cases m s <;> rfl

/-- Whatever comes of it, the computation takes the graph in its state through a sequence of
changes. -/
def Proper (view : σ → Graph) (m : EStateM GraphError σ α) : Prop :=
  ∀ s, Changes (view s) (view (after m s))

namespace Proper

variable {view : σ → Graph} {m : EStateM GraphError σ α} {f : α → EStateM GraphError σ β}

theorem pure (a : α) : Proper view (pure a : EStateM GraphError σ α) := fun _ => .refl

theorem throw (e : GraphError) : Proper view (throw e : EStateM GraphError σ α) := fun _ => .refl

/-- A sequence is proper if its parts are. -/
theorem bind (hm : Proper view m) (hf : ∀ a, Proper view (f a)) : Proper view (m >>= f) := by
  intro s
  have h := hm s
  rw [after] at h
  rw [after_bind]
  cases hs : m s with
  | error e t => rwa [hs] at h
  | ok a t =>
      rw [hs] at h
      exact h.trans (hf a t)

/-- What is done with the present state may depend on it. -/
theorem bind_get {f : σ → EStateM GraphError σ β}
    (hf : ∀ s, Changes (view s) (view (after (f s) s))) : Proper view (get >>= f) := hf

theorem ite {p : Prop} [Decidable p] {m' : EStateM GraphError σ α} (h : Proper view m)
    (h' : Proper view m') : Proper view (if p then m else m') := by
  split
  · exact h
  · exact h'

/-- Where the computation succeeds, changes lead to what it leaves. -/
theorem changes_of_ok {s t : σ} {a : α} (hm : Proper view m) (hok : m s = .ok a t) :
    Changes (view s) (view t) := by
  have hc := hm s
  rwa [after_of_ok hok] at hc

end Proper

namespace Edit

/-- An edit that makes no change when it is refused, and one change otherwise. -/
theorem proper_of_cases {e : Edit α}
    (h : ∀ g, (∃ err, e g = .error err g) ∨ ∃ a k, e g = .ok a k ∧ Change g k) : Proper id e := by
  intro g
  rcases h g with ⟨err, he⟩ | ⟨a, k, he, hk⟩
  · rw [after_of_error he]
  · rw [after_of_ok he]
    exact .single hk

/-! ### Operations on graphs -/

/-- A check changes nothing. -/
theorem proper_require (node : NodeId) : Proper id (require node) := by
  intro g
  rcases require_cases node g with ⟨e, he⟩ | ⟨n, he, -⟩
  · rw [after_of_error he]
  · rw [after_of_ok he]

/-- Adding a node is one change, made after all its conditions have been checked. -/
theorem proper_addNode (kind : Kind) (succs : List NodeId) : Proper id (addNode kind succs) :=
  proper_of_cases fun g => (addNode_cases kind succs g).imp id
    fun ⟨he, hlen, hstart, hlive⟩ => ⟨_, _, he, .attach hlen hstart hlive⟩

theorem proper_cloneNode (node : NodeId) (succs : List NodeId) :
    Proper id (cloneNode node succs) := by
  intro g
  rcases cloneNode_cases node succs g with ⟨e, he⟩ | ⟨kind, -, he⟩
  · rw [after_of_error he]
  · rw [after_congr he]
    exact proper_addNode kind succs g

theorem proper_addBlock (kinds : List Kind) (next : NodeId) : Proper id (addBlock kinds next) := by
  intro g
  rcases addBlock_cases kinds next g with ⟨e, he⟩ | ⟨block, he⟩
  · rw [after_of_error he]
  · rw [after_congr he]
    exact proper_addNode block [next] g

/-- Moving all edges between two nodes is one change. -/
theorem proper_replaceSucc (node old new : NodeId) : Proper id (replaceSucc node old new) :=
  proper_of_cases fun g => (replaceSucc_cases node old new g).imp id
    fun ⟨he, hnew, hold, hself⟩ => ⟨_, _, he, .moveEdges hnew hold hself⟩

/-- So is moving the edge at one position. -/
theorem proper_redirectEdge (node : NodeId) (position : Nat) (new : NodeId) :
    Proper id (redirectEdge node position new) :=
  proper_of_cases fun g => (redirectEdge_cases node position new g).imp id
    fun ⟨_, he, hnew, hold, hself⟩ => ⟨_, _, he, .moveEdge hnew hold hself⟩

/-- Putting a node in the place of a stub is one change. -/
theorem proper_substituteStub (stub real : NodeId) : Proper id (substituteStub stub real) :=
  proper_of_cases fun g => (substituteStub_cases stub real g).imp id
    fun ⟨he, hreal, hkind, hne, _⟩ => ⟨_, _, he, .substitute hreal hkind hne⟩

theorem proper_discardStub (stub : NodeId) : Proper id (discardStub stub) :=
  proper_of_cases fun g => (discardStub_cases stub g).imp id
    fun ⟨he, hkind, hpreds⟩ => ⟨_, _, he, .discard hkind hpreds⟩

/-- Resolving a stub is one change, whether it is substituted or dropped. -/
theorem proper_resolveStub (stub real : NodeId) : Proper id (resolveStub stub real) := by
  intro g
  have he := resolveStub_eq stub real g
  split at he
  · rw [after_congr he]
    exact proper_discardStub stub g
  · rw [after_congr he]
    exact proper_substituteStub stub real g

/-- Splicing a node out is one change. -/
theorem proper_removeNode (node : NodeId) : Proper id (removeNode node) :=
  proper_of_cases fun g => (removeNode_cases node g).imp id
    fun ⟨_, he, hstart, hsucc, hne⟩ => ⟨_, _, he, .splice hstart hsucc hne⟩

theorem proper_sweep : Proper id sweep := fun _ => .single .sweep

end Edit

/-! ### Copies of a body -/

namespace BodyCopy

variable (body : List NodeId) (header back : NodeId)

/-- What is done for each element of a list is proper if it is for any. -/
theorem proper_mapM {f : α → CopyM β} (hf : ∀ a σ, Proper id (f a σ : Edit (β × CopyMap)))
    (l : List α) (σ : CopyMap) : Proper id (l.mapM f σ : Edit (List β × CopyMap)) := by
  induction l generalizing σ with
  | nil => rw [mapM_nil]; exact .pure _
  | cons a l ih =>
      rw [mapM_cons]
      exact (hf a σ).bind fun p => (ih p.2).bind fun q => .pure _

/-- Copying nodes to some depth is proper, by induction on the depth. -/
theorem proper_copyNode (depth : Nat) (n : NodeId) (σ : CopyMap) :
    Proper id (copyNode body header back depth n σ : Edit (NodeId × CopyMap)) := by
  induction depth generalizing n σ with
  | zero => exact .pure _
  | succ depth ih =>
      have htarget : ∀ s σ,
          Proper id (copyTarget body header back depth s σ : Edit (NodeId × CopyMap)) := by
        intro s σ
        rw [copyTarget]
        split
        · exact .pure _
        · split
          · exact ih s σ
          · exact .pure _
      intro g
      have hcopy := copyNode_succ body header back depth n σ g
      cases hn : σ.lookup n with
      | some copy =>
          rw [hn] at hcopy
          rw [after_of_ok hcopy]
      | none =>
          rw [hn] at hcopy
          simp only [] at hcopy
          split at hcopy
          · rw [after_congr hcopy]
            exact (Edit.proper_cloneNode n []).bind (fun _ => .pure _) g
          · -- a stub, the copies of the targets, the node itself, and the stub resolved
            rw [after_congr hcopy]
            refine Proper.bind (Edit.proper_addNode _ _) (fun pending => ?_) g
            refine (proper_mapM htarget _ _).bind fun p => ?_
            refine (Edit.proper_cloneNode n p.1).bind fun copy => ?_
            exact (Edit.proper_resolveStub pending copy).bind fun _ => .pure _

end BodyCopy

/-- So is copying a whole body. -/
theorem proper_copyBody (body : List NodeId) (header back entry : NodeId) :
    Proper id (copyBody body header back entry) := by
  rw [BodyCopy.copyBody_eq]
  exact Proper.bind (BodyCopy.proper_copyNode _ _ _ _ _ _) fun _ => .pure _

/-! ### Unrolling -/

theorem proper_addEpilogue (header : NodeId) (body : List NodeId) (guard : Guard) :
    Proper id (addEpilogue header body guard) :=
  Proper.bind (Edit.proper_addNode _ _) fun back =>
    (proper_copyBody body header back guard.entry).bind fun _ =>
      (Edit.proper_cloneNode header _).bind fun epilogue =>
        (Edit.proper_resolveStub back epilogue).bind fun _ => .pure _

theorem proper_addChain (header : NodeId) (body : List NodeId) (entry back : NodeId)
    (copies : Nat) : Proper id (addChain header body entry back copies) := by
  induction copies generalizing back with
  | zero => exact .pure _
  | succ copies ih => exact (proper_copyBody body header back entry).bind fun next => ih next

theorem proper_forM {f : α → Edit PUnit} (hf : ∀ a, Proper id (f a)) (l : List α) :
    Proper id (l.forM f) := by
  induction l with
  | nil => exact .pure _
  | cons a l ih =>
      change Proper id (f a >>= fun _ => l.forM f)
      exact (hf a).bind fun _ => ih

theorem proper_moveEntries (header : NodeId) (body : List NodeId) (target : NodeId) :
    Proper id (moveEntries header body target) :=
  .bind_get fun g => proper_forM (fun p => Edit.proper_replaceSucc p header target) _ g

/-- Building the unrolled loop and leading the entries to it is proper. -/
theorem proper_replaceLoop (header : NodeId) (body : List NodeId) (guard : Guard) (factor : Nat) :
    Proper id (replaceLoop header body guard factor) :=
  (proper_addEpilogue header body guard).bind fun _ =>
    Proper.bind (Edit.proper_addNode _ _) fun back =>
      (proper_addChain header body guard.entry back factor).bind fun _ =>
        Proper.bind (Edit.proper_addNode _ _) fun newHeader =>
          (Edit.proper_resolveStub back newHeader).bind fun _ =>
            (proper_moveEntries header body newHeader).bind fun _ => .pure _

theorem proper_unrollLoop (header : NodeId) (body : List NodeId) (config : UnrollConfig) :
    Proper id (unrollLoop header body config) := by
  refine (Edit.proper_require header).bind fun _ => .bind_get fun g => ?_
  cases Guard.analyze g header body config with
  | error reason => exact .refl
  | ok guard =>
      exact Proper.ite
        ((proper_replaceLoop header body guard config.factor).bind fun _ => .pure _) (.pure _) g

theorem proper_unrollFound (d : Dominators) (config : UnrollConfig) (l : NaturalLoop) :
    Proper id (unrollFound d config l) := by
  refine .bind_get fun g => ?_
  exact Proper.ite ((proper_unrollLoop l.header _ config).bind fun _ => .pure _) (.pure _) g

theorem proper_unrollEach (d : Dominators) (config : UnrollConfig) (f : LoopForest) :
    Proper id (unrollEach d config f) := by
  induction f with
  | nil => exact .pure _
  | cons l rest ih => exact (proper_unrollFound d config l).bind fun _ => ih.bind fun _ => .pure _

/-- Unrolling all loops of a graph is proper, also when it fails midway. -/
theorem proper_unrollLoops (config : UnrollConfig) : Proper id (unrollLoops config) := by
  refine .bind_get fun g => ?_
  cases Dominators.compute g with
  | error e => exact .refl
  | ok d =>
      refine (proper_unrollEach d config _).bind (fun loops => ?_) g
      exact .ite (Edit.proper_sweep.bind fun _ => .pure _) (.pure _)

/-! ### Dead code elimination -/

/-- Splicing out one node after the other is proper. -/
theorem proper_removeNodes (ns : List NodeId) : Proper id (removeNodes ns) := by
  induction ns with
  | nil => exact .pure _
  | cons n rest ih =>
      refine .bind_get fun g => ?_
      exact Proper.ite ih ((Edit.proper_require n).bind fun _ =>
        (Edit.proper_removeNode n).bind fun _ => ih.bind fun _ => .pure _) g

theorem proper_eliminateDeadCode : Proper id eliminateDeadCode := by
  refine .bind_get fun g => ?_
  cases Liveness.compute g with
  | error e => exact .refl
  | ok l => exact proper_removeNodes (deadNodes g l) g

/-- Any number of rounds of dead code elimination are proper. -/
theorem proper_eliminateToFixpoint (rounds : Nat) : Proper id (eliminateToFixpoint rounds) := by
  induction rounds with
  | zero => exact .pure _
  | succ rounds ih =>
      refine proper_eliminateDeadCode.bind fun removed => ?_
      exact .ite (.pure _) (ih.bind fun _ => .pure _)

/-! ### Passes -/

/-- An edit inside of a pass changes the graph as it does on its own. -/
theorem proper_edit {e : Edit α} (h : Proper id e) : Proper Workspace.graph (Work.edit e) := by
  intro w
  have hg := h w.graph
  unfold after Work.edit
  rw [after] at hg
  cases he : e w.graph <;> rwa [he] at hg

/-- Recording events leaves the graph alone. -/
theorem proper_record (events : EventLog) : Proper Workspace.graph (Work.record events) :=
  fun _ => .refl

theorem proper_run_deadCodePass (config : OptimizerConfig) (round : Nat) (function : String) :
    Proper Workspace.graph (deadCodePass.run config round function) := by
  have hsweep : Proper id (sweepIfEnabled config.cleanup) := .ite Edit.proper_sweep (.pure _)
  exact (proper_edit hsweep).bind fun _ =>
    (proper_edit proper_eliminateDeadCode).bind fun _ =>
      (proper_record _).bind fun _ => .pure _

theorem proper_run_unrollPass (config : OptimizerConfig) (round : Nat) (function : String) :
    Proper Workspace.graph (unrollPass.run config round function) :=
  (proper_edit (proper_unrollLoops config.unroll)).bind fun _ =>
    (proper_record _).bind fun _ => .pure _

end Flowgraph

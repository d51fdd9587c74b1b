import Flowgraph.Proofs.Views

/-!
# What an edit can do

Every operation on a graph is refused and leaves the graph as it was, or makes one change whose
conditions it has checked.  These are the only facts about the operations that anything else uses.

* `addNode_cases`, `replaceSucc_cases`, `redirectEdge_cases`: adding nodes and moving edges.
* `substituteStub_cases`, `discardStub_cases`, `resolveStub_eq`, `removeNode_cases`: taking
  nodes out.
* `requireLinks_cases`, `requireLinks_eq`: the check that all predecessors of a stub lead to it.
* `bind_eq_ok`: a sequence of edits succeeds if each of them does.
* `addNode_eq`, `cloneNode_eq`, `replaceSucc_eq`, `redirectEdge_eq`, `substituteStub_eq`,
  `discardStub_eq`, `resolveStub_succeeds`, `removeNode_ok`: an operation succeeds when its
  conditions are met.
-/

namespace Flowgraph.Edit

open Flowgraph.Graph

variable {α β : Type} {g h : Graph}

/-! ### Reading computations -/

theorem pure_apply (a : α) (g : Graph) : (pure a : Edit α) g = .ok a g := rfl

theorem get_apply (g : Graph) : (get : Edit Graph) g = .ok g g := rfl

theorem modify_apply (f : Graph → Graph) (g : Graph) : (modify f : Edit Unit) g = .ok () (f g) :=
  rfl

theorem bind_apply (e : Edit α) (f : α → Edit β) (g : Graph) :
    (e >>= f) g = match e g with
      | .ok a h => f a h
      | .error err h => .error err h := by
  change EStateM.bind e f g = _
  unfold EStateM.bind
  cases e g <;> rfl

theorem bind_ok {e : Edit α} {f : α → Edit β} {a : α} (he : e g = .ok a h) :
    (e >>= f) g = f a h := by
  rw [bind_apply, he]

/-- An error ends a sequence. -/
theorem bind_error {e : Edit α} {f : α → Edit β} {err : GraphError} (he : e g = .error err h) :
    (e >>= f) g = .error err h := by
  rw [bind_apply, he]

/-- A sequence succeeds if its parts do. -/
theorem bind_eq_ok {e : Edit α} {f : α → Edit β} {b : β} :
    (e >>= f) g = .ok b h ↔ ∃ a k, e g = .ok a k ∧ f a k = .ok b h := by
  rw [bind_apply]
  cases e g with
  | ok a k => exact ⟨fun hf => ⟨a, k, rfl, hf⟩, by rintro ⟨_, _, he, hf⟩; cases he; exact hf⟩
  | error err k => exact ⟨fun he => (by cases he), by rintro ⟨_, _, he, -⟩; cases he⟩

theorem ensure_apply (p : Prop) [Decidable p] (e : GraphError) (g : Graph) :
    ensure p e g = if p then .ok () g else .error e g := by
  rw [ensure]; split <;> rfl

theorem require_apply (id : NodeId) (g : Graph) :
    require id g = match g.node? id with
      | some n => .ok n g
      | none => .error (.invalidNode id) g := by
  rw [require, bind_ok (get_apply g)]
  cases g.node? id <;> rfl

theorem requireNoStart_apply (g : Graph) :
    requireNoStart g = match g.start with
      | some s => .error (.duplicateStart s) g
      | none => .ok () g := by
  rw [requireNoStart, bind_ok (get_apply g)]
  cases g.start <;> rfl

theorem requireAll_apply (ids : List NodeId) (g : Graph) :
    requireAll ids g = match ids.find? fun id => !g.isLive id with
      | some id => .error (.invalidNode id) g
      | none => .ok () g := by
  rw [requireAll, bind_ok (get_apply g)]
  cases ids.find? fun id => !g.isLive id <;> rfl

theorem requireLinks_apply (stub : NodeId) (preds : List NodeId) (g : Graph) :
    requireLinks stub preds g = match preds.find? fun p => !(g.succs p).contains stub with
      | some p => .error (.stubLinkMissing stub p) g
      | none => .ok () g := by
  rw [requireLinks, bind_ok (get_apply g)]
  cases preds.find? fun p => !(g.succs p).contains stub <;> rfl

/-! ### Checks pass or refuse -/

/-- A check fails without a change, or it passes and what it asks for holds. -/
theorem ensure_cases (p : Prop) [Decidable p] (e : GraphError) (g : Graph) :
    ensure p e g = .error e g ∨ ensure p e g = .ok () g ∧ p := by
  rw [ensure_apply]
  by_cases hp : p
  · exact .inr ⟨if_pos hp, hp⟩
  · exact .inl (if_neg hp)

/-- A slot is found empty, or it has the node that is returned. -/
theorem require_cases (id : NodeId) (g : Graph) :
    (∃ e, require id g = .error e g) ∨ ∃ n, require id g = .ok n g ∧ g.node? id = some n := by
  rw [require_apply]
  cases g.node? id with
  | none => exact .inl ⟨_, rfl⟩
  | some n => exact .inr ⟨n, rfl, rfl⟩

/-- One slot is found empty, or all of them have nodes. -/
theorem requireAll_cases (ids : List NodeId) (g : Graph) :
    (∃ e, requireAll ids g = .error e g) ∨
      requireAll ids g = .ok () g ∧ ∀ id ∈ ids, g.isLive id = true := by
  rw [requireAll_apply]
  cases hf : ids.find? fun id => !g.isLive id with
  | some id => exact .inl ⟨_, rfl⟩
  | none => exact .inr ⟨rfl, fun id hid => by simpa using List.find?_eq_none.mp hf id hid⟩

/-- One link is found missing, or all predecessors lead to the stub. -/
theorem requireLinks_cases (stub : NodeId) (preds : List NodeId) (g : Graph) :
    (∃ e, requireLinks stub preds g = .error e g) ∨
      requireLinks stub preds g = .ok () g ∧ ∀ p ∈ preds, stub ∈ g.succs p := by
  rw [requireLinks_apply]
  cases hf : preds.find? fun p => !(g.succs p).contains stub with
  | some p => exact .inl ⟨_, rfl⟩
  | none => exact .inr ⟨rfl, fun p hp => by simpa using List.find?_eq_none.mp hf p hp⟩

/-! ### Building -/

/-- A node is refused, or it is attached and all conditions hold. -/
theorem addNode_cases (kind : Kind) (succs : List NodeId) (g : Graph) :
    (∃ e, addNode kind succs g = .error e g) ∨
      addNode kind succs g = .ok g.bound (g.attach kind succs) ∧ succs.length = kind.arity ∧
        (kind = .start → g.start = none) ∧ ∀ s ∈ succs, g.isLive s = true := by
  rw [addNode, bind_ok (get_apply g)]
  rcases ensure_cases (succs.length = kind.arity) (.arityMismatch g.bound kind succs.length) g with
    he | ⟨he, hlen⟩
  · exact .inl ⟨_, bind_error he⟩
  rw [bind_ok he]
  -- what is left to do once a second start has been ruled out
  have tail : (kind = .start → g.start = none) →
      (∃ e, (do requireAll succs; modifyGet fun k => (g.bound, k.attach kind succs) : Edit NodeId) g
        = .error e g) ∨
      (do requireAll succs; modifyGet fun k => (g.bound, k.attach kind succs) : Edit NodeId) g
        = .ok g.bound (g.attach kind succs) ∧ succs.length = kind.arity ∧
        (kind = .start → g.start = none) ∧ ∀ s ∈ succs, g.isLive s = true := by
    intro hstart
    rcases requireAll_cases succs g with ⟨e, ha⟩ | ⟨ha, hlive⟩
    · exact .inl ⟨e, bind_error ha⟩
    · exact .inr ⟨bind_ok ha, hlen, hstart, hlive⟩
  by_cases hk : kind.isStart = true
  · rw [if_pos hk]
    cases hs : g.start with
    | some s => exact .inl ⟨.duplicateStart s, bind_error (by rw [requireNoStart_apply, hs])⟩
    | none =>
        rw [bind_ok (by rw [requireNoStart_apply, hs])]
        simpa [hs] using tail fun _ => hs
  · rw [if_neg hk]
    exact tail fun h => absurd (Kind.isStart_iff.mpr h) hk

/-- Copying a node is adding one of the same kind. -/
theorem cloneNode_cases (node : NodeId) (succs : List NodeId) (g : Graph) :
    (∃ e, cloneNode node succs g = .error e g) ∨
      ∃ kind, g.kind? node = some kind ∧ cloneNode node succs g = addNode kind succs g := by
  rcases require_cases node g with ⟨e, he⟩ | ⟨n, he, hn⟩
  · exact .inl ⟨e, bind_error he⟩
  · exact .inr ⟨n.kind, kind?_of_node? hn, bind_ok he⟩

theorem addBlock_cases (kinds : List Kind) (next : NodeId) (g : Graph) :
    (∃ e, addBlock kinds next g = .error e g) ∨
      ∃ block, addBlock kinds next g = addNode block [next] g := by
  rw [addBlock]
  cases Kind.blockOf kinds with
  | error e => exact .inl ⟨e, rfl⟩
  | ok block => exact .inr ⟨block, rfl⟩

/-! ### Moving edges -/

/-- The move is refused, or there are edges to move, and a self-loop keeps its own. -/
theorem replaceSucc_cases (node old new : NodeId) (g : Graph) :
    (∃ e, replaceSucc node old new g = .error e g) ∨
      replaceSucc node old new g = .ok () (g.moveEdges node old new) ∧ g.isLive new = true ∧
        old ∈ g.succs node ∧ (g.kind? node = some .selfLoop → new = node) := by
  rw [replaceSucc]
  rcases require_cases new g with ⟨e, he⟩ | ⟨m, he, hm⟩
  · exact .inl ⟨e, bind_error he⟩
  rw [bind_ok he]
  rcases require_cases node g with ⟨e, he⟩ | ⟨n, he, hn⟩
  · exact .inl ⟨e, bind_error he⟩
  rw [bind_ok he]
  rcases ensure_cases (old ∈ n.succs) (.notASuccessor node old) g with he | ⟨he, hold⟩
  · exact .inl ⟨_, bind_error he⟩
  rw [bind_ok he]
  rcases ensure_cases (n.kind.isSelfLoop = true → new = node)
    (.inconsistent (.selfLoopMoved node)) g with he | ⟨he, hself⟩
  · exact .inl ⟨_, bind_error he⟩
  refine .inr ⟨(bind_ok he).trans (modify_apply ..), isLive_iff.mpr ⟨m, hm⟩, ?_, fun hk => ?_⟩
  · rwa [succs_of_node? hn]
  · rw [kind?_of_node? hn] at hk
    exact hself (Kind.isSelfLoop_iff.mpr (Option.some.inj hk))

/-- The move is refused, or there is an edge at the position, and not of a self-loop. -/
theorem redirectEdge_cases (node : NodeId) (position : Nat) (new : NodeId) (g : Graph) :
    (∃ e, redirectEdge node position new g = .error e g) ∨
      ∃ old, redirectEdge node position new g = .ok () (g.moveEdge node position old new) ∧
        g.isLive new = true ∧ (g.succs node)[position]? = some old ∧
        g.kind? node ≠ some .selfLoop := by
  rw [redirectEdge]
  rcases require_cases new g with ⟨e, he⟩ | ⟨m, he, hm⟩
  · exact .inl ⟨e, bind_error he⟩
  rw [bind_ok he]
  rcases require_cases node g with ⟨e, he⟩ | ⟨n, he, hn⟩
  · exact .inl ⟨e, bind_error he⟩
  rw [bind_ok he]
  rcases ensure_cases (n.kind.isSelfLoop = false) (.inconsistent (.selfLoopMoved node)) g with
    he | ⟨he, hself⟩
  · exact .inl ⟨_, bind_error he⟩
  rw [bind_ok he]
  cases hs : n.succs[position]? with
  | none => exact .inl ⟨_, rfl⟩
  | some old =>
      refine .inr ⟨old, rfl, isLive_iff.mpr ⟨m, hm⟩, ?_, fun hk => ?_⟩
      · rwa [succs_of_node? hn]
      · rw [kind?_of_node? hn] at hk
        rw [Option.some.inj hk] at hself
        cases hself

/-! ### Taking nodes out -/

/-- The stub is kept, or it is a stub that all its predecessors lead to and is bypassed. -/
theorem substituteStub_cases (stub real : NodeId) (g : Graph) :
    (∃ e, substituteStub stub real g = .error e g) ∨
      substituteStub stub real g = .ok () (g.bypass stub real (g.preds stub)) ∧
        g.isLive real = true ∧ g.kind? stub = some .stub ∧ stub ≠ real ∧ g.preds stub ≠ [] ∧
        ∀ p ∈ g.preds stub, stub ∈ g.succs p := by
  rw [substituteStub]
  rcases require_cases real g with ⟨e, he⟩ | ⟨m, he, hm⟩
  · exact .inl ⟨e, bind_error he⟩
  rw [bind_ok he]
  rcases require_cases stub g with ⟨e, he⟩ | ⟨n, he, hn⟩
  · exact .inl ⟨e, bind_error he⟩
  rw [bind_ok he]
  rcases ensure_cases (n.kind.isStub = true) (.notAStub stub) g with he | ⟨he, hk⟩
  · exact .inl ⟨_, bind_error he⟩
  rw [bind_ok he]
  rcases ensure_cases (stub ≠ real) (.inconsistent (.stubReplacesItself stub)) g with he | ⟨he, hne⟩
  · exact .inl ⟨_, bind_error he⟩
  rw [bind_ok he]
  rcases ensure_cases (n.preds ≠ []) (.unreferencedStub stub) g with he | ⟨he, hp⟩
  · exact .inl ⟨_, bind_error he⟩
  rw [bind_ok he]
  rcases requireLinks_cases stub n.preds g with ⟨e, he⟩ | ⟨he, hlinks⟩
  · exact .inl ⟨e, bind_error he⟩
  rw [bind_ok he, kind?_of_node? hn, preds_of_node? hn, Kind.isStub_iff.mp hk]
  exact .inr ⟨rfl, isLive_iff.mpr ⟨m, hm⟩, rfl, hne, hp, hlinks⟩

/-- The stub is kept, or nothing leads to it and its slot becomes vacant. -/
theorem discardStub_cases (stub : NodeId) (g : Graph) :
    (∃ e, discardStub stub g = .error e g) ∨
      discardStub stub g = .ok () (g.vacate stub) ∧ g.kind? stub = some .stub ∧
        g.preds stub = [] := by
  rw [discardStub]
  rcases require_cases stub g with ⟨e, he⟩ | ⟨n, he, hn⟩
  · exact .inl ⟨e, bind_error he⟩
  rw [bind_ok he]
  rcases ensure_cases (n.kind.isStub = true) (.notAStub stub) g with he | ⟨he, hk⟩
  · exact .inl ⟨_, bind_error he⟩
  rw [bind_ok he]
  rcases ensure_cases (n.preds = []) (.inconsistent (.stubInUse stub n.preds.length)) g with
    he | ⟨he, hp⟩
  · exact .inl ⟨_, bind_error he⟩
  rw [bind_ok he, kind?_of_node? hn, preds_of_node? hn, Kind.isStub_iff.mp hk]
  exact .inr ⟨rfl, rfl, hp⟩

/-- A stub that nothing leads to is dropped, and any other substituted. -/
theorem resolveStub_eq (stub real : NodeId) (g : Graph) :
    resolveStub stub real g =
      if g.preds stub = [] then discardStub stub g else substituteStub stub real g := by
  rw [resolveStub, bind_ok (get_apply g)]
  cases g.preds stub <;> rfl

/-- The node is kept, or it has one other successor, to which its predecessors are led. -/
theorem removeNode_cases (node : NodeId) (g : Graph) :
    (∃ e, removeNode node g = .error e g) ∨
      ∃ next, removeNode node g =
          .ok () ((g.bypass node next (g.preds node)).unlink node next) ∧
        g.start ≠ some node ∧ g.succs node = [next] ∧ next ≠ node := by
  rw [removeNode, bind_ok (get_apply g)]
  rcases ensure_cases (g.start ≠ some node) .startRemoval g with he | ⟨he, hs⟩
  · exact .inl ⟨_, bind_error he⟩
  rw [bind_ok he]
  rcases require_cases node g with ⟨e, he⟩ | ⟨n, he, hn⟩
  · exact .inl ⟨e, bind_error he⟩
  rw [bind_ok he, succs_of_node? hn, preds_of_node? hn]
  match n.succs with
  | [] => exact .inl ⟨_, rfl⟩
  | _ :: _ :: _ => exact .inl ⟨_, rfl⟩
  | [next] =>
      rcases ensure_cases (next ≠ node) (.nonLinearRemoval node) g with he | ⟨he, hne⟩
      · exact .inl ⟨_, bind_error he⟩
      · exact .inr ⟨next, bind_ok he, hs, rfl, hne⟩

theorem sweep_apply (g : Graph) : sweep g = .ok g.unreachable.length g.swept := rfl

/-! ### When operations succeed -/

theorem require_eq {node : NodeId} {n : Node} (hn : g.node? node = some n) :
    require node g = .ok n g := by
  rw [require_apply, hn]

theorem ensure_eq {p : Prop} [Decidable p] {e : GraphError} (hp : p) :
    ensure p e g = .ok () g := by
  rw [ensure_apply, if_pos hp]

/-- The check passes when all slots have nodes. -/
theorem requireAll_eq {ids : List NodeId} (hlive : ∀ id ∈ ids, g.isLive id = true) :
    requireAll ids g = .ok () g := by
  have hnone : (ids.find? fun id => !g.isLive id) = none :=
    List.find?_eq_none.mpr fun id hid => by simp [hlive id hid]
  rw [requireAll_apply, hnone]

/-- The check passes when all of them lead to the stub. -/
theorem requireLinks_eq {stub : NodeId} {preds : List NodeId}
    (hlinks : ∀ p ∈ preds, stub ∈ g.succs p) : requireLinks stub preds g = .ok () g := by
  have hnone : (preds.find? fun p => !(g.succs p).contains stub) = none :=
    List.find?_eq_none.mpr fun p hp => by simp [hlinks p hp]
  rw [requireLinks_apply, hnone]

variable {node stub real old new : NodeId} {kind : Kind} {succs : List NodeId}

/-- A node is added when it has as many successors as its kind calls for, all of them live, and is
no second start. -/
theorem addNode_eq (hlen : succs.length = kind.arity) (hstart : kind = .start → g.start = none)
    (hlive : ∀ s ∈ succs, g.isLive s = true) :
    addNode kind succs g = .ok g.bound (g.attach kind succs) := by
  rw [addNode, bind_ok (get_apply g), bind_ok (ensure_eq hlen)]
  by_cases hk : kind.isStart = true
  · have hno : requireNoStart g = .ok () g := by
      rw [requireNoStart_apply, hstart (Kind.isStart_iff.mp hk)]
    rw [if_pos hk, bind_ok hno]
    exact bind_ok (requireAll_eq hlive)
  · rw [if_neg hk]
    exact bind_ok (requireAll_eq hlive)

theorem addStub_eq : addStub g = .ok g.bound (g.attach .stub []) :=
  addNode_eq rfl Kind.noConfusion nofun

/-- A node can be copied wherever one of its kind can be added. -/
theorem cloneNode_eq (hk : g.kind? node = some kind) (hlen : succs.length = kind.arity)
    (hstart : kind = .start → g.start = none) (hlive : ∀ s ∈ succs, g.isLive s = true) :
    cloneNode node succs g = .ok g.bound (g.attach kind succs) := by
  obtain ⟨n, hn⟩ := isLive_iff.mp (isLive_of_kind? hk)
  rw [kind?_of_node? hn] at hk
  rw [cloneNode, bind_ok (require_eq hn), Option.some.inj hk]
  exact addNode_eq hlen hstart hlive

/-- Edges are moved when there are any, to a live node, and not away from a self-loop. -/
theorem replaceSucc_eq (hnew : g.isLive new = true) (hold : old ∈ g.succs node)
    (hself : g.kind? node = some .selfLoop → new = node) :
    replaceSucc node old new g = .ok () (g.moveEdges node old new) := by
  obtain ⟨m, hm⟩ := isLive_iff.mp hnew
  obtain ⟨n, hn⟩ := isLive_iff.mp (isLive_of_mem_succs hold)
  have hk : n.kind.isSelfLoop = true → new = node := fun h =>
    hself (by rw [kind?_of_node? hn, Kind.isSelfLoop_iff.mp h])
  rw [replaceSucc, bind_ok (require_eq hm), bind_ok (require_eq hn),
    bind_ok (ensure_eq (succs_of_node? hn ▸ hold)), bind_ok (ensure_eq hk), modify_apply]

/-- The edge at a position is moved when there is one, to a live node, and not away from a
self-loop. -/
theorem redirectEdge_eq {position : Nat} (hnew : g.isLive new = true)
    (hold : (g.succs node)[position]? = some old) (hself : g.kind? node ≠ some .selfLoop) :
    redirectEdge node position new g = .ok () (g.moveEdge node position old new) := by
  obtain ⟨m, hm⟩ := isLive_iff.mp hnew
  obtain ⟨n, hn⟩ := isLive_iff.mp (isLive_of_mem_succs (List.mem_of_getElem? hold))
  rw [kind?_of_node? hn, ne_eq, Option.some.injEq] at hself
  have hk : n.kind.isSelfLoop = false := Bool.eq_false_iff.mpr (mt Kind.isSelfLoop_iff.mp hself)
  rw [succs_of_node? hn] at hold
  rw [redirectEdge, bind_ok (require_eq hm), bind_ok (require_eq hn), bind_ok (ensure_eq hk), hold]
  exact modify_apply ..

theorem stub_of_kind? (hk : g.kind? stub = some .stub) :
    ∃ n, g.node? stub = some n ∧ n.kind.isStub = true := by
  obtain ⟨n, hn⟩ := isLive_iff.mp (isLive_of_kind? hk)
  rw [kind?_of_node? hn, Option.some.injEq] at hk
  exact ⟨n, hn, Kind.isStub_iff.mpr hk⟩

/-- A stub that something leads to is replaced by any other live node, if what it lists as
predecessors does lead to it. -/
theorem substituteStub_eq (hk : g.kind? stub = some .stub) (hreal : g.isLive real = true)
    (hne : stub ≠ real) (hpreds : g.preds stub ≠ [])
    (hlinks : requireLinks stub (g.preds stub) g = .ok () g) :
    substituteStub stub real g = .ok () (g.bypass stub real (g.preds stub)) := by
  obtain ⟨n, hn, hstub⟩ := stub_of_kind? hk
  obtain ⟨m, hm⟩ := isLive_iff.mp hreal
  rw [preds_of_node? hn] at hpreds hlinks ⊢
  rw [substituteStub, bind_ok (require_eq hm), bind_ok (require_eq hn),
    bind_ok (ensure_eq hstub), bind_ok (ensure_eq hne), bind_ok (ensure_eq hpreds),
    bind_ok hlinks, modify_apply]

/-- A stub that nothing leads to is dropped. -/
theorem discardStub_eq (hk : g.kind? stub = some .stub) (hpreds : g.preds stub = []) :
    discardStub stub g = .ok () (g.vacate stub) := by
  obtain ⟨n, hn, hstub⟩ := stub_of_kind? hk
  rw [preds_of_node? hn] at hpreds
  rw [discardStub, bind_ok (require_eq hn), bind_ok (ensure_eq hstub), bind_ok (ensure_eq hpreds),
    modify_apply]

/-- A stub is resolved by any other live node, whether something leads to the stub or not. -/
theorem resolveStub_succeeds (hk : g.kind? stub = some .stub) (hreal : g.isLive real = true)
    (hne : stub ≠ real) (hlinks : requireLinks stub (g.preds stub) g = .ok () g) :
    ∃ h, resolveStub stub real g = .ok () h := by
  rw [resolveStub_eq]
  by_cases hp : g.preds stub = []
  · exact ⟨_, (if_pos hp).trans (discardStub_eq hk hp)⟩
  · exact ⟨_, (if_neg hp).trans (substituteStub_eq hk hreal hne hp hlinks)⟩

/-- A node that is not the start and has one other successor is taken out. -/
theorem removeNode_ok {next : NodeId} (hs : g.start ≠ some node)
    (hsucc : g.succs node = [next]) (hne : next ≠ node) :
    removeNode node g = .ok () ((g.bypass node next (g.preds node)).unlink node next) := by
  obtain ⟨n, hn⟩ := isLive_iff.mp (isLive_of_mem_succs (g := g) (a := node) (b := next)
    (by simp [hsucc]))
  rw [removeNode, bind_ok (get_apply g), bind_ok (ensure_eq hs), bind_ok (require_eq hn)]
  rw [succs_of_node? hn] at hsucc
  rw [hsucc, preds_of_node? hn]
  exact bind_ok (ensure_eq hne)

end Flowgraph.Edit

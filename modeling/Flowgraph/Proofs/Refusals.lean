import Flowgraph.Proofs.Built

/-!
# Refused edits change nothing

Each operation has a condition on the graph and on what it is given.  When it holds the operation
goes through; otherwise it is refused, and the graph is the same down to the number of its slots.

* `Edit.Guarded`: an edit under such a condition.
* `mapM_toStmt_eq_ok`: which nodes make up a block.
* `guarded_addNode`, `guarded_cloneNode` and the like: the condition of each operation.
* `refused_edits_change_nothing`: all of them on built graphs, said through kinds and edges.
-/

namespace Flowgraph

open Flowgraph.Graph

variable {α : Type} {g : Graph} {allowed : Prop}

namespace Edit

/-- The edit goes through on `g` exactly when it is allowed, and leaves `g` as it was when it is
refused. -/
structure Guarded (e : Edit α) (g : Graph) (allowed : Prop) : Prop where
  succeeds_iff : (∃ a h, e g = .ok a h) ↔ allowed
  unchanged : ∀ {err h}, e g = .error err h → h = g

/-- A case distinction that says when an edit is refused in place, and that it goes through
otherwise. -/
theorem guarded_of_cases {e : Edit α}
    (hcases : (∃ err, e g = .error err g) ∨ (∃ a h, e g = .ok a h) ∧ allowed)
    (hallowed : allowed → ∃ a h, e g = .ok a h) : Guarded e g allowed := by
  rcases hcases with ⟨err, he⟩ | ⟨⟨a, h, he⟩, hp⟩
  · refine ⟨⟨?_, hallowed⟩, fun hrefused => ?_⟩
    · rintro ⟨a, h, hok⟩
      cases he.symm.trans hok
    · cases he.symm.trans hrefused
      rfl
  · refine ⟨iff_of_true ⟨a, h, he⟩ hp, fun hrefused => ?_⟩
    cases he.symm.trans hrefused

/-- What is not allowed is refused in place. -/
theorem Guarded.refused {e : Edit α} (he : Guarded e g allowed) (hno : ¬allowed) :
    ∃ err, e g = .error err g := by
  cases h : e g with
  | ok a k => exact absurd (he.succeeds_iff.mp ⟨a, k, h⟩) hno
  | error err k =>
      obtain rfl := he.unchanged h
      exact ⟨err, rfl⟩

/-- A condition can be said in other words. -/
theorem Guarded.congr {e : Edit α} {condition : Prop} (he : Guarded e g allowed)
    (h : allowed ↔ condition) : Guarded e g condition :=
  ⟨he.succeeds_iff.trans h, he.unchanged⟩

end Edit

/-! ### Building -/

/-- A node of this kind can be added with these successors. -/
def Graph.Admits (g : Graph) (kind : Kind) (succs : List NodeId) : Prop :=
  succs.length = kind.arity ∧ (kind = .start → g.start = none) ∧ ∀ s ∈ succs, g.isLive s = true

/-- Statements can be put into a block, and nothing else can. -/
theorem Kind.toStmt_eq_ok {k : Kind} {s : Stmt} : k.toStmt = .ok s ↔ k = .stmt s := by
  cases k <;> simp [Kind.toStmt, Kind.stmt?]

/-- A list of nodes makes a list of statements if each of them is one. -/
theorem Kind.mapM_toStmt_eq_ok {ks : List Kind} {ss : List Stmt} :
    ks.mapM Kind.toStmt = .ok ss ↔ ks = ss.map .stmt := by
  induction ks generalizing ss with
  | nil => cases ss <;> simp [pure, Except.pure]
  | cons k ks ih =>
      rw [List.mapM_cons]
      cases hk : k.toStmt with
      | error err =>
          have hno : ∀ s, k ≠ .stmt s := fun s e => by
            rw [Kind.toStmt_eq_ok.mpr e] at hk
            cases hk
          cases ss <;> simp [bind, Except.bind, hno]
      | ok s =>
          obtain rfl := Kind.toStmt_eq_ok.mp hk
          cases hks : ks.mapM Kind.toStmt with
          | error err => cases ss <;> simp [bind, Except.bind, ← ih, hks]
          | ok ss' => cases ss <;> simp [bind, Except.bind, pure, Except.pure, ← ih, hks]

/-- A block is made of nodes that hold one statement each. -/
theorem Kind.blockOf_eq_ok {ks : List Kind} {b : Kind} :
    Kind.blockOf ks = .ok b ↔ ∃ ss, ks = ss.map .stmt ∧ b = .block ss := by
  rw [Kind.blockOf]
  cases h : ks.mapM Kind.toStmt with
  | error err =>
      refine ⟨nofun, ?_⟩
      rintro ⟨ss, hks, -⟩
      cases h.symm.trans (Kind.mapM_toStmt_eq_ok.mpr hks)
  | ok ss =>
      refine ⟨fun hb => ⟨ss, Kind.mapM_toStmt_eq_ok.mp h, (Except.ok.inj hb).symm⟩, ?_⟩
      rintro ⟨ss', hks, rfl⟩
      cases h.symm.trans (Kind.mapM_toStmt_eq_ok.mpr hks)
      rfl

namespace Edit

variable (g)

/-- A node can be added where the graph admits it. -/
theorem guarded_addNode (kind : Kind) (succs : List NodeId) :
    Guarded (addNode kind succs) g (g.Admits kind succs) := by
  refine guarded_of_cases ((addNode_cases kind succs g).imp id fun ⟨he, h⟩ => ⟨⟨_, _, he⟩, h⟩) ?_
  rintro ⟨hlen, hstart, hlive⟩
  exact ⟨_, _, addNode_eq hlen hstart hlive⟩

/-- A node with one successor that is no start. -/
theorem guarded_addNode_one {kind : Kind} (hone : kind.arity = 1) (hstart : kind ≠ .start)
    (next : NodeId) : Guarded (addNode kind [next]) g (g.isLive next = true) :=
  (guarded_addNode g kind [next]).congr (by simp [Admits, hone, hstart])

/-- A node without successors that is no start. -/
theorem guarded_addNode_none {kind : Kind} (hnone : kind.arity = 0) (hstart : kind ≠ .start) :
    Guarded (addNode kind []) g True :=
  (guarded_addNode g kind []).congr (by simp [Admits, hnone, hstart])

/-- A block can be added if it holds statements and its successor is live. -/
theorem guarded_addBlock (kinds : List Kind) (next : NodeId) :
    Guarded (addBlock kinds next) g
      ((∃ ss : List Stmt, kinds = ss.map .stmt) ∧ g.isLive next = true) := by
  cases hb : Kind.blockOf kinds with
  | error err =>
      have he : addBlock kinds next g = .error err g := by rw [addBlock, hb]; rfl
      refine guarded_of_cases (.inl ⟨err, he⟩) ?_
      rintro ⟨⟨ss, hks⟩, -⟩
      cases hb.symm.trans (Kind.blockOf_eq_ok.mpr ⟨ss, hks, rfl⟩)
  | ok block =>
      obtain ⟨ss, hks, rfl⟩ := Kind.blockOf_eq_ok.mp hb
      have he : addBlock kinds next g = addNode (.block ss) [next] g := by rw [addBlock, hb]
      have hadd : Guarded (addNode (.block ss) [next]) g (g.isLive next = true) :=
        guarded_addNode_one g rfl Kind.noConfusion next
      refine ⟨?_, fun hrefused => hadd.unchanged (he.symm.trans hrefused)⟩
      rw [he, hadd.succeeds_iff]
      exact (and_iff_right ⟨ss, hks⟩).symm

/-- A node can be copied where the graph admits another of its kind. -/
theorem guarded_cloneNode (node : NodeId) (succs : List NodeId) :
    Guarded (cloneNode node succs) g (∃ kind, g.kind? node = some kind ∧ g.Admits kind succs) := by
  refine guarded_of_cases ?_ ?_
  · rcases cloneNode_cases node succs g with ⟨e, he⟩ | ⟨kind, hk, he⟩
    · exact .inl ⟨e, he⟩
    · rw [he]
      exact (addNode_cases kind succs g).imp id fun ⟨he, h⟩ => ⟨⟨_, _, he⟩, kind, hk, h⟩
  · rintro ⟨kind, hk, hlen, hstart, hlive⟩
    exact ⟨_, _, cloneNode_eq hk hlen hstart hlive⟩

/-! ### Moving edges -/

/-- Edges can be moved if there are any, to a live node, and not away from a self-loop. -/
theorem guarded_replaceSucc (node old new : NodeId) :
    Guarded (replaceSucc node old new) g
      (g.isLive new = true ∧ old ∈ g.succs node ∧
        (g.kind? node = some .selfLoop → new = node)) := by
  refine guarded_of_cases
    ((replaceSucc_cases node old new g).imp id fun ⟨he, h⟩ => ⟨⟨_, _, he⟩, h⟩) ?_
  rintro ⟨hnew, hold, hself⟩
  exact ⟨_, _, replaceSucc_eq hnew hold hself⟩

/-- So can the edge at a position that there is. -/
theorem guarded_redirectEdge (node : NodeId) (position : Nat) (new : NodeId) :
    Guarded (redirectEdge node position new) g
      (g.isLive new = true ∧ position < (g.succs node).length ∧
        g.kind? node ≠ some .selfLoop) := by
  refine guarded_of_cases
    ((redirectEdge_cases node position new g).imp id fun ⟨old, he, hnew, hold, hself⟩ =>
      ⟨⟨_, _, he⟩, hnew, (List.getElem?_eq_some_iff.mp hold).1, hself⟩) ?_
  rintro ⟨hnew, hpos, hself⟩
  exact ⟨_, _, redirectEdge_eq hnew (List.getElem?_eq_getElem hpos) hself⟩

/-! ### Taking nodes out -/

/-- A stub can be substituted if it lists predecessors and all of them lead to it. -/
theorem guarded_substituteStub (stub real : NodeId) :
    Guarded (substituteStub stub real) g
      (g.isLive real = true ∧ g.kind? stub = some .stub ∧ stub ≠ real ∧ g.preds stub ≠ [] ∧
        ∀ p ∈ g.preds stub, stub ∈ g.succs p) := by
  refine guarded_of_cases
    ((substituteStub_cases stub real g).imp id fun ⟨he, h⟩ => ⟨⟨_, _, he⟩, h⟩) ?_
  rintro ⟨hreal, hk, hne, hpreds, hlinks⟩
  exact ⟨_, _, substituteStub_eq hk hreal hne hpreds (requireLinks_eq hlinks)⟩

/-- A stub can be dropped if it lists no predecessors. -/
theorem guarded_discardStub (stub : NodeId) :
    Guarded (discardStub stub) g (g.kind? stub = some .stub ∧ g.preds stub = []) := by
  refine guarded_of_cases
    ((discardStub_cases stub g).imp id fun ⟨he, h⟩ => ⟨⟨_, _, he⟩, h⟩) ?_
  rintro ⟨hk, hpreds⟩
  exact ⟨_, _, discardStub_eq hk hpreds⟩

/-- A node can be spliced out if it is not the start and has one other successor. -/
theorem guarded_removeNode (node : NodeId) :
    Guarded (removeNode node) g
      (g.start ≠ some node ∧ ∃ next, g.succs node = [next] ∧ next ≠ node) := by
  refine guarded_of_cases
    ((removeNode_cases node g).imp id fun ⟨next, he, hs, h⟩ => ⟨⟨_, _, he⟩, hs, next, h⟩) ?_
  rintro ⟨hs, next, hsucc, hne⟩
  exact ⟨_, _, removeNode_ok hs hsucc hne⟩

end Edit

/-! ### On built graphs -/

/-- Whatever it is given, every operation on a built graph either meets its condition and goes
through, or is refused and leaves the graph as it was.  The conditions speak of nodes and edges
only: a start is never cloned, and a stub is replaced if an edge leads to it and dropped if none
does. -/
theorem refused_edits_change_nothing (hg : Built g) :
    (∀ kind succs, Edit.Guarded (Edit.addNode kind succs) g (g.Admits kind succs)) ∧
    (∀ next, Edit.Guarded (Edit.addStart next) g (g.start = none ∧ g.isLive next = true)) ∧
    (∀ target value next,
      Edit.Guarded (Edit.addAssign target value next) g (g.isLive next = true)) ∧
    (∀ target value next,
      Edit.Guarded (Edit.addStore target value next) g (g.isLive next = true)) ∧
    (∀ call next, Edit.Guarded (Edit.addCall call next) g (g.isLive next = true)) ∧
    (∀ cond onTrue onFalse, Edit.Guarded (Edit.addBranch cond onTrue onFalse) g
      (g.isLive onTrue = true ∧ g.isLive onFalse = true)) ∧
    Edit.Guarded Edit.addReturn g True ∧
    Edit.Guarded Edit.addSelfLoop g True ∧
    Edit.Guarded Edit.addStub g True ∧
    (∀ kinds next, Edit.Guarded (Edit.addBlock kinds next) g
      ((∃ ss : List Stmt, kinds = ss.map .stmt) ∧ g.isLive next = true)) ∧
    (∀ node succs, Edit.Guarded (Edit.cloneNode node succs) g
      (∃ kind, g.kind? node = some kind ∧ kind ≠ .start ∧ succs.length = kind.arity ∧
        ∀ s ∈ succs, g.isLive s = true)) ∧
    (∀ node old new, Edit.Guarded (Edit.replaceSucc node old new) g
      (g.isLive new = true ∧ old ∈ g.succs node ∧
        (g.kind? node = some .selfLoop → new = node))) ∧
    (∀ node position new, Edit.Guarded (Edit.redirectEdge node position new) g
      (g.isLive new = true ∧ position < (g.succs node).length ∧
        g.kind? node ≠ some .selfLoop)) ∧
    (∀ stub real, Edit.Guarded (Edit.substituteStub stub real) g
      (g.isLive real = true ∧ g.kind? stub = some .stub ∧ stub ≠ real ∧
        ∃ p, stub ∈ g.succs p)) ∧
    (∀ stub, Edit.Guarded (Edit.discardStub stub) g
      (g.kind? stub = some .stub ∧ ∀ p, stub ∉ g.succs p)) ∧
    ∀ node, Edit.Guarded (Edit.removeNode node) g
      (g.start ≠ some node ∧ ∃ next, g.succs node = [next] ∧ next ≠ node) := by
  have hw := hg.wellFormed
  have hpreds {n : NodeId} : g.preds n ≠ [] ↔ ∃ p, n ∈ g.succs p := by
    simp only [← hw.mem_preds]
    exact ⟨List.exists_mem_of_ne_nil _, fun ⟨_, hp⟩ => List.ne_nil_of_mem hp⟩
  refine ⟨Edit.guarded_addNode g, fun next => ?addStart,
    fun _ _ => Edit.guarded_addNode_one g rfl Kind.noConfusion,
    fun _ _ => Edit.guarded_addNode_one g rfl Kind.noConfusion,
    fun _ => Edit.guarded_addNode_one g rfl Kind.noConfusion, fun cond onTrue onFalse => ?addBranch,
    Edit.guarded_addNode_none g rfl Kind.noConfusion,
    Edit.guarded_addNode_none g rfl Kind.noConfusion,
    Edit.guarded_addNode_none g rfl Kind.noConfusion, Edit.guarded_addBlock g,
    fun node succs => ?cloneNode, Edit.guarded_replaceSucc g, Edit.guarded_redirectEdge g,
    fun stub real => ?substituteStub, fun stub => ?discardStub, Edit.guarded_removeNode g⟩
  case addStart =>
    exact (Edit.guarded_addNode g .start [next]).congr (by simp [Admits, Kind.arity])
  case addBranch =>
    exact (Edit.guarded_addNode g (.branch cond) [onTrue, onFalse]).congr
      (by simp [Admits, Kind.arity])
  case cloneNode =>
    refine (Edit.guarded_cloneNode g node succs).congr
      (exists_congr fun kind => and_congr_right fun hk => ?_)
    have hstart : (kind = .start → g.start = none) ↔ kind ≠ .start := by
      refine ⟨fun h he => ?_, fun h he => absurd he h⟩
      cases (h he).symm.trans (hw.start_iff.mpr (he ▸ hk))
    rw [Admits, hstart]
    exact and_left_comm
  case substituteStub =>
    have hlinks : ∀ p ∈ g.preds stub, stub ∈ g.succs p := fun _ => hw.mem_preds.mp
    exact (Edit.guarded_substituteStub g stub real).congr (by
      rw [and_iff_left hlinks, hpreds])
  case discardStub =>
    refine (Edit.guarded_discardStub g stub).congr (and_congr_right fun _ => ?_)
    rw [← not_exists, ← hpreds, not_not]

/-- A return, a stub, and a start that goes to the stub. -/
def startToStub : Graph :=
  after (Edit.addStart 1) (after Edit.addStub (after Edit.addReturn .empty))

/-- A second start, a block with a return in it, a copy of the start, a stub in its own place and a
stub that is in use are all refused in place, and the stub can still be replaced. -/
theorem refused_edits_change_nothing_startToStub :
    Built startToStub ∧
      (∃ err, Edit.addStart 0 startToStub = .error err startToStub) ∧
      (∃ err, Edit.addBlock [.ret] 0 startToStub = .error err startToStub) ∧
      (∃ err, Edit.cloneNode 2 [0] startToStub = .error err startToStub) ∧
      (∃ err, Edit.substituteStub 1 1 startToStub = .error err startToStub) ∧
      (∃ err, Edit.discardStub 1 startToStub = .error err startToStub) ∧
      ∃ a h, Edit.substituteStub 1 0 startToStub = .ok a h := by
  have hg : Built startToStub := .tail (.tail (.single (.addReturn _)) (.addStub _)) (.addStart _ 1)
  obtain ⟨-, haddStart, -, -, -, -, -, -, -, haddBlock, hcloneNode, -, -, hsubstitute, hdiscard,
    -⟩ := refused_edits_change_nothing hg
  have hstart : startToStub.start = some 2 := by decide
  have hkind : startToStub.kind? 2 = some .start := by decide
  have hedge : 1 ∈ startToStub.succs 2 := by decide
  refine ⟨hg, (haddStart 0).refused ?addStart, (haddBlock [.ret] 0).refused ?addBlock,
    (hcloneNode 2 [0]).refused ?cloneNode, (hsubstitute 1 1).refused ?itself,
    (hdiscard 1).refused ?inUse, (hsubstitute 1 0).succeeds_iff.mpr ?substitute⟩
  case addStart =>
    rintro ⟨hnone, -⟩
    cases hnone.symm.trans hstart
  case addBlock =>
    rintro ⟨⟨ss, hss⟩, -⟩
    cases ss with
    | nil => cases hss
    | cons s ss => cases (List.cons.inj hss).1
  case cloneNode =>
    rintro ⟨kind, hk, hne, -⟩
    exact hne (Option.some.inj (hk.symm.trans hkind))
  case itself => exact fun h => h.2.2.1 rfl
  case inUse => exact fun h => h.2 2 hedge
  case substitute => exact ⟨by decide, by decide, by decide, 2, hedge⟩

end Flowgraph

import Flowgraph.Proofs.DeadCode
import Flowgraph.Proofs.Unroll.Completion

/-!
# What a pass does to one function

A pass changes the graph of a function and then records what it has done.  On a graph with a start
everything in it succeeds; on one without, its analysis is refused before anything has changed.

* `run_deadCodePass`, `run_unrollPass`: a run of a pass, as what it is made of.
* `sweepIfEnabled_ok`, `eliminateDeadCode_succeeds`: the parts on a graph with a start.
* `run_deadCodePass_of_no_start`, `run_unrollPass_of_no_start`: the passes on a graph without one.
* `passes_fail_without_start`: when a pass fails, and what it leaves then.
-/

namespace Flowgraph

open Flowgraph.Graph

variable {σ α β : Type} {g h k : Graph} {start : NodeId} {config : OptimizerConfig} {round : Nat}
  {function : String} {log : EventLog}

/-! ### Reading computations -/

theorem bind_of_ok {m : EStateM GraphError σ α} {f : α → EStateM GraphError σ β} {a : α} {s t : σ}
    (h : m s = .ok a t) : (m >>= f) s = f a t := by
  change EStateM.bind m f s = _
  rw [EStateM.bind, h]

theorem bind_of_error {m : EStateM GraphError σ α} {f : α → EStateM GraphError σ β} {s t : σ}
    {e : GraphError} (h : m s = .error e t) : (m >>= f) s = .error e t := by
  change EStateM.bind m f s = _
  rw [EStateM.bind, h]

namespace Work

/-- An edit inside of a pass leaves the log alone. -/
theorem edit_ok {e : Edit α} {a : α} (h : e g = .ok a k) :
    edit e ⟨g, log⟩ = .ok a ⟨k, log⟩ := by
  rw [edit, h]

/-- So it does when it is refused. -/
theorem edit_error {e : Edit α} {err : GraphError} (h : e g = .error err k) :
    edit e ⟨g, log⟩ = .error err ⟨k, log⟩ := by
  rw [edit, h]

theorem record_apply (events : EventLog) (w : Workspace) :
    record events w = .ok () { w with events := w.events ++ events } := rfl

end Work

/-! ### The passes -/

/-- Dead code elimination records what was swept and what was removed. -/
theorem run_deadCodePass {swept : Nat} {removed : List Removal}
    (hsweep : sweepIfEnabled config.cleanup g = .ok swept k)
    (hok : eliminateDeadCode k = .ok removed h) :
    deadCodePass.run config round function ⟨g, log⟩ =
      .ok (!(sweepEvents function swept ++ removed.map (Removal.event function)).isEmpty)
        ⟨h, log ++ (sweepEvents function swept ++ removed.map (Removal.event function))⟩ := by
  rw [deadCodePass]
  dsimp only
  rw [bind_of_ok (Work.edit_ok hsweep), bind_of_ok (Work.edit_ok hok),
    bind_of_ok (Work.record_apply _ _)]
  rfl

/-- Unrolling records its report. -/
theorem run_unrollPass {report : UnrollReport} (hok : unrollLoops config.unroll g = .ok report h) :
    unrollPass.run config round function ⟨g, log⟩ =
      .ok (report.unrolled != 0) ⟨h, log ++ report.events function config.unroll⟩ := by
  rw [unrollPass]
  dsimp only
  rw [bind_of_ok (Work.edit_ok hok), bind_of_ok (Work.record_apply _ _)]
  rfl

/-- The sweep cannot fail. -/
theorem sweepIfEnabled_apply (c : CleanupConfig) (g : Graph) :
    sweepIfEnabled c g =
      if c.sweepUnreachable then .ok g.unreachable.length g.swept else .ok 0 g := by
  rw [sweepIfEnabled]
  split <;> rfl

/-- The sweep, if there is one, keeps the start. -/
theorem sweepIfEnabled_ok (hg : g.WellFormed) (hs : g.start = some start) (c : CleanupConfig) :
    ∃ swept k, sweepIfEnabled c g = .ok swept k ∧ k.WellFormed ∧ k.start = some start ∧
      (k = g.swept ∨ k = g) := by
  rw [sweepIfEnabled_apply]
  split
  · exact ⟨_, _, rfl, hg.swept, (start_swept g).trans hs, .inl rfl⟩
  · exact ⟨_, _, rfl, hg, hs, .inr rfl⟩

/-- A sweep that drops nothing changes nothing. -/
theorem eq_of_sweepIfEnabled_zero {c : CleanupConfig} (hg : g.WellFormed)
    (hs : g.start = some start) (h : sweepIfEnabled c g = .ok 0 k) : k = g := by
  rw [sweepIfEnabled_apply] at h
  split at h
  · obtain ⟨hlength, rfl⟩ := EStateM.Result.ok.inj h
    exact hg.swept_eq_self hs (List.eq_nil_of_length_eq_zero hlength)
  · exact (EStateM.Result.ok.inj h).2.symm

/-- Without a start it does nothing. -/
theorem sweepIfEnabled_of_no_start (hs : g.start = none) (c : CleanupConfig) :
    sweepIfEnabled c g = .ok 0 g := by
  obtain ⟨hswept, hnil⟩ := swept_of_no_start hs
  rw [sweepIfEnabled_apply, hswept, hnil]
  split <;> rfl

/-- A round of dead code elimination goes through on every well-formed graph with a start. -/
theorem eliminateDeadCode_succeeds (hg : g.WellFormed) (hs : g.start = some start) :
    ∃ removed h, eliminateDeadCode g = .ok removed h := by
  obtain ⟨removed, h, hok, -⟩ := eliminateDeadCode_alike (M := Machine.integers fun _ _ => 0) hg hs
  exact ⟨removed, h, hok⟩

/-! ### Without a start -/

/-- Without a start it fails, before any change. -/
theorem eliminateDeadCode_of_no_start (hs : g.start = none) :
    eliminateDeadCode g = .error .noStart g := by
  have hentry : g.entry = .error .noStart := by rw [entry, hs]
  have hl : Liveness.compute g = .error .noStart := by
    rw [Liveness.compute, Liveness.ofVariables, Dataflow.Problem.solve,
      Dataflow.Problem.solveWithin, hentry]
    rfl
  rw [eliminateDeadCode, Edit.bind_ok (Edit.get_apply g), hl]
  rfl

/-- So does unrolling. -/
theorem unrollLoops_of_no_start (hs : g.start = none) (c : UnrollConfig) :
    unrollLoops c g = .error .noStart g := by
  have hentry : g.entry = .error .noStart := by rw [entry, hs]
  have hd : Dominators.compute g = .error .noStart := by
    rw [Dominators.compute, hentry]
    rfl
  rw [unrollLoops, Edit.bind_ok (Edit.get_apply g), hd]
  rfl

theorem run_deadCodePass_of_no_start (hs : g.start = none) :
    deadCodePass.run config round function ⟨g, log⟩ = .error .noStart ⟨g, log⟩ := by
  rw [deadCodePass]
  dsimp only
  rw [bind_of_ok (Work.edit_ok (sweepIfEnabled_of_no_start hs _)),
    bind_of_error (Work.edit_error (eliminateDeadCode_of_no_start hs))]

theorem run_unrollPass_of_no_start (hs : g.start = none) :
    unrollPass.run config round function ⟨g, log⟩ = .error .noStart ⟨g, log⟩ := by
  rw [unrollPass]
  dsimp only
  rw [bind_of_error (Work.edit_error (unrollLoops_of_no_start hs _))]

/-- Run for a function whose graph is built, in any round and with any configuration, each of the
two passes succeeds if the graph has a start.  If it has none, the pass fails because of that, and
leaves the graph and the log as they were. -/
theorem passes_fail_without_start {w : Workspace} (hg : Built w.graph) :
    ∀ pass ∈ [deadCodePass, unrollPass], ∀ config round function,
      (w.graph.start ≠ none → ∃ changed w', pass.run config round function w = .ok changed w') ∧
      ∀ e w', pass.run config round function w = .error e w' ↔
        w.graph.start = none ∧ e = .noStart ∧ w' = w := by
  obtain ⟨g, log⟩ := w
  have hw := hg.wellFormed
  intro pass hpass config round function
  -- it is enough to say what comes of the pass with a start and without
  suffices h : (∀ start, g.start = some start →
      ∃ changed w', pass.run config round function ⟨g, log⟩ = .ok changed w') ∧
      (g.start = none → pass.run config round function ⟨g, log⟩ = .error .noStart ⟨g, log⟩) by
    obtain ⟨hsome, hnone⟩ := h
    cases hs : g.start with
    | none =>
        refine ⟨fun hne => absurd rfl hne, fun e w' => ?_⟩
        rw [hnone hs]
        grind
    | some start =>
        obtain ⟨changed, w', hok⟩ := hsome start hs
        refine ⟨fun _ => ⟨changed, w', hok⟩, fun e w'' => ?_⟩
        rw [hok]
        grind
  rcases List.mem_pair.mp hpass with rfl | rfl
  · refine ⟨fun start hs => ?_, run_deadCodePass_of_no_start⟩
    obtain ⟨swept, k, hsweep, hk, hks, -⟩ := sweepIfEnabled_ok hw hs config.cleanup
    obtain ⟨removed, h, hok⟩ := eliminateDeadCode_succeeds hk hks
    exact ⟨_, _, run_deadCodePass hsweep hok⟩
  · refine ⟨fun start hs => ?_, run_unrollPass_of_no_start⟩
    obtain ⟨d, report, k, h, -, hok, -⟩ := unrollLoops_completes hw hs config.unroll
    exact ⟨_, _, run_unrollPass hok⟩

/-- A branch on `c` to two stubs, without a start. -/
def startless : Graph :=
  after (Edit.addBranch (.temp "c") 0 1) (after Edit.addStub (after Edit.addStub .empty))

/-- A start that goes to a branch on `c`, which goes to a stub or back to the start. -/
def startInLoop : Graph := after (Edit.substituteStub 1 3) (after (Edit.addStart 2) startless)

/-- Without the start both passes fail; with it both go through, although a stub is reached and the
start has a predecessor. -/
theorem passes_fail_startless :
    Built startless ∧ Built startInLoop ∧ startInLoop.preds 3 = [2] ∧
      startInLoop.kind? 0 = some .stub ∧ startInLoop.Reaches 3 0 ∧
      ∀ pass ∈ [deadCodePass, unrollPass],
        pass.run .standard 0 "f" ⟨startless, []⟩ = .error .noStart ⟨startless, []⟩ ∧
        ∃ changed w, pass.run .standard 0 "f" ⟨startInLoop, []⟩ = .ok changed w := by
  have hless : Built startless :=
    .tail (.tail (.single (.addStub _)) (.addStub _)) (.addBranch _ _ _ _)
  have hloop : Built startInLoop := .tail (.tail hless (.addStart _ _)) (.substituteStub _ _ _)
  have hreach : startInLoop.Reaches 3 0 :=
    .head (b := 2) (by decide : 2 ∈ startInLoop.succs 3)
      (.single (by decide : 0 ∈ startInLoop.succs 2))
  refine ⟨hless, hloop, by decide, by decide, hreach, fun pass hpass => ⟨?_, ?_⟩⟩
  · obtain ⟨-, herror⟩ :=
      passes_fail_without_start (w := ⟨startless, []⟩) hless pass hpass .standard 0 "f"
    exact (herror _ _).mpr ⟨by decide, rfl, rfl⟩
  · obtain ⟨hok, -⟩ :=
      passes_fail_without_start (w := ⟨startInLoop, []⟩) hloop pass hpass .standard 0 "f"
    exact hok (by decide)

end Flowgraph

import Flowgraph.Pipeline
import Flowgraph.Proofs.Verified

/-!
# What the pipeline does to one function

A pass reads nothing of a context but the configuration and the graph that it is given, and only
adds to the log.  So each pass, each round and the whole pipeline have an effect on a graph, which
does not depend on what else there is.

* `Outcome`: a result with the graph that is left and the events recorded on the way.
* `Pass.effect`, `roundEffect`, `cleanUpEffect`, `Scheduler.effect`: the effects.
* `Pass.Local`: a run of a pass is its effect, and the pass can be run again on what it leaves.
* `local_deadCodePass`, `local_unrollPass`: this is so for the passes of the optimizer.
* `Pass.Exact`, `exact_deadCodePass`: a pass that says that it has changed nothing has done nothing.
* `cleanUpEffect_succ`: more rounds do nothing to a function on which one has done nothing.
-/

namespace Flowgraph

variable {α β : Type} {config : OptimizerConfig} {function : String} {g : Graph} {pass : Pass}
  {passes : List Pass}

namespace Graph

/-- What a pass can be run on. -/
structure Started (g : Graph) : Prop extends g.WellFormed where
  exists_start : ∃ s, g.start = some s

end Graph

/-- A result with the graph that is left and the events recorded on the way to it. -/
structure Outcome (α : Type) where
  value : α
  graph : Graph
  events : EventLog

namespace Outcome

/-- Nothing is done. -/
def idle (a : α) (g : Graph) : Outcome α := ⟨a, g, []⟩

/-- Go on with the graph that is left. -/
def bind (o : Outcome α) (f : α → Graph → Outcome β) : Outcome β :=
  ⟨(f o.value o.graph).value, (f o.value o.graph).graph, o.events ++ (f o.value o.graph).events⟩

/-- The same outcome with another result. -/
def map (f : α → β) (o : Outcome α) : Outcome β := ⟨f o.value, o.graph, o.events⟩

/-- The graph is one to go on with, and all events are those of one function. -/
structure Proper (function : String) (o : Outcome α) : Prop where
  started : o.graph.Started
  own : ∀ e ∈ o.events, e.function = some function

theorem idle_bind (a : α) (f : α → Graph → Outcome β) : (idle a g).bind f = f a g := rfl

theorem Proper.idle (a : α) (hg : g.Started) : Proper function (idle a g) :=
  ⟨hg, fun _ he => (List.not_mem_nil he).elim⟩

/-- A sequence of proper effects is proper. -/
theorem Proper.bind {o : Outcome α} {f : α → Graph → Outcome β} (ho : Proper function o)
    (hf : ∀ a h, h.Started → Proper function (f a h)) : Proper function (o.bind f) where
  started := (hf _ _ ho.started).started
  own e he := (List.mem_append.mp he).elim (ho.own e) ((hf _ _ ho.started).own e)

theorem Proper.map {o : Outcome α} (f : α → β) (ho : Proper function o) :
    Proper function (o.map f) := ⟨ho.started, ho.own⟩

end Outcome

/-! ### Effects -/

/-- What a pass does to a function. -/
def Pass.effect (pass : Pass) (config : OptimizerConfig) (function : String) (g : Graph) :
    Outcome Bool :=
  if pass.shouldRun config function then
    match pass.run config 0 function ⟨g, []⟩ with
    | .ok changed w => ⟨changed, w.graph, w.events⟩
    | .error _ w => ⟨false, w.graph, w.events⟩
  else .idle false g

/-- What a round of passes does to a function, with whether any of them changed it. -/
def roundEffect (config : OptimizerConfig) (function : String) :
    List Pass → Graph → Outcome Bool
  | [], g => .idle false g
  | pass :: rest, g =>
      (pass.effect config function g).bind fun changed h =>
        (roundEffect config function rest h).map (changed || ·)

/-- What at most so many rounds do to a function, until one does not change it, with the number of
those that did. -/
def cleanUpEffect (config : OptimizerConfig) (function : String) (passes : List Pass) :
    Nat → Graph → Outcome Nat
  | 0, g => .idle 0 g
  | rounds + 1, g =>
      (roundEffect config function passes g).bind fun changed h =>
        if changed then (cleanUpEffect config function passes rounds h).map (· + 1)
        else .idle 0 h

/-- What the pipeline does to a function. -/
def Scheduler.effect (s : Scheduler) (config : OptimizerConfig) (function : String) (g : Graph) :
    Outcome Nat :=
  (roundEffect config function s.transform g).bind fun _ h =>
    cleanUpEffect config function s.cleanup s.maxCleanupRounds h

/-! ### Local passes -/

/-- A pass with nothing to set up or tear down, whose runs on graphs that it can be run on are its
effect, whatever the round and the log. -/
structure Pass.Local (pass : Pass) (config : OptimizerConfig) : Prop where
  setup_eq : ∀ log, pass.setup log = .ok () log
  teardown_eq : ∀ log, pass.teardown log = .ok () log
  run_eq : ∀ {function g}, g.Started → pass.shouldRun config function = true → ∀ round log,
    pass.run config round function ⟨g, log⟩ =
      .ok (pass.effect config function g).value
        ⟨(pass.effect config function g).graph, log ++ (pass.effect config function g).events⟩
  proper : ∀ {function g}, g.Started → (pass.effect config function g).Proper function

/-- It is enough to say what the runs come to. -/
theorem Pass.Local.of_run (hsetup : ∀ log, pass.setup log = .ok () log)
    (hteardown : ∀ log, pass.teardown log = .ok () log)
    (hrun : ∀ function (g : Graph), g.Started → ∃ o : Outcome Bool, o.Proper function ∧
      ∀ round log, pass.run config round function ⟨g, log⟩ =
        .ok o.value ⟨o.graph, log ++ o.events⟩) : pass.Local config := by
  have heffect {function : String} {g : Graph} (hg : g.Started)
      (hshould : pass.shouldRun config function = true) :
      (pass.effect config function g).Proper function ∧ ∀ round log,
        pass.run config round function ⟨g, log⟩ =
          .ok (pass.effect config function g).value
            ⟨(pass.effect config function g).graph,
              log ++ (pass.effect config function g).events⟩ := by
    obtain ⟨o, hproper, ho⟩ := hrun function g hg
    have : pass.effect config function g = o := by
      rw [Pass.effect, if_pos hshould, ho]
      rfl
    rw [this]
    exact ⟨hproper, ho⟩
  refine ⟨hsetup, hteardown, fun hg hshould => (heffect hg hshould).2, fun {function g} hg => ?_⟩
  by_cases hshould : pass.shouldRun config function = true
  · exact (heffect hg hshould).1
  · rw [Pass.effect, if_neg hshould]
    exact .idle false hg

/-- A sweep is reported for the function that it was made for. -/
theorem own_sweepEvents (swept : Nat) :
    ∀ e ∈ sweepEvents function swept, e.function = some function := by
  intro e he
  rw [sweepEvents] at he
  split at he
  · cases he
  · rw [List.mem_singleton.mp he, Event.ofFunction]

/-- So are loops. -/
theorem own_reportEvents (report : UnrollReport) (c : UnrollConfig) :
    ∀ e ∈ report.events function c, e.function = some function := by
  intro e he
  rcases List.mem_append.mp he with he | he
  · obtain ⟨l, -, rfl⟩ := List.mem_map.mp he
    rw [UnrollReport.loopEvent]
    split <;> rfl
  · split at he
    · cases he
    · rw [List.mem_singleton.mp he, Event.ofFunction]

/-- A sweep is reported if it dropped something. -/
theorem sweepEvents_eq_nil_iff {swept : Nat} : sweepEvents function swept = [] ↔ swept = 0 := by
  rw [sweepEvents]
  split <;> simp [*]

/-- When nothing is to be recorded, nothing has been swept or removed. -/
theorem eq_of_deadCode_silent {k h : Graph} {start : NodeId} {swept : Nat}
    {removed : List Removal} (hg : g.WellFormed) (hs : g.start = some start)
    (hsweep : sweepIfEnabled config.cleanup g = .ok swept k)
    (hok : eliminateDeadCode k = .ok removed h)
    (hnil : sweepEvents function swept ++ removed.map (Removal.event function) = []) : h = g := by
  obtain ⟨hsweptNil, hremovedNil⟩ := List.append_eq_nil_iff.mp hnil
  obtain rfl := sweepEvents_eq_nil_iff.mp hsweptNil
  obtain rfl := List.map_eq_nil_iff.mp hremovedNil
  obtain rfl := eq_of_eliminateDeadCode_nil hok
  exact eq_of_sweepIfEnabled_zero hg hs hsweep

/-- A run of dead code elimination, part by part; when it has recorded nothing, nothing has been
swept or removed. -/
theorem deadCodePass_outcome (config : OptimizerConfig) (function : String) (hg : g.Started) :
    ∃ o : Outcome Bool, o.Proper function ∧ (o.value = false → o = .idle false g) ∧
      ∀ round log, deadCodePass.run config round function ⟨g, log⟩ =
        .ok o.value ⟨o.graph, log ++ o.events⟩ := by
  obtain ⟨start, hs⟩ := hg.exists_start
  obtain ⟨swept, k, removed, h, hsweep, hok, hh, hkeep⟩ :=
    Keeps.exists_of_deadCodePass hg.toWellFormed hs config.cleanup
  refine ⟨⟨_, h, _⟩, ⟨⟨hh, start, hkeep.start_eq⟩, fun e he => ?_⟩, fun hunchanged => ?_,
    fun round log => run_deadCodePass hsweep hok⟩
  · rcases List.mem_append.mp he with he | he
    · exact own_sweepEvents swept e he
    · obtain ⟨r, -, rfl⟩ := List.mem_map.mp he
      rfl
  · have hnil : sweepEvents function swept ++ removed.map (Removal.event function) = [] :=
      List.isEmpty_iff.mp (Bool.not_inj hunchanged)
    obtain rfl := eq_of_deadCode_silent hg.toWellFormed hs hsweep hok hnil
    rw [hnil]
    rfl

/-- Dead code elimination looks at its own function alone. -/
theorem local_deadCodePass (config : OptimizerConfig) : deadCodePass.Local config :=
  .of_run (fun _ => rfl) (fun _ => rfl) fun function _ hg => by
    obtain ⟨o, hproper, -, hrun⟩ := deadCodePass_outcome config function hg
    exact ⟨o, hproper, hrun⟩

/-- So does unrolling. -/
theorem local_unrollPass (config : OptimizerConfig) : unrollPass.Local config :=
  .of_run (fun _ => rfl) (fun _ => rfl) fun function g hg => by
    obtain ⟨start, hs⟩ := hg.exists_start
    obtain ⟨-, report, -, h, -, hok, -, -, hkeep⟩ :=
      unrollLoops_keeps hg.toWellFormed hs config.unroll
    exact ⟨⟨_, h, _⟩, ⟨⟨(proper_unrollLoops config.unroll).wellFormed_of_ok hok hg.toWellFormed,
      start, hkeep.start_eq⟩, own_reportEvents report config.unroll⟩,
      fun round log => run_unrollPass hok⟩

/-! ### Exact passes -/

/-- When the pass says that it has changed nothing, it has done nothing. -/
def Pass.Exact (pass : Pass) (config : OptimizerConfig) : Prop :=
  ∀ {function g}, g.Started → (pass.effect config function g).value = false →
    pass.effect config function g = .idle false g

/-- Dead code elimination reports no change only if it makes none and records nothing. -/
theorem exact_deadCodePass (config : OptimizerConfig) : deadCodePass.Exact config := by
  intro function g hg hvalue
  obtain ⟨o, -, hexact, hrun⟩ := deadCodePass_outcome config function hg
  rw [Pass.effect] at hvalue ⊢
  split at hvalue
  · next hshould =>
      rw [hrun] at hvalue
      rw [if_pos hshould, hrun, hexact hvalue]
      rfl
  · next hshould => rw [if_neg hshould]

/-! ### Rounds -/

/-- A round of local passes is proper. -/
theorem proper_roundEffect (hpasses : ∀ pass ∈ passes, pass.Local config) (hg : g.Started) :
    (roundEffect config function passes g).Proper function := by
  induction passes generalizing g with
  | nil => exact .idle false hg
  | cons pass rest ih =>
      obtain ⟨hpass, hrest⟩ := List.forall_mem_cons.mp hpasses
      exact (hpass.proper hg).bind fun changed h hh => (ih hrest hh).map _

/-- A round without a change does nothing if its passes are exact. -/
theorem roundEffect_of_unchanged (hpasses : ∀ pass ∈ passes, pass.Exact config) (hg : g.Started)
    (hvalue : (roundEffect config function passes g).value = false) :
    roundEffect config function passes g = .idle false g := by
  induction passes with
  | nil => rfl
  | cons pass rest ih =>
      obtain ⟨hpass, hrest⟩ := List.forall_mem_cons.mp hpasses
      obtain ⟨hfirst, hlater⟩ := Bool.or_eq_false_iff.mp hvalue
      have hidle := hpass hg hfirst
      rw [hidle] at hlater
      rw [roundEffect, hidle, Outcome.idle_bind, ih hrest hlater]
      rfl

/-- Rounds that do nothing do not count, however many there are. -/
theorem cleanUpEffect_of_idle (hidle : roundEffect config function passes g = .idle false g)
    (rounds : Nat) : cleanUpEffect config function passes rounds g = .idle 0 g := by
  cases rounds with
  | zero => rfl
  | succ rounds => rw [cleanUpEffect, hidle]; rfl

/-- One more round before others, whether it changes anything or not. -/
theorem cleanUpEffect_succ (hpasses : ∀ pass ∈ passes, pass.Exact config) (hg : g.Started)
    (rounds : Nat) :
    cleanUpEffect config function passes (rounds + 1) g =
      (roundEffect config function passes g).bind fun changed h =>
        (cleanUpEffect config function passes rounds h).map (· + changed.toNat) := by
  cases hvalue : (roundEffect config function passes g).value with
  | true =>
      rw [cleanUpEffect, Outcome.bind, Outcome.bind, hvalue]
      rfl
  | false =>
      have hidle := roundEffect_of_unchanged hpasses hg hvalue
      rw [cleanUpEffect, hidle, Outcome.idle_bind, Outcome.idle_bind,
        cleanUpEffect_of_idle hidle rounds]
      rfl

end Flowgraph

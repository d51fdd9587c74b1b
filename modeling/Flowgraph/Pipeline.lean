import Flowgraph.Pass

/-!
# The pipeline

The functions of a program are optimized in two phases: one round of the transforming passes, and
then rounds of the cleaning passes until one of them changes nothing.  In a round every pass in turn
goes over all functions.

* `Context`: the functions by name, the log of events, and the configuration.
* `Scheduler.run`: both phases, with the functions in the order of their names.
* `Scheduler.runInOrder`: both phases, with the functions in any order.
-/

namespace Flowgraph

/-- The functions, in the ascending order of their names, with the log and the configuration. -/
structure Context where
  functions : List (String × Graph)
  events : EventLog
  config : OptimizerConfig
  /-- No name occurs twice. -/
  ascending : Ascending (functions.map Prod.fst)

namespace Context

/-- No functions and no events. -/
def ofConfig (config : OptimizerConfig) : Context := ⟨[], [], config, .nil⟩

/-- The names of the functions, in ascending order. -/
def names (c : Context) : List String := c.functions.map Prod.fst

/-- The graph of the function with this name. -/
def function? (c : Context) (name : String) : Option Graph := c.functions.lookup name

/-- Put a function at its place, instead of one with the same name. -/
def insertFunction (name : String) (graph : Graph) :
    List (String × Graph) → List (String × Graph)
  | [] => [(name, graph)]
  | (other, h) :: rest =>
      if name < other then (name, graph) :: (other, h) :: rest
      else if name = other then (name, graph) :: rest
      else (other, h) :: insertFunction name graph rest

/-- The name of a function that is put in goes to its place among the others. -/
theorem map_fst_insertFunction (name : String) (graph : Graph) (l : List (String × Graph)) :
    (insertFunction name graph l).map Prod.fst = Ascending.insert name (l.map Prod.fst) := by
  induction l with
  | nil => rfl
  | cons entry rest ih =>
      rw [insertFunction, List.map_cons, Ascending.insert]
      grind

/-- Put a function in, or give it a new graph. -/
def addFunction (c : Context) (name : String) (graph : Graph) : Context :=
  { c with
    functions := insertFunction name graph c.functions
    ascending := map_fst_insertFunction name graph _ ▸ Ascending.pairwise_insert c.ascending }

/-- Take a function out, if it is there. -/
def removeFunction (c : Context) (name : String) : Context :=
  { c with
    functions := c.functions.filter fun f => f.1 ≠ name
    ascending := c.ascending.sublist (List.filter_sublist.map _) }

end Context

/-- A computation on all functions.  What it has changed and recorded stays after an error. -/
abbrev Optimize (α : Type) : Type := EStateM GraphError Context α

namespace Optimize

/-- Change the log alone. -/
def onEvents {α : Type} (e : EStateM GraphError EventLog α) : Optimize α := fun c =>
  match e c.events with
  | .ok a log => .ok a { c with events := log }
  | .error err log => .error err { c with events := log }

/-- Work on one function, if it is there and the pass applies to it; says whether that changed
anything. -/
def runOn (pass : Pass) (round : Nat) (name : String) : Optimize Bool := fun c =>
  if pass.shouldRun c.config name then
    match c.function? name with
    | none => .ok false c
    | some g =>
        match pass.run c.config round name ⟨g, c.events⟩ with
        | .ok changed w => .ok changed { c.addFunction name w.graph with events := w.events }
        | .error err w => .error err { c.addFunction name w.graph with events := w.events }
  else .ok false c

/-- Do something for each of a list in turn, up to the first error; says whether anything
changed. -/
def forAll {β : Type} (f : β → Optimize Bool) : List β → Optimize Bool
  | [] => return false
  | b :: rest => do
      let changed ← f b
      let later ← forAll f rest
      return changed || later

end Optimize

/-- The transforming passes run first, and the cleaning passes after them. -/
inductive Phase where
  | transform
  | cleanup
  deriving DecidableEq

/-- One pass in one round of a phase; rounds and positions are counted from 0. -/
structure Turn where
  phase : Phase
  round : Nat
  position : Nat
  deriving DecidableEq

/-- The order in which the functions are taken in each turn. -/
abbrev VisitOrder : Type := Turn → List String → List String

/-- The passes of both phases, and how many cleaning rounds there may be. -/
structure Scheduler where
  maxCleanupRounds : Nat
  transform : List Pass
  cleanup : List Pass

namespace Scheduler

/-- No passes, and as many rounds as the standard configuration allows. -/
def standard : Scheduler := ⟨CleanupConfig.standard.maxIterations, [], []⟩

/-- The passes that a configuration enables. -/
def ofConfig (config : OptimizerConfig) : Scheduler where
  maxCleanupRounds := config.cleanup.maxIterations
  transform := if config.unroll.enabled then [unrollPass] else []
  cleanup := if config.cleanup.enabled then [deadCodePass] else []

/-- One round: set up all passes, let each go over all functions, and tear all of them down; says
whether anything changed. -/
def runRound (order : VisitOrder) (phase : Phase) (round : Nat) (passes : List Pass) :
    Optimize Bool := do
  passes.forM fun pass => Optimize.onEvents pass.setup
  let names := (← get).names
  let changed ← Optimize.forAll (fun (pass, position) =>
      Optimize.forAll (Optimize.runOn pass round) (order ⟨phase, round, position⟩ names))
    passes.zipIdx
  passes.forM fun pass => Optimize.onEvents pass.teardown
  return changed

/-- At most so many rounds, counted from `round` on, until one changes nothing; returns the number
of those that changed something. -/
def cleanUp (order : VisitOrder) (passes : List Pass) (round : Nat) : Nat → Optimize Nat
  | 0 => return 0
  | rounds + 1 => do
      if ← runRound order .cleanup round passes then
        return (← cleanUp order passes (round + 1) rounds) + 1
      else return 0

/-- Both phases, with the functions in the given order; returns the number of cleanup rounds that
changed something. -/
def runInOrder (order : VisitOrder) (s : Scheduler) : Optimize Nat := do
  if !s.transform.isEmpty then
    let _ ← runRound order .transform 0 s.transform
  if s.cleanup.isEmpty then return 0
  else cleanUp order s.cleanup 0 s.maxCleanupRounds

/-- Both phases, with the functions in the order of their names. -/
def run (s : Scheduler) : Optimize Nat := s.runInOrder fun _ names => names

end Scheduler

end Flowgraph

import Flowgraph.NodeId

/-!
# Events

What the passes report, in the order in which they report it.

* `Event.text`: the line of one event.
* `EventLog`: events in recorded order, with the queries on them.
-/

namespace Flowgraph

/-- What an event reports. -/
inductive EventKind where
  | instructionRemoved
  | loopUnrolled
  | loopSkipped
  | nodesSwept
  | info
  | warning
  deriving DecidableEq

namespace EventKind

/-- The kinds in the order of their listing. -/
def all : List EventKind :=
  [.instructionRemoved, .loopUnrolled, .loopSkipped, .nodesSwept, .info, .warning]

/-- How a kind is written. -/
def name : EventKind → String
  | .instructionRemoved => "instruction-removed"
  | .loopUnrolled => "loop-unrolled"
  | .loopSkipped => "loop-skipped"
  | .nodesSwept => "nodes-swept"
  | .info => "info"
  | .warning => "warning"

end EventKind

/-- Something that a pass did or left undone, with the function and the node that it concerns. -/
structure Event where
  kind : EventKind
  function : Option String
  node : Option NodeId
  message : String
  deriving DecidableEq

namespace Event

/-- An event at a node of a function. -/
def atNode (kind : EventKind) (function : String) (node : NodeId) (message : String) : Event :=
  ⟨kind, some function, some node, message⟩

/-- An event of a function as a whole. -/
def ofFunction (kind : EventKind) (function message : String) : Event :=
  ⟨kind, some function, none, message⟩

/-- `[kind] function@node: message`, without the parts that are absent or empty. -/
def text (e : Event) : String :=
  "[" ++ e.kind.name ++ "]"
    ++ ((e.function.map fun f => " " ++ f).getD "")
    ++ ((e.node.map fun n => "@" ++ n.text).getD "")
    ++ (if e.message.isEmpty then "" else ": " ++ e.message)

end Event

/-- Events in the order in which they were recorded. -/
abbrev EventLog : Type := List Event

namespace EventLog

/-- Record something worth knowing about a function. -/
def info (log : EventLog) (function message : String) : EventLog :=
  log ++ [.ofFunction .info function message]

/-- Record something doubtful about a function. -/
def warn (log : EventLog) (function message : String) : EventLog :=
  log ++ [.ofFunction .warning function message]

/-- How many events of a kind there are. -/
def countOf (log : EventLog) (kind : EventKind) : Nat := log.countP fun e => e.kind = kind

/-- The events of one function. -/
def forFunction (log : EventLog) (function : String) : EventLog :=
  log.filter fun e => e.function = some function

/-- One line for each event. -/
def text (log : EventLog) : String := String.join (log.map fun e => e.text ++ "\n")

/-- Those without a function first, then in the order of the functions' names; within one
function as recorded. -/
def byFunction (log : EventLog) : EventLog :=
  log.mergeSort fun a b =>
    match a.function, b.function with
    | none, _ => true
    | some _, none => false
    | some f, some g => decide (f ≤ g)

end EventLog

end Flowgraph

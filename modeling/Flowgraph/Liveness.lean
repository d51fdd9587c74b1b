import Flowgraph.Dataflow

/-!
# Live variables

A temporary is live where its value may still be read.  Temporaries are numbered in the order of
their names, and the sets of live ones solve a backward dataflow problem over variable sets:
before a node live are those it reads, and those live after it that it does not write.  At the
exits the return temporaries are live.

* `Variables.ofGraph`: the names of a graph, and what each of its slots reads and writes.
* `Liveness.compute`: what is live before and after every node.
-/

namespace Flowgraph

open Dataflow

/-- The numbering of the temporaries of a graph, with the sets that each slot reads and writes and
those that are live at the exits. -/
structure Variables where
  names : List String
  uses : List BitSet
  defs : List BitSet
  exits : BitSet

namespace Variables

/-- The number of a name. -/
def indexIn? (names : List String) (name : String) : Option Nat := names.idxOf? name

/-- The set of the numbers of some names. -/
def numbers (names : List String) (chosen : List String) : BitSet :=
  .ofList names.length (chosen.filterMap (indexIn? names))

/-- Number every temporary that a live node reads or writes. -/
def ofGraph (g : Graph) : Variables :=
  let names := Ascending.unions (g.ids.map fun n => Ascending.union (g.defs n) (g.uses n))
  { names
    uses := (List.range g.bound).map fun n => numbers names (g.uses n)
    defs := (List.range g.bound).map fun n => numbers names (g.defs n)
    exits := numbers names (names.filter isReturnTemp) }

variable (v : Variables)

/-- The number of temporaries. -/
def count : Nat := v.names.length

/-- The number of a temporary. -/
def index? (name : String) : Option Nat := indexIn? v.names name

/-- The set that a slot reads, if there was such a slot. -/
def useSet? (n : NodeId) : Option BitSet := v.uses[n]?

/-- The set that a slot writes, if there was such a slot. -/
def defSet? (n : NodeId) : Option BitSet := v.defs[n]?

/-- Before a node live are those live after it, without those it writes, with those it reads.
Slots that were not there when the sets were made read and write nothing. -/
def transfer (n : NodeId) (live : VarSet) : VarSet :=
  let kept := ((v.defSet? n).map live.bits.diff).getD live.bits
  ⟨((v.useSet? n).map kept.union).getD kept⟩

/-- Liveness as a backward problem: the return temporaries are live at the exits. -/
def problem : Problem VarSet where
  direction := .backward
  top := .empty v.count
  boundary := some ⟨(BitSet.empty v.count).union v.exits⟩
  transfer n live := [v.transfer n live]
  height := v.count

end Variables

/-- Numbered names and the solved problem. -/
structure Liveness where
  names : List String
  facts : State VarSet

namespace Liveness

/-- Solve the problem that some numbering of the temporaries poses. -/
def ofVariables (v : Variables) (g : Graph) : Except GraphError Liveness :=
  (v.problem.solve g).map fun facts => ⟨v.names, facts⟩

/-- Number the temporaries of a graph and solve the problem that this poses. -/
def compute (g : Graph) : Except GraphError Liveness := ofVariables (.ofGraph g) g

variable (l : Liveness)

/-- The variables live before `n`. -/
def before? (n : NodeId) : Option VarSet := l.facts.output n

/-- The variables live after `n`. -/
def after? (n : NodeId) : Option VarSet := l.facts.input n

/-- Whether the set has the number of the name. -/
def holds (live : Option VarSet) (name : String) : Bool :=
  match Variables.indexIn? l.names name, live with
  | some i, some s => s.contains i
  | _, _ => false

/-- The name may still be read when `n` is entered. -/
def isLiveBefore (n : NodeId) (name : String) : Bool := l.holds (l.before? n) name

/-- The name may still be read when `n` has been left. -/
def isLiveAfter (n : NodeId) (name : String) : Bool := l.holds (l.after? n) name

/-- The names live after `n`, in ascending order. -/
def namesAfter (n : NodeId) : List String :=
  ((l.after? n).map fun s => s.toList.filterMap fun i => l.names[i]?).getD []

end Liveness

end Flowgraph

import Flowgraph.Graph.Basic

/-!
# Induction variables

A temporary that one node of a loop body writes, and that this node changes by a constant.

* `selfIncrement?`: the constant by which an assignment changes its own target.
* `inductionVars`: the induction variables of a body, in the order of their names.
-/

namespace Flowgraph

/-- How the update of an induction variable is written. -/
inductive UpdateKind where
  | add
  | sub
  deriving DecidableEq

/-- A temporary, the change that an iteration makes to it, and the one node that makes it. -/
structure InductionVar where
  name : String
  stride : Int64
  update : NodeId
  kind : UpdateKind
  deriving DecidableEq

/-- The negation of a constant; the least one has none. -/
def checkedNeg? (c : Int64) : Option Int64 := if c = Int64.minValue then none else some (-c)

/-- The change that `name = value` makes to `name`, for `name + c`, `c + name` and `name - c`. -/
def selfIncrement? (name : String) : Expr → Option (Int64 × UpdateKind)
  | .binop .add (.temp t) (.const c) => if t = name then some (c, .add) else none
  | .binop .add (.const c) (.temp t) => if t = name then some (c, .add) else none
  | .binop .sub (.temp t) (.const c) =>
      if t = name then (checkedNeg? c).map fun s => (s, .sub) else none
  | _ => none

/-- How many nodes of `body` write `name`. -/
def writers (g : Graph) (body : List NodeId) (name : String) : Nat :=
  (body.filter fun n => (g.defs n).contains name).length

/-- The induction variable that the node updates, if it is the only one of `body` to write it. -/
def inductionVar? (g : Graph) (body : List NodeId) (n : NodeId) : Option InductionVar :=
  match g.kind? n with
  | some (.stmt (.assign name value)) =>
      if writers g body name = 1 then
        (selfIncrement? name value).map fun (stride, kind) => ⟨name, stride, n, kind⟩
      else none
  | _ => none

/-- The induction variables of a body, sorted by name. -/
def inductionVars (g : Graph) (body : List NodeId) : List InductionVar :=
  (body.filterMap (inductionVar? g body)).mergeSort fun a b => decide (a.name ≤ b.name)

end Flowgraph

import Flowgraph.Config
import Flowgraph.Loop.Induction

/-!
# Loop guards

A loop can be unrolled when its header compares an induction variable with a bound that the body
leaves alone, and the comparison fails in the direction in which the variable moves.

* `Guard.analyze`: the parts of such a header, or the first reason against it.
* `Guard.lookahead`: the test that a whole chain of iterations passes.
-/

namespace Flowgraph

/-- Why a loop is left alone. -/
inductive SkipReason where
  | tooLarge
  | notAGuard
  | noInductionVariable
  | directionMismatch
  | variantBound
  | unsupportedShape
  | zeroFactor
  deriving DecidableEq

namespace SkipReason

/-- The wording of a reason. -/
def message : SkipReason → String
  | tooLarge => "loop body exceeds the size limit"
  | notAGuard => "header is not a comparison guard"
  | noInductionVariable => "guard does not test an induction variable"
  | directionMismatch => "comparison does not match the stride direction"
  | variantBound => "loop bound is not invariant"
  | unsupportedShape => "unsupported loop shape"
  | zeroFactor => "unroll factor is zero"

end SkipReason

/-- A header that goes to `entry` while `iv op bound` holds and to `exit` afterwards; an iteration
changes `iv` by `stride`. -/
structure Guard where
  iv : String
  stride : Int64
  op : BinOp
  bound : Expr
  entry : NodeId
  exit : NodeId
  deriving DecidableEq

namespace Guard

/-- A rising variable needs an upper bound and a falling one a lower bound. -/
def isConsistent (stride : Int64) (op : BinOp) : Bool :=
  (decide (0 < stride) && op.isUpperBound) || (decide (stride < 0) && op.isLowerBound)

/-- The temporaries that the nodes of a body write. -/
def bodyDefs (g : Graph) (body : List NodeId) : List String :=
  Ascending.unions (body.map g.defs)

/-- The operands of the comparison that a header makes. -/
def comparison? (g : Graph) (header : NodeId) : Except SkipReason (BinOp × Expr × Expr) :=
  match g.kind? header with
  | some (.branch (.binop op left right)) => .ok (op, left, right)
  | _ => .error .notAGuard

/-- The induction variable that a bare temporary names. -/
def inductionVar (g : Graph) (body : List NodeId) (left : Expr) :
    Except SkipReason InductionVar :=
  match left.temp?.bind fun name => (inductionVars g body).find? fun v => v.name == name with
  | some v => .ok v
  | none => .error .noInductionVariable

/-- The two successors of a header that enters the body on its first and leaves it on its second. -/
def ends (g : Graph) (header : NodeId) (body : List NodeId) :
    Except SkipReason (NodeId × NodeId) :=
  match g.succs header with
  | [entry, exit] =>
      if entry = header ∨ entry ∉ body ∨ exit ∈ body then .error .unsupportedShape
      else .ok (entry, exit)
  | _ => .error .unsupportedShape

/-- The guard of a loop. -/
def analyze (g : Graph) (header : NodeId) (body : List NodeId) (config : UnrollConfig) :
    Except SkipReason Guard := do
  if config.factor = 0 then throw .zeroFactor
  if config.maxBodySize < body.length then throw .tooLarge
  let (op, left, right) ← comparison? g header
  let v ← inductionVar g body left
  if !isConsistent v.stride op then throw .directionMismatch
  if !right.isInvariant (bodyDefs g body) then throw .variantBound
  let (entry, exit) ← ends g header body
  return { iv := v.name, stride := v.stride, op, bound := right, entry, exit }

/-- The test whether the variable still passes after `ahead` further strides. -/
def lookahead (guard : Guard) (ahead : Int64) : Expr :=
  .binop guard.op
    (.binop .add (.temp guard.iv) (.binop .mul (.const guard.stride) (.const ahead)))
    guard.bound

end Guard

end Flowgraph

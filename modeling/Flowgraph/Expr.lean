import Flowgraph.Ascending

/-!
# Expressions

Expressions are trees of constants, temporaries, global names, memory loads and binary
operations.  Evaluating one reads temporaries and memory and changes nothing.

* `Expr.uses`: the temporaries an expression reads.
* `Expr.isInvariant`: reading it twice gives one value if only the listed temporaries, and
  memory, are written in between.
-/

namespace Flowgraph

/-- The binary operators, in the order of their listing. -/
inductive BinOp where
  | add | sub | mul | div | mod | and | or | xor | lt | leq | gt | geq | eq | neq
  deriving DecidableEq

namespace BinOp

/-- The operators in the order of their listing. -/
def all : List BinOp :=
  [.add, .sub, .mul, .div, .mod, .and, .or, .xor, .lt, .leq, .gt, .geq, .eq, .neq]

/-- How an operator is written. -/
def symbol : BinOp → String
  | .add => "+"
  | .sub => "-"
  | .mul => "*"
  | .div => "/"
  | .mod => "%"
  | .and => "&"
  | .or => "|"
  | .xor => "^"
  | .lt => "<"
  | .leq => "<="
  | .gt => ">"
  | .geq => ">="
  | .eq => "=="
  | .neq => "!="

/-- The result is a truth value. -/
def isComparison : BinOp → Bool
  | .lt | .leq | .gt | .geq | .eq | .neq => true
  | _ => false

/-- The comparison holds for small left operands: a guard for a variable that rises. -/
def isUpperBound : BinOp → Bool
  | .lt | .leq => true
  | _ => false

/-- The comparison holds for large left operands: a guard for a variable that falls. -/
def isLowerBound : BinOp → Bool
  | .gt | .geq => true
  | _ => false

end BinOp

/-- An expression over 64-bit constants. -/
inductive Expr where
  | const (value : Int64)
  | temp (name : String)
  | global (name : String)
  | mem (address : Expr)
  | binop (op : BinOp) (left right : Expr)
  deriving DecidableEq

namespace Expr

/-- The name of a bare temporary. -/
def temp? : Expr → Option String
  | .temp name => some name
  | _ => none

/-- The value of a bare constant. -/
def const? : Expr → Option Int64
  | .const value => some value
  | _ => none

/-- The temporaries read, in ascending order.  Global names are not temporaries. -/
def uses : Expr → List String
  | .const _ | .global _ => []
  | .temp name => [name]
  | .mem address => address.uses
  | .binop _ left right => Ascending.union left.uses right.uses

/-- No temporary of `defined` is read, and memory is not read at all. -/
def isInvariant (defined : List String) : Expr → Bool
  | .const _ | .global _ => true
  | .temp name => !defined.contains name
  | .mem _ => false
  | .binop _ left right => left.isInvariant defined && right.isInvariant defined

/-- Infix text; every operation is in parentheses and every load in brackets. -/
def text : Expr → String
  | .const value => toString value.toInt
  | .temp name | .global name => name
  | .mem address => "[" ++ address.text ++ "]"
  | .binop op left right => "(" ++ left.text ++ " " ++ op.symbol ++ " " ++ right.text ++ ")"

end Expr

/-- Temporaries whose names begin with `_RV` hold return values and are live at every exit. -/
def isReturnTemp (name : String) : Bool := "_RV".toList.isPrefixOf name.toList

end Flowgraph

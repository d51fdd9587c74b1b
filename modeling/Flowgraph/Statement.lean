import Flowgraph.Expr

/-!
# Statements

A statement assigns a temporary, stores to memory or calls a function; control passes on to
what follows it.

* `Stmt.defs`, `Stmt.uses`: the temporaries a statement writes and reads.
* `Stmt.exposedUses`: what a sequence reads before it has written it.
-/

namespace Flowgraph

/-- A call of `target`; `results` receive the returned values in order. -/
structure Call where
  target : Expr
  args : List Expr
  results : List String
  deriving DecidableEq

namespace Call

/-- The temporaries that receive results, in ascending order. -/
def defs (c : Call) : List String := Ascending.ofList c.results

/-- The temporaries that the target or an argument reads, in ascending order. -/
def uses (c : Call) : List String := Ascending.unions ((c.target :: c.args).map Expr.uses)

/-- `r1, r2 = f(a, b)`, without the left side when nothing is received. -/
def text (c : Call) : String :=
  (if c.results.isEmpty then "" else ", ".intercalate c.results ++ " = ")
    ++ c.target.text ++ "(" ++ ", ".intercalate (c.args.map Expr.text) ++ ")"

end Call

/-- `assign` writes a temporary.  `store` writes the cell at the address `target`, except that a
bare temporary as target is itself written. -/
inductive Stmt where
  | assign (target : String) (value : Expr)
  | store (target value : Expr)
  | call (call : Call)
  deriving DecidableEq

namespace Stmt

/-- The one temporary an assignment or a store writes. -/
def target? : Stmt → Option String
  | .assign target _ => some target
  | .store target _ => target.temp?
  | .call _ => none

/-- The temporaries written, in ascending order. -/
def defs : Stmt → List String
  | .assign target _ => [target]
  | .store target _ => target.temp?.toList
  | .call c => c.defs

/-- The temporaries read, in ascending order.  A bare temporary as the target of a store is
written, not read; any other target is an address to compute. -/
def uses : Stmt → List String
  | .assign _ value => value.uses
  | .store (.temp _) value => value.uses
  | .store target value => Ascending.union target.uses value.uses
  | .call c => c.uses

/-- A store to something that is not a temporary or already a load is written as a load. -/
def text : Stmt → String
  | .assign target value => target ++ " = " ++ value.text
  | .store target value =>
      match target with
      | .mem _ | .temp _ => target.text ++ " = " ++ value.text
      | _ => "[" ++ target.text ++ "] = " ++ value.text
  | .call c => c.text

/-- The temporaries that a sequence reads before any of its statements has written them. -/
def exposedUses : List Stmt → List String
  | [] => []
  | s :: rest =>
      Ascending.union s.uses ((exposedUses rest).filter fun name => !s.defs.contains name)

end Stmt

end Flowgraph

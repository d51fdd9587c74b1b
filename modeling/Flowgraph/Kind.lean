import Flowgraph.Statement

/-!
# Node kinds

What a node of a flow graph does.

* `Kind.arity`: how many successors are named when a node is added.
* `Kind.degree`: how many successors the node then has.
* `Kind.defs`, `Kind.uses`: the temporaries a node writes, and those it reads before writing.
-/

namespace Flowgraph

/-- A `branch` goes to its first successor when the condition holds and to its second
otherwise.  A `stub` stands for a node that is still to be built. -/
inductive Kind where
  | start
  | stmt (stmt : Stmt)
  | branch (cond : Expr)
  | ret
  | selfLoop
  | block (stmts : List Stmt)
  | stub
  deriving DecidableEq

namespace Kind

/-- The name a message gives to the kind. -/
def name : Kind → String
  | .start => "Start"
  | .stmt (.assign _ _) => "VarAssign"
  | .stmt (.store _ _) => "MemAssign"
  | .stmt (.call _) => "Call"
  | .branch _ => "If"
  | .ret => "Return"
  | .selfLoop => "SelfLoop"
  | .block _ => "Block"
  | .stub => "Stub"

/-- The number of successors to name when a node of this kind is added. -/
def arity : Kind → Nat
  | .ret | .selfLoop | .stub => 0
  | .branch _ => 2
  | .start | .stmt _ | .block _ => 1

/-- The number of successors of a node of this kind: a self-loop has itself. -/
def degree : Kind → Nat
  | .selfLoop => 1
  | k => k.arity

/-- A start node. -/
def isStart : Kind → Bool
  | .start => true
  | _ => false

/-- A node that is its own only successor. -/
def isSelfLoop : Kind → Bool
  | .selfLoop => true
  | _ => false

/-- A placeholder for a node that is still to come. -/
def isStub : Kind → Bool
  | .stub => true
  | _ => false

/-- A node that leaves by one of two edges. -/
def isBranch : Kind → Bool
  | .branch _ => true
  | _ => false

/-- An assignment or a store. -/
def isAssignment : Kind → Bool
  | .stmt (.assign _ _) | .stmt (.store _ _) => true
  | _ => false

/-- The one temporary that an assignment, or a store to a bare temporary, writes. -/
def target? : Kind → Option String
  | .stmt s => s.target?
  | _ => none

/-- The temporaries written, in ascending order. -/
def defs : Kind → List String
  | .stmt s => s.defs
  | .block stmts => Ascending.unions (stmts.map Stmt.defs)
  | .start | .branch _ | .ret | .selfLoop | .stub => []

/-- The temporaries read before the node itself has written them, in ascending order. -/
def uses : Kind → List String
  | .stmt s => s.uses
  | .branch cond => cond.uses
  | .block stmts => Stmt.exposedUses stmts
  | .start | .ret | .selfLoop | .stub => []

/-- The text of a node; a block has one line for each statement. -/
def text : Kind → String
  | .start => "start"
  | .stmt s => s.text
  | .branch cond => "if " ++ cond.text
  | .ret => "return"
  | .selfLoop => "loop"
  | .block stmts => "\n".intercalate (stmts.map Stmt.text)
  | .stub => "stub"

/-- The statement of a node that holds exactly one. -/
def stmt? : Kind → Option Stmt
  | .stmt s => some s
  | _ => none

end Kind

end Flowgraph

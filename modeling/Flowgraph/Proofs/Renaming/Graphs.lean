import Flowgraph.Proofs.Views
import Mathlib.Logic.Function.Basic

/-!
# Renaming the temporaries of a graph

`Graph.rename ρ` replaces every temporary `x` of a graph by `ρ x`: where it is read, where it is
assigned and where it receives a result of a call.  Global names, constants, operators and edges
stay as they are.

* `Renaming`: no two temporaries get one name, and the return temporaries keep their role.
* `Graph.node?_rename`: the view of a renamed graph; everything that does not look at names is the
  same (`flow_rename`, `reachable_rename`).
* `Graph.mem_defs_rename`, `Graph.mem_uses_rename`: a renamed node writes and reads the renamed
  temporaries.
-/

namespace Flowgraph

/-- What a renaming must not do: merge two temporaries, or turn a return temporary into another
one or back. -/
structure Renaming (ρ : String → String) : Prop where
  injective : Function.Injective ρ
  isReturnTemp_eq : ∀ x, isReturnTemp (ρ x) = isReturnTemp x

/-! ### Renaming syntax -/

variable (ρ : String → String)

/-- The expression with every temporary `x` replaced by `ρ x`. -/
def Expr.rename : Expr → Expr
  | .const value => .const value
  | .temp x => .temp (ρ x)
  | .global name => .global name
  | .mem address => .mem address.rename
  | .binop op left right => .binop op left.rename right.rename

/-- The call with its operands and results renamed. -/
def Call.rename (c : Call) : Call where
  target := c.target.rename ρ
  args := c.args.map (Expr.rename ρ)
  results := c.results.map ρ

/-- The statement with all its temporaries renamed, those that it writes included. -/
def Stmt.rename : Stmt → Stmt
  | .assign target value => .assign (ρ target) (value.rename ρ)
  | .store target value => .store (target.rename ρ) (value.rename ρ)
  | .call c => .call (c.rename ρ)

/-- A node of the same shape with its temporaries renamed. -/
def Kind.rename : Kind → Kind
  | .start => .start
  | .stmt s => .stmt (s.rename ρ)
  | .branch cond => .branch (cond.rename ρ)
  | .ret => .ret
  | .selfLoop => .selfLoop
  | .block stmts => .block (stmts.map (Stmt.rename ρ))
  | .stub => .stub

/-- The node with the same edges. -/
def Node.rename (n : Node) : Node := { n with kind := n.kind.rename ρ }

/-- The graph with every node renamed in its place. -/
def Graph.rename (g : Graph) : Graph := { g with slots := g.slots.map (Option.map (Node.rename ρ)) }

/-- One defect names the kind of a node. -/
def Defect.rename : Defect → Defect
  | .wrongDegree node kind found => .wrongDegree node (kind.rename ρ) found
  | d => d

/-- Some errors report the kind of a node. -/
def GraphError.rename : GraphError → GraphError
  | .arityMismatch node kind found => .arityMismatch node (kind.rename ρ) found
  | .unsupportedInBlock kind => .unsupportedInBlock (kind.rename ρ)
  | .inconsistent defect => .inconsistent (defect.rename ρ)
  | e => e

/-! ### What a renamed node writes and reads -/

variable {ρ}

theorem Expr.temp?_rename (e : Expr) : (e.rename ρ).temp? = e.temp?.map ρ := by cases e <;> rfl

/-- A renamed expression reads the renamed temporaries. -/
theorem Expr.mem_uses_rename {y : String} :
    ∀ {e : Expr}, y ∈ (e.rename ρ).uses ↔ ∃ x ∈ e.uses, ρ x = y
  | .const _ | .global _ => by simp [rename, uses]
  | .temp x => by simp [rename, uses, eq_comm]
  | .mem address => mem_uses_rename (e := address)
  | .binop _ left right => by
      simp only [rename, uses, Ascending.mem_union, mem_uses_rename (e := left),
        mem_uses_rename (e := right), or_and_right, exists_or]

namespace Call

variable {c : Call} {y : String}

theorem mem_defs_rename : y ∈ (c.rename ρ).defs ↔ ∃ x ∈ c.defs, ρ x = y := by
  simp [defs, rename]

theorem mem_uses_rename : y ∈ (c.rename ρ).uses ↔ ∃ x ∈ c.uses, ρ x = y := by
  have hlist :
      (c.rename ρ).target :: (c.rename ρ).args = (c.target :: c.args).map (Expr.rename ρ) := rfl
  rw [uses, uses, hlist]
  simp only [Ascending.mem_unions, List.mem_map, exists_exists_and_eq_and, Expr.mem_uses_rename]
  constructor
  · rintro ⟨e, he, x, hx, rfl⟩
    exact ⟨x, ⟨e, he, hx⟩, rfl⟩
  · rintro ⟨x, ⟨e, he, hx⟩, rfl⟩
    exact ⟨e, he, x, hx, rfl⟩

end Call

namespace Stmt

variable {s : Stmt} {ss : List Stmt} {x y : String}

theorem target?_rename (s : Stmt) : (s.rename ρ).target? = s.target?.map ρ := by
  cases s with
  | assign | call => rfl
  | store target value => exact target.temp?_rename

theorem mem_defs_rename : y ∈ (s.rename ρ).defs ↔ ∃ x ∈ s.defs, ρ x = y := by
  cases s with
  | assign target value => simp [rename, defs, eq_comm]
  | store target value => simp [rename, defs, Expr.temp?_rename]
  | call c => exact Call.mem_defs_rename

/-- The target of a store is read unless it is a bare temporary. -/
theorem uses_store (target value : Expr) :
    (store target value).uses =
      if target.temp? = none then Ascending.union target.uses value.uses else value.uses := by
  cases target <;> rfl

/-- So does a statement; a bare temporary stays one. -/
theorem mem_uses_rename : y ∈ (s.rename ρ).uses ↔ ∃ x ∈ s.uses, ρ x = y := by
  cases s with
  | assign target value => exact Expr.mem_uses_rename
  | call c => exact Call.mem_uses_rename
  | store target value =>
      simp only [rename, uses_store, Expr.temp?_rename, Option.map_eq_none_iff]
      split
      · simp only [Ascending.mem_union, Expr.mem_uses_rename, or_and_right, exists_or]
      · exact Expr.mem_uses_rename

variable (hρ : Renaming ρ)

include hρ

/-- A statement writes a renamed temporary only if it wrote the temporary, as no two are merged. -/
theorem rename_mem_defs_rename : ρ x ∈ (s.rename ρ).defs ↔ x ∈ s.defs := by
  simp [mem_defs_rename, hρ.injective.eq_iff]

/-- What is written first hides what is read later, under the new names as under the old ones. -/
theorem mem_exposedUses_rename :
    y ∈ exposedUses (ss.map (rename ρ)) ↔ ∃ x ∈ exposedUses ss, ρ x = y := by
  induction ss with
  | nil => simp [exposedUses]
  | cons s rest ih =>
      simp only [List.map_cons, exposedUses, Ascending.mem_union, mem_uses_rename, List.mem_filter,
        ih, or_and_right, exists_or, Bool.not_eq_true', ← Bool.not_eq_true,
        List.contains_iff_mem]
      -- as no two names become one, a name is hidden by itself only
      refine or_congr_right ⟨?_, ?_⟩
      · rintro ⟨⟨x, hx, rfl⟩, hnot⟩
        exact ⟨x, ⟨hx, mt (rename_mem_defs_rename hρ).mpr hnot⟩, rfl⟩
      · rintro ⟨x, ⟨hx, hnot⟩, rfl⟩
        exact ⟨⟨x, hx, rfl⟩, mt (rename_mem_defs_rename hρ).mp hnot⟩

end Stmt

namespace Kind

variable {k : Kind} {y : String}

section Shape

variable (k)

@[simp] theorem arity_rename : (k.rename ρ).arity = k.arity := by cases k <;> rfl

@[simp] theorem isStart_rename : (k.rename ρ).isStart = k.isStart := by cases k <;> rfl

@[simp] theorem isSelfLoop_rename : (k.rename ρ).isSelfLoop = k.isSelfLoop := by cases k <;> rfl

@[simp] theorem isStub_rename : (k.rename ρ).isStub = k.isStub := by cases k <;> rfl

theorem target?_rename : (k.rename ρ).target? = k.target?.map ρ := by
  cases k with
  | stmt s => exact s.target?_rename
  | _ => rfl

end Shape

/-- A renamed node writes the renamed temporaries. -/
theorem mem_defs_rename : y ∈ (k.rename ρ).defs ↔ ∃ x ∈ k.defs, ρ x = y := by
  cases k with
  | stmt s => exact Stmt.mem_defs_rename
  | block stmts =>
      simp only [rename, defs, List.map_map, Ascending.mem_unions, List.mem_map,
        exists_exists_and_eq_and, Function.comp_apply, Stmt.mem_defs_rename]
      constructor
      · rintro ⟨s, hs, x, hx, rfl⟩
        exact ⟨x, ⟨s, hs, hx⟩, rfl⟩
      · rintro ⟨x, ⟨s, hs, hx⟩, rfl⟩
        exact ⟨s, hs, x, hx, rfl⟩
  | _ => simp [rename, defs]

/-- It reads the renamed ones; in a block this needs that no two temporaries are merged. -/
theorem mem_uses_rename (hρ : Renaming ρ) : y ∈ (k.rename ρ).uses ↔ ∃ x ∈ k.uses, ρ x = y := by
  cases k with
  | stmt s => exact Stmt.mem_uses_rename
  | branch cond => exact Expr.mem_uses_rename
  | block stmts => exact Stmt.mem_exposedUses_rename hρ
  | _ => simp [rename, uses]

end Kind

/-! ### The view of a renamed graph -/

namespace Graph

variable (g : Graph) (n : NodeId)

@[simp] theorem bound_rename : (g.rename ρ).bound = g.bound := by simp [bound, rename]

@[simp] theorem start_rename : (g.rename ρ).start = g.start := rfl

@[simp] theorem node?_rename : (g.rename ρ).node? n = (g.node? n).map (Node.rename ρ) := by
  simp only [node?, rename, Array.getElem?_map]
  cases g.slots[n]? <;> rfl

@[simp] theorem kind?_rename : (g.rename ρ).kind? n = (g.kind? n).map (Kind.rename ρ) := by
  simp only [kind?, node?_rename]
  cases g.node? n <;> rfl

theorem kind?_rename_eq_selfLoop_iff :
    (g.rename ρ).kind? n = some .selfLoop ↔ g.kind? n = some .selfLoop := by
  rw [kind?_rename]
  cases g.kind? n with
  | none => simp
  | some k => cases k <;> simp [Kind.rename]

@[simp] theorem isLive_rename : (g.rename ρ).isLive = g.isLive := by
  funext n
  simp [isLive]

@[simp] theorem succs_rename : (g.rename ρ).succs = g.succs := by
  funext n
  simp only [succs, node?_rename]
  cases g.node? n <;> rfl

@[simp] theorem preds_rename : (g.rename ρ).preds = g.preds := by
  funext n
  simp only [preds, node?_rename]
  cases g.node? n <;> rfl

@[simp] theorem ids_rename : (g.rename ρ).ids = g.ids := by simp [ids]

@[simp] theorem flow_rename : (g.rename ρ).flow = g.flow := by simp [flow]

@[simp] theorem reachable_rename : (g.rename ρ).reachable = g.reachable := by simp [reachable]

@[simp] theorem entry_rename : (g.rename ρ).entry = g.entry := rfl

@[simp] theorem unreachable_rename : (g.rename ρ).unreachable = g.unreachable := by
  simp [unreachable]

variable {g n} {x y : String}

theorem mem_defs_rename : y ∈ (g.rename ρ).defs n ↔ ∃ x ∈ g.defs n, ρ x = y := by
  simp only [defs, kind?_rename]
  cases g.kind? n with
  | none => simp
  | some k => exact Kind.mem_defs_rename

variable (hρ : Renaming ρ)

include hρ

theorem mem_uses_rename : y ∈ (g.rename ρ).uses n ↔ ∃ x ∈ g.uses n, ρ x = y := by
  simp only [uses, kind?_rename]
  cases g.kind? n with
  | none => simp
  | some k => exact Kind.mem_uses_rename hρ

theorem rename_mem_defs_rename : ρ x ∈ (g.rename ρ).defs n ↔ x ∈ g.defs n := by
  simp [mem_defs_rename, hρ.injective.eq_iff]

end Graph

end Flowgraph

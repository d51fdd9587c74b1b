import Flowgraph.Graph.Basic

/-!
# Running a flow graph

A machine gives values to constants, global names and operations, and results to calls.  A run goes
from node to node; it reads and writes temporaries and memory, and leaves a trace of the calls it
makes and of the cells it writes.

* `Machine.integers`, `Machine.words`: the machine of integers without bounds, and that of 64-bit
  words.
* `Machine.eval`, `Machine.exec`, `Machine.perform`: expressions, statements and nodes.
* `Machine.step`, `Machine.run`: one step, and at most so many.
* `Machine.Traces`, `Machine.Returns`: what can be seen of the run from the start of a graph.
* `Alike`: two graphs whose runs look the same on every machine of a kind.
* `Agrees`, `Machine.agrees_perform`: a node reads no more than the temporaries that it uses.
* `Machine.temps_perform`, `Machine.eval_of_isInvariant`: it writes no more than it defines.
-/

namespace Flowgraph

variable {V : Type}

/-- What a run does that can be seen from outside. -/
inductive Effect (V : Type) where
  | call (target : V) (args : List V)
  | write (address value : V)

/-- The meaning of expressions, and the results of calls.  The results of a call may depend on all
effects so far, the call itself being the last. -/
structure Machine (V : Type) where
  const : Int64 → V
  global : String → V
  op : BinOp → V → V → V
  result : List (Effect V) → (position : Nat) → V

/-- The operators on integers without bounds.  A comparison gives one or zero, and the bitwise
operators look at 64 bits. -/
def BinOp.onInt (op : BinOp) (a b : Int) : Int :=
  match op with
  | .add => a + b
  | .sub => a - b
  | .mul => a * b
  | .div => a.tdiv b
  | .mod => a.tmod b
  | .and => (Int64.ofInt a &&& Int64.ofInt b).toInt
  | .or => (Int64.ofInt a ||| Int64.ofInt b).toInt
  | .xor => (Int64.ofInt a ^^^ Int64.ofInt b).toInt
  | .lt => if a < b then 1 else 0
  | .leq => if a ≤ b then 1 else 0
  | .gt => if b < a then 1 else 0
  | .geq => if b ≤ a then 1 else 0
  | .eq => if a = b then 1 else 0
  | .neq => if a = b then 0 else 1

/-- The machine that calculates with integers without bounds, for given results of calls. -/
def Machine.integers (result : List (Effect Int) → Nat → Int) : Machine Int where
  const := Int64.toInt
  global := fun _ => 0
  op := BinOp.onInt
  result := result

/-- The operators on 64-bit words.  Sums, differences and products wrap around, and a quotient or a
remainder that there is not is zero. -/
def BinOp.onWord (op : BinOp) (a b : Int64) : Int64 :=
  match op with
  | .add => a + b
  | .sub => a - b
  | .mul => a * b
  | .div => if b = 0 ∨ a = Int64.minValue ∧ b = -1 then 0 else a / b
  | .mod => if b = 0 ∨ a = Int64.minValue ∧ b = -1 then 0 else a % b
  | .and => a &&& b
  | .or => a ||| b
  | .xor => a ^^^ b
  | .lt => if a < b then 1 else 0
  | .leq => if a ≤ b then 1 else 0
  | .gt => if b < a then 1 else 0
  | .geq => if b ≤ a then 1 else 0
  | .eq => if a = b then 1 else 0
  | .neq => if a = b then 0 else 1

/-- The machine that calculates with 64-bit words, for given results of calls. -/
def Machine.words (result : List (Effect Int64) → Nat → Int64) : Machine Int64 where
  const := id
  global := fun _ => 0
  op := BinOp.onWord
  result := result

/-- Temporaries and memory, and the effects so far. -/
structure Snapshot (V : Type) where
  temps : String → V
  memory : V → V
  trace : List (Effect V)

namespace Snapshot

/-- Give a temporary a value. -/
def assign (s : Snapshot V) (x : String) (v : V) : Snapshot V :=
  { s with temps := fun y => if y = x then v else s.temps y }

/-- Assign the values at the positions of the names, from the first to the last. -/
def assignAll (s : Snapshot V) (values : Nat → V) (names : List String) : Snapshot V :=
  names.zipIdx.foldl (fun s (x, i) => s.assign x (values i)) s

/-- Write a value to memory, which can be seen from outside. -/
def write [DecidableEq V] (s : Snapshot V) (address value : V) : Snapshot V where
  temps := s.temps
  memory := fun a => if a = address then value else s.memory a
  trace := s.trace ++ [.write address value]

/-- Make a call; what comes back is not assigned yet. -/
def call (s : Snapshot V) (target : V) (args : List V) : Snapshot V :=
  { s with trace := s.trace ++ [.call target args] }

end Snapshot

/-- The address that a store to this target writes to: a load stands for its own address. -/
def Expr.address : Expr → Expr
  | .mem a => a
  | e => e

/-- A node with the state on entry to it. -/
structure Config (V : Type) where
  node : NodeId
  state : Snapshot V

namespace Machine

variable (M : Machine V)

/-- The value of an expression. -/
def eval (s : Snapshot V) : Expr → V
  | .const c => M.const c
  | .temp x => s.temps x
  | .global x => M.global x
  | .mem a => s.memory (eval s a)
  | .binop op l r => M.op op (eval s l) (eval s r)

variable [DecidableEq V]

/-- What a statement does to the state. -/
def exec (s : Snapshot V) : Stmt → Snapshot V
  | .assign x e => s.assign x (M.eval s e)
  | .store (.temp x) e => s.assign x (M.eval s e)
  | .store target e => s.write (M.eval s target.address) (M.eval s e)
  | .call c =>
      let called := s.call (M.eval s c.target) (c.args.map (M.eval s))
      called.assignAll (M.result called.trace) c.results

/-- What a node does to the state. -/
def perform (s : Snapshot V) : Kind → Snapshot V
  | .stmt st => M.exec s st
  | .block sts => sts.foldl M.exec s
  | .start | .branch _ | .ret | .selfLoop | .stub => s

/-- The position of the edge that leaves a node: the second one of a branch whose condition is
zero, and otherwise the first. -/
def slot (s : Snapshot V) : Kind → Nat
  | .branch cond => if M.eval s cond = M.const 0 then 1 else 0
  | _ => 0

/-- One step.  A return stops, and so does a stub. -/
def step (g : Graph) (c : Config V) : Option (Config V) :=
  match g.kind? c.node with
  | none | some .ret | some .stub => none
  | some k => ((g.succs c.node)[M.slot c.state k]?).map fun n => ⟨n, M.perform c.state k⟩

/-- A number of steps, or as many as there are. -/
def run (g : Graph) : Nat → Config V → Config V
  | 0, c => c
  | k + 1, c =>
      match M.step g c with
      | none => c
      | some c' => run g k c'

/-- The run from the start of the graph has had these effects at some point. -/
def Traces (g : Graph) (s : Snapshot V) (effects : List (Effect V)) : Prop :=
  ∃ start k, g.start = some start ∧ (M.run g k ⟨start, s⟩).state.trace = effects

/-- The run from the start of the graph comes to a return in this state. -/
def Returns (g : Graph) (s r : Snapshot V) : Prop :=
  ∃ start k n, g.start = some start ∧ M.run g k ⟨start, s⟩ = ⟨n, r⟩ ∧ g.kind? n = some .ret

end Machine

/-- The runs of two graphs from one state have the same effects one after the other, and one comes
to a return exactly if the other does, with the same effects and memory and the same values of the
temporaries to keep. -/
structure Alike [DecidableEq V] (M : Machine V) (keep : String → Prop) (g h : Graph) : Prop where
  traces : ∀ s effects, M.Traces g s effects ↔ M.Traces h s effects
  returns : ∀ s r, M.Returns g s r → ∃ r', M.Returns h s r' ∧ r'.trace = r.trace ∧
    r'.memory = r.memory ∧ ∀ x, keep x → r'.temps x = r.temps x
  returns_back : ∀ s r, M.Returns h s r → ∃ r', M.Returns g s r' ∧ r'.trace = r.trace ∧
    r'.memory = r.memory ∧ ∀ x, keep x → r'.temps x = r.temps x

namespace Alike

variable [DecidableEq V] {M : Machine V} {keep : String → Prop} {g h k : Graph}

theorem refl (g : Graph) : Alike M keep g g where
  traces _ _ := Iff.rfl
  returns _ r hr := ⟨r, hr, rfl, rfl, fun _ _ => rfl⟩
  returns_back _ r hr := ⟨r, hr, rfl, rfl, fun _ _ => rfl⟩

/-- Graphs that look the same as a third look the same. -/
theorem trans (hgh : Alike M keep g h) (hhk : Alike M keep h k) : Alike M keep g k where
  traces s effects := (hgh.traces s effects).trans (hhk.traces s effects)
  returns s r hr := by
    obtain ⟨r', hr', ht, hm, hx⟩ := hgh.returns s r hr
    obtain ⟨r'', hr'', ht', hm', hx'⟩ := hhk.returns s r' hr'
    exact ⟨r'', hr'', ht'.trans ht, hm'.trans hm, fun x hk => (hx' x hk).trans (hx x hk)⟩
  returns_back s r hr := by
    obtain ⟨r', hr', ht, hm, hx⟩ := hhk.returns_back s r hr
    obtain ⟨r'', hr'', ht', hm', hx'⟩ := hgh.returns_back s r' hr'
    exact ⟨r'', hr'', ht'.trans ht, hm'.trans hm, fun x hk => (hx' x hk).trans (hx x hk)⟩

end Alike

/-! ### States that agree -/

/-- The same effects and memory, and the same values of some temporaries. -/
structure Agrees (P : String → Prop) (s t : Snapshot V) : Prop where
  trace : s.trace = t.trace
  memory : s.memory = t.memory
  temps : ∀ {x}, P x → s.temps x = t.temps x

namespace Agrees

variable {P Q : String → Prop} {s t : Snapshot V}

theorem refl (s : Snapshot V) : Agrees P s s := ⟨rfl, rfl, fun _ => rfl⟩

/-- States that agree on more agree on less. -/
theorem mono (h : Agrees P s t) (hQ : ∀ {x}, Q x → P x) : Agrees Q s t :=
  ⟨h.trace, h.memory, fun hx => h.temps (hQ hx)⟩

/-- Both sides assign the same value. -/
theorem assign (h : Agrees P s t) (x : String) (v : V) :
    Agrees (fun y => y = x ∨ P y) (s.assign x v) (t.assign x v) where
  trace := h.trace
  memory := h.memory
  temps {y} hy := by
    simp only [Snapshot.assign]
    split
    · rfl
    · next hne => exact h.temps (hy.resolve_left hne)

/-- A temporary on which nothing depends may be assigned on one side only. -/
theorem assign_left (h : Agrees P s t) {x : String} (v : V) (hx : ¬P x) :
    Agrees P (s.assign x v) t where
  trace := h.trace
  memory := h.memory
  temps {y} hy := by
    have hne : y ≠ x := fun e => hx (e ▸ hy)
    exact (if_neg hne).trans (h.temps hy)

/-- Equal values at equal names make states agree on these names as well. -/
theorem assignAll (h : Agrees P s t) (values : Nat → V) (names : List String) :
    Agrees (fun y => y ∈ names ∨ P y) (s.assignAll values names)
      (t.assignAll values names) := by
  unfold Snapshot.assignAll
  generalize 0 = i
  induction names generalizing s t P i with
  | nil => exact h.mono fun hy => hy.resolve_left List.not_mem_nil
  | cons x names ih =>
      refine (ih (h.assign x (values i)) (i + 1)).mono fun {y} hy => ?_
      rw [List.mem_cons] at hy
      rcases hy with (rfl | hy) | hy
      · exact .inr (.inl rfl)
      · exact .inl hy
      · exact .inr (.inr hy)

theorem write [DecidableEq V] (h : Agrees P s t) (a v : V) :
    Agrees P (s.write a v) (t.write a v) where
  trace := congrArg (· ++ [Effect.write a v]) h.trace
  memory := by rw [Snapshot.write, Snapshot.write, h.memory]
  temps := h.temps

theorem call (h : Agrees P s t) (target : V) (args : List V) :
    Agrees P (s.call target args) (t.call target args) where
  trace := congrArg (· ++ [Effect.call target args]) h.trace
  memory := h.memory
  temps := h.temps

end Agrees

namespace Machine

variable [DecidableEq V] {M : Machine V} {P : String → Prop} {s t : Snapshot V}

omit [DecidableEq V] in
/-- An expression has one value in states that agree on what it reads. -/
theorem eval_congr {e : Expr} (h : Agrees P s t) (he : ∀ x ∈ e.uses, P x) :
    M.eval s e = M.eval t e := by
  induction e with
  | const c => rfl
  | temp x => exact h.temps (he x List.mem_cons_self)
  | global x => rfl
  | mem a ih => rw [eval, eval, h.memory, ih he]
  | binop op l r ihl ihr =>
      rw [eval, eval, ihl fun x hx => he x (Ascending.mem_union.mpr (.inl hx)),
        ihr fun x hx => he x (Ascending.mem_union.mpr (.inr hx))]

theorem uses_address (e : Expr) : e.address.uses = e.uses := by
  cases e <;> rfl

/-- A statement reads no more than the temporaries that it uses. -/
theorem agrees_exec {st : Stmt} (h : Agrees P s t) (hst : ∀ x ∈ st.uses, P x) :
    Agrees (fun x => x ∈ st.defs ∨ P x) (M.exec s st) (M.exec t st) := by
  have hassign (x : String) (e : Expr) (he : ∀ y ∈ e.uses, P y) :
      Agrees (fun y => y ∈ [x] ∨ P y) (s.assign x (M.eval s e)) (t.assign x (M.eval t e)) := by
    rw [eval_congr h he]
    exact (h.assign x _).mono fun hy => hy.imp List.mem_singleton.mp id
  have hwrite (target e : Expr) (hu : ∀ y ∈ Ascending.union target.uses e.uses, P y) :
      Agrees P (s.write (M.eval s target.address) (M.eval s e))
        (t.write (M.eval t target.address) (M.eval t e)) := by
    rw [eval_congr h fun x hx => hu x (Ascending.mem_union.mpr (.inl (uses_address target ▸ hx))),
      eval_congr h fun x hx => hu x (Ascending.mem_union.mpr (.inr hx))]
    exact h.write _ _
  -- a store to a bare temporary is an assignment, and every other one writes memory
  cases st with
  | assign x e => exact hassign x e hst
  | store target e =>
      cases target with
      | temp x => exact hassign x e hst
      | const c => exact (hwrite (.const c) e hst).mono fun hx => hx.resolve_left List.not_mem_nil
      | global x => exact (hwrite (.global x) e hst).mono fun hx => hx.resolve_left List.not_mem_nil
      | mem a => exact (hwrite (.mem a) e hst).mono fun hx => hx.resolve_left List.not_mem_nil
      | binop op l r =>
          exact (hwrite (.binop op l r) e hst).mono fun hx => hx.resolve_left List.not_mem_nil
  | call c =>
      have hpart : ∀ e ∈ c.target :: c.args, M.eval s e = M.eval t e := fun e he =>
        eval_congr h fun x hx =>
          hst x (Ascending.mem_unions.mpr ⟨_, List.mem_map.mpr ⟨e, he, rfl⟩, hx⟩)
      have hargs : c.args.map (M.eval s) = c.args.map (M.eval t) :=
        List.map_congr_left fun e he => hpart e (List.mem_cons_of_mem _ he)
      have hcall := h.call (M.eval t c.target) (c.args.map (M.eval t))
      rw [exec, exec, hpart c.target List.mem_cons_self, hargs]
      simp only [hcall.trace]
      exact (hcall.assignAll _ c.results).mono fun hx => hx.imp Ascending.mem_ofList.mp id

/-- A sequence reads no more than what it uses before it has written it. -/
theorem agrees_foldl_exec {sts : List Stmt} (h : Agrees P s t)
    (hsts : ∀ x ∈ Stmt.exposedUses sts, P x) :
    Agrees (fun x => x ∈ Ascending.unions (sts.map Stmt.defs) ∨ P x) (sts.foldl M.exec s)
      (sts.foldl M.exec t) := by
  induction sts generalizing s t P with
  | nil => exact h.mono fun hx => hx.resolve_left List.not_mem_nil
  | cons st rest ih =>
      have hfirst : Agrees (fun x => x ∈ st.defs ∨ P x) (M.exec s st) (M.exec t st) :=
        agrees_exec h fun x hx => hsts x (Ascending.mem_union.mpr (.inl hx))
      refine (ih hfirst fun x hx => ?_).mono fun {x} hx => ?_
      · by_cases hd : x ∈ st.defs
        · exact .inl hd
        · refine .inr (hsts x (Ascending.mem_union.mpr (.inr (List.mem_filter.mpr ⟨hx, ?_⟩))))
          simp [hd]
      · rcases hx with hx | hx
        · obtain ⟨l, hl, hx⟩ := Ascending.mem_unions.mp hx
          rcases List.mem_cons.mp hl with rfl | hl
          · exact .inr (.inl hx)
          · exact .inl (Ascending.mem_unions.mpr ⟨l, hl, hx⟩)
        · exact .inr (.inr hx)

/-- A node reads no more than the temporaries that it uses, and leaves by the same edge. -/
theorem agrees_perform {k : Kind} (h : Agrees P s t) (hk : ∀ x ∈ k.uses, P x) :
    Agrees (fun x => x ∈ k.defs ∨ P x) (M.perform s k) (M.perform t k) ∧
      M.slot s k = M.slot t k := by
  have hidle : Agrees (fun x => x ∈ ([] : List String) ∨ P x) s t :=
    h.mono fun hx => hx.resolve_left List.not_mem_nil
  cases k with
  | stmt st => exact ⟨agrees_exec h hk, rfl⟩
  | block sts => exact ⟨agrees_foldl_exec h hk, rfl⟩
  | branch cond => exact ⟨hidle, by rw [slot, slot, eval_congr h hk]⟩
  | start | ret | selfLoop | stub => exact ⟨hidle, rfl⟩

/-! ### What a node leaves alone -/

omit [DecidableEq V] in
/-- Only the listed temporaries are assigned. -/
theorem temps_assignAll {values : Nat → V} {names : List String} {x : String} (hx : x ∉ names) :
    (s.assignAll values names).temps x = s.temps x := by
  unfold Snapshot.assignAll
  generalize 0 = i
  induction names generalizing s i with
  | nil => rfl
  | cons y names ih =>
      obtain ⟨hy, hx⟩ := not_or.mp (mt List.mem_cons.mpr hx)
      exact (ih hx (i + 1)).trans (if_neg hy)

/-- A statement leaves the temporaries alone that it does not write. -/
theorem temps_exec {st : Stmt} {x : String} (hx : x ∉ st.defs) :
    (M.exec s st).temps x = s.temps x := by
  cases st with
  | assign y e => exact if_neg fun h => hx (List.mem_singleton.mpr h)
  | store target e =>
      cases target with
      | temp y => exact if_neg fun h => hx (List.mem_singleton.mpr h)
      | const | global | mem | binop => rfl
  | call c => exact temps_assignAll fun h => hx (Ascending.mem_ofList.mpr h)

/-- A node leaves the temporaries alone that it does not write. -/
theorem temps_perform {k : Kind} {x : String} (hx : x ∉ k.defs) :
    (M.perform s k).temps x = s.temps x := by
  cases k with
  | stmt st => exact temps_exec hx
  | block sts =>
      rw [perform]
      have hsts : ∀ st ∈ sts, x ∉ st.defs := fun st hst hxs =>
        hx (Ascending.mem_unions.mpr ⟨_, List.mem_map.mpr ⟨st, hst, rfl⟩, hxs⟩)
      clear hx
      induction sts generalizing s with
      | nil => rfl
      | cons st sts ih =>
          rw [List.foldl_cons, ih fun st' h => hsts st' (List.mem_cons_of_mem st h),
            temps_exec (hsts st List.mem_cons_self)]
  | start | branch | ret | selfLoop | stub => rfl

omit [DecidableEq V] in
/-- An invariant expression has one value wherever the temporaries that are not written have the
same values. -/
theorem eval_of_isInvariant {e : Expr} {defined : List String} (he : e.isInvariant defined = true)
    (h : ∀ x, x ∉ defined → s.temps x = t.temps x) : M.eval s e = M.eval t e := by
  induction e with
  | const | global => rfl
  | temp x => exact h x (by simpa [Expr.isInvariant] using he)
  | mem a => cases he
  | binop op l r ihl ihr =>
      obtain ⟨hl, hr⟩ := Bool.and_eq_true_iff.mp he
      rw [eval, eval, ihl hl, ihr hr]

end Machine

end Flowgraph

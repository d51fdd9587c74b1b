import Flowgraph.Proofs.InductionVariables
import Flowgraph.Proofs.Unroll.BodyCopies

/-!
# What the lookahead of a guard says

The test that is made before a chain is entered looks as many strides ahead as there are iterations
after the first one.  The variable moves in the direction in which the guard fails, the bound stays,
and one iteration makes at most one stride; so that every iteration of the chain would have passed
the guard.

* `Machine.Exact`: a machine that calculates and compares as the integers do.
* `Guard.Analyzed`, `Guard.analyze_ok`: what is known of a loop that has a guard.
* `Guard.Ahead`, `Ahead.mono`: the guard holds so many strides ahead.
* `Guard.Pending`, `Pending.step`: what is known inside of an iteration.
-/

namespace Flowgraph

open Flowgraph.Graph Machine

/-- The machine calculates and compares as the integers do.  Nothing is said about its other
operators, its global names and the results of its calls. -/
structure Machine.Exact (M : Machine Int) : Prop where
  const_eq : ∀ c, M.const c = c.toInt
  add : ∀ a b, M.op .add a b = a + b
  sub : ∀ a b, M.op .sub a b = a - b
  mul : ∀ a b, M.op .mul a b = a * b
  lt : ∀ a b, M.op .lt a b ≠ 0 ↔ a < b
  leq : ∀ a b, M.op .leq a b ≠ 0 ↔ a ≤ b
  gt : ∀ a b, M.op .gt a b ≠ 0 ↔ b < a
  geq : ∀ a b, M.op .geq a b ≠ 0 ↔ b ≤ a

/-- The machine of integers is one. -/
theorem Machine.exact_integers (result : List (Effect Int) → Nat → Int) :
    (Machine.integers result).Exact := by
  have hcompare (p : Prop) [Decidable p] : (if p then (1 : Int) else 0) ≠ 0 ↔ p := by
    by_cases h : p <;> simp [h]
  exact ⟨fun _ => rfl, fun _ _ => rfl, fun _ _ => rfl, fun _ _ => rfl, fun _ _ => hcompare _,
    fun _ _ => hcompare _, fun _ _ => hcompare _, fun _ _ => hcompare _⟩

theorem Machine.Exact.const_zero {M : Machine Int} (hM : M.Exact) : M.const 0 = 0 := hM.const_eq 0

variable {M : Machine Int} {g : Graph} {body : List NodeId} {header n m : NodeId} {guard : Guard}
  {v : InductionVar} {s : Snapshot Int} {config : UnrollConfig}

/-! ### The guard -/

namespace Guard

/-- What is known of a loop with this guard, whose variable is `v`. -/
structure Analyzed (g : Graph) (header : NodeId) (body : List NodeId) (guard : Guard)
    (v : InductionVar) : Prop where
  kind_header : g.kind? header = some (.branch (.binop guard.op (.temp guard.iv) guard.bound))
  succs_header : g.succs header = [guard.entry, guard.exit]
  entry_mem : guard.entry ∈ body
  entry_ne : guard.entry ≠ header
  exit_not_mem : guard.exit ∉ body
  consistent : isConsistent guard.stride guard.op = true
  invariant : guard.bound.isInvariant (bodyDefs g body) = true
  var_mem : v ∈ inductionVars g body
  name_eq : v.name = guard.iv
  stride_eq : v.stride = guard.stride

/-- A header with a comparison branches on it. -/
theorem comparison?_ok {op : BinOp} {left right : Expr}
    (h : comparison? g header = .ok (op, left, right)) :
    g.kind? header = some (.branch (.binop op left right)) := by
  rw [comparison?] at h
  split at h
  · next hk => cases h; exact hk
  · cases h

/-- The variable that is found is an induction variable, and the operand is its name. -/
theorem inductionVar_ok {left : Expr} (h : inductionVar g body left = .ok v) :
    left = .temp v.name ∧ v ∈ inductionVars g body := by
  rw [inductionVar] at h
  cases left with
  | temp name =>
      split at h
      · next w hw =>
          cases h
          obtain rfl : v.name = name := by simpa using List.find?_some hw
          exact ⟨rfl, List.mem_of_find?_eq_some hw⟩
      · cases h
  | const | global | mem | binop => cases h

/-- A header with ends enters the body first and leaves it second. -/
theorem ends_ok {entry exit : NodeId} (h : ends g header body = .ok (entry, exit)) :
    g.succs header = [entry, exit] ∧ entry ≠ header ∧ entry ∈ body ∧ exit ∉ body := by
  rw [ends] at h
  split at h
  · next hs =>
      split at h
      · cases h
      · next hne =>
          cases h
          obtain ⟨hne, hin⟩ := not_or.mp hne
          obtain ⟨hin, hout⟩ := not_or.mp hin
          exact ⟨hs, hne, not_not.mp hin, hout⟩
  · cases h

theorem bind_eq_ok {ε α β : Type} {e : Except ε α} {f : α → Except ε β} {b : β}
    (h : e >>= f = .ok b) : ∃ a, e = .ok a ∧ f a = .ok b := by
  cases e with
  | error err => cases h
  | ok a => exact ⟨a, rfl, h⟩

/-- A guard has all the parts that are asked for. -/
theorem analyze_ok (h : Guard.analyze g header body config = .ok guard) :
    config.factor ≠ 0 ∧ ∃ v, Analyzed g header body guard v := by
  rw [Guard.analyze] at h
  by_cases hf : config.factor = 0
  · rw [if_pos hf] at h; cases h
  by_cases hsize : config.maxBodySize < body.length
  · rw [if_neg hf, if_pos hsize] at h; cases h
  rw [if_neg hf, if_neg hsize] at h
  obtain ⟨⟨op, left, right⟩, hcomparison, h⟩ := bind_eq_ok h
  obtain ⟨v, hv, h⟩ := bind_eq_ok h
  by_cases hconsistent : isConsistent v.stride op = true
  case neg => rw [if_pos (by simpa using hconsistent)] at h; cases h
  by_cases hinvariant : right.isInvariant (bodyDefs g body) = true
  case neg =>
    rw [if_neg (by simpa using hconsistent), if_pos (by simpa using hinvariant)] at h
    cases h
  rw [if_neg (by simpa using hconsistent), if_neg (by simpa using hinvariant)] at h
  obtain ⟨⟨entry, exit⟩, hends, h⟩ := bind_eq_ok h
  cases h
  obtain ⟨rfl, hmem⟩ := inductionVar_ok hv
  obtain ⟨hsuccs, hne, hin, hout⟩ := ends_ok hends
  exact ⟨hf, v, comparison?_ok hcomparison, hsuccs, hin, hne, hout, hconsistent, hinvariant, hmem,
    rfl, rfl⟩

end Guard

/-! ### The induction variable -/

/-- Where a constant can be negated the negation does not wrap. -/
theorem toInt_checkedNeg? {c d : Int64} (h : checkedNeg? c = some d) : d.toInt = -c.toInt := by
  obtain ⟨hc, rfl⟩ := checkedNeg?_eq_some h
  have hmin : c.toInt ≠ -2 ^ 63 := fun e => hc (Int64.toInt_inj.mp e)
  have hlow := c.le_toInt
  have hhigh := c.toInt_lt
  rw [Int64.toInt_neg]
  exact Int.bmod_eq_of_le (by omega) (by omega)

/-- The value that is assigned is the old one plus the stride. -/
theorem Machine.Exact.eval_selfIncrement (hM : M.Exact) {name : String} {value : Expr}
    {stride : Int64} {kind : UpdateKind} (h : selfIncrement? name value = some (stride, kind)) :
    M.eval s value = s.temps name + stride.toInt := by
  rcases selfIncrement?_cases h with rfl | rfl | ⟨c, hc, rfl⟩
  · rw [eval, eval, eval, hM.add, hM.const_eq]
  · rw [eval, eval, eval, hM.add, hM.const_eq, Int.add_comm]
  · rw [eval, eval, eval, hM.sub, hM.const_eq, toInt_checkedNeg? hc, Int.sub_eq_add_neg]

/-- The assignment makes one stride. -/
theorem Machine.Exact.temps_selfIncrement (hM : M.Exact) {name : String} {value : Expr}
    {stride : Int64} {kind : UpdateKind} (h : selfIncrement? name value = some (stride, kind)) :
    (M.perform s (.stmt (.assign name value))).temps name = s.temps name + stride.toInt := by
  rw [← hM.eval_selfIncrement h]
  exact if_pos rfl

/-! ### Looking ahead -/

namespace Guard

/-- The guard holds for the variable after so many further strides. -/
def Ahead (M : Machine Int) (guard : Guard) (s : Snapshot Int) (k : Int) : Prop :=
  M.op guard.op (s.temps guard.iv + guard.stride.toInt * k) (M.eval s guard.bound) ≠ 0

variable {k k' : Int}

/-- With no stride ahead this is the test of the loop itself. -/
theorem ahead_zero :
    guard.Ahead M s 0 ↔ M.eval s (.binop guard.op (.temp guard.iv) guard.bound) ≠ 0 := by
  rw [Ahead, Int.mul_zero, Int.add_zero, eval, eval]

/-- The test that is built asks whether the variable passes after so many strides. -/
theorem eval_lookahead (hM : M.Exact) {ahead : Int64} :
    M.eval s (guard.lookahead ahead) ≠ 0 ↔ guard.Ahead M s ahead.toInt := by
  rw [lookahead, eval, eval, eval, eval, eval, eval, hM.add, hM.mul, hM.const_eq, hM.const_eq,
    Ahead]

/-- A rising variable is below its bound, and a falling one above it. -/
theorem isConsistent_cases {stride : Int64} {op : BinOp} (hc : isConsistent stride op = true) :
    0 < stride ∧ (op = .lt ∨ op = .leq) ∨ stride < 0 ∧ (op = .gt ∨ op = .geq) := by
  rw [isConsistent, Bool.or_eq_true, Bool.and_eq_true, Bool.and_eq_true, decide_eq_true_eq,
    decide_eq_true_eq] at hc
  refine hc.imp (And.imp_right fun hop => ?_) (And.imp_right fun hop => ?_)
  · cases op with
    | lt => exact .inl rfl
    | leq => exact .inr rfl
    | add | sub | mul | div | mod | and | or | xor | gt | geq | eq | neq => cases hop
  · cases op with
    | gt => exact .inl rfl
    | geq => exact .inr rfl
    | add | sub | mul | div | mod | and | or | xor | lt | leq | eq | neq => cases hop

/-- A guard that holds some strides ahead holds at every stride before. -/
theorem Ahead.mono (hM : M.Exact) (hc : isConsistent guard.stride guard.op = true)
    (h : guard.Ahead M s k) (hk : k' ≤ k) : guard.Ahead M s k' := by
  rw [Ahead] at h ⊢
  rcases isConsistent_cases hc with ⟨hup, hop⟩ | ⟨hdown, hop⟩
  · have hle := Int.mul_le_mul_of_nonneg_left hk (Int.le_of_lt (Int64.lt_iff_toInt_lt.mp hup))
    rcases hop with hop | hop
    · rw [hop, hM.lt] at h ⊢; omega
    · rw [hop, hM.leq] at h ⊢; omega
  · have hle := Int.mul_le_mul_of_nonpos_left (Int.le_of_lt (Int64.lt_iff_toInt_lt.mp hdown)) hk
    rcases hop with hop | hop
    · rw [hop, hM.gt] at h ⊢; omega
    · rw [hop, hM.geq] at h ⊢; omega

/-- No node of the body changes the bound. -/
theorem Analyzed.eval_bound (ha : Analyzed g header body guard v) {kind : Kind} (hn : n ∈ body)
    (hk : g.kind? n = some kind) :
    M.eval (M.perform s kind) guard.bound = M.eval s guard.bound :=
  eval_perform_of_isInvariant ha.invariant hn hk

/-- The update makes one stride. -/
theorem Analyzed.ahead_update (ha : Analyzed g header body guard v) (hM : M.Exact) {kind : Kind}
    (hk : g.kind? v.update = some kind) :
    guard.Ahead M (M.perform s kind) (k - 1) ↔ guard.Ahead M s k := by
  obtain ⟨hmem, ⟨value, hvalue, hself⟩, -⟩ := mem_inductionVars ha.var_mem
  rw [Ahead, Ahead, ha.eval_bound hmem hk]
  obtain rfl := Option.some.inj (hk.symm.trans hvalue)
  have hiv : (M.perform s (.stmt (.assign v.name value))).temps guard.iv =
      s.temps guard.iv + guard.stride.toInt := by
    rw [← ha.name_eq, ← ha.stride_eq]
    exact hM.temps_selfIncrement hself
  have hstride : s.temps guard.iv + guard.stride.toInt + guard.stride.toInt * (k - 1) =
      s.temps guard.iv + guard.stride.toInt * k := by
    rw [Int.mul_sub, Int.mul_one]
    omega
  rw [hiv, hstride]

/-- The other nodes of the body make none. -/
theorem Analyzed.ahead_other (ha : Analyzed g header body guard v) {kind : Kind} (hn : n ∈ body)
    (hne : n ≠ v.update) (hk : g.kind? n = some kind) :
    guard.Ahead M (M.perform s kind) k ↔ guard.Ahead M s k := by
  rw [Ahead, Ahead, ha.eval_bound hn hk, temps_perform fun hd => hne ?_]
  refine (mem_inductionVars ha.var_mem).2.2 n hn ?_
  rwa [ha.name_eq, Graph.defs, hk]

/-! ### Inside of an iteration -/

/-- At a node inside of an iteration after which `k` more are due: the guard will hold so many
strides ahead when the iteration is over.  If the update may still come, it must hold one stride
further ahead now. -/
structure Pending (M : Machine Int) (g : Graph) (body : List NodeId) (header : NodeId)
    (guard : Guard) (update n : NodeId) (s : Snapshot Int) (k : Int) : Prop where
  after : guard.Ahead M s (k - 1)
  before : Relation.ReflTransGen (g.Within body header) n update → guard.Ahead M s k

/-- An iteration begins. -/
theorem Pending.enter (hM : M.Exact) (ha : Analyzed g header body guard v)
    (h : guard.Ahead M s k) : Pending M g body header guard v.update n s k where
  after := h.mono hM ha.consistent (by omega)
  before _ := h

/-- What is pending stays pending from node to node, if the update lies on no cycle inside of an
iteration. -/
theorem Pending.step (hM : M.Exact) (ha : Analyzed g header body guard v)
    (hcycle : ¬Relation.TransGen (g.Within body header) v.update v.update) {kind : Kind}
    (hn : n ∈ body) (hk : g.kind? n = some kind)
    (hp : Pending M g body header guard v.update n s k) :
    guard.Ahead M (M.perform s kind) (k - 1) ∧
      ∀ m, g.Within body header n m →
        Pending M g body header guard v.update m (M.perform s kind) k := by
  by_cases hu : n = v.update
  · -- the stride is made here, and the update does not come again
    subst hu
    have hafter := (ha.ahead_update hM hk).mpr (hp.before .refl)
    exact ⟨hafter, fun m hm => ⟨hafter, fun hlead => absurd (.head' hm hlead) hcycle⟩⟩
  · have hafter := (ha.ahead_other hn hu hk).mpr hp.after
    exact ⟨hafter, fun m hm => ⟨hafter, fun hlead =>
      (ha.ahead_other hn hu hk).mpr (hp.before (.head hm hlead))⟩⟩

end Guard

end Flowgraph

import Flowgraph.Proofs.Built
import Flowgraph.Proofs.Simulation
import Flowgraph.Unroll.Guard
import Mathlib.Logic.Function.Iterate

/-!
# Induction variables along executions

An induction variable is changed by one assignment, the only node of a body to write it.  So along
every execution through the body, whichever edges it takes, the variable makes one stride each time
the update is passed, and an expression that reads nothing that the body writes keeps its value.

* `mem_inductionVars`, `ascending_inductionVars`: what is recorded of a body, and in which order.
* `Machine.Along`, `Machine.along_trail`: executions along edges, and that a run is one.
* `Machine.Along.temps_eq`: an induction variable at the end of an execution through the body.
* `Machine.Along.eval_eq`: an invariant expression there.
* `induction_variables_along_executions`: both on words, with the order of the names.
-/

namespace Flowgraph

open Flowgraph.Graph Machine

/-! ### What is recorded -/

section Recorded

variable {g : Graph} {body : List NodeId} {n : NodeId} {v w : InductionVar}

/-- A node that gives an entry updates its variable, and no other one of the body writes it. -/
theorem inductionVar?_eq_some (h : inductionVar? g body n = some v) :
    v.update = n ∧ writers g body v.name = 1 ∧
      ∃ value, g.kind? n = some (.stmt (.assign v.name value)) ∧
        selfIncrement? v.name value = some (v.stride, v.kind) := by
  rw [inductionVar?] at h
  split at h
  case h_2 => cases h
  case h_1 name value hk =>
    split at h
    case isFalse => cases h
    case isTrue hone =>
      obtain ⟨⟨stride, kind⟩, hself, rfl⟩ := Option.map_eq_some_iff.mp h
      exact ⟨rfl, hone, value, hk, hself⟩

/-- The update writes the variable. -/
theorem contains_defs_of_inductionVar? (h : inductionVar? g body n = some v) :
    (g.defs n).contains v.name = true := by
  obtain ⟨-, -, value, hk, -⟩ := inductionVar?_eq_some h
  rw [Graph.defs, hk]
  exact List.contains_iff_mem.mpr (List.mem_singleton_self v.name)

/-- An induction variable is changed by one assignment, the only node of the body to write it. -/
theorem mem_inductionVars (hv : v ∈ inductionVars g body) :
    v.update ∈ body ∧ (∃ value, g.kind? v.update = some (.stmt (.assign v.name value)) ∧
      selfIncrement? v.name value = some (v.stride, v.kind)) ∧
    ∀ n ∈ body, v.name ∈ g.defs n → n = v.update := by
  rw [inductionVars, List.mem_mergeSort, List.mem_filterMap] at hv
  obtain ⟨n, hn, hv⟩ := hv
  obtain ⟨rfl, hone, hvalue⟩ := inductionVar?_eq_some hv
  refine ⟨hn, hvalue, fun m hm hdef => ?_⟩
  obtain ⟨w, hw⟩ := List.length_eq_one_iff.mp hone
  have hwriter {r} (hr : r ∈ body) (hdef : (g.defs r).contains v.name = true) : r = w := by
    have hmem : r ∈ body.filter fun n => (g.defs n).contains v.name :=
      List.mem_filter.mpr ⟨hr, hdef⟩
    rw [hw] at hmem
    exact List.mem_singleton.mp hmem
  exact (hwriter hm (List.contains_iff_mem.mpr hdef)).trans
    (hwriter hn (contains_defs_of_inductionVar? hv)).symm

/-- Two nodes of a body, one after the other, do not give entries for one name: each of them would
be a writer. -/
theorem pairwise_inductionVar? :
    (body.filterMap (inductionVar? g body)).Pairwise fun v w => v.name ≠ w.name := by
  rw [List.pairwise_filterMap, List.pairwise_iff_forall_sublist]
  intro a b hab v hv w hw hname
  have hboth : ∀ r ∈ [a, b], (g.defs r).contains v.name = true :=
    List.forall_mem_cons.mpr ⟨contains_defs_of_inductionVar? hv,
      List.forall_mem_singleton.mpr (hname ▸ contains_defs_of_inductionVar? hw)⟩
  have htwo : 2 ≤ writers g body v.name := by
    have hle := (hab.filter fun r => (g.defs r).contains v.name).length_le
    rwa [List.filter_eq_self.mpr hboth] at hle
  rw [(inductionVar?_eq_some hv).2.1] at htwo
  exact absurd htwo (by decide)

/-- The entries are in strictly ascending order of their names. -/
theorem ascending_inductionVars (g : Graph) (body : List NodeId) :
    (inductionVars g body).Pairwise fun v w => v.name < w.name := by
  have hsorted : (inductionVars g body).Pairwise fun v w => v.name ≤ w.name := by
    refine (List.pairwise_mergeSort (fun a b c hab hbc => ?_) (fun a b => ?_) _).imp
      fun h => of_decide_eq_true h
    · exact decide_eq_true (Std.le_trans (of_decide_eq_true hab) (of_decide_eq_true hbc))
    · rw [Bool.or_eq_true, decide_eq_true_eq, decide_eq_true_eq]
      exact Std.le_total
  have hdistinct : (inductionVars g body).Pairwise fun v w => v.name ≠ w.name :=
    pairwise_inductionVar?.perm (List.mergeSort_perm _ _).symm fun h => h.symm
  exact hsorted.imp₂ (fun _ _ hle hne => Std.lt_of_le_of_ne hle hne) hdistinct

/-- A body has one induction variable of a name. -/
theorem eq_of_name_eq (hv : v ∈ inductionVars g body) (hw : w ∈ inductionVars g body)
    (hname : v.name = w.name) : v = w := by
  have hnodup : ((inductionVars g body).map InductionVar.name).Nodup :=
    List.pairwise_map.mpr ((ascending_inductionVars g body).imp Std.ne_of_lt)
  exact List.inj_on_of_nodup_map hnodup hv hw hname

end Recorded

/-! ### Strides -/

/-- A constant that can be negated is not the least one. -/
theorem checkedNeg?_eq_some {c d : Int64} (h : checkedNeg? c = some d) :
    c ≠ Int64.minValue ∧ d = -c := by
  rw [checkedNeg?] at h
  split at h
  case isTrue => cases h
  case isFalse hc => exact ⟨hc, (Option.some.inj h).symm⟩

/-- The three ways to write a stride. -/
theorem selfIncrement?_cases {name : String} {value : Expr} {stride : Int64} {kind : UpdateKind}
    (h : selfIncrement? name value = some (stride, kind)) :
    value = .binop .add (.temp name) (.const stride) ∨
      value = .binop .add (.const stride) (.temp name) ∨
      ∃ c, checkedNeg? c = some stride ∧ value = .binop .sub (.temp name) (.const c) := by
  unfold selfIncrement? at h
  split at h
  case h_1 =>
    split at h
    case isFalse => cases h
    case isTrue ht => cases h; exact .inl (by rw [ht])
  case h_2 =>
    split at h
    case isFalse => cases h
    case isTrue ht => cases h; exact .inr (.inl (by rw [ht]))
  case h_3 =>
    split at h
    case isFalse => cases h
    case isTrue ht =>
      obtain ⟨c, hc, h⟩ := Option.map_eq_some_iff.mp h
      cases h
      exact .inr (.inr ⟨_, hc, by rw [ht]⟩)
  case h_4 => cases h

/-! ### Executions along edges -/

variable {V : Type} {M : Machine V} {g : Graph} {body ns : List NodeId} {n : NodeId} {kind : Kind}
  {v : InductionVar} {e : Expr} {next : V → V} {s : Snapshot V} {c c' : Config V}

/-- What is assigned to an induction variable is what `next` makes of its value. -/
def Machine.Updates (M : Machine V) (v : InductionVar) (next : V → V) : Prop :=
  ∀ value s, selfIncrement? v.name value = some (v.stride, v.kind) →
    M.eval s value = next (s.temps v.name)

variable [DecidableEq V]

namespace Machine

/-- An execution through the nodes of a list: each is performed and then left along one of its
edges, be it the one that its condition asks for or not. -/
inductive Along (M : Machine V) (g : Graph) : List NodeId → Config V → Config V → Prop
  | nil (c : Config V) : Along M g [] c c
  | cons {ns n m kind s c} (hk : g.kind? n = some kind) (hs : m ∈ g.succs n)
      (h : Along M g ns ⟨m, M.perform s kind⟩ c) : Along M g (n :: ns) ⟨n, s⟩ c

/-- The nodes that a run leaves in so many steps. -/
def trail (M : Machine V) (g : Graph) : Nat → Config V → List NodeId
  | 0, _ => []
  | k + 1, c =>
      match M.step g c with
      | none => []
      | some c' => c.node :: trail M g k c'

/-- A step adds the node that it leaves to the front of the trail. -/
theorem trail_of_step (h : M.step g c = some c') (k : Nat) :
    M.trail g (k + 1) c = c.node :: M.trail g k c' := by
  rw [trail, h]

theorem trail_of_stop (h : M.step g c = none) (k : Nat) : M.trail g k c = [] := by
  cases k with
  | zero => rfl
  | succ k => rw [trail, h]

/-- A run is an execution through the nodes that it leaves. -/
theorem along_trail (k : Nat) (c : Config V) : M.Along g (M.trail g k c) c (M.run g k c) := by
  induction k generalizing c with
  | zero => exact .nil c
  | succ k ih =>
      cases hstep : M.step g c with
      | none =>
          rw [trail_of_stop hstep, run_of_stop hstep]
          exact .nil c
      | some c' =>
          rw [trail_of_step hstep, run_of_step hstep]
          obtain ⟨kind, hk, hs, hstate⟩ := of_step hstep
          refine .cons hk hs ?_
          rw [← hstate]
          exact ih c'

/-- Every node on the trail was left at some point of the run. -/
theorem exists_of_mem_trail {k : Nat} (hn : n ∈ M.trail g k c) :
    ∃ i < k, (M.run g i c).node = n := by
  induction k generalizing c with
  | zero => cases hn
  | succ k ih =>
      cases hstep : M.step g c with
      | none => rw [trail_of_stop hstep] at hn; cases hn
      | some c' =>
          rw [trail_of_step hstep, List.mem_cons] at hn
          rcases hn with rfl | hn
          · exact ⟨0, Nat.succ_pos k, rfl⟩
          · obtain ⟨i, hi, hnode⟩ := ih hn
            exact ⟨i + 1, Nat.succ_lt_succ hi, by rwa [run_of_step hstep]⟩

/-- A run leaves a node that always goes on as often as it comes to it. -/
theorem count_trail (hn : ∀ s, M.step g ⟨n, s⟩ ≠ none) (k : Nat) (c : Config V) :
    (M.trail g k c).count n = M.visits g n k c := by
  induction k generalizing c with
  | zero => rfl
  | succ k ih =>
      cases hstep : M.step g c with
      | none =>
          have hne : c.node ≠ n := fun e => hn c.state (e ▸ hstep)
          rw [trail_of_stop hstep, visits_of_stop hstep hne, List.count_nil]
      | some c' =>
          rw [trail_of_step hstep, visits_of_step hstep, List.count_cons, ih]
          simp only [beq_iff_eq]

end Machine

/-! ### Through a body -/

/-- A node of the body changes an induction variable if it is its update, and only then. -/
theorem temps_perform_inductionVar (hM : M.Updates v next) (hv : v ∈ inductionVars g body)
    (hn : n ∈ body) (hk : g.kind? n = some kind) :
    (M.perform s kind).temps v.name =
      if n = v.update then next (s.temps v.name) else s.temps v.name := by
  obtain ⟨-, ⟨value, hvalue, hself⟩, honly⟩ := mem_inductionVars hv
  split
  case isTrue hu =>
    obtain rfl := Option.some.inj (hk.symm.trans (hu ▸ hvalue))
    exact (if_pos rfl).trans (hM _ _ hself)
  case isFalse hu =>
    refine temps_perform fun hdef => hu (honly n hn ?_)
    rwa [Graph.defs, hk]

/-- A node of the body leaves the value of an invariant expression alone. -/
theorem eval_perform_of_isInvariant (he : e.isInvariant (Guard.bodyDefs g body) = true)
    (hn : n ∈ body) (hk : g.kind? n = some kind) : M.eval (M.perform s kind) e = M.eval s e := by
  refine eval_of_isInvariant he fun x hx => temps_perform fun hdef => hx ?_
  refine Ascending.mem_unions.mpr ⟨g.defs n, List.mem_map.mpr ⟨n, hn, rfl⟩, ?_⟩
  rwa [Graph.defs, hk]

namespace Machine.Along

/-- At the end of an execution through the body, an induction variable has been updated once for
each pass of its update. -/
theorem temps_eq (h : M.Along g ns c c') (hns : ∀ n ∈ ns, n ∈ body) (hM : M.Updates v next)
    (hv : v ∈ inductionVars g body) :
    c'.state.temps v.name = next^[ns.count v.update] (c.state.temps v.name) := by
  induction h with
  | nil => rfl
  | @cons ns n m kind s c hk hs _ ih =>
      obtain ⟨hn, hns⟩ := List.forall_mem_cons.mp hns
      rw [ih hns, temps_perform_inductionVar hM hv hn hk, List.count_cons]
      by_cases hu : n = v.update
      · rw [if_pos hu, if_pos (beq_iff_eq.mpr hu), Function.iterate_succ_apply]
      · rw [if_neg hu, if_neg (mt beq_iff_eq.mp hu), Nat.add_zero]

/-- At the end of an execution through the body, an invariant expression has the value that it had
at the beginning. -/
theorem eval_eq (h : M.Along g ns c c') (hns : ∀ n ∈ ns, n ∈ body)
    (he : e.isInvariant (Guard.bodyDefs g body) = true) :
    M.eval c'.state e = M.eval c.state e := by
  induction h with
  | nil => rfl
  | cons hk hs _ ih =>
      obtain ⟨hn, hns⟩ := List.forall_mem_cons.mp hns
      exact (ih hns).trans (eval_perform_of_isInvariant he hn hk)

end Machine.Along

/-! ### On words -/

/-- The machine adds and subtracts words, so that both wrap around.  Nothing is said about its other
operators, its global names and the results of its calls. -/
structure Machine.Wraps (M : Machine Int64) : Prop where
  const_eq : ∀ c, M.const c = c
  add : ∀ a b, M.op .add a b = a + b
  sub : ∀ a b, M.op .sub a b = a - b

/-- The machine of words is one. -/
theorem Machine.wraps_words (result : List (Effect Int64) → Nat → Int64) :
    (Machine.words result).Wraps :=
  ⟨fun _ => rfl, fun _ _ => rfl, fun _ _ => rfl⟩

/-- An update makes one stride. -/
theorem Machine.Wraps.updates {M : Machine Int64} (hM : M.Wraps) (v : InductionVar) :
    M.Updates v (· + v.stride) := by
  intro value s h
  rcases selfIncrement?_cases h with rfl | rfl | ⟨c, hc, rfl⟩
  · rw [eval, eval, eval, hM.add, hM.const_eq]
  · rw [eval, eval, eval, hM.add, hM.const_eq, Int64.add_comm]
  · rw [eval, eval, eval, hM.sub, hM.const_eq, (checkedNeg?_eq_some hc).2, Int64.sub_eq_add_neg]

/-- So many strides are one addition of their product, on words as well. -/
theorem iterate_stride (x stride : Int64) (k : Nat) :
    (· + stride)^[k] x = x + stride * .ofNat k := by
  induction k with
  | zero => exact (congrArg (x + ·) Int64.mul_zero).trans (Int64.add_zero x) |>.symm
  | succ k ih =>
      have hone : stride * .ofNat 1 = stride := Int64.mul_one stride
      rw [Function.iterate_succ_apply', ih, Int64.ofNat_add, Int64.mul_add, hone, Int64.add_assoc]

/-- The induction variables of a body are recorded in strictly ascending order of their names.
Along every execution through nodes of the body, on words, each of them makes one stride for each
pass of its update, and an expression that is invariant in the body has the same value before and
after, whatever memory has been written. -/
theorem induction_variables_along_executions {M : Machine Int64} (hM : M.Wraps) (g : Graph)
    (body : List NodeId) :
    (inductionVars g body).Pairwise (fun v w => v.name < w.name) ∧
    ∀ ns c c', M.Along g ns c c' → (∀ n ∈ ns, n ∈ body) →
      (∀ v ∈ inductionVars g body, c'.state.temps v.name =
        c.state.temps v.name + v.stride * .ofNat (ns.count v.update)) ∧
      ∀ e : Expr, e.isInvariant (Guard.bodyDefs g body) = true →
        M.eval c'.state e = M.eval c.state e := by
  refine ⟨ascending_inductionVars g body, fun ns c c' h hns => ⟨fun v hv => ?_, fun e he => ?_⟩⟩
  · rw [h.temps_eq hns (hM.updates v) hv, iterate_stride]
  · exact h.eval_eq hns he

/-- While `i` is above `n`, `j` is stored at the address `i`, which counts down while `j` counts up
in steps of three. -/
def fillDownward : Graph :=
  after (Edit.addStart 5) (after (Edit.substituteStub 1 5)
    (after (Edit.addBranch (.binop .gt (.temp "i") (.temp "n")) 4 0)
      (after (Edit.addStore (.mem (.temp "i")) (.temp "j") 3)
        (after (Edit.addAssign "i" (.binop .sub (.temp "i") (.const 1)) 2)
          (after (Edit.addAssign "j" (.binop .add (.const 3) (.temp "j")) 1)
            (after Edit.addStub (after Edit.addReturn .empty)))))))

theorem built_fillDownward : Built fillDownward :=
  .tail (.tail (.tail (.tail (.tail (.tail (.tail (.single (.addReturn _)) (.addStub _))
    (.addAssign _ _ _ _)) (.addAssign _ _ _ _)) (.addStore _ _ _ _)) (.addBranch _ _ _ _))
    (.substituteStub _ _ _)) (.addStart _ _)

/-- `i` is two and `j` is the greatest word; everything else is zero. -/
def greatestInTwo : Snapshot Int64 :=
  ⟨fun x => if x = "i" then 2 else if x = "j" then Int64.maxValue else 0, fun _ => 0, []⟩

/-- Two trips around the loop: `j` wraps around, and the bound stays while memory is written. -/
theorem induction_variables_along_fillDownward :
    Built fillDownward ∧ (words fun _ _ => 0).Wraps ∧
      ∃ c', (words fun _ _ => 0).Along fillDownward [5, 4, 3, 2, 5, 4, 3, 2] ⟨5, greatestInTwo⟩ c' ∧
        c'.state.memory 2 = Int64.maxValue ∧ c'.state.temps "i" = 0 ∧
        c'.state.temps "j" = Int64.minValue + 5 ∧
        (words fun _ _ => 0).eval c'.state (.binop .add (.temp "n") (.const 1)) = 1 := by
  have hM := wraps_words fun _ _ => 0
  have halong := along_trail (M := words fun _ _ => 0) (g := fillDownward) 8 ⟨5, greatestInTwo⟩
  have htrail : (words fun _ _ => 0).trail fillDownward 8 ⟨5, greatestInTwo⟩ =
      [5, 4, 3, 2, 5, 4, 3, 2] := by decide +kernel
  rw [htrail] at halong
  obtain ⟨-, hall⟩ := induction_variables_along_executions hM fillDownward [2, 3, 4, 5]
  obtain ⟨hvars, hinvariant⟩ := hall _ _ _ halong (by decide)
  have hi : ⟨"i", -1, 3, .sub⟩ ∈ inductionVars fillDownward [2, 3, 4, 5] :=
    List.mem_mergeSort.mpr (by decide +kernel)
  have hj : ⟨"j", 3, 2, .add⟩ ∈ inductionVars fillDownward [2, 3, 4, 5] :=
    List.mem_mergeSort.mpr (by decide +kernel)
  exact ⟨built_fillDownward, hM, _, halong, by decide +kernel, (hvars _ hi).trans (by decide),
    (hvars _ hj).trans (by decide), (hinvariant _ (by decide +kernel)).trans (by decide)⟩

end Flowgraph

import Flowgraph.Proofs.PathLiveness
import Flowgraph.Proofs.Simulation

/-!
# Agreement on what is live

Two states that agree on what a node reads, and on what is wanted after it and not written by it,
cannot be told apart by performing the node, and agree afterwards on all that is wanted.  Nor does
it matter what happened before, as long as no call can look back on it: what a node does is said for
a run that has only begun, and carried to any other.  So runs from states that agree on what is live
before a node do the same for ever.

* `Machine.SamePast`: the same memory, and pasts that no call can tell apart.
* `Machine.perform_following`: performing a node after a past.
* `PerformAlike`, `performAlike`: a node does the same in two states.
* `defs_and_uses_sound`: this, with what a node leaves alone, and the transfer of liveness.
* `runs_agree_on_live`: runs from states that agree on what is live.
-/

namespace Flowgraph

open Flowgraph.Graph Machine

variable {V : Type}

/-! ### Pasts -/

/-- The effect is a call and not a write. -/
def Effect.isCall : Effect V → Bool
  | .call _ _ => true
  | .write _ _ => false

namespace Machine

/-- The states have the same memory, and no call can tell in which of them it is made by the effects
before it. -/
structure SamePast (M : Machine V) (s t : Snapshot V) : Prop where
  memory : s.memory = t.memory
  result : ∀ effects, M.result (s.trace ++ effects) = M.result (t.trace ++ effects)

/-- If results depend on nothing but the calls so far, the same calls make the same past. -/
theorem SamePast.of_calls {M : Machine V} {s t : Snapshot V}
    (hM : ∀ effects, M.result effects = M.result (effects.filter Effect.isCall))
    (hmemory : s.memory = t.memory)
    (hcalls : s.trace.filter Effect.isCall = t.trace.filter Effect.isCall) : M.SamePast s t where
  memory := hmemory
  result effects := by
    rw [hM, hM (t.trace ++ effects), List.filter_append, List.filter_append, hcalls]

/-- The machine whose calls look back on some effects before those that they are given. -/
def following (M : Machine V) (past : List (Effect V)) : Machine V :=
  { M with result := fun effects => M.result (past ++ effects) }

/-- Machines that look back on such pasts are the same. -/
theorem SamePast.following_eq {M : Machine V} {s t : Snapshot V} (h : M.SamePast s t) :
    M.following s.trace = M.following t.trace := by
  rw [following, following, funext h.result]

end Machine

namespace Snapshot

variable {past : List (Effect V)} {s : Snapshot V}

/-- The state with some effects before those that it has. -/
def following (s : Snapshot V) (past : List (Effect V)) : Snapshot V :=
  { s with trace := past ++ s.trace }

/-- The state as if nothing had happened yet. -/
def begun (s : Snapshot V) : Snapshot V := { s with trace := [] }

/-- A state is what its run had begun with, behind its own past. -/
theorem begun_following (s : Snapshot V) : s.begun.following s.trace = s := by
  rw [begun, following, List.append_nil]

theorem assignAll_following (values : Nat → V) (names : List String) :
    (s.following past).assignAll values names = (s.assignAll values names).following past := by
  unfold assignAll
  generalize 0 = i
  induction names generalizing s i with
  | nil => rfl
  | cons x names ih => exact ih (s := s.assign x (values i)) (i + 1)

theorem write_following [DecidableEq V] (address value : V) :
    (s.following past).write address value = (s.write address value).following past := by
  rw [write, write, following, following, List.append_assoc]

theorem call_following (target : V) (args : List V) :
    (s.following past).call target args = (s.call target args).following past := by
  rw [call, call, following, following, List.append_assoc]

end Snapshot

namespace Machine

variable {M : Machine V} {past : List (Effect V)} {s : Snapshot V}

/-- The value of an expression does not depend on the past. -/
theorem eval_following (e : Expr) :
    M.eval (s.following past) e = (M.following past).eval s e := by
  induction e with
  | const | temp | global => rfl
  | mem a ih => exact congrArg s.memory ih
  | binop op l r ihl ihr => exact congrArg₂ (M.op op) ihl ihr

variable [DecidableEq V]

/-- A statement after a past does what it does when calls look back on that past. -/
theorem exec_following (st : Stmt) :
    M.exec (s.following past) st = ((M.following past).exec s st).following past := by
  cases st with
  | assign x e => rw [exec, exec, eval_following]; rfl
  | store target e =>
      cases target with
      | temp x => rw [exec, exec, eval_following]; rfl
      | const | global | mem | binop =>
          simp only [exec, eval_following, Snapshot.write_following]
  | call c =>
      have hargs :
          c.args.map (M.eval (s.following past)) = c.args.map ((M.following past).eval s) :=
        List.map_congr_left fun e _ => eval_following e
      simp only [exec, eval_following, hargs, Snapshot.call_following, Snapshot.assignAll_following]
      rfl

/-- A node does after a past what it does when the run has only begun. -/
theorem perform_following (k : Kind) :
    M.perform (s.following past) k = ((M.following past).perform s k).following past := by
  cases k with
  | stmt st => exact exec_following st
  | block sts =>
      rw [perform, perform]
      induction sts generalizing s with
      | nil => rfl
      | cons st sts ih => rw [List.foldl_cons, List.foldl_cons, exec_following, ih]
  | start | branch | ret | selfLoop | stub => rfl

/-- A branch is taken without looking at the past. -/
theorem slot_following (k : Kind) : M.slot (s.following past) k = (M.following past).slot s k := by
  cases k with
  | branch cond => rw [slot, slot, eval_following]; rfl
  | start | stmt | ret | selfLoop | block | stub => rfl

/-- A node does in any state what it does when the run has only begun, after the past. -/
theorem perform_eq_begun (s : Snapshot V) (k : Kind) :
    M.perform s k = ((M.following s.trace).perform s.begun k).following s.trace := by
  rw [← perform_following, s.begun_following]

theorem slot_eq_begun (s : Snapshot V) (k : Kind) :
    M.slot s k = (M.following s.trace).slot s.begun k := by
  rw [← slot_following, s.begun_following]

end Machine

/-! ### One node in two states -/

variable [DecidableEq V] {M : Machine V} {g : Graph} {k : Kind} {L : String → Prop}
  {s t : Snapshot V}

/-- The node has the same effects in both states, leaves by the same edge, and leaves the same
memory and the same values of some temporaries. -/
structure PerformAlike (M : Machine V) (k : Kind) (L : String → Prop) (s t : Snapshot V) :
    Prop where
  effects : ∃ effects, (M.perform s k).trace = s.trace ++ effects ∧
    (M.perform t k).trace = t.trace ++ effects
  memory : (M.perform s k).memory = (M.perform t k).memory
  slot : M.slot s k = M.slot t k
  temps : ∀ x, L x → (M.perform s k).temps x = (M.perform t k).temps x

/-- The node does the same in two states that agree on what it uses, and on what is wanted and it
does not define. -/
theorem performAlike (h : M.SamePast s t)
    (htemps : ∀ x, x ∈ k.uses ∨ L x ∧ x ∉ k.defs → s.temps x = t.temps x) :
    PerformAlike M k L s t := by
  -- as if both runs had only begun: they look back on one past, and the states agree
  have hbegun : Agrees (fun x => x ∈ k.uses ∨ L x ∧ x ∉ k.defs) s.begun t.begun :=
    ⟨rfl, h.memory, fun hx => htemps _ hx⟩
  obtain ⟨hag, hslot⟩ := agrees_perform (M := M.following s.trace) hbegun fun _ hx => .inl hx
  have hs := perform_eq_begun (M := M) s k
  have ht := perform_eq_begun (M := M) t k
  rw [← h.following_eq] at ht
  refine ⟨⟨_, congrArg Snapshot.trace hs, ?_⟩, ?_, ?_, fun x hx => ?_⟩
  · exact (congrArg Snapshot.trace ht).trans (congrArg (t.trace ++ ·) hag.trace.symm)
  · exact (congrArg Snapshot.memory hs).trans (hag.memory.trans (congrArg Snapshot.memory ht).symm)
  · rw [slot_eq_begun s, slot_eq_begun t, ← h.following_eq, hslot]
  · rw [hs, ht]
    by_cases hd : x ∈ k.defs
    · exact hag.temps (.inl hd)
    · exact hag.temps (.inr (.inr ⟨hx, hd⟩))

/-- Nodes that do the same leave pasts that still cannot be told apart. -/
theorem PerformAlike.samePast (ha : PerformAlike M k L s t) (h : M.SamePast s t) :
    M.SamePast (M.perform s k) (M.perform t k) where
  memory := ha.memory
  result effects := by
    obtain ⟨made, hs, ht⟩ := ha.effects
    rw [hs, ht, List.append_assoc, List.append_assoc]
    exact h.result (made ++ effects)

/-! ### The transfer of liveness -/

/-- Take two states with the same memory and with pasts that no call can tell apart.  If they agree
on what a node uses, and on what it does not define of any set of temporaries, then the node has the
same effects in both, leaves by the same edge and leaves states that agree on the set.  In each of
them it leaves every temporary alone that it does not define.  So the transfer of liveness is sound,
for every set of live temporaries: agreement on what is transferred gives agreement on the set after
the node. -/
theorem defs_and_uses_sound (M : Machine V) {s t : Snapshot V} (h : M.SamePast s t) :
    (∀ (k : Kind) (L : String → Prop),
      (∀ x, x ∈ k.uses ∨ L x ∧ x ∉ k.defs → s.temps x = t.temps x) → PerformAlike M k L s t) ∧
    (∀ (k : Kind) x, x ∉ k.defs →
      (M.perform s k).temps x = s.temps x ∧ (M.perform t k).temps x = t.temps x) ∧
    ∀ (g : Graph) n k (out : VarSet), g.kind? n = some k → out.Fits (Variables.ofGraph g).count →
      (∀ x, ((Variables.ofGraph g).transfer n out).Has (Variables.ofGraph g).names x →
        s.temps x = t.temps x) →
      PerformAlike M k (out.Has (Variables.ofGraph g).names) s t := by
  refine ⟨fun k L => performAlike h, fun k x hx => ⟨temps_perform hx, temps_perform hx⟩,
    fun g n k out hk hout htemps => performAlike h fun x hx => htemps x ?_⟩
  have hn : n < g.bound := lt_bound_of_isLive (isLive_iff_kind?.mpr ⟨k, hk⟩)
  rw [Variables.has_transfer hn hout, Graph.uses, Graph.defs, hk]
  exact hx

/-- A block that writes `a` before it reads it, stores to a bare temporary and to an address, and
receives two results in one temporary. -/
def mixedBlock : Graph :=
  after (Edit.addBlock [.stmt (.assign "a" (.binop .add (.temp "b") (.const 1))),
      .stmt (.store (.temp "c") (.binop .mul (.temp "a") (.temp "d"))),
      .stmt (.store (.mem (.temp "p")) (.temp "a")),
      .stmt (.call ⟨.global "f", [.temp "c"], ["x", "x"]⟩)] 0)
    (after Edit.addReturn .empty)

/-- The set of `a` and `c`. -/
def writtenFirst : VarSet := ⟨Variables.numbers (Variables.ofGraph mixedBlock).names ["a", "c"]⟩

/-- The results of a call are the number of calls so far. -/
def countingCalls : Machine Int :=
  .integers fun effects _ => (effects.filter Effect.isCall).length

/-- Only `a` is not zero. -/
def onlyA (a : Int) (past : List (Effect Int)) : Snapshot Int :=
  ⟨fun x => if x = "a" then a else 0, fun _ => 0, past⟩

theorem samePast_onlyA (a a' : Int) :
    countingCalls.SamePast (onlyA a [.write 0 0]) (onlyA a' []) :=
  .of_calls (fun effects => by simp [countingCalls, Machine.integers]) rfl rfl

/-- The block writes `a` before it reads it, so that it does the same in two states that differ in
`a`, after pasts of which one has a write more; and they agree on `a` when it is done. -/
theorem defs_and_uses_mixedBlock :
    countingCalls.SamePast (onlyA 1 [.write 0 0]) (onlyA 2 []) ∧
      ∃ k, mixedBlock.kind? 1 = some k ∧
        PerformAlike countingCalls k (fun x => x = "a" ∨ x = "x" ∨ x = "z")
          (onlyA 1 [.write 0 0]) (onlyA 2 []) ∧
        PerformAlike countingCalls k (writtenFirst.Has (Variables.ofGraph mixedBlock).names)
          (onlyA 1 [.write 0 0]) (onlyA 2 []) := by
  have hpast := samePast_onlyA 1 2
  have hlive : mixedBlock.isLive 1 = true := by decide +kernel
  obtain ⟨k, hk⟩ := isLive_iff_kind?.mp hlive
  obtain ⟨hsets, -, htransfer⟩ := defs_and_uses_sound countingCalls hpast
  have hagree (x : String) (hx : x ∈ mixedBlock.uses 1 ∨ x ∉ mixedBlock.defs 1) :
      (onlyA 1 [.write 0 0]).temps x = (onlyA 2 []).temps x := by
    have hne : x ≠ "a" := by
      rintro rfl
      revert hx
      decide +kernel
    exact (if_neg hne).trans (if_neg hne).symm
  have hfits : writtenFirst.Fits (Variables.ofGraph mixedBlock).count := Variables.fits_numbers _ _
  refine ⟨hpast, k, hk, hsets k _ fun x hx => hagree x ?_,
    htransfer mixedBlock 1 k _ hk hfits fun x hx => hagree x ?_⟩
  · rw [Graph.uses, Graph.defs, hk]
    exact hx.imp_right And.right
  · rw [Variables.has_transfer (lt_bound_of_isLive hlive) hfits] at hx
    exact hx.imp_right And.right

/-! ### Runs -/

section Runs

variable {l : Liveness} {start : NodeId} {a b : Config V}

/-- Both are at one node, in states that have the same past and agree on what is live before it. -/
structure Alongside (M : Machine V) (l : Liveness) (a b : Config V) : Prop where
  node : a.node = b.node
  past : M.SamePast a.state b.state
  temps : ∀ x, l.isLiveBefore a.node x = true → a.state.temps x = b.state.temps x

/-- Both stop, or they step to one node with the same effects and stay alongside. -/
theorem Alongside.step (h : Alongside M l a b) (hg : g.Linked) (hl : l.Equations g)
    (hr : a.node ∈ g.reachable) :
    M.step g a = none ∧ M.step g b = none ∨
      ∃ a' b' effects, M.step g a = some a' ∧ M.step g b = some b' ∧ a'.node ∈ g.succs a.node ∧
        Alongside M l a' b' ∧ a'.state.trace = a.state.trace ++ effects ∧
        b'.state.trace = b.state.trace ++ effects := by
  obtain ⟨k, hk⟩ := isLive_iff_kind?.mp (isLive_of_mem_reachable hr)
  have hk' : g.kind? b.node = some k := h.node ▸ hk
  by_cases hd : k.degree = 0
  · exact .inl ⟨step_of_degree_eq_zero hk hd, step_of_degree_eq_zero hk' hd⟩
  · have halike : PerformAlike M k (fun x => l.isLiveAfter a.node x = true) a.state b.state := by
      refine performAlike h.past fun x hx => h.temps x ((hl.before hr).mpr ?_)
      rw [Graph.uses, Graph.defs, hk]
      exact hx
    obtain ⟨m, hm, hstep⟩ := exists_step (M := M) (c := a) hg hk hd
    have hstep' : M.step g b = some ⟨m, M.perform b.state k⟩ := by
      rw [step_eq hk' hd, ← h.node, ← halike.slot, hm]
      rfl
    have hsucc := List.mem_of_getElem? hm
    obtain ⟨effects, hs, ht⟩ := halike.effects
    exact .inr ⟨_, _, effects, hstep, hstep', hsucc, ⟨rfl, halike.samePast h.past,
      fun x hx => halike.temps x (hl.after_of_succ hr hsucc hx)⟩, hs, ht⟩

/-- Runs of a built graph from states that agree on what is live before a node, that the start leads
to, stay together for ever: they come to the same nodes, have the same effects and the same memory,
and agree on what is live, which at an exit are the return temporaries. -/
theorem runs_agree_on_live (hg : Built g) (hs : g.start = some start) :
    ∃ l, Liveness.compute g = .ok l ∧ ∀ a b : Config V, g.Reaches start a.node →
      Alongside M l a b → ∀ j, Alongside M l (M.run g j a) (M.run g j b) ∧
        ∃ effects, (M.run g j a).state.trace = a.state.trace ++ effects ∧
          (M.run g j b).state.trace = b.state.trace ++ effects := by
  have hw := hg.wellFormed
  obtain ⟨l, hl, heq, -⟩ := Liveness.exists_compute_eq hw hs
  refine ⟨l, hl, fun a b hr h j => ?_⟩
  rw [← hw.mem_reachable hs] at hr
  induction j generalizing a b with
  | zero => exact ⟨h, [], (List.append_nil _).symm, (List.append_nil _).symm⟩
  | succ j ih =>
      rcases h.step hw.toLinked heq hr with ⟨ha, hb⟩ |
        ⟨a', b', first, ha, hb, hsucc, h', hfirst, hfirst'⟩
      · rw [run_of_stop ha, run_of_stop hb]
        exact ⟨h, [], (List.append_nil _).symm, (List.append_nil _).symm⟩
      · obtain ⟨hrest, rest, htrace, htrace'⟩ := ih a' b' (hw.mem_reachable_of_succ hs hr hsucc) h'
        rw [run_of_step ha, run_of_step hb]
        refine ⟨hrest, first ++ rest, ?_, ?_⟩
        · rw [htrace, hfirst, List.append_assoc]
        · rw [htrace', hfirst', List.append_assoc]

end Runs

end Flowgraph

import Flowgraph.Proofs.Linked
import Flowgraph.Proofs.Semantics

/-!
# Simulations between graphs

Two graphs look the same from outside if their runs can be kept in step: either both make a step, or
one makes a step alone, which cannot go on for ever because some rank falls.

* `Machine.visits`: how often a run comes to a node.
* `Progress`, `Progress.lockstep`: what two configurations that are in step can do.
* `Simulation`: a relation between configurations that runs keep.
* `Simulation.forward`, `Simulation.finish`: following a run, and following it to its end.
* `Simulation.alike`: graphs with a simulation that relates their starts.
-/

namespace Flowgraph

namespace Machine

variable {V : Type} [DecidableEq V] {M : Machine V} {g : Graph} {c c' : Config V}

theorem run_of_step (h : M.step g c = some c') (k : Nat) : M.run g (k + 1) c = M.run g k c' := by
  rw [run, h]

theorem run_of_stop (h : M.step g c = none) (k : Nat) : M.run g k c = c := by
  cases k with
  | zero => rfl
  | succ k => rw [run, h]

/-- A run can be cut in two. -/
theorem run_add (j k : Nat) : M.run g (j + k) c = M.run g k (M.run g j c) := by
  induction j generalizing c with
  | zero => rw [Nat.zero_add]; rfl
  | succ j ih =>
      cases hc : M.step g c with
      | none => rw [run_of_stop hc, run_of_stop hc, run_of_stop hc]
      | some c' => rw [Nat.succ_add, run_of_step hc, run_of_step hc, ih]

/-- Runs end at a return. -/
theorem step_of_ret (h : g.kind? c.node = some .ret) : M.step g c = none := by
  rw [step, h]

/-- A node without successors stops. -/
theorem step_of_degree_eq_zero {k : Kind} (hk : g.kind? c.node = some k) (hd : k.degree = 0) :
    M.step g c = none := by
  rw [step, hk]
  cases k with
  | ret | stub => rfl
  | start | stmt | branch | selfLoop | block => cases hd

/-- A node leaves by an edge that its kind has. -/
theorem slot_lt_degree {k : Kind} (s : Snapshot V) (hd : k.degree ≠ 0) :
    M.slot s k < k.degree := by
  cases k with
  | branch cond =>
      rw [slot]
      split
      · exact Nat.one_lt_two
      · exact Nat.two_pos
  | ret | stub => exact absurd rfl hd
  | start | stmt | selfLoop | block => exact Nat.one_pos

/-- A step performs the node and leaves by the edge in the slot. -/
theorem step_eq {k : Kind} (hk : g.kind? c.node = some k) (hd : k.degree ≠ 0) :
    M.step g c =
      ((g.succs c.node)[M.slot c.state k]?).map fun n => ⟨n, M.perform c.state k⟩ := by
  rw [step, hk]
  cases k with
  | ret | stub => exact absurd rfl hd
  | start | stmt | branch | selfLoop | block => rfl

/-- A node of the same kind makes the same step, to what stands for the successor. -/
theorem step_map {h : Graph} {n m : NodeId} {s : Snapshot V} {f : NodeId → NodeId}
    (hk : h.kind? m = g.kind? n) (hs : h.succs m = (g.succs n).map f) :
    M.step h ⟨m, s⟩ = (M.step g ⟨n, s⟩).map fun c => ⟨f c.node, c.state⟩ := by
  rw [step, step, hk, hs]
  cases g.kind? n with
  | none => rfl
  | some k =>
      cases k with
      | ret | stub => rfl
      | start | stmt | branch | selfLoop | block =>
          dsimp only
          rw [List.getElem?_map, Option.map_map, Option.map_map]
          rfl

/-- A branch leaves the state alone and goes where its condition says. -/
theorem step_branch {n onTrue onFalse : NodeId} {s : Snapshot V} {cond : Expr}
    (hk : g.kind? n = some (.branch cond)) (hs : g.succs n = [onTrue, onFalse]) :
    M.step g ⟨n, s⟩ = some ⟨if M.eval s cond = M.const 0 then onFalse else onTrue, s⟩ := by
  rw [step, hk, hs]
  dsimp only
  rw [slot]
  split <;> rfl

/-- A step follows an edge and performs the node. -/
theorem of_step (h : M.step g c = some c') :
    ∃ k, g.kind? c.node = some k ∧ c'.node ∈ g.succs c.node ∧ c'.state = M.perform c.state k := by
  rw [step] at h
  split at h
  case h_1 | h_2 | h_3 => cases h
  case h_4 k _ _ hk =>
    obtain ⟨n, hn, rfl⟩ := Option.map_eq_some_iff.mp h
    exact ⟨k, hk, List.mem_of_getElem? hn, rfl⟩

/-- A run of one step more makes its last step at the end. -/
theorem run_succ (k : Nat) : M.run g (k + 1) c = (M.step g (M.run g k c)).getD (M.run g k c) := by
  rw [run_add]
  cases hs : M.step g (M.run g k c) with
  | none => exact run_of_stop hs 1
  | some c' => exact run_of_step hs 0

/-- How many of so many first configurations of a run are at a node. -/
def visits (M : Machine V) (g : Graph) (n : NodeId) (k : Nat) (c : Config V) : Nat :=
  (List.range k).countP fun i => (M.run g i c).node == n

theorem visits_succ (n : NodeId) (k : Nat) :
    M.visits g n (k + 1) c = M.visits g n k c + if (M.run g k c).node = n then 1 else 0 := by
  simp [visits, List.range_succ, List.countP_append]

/-- A visit of the first node counts once. -/
theorem visits_of_step (h : M.step g c = some c') (n : NodeId) (k : Nat) :
    M.visits g n (k + 1) c = M.visits g n k c' + if c.node = n then 1 else 0 := by
  rw [visits, visits, List.range_succ_eq_map, List.countP_cons, List.countP_map]
  congr 1
  · refine List.countP_congr fun i _ => ?_
    rw [Function.comp_apply, run_of_step h]
  · simp [run]

/-- Where a run stops nothing is visited. -/
theorem visits_of_stop (h : M.step g c = none) (hn : c.node ≠ n) (k : Nat) :
    M.visits g n k c = 0 := by
  refine List.countP_eq_zero.mpr fun i _ => ?_
  rw [run_of_stop h, beq_iff_eq]
  exact hn

/-- A node with successors goes on to one of them. -/
theorem exists_step (hg : g.Linked) {k : Kind} (hk : g.kind? c.node = some k)
    (hd : k.degree ≠ 0) :
    ∃ m, (g.succs c.node)[M.slot c.state k]? = some m ∧
      M.step g c = some ⟨m, M.perform c.state k⟩ := by
  have hlt : M.slot c.state k < (g.succs c.node).length := hg.degree hk ▸ slot_lt_degree _ hd
  have hm := List.getElem?_eq_getElem hlt
  exact ⟨_, hm, by rw [step_eq hk hd, hm]; rfl⟩

end Machine

open Machine

variable {V : Type} [DecidableEq V] {M : Machine V} {keep : String → Prop} {g h : Graph}
  {R : Config V → Config V → Prop} {rank : Config V → Config V → Nat} {a b : Config V}

/-- Both graphs step, or one of them does and the rank falls, or both have stopped, the one at a
return if the other is; and the states that are left then agree on what is to be kept. -/
def Progress (M : Machine V) (keep : String → Prop) (g h : Graph)
    (R : Config V → Config V → Prop) (rank : Config V → Config V → Nat) (a b : Config V) : Prop :=
  (∃ a' b', M.step g a = some a' ∧ M.step h b = some b' ∧ R a' b') ∨
  (∃ a', M.step g a = some a' ∧ R a' b ∧ rank a' b < rank a b) ∨
  (∃ b', M.step h b = some b' ∧ R a b' ∧ rank a b' < rank a b) ∨
  (M.step g a = none ∧ M.step h b = none ∧ Agrees keep a.state b.state ∧
    (g.kind? a.node = some .ret ↔ h.kind? b.node = some .ret))

/-- From the same state, nodes of the same kind step together. -/
theorem Progress.lockstep {n m : NodeId} {s : Snapshot V} {f : NodeId → NodeId}
    (hk : h.kind? m = g.kind? n) (hs : h.succs m = (g.succs n).map f)
    (hR : ∀ c, M.step g ⟨n, s⟩ = some c → R c ⟨f c.node, c.state⟩) :
    Progress M keep g h R rank ⟨n, s⟩ ⟨m, s⟩ := by
  have hmap := step_map (M := M) (s := s) hk hs
  cases hstep : M.step g ⟨n, s⟩ with
  | none => exact .inr (.inr (.inr ⟨hstep, by rw [hmap, hstep]; rfl, .refl s, by rw [hk]⟩))
  | some c => exact .inl ⟨c, _, hstep, by rw [hmap, hstep]; rfl, hR c hstep⟩

/-- A relation between configurations from which there is always progress. -/
structure Simulation (M : Machine V) (keep : String → Prop) (g h : Graph)
    (R : Config V → Config V → Prop) (rank : Config V → Config V → Nat) : Prop where
  progress : ∀ {a b}, R a b → Progress M keep g h R rank a b
  trace : ∀ {a b}, R a b → a.state.trace = b.state.trace

namespace Simulation

/-- The same simulation seen from the other side. -/
theorem symm (hsim : Simulation M keep g h R rank) :
    Simulation M keep h g (fun b a => R a b) (fun b a => rank a b) where
  progress {b a} hab := by
    rcases hsim.progress hab with ⟨a', b', ha, hb, hr⟩ | ⟨a', ha, hr, hlt⟩ | ⟨b', hb, hr, hlt⟩ |
      ⟨ha, hb, hag, hret⟩
    · exact .inl ⟨b', a', hb, ha, hr⟩
    · exact .inr (.inr (.inl ⟨a', ha, hr, hlt⟩))
    · exact .inr (.inl ⟨b', hb, hr, hlt⟩)
    · exact .inr (.inr (.inr
        ⟨hb, ha, ⟨hag.trace.symm, hag.memory.symm, fun hx => (hag.temps hx).symm⟩, hret.symm⟩))
  trace hab := (hsim.trace hab).symm

/-- Every configuration that one run comes to is related to one that the other run comes to. -/
theorem forward (hsim : Simulation M keep g h R rank) (hab : R a b) (k : Nat) :
    ∃ j, R (M.run g k a) (M.run h j b) := by
  induction k generalizing a b with
  | zero => exact ⟨0, hab⟩
  | succ k ih =>
      -- the other side may have to catch up, while its rank falls
      induction hn : rank a b using Nat.strongRecOn generalizing b with
      | ind n ihn =>
          rcases hsim.progress hab with ⟨a', b', ha, hb, hr⟩ | ⟨a', ha, hr, -⟩ |
            ⟨b', hb, hr, hlt⟩ | ⟨ha, -⟩
          · obtain ⟨j, hj⟩ := ih hr
            exact ⟨j + 1, by rwa [run_of_step ha, run_of_step hb]⟩
          · obtain ⟨j, hj⟩ := ih hr
            exact ⟨j, by rwa [run_of_step ha]⟩
          · obtain ⟨j, hj⟩ := ihn _ (hn ▸ hlt) hr rfl
            exact ⟨j + 1, by rwa [run_of_step hb]⟩
          · exact ⟨0, by rw [run_of_stop ha]; exact hab⟩

/-- When one run has stopped, the other one stops too. -/
theorem finish (hsim : Simulation M keep g h R rank) (hab : R a b) (ha : M.step g a = none) :
    ∃ j, Agrees keep a.state (M.run h j b).state ∧
      (g.kind? a.node = some .ret ↔ h.kind? (M.run h j b).node = some .ret) := by
  induction hn : rank a b using Nat.strongRecOn generalizing b with
  | ind n ihn =>
      rcases hsim.progress hab with ⟨a', b', ha', -⟩ | ⟨a', ha', -⟩ | ⟨b', hb, hr, hlt⟩ |
        ⟨-, -, hag, hret⟩
      · rw [ha] at ha'; cases ha'
      · rw [ha] at ha'; cases ha'
      · obtain ⟨j, hj⟩ := ihn _ (hn ▸ hlt) hr rfl
        exact ⟨j + 1, by rwa [run_of_step hb]⟩
      · exact ⟨0, hag, hret⟩

variable {start start' : NodeId}

/-- What one graph shows from outside the other one shows too. -/
theorem traces (hsim : Simulation M keep g h R rank) (hg : g.start = some start)
    (hh : h.start = some start') (hR : ∀ s, R ⟨start, s⟩ ⟨start', s⟩) {s : Snapshot V}
    {effects : List (Effect V)} (ht : M.Traces g s effects) : M.Traces h s effects := by
  obtain ⟨_, k, hs, ht⟩ := ht
  obtain rfl := Option.some.inj (hg.symm.trans hs)
  obtain ⟨j, hj⟩ := hsim.forward (hR s) k
  exact ⟨start', j, hh, (hsim.trace hj).symm.trans ht⟩

/-- If one graph returns so does the other, with the same memory and what is kept. -/
theorem returns (hsim : Simulation M keep g h R rank) (hg : g.start = some start)
    (hh : h.start = some start') (hR : ∀ s, R ⟨start, s⟩ ⟨start', s⟩) {s r : Snapshot V}
    (hr : M.Returns g s r) :
    ∃ r', M.Returns h s r' ∧ r'.trace = r.trace ∧ r'.memory = r.memory ∧
      ∀ x, keep x → r'.temps x = r.temps x := by
  obtain ⟨_, k, n, hs, hrun, hret⟩ := hr
  obtain rfl := Option.some.inj (hg.symm.trans hs)
  obtain ⟨j, hj⟩ := hsim.forward (hR s) k
  rw [hrun] at hj
  obtain ⟨i, hag, hiff⟩ := hsim.finish hj (step_of_ret hret)
  rw [← run_add] at hag hiff
  exact ⟨_, ⟨start', j + i, _, hh, rfl, hiff.mp hret⟩, hag.trace.symm, hag.memory.symm,
    fun x hx => (hag.temps hx).symm⟩

/-- Graphs with a simulation that relates their starts look the same. -/
theorem alike (hsim : Simulation M keep g h R rank) (hg : g.start = some start)
    (hh : h.start = some start') (hR : ∀ s, R ⟨start, s⟩ ⟨start', s⟩) : Alike M keep g h where
  traces _ _ := ⟨hsim.traces hg hh hR, hsim.symm.traces hh hg hR⟩
  returns _ _ := hsim.returns hg hh hR
  returns_back _ _ := hsim.symm.returns hh hg hR

end Simulation

end Flowgraph

import Flowgraph.Proofs.Built
import Flowgraph.Proofs.Simulation
import Flowgraph.Proofs.Unroll.Layout
import Flowgraph.Proofs.Unroll.Lookahead

/-!
# Unrolling keeps behaviour

The run of an unrolled graph is kept in step with the run of the graph as it was.  Inside a chain
the old run makes one step more at the end of each iteration, the test of the guard; at the new
header the new run makes one step more, the test of the lookahead.

* `Unrolled`: a loop with a guard, and the layout that unrolling it leaves.
* `Paired`: which configurations are in step.
* `Unrolled.simulation`: how the runs stay in step.
* `Unrolled.stays`: a chain is entered only if no test of the guard would fail in it.
* `unrolling_keeps_behaviour`: both, on built graphs that pass their audit.
-/

namespace Flowgraph

open Flowgraph.Graph Machine Guard

/-- A loop with a guard in `g`, whose variable is not updated twice in an iteration, and its layout
in `h` after it has been unrolled. -/
structure Unrolled (g h : Graph) (body : List NodeId) (header : NodeId) (guard : Guard)
    (v : InductionVar) (factor : Nat) (newHeader chain epilogue : NodeId)
    (rest : NodeId → NodeId) : Prop where
  linked : g.Linked
  header_mem : header ∈ body
  analyzed : Analyzed g header body guard v
  acyclic : ¬Relation.TransGen (g.Within body header) v.update v.update
  factor_ne : factor ≠ 0
  factor_le : factor - 1 ≤ Int64.maxValue.toNatClampNeg
  layout : Layout g h body header guard.entry guard.exit factor
    (guard.lookahead (.ofNat (factor - 1))) newHeader chain epilogue rest

/-- Configurations that are in step: at a node that was there before; in front of the loop, or of
what is left of a chain of `j` copies; at the header of the remaining loop, or inside of it; and
inside of a copy from which a chain of `j` further copies leads on. -/
inductive Paired (M : Machine Int) (g h : Graph) (body : List NodeId) (header : NodeId)
    (guard : Guard) (update newHeader epilogue : NodeId) (rest : NodeId → NodeId) :
    Config Int → Config Int → Prop
  | old {n s} (hn : g.isLive n = true) :
      Paired M g h body header guard update newHeader epilogue rest ⟨n, s⟩ ⟨n, s⟩
  | waiting {j c s} (hc : Chain g h body header guard.entry g.bound newHeader j c)
      (hj : ∀ i : Nat, j = i + 1 → guard.Ahead M s i) :
      Paired M g h body header guard update newHeader epilogue rest ⟨header, s⟩ ⟨c, s⟩
  | remaining {s} :
      Paired M g h body header guard update newHeader epilogue rest ⟨header, s⟩ ⟨epilogue, s⟩
  | rest {n s} (hn : g.Inner body header guard.entry n) :
      Paired M g h body header guard update newHeader epilogue rest ⟨n, s⟩ ⟨rest n, s⟩
  | chained {j next f n s} (hnext : Chain g h body header guard.entry g.bound newHeader j next)
      (hf : CopyOf g h body header guard.entry g.bound next f)
      (hn : g.Inner body header guard.entry n)
      (hp : Pending M g body header guard update n s j) :
      Paired M g h body header guard update newHeader epilogue rest ⟨n, s⟩ ⟨f n, s⟩

variable {M : Machine Int} {g h : Graph} {body : List NodeId} {header newHeader chain epilogue n m
  start : NodeId} {guard : Guard} {v : InductionVar} {factor : Nat} {rest : NodeId → NodeId}
  {s : Snapshot Int} {config : UnrollConfig}

namespace Unrolled

section

variable (hu : Unrolled g h body header guard v factor newHeader chain epilogue rest)
  (hM : M.Exact)

include hu

theorem entry : Entry g body header guard.entry where
  mem := hu.analyzed.entry_mem
  ne := hu.analyzed.entry_ne
  isLive := hu.linked.isLive_succ (a := header) (by simp [hu.analyzed.succs_header])

include hM

/-- Where the guard holds, now and perhaps some strides ahead, the old run enters the body. -/
theorem step_header {k : Int} (hs : guard.Ahead M s k) (hk : 0 ≤ k) :
    M.step g ⟨header, s⟩ = some ⟨guard.entry, s⟩ := by
  have hnow := ahead_zero.mp (hs.mono hM hu.analyzed.consistent hk)
  rw [step_branch hu.analyzed.kind_header hu.analyzed.succs_header, hM.const_zero, if_neg hnow]

/-- The lookahead looks as far as the last test in a chain. -/
theorem eval_test : M.eval s (guard.lookahead (.ofNat (factor - 1))) ≠ 0 ↔
    guard.Ahead M s ((factor : Int) - 1) := by
  have hlt := Nat.lt_of_le_of_lt hu.factor_le Int64.maxValue.toNatClampNeg_lt
  have hone : 1 ≤ factor := Nat.one_le_iff_ne_zero.mpr hu.factor_ne
  rw [eval_lookahead hM, Int64.toInt_ofNat_of_lt hlt, Int.natCast_sub hone, Int.natCast_one]

end

/-- The new run makes one step more at the new header, and the old one makes one step more at the
header, when the new run is inside of a chain. -/
def rank (header newHeader : NodeId) (a b : Config Int) : Nat :=
  if a.node = header then if b.node = newHeader then 2 else 1 else 0

section

variable (hu : Unrolled g h body header guard v factor newHeader chain epilogue rest)

include hu

/-- From a copy the runs go on to a copy, to what it leads back to, or out of the loop. -/
theorem paired_landing {back : NodeId} {f : NodeId → NodeId} {c : Config Int}
    (hn : n = header ∨ g.Inner body header guard.entry n) (hc : M.step g ⟨n, s⟩ = some c)
    (hback : c.node = header →
      Paired M g h body header guard v.update newHeader epilogue rest c ⟨back, c.state⟩)
    (hinner : g.Inner body header guard.entry c.node →
      (n ≠ header → g.Within body header n c.node) →
      Paired M g h body header guard v.update newHeader epilogue rest c ⟨f c.node, c.state⟩) :
    Paired M g h body header guard v.update newHeader epilogue rest c
      ⟨landing body header back f c.node, c.state⟩ := by
  obtain ⟨k, -, hsucc, -⟩ := of_step hc
  obtain ⟨m, t⟩ := c
  rw [landing]
  split
  · next e => exact hback e
  · next hne =>
      split
      · next hb =>
          refine hinner ?_ fun _ => ⟨hsucc, hb, hne⟩
          rcases hn with rfl | hn
          · rw [hu.analyzed.succs_header, List.mem_pair] at hsucc
            rcases hsucc with rfl | rfl
            · exact .refl
            · exact absurd hb hu.analyzed.exit_not_mem
          · exact hn.tail ⟨hsucc, hb, hne⟩
      · exact .old (hu.linked.isLive_succ hsucc)

/-- The runs make progress in front of the loop and between the copies of a chain. -/
theorem progress_waiting (hM : M.Exact) {j : Nat} {c : NodeId}
    (hc : Chain g h body header guard.entry g.bound newHeader j c)
    (hj : ∀ i : Nat, j = i + 1 → guard.Ahead M s i) :
    Progress M (fun _ => True) g h
      (Paired M g h body header guard v.update newHeader epilogue rest) (rank header newHeader)
      ⟨header, s⟩ ⟨c, s⟩ := by
  have hlayout := hu.layout
  cases hc with
  | nil =>
      have hstep := step_branch (M := M) (s := s) hlayout.kind_new hlayout.succs_new
      rw [hM.const_zero] at hstep
      by_cases htest : M.eval s (guard.lookahead (.ofNat (factor - 1))) = 0
      · -- the new run goes to what remains of the loop
        rw [if_pos htest] at hstep
        refine .inr (.inr (.inl ⟨_, hstep, .remaining, ?_⟩))
        rw [rank, rank, if_pos rfl, if_neg hlayout.epilogue_ne, if_pos rfl, if_pos rfl]
        exact Nat.one_lt_two
      · -- the new run enters the chain, and the old one its loop
        rw [if_neg htest] at hstep
        obtain ⟨i, rfl⟩ := Nat.exists_eq_succ_of_ne_zero hu.factor_ne
        have hahead : guard.Ahead M s i := by
          have := (hu.eval_test hM).mp htest
          rwa [Nat.succ_eq_add_one, Int.natCast_add, Int.natCast_one, Int.add_sub_cancel] at this
        obtain ⟨next, f, he, hnext, hf⟩ := hlayout.chained.exists_of_succ
        have henter := hu.step_header hM hahead (Int.natCast_nonneg i)
        rw [he] at hstep
        exact .inl ⟨_, _, henter, hstep,
          .chained hnext hf .refl (.enter hM hu.analyzed hahead)⟩
  | @cons i next f hnext hf =>
      -- the old run makes the test that is left out of the chain
      have hahead := hj i rfl
      have henter := hu.step_header hM hahead (Int.natCast_nonneg i)
      refine .inr (.inl ⟨_, henter, .chained hnext hf .refl (.enter hM hu.analyzed hahead), ?_⟩)
      rw [rank, rank, if_neg hu.entry.ne, if_pos rfl]
      split
      · exact Nat.two_pos
      · exact Nat.one_pos

/-- The runs make progress inside of what remains of the loop. -/
theorem progress_remaining {b : NodeId} (hn : n = header ∨ g.Inner body header guard.entry n)
    (hk : h.kind? b = g.kind? n)
    (hs : h.succs b = (g.succs n).map (landing body header epilogue rest)) :
    Progress M (fun _ => True) g h
      (Paired M g h body header guard v.update newHeader epilogue rest) (rank header newHeader)
      ⟨n, s⟩ ⟨b, s⟩ :=
  .lockstep hk hs fun c hc => hu.paired_landing hn hc
    (fun he => by obtain ⟨m, t⟩ := c; subst he; exact .remaining)
    (fun hinner _ => .rest hinner)

/-- The runs make progress inside of a chain. -/
theorem progress_chained (hM : M.Exact) {j : Nat} {next : NodeId} {f : NodeId → NodeId}
    (hnext : Chain g h body header guard.entry g.bound newHeader j next)
    (hf : CopyOf g h body header guard.entry g.bound next f)
    (hn : g.Inner body header guard.entry n) (hp : Pending M g body header guard v.update n s j) :
    Progress M (fun _ => True) g h
      (Paired M g h body header guard v.update newHeader epilogue rest) (rank header newHeader)
      ⟨n, s⟩ ⟨f n, s⟩ := by
  obtain ⟨hb, hne, -⟩ := hu.entry.inner hu.linked hn
  refine .lockstep (hf.kind_eq hn) (hf.succs_eq hn) fun c hc => ?_
  obtain ⟨k, hk, -, hstate⟩ := of_step hc
  obtain ⟨hafter, hwithin⟩ := hp.step hM hu.analyzed hu.acyclic hb hk
  rw [← hstate] at hafter hwithin
  refine hu.paired_landing (.inr hn) hc (fun he => ?_) fun hinner hedge => ?_
  · obtain ⟨m, t⟩ := c
    subst he
    refine .waiting hnext fun i hi => ?_
    subst hi
    rwa [Int.natCast_add, Int.natCast_one, Int.add_sub_cancel] at hafter
  · exact .chained hnext hf hinner (hwithin c.node (hedge hne))

/-- The runs make progress at a node that was there before. -/
theorem progress_old (hn : g.isLive n = true) :
    Progress M (fun _ => True) g h
      (Paired M g h body header guard v.update newHeader epilogue rest) (rank header newHeader)
      ⟨n, s⟩ ⟨n, s⟩ := by
  have hlt := lt_bound_of_isLive hn
  have hlayout := hu.layout
  by_cases hb : n ∈ body
  · refine .lockstep (f := id) (hlayout.kind_old hlt) ?_ fun c hc => ?_
    · rw [hlayout.succs_old hlt, if_pos hb, List.map_id]
    · obtain ⟨k, -, hsucc, -⟩ := of_step hc
      exact .old (hu.linked.isLive_succ hsucc)
  · refine .lockstep (f := divert header newHeader) (hlayout.kind_old hlt) ?_ fun c hc => ?_
    · rw [hlayout.succs_old hlt, if_neg hb]
    · obtain ⟨k, -, hsucc, -⟩ := of_step hc
      obtain ⟨m, t⟩ := c
      by_cases he : m = header
      · subst he
        rw [divert_self]
        exact .waiting .nil fun i hi => by cases hi
      · rw [divert_of_ne he]
        exact .old (hu.linked.isLive_succ hsucc)

/-- The runs before and after stay in step. -/
theorem simulation (hM : M.Exact) :
    Simulation M (fun _ => True) g h
      (Paired M g h body header guard v.update newHeader epilogue rest)
      (rank header newHeader) where
  progress hab := by
    have hrest := hu.layout.remainder
    cases hab with
    | old hn => exact hu.progress_old hn
    | waiting hc hj => exact hu.progress_waiting hM hc hj
    | remaining =>
        refine hu.progress_remaining (.inl rfl) hrest.kind_eq ?_
        have hexit : guard.exit ≠ header := fun e => hu.analyzed.exit_not_mem (e ▸ hu.header_mem)
        rw [hrest.succs_eq, hu.analyzed.succs_header, List.map_cons, List.map_singleton, landing,
          if_neg hu.entry.ne, if_pos hu.entry.mem, landing, if_neg hexit,
          if_neg hu.analyzed.exit_not_mem]
    | rest hn =>
        exact hu.progress_remaining (.inr hn) (hrest.copy.kind_eq hn) (hrest.copy.succs_eq hn)
    | chained hnext hf hn hp => exact hu.progress_chained hM hnext hf hn hp
  trace hab := by
    cases hab <;> rfl

end

/-! ### What entering a chain promises -/

/-- What is known of a run that was at the header while the lookahead held, after it has passed the
header so many times and has not left the body. -/
def Staying (M : Machine Int) (g : Graph) (body : List NodeId) (header : NodeId) (guard : Guard)
    (update : NodeId) (factor visits : Nat) (c : Config Int) : Prop :=
  c.node = header ∧ (visits < factor → guard.Ahead M c.state (factor - visits - 1)) ∨
  g.Inner body header guard.entry c.node ∧
    (visits ≤ factor → Pending M g body header guard update c.node c.state (factor - visits))

section

variable (hu : Unrolled g h body header guard v factor newHeader chain epilogue rest)

include hu

/-- A step within the body adds a visit of the header, and with it a stride. -/
theorem staying_step (hM : M.Exact) {visits : Nat} {c c' : Config Int}
    (hc : Staying M g body header guard v.update factor visits c) (hstep : M.step g c = some c')
    (hb : c'.node ∈ body) :
    Staying M g body header guard v.update factor
      (visits + if c.node = header then 1 else 0) c' := by
  obtain ⟨n, s⟩ := c
  rcases hc with ⟨rfl, hahead⟩ | ⟨hn, hp⟩
  · -- the test is passed, since the exit is not in the body
    rw [if_pos rfl]
    rw [step_branch hu.analyzed.kind_header hu.analyzed.succs_header] at hstep
    cases hstep
    split at hb
    · exact absurd hb hu.analyzed.exit_not_mem
    · next htest =>
        rw [if_neg htest]
        refine .inr ⟨.refl, fun hle => .enter hM hu.analyzed ?_⟩
        exact (hahead hle).mono hM hu.analyzed.consistent (by omega)
  · -- behind the test the header is not visited, and the update comes once at most
    obtain ⟨hnb, hne, -⟩ := hu.entry.inner hu.linked hn
    obtain ⟨k, hk, hsucc, hstate⟩ := of_step hstep
    rw [if_neg hne, Nat.add_zero]
    have hnext hle := (hp hle).step hM hu.analyzed hu.acyclic hnb hk
    by_cases he : c'.node = header
    · refine .inl ⟨he, fun hlt => ?_⟩
      rw [hstate]
      exact (hnext (Nat.le_of_lt hlt)).1
    · refine .inr ⟨hn.tail ⟨hsucc, hb, he⟩, fun hle => ?_⟩
      rw [hstate]
      exact (hnext hle).2 _ ⟨hsucc, hb, he⟩

/-- So it is for a run that stays in the body, by induction on its length. -/
theorem staying_run (hM : M.Exact) (hs : guard.Ahead M s (factor - 1)) (k : Nat)
    (hb : ∀ i ≤ k, (M.run g i ⟨header, s⟩).node ∈ body) :
    Staying M g body header guard v.update factor (M.visits g header k ⟨header, s⟩)
      (M.run g k ⟨header, s⟩) := by
  induction k with
  | zero => exact .inl ⟨rfl, fun _ => by simpa [visits, run] using hs⟩
  | succ k ih =>
      have hstay := ih fun i hi => hb i (Nat.le_succ_of_le hi)
      have hnode := hb (k + 1) (Nat.le_refl _)
      rw [run_succ] at hnode ⊢
      rw [visits_succ]
      cases hstep : M.step g (M.run g k ⟨header, s⟩) with
      | some c =>
          rw [hstep, Option.getD_some] at hnode
          exact hu.staying_step hM hstay hstep hnode
      | none =>
          -- a run that has stopped is not at the header
          have hne : (M.run g k ⟨header, s⟩).node ≠ header := fun he => by
            rw [step, he, hu.analyzed.kind_header, hu.analyzed.succs_header] at hstep
            dsimp only [slot] at hstep
            split at hstep <;> cases hstep
          rw [if_neg hne, Nat.add_zero]
          exact hstay

/-- When the lookahead holds, a run that stays in the body passes the header as many times as there
are copies in the chain. -/
theorem stays (hM : M.Exact) (hs : M.eval s (guard.lookahead (.ofNat (factor - 1))) ≠ 0) (k : Nat)
    (hb : ∀ i ≤ k, (M.run g i ⟨header, s⟩).node ∈ body)
    (hk : M.visits g header k ⟨header, s⟩ < factor)
    (hn : (M.run g k ⟨header, s⟩).node = header) : (M.run g (k + 1) ⟨header, s⟩).node ∈ body := by
  have hstay := hu.staying_run hM ((hu.eval_test hM).mp hs) k hb
  rw [run_succ]
  cases hrun : M.run g k ⟨header, s⟩ with
  | mk n t =>
      rw [hrun] at hstay hn
      obtain rfl : n = header := hn
      rcases hstay with ⟨-, hahead⟩ | ⟨hn, -⟩
      · rw [hu.step_header hM (hahead hk) (by omega)]
        exact hu.entry.mem
      · exact absurd rfl (hu.entry.inner hu.linked hn).2.1

end

end Unrolled

/-! ### Unrolling a loop -/

/-- The variable that the header tests is updated at most once in an iteration: its update lies on
no cycle of nodes of the body that avoids the header. -/
def UpdatedOnce (g : Graph) (header : NodeId) (body : List NodeId) : Prop :=
  ∀ v ∈ inductionVars g body, ∀ op bound,
    g.kind? header = some (.branch (.binop op (.temp v.name) bound)) →
      ¬Relation.TransGen (g.Within body header) v.update v.update

/-- A loop is left alone and the graph with it, or it has a guard and is replaced. -/
theorem unrollLoop_cases {outcome : UnrollOutcome}
    (hok : unrollLoop header body config g = .ok outcome h) :
    (outcome.isUnrolled = false ∧ h = g) ∨
      ∃ guard newHeader, outcome = .unrolled newHeader ∧
        Guard.analyze g header body config = .ok guard ∧
        config.factor - 1 ≤ Int64.maxValue.toNatClampNeg ∧
        replaceLoop header body guard config.factor g = .ok newHeader h := by
  obtain ⟨n, m, hrequire, hok⟩ := Edit.bind_eq_ok.mp hok
  rcases Edit.require_cases header g with ⟨e, he⟩ | ⟨_, he, -⟩
  · rw [he] at hrequire; cases hrequire
  rw [he] at hrequire
  cases hrequire
  rw [Edit.bind_ok (Edit.get_apply g)] at hok
  cases ha : Guard.analyze g header body config with
  | error reason =>
      rw [ha] at hok
      cases hok
      exact .inl ⟨rfl, rfl⟩
  | ok guard =>
      rw [ha] at hok
      dsimp only at hok
      split at hok
      · next hle =>
          obtain ⟨newHeader, _, hreplace, hok⟩ := Edit.bind_eq_ok.mp hok
          cases hok
          exact .inr ⟨guard, newHeader, rfl, rfl, hle, hreplace⟩
      · cases hok
        exact .inl ⟨rfl, rfl⟩

/-- A loop that is unrolled has a guard, and the look ahead is a constant. -/
theorem unrollLoop_ok (hok : unrollLoop header body config g = .ok (.unrolled newHeader) h) :
    ∃ guard, Guard.analyze g header body config = .ok guard ∧
      config.factor - 1 ≤ Int64.maxValue.toNatClampNeg ∧
      replaceLoop header body guard config.factor g = .ok newHeader h := by
  rcases unrollLoop_cases hok with ⟨hno, -⟩ | ⟨guard, _, he, hguard⟩
  · cases hno
  · cases he
    exact ⟨guard, hguard⟩

/-- A successful unrolling has found a guard, and fills the slots after the old ones. -/
theorem slots_of_ok (hg : g.WellFormed) (hheader : header ∈ body)
    (hok : unrollLoop header body config g = .ok (.unrolled newHeader) h) :
    ∃ guard v epilogue rest copy mark, Guard.analyze g header body config = .ok guard ∧
      Analyzed g header body guard v ∧ Entry g body header guard.entry ∧
      Slots g h body header guard.entry guard.exit config.factor
        (guard.lookahead (.ofNat (config.factor - 1))) newHeader epilogue rest copy mark := by
  obtain ⟨guard, ha, -, hreplace⟩ := unrollLoop_ok hok
  obtain ⟨-, v, hanalyzed⟩ := analyze_ok ha
  have hentry : Entry g body header guard.entry :=
    ⟨hanalyzed.entry_mem, hanalyzed.entry_ne,
      hg.isLive_succ (a := header) (by simp [hanalyzed.succs_header])⟩
  have hexit : g.isLive guard.exit = true :=
    hg.isLive_succ (a := header) (by simp [hanalyzed.succs_header])
  obtain ⟨epilogue, rest, copy, mark, hslots⟩ := replaceLoop_slots hg hentry hexit
    (fun e => hanalyzed.exit_not_mem (e ▸ hheader)) hanalyzed.kind_header hreplace
  exact ⟨guard, v, epilogue, rest, copy, mark, ha, hanalyzed, hentry, hslots⟩

/-- It leaves the layout of an unrolled loop. -/
theorem layout_of_ok (hg : g.WellFormed) (hheader : header ∈ body)
    (hok : unrollLoop header body config g = .ok (.unrolled newHeader) h) :
    ∃ guard v chain epilogue rest, Guard.analyze g header body config = .ok guard ∧
      Analyzed g header body guard v ∧ Entry g body header guard.entry ∧
      Layout g h body header guard.entry guard.exit config.factor
        (guard.lookahead (.ofNat (config.factor - 1))) newHeader chain epilogue rest := by
  obtain ⟨guard, v, epilogue, rest, _, _, ha, hanalyzed, hentry, hslots⟩ :=
    slots_of_ok hg hheader hok
  exact ⟨guard, v, _, epilogue, rest, ha, hanalyzed, hentry, hslots.layout⟩

/-- What is known of it, if the variable of the guard is updated at most once in an iteration. -/
theorem unrolled_of_ok (hg : g.WellFormed) (hheader : header ∈ body)
    (honce : UpdatedOnce g header body)
    (hok : unrollLoop header body config g = .ok (.unrolled newHeader) h) :
    ∃ guard v chain epilogue rest, Guard.analyze g header body config = .ok guard ∧
      Unrolled g h body header guard v config.factor newHeader chain epilogue rest := by
  obtain ⟨guard, v, chain, epilogue, rest, ha, hanalyzed, -, hlayout⟩ := layout_of_ok hg hheader hok
  obtain ⟨hfactor, -⟩ := analyze_ok ha
  obtain ⟨-, -, hle, -⟩ := unrollLoop_ok hok
  refine ⟨guard, v, chain, epilogue, rest, ha, hg.toLinked, hheader, hanalyzed, ?_, hfactor, hle,
    hlayout⟩
  refine honce v hanalyzed.var_mem guard.op guard.bound ?_
  rw [hanalyzed.name_eq]
  exact hanalyzed.kind_header

/-- Unrolling a loop keeps behaviour on every machine that calculates and compares as the integers
do, if the variable of the guard is updated at most once in an iteration: from the same state, the
runs before and after have the same effects one after the other, and one comes to a return exactly
if the other does, with the same memory and the same temporaries.  The new header enters a chain of
as many copies of the body as the unroll factor says, and it does so only if that many iterations
would have run: from there, the old run passes the header as many times before it leaves by the
exit. -/
theorem unrolling_keeps_behaviour {M : Machine Int} (hM : M.Exact) (hg : Built g)
    (hv : g.verify = .ok ()) (hheader : header ∈ body) (honce : UpdatedOnce g header body)
    (hok : unrollLoop header body config g = .ok (.unrolled newHeader) h) :
    Alike M (fun _ => True) g h ∧
    ∃ guard chain epilogue rest, Guard.analyze g header body config = .ok guard ∧
      Layout g h body header guard.entry guard.exit config.factor
        (guard.lookahead (.ofNat (config.factor - 1))) newHeader chain epilogue rest ∧
      ∀ s, M.step h ⟨newHeader, s⟩ = some ⟨chain, s⟩ →
        ∀ k, (∀ i ≤ k, (M.run g i ⟨header, s⟩).node ∈ body) →
          M.visits g header k ⟨header, s⟩ < config.factor →
          (M.run g k ⟨header, s⟩).node = header →
          (M.run g (k + 1) ⟨header, s⟩).node ∈ body := by
  have hw := hg.wellFormed
  obtain ⟨start, hs, -⟩ := hw.verify_eq_ok_iff.mp hv
  obtain ⟨guard, v, chain, epilogue, rest, ha, hu⟩ := unrolled_of_ok hw hheader honce hok
  refine ⟨?_, guard, chain, epilogue, rest, ha, hu.layout, fun s hstep => ?_⟩
  · have hlive := hw.isLive_start hs
    have hh : h.WellFormed := (proper_unrollLoop header body config).wellFormed_of_ok hok hw
    have hstart : h.start = some start := by
      rw [hh.start_iff, hu.layout.kind_old (lt_bound_of_isLive hlive)]
      exact hw.start_iff.mp hs
    exact (hu.simulation hM).alike hs hstart fun s => .old hlive
  · refine fun k hb hk hn => hu.stays hM (fun htest => ?_) k hb hk hn
    rw [step_branch hu.layout.kind_new hu.layout.succs_new, hM.const_zero, if_pos htest] at hstep
    exact hu.layout.chain_ne (congrArg Config.node (Option.some.inj hstep)).symm

/-- `i` runs from 0 to 10. -/
def countingLoop : Graph :=
  after (Edit.addStart 4) (after (Edit.addAssign "i" (.const 0) 3)
    (after (Edit.substituteStub 1 3)
      (after (Edit.addBranch (.binop .lt (.temp "i") (.const 10)) 2 0)
        (after (Edit.addAssign "i" (.binop .add (.temp "i") (.const 1)) 1)
          (after Edit.addStub (after Edit.addReturn .empty))))))

/-- Its body is its update and its header, and it can be unrolled twice. -/
theorem unrolling_countingLoop :
    Built countingLoop ∧ countingLoop.verify = .ok () ∧ UpdatedOnce countingLoop 3 [2, 3] ∧
      ∃ newHeader h,
        unrollLoop 3 [2, 3] (.withFactor 2 10) countingLoop = .ok (.unrolled newHeader) h ∧
        Alike (Machine.integers fun _ _ => 0) (fun _ => True) countingLoop h := by
  have hg : Built countingLoop :=
    .tail (.tail (.tail (.tail (.tail (.tail (.single (.addReturn _)) (.addStub _))
      (.addAssign _ _ _ _)) (.addBranch _ _ _ _)) (.substituteStub _ _ _)) (.addAssign _ _ _ _))
      (.addStart _ _)
  have hv : countingLoop.verify = .ok () := by decide +kernel
  have honce : UpdatedOnce countingLoop 3 [2, 3] := by
    intro v _ op bound _ hcycle
    -- within an iteration only the update can be reached, and it leads to the header
    have hstep {a b} (h : countingLoop.Within [2, 3] 3 a b) : a ≠ 2 ∧ b = 2 := by
      obtain ⟨hs, hb, hne⟩ := h
      have hsuccs : countingLoop.succs 2 = [3] := by decide
      refine ⟨fun e => hne ?_, by simpa [hne] using hb⟩
      rw [e, hsuccs] at hs
      exact List.mem_singleton.mp hs
    obtain ⟨b, hfirst, -⟩ := Relation.TransGen.head'_iff.mp hcycle
    obtain ⟨a, -, hlast⟩ := Relation.TransGen.tail'_iff.mp hcycle
    exact (hstep hfirst).1 (hstep hlast).2
  have hunrolled : (match unrollLoop 3 [2, 3] (.withFactor 2 10) countingLoop with
      | .ok outcome _ => outcome.isUnrolled
      | .error _ _ => false) = true := by decide +kernel
  split at hunrolled
  case h_2 => cases hunrolled
  case h_1 outcome h hok =>
    cases outcome with
    | skipped reason => cases hunrolled
    | unrolled newHeader =>
        obtain ⟨halike, -⟩ := unrolling_keeps_behaviour
          (Machine.exact_integers fun _ _ => 0) hg hv (by decide) honce hok
        exact ⟨hg, hv, honce, newHeader, h, hok, halike⟩

end Flowgraph

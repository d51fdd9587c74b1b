import Flowgraph.Proofs.Passes

/-!
# What has passed its audit passes it again

An audit asks for a start that nothing leads to and that leads to no stub.  Splicing, sweeping and
replacing loops lead to nothing that was not led to before, as far as old nodes go, and leave no
stub that was not there before.

* `Keeps`: nothing that an audit asks for is lost.
* `Keeps.verify`: so the graph passes again.
* `Keeps.swept`, `Keeps.splice`, `Keeps.of_eliminateDeadCode`: sweeping and eliminating dead code.
* `Keeps.exists_of_deadCodePass`: a pass that does both.
* `Inherits`: whatever old node is led to was led to before, while loops are unrolled.
* `Keeps.of_unrollLoops`: unrolling all loops.
* `optimizations_keep_verified`: everything that optimizes one function.
-/

namespace Flowgraph

open Flowgraph.Graph

variable {g h k : Graph} {body : List NodeId} {header entry exit newHeader chain epilogue : NodeId}
  {start node next m n s : NodeId} {factor : Nat} {test : Expr} {rest : NodeId → NodeId}
  {d : Dominators} {l : NaturalLoop} {config : UnrollConfig}

/-- The start is the same, and nothing leads to it that had no counterpart before; every stub was a
stub before, and was reached before if it is reached. -/
structure Keeps (g h : Graph) (start : NodeId) : Prop where
  start_eq : h.start = some start
  stub : ∀ {n}, h.kind? n = some .stub → g.kind? n = some .stub
  reaches : ∀ {n}, h.kind? n = some .stub → h.Reaches start n → g.Reaches start n
  entered : ∀ {m}, start ∈ h.succs m → ∃ n, start ∈ g.succs n

namespace Keeps

theorem refl (hs : g.start = some start) : Keeps g g start :=
  ⟨hs, id, fun _ => id, fun {m} h => ⟨m, h⟩⟩

/-- What two steps keep is kept. -/
theorem trans (hgh : Keeps g h start) (hhk : Keeps h k start) : Keeps g k start where
  start_eq := hhk.start_eq
  stub hn := hgh.stub (hhk.stub hn)
  reaches hn hr := hgh.reaches (hhk.stub hn) (hhk.reaches hn hr)
  entered hm := by
    obtain ⟨n, hn⟩ := hhk.entered hm
    exact hgh.entered hn

/-- A graph that keeps all this passes its audit if the other one did. -/
theorem verify (hkeep : Keeps g h start) (hg : g.WellFormed) (hh : h.WellFormed)
    (hv : g.verify = .ok ()) (hs : g.start = some start) : h.verify = .ok () := by
  obtain ⟨t, ht, hpreds, hstubs⟩ := hg.verify_eq_ok_iff.mp hv
  obtain rfl : start = t := Option.some.inj (hs.symm.trans ht)
  refine hh.verify_eq_ok_iff.mpr ⟨start, hkeep.start_eq, ?_, fun n hr hk => ?_⟩
  · refine List.eq_nil_iff_forall_not_mem.mpr fun m hm => ?_
    obtain ⟨n, hn⟩ := hkeep.entered (hh.mem_preds.mp hm)
    exact List.not_mem_nil (hpreds ▸ hg.mem_preds.mpr hn)
  · exact hstubs n (hkeep.reaches hk hr) (hkeep.stub hk)

/-! ### Sweeping and splicing -/

/-- A sweep keeps the start and brings no stub. -/
theorem swept (hg : g.WellFormed) (hs : g.start = some start) : Keeps g g.swept start where
  start_eq := (start_swept g).trans hs
  stub hn := ((hg.kind?_swept_iff hs).mp hn).2
  reaches hn _ := ((hg.kind?_swept_iff hs).mp hn).1
  entered {m} hm := ⟨m, ((hg.mem_succs_swept hs).mp hm).2⟩

/-- An edge past a node that has been spliced out was a way over that node. -/
theorem splice (hg : g.Linked) (hs : g.start = some start) (hsucc : g.succs node = [next]) :
    Keeps g (spliced g node next) start := by
  have hedge {m s : NodeId} (hsm : s ∈ (spliced g node next).succs m) :
      s ∈ g.succs m ∨ node ∈ g.succs m ∧ s ∈ g.succs node := by
    rw [succs_spliced hg] at hsm
    split at hsm
    · cases hsm
    · obtain ⟨t, ht, rfl⟩ := List.mem_map.mp hsm
      by_cases he : t = node
      · subst he
        rw [divert_self, hsucc]
        exact .inr ⟨ht, List.mem_singleton_self next⟩
      · rw [divert_of_ne he]
        exact .inl ht
  refine ⟨start_spliced.trans hs, fun {n} hn => ?_, fun {n} hn hr => ?_, fun {m} hm => ?_⟩
  · rw [kind?_spliced] at hn
    split at hn
    · cases hn
    · exact hn
  · clear hn
    induction hr with
    | refl => exact .refl
    | tail _ hstep ih =>
        rcases hedge hstep with hstep | ⟨hfirst, hsecond⟩
        · exact ih.tail hstep
        · exact (ih.tail hfirst).tail hsecond
  · rcases hedge hm with hm | ⟨-, hm⟩
    · exact ⟨m, hm⟩
    · exact ⟨node, hm⟩

/-- So does splicing out nodes. -/
theorem of_removeNodes {ns : List NodeId} {removed : List Removal} (hg : g.WellFormed)
    (hs : g.start = some start) (hok : removeNodes ns g = .ok removed h) : Keeps g h start := by
  induction ns generalizing g removed with
  | nil => cases hok; exact .refl hs
  | cons n rest ih =>
      rcases removeNodes_cons_ok hok with ⟨-, hok⟩ |
        ⟨next, _, _, hstart, -, hsucc, hne, hrest, -⟩
      · exact ih hg hs hok
      · have hstep := Keeps.splice hg.toLinked hs hsucc
        exact hstep.trans
          (ih (Change.wellFormed (.splice hstart hsucc hne) hg) hstep.start_eq hrest)

theorem of_eliminateDeadCode {removed : List Removal} (hg : g.WellFormed)
    (hs : g.start = some start) (hok : eliminateDeadCode g = .ok removed h) : Keeps g h start := by
  obtain ⟨l, hok⟩ := eliminateDeadCode_ok hok
  exact of_removeNodes hg hs hok

/-- Both parts of the pass, the sweep and the round. -/
theorem exists_of_deadCodePass (hg : g.WellFormed) (hs : g.start = some start)
    (c : CleanupConfig) : ∃ swept k removed h, sweepIfEnabled c g = .ok swept k ∧
      eliminateDeadCode k = .ok removed h ∧ h.WellFormed ∧ Keeps g h start := by
  obtain ⟨swept, k, hsweep, hk, hks, hcases⟩ := sweepIfEnabled_ok hg hs c
  obtain ⟨removed, h, hok⟩ := eliminateDeadCode_succeeds hk hks
  refine ⟨swept, k, removed, h, hsweep, hok, proper_eliminateDeadCode.wellFormed_of_ok hok hk, ?_⟩
  rcases hcases with rfl | rfl
  · exact (Keeps.swept hg hs).trans (.of_eliminateDeadCode hk hks hok)
  · exact .of_eliminateDeadCode hk hks hok

/-- So do any number of rounds. -/
theorem of_eliminateToFixpoint {rounds count : Nat} (hg : g.WellFormed)
    (hs : g.start = some start) (hok : eliminateToFixpoint rounds g = .ok count h) :
    Keeps g h start := by
  induction rounds generalizing g count with
  | zero => cases hok; exact .refl hs
  | succ rounds ih =>
      rcases eliminateToFixpoint_cases hok with ⟨-, -, rfl⟩ | ⟨_, m, _, hround, -, hlater, -⟩
      · exact .refl hs
      · have hstep := of_eliminateDeadCode hg hs hround
        exact hstep.trans
          (ih (proper_eliminateDeadCode.wellFormed_of_ok hround hg) hstep.start_eq hlater)

end Keeps

/-! ### Unrolling -/

/-- Whatever old node is led to by a node that is reached was led to by one that was reached. -/
def Inherits (g k : Graph) (start : NodeId) : Prop :=
  ∀ m s, s < g.bound → k.Reaches start m → s ∈ k.succs m →
    ∃ n, g.Reaches start n ∧ s ∈ g.succs n

namespace Inherits

theorem refl (g : Graph) (start : NodeId) : Inherits g g start := fun m _ _ hm hs => ⟨m, hm, hs⟩

theorem trans (hgk : Inherits g k start) (hkh : Inherits k h start) (hle : g.bound ≤ k.bound) :
    Inherits g h start := by
  intro m s hlt hm hs
  obtain ⟨n, hn, hs⟩ := hkh m s (Nat.lt_of_lt_of_le hlt hle) hm hs
  exact hgk n s hlt hn hs

/-- New nodes lead where the nodes lead whose work they do. -/
theorem of_replaced
    (hr : Replaced g h body header entry exit factor test newHeader chain epilogue rest)
    (hstart : start < g.bound) : Inherits g h start := by
  intro m s hlt hm hs
  by_cases hold : m < g.bound
  · exact ⟨m, hr.reaches_of_reaches hstart hm hold, hr.mem_succs_old hold hlt hs⟩
  · obtain ⟨n, hn, hreach⟩ := hr.counterpart_of_reaches hstart hm
    exact ⟨n, hreach, ((hr.follows_of_new hn (Nat.le_of_not_lt hold) hs).2 hlt).2.2⟩

/-- What is new after unrolling comes from what was there. -/
theorem of_unrollEach {f : LoopForest} {reports : List LoopReport} (hg : g.WellFormed)
    (hstart : start < g.bound) (hok : unrollEach d config f g = .ok reports h) :
    Inherits g h start := by
  induction f generalizing g reports with
  | nil => cases hok; exact .refl _ _
  | cons l rest ih =>
      obtain ⟨q, k, qs, hfound, heach, rfl⟩ := unrollEach_cons_ok.mp hok
      have hstage := stage_unrollFound hg hstart hfound
      have hk := (proper_unrollFound d config l).wellFormed_of_ok hfound hg
      have hrest := ih hk (Nat.lt_of_lt_of_le hstart hstage.bound_le) heach
      refine trans ?_ hrest hstage.bound_le
      rcases unrollFound_cases hfound with ⟨-, rfl⟩ | ⟨newHeader, -, hloop⟩
      · exact .refl _ _
      · obtain ⟨_, _, _, _, _, _, _, hr⟩ := replaced_of_ok hg header_mem_currentBody hloop
        exact .of_replaced hr hstart

end Inherits

/-- When loops have been unrolled, the sweep keeps nothing that is not reached. -/
theorem Keeps.of_unrollEach {f : LoopForest} {reports : List LoopReport} (hg : g.WellFormed)
    (hs : g.start = some start) (hok : unrollEach d config f g = .ok reports k)
    (hsame : SameStubs g k) : Keeps g k.swept start := by
  have hstart : start < g.bound := lt_bound_of_reaches hg hs .refl
  have hst := stage_unrollEach hg hstart hok
  have hk := (proper_unrollEach d config f).wellFormed_of_ok hok hg
  have hks := hst.start_eq hg hk hs
  refine ⟨(start_swept k).trans hks, fun {n} hn => ?_, fun {n} hn _ => ?_, fun {m} hm => ?_⟩
  · exact (hsame n).mp ((hk.kind?_swept_iff hks).mp hn).2
  · obtain ⟨hreach, hstub⟩ := (hk.kind?_swept_iff hks).mp hn
    exact hst.reaches (lt_bound_of_kind? ((hsame n).mp hstub)) hreach
  · obtain ⟨hreach, hedge⟩ := (hk.mem_succs_swept hks).mp hm
    obtain ⟨n, -, hn⟩ := Inherits.of_unrollEach hg hstart hok m start hstart hreach hedge
    exact ⟨n, hn⟩

/-- Unrolling all loops goes through; no stub that was made on the way is left when the last loop
has had its turn, nor after the sweep. -/
theorem unrollLoops_keeps (hg : g.WellFormed) (hs : g.start = some start) (config : UnrollConfig) :
    ∃ d report k h, Dominators.compute g = .ok d ∧ unrollLoops config g = .ok report h ∧
      unrollEach d config (LoopForest.detect g d) g = .ok report.loops k ∧ SameStubs g k ∧
      Keeps g h start := by
  obtain ⟨d, report, k, h, hd, hok, heach, hsame, rfl | rfl⟩ := unrollLoops_completes hg hs config
  · exact ⟨d, report, k, _, hd, hok, heach, hsame, .of_unrollEach hg hs heach hsame⟩
  · exact ⟨d, report, k, _, hd, hok, heach, hsame, .refl hs⟩

/-! ### Everything that optimizes one function -/

/-- The graph passes its audit, has the start of the other one, and has no stubs but those of the
other one. -/
structure StaysVerified (g h : Graph) : Prop where
  verify_eq : h.verify = .ok ()
  start_eq : h.start = g.start
  stub : ∀ n, h.kind? n = some .stub → g.kind? n = some .stub

/-- What keeps this much keeps a graph verified. -/
theorem Keeps.staysVerified (hkeep : Keeps g h start) (hg : g.WellFormed) (hh : h.WellFormed)
    (hv : g.verify = .ok ()) (hs : g.start = some start) : StaysVerified g h :=
  ⟨hkeep.verify hg hh hv hs, hkeep.start_eq.trans hs.symm, fun _ => hkeep.stub⟩

/-- Everything that optimizes a function goes through on a graph that passes its audit, and leaves
one that passes it with the same start and without new stubs: a round of dead code elimination, any
number of rounds, unrolling all loops, and both passes.  Unrolling has resolved all stubs that it
made when the last loop has had its turn, so that the sweep finds none. -/
theorem optimizations_keep_verified (hg : Built g) (hv : g.verify = .ok ()) :
    (∃ removed h, eliminateDeadCode g = .ok removed h ∧ StaysVerified g h) ∧
    (∀ rounds, ∃ count h, eliminateToFixpoint rounds g = .ok count h ∧ StaysVerified g h) ∧
    (∀ config, ∃ d report k h, Dominators.compute g = .ok d ∧
      unrollLoops config g = .ok report h ∧ StaysVerified g h ∧
      unrollEach d config (LoopForest.detect g d) g = .ok report.loops k ∧
      ∀ n, k.kind? n = some .stub ↔ g.kind? n = some .stub) ∧
    ∀ pass ∈ [deadCodePass, unrollPass], ∀ config round function log, ∃ changed w,
      pass.run config round function ⟨g, log⟩ = .ok changed w ∧ StaysVerified g w.graph := by
  have hw := hg.wellFormed
  obtain ⟨start, hs, -⟩ := hw.verify_eq_ok_iff.mp hv
  refine ⟨?_, fun rounds => ?_, fun config => ?_, fun pass hpass config round function log => ?_⟩
  · obtain ⟨removed, h, hok⟩ := eliminateDeadCode_succeeds hw hs
    exact ⟨removed, h, hok, (Keeps.of_eliminateDeadCode hw hs hok).staysVerified hw
      (proper_eliminateDeadCode.wellFormed_of_ok hok hw) hv hs⟩
  · obtain ⟨count, h, hok, -⟩ :=
      eliminateToFixpoint_alike (M := Machine.integers fun _ _ => 0) hw hs rounds
    exact ⟨count, h, hok, (Keeps.of_eliminateToFixpoint hw hs hok).staysVerified hw
      ((proper_eliminateToFixpoint rounds).wellFormed_of_ok hok hw) hv hs⟩
  · obtain ⟨d, report, k, h, hd, hok, heach, hsame, hkeep⟩ := unrollLoops_keeps hw hs config
    exact ⟨d, report, k, h, hd, hok, hkeep.staysVerified hw
      ((proper_unrollLoops config).wellFormed_of_ok hok hw) hv hs, heach, hsame⟩
  · rcases List.mem_pair.mp hpass with rfl | rfl
    · obtain ⟨swept, k, removed, h, hsweep, hok, hh, hkeep⟩ :=
        Keeps.exists_of_deadCodePass hw hs config.cleanup
      exact ⟨_, _, run_deadCodePass hsweep hok, hkeep.staysVerified hw hh hv hs⟩
    · obtain ⟨-, report, -, h, -, hok, -, -, hkeep⟩ := unrollLoops_keeps hw hs config.unroll
      exact ⟨_, _, run_unrollPass hok, hkeep.staysVerified hw
        ((proper_unrollLoops config.unroll).wellFormed_of_ok hok hw) hv hs⟩

/-- A graph with two nested loops, both of which are unrolled, passes its audit throughout. -/
theorem optimizations_keep_verified_innerBeside :
    Built innerBeside ∧ innerBeside.verify = .ok () ∧
      (∃ removed h, eliminateDeadCode innerBeside = .ok removed h ∧
        StaysVerified innerBeside h) ∧
      (∃ report h, unrollLoops (.withFactor 2 20) innerBeside = .ok report h ∧
        report.unrolled = 2 ∧ StaysVerified innerBeside h) ∧
      ∃ changed w, unrollPass.run .standard 0 "f" ⟨innerBeside, []⟩ = .ok changed w ∧
        StaysVerified innerBeside w.graph := by
  have hv : innerBeside.verify = .ok () := by decide +kernel
  obtain ⟨hround, -, hunroll, hpass⟩ := optimizations_keep_verified built_innerBeside hv
  obtain ⟨swept, h, hok, -⟩ := unrollLoops_innerBeside
  obtain ⟨-, report, -, h', -, hok', hstays, -⟩ := hunroll (.withFactor 2 20)
  rw [hok] at hok'
  cases hok'
  exact ⟨built_innerBeside, hv, hround, ⟨_, h, hok, rfl, hstays⟩,
    hpass unrollPass (by simp) .standard 0 "f" []⟩

end Flowgraph

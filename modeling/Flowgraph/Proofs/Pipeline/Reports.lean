import Flowgraph.Proofs.DeadCode.Sweeping
import Flowgraph.Proofs.Pipeline.Effects

/-!
# What a pass says about its work

A pass says that it has changed a function exactly if the graph that it leaves is not the one that
it was given.  What it records is one event for each thing that it has done, or in the case of loops
one for each that was found, whether it could be unrolled or not.  A change shows in a number: of
nodes for dead code elimination, of slots for unrolling.

* `TellsSweep`, `TellsRemoval`, `TellsLoop`: the events that are right.
* `count_deadCodePass`: how many nodes dead code elimination takes away.
* `headers_unrollEach`: there is one report for each loop, in the order in which they were found.
* `bound_lt_of_unrolled`: unrolling a loop takes new slots.
* `RemovalsReported`, `LoopsReported`: what each pass is to say.
* `passes_report_changes`: what both passes say.
-/

namespace Flowgraph

open Flowgraph.Graph

variable {g h k : Graph} {start : NodeId} {function what : String} {config : OptimizerConfig}
  {c : UnrollConfig} {d : Dominators} {f : LoopForest} {removed : List Removal} {swept : Nat}
  {reports : List LoopReport}

/-! ### Events that are right -/

/-- One event says how many nodes a sweep takes away, unless it takes none. -/
def TellsSweep (function what : String) (g : Graph) (events : EventLog) : Prop :=
  ∃ swept h, Edit.sweep g = .ok swept h ∧ g.count = h.count + swept ∧
    events = if h = g then [] else [⟨.nodesSwept, some function, none, toString swept ++ what⟩]

/-- The event is about a node that was removed, with the text that it had. -/
def TellsRemoval (function : String) (g : Graph) (n : NodeId) (e : Event) : Prop :=
  ∃ kind, g.kind? n = some kind ∧ e = ⟨.instructionRemoved, some function, some n, kind.text⟩

/-- The event is about a loop with this header, with what it was replaced by or the reason why it
was left alone. -/
def TellsLoop (function : String) (c : UnrollConfig) (r : LoopReport) (e : Event) : Prop :=
  (∃ newHeader, r.outcome = .unrolled newHeader ∧
    e = ⟨.loopUnrolled, some function, some r.header,
      toString r.bodySize ++ " nodes x" ++ toString c.factor ++ " (new header "
        ++ newHeader.text ++ ")"⟩) ∨
  ∃ reason, r.outcome = .skipped reason ∧
    e = ⟨.loopSkipped, some function, some r.header, reason.message⟩

/-- Both passes record a sweep in this way. -/
theorem tellsSweep (hg : g.WellFormed) (hs : g.start = some start) (function what : String) :
    TellsSweep function what g (if g.unreachable.length = 0 then []
      else [.ofFunction .nodesSwept function (toString g.unreachable.length ++ what)]) := by
  have hcount := count_swept hs
  have hsame : g.swept = g ↔ g.unreachable.length = 0 := by
    refine ⟨fun he => ?_, fun he => hg.swept_eq_self hs (List.eq_nil_of_length_eq_zero he)⟩
    rw [he] at hcount
    exact Nat.left_eq_add.mp hcount
  exact ⟨_, _, Edit.sweep_apply g, hcount, (if_congr hsame rfl rfl).symm⟩

/-- Every removal is told with the node and what was in it. -/
theorem tellsRemoval (function : String) (hkinds : ∀ r ∈ removed, g.kind? r.node = some r.kind) :
    List.Forall₂ (TellsRemoval function g) (removed.map Removal.node)
      (removed.map (Removal.event function)) :=
  List.forall₂_map_left_iff.mpr (List.forall₂_map_right_iff.mpr
    (List.forall₂_same.mpr fun r hr => ⟨r.kind, hkinds r hr, rfl⟩))

/-- Every loop is told with its header and what became of it. -/
theorem tellsLoop (function : String) (c : UnrollConfig) (r : LoopReport) :
    TellsLoop function c r (UnrollReport.loopEvent function c r) := by
  rw [UnrollReport.loopEvent]
  split
  · next newHeader hr => exact .inl ⟨newHeader, hr, rfl⟩
  · next reason hr => exact .inr ⟨reason, hr, rfl⟩

/-! ### Dead code elimination -/

/-- The parts of dead code elimination remove what a round without a sweep removes, and leave what
such a round leaves, swept if there is a sweep. -/
theorem exists_parts_deadCodePass (hg : g.WellFormed) (hs : g.start = some start)
    (config : OptimizerConfig) (hok : eliminateDeadCode g = .ok removed h) :
    ∃ swept k left, sweepIfEnabled config.cleanup g = .ok swept k ∧
      eliminateDeadCode k = .ok removed left ∧
      (config.cleanup.sweepUnreachable = true ∧ swept = g.unreachable.length ∧ left = h.swept ∨
        config.cleanup.sweepUnreachable = false ∧ swept = 0 ∧ left = h) := by
  rw [sweepIfEnabled_apply]
  cases config.cleanup.sweepUnreachable with
  | true => exact ⟨_, _, _, rfl, (eliminateDeadCode_swept hg hs hok).1, .inl ⟨rfl, rfl, rfl⟩⟩
  | false => exact ⟨_, _, _, rfl, hok, .inr ⟨rfl, rfl, rfl⟩⟩

/-- What was there is what is left, what was removed and what was swept. -/
theorem count_deadCodePass (hg : g.WellFormed) (hs : g.start = some start)
    (hok : eliminateDeadCode g = .ok removed h) {left : Graph}
    (hparts : swept = g.unreachable.length ∧ left = h.swept ∨ swept = 0 ∧ left = h) :
    g.count = left.count + removed.length + swept := by
  obtain ⟨_, _, hok', hp, hremoved, -⟩ := eliminateDeadCode_pruned hg hs
  obtain ⟨rfl, rfl⟩ := EStateM.Result.ok.inj (hok.symm.trans hok')
  have hround : g.count = h.count + removed.length := by
    rw [hp.count_eq, ← hremoved, List.length_map]
  rcases hparts with ⟨rfl, rfl⟩ | ⟨rfl, rfl⟩
  · rw [hround, count_swept (hp.start_eq.trans hs), (eliminateDeadCode_swept hg hs hok).2,
      Nat.add_right_comm]
  · exact hround

/-- The nodes that were removed are the dead assignments that a round takes out, and those that were
reached and are not there any more. -/
theorem mem_removed_iff (hg : g.WellFormed) (hs : g.start = some start)
    (hok : eliminateDeadCode g = .ok removed h) {left : Graph} (hleft : left = h.swept ∨ left = h)
    {n : NodeId} : (n ∈ removed.map Removal.node ↔ g.Eliminated start n) ∧
      (n ∈ removed.map Removal.node ↔ g.Reaches start n ∧ left.isLive n = false) := by
  obtain ⟨_, _, hok', hp, hremoved, -⟩ := eliminateDeadCode_pruned hg hs
  obtain ⟨rfl, rfl⟩ := EStateM.Result.ok.inj (hok.symm.trans hok')
  have hh := proper_eliminateDeadCode.wellFormed_of_ok hok hg
  have hlive {n : NodeId} (hn : g.Reaches start n) : g.isLive n = true :=
    hg.isLive_of_reaches (hg.isLive_start hs) hn
  have hgone : g.Eliminated start n → g.Reaches start n := fun hn => hn.1.1
  have hkept (hn : g.Reaches start n) : left.isLive n = true ↔ ¬g.Eliminated start n := by
    rcases hleft with rfl | rfl
    · rw [hh.isLive_swept_iff (hp.start_eq.trans hs), hp.reaches_iff (not_eliminated_start hg hs)]
      exact and_iff_right hn
    · rw [hp.isLive_iff]
      exact and_iff_right (hlive hn)
  have hmem : n ∈ removed.map Removal.node ↔ g.Eliminated start n := by
    rw [hremoved, List.mem_filter, mem_ids, Bool.not_eq_true', ← Bool.not_eq_true, hp.isLive_iff]
    have := fun hn => hlive (hgone hn)
    tauto
  refine ⟨hmem, hmem.trans ⟨fun hn => ⟨hgone hn, ?_⟩, fun ⟨hn, hvacant⟩ => ?_⟩⟩
  · exact Bool.not_eq_true _ ▸ fun hstays => (hkept (hgone hn)).mp hstays hn
  · by_contra hstays
    rw [(hkept hn).mpr hstays] at hvacant
    cases hvacant

/-! ### Unrolling -/

/-- Each loop that was found has a report if its header is there, in the same order. -/
theorem headers_unrollEach (hg : g.WellFormed) (hstart : start < g.bound)
    (hf : ∀ l ∈ f, g.isLive l.header = true) (hok : unrollEach d c f g = .ok reports h) :
    reports.map LoopReport.header = f.map NaturalLoop.header := by
  induction f generalizing g reports with
  | nil => cases hok; rfl
  | cons l rest ih =>
      obtain ⟨q, k, qs, hfound, heach, rfl⟩ := unrollEach_cons_ok.mp hok
      obtain ⟨hl, hrest⟩ := List.forall_mem_cons.mp hf
      have hst := stage_unrollFound hg hstart hfound
      have hk := (proper_unrollFound d c l).wellFormed_of_ok hfound hg
      -- what is unrolled does not take the headers of other loops away
      have hlater := ih hk (Nat.lt_of_lt_of_le hstart hst.bound_le)
        (fun l' hl' => hst.isLive (hrest l' hl')) heach
      obtain ⟨r, rfl, hr⟩ : ∃ r, q = some r ∧ r.header = l.header := by
        rw [unrollFound, Edit.bind_ok (Edit.get_apply g), if_pos hl] at hfound
        obtain ⟨outcome, m, -, hfound⟩ := Edit.bind_eq_ok.mp hfound
        cases hfound
        exact ⟨_, rfl, rfl⟩
      rw [List.map_cons, ← hr, ← hlater]
      rfl

/-- A loop that is unrolled takes new slots. -/
theorem bound_lt_of_unrolled (hg : g.WellFormed) (hstart : start < g.bound)
    (hok : unrollEach d c f g = .ok reports h)
    (hunrolled : ∃ r ∈ reports, r.outcome.isUnrolled = true) : g.bound < h.bound := by
  induction f generalizing g reports with
  | nil =>
      cases hok
      obtain ⟨r, hr, -⟩ := hunrolled
      cases hr
  | cons l rest ih =>
      obtain ⟨q, k, qs, hfound, heach, rfl⟩ := unrollEach_cons_ok.mp hok
      have hst := stage_unrollFound hg hstart hfound
      have hk := (proper_unrollFound d c l).wellFormed_of_ok hfound hg
      have hlater := stage_unrollEach hk (Nat.lt_of_lt_of_le hstart hst.bound_le) heach
      rcases unrollFound_cases hfound with ⟨hno, rfl⟩ | ⟨newHeader, rfl, hloop⟩
      · obtain ⟨r, hr, hunrolled⟩ := hunrolled
        refine ih hg hstart heach ⟨r, (List.mem_append.mp hr).resolve_left fun hq => ?_, hunrolled⟩
        rw [(hno r (Option.mem_toList.mp hq)).2] at hunrolled
        cases hunrolled
      · obtain ⟨_, _, _, _, _, _, _, hr⟩ := replaced_of_ok hg header_mem_currentBody hloop
        have hnew : newHeader < k.bound := lt_bound_of_kind? hr.layout.kind_new
        exact Nat.lt_of_le_of_lt hr.bound_le_newHeader (Nat.lt_of_lt_of_le hnew hlater.bound_le)

/-! ### The passes -/

/-- What dead code elimination says after it has worked on `g` and left `h`: whether anything has
changed, and if so one event for a sweep that has taken something away and one for each dead
assignment that is gone, in ascending order. -/
structure RemovalsReported (config : OptimizerConfig) (function : String) (start : NodeId)
    (g h : Graph) (changed : Bool) (events : EventLog) : Prop where
  changed_iff : changed = true ↔ h ≠ g
  silent : changed = false → events = []
  told : ∃ swept removed gone, events = swept ++ removed ∧
    (config.cleanup.sweepUnreachable = true →
      TellsSweep function " unreachable nodes" g swept) ∧
    (config.cleanup.sweepUnreachable = false → swept = []) ∧
    Ascending gone ∧
    (∀ n, (n ∈ gone ↔ g.Eliminated start n) ∧
      (n ∈ gone ↔ g.Reaches start n ∧ h.isLive n = false)) ∧
    List.Forall₂ (TellsRemoval function g) gone removed

/-- What unrolling says after it has worked on `g` and left `h`: whether anything has changed, which
is so if a loop was unrolled; one event for each loop, in the order in which they were found; and
one for a sweep that has taken something away, of which there is none unless a loop was unrolled. -/
structure LoopsReported (config : OptimizerConfig) (function : String) (g h : Graph)
    (changed : Bool) (events : EventLog) : Prop where
  changed_iff : changed = true ↔ h ≠ g
  told : ∃ d report k loops swept, Dominators.compute g = .ok d ∧
    unrollLoops config.unroll g = .ok report h ∧
    unrollEach d config.unroll (LoopForest.detect g d) g = .ok report.loops k ∧
    report.loops.map LoopReport.header = (LoopForest.detect g d).map NaturalLoop.header ∧
    events = loops ++ swept ∧
    List.Forall₂ (TellsLoop function config.unroll) report.loops loops ∧
    (changed = true ↔ ∃ r ∈ report.loops, r.outcome.isUnrolled = true) ∧
    (changed = true → Edit.sweep k = .ok report.swept h ∧
      TellsSweep function " nodes of replaced loops" k swept) ∧
    (changed = false → swept = [] ∧ h = g)

/-- Dead code elimination tells the sweep, if it dropped anything, and then every removal. -/
theorem deadCodePass_reports (hg : g.WellFormed) (hs : g.start = some start)
    (config : OptimizerConfig) (round : Nat) (function : String) (log : EventLog) :
    ∃ changed h events, deadCodePass.run config round function ⟨g, log⟩ =
        .ok changed ⟨h, log ++ events⟩ ∧
      RemovalsReported config function start g h changed events := by
  obtain ⟨removed, h, hok, -, hremoved, hkinds⟩ := eliminateDeadCode_pruned hg hs
  obtain ⟨swept, k, left, hsweep, hround, hparts⟩ :=
    exists_parts_deadCodePass hg hs config hok
  have hcount := count_deadCodePass hg hs hok (hparts.imp And.right And.right)
  have hmem {n : NodeId} := mem_removed_iff (n := n) hg hs hok
    (hparts.imp (fun h => h.2.2) fun h => h.2.2)
  have hnil : sweepEvents function swept ++ removed.map (Removal.event function) = [] ↔
      left = g := by
    refine ⟨eq_of_deadCode_silent hg hs hsweep hround, fun he => ?_⟩
    rw [he] at hcount
    rw [List.append_eq_nil_iff, sweepEvents_eq_nil_iff, List.map_eq_nil_iff]
    exact ⟨by omega, List.eq_nil_of_length_eq_zero (by omega)⟩
  refine ⟨_, left, _, run_deadCodePass hsweep hround, ?_, fun hunchanged => ?_, ?_⟩
  · rw [Bool.not_eq_true', ← Bool.not_eq_true, List.isEmpty_iff, hnil]
  · exact List.isEmpty_iff.mp (Bool.not_inj hunchanged)
  · refine ⟨_, _, removed.map Removal.node, rfl, fun hon => ?_, fun hoff => ?_, ?_,
      fun n => hmem, tellsRemoval function hkinds⟩
    · obtain ⟨-, rfl, -⟩ := hparts.resolve_right fun h => Bool.false_ne_true (h.1.symm.trans hon)
      exact tellsSweep hg hs function _
    · obtain ⟨-, rfl, -⟩ := hparts.resolve_left fun h => Bool.false_ne_true (hoff.symm.trans h.1)
      rfl
    · rw [hremoved]
      exact (List.pairwise_lt_range.filter _).filter _

/-- Unrolling tells every loop that was looked at. -/
theorem unrollPass_reports (hg : g.WellFormed) (hs : g.start = some start)
    (config : OptimizerConfig) (round : Nat) (function : String) (log : EventLog) :
    ∃ changed h events, unrollPass.run config round function ⟨g, log⟩ =
        .ok changed ⟨h, log ++ events⟩ ∧
      LoopsReported config function g h changed events := by
  have hstart : start < g.bound := lt_bound_of_isLive (hg.isLive_start hs)
  obtain ⟨d, report, -, h, hd, hok, -, -, -⟩ := unrollLoops_completes hg hs config.unroll
  obtain ⟨k, heach, hcases⟩ := unrollLoops_cases hd hok
  have hfound := (LoopForest.found_detect hg (Dominators.correct_of_compute hg hs hd)).closed
  have hheaders := headers_unrollEach hg hstart
    (fun l hl => hg.isLive_of_reaches (hg.isLive_start hs) ((hfound l hl).reaches
      (hfound l hl).header_mem)) heach
  have hany : (report.unrolled != 0) = true ↔
      ∃ r ∈ report.loops, r.outcome.isUnrolled = true := by
    rw [bne_iff_ne, UnrollReport.unrolled, ← Nat.pos_iff_ne_zero, List.countP_pos_iff]
  have hloops : List.Forall₂ (TellsLoop function config.unroll) report.loops
      (report.loops.map (UnrollReport.loopEvent function config.unroll)) :=
    List.forall₂_map_right_iff.mpr (List.forall₂_same.mpr fun r _ => tellsLoop ..)
  refine ⟨_, h, _, run_unrollPass hok, ?_, d, report, k, _, _, hd, hok, heach, hheaders, rfl,
    hloops, hany, fun hchanged => ?_, fun hunchanged => ?_⟩
  · rw [hany]
    rcases hcases with ⟨hunrolled, hsweep⟩ | ⟨hno, -, rfl⟩
    · refine iff_of_true hunrolled fun he => ?_
      -- unrolling takes up slots, and a sweep gives none back
      have hlt := bound_lt_of_unrolled hg hstart heach hunrolled
      obtain ⟨-, rfl⟩ := EStateM.Result.ok.inj hsweep
      rw [← he, bound_swept] at hlt
      exact Nat.lt_irrefl _ hlt
    · refine iff_of_false (fun ⟨r, hr, hunrolled⟩ => ?_)
        (not_not.mpr (eq_of_not_unrolled heach hno))
      rw [hno r hr] at hunrolled
      cases hunrolled
  · obtain ⟨-, hsweep⟩ := hcases.resolve_right fun ⟨hno, _, _⟩ => by
      obtain ⟨r, hr, hunrolled⟩ := hany.mp hchanged
      rw [hno r hr] at hunrolled
      cases hunrolled
    have hk := (proper_unrollEach d config.unroll _).wellFormed_of_ok heach hg
    have hks := (stage_unrollEach hg hstart heach).start_eq hg hk hs
    refine ⟨hsweep, ?_⟩
    rw [← (EStateM.Result.ok.inj hsweep).1]
    exact tellsSweep hk hks function _
  · obtain ⟨hno, hzero, rfl⟩ := hcases.resolve_left fun ⟨hunrolled, _⟩ => by
      rw [hany.mpr hunrolled] at hunchanged
      cases hunchanged
    exact ⟨if_pos hzero, eq_of_not_unrolled heach hno⟩

/-- On a built graph with a start, whatever the configuration, the round and the log, both passes
say that something has changed exactly if the graph that they leave is not the one that they were
given, and record just what they have done. -/
theorem passes_report_changes (hg : Built g) (hs : g.start = some start)
    (config : OptimizerConfig) (round : Nat) (function : String) (log : EventLog) :
    (∃ changed h events, deadCodePass.run config round function ⟨g, log⟩ =
        .ok changed ⟨h, log ++ events⟩ ∧
      RemovalsReported config function start g h changed events) ∧
    ∃ changed h events, unrollPass.run config round function ⟨g, log⟩ =
        .ok changed ⟨h, log ++ events⟩ ∧
      LoopsReported config function g h changed events :=
  ⟨deadCodePass_reports hg.wellFormed hs config round function log,
    unrollPass_reports hg.wellFormed hs config round function log⟩

/-- The node that nothing leads to is swept and the dead assignment removed; both loops of a nest
are unrolled, and what is left of the inner one is swept. -/
theorem passes_report_changes_readOutside :
    Built readOutside ∧ readOutside.start = some 3 ∧ Built innerBeside ∧
      innerBeside.start = some 9 ∧
      (∃ h, deadCodePass.run .standard 0 "f" ⟨readOutside, []⟩ = .ok true ⟨h,
          [⟨.nodesSwept, some "f", none, "1 unreachable nodes"⟩,
            ⟨.instructionRemoved, some "f", some 1, "x = 1"⟩]⟩ ∧ h ≠ readOutside) ∧
      ∃ h, unrollPass.run .standard 0 "f" ⟨innerBeside, []⟩ = .ok true ⟨h,
          [⟨.loopUnrolled, some "f", some 5, "2 nodes x5 (new header n25)"⟩,
            ⟨.loopUnrolled, some "f", some 8, "6 nodes x5 (new header n65)"⟩,
            ⟨.nodesSwept, some "f", none, "2 nodes of replaced loops"⟩]⟩ ∧ h ≠ innerBeside := by
  have hg : Built readOutside :=
    .tail (.tail (.tail (.single (.addReturn _)) (.addAssign _ _ _ _)) (.addAssign _ _ _ _))
      (.addStart _ _)
  have hs : readOutside.start = some 3 := by decide +kernel
  have hs' : innerBeside.start = some 9 := by decide +kernel
  obtain ⟨changed, h, events, hrun, hremoved⟩ :=
    (passes_report_changes hg hs .standard 0 "f" []).1
  obtain ⟨changed', h', events', hrun', hloops⟩ :=
    (passes_report_changes built_innerBeside hs' .standard 0 "f" []).2
  have hsaid : (deadCodePass.effect .standard "f" readOutside).value = true ∧
      (deadCodePass.effect .standard "f" readOutside).events =
        [⟨.nodesSwept, some "f", none, "1 unreachable nodes"⟩,
          ⟨.instructionRemoved, some "f", some 1, "x = 1"⟩] := by decide +kernel
  have hsaid' : (unrollPass.effect .standard "f" innerBeside).value = true ∧
      (unrollPass.effect .standard "f" innerBeside).events =
        [⟨.loopUnrolled, some "f", some 5, "2 nodes x5 (new header n25)"⟩,
          ⟨.loopUnrolled, some "f", some 8, "6 nodes x5 (new header n65)"⟩,
          ⟨.nodesSwept, some "f", none, "2 nodes of replaced loops"⟩] := by decide +kernel
  have heffect := hrun.symm.trans
    ((local_deadCodePass .standard).run_eq ⟨hg.wellFormed, 3, hs⟩ rfl 0 [])
  have heffect' := hrun'.symm.trans
    ((local_unrollPass .standard).run_eq ⟨built_innerBeside.wellFormed, 9, hs'⟩ rfl 0 [])
  rw [hsaid.1, hsaid.2] at heffect
  rw [hsaid'.1, hsaid'.2] at heffect'
  cases heffect
  cases heffect'
  exact ⟨hg, hs, built_innerBeside, hs', ⟨_, hrun, hremoved.changed_iff.mp rfl⟩, _, hrun',
    hloops.changed_iff.mp rfl⟩

end Flowgraph

import Flowgraph.Proofs.NaturalLoops
import Flowgraph.Proofs.Unroll.Behaviour
import Flowgraph.Proofs.Unroll.Reachability
import Flowgraph.Unroll.Report

/-!
# Unrolling one loop after the other

The loops of a graph are found once, and each is unrolled in the graph that those before it have
left, with a body that is collected anew.  As long as none of the loops unrolled so far has its
header in some loop, that loop is as it was found: its body is collected as it was, and nothing
leads into it past its header.  So it is gone when it has been replaced.

* `Stage`, `stage_unrollEach`: what stays true of the old nodes all along.
* `Intact`, `intact_unrollEach`: a loop that contains no header unrolled so far is as it was.
* `Intact.mem_currentBody_iff`: its body is what it was.
* `replaced_loops_gone`: it is gone in the end, if it has been replaced.
-/

namespace Flowgraph

open Flowgraph.Graph

/-! ### What stays true of the old nodes -/

/-- While loops are unrolled, old nodes keep their kinds, no edge is added between them, and none of
them is reached that was not reached before. -/
structure Stage (g k : Graph) (start : NodeId) : Prop where
  bound_le : g.bound ≤ k.bound
  kind_eq : ∀ {n}, n < g.bound → k.kind? n = g.kind? n
  edges : ∀ {m n}, m < g.bound → n < g.bound → n ∈ k.succs m → n ∈ g.succs m
  reaches : ∀ {n}, n < g.bound → k.Reaches start n → g.Reaches start n

/-- A loop is as it was in `g`: the edges into its body are there, and what has been added leads
into it only at the header. -/
structure Intact (g k : Graph) (start : NodeId) (l : NaturalLoop) : Prop where
  kept : ∀ {m n}, n ∈ l.body → n ∈ g.succs m → n ∈ k.succs m
  entered : ∀ {m n}, k.Reaches start m → g.bound ≤ m → n ∈ k.succs m → n ∈ l.body → n = l.header

variable {g k h : Graph} {body : List NodeId} {header entry exit newHeader chain epilogue : NodeId}
  {start n : NodeId} {factor : Nat} {test : Expr} {rest : NodeId → NodeId} {d : Dominators}
  {l l' : NaturalLoop} {config : UnrollConfig} {found : Option LoopReport}
  {reports : List LoopReport}

namespace Stage

theorem refl (g : Graph) (start : NodeId) : Stage g g start :=
  ⟨Nat.le_refl _, fun _ => rfl, fun _ _ => id, fun _ => id⟩

/-- Two stages make one. -/
theorem trans (hgk : Stage g k start) (hkh : Stage k h start) : Stage g h start where
  bound_le := Nat.le_trans hgk.bound_le hkh.bound_le
  kind_eq hn := (hkh.kind_eq (Nat.lt_of_lt_of_le hn hgk.bound_le)).trans (hgk.kind_eq hn)
  edges hm hn hs := hgk.edges hm hn
    (hkh.edges (Nat.lt_of_lt_of_le hm hgk.bound_le) (Nat.lt_of_lt_of_le hn hgk.bound_le) hs)
  reaches hn hr := hgk.reaches hn (hkh.reaches (Nat.lt_of_lt_of_le hn hgk.bound_le) hr)

/-- No node is taken away. -/
theorem isLive (hst : Stage g k start) (hn : g.isLive n = true) : k.isLive n = true := by
  rwa [isLive_iff_kind?, hst.kind_eq (lt_bound_of_isLive hn), ← isLive_iff_kind?]

/-- Replacing a loop is such a step. -/
theorem of_replaced
    (hr : Replaced g h body header entry exit factor test newHeader chain epilogue rest)
    (hstart : start < g.bound) : Stage g h start where
  bound_le :=
    Nat.le_trans hr.bound_le_newHeader (Nat.le_of_lt (lt_bound_of_kind? hr.layout.kind_new))
  kind_eq := hr.layout.kind_old
  edges := hr.mem_succs_old
  reaches hn hreach := hr.reaches_of_reaches hstart hreach hn

/-- The start stays the start. -/
theorem start_eq (hst : Stage g k start) (hg : g.WellFormed) (hk : k.WellFormed)
    (hs : g.start = some start) : k.start = some start := by
  rw [hk.start_iff, hst.kind_eq (lt_bound_of_isLive (hg.isLive_start hs))]
  exact hg.start_iff.mp hs

end Stage

/-! ### One loop -/

/-- A loop that is unrolled has been replaced. -/
theorem replaced_of_ok (hg : g.WellFormed) (hheader : header ∈ body)
    (hok : unrollLoop header body config g = .ok (.unrolled newHeader) h) :
    ∃ entry exit factor test chain epilogue rest,
      Replaced g h body header entry exit factor test newHeader chain epilogue rest := by
  obtain ⟨guard, v, chain, epilogue, rest, -, hanalyzed, hentry, hlayout⟩ :=
    layout_of_ok hg hheader hok
  exact ⟨_, _, _, _, chain, epilogue, rest, hg.toLinked, hentry, hanalyzed.succs_header, hheader,
    hanalyzed.exit_not_mem, hlayout⟩

/-- What is done about a loop that was found: nothing, or it is unrolled with its present body. -/
theorem unrollFound_cases (hok : unrollFound d config l g = .ok found h) :
    ((∀ q ∈ found, q.header = l.header ∧ q.outcome.isUnrolled = false) ∧ h = g) ∨
      ∃ newHeader, found = some ⟨l.header, (currentBody g d l).length, .unrolled newHeader⟩ ∧
        unrollLoop l.header (currentBody g d l) config g = .ok (.unrolled newHeader) h := by
  rw [unrollFound, Edit.bind_ok (Edit.get_apply g)] at hok
  split at hok
  · obtain ⟨outcome, m, hloop, hok⟩ := Edit.bind_eq_ok.mp hok
    cases hok
    rcases unrollLoop_cases hloop with ⟨hno, rfl⟩ | ⟨guard, newHeader, rfl, -⟩
    · refine .inl ⟨fun q hq => ?_, rfl⟩
      rw [← Option.some.inj hq]
      exact ⟨rfl, hno⟩
    · exact .inr ⟨newHeader, rfl, hloop⟩
  · cases hok
    exact .inl ⟨nofun, rfl⟩

/-- A loop that is reported as unrolled has been, with its present body. -/
theorem unrolled_of_report {r : LoopReport} (hok : unrollFound d config l g = .ok (some r) h)
    (hr : r.outcome = .unrolled newHeader) :
    r.header = l.header ∧
      unrollLoop l.header (currentBody g d l) config g = .ok (.unrolled newHeader) h := by
  rcases unrollFound_cases hok with ⟨hno, -⟩ | ⟨nh, he, hloop⟩
  · have hskipped := (hno r rfl).2
    rw [hr] at hskipped
    cases hskipped
  · cases he
    cases hr
    exact ⟨rfl, hloop⟩

theorem header_mem_currentBody : l.header ∈ currentBody g d l := header_mem_loopBody

/-- To look at one loop is a stage. -/
theorem stage_unrollFound (hg : g.WellFormed) (hstart : start < g.bound)
    (hok : unrollFound d config l g = .ok found h) : Stage g h start := by
  rcases unrollFound_cases hok with ⟨-, rfl⟩ | ⟨newHeader, -, hloop⟩
  · exact .refl ..
  · obtain ⟨_, _, _, _, _, _, _, hr⟩ := replaced_of_ok hg header_mem_currentBody hloop
    exact .of_replaced hr hstart

/-- The first loop is looked at before the others. -/
theorem unrollEach_cons_ok {f : LoopForest} :
    unrollEach d config (l :: f) g = .ok reports h ↔
      ∃ q k qs, unrollFound d config l g = .ok q k ∧ unrollEach d config f k = .ok qs h ∧
        reports = q.toList ++ qs := by
  rw [unrollEach, Edit.bind_eq_ok]
  constructor
  · rintro ⟨q, k, hfound, hok⟩
    obtain ⟨qs, _, heach, hok⟩ := Edit.bind_eq_ok.mp hok
    cases hok
    exact ⟨q, k, qs, hfound, heach, rfl⟩
  · rintro ⟨q, k, qs, hfound, heach, rfl⟩
    exact ⟨q, k, hfound, Edit.bind_eq_ok.mpr ⟨qs, h, heach, rfl⟩⟩

/-- To look at all of them is a stage. -/
theorem stage_unrollEach {f : LoopForest} (hg : g.WellFormed) (hstart : start < g.bound)
    (hok : unrollEach d config f g = .ok reports h) : Stage g h start := by
  induction f generalizing g reports with
  | nil => cases hok; exact .refl ..
  | cons l rest ih =>
      obtain ⟨q, k, qs, hfound, heach, rfl⟩ := unrollEach_cons_ok.mp hok
      have hstage := stage_unrollFound hg hstart hfound
      have hk := (proper_unrollFound d config l).wellFormed_of_ok hfound hg
      exact hstage.trans (ih hk (Nat.lt_of_lt_of_le hstart hstage.bound_le) heach)

/-! ### The body as it is collected anew -/

/-- The body is found anew from the latches that still lead to the header. -/
theorem mem_currentBody (hk : k.Linked) :
    n ∈ currentBody k d l ↔ n = l.header ∨
      ∃ t, (t ∈ l.latches ∧ l.header ∈ k.succs t) ∧ t ≠ l.header ∧ LeadsTo k d l.header n t := by
  have hmem {t : NodeId} : t ∈ l.latches.filter (fun t => (k.succs t).contains l.header) ↔
      t ∈ l.latches ∧ l.header ∈ k.succs t := by
    rw [List.mem_filter, List.contains_iff_mem]
  rw [currentBody, mem_loopBody hk fun t ht => isLive_of_mem_succs (hmem.mp ht).2]
  simp only [hmem]

section Loops

variable (hg : g.WellFormed) (hs : g.start = some start) (hd : d.Correct g start)

include hg hs in
theorem lt_bound_of_reaches (hn : g.Reaches start n) : n < g.bound :=
  lt_bound_of_isLive (hg.isLive_of_reaches (hg.isLive_start hs) hn)

include hg hs hd

/-- It has no node that was not in the loop when it was found. -/
theorem mem_body_of_mem_currentBody (hst : Stage g k start) (hk : k.Linked) (hl : l.Closed g start)
    (hn : n ∈ currentBody k d l) : n ∈ l.body := by
  rcases (mem_currentBody hk).mp hn with rfl | ⟨t, ⟨ht, -⟩, htne, hlead⟩
  · exact hl.header_mem
  · -- from the latch backwards, over nodes that were reached when the loop was found
    suffices n ∈ l.body ∧ n ≠ l.header from this.1
    clear hn
    induction hlead using Relation.ReflTransGen.head_induction_on with
    | refl => exact ⟨hl.latch_mem ht, htne⟩
    | @head a b hstep _ ih =>
        obtain ⟨hsucc, hne, hreach⟩ := hstep
        have ha := hd.isReachable_iff.mp hreach
        have hedge := hst.edges (lt_bound_of_reaches hg hs ha)
          (lt_bound_of_reaches hg hs (hl.reaches ih.1)) hsucc
        exact ⟨hl.mem_of_succ ha hedge ih.1 ih.2, hne⟩

/-! ### Loops that are as they were -/

namespace Intact

omit hg hs hd in
theorem refl (g : Graph) (start : NodeId) (l : NaturalLoop) : Intact g g start l where
  kept _ := id
  entered _ hnew hs _ :=
    absurd hnew (Nat.not_le.mpr (lt_bound_of_isLive (isLive_of_mem_succs hs)))

/-- A loop that is as it was has the body that it had. -/
theorem mem_currentBody_iff (hin : Intact g k start l) (hst : Stage g k start) (hk : k.Linked)
    (hl : l.Closed g start) : n ∈ currentBody k d l ↔ n ∈ l.body := by
  refine ⟨mem_body_of_mem_currentBody hg hs hd hst hk hl, fun hn => ?_⟩
  refine (mem_currentBody hk).mpr (or_iff_not_imp_left.mpr fun hne => ?_)
  obtain ⟨t, ht, htne, hinner⟩ := hl.to_latch hn hne
  refine ⟨t, ⟨ht, hin.kept hl.header_mem (hl.mem_latches.mp ht).1⟩, htne, ?_⟩
  induction hinner using Relation.ReflTransGen.head_induction_on with
  | refl => exact .refl
  | @head a b hstep _ ih =>
      obtain ⟨hsucc, hb, hbne⟩ := hstep
      exact .head ⟨hin.kept hb hsucc, hne, hd.isReachable_iff.mpr (hl.reaches hn)⟩ (ih hb hbne)

omit hd in
/-- Nothing leads into it past its header. -/
theorem mem_of_succ (hin : Intact g k start l) (hst : Stage g k start) (hl : l.Closed g start)
    {m : NodeId} (hm : k.Reaches start m) (hsucc : n ∈ k.succs m) (hn : n ∈ l.body)
    (hne : n ≠ l.header) : m ∈ l.body := by
  have hlt := lt_bound_of_reaches hg hs (hl.reaches hn)
  by_cases hold : m < g.bound
  · exact hl.mem_of_succ (hst.reaches hold hm) (hst.edges hold hlt hsucc) hn hne
  · exact absurd (hin.entered hm (Nat.le_of_not_lt hold) hsucc hn) hne

omit hd in
/-- It stays as it was when a part of another loop is replaced, if neither has the header of the
other. -/
theorem of_replaced (hin : Intact g k start l) (hst : Stage g k start) (hl : l.Closed g start)
    (hl' : l'.Closed g start)
    (hr : Replaced k h body l'.header entry exit factor test newHeader chain epilogue rest)
    (hbody : ∀ n ∈ body, n ∈ l'.body) (hapart : l.header ∉ l'.body) (hno : l'.header ∉ l.body) :
    Intact g h start l := by
  have hold {n : NodeId} (hn : g.Reaches start n) : n < g.bound := lt_bound_of_reaches hg hs hn
  have hstart : start < k.bound := Nat.lt_of_lt_of_le (hold .refl) hst.bound_le
  constructor
  case kept =>
    intro m n hn hsucc
    have hkept := hin.kept hn hsucc
    have hlt := lt_bound_of_isLive (isLive_of_mem_succs hkept)
    by_cases hb : m ∈ body
    · rwa [hr.layout.succs_old hlt, if_pos hb]
    · -- only edges to the header of the other loop are moved, and this one leads into the body
      exact (hr.mem_succs_iff hlt hb).mpr (.inr ⟨fun e => hno (e ▸ hn), hkept⟩)
  case entered =>
    intro m n hm hnew hsucc hn
    have hlt := hold (hl.reaches hn)
    have hltk := Nat.lt_of_lt_of_le hlt hst.bound_le
    by_cases hmk : m < k.bound
    · exact hin.entered (hr.reaches_of_reaches hstart hm hmk) hnew
        (hr.mem_succs_old hmk hltk hsucc) hn
    · -- a new node leads where a node of the other loop led, which was not in this one
      obtain ⟨-, x, hx, hxs⟩ := hr.exit_of_new hstart hm (Nat.le_of_not_lt hmk) hsucc hltk
      have hx' := hbody x hx
      have hreach := hl'.reaches hx'
      by_contra hne
      have hmem := hl.mem_of_succ hreach (hst.edges (hold hreach) hlt hxs) hn hne
      exact (hl.header_mem_or hl' hmem hx').elim hapart hno

end Intact

/-- A loop is as it was after others have been dealt with, none of which has its header, and none of
whose headers it has if they have been unrolled. -/
theorem intact_unrollEach {f : LoopForest} (hl : l.Closed g start)
    (hf : ∀ l' ∈ f, l'.Closed g start ∧ l.header ∉ l'.body) (hst : Stage g k start)
    (hin : Intact g k start l) (hk : k.WellFormed)
    (hok : unrollEach d config f k = .ok reports h)
    (hno : ∀ q ∈ reports, q.outcome.isUnrolled = true → q.header ∉ l.body) :
    Intact g h start l := by
  induction f generalizing k reports with
  | nil => cases hok; exact hin
  | cons l' rest ih =>
      obtain ⟨q, m, qs, hfound, heach, rfl⟩ := unrollEach_cons_ok.mp hok
      obtain ⟨⟨hl', hapart⟩, hf⟩ := List.forall_mem_cons.mp hf
      have hstart : start < k.bound :=
        Nat.lt_of_lt_of_le (lt_bound_of_reaches hg hs .refl) hst.bound_le
      have hm := (proper_unrollFound d config l').wellFormed_of_ok hfound hk
      have hstage := hst.trans (stage_unrollFound hk hstart hfound)
      refine ih hf hstage ?_ hm heach fun q hq => hno q (List.mem_append_right _ hq)
      rcases unrollFound_cases hfound with ⟨-, rfl⟩ | ⟨nh, rfl, hloop⟩
      · exact hin
      · obtain ⟨_, _, _, _, _, _, _, hr⟩ := replaced_of_ok hk header_mem_currentBody hloop
        refine hin.of_replaced hg hs hst hl hl' hr ?_ hapart (hno _ List.mem_cons_self rfl)
        exact fun n hn => mem_body_of_mem_currentBody hg hs hd hst hk.toLinked hl' hn

/-- A loop that is as it was is not reached any more when it has been replaced. -/
theorem not_reaches_of_unrolled (hl : l.Closed g start) (hout : start ∉ l.body)
    (hst : Stage g k start) (hin : Intact g k start l) (hk : k.WellFormed)
    (hok : unrollLoop l.header (currentBody k d l) config k = .ok (.unrolled newHeader) h)
    (hn : n ∈ l.body) : ¬h.Reaches start n := by
  obtain ⟨_, _, _, _, _, _, _, hr⟩ := replaced_of_ok hk header_mem_currentBody hok
  have hbody {n : NodeId} : n ∈ currentBody k d l ↔ n ∈ l.body :=
    hin.mem_currentBody_iff hg hs hd hst hk.toLinked hl
  have hlt {n : NodeId} (hn : g.Reaches start n) : n < k.bound :=
    Nat.lt_of_lt_of_le (lt_bound_of_reaches hg hs hn) hst.bound_le
  refine hr.not_reaches_body (hlt .refl) (mt hbody.mp hout)
    (fun n hn => hlt (hl.reaches (hbody.mp hn))) (fun {m n} hm hsucc hn hne => ?_) (hbody.mpr hn)
  exact hbody.mpr (hin.mem_of_succ hg hs hst hl hm hsucc (hbody.mp hn) hne)

end Loops

/-! ### All loops -/

/-- The turn of the loop that a report is about. -/
theorem unrollEach_of_report {f : LoopForest} {before after : List LoopReport} {r : LoopReport}
    (hok : unrollEach d config f g = .ok (before ++ r :: after) h) :
    ∃ earlier l later k k', f = earlier ++ l :: later ∧
      unrollEach d config earlier g = .ok before k ∧ unrollFound d config l k = .ok (some r) k' ∧
      unrollEach d config later k' = .ok after h := by
  induction f generalizing g before with
  | nil => simp [unrollEach, Edit.pure_apply] at hok
  | cons l rest ih =>
      obtain ⟨q, m, qs, hfound, heach, he⟩ := unrollEach_cons_ok.mp hok
      cases q with
      | none =>
          obtain rfl : before ++ r :: after = qs := he
          obtain ⟨earlier, l', later, k, k', rfl, hbefore, hl', hafter⟩ := ih heach
          exact ⟨l :: earlier, l', later, k, k', rfl,
            unrollEach_cons_ok.mpr ⟨none, m, before, hfound, hbefore, rfl⟩, hl', hafter⟩
      | some q =>
          cases before with
          | nil =>
              obtain ⟨rfl, rfl⟩ := List.cons.inj he
              exact ⟨[], l, rest, g, m, rfl, rfl, hfound, heach⟩
          | cons b before =>
              obtain ⟨rfl, rfl⟩ := List.cons.inj he
              obtain ⟨earlier, l', later, k, k', rfl, hbefore, hl', hafter⟩ := ih heach
              exact ⟨l :: earlier, l', later, k, k', rfl,
                unrollEach_cons_ok.mpr ⟨some b, m, before, hfound, hbefore, rfl⟩, hl', hafter⟩

/-- Unrolling all loops takes those that are found in turn.  If any has been replaced, a sweep ends
it. -/
theorem unrollLoops_cases {report : UnrollReport} (hd : Dominators.compute g = .ok d)
    (hok : unrollLoops config g = .ok report h) :
    ∃ k, unrollEach d config (LoopForest.detect g d) g = .ok report.loops k ∧
      ((∃ r ∈ report.loops, r.outcome.isUnrolled = true) ∧ Edit.sweep k = .ok report.swept h ∨
        (∀ r ∈ report.loops, r.outcome.isUnrolled = false) ∧ report.swept = 0 ∧ h = k) := by
  rw [unrollLoops, Edit.bind_ok (Edit.get_apply g), hd] at hok
  obtain ⟨loops, k, heach, hok⟩ := Edit.bind_eq_ok.mp hok
  split at hok
  · next hany =>
      obtain ⟨_, _, hsweep, hok⟩ := Edit.bind_eq_ok.mp hok
      cases hok
      exact ⟨k, heach, .inl ⟨List.any_eq_true.mp hany, hsweep⟩⟩
  · next hany =>
      cases hok
      exact ⟨_, heach, .inr ⟨by simpa using hany, rfl, rfl⟩⟩

/-- All loops are looked at, and what they leave is swept if one was unrolled. -/
theorem unrollLoops_ok {report : UnrollReport} (hd : Dominators.compute g = .ok d)
    (hok : unrollLoops config g = .ok report h) :
    ∃ k, unrollEach d config (LoopForest.detect g d) g = .ok report.loops k ∧
      ((∃ r ∈ report.loops, r.outcome.isUnrolled = true) → h = k.swept) := by
  obtain ⟨k, heach, ⟨-, hsweep⟩ | ⟨hno, -, -⟩⟩ := unrollLoops_cases hd hok
  · obtain ⟨-, rfl⟩ := EStateM.Result.ok.inj hsweep
    exact ⟨k, heach, fun _ => rfl⟩
  · refine ⟨k, heach, fun ⟨r, hr, hunrolled⟩ => ?_⟩
    rw [hno r hr] at hunrolled
    cases hunrolled

/-- What the start leads to after all turns does not include a loop that was as it was at its turn
and has been replaced then. -/
theorem not_reaches_of_turn {earlier later : LoopForest} {before after : List LoopReport}
    {k' : Graph} (hg : g.WellFormed) (hs : g.start = some start) (hd : d.Correct g start)
    (hf : LoopForest.Found g start (earlier ++ l :: later)) (hout : start ∉ l.body)
    (hbefore : unrollEach d config earlier g = .ok before k)
    (hturn : unrollLoop l.header (currentBody k d l) config k = .ok (.unrolled newHeader) k')
    (hafter : unrollEach d config later k' = .ok after h)
    (hno : ∀ q ∈ before, q.outcome.isUnrolled = true → q.header ∉ l.body) (hn : n ∈ l.body) :
    h.WellFormed ∧ h.start = some start ∧ ¬h.Reaches start n := by
  have hl : l.Closed g start := hf.closed l (List.mem_append_right _ List.mem_cons_self)
  have hlt {n : NodeId} (hn : g.Reaches start n) : n < g.bound := lt_bound_of_reaches hg hs hn
  have hst := stage_unrollEach hg (hlt .refl) hbefore
  have hk := (proper_unrollEach d config earlier).wellFormed_of_ok hbefore hg
  have hin : Intact g k start l := by
    refine intact_unrollEach hg hs hd hl (fun l' hl' => ?_) (.refl g start) (.refl g start l) hg
      hbefore hno
    exact ⟨hf.closed l' (List.mem_append_left _ hl'),
      (List.pairwise_append.mp hf.apart).2.2 l' hl' l List.mem_cons_self⟩
  have hgone := not_reaches_of_unrolled hg hs hd hl hout hst hin hk hturn hn
  -- what is left of it is not reached again
  obtain ⟨_, _, _, _, _, _, _, hr⟩ := replaced_of_ok hk header_mem_currentBody hturn
  have hst' := hst.trans (.of_replaced hr (Nat.lt_of_lt_of_le (hlt .refl) hst.bound_le))
  have hk' := (proper_unrollLoop _ _ _).wellFormed_of_ok hturn hk
  have hlater := stage_unrollEach hk' (Nat.lt_of_lt_of_le (hlt .refl) hst'.bound_le) hafter
  have hh := (proper_unrollEach d config later).wellFormed_of_ok hafter hk'
  exact ⟨hh, (hst'.trans hlater).start_eq hg hh hs, fun hreach => hgone
    (hlater.reaches (Nat.lt_of_lt_of_le (hlt (hl.reaches hn)) hst'.bound_le) hreach)⟩

/-- Take a graph that passes its audit, and a loop that is replaced when all its loops are unrolled.
If no loop unrolled before it has its header in the body, as the body was found, then all of the
body is gone in the end, and with it the header. -/
theorem replaced_loops_gone {report : UnrollReport} (hg : Built g) (hv : g.verify = .ok ())
    (hok : unrollLoops config g = .ok report h) :
    ∃ d, Dominators.compute g = .ok d ∧
      ∀ before r after newHeader, report.loops = before ++ r :: after →
        r.outcome = .unrolled newHeader →
        ∃ l ∈ LoopForest.detect g d, l.header = r.header ∧
          ((∀ q ∈ before, q.outcome.isUnrolled = true → q.header ∉ l.body) →
            h.isLive r.header = false ∧ ∀ n ∈ l.body, h.isLive n = false) := by
  have hw := hg.wellFormed
  obtain ⟨start, hs, hpreds, -⟩ := hw.verify_eq_ok_iff.mp hv
  obtain ⟨d, hd, -⟩ := Dominators.compute_spec hw hs
  have hcorrect := Dominators.correct_of_compute hw hs hd
  refine ⟨d, hd, fun before r after newHeader hreport hr => ?_⟩
  obtain ⟨k, heach, hswept⟩ := unrollLoops_ok hd hok
  rw [hreport] at heach
  obtain ⟨earlier, l, later, k₁, k₂, hf, hbefore, hturn, hafter⟩ := unrollEach_of_report heach
  obtain ⟨hheader, hloop⟩ := unrolled_of_report hturn hr
  have hfound := LoopForest.found_detect hw hcorrect
  rw [hf] at hfound ⊢
  have hmem : l ∈ earlier ++ l :: later := List.mem_append_right _ List.mem_cons_self
  have hl := hfound.closed l hmem
  refine ⟨l, hmem, hheader.symm, fun hno => ?_⟩
  have hall n (hn : n ∈ l.body) : h.isLive n = false := by
    obtain ⟨hk, hsk, hgone⟩ := not_reaches_of_turn hw hs hcorrect hfound
      (hl.start_not_mem hw.toLinked hpreds) hbefore hloop hafter hno hn
    rw [hswept ⟨r, hreport ▸ List.mem_append_right _ List.mem_cons_self, by rw [hr]; rfl⟩]
    exact Bool.eq_false_iff.mpr (mt (hk.isLive_swept_iff hsk).mp hgone)
  exact ⟨hheader ▸ hall _ hl.header_mem, hall⟩

/-! ### A loop with a way around its inner loop -/

/-- While `i` is below `n`, a branch on `c` goes to the end of the body or to an inner loop in front
of it, in which `j` runs from 0 to `m`. -/
def innerBeside : Graph :=
  after (Edit.addStart 8) (after (Edit.substituteStub 1 8)
    (after (Edit.addBranch (.binop .lt (.temp "i") (.temp "n")) 7 0)
      (after (Edit.addAssign "j" (.const 0) 6) (after (Edit.addBranch (.temp "c") 2 5)
        (after (Edit.substituteStub 3 5)
          (after (Edit.addBranch (.binop .lt (.temp "j") (.temp "m")) 4 2)
            (after (Edit.addAssign "j" (.binop .add (.temp "j") (.const 1)) 3) (after Edit.addStub
              (after (Edit.addAssign "i" (.binop .add (.temp "i") (.const 1)) 1)
                (after Edit.addStub (after Edit.addReturn .empty)))))))))))

theorem built_innerBeside : Built innerBeside :=
  .tail (.tail (.tail (.tail (.tail (.tail (.tail (.tail (.tail (.tail (.tail
    (.single (.addReturn _)) (.addStub _)) (.addAssign _ _ _ _)) (.addStub _))
    (.addAssign _ _ _ _)) (.addBranch _ _ _ _)) (.substituteStub _ _ _)) (.addBranch _ _ _ _))
    (.addAssign _ _ _ _)) (.addBranch _ _ _ _)) (.substituteStub _ _ _)) (.addStart _ _)

/-- Both loops are replaced, the inner one first. -/
theorem unrollLoops_innerBeside :
    ∃ swept h, unrollLoops (.withFactor 2 20) innerBeside =
        .ok ⟨[⟨5, 2, .unrolled 19⟩, ⟨8, 6, .unrolled 41⟩], swept⟩ h ∧ h.isLive 8 = true := by
  have hunrolled : (match unrollLoops (.withFactor 2 20) innerBeside with
      | .ok ⟨loops, _⟩ h =>
          decide (loops = [⟨5, 2, .unrolled 19⟩, ⟨8, 6, .unrolled 41⟩] ∧ h.isLive 8 = true)
      | .error _ _ => false) = true := by decide +kernel
  split at hunrolled
  case h_1 loops swept h hok =>
    obtain ⟨rfl, hlive⟩ := of_decide_eq_true hunrolled
    exact ⟨swept, h, hok, hlive⟩
  case h_2 => cases hunrolled

/-- The inner loop is gone. -/
theorem replaced_loops_gone_innerBeside :
    Built innerBeside ∧ innerBeside.verify = .ok () ∧
      ∃ report h, unrollLoops (.withFactor 2 20) innerBeside = .ok report h ∧
        h.isLive 5 = false := by
  have hv : innerBeside.verify = .ok () := by decide +kernel
  obtain ⟨swept, h, hok, -⟩ := unrollLoops_innerBeside
  obtain ⟨d, -, hgone⟩ := replaced_loops_gone built_innerBeside hv hok
  obtain ⟨l, -, -, hl⟩ := hgone [] ⟨5, 2, .unrolled 19⟩ [⟨8, 6, .unrolled 41⟩] 19 rfl rfl
  exact ⟨built_innerBeside, hv, _, h, hok, (hl nofun).1⟩

/-- The outer one stays, although it has been replaced: the new inner loop is no part of the body
any more, and leads to the old latch. -/
theorem innerBeside_header_stays :
    Built innerBeside ∧ innerBeside.verify = .ok () ∧
      ∃ report h, unrollLoops (.withFactor 2 20) innerBeside = .ok report h ∧
        ⟨8, 6, .unrolled 41⟩ ∈ report.loops ∧ h.isLive 8 = true := by
  have hv : innerBeside.verify = .ok () := by decide +kernel
  obtain ⟨swept, h, hok, hlive⟩ := unrollLoops_innerBeside
  exact ⟨built_innerBeside, hv, _, h, hok, List.mem_cons_of_mem _ List.mem_cons_self, hlive⟩

end Flowgraph

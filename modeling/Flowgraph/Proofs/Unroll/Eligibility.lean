import Flowgraph.Proofs.Unroll.Sequence
import Flowgraph.Proofs.Unroll.Trips

/-!
# Which loops are unrolled

A loop is judged when its turn comes, on its body as it is collected then.  Unrolling other loops
before takes away no edges but those to their headers.  So whatever leads back to the header of the
loop around all those headers is still collected; the rest of the body may be missing, and is then
not looked at.

* `Qualifies`: what is asked of a loop before it is unrolled.
* `qualifies_of_analyze`: a loop with a guard qualifies on the nodes that it is judged on.
* `mem_succs_unrollEach`: which edges stay while loops are unrolled.
* `mem_currentBody_of_passage`: which nodes of a loop are still collected.
* `unrolled_loops_qualify`: on which nodes the loops that are unrolled qualify.
-/

namespace Flowgraph

open Flowgraph.Graph Guard

/-- What is asked of a loop before it is unrolled, judged on these nodes: there are not too many of
them, exactly one of them writes the variable that the header tests, and none of them writes a
temporary that the bound reads. -/
structure Qualifies (g : Graph) (config : UnrollConfig) (header : NodeId) (nodes : List NodeId) :
    Prop where
  length_le : nodes.length ≤ config.maxBodySize
  guarded : ∃ op name bound, g.kind? header = some (.branch (.binop op (.temp name) bound)) ∧
    (∃ n ∈ nodes, name ∈ g.defs n ∧ ∀ m ∈ nodes, name ∈ g.defs m → m = n) ∧
    ∀ n ∈ nodes, ∀ x ∈ bound.uses, x ∉ g.defs n

variable {g k h : Graph} {body ns : List NodeId} {header start m n s : NodeId} {d : Dominators}
  {l : NaturalLoop} {guard : Guard} {config : UnrollConfig} {found : Option LoopReport}
  {r : LoopReport} {reports : List LoopReport} {f : LoopForest}

/-! ### What is asked of a loop -/

/-- A guard is found only for a body within the limit. -/
theorem length_le_of_analyze (h : Guard.analyze g header body config = .ok guard) :
    body.length ≤ config.maxBodySize := by
  by_contra hsize
  have hlt := Nat.lt_of_not_le hsize
  rw [Guard.analyze] at h
  by_cases hf : config.factor = 0
  · rw [if_pos hf] at h; cases h
  · rw [if_neg hf, if_pos hlt] at h; cases h

/-- An invariant expression reads nothing that is written. -/
theorem not_mem_of_isInvariant {e : Expr} {defined : List String} {x : String}
    (he : e.isInvariant defined = true) (hx : x ∈ e.uses) : x ∉ defined := by
  induction e with
  | const | global => cases hx
  | temp y =>
      rw [List.mem_singleton.mp hx]
      simpa [Expr.isInvariant] using he
  | mem a => cases he
  | binop op left right ihl ihr =>
      obtain ⟨hl, hr⟩ := Bool.and_eq_true_iff.mp he
      exact (Ascending.mem_union.mp hx).elim (ihl hl) (ihr hr)

/-- A loop with a guard qualifies on the nodes that it is judged on, in every graph where they do
the same. -/
theorem qualifies_of_analyze (ha : Guard.analyze k header body config = .ok guard)
    (hheader : header ∈ body) (hkind : ∀ n ∈ body, k.kind? n = g.kind? n) :
    Qualifies g config header body := by
  have hdefs {n : NodeId} (hn : n ∈ body) : k.defs n = g.defs n := by
    rw [Graph.defs, Graph.defs, hkind n hn]
  obtain ⟨-, v, hanalyzed⟩ := analyze_ok ha
  obtain ⟨hmem, ⟨value, hvalue, -⟩, honly⟩ := mem_inductionVars hanalyzed.var_mem
  refine ⟨length_le_of_analyze ha, guard.op, v.name, guard.bound, ?_, ⟨v.update, hmem, ?_, ?_⟩, ?_⟩
  · rw [← hkind header hheader, hanalyzed.name_eq]
    exact hanalyzed.kind_header
  · rw [← hdefs hmem, Graph.defs, hvalue]
    exact List.mem_singleton_self v.name
  · intro m hm hdef
    exact honly m hm (hdefs hm ▸ hdef)
  · intro n hn x hx hdef
    refine not_mem_of_isInvariant hanalyzed.invariant hx (Ascending.mem_unions.mpr ?_)
    exact ⟨k.defs n, List.mem_map_of_mem hn, (hdefs hn).symm ▸ hdef⟩

/-! ### What stays for the loops that come later -/

/-- A report is about the loop whose turn it was, and counts the nodes that it was judged on. -/
theorem report_of_unrollFound (hok : unrollFound d config l g = .ok (some r) h) :
    r.header = l.header ∧ r.bodySize = (currentBody g d l).length := by
  rw [unrollFound, Edit.bind_ok (Edit.get_apply g)] at hok
  split at hok
  · obtain ⟨outcome, m, -, hok⟩ := Edit.bind_eq_ok.mp hok
    cases hok
    exact ⟨rfl, rfl⟩
  · cases hok

/-- Every report is about one of the loops. -/
theorem exists_loop_of_report (hok : unrollEach d config f g = .ok reports h) (hr : r ∈ reports) :
    ∃ l ∈ f, r.header = l.header := by
  obtain ⟨before, after, rfl⟩ := List.append_of_mem hr
  obtain ⟨earlier, l, later, k, k', rfl, -, hturn, -⟩ := unrollEach_of_report hok
  exact ⟨l, List.mem_append_right _ List.mem_cons_self, (report_of_unrollFound hturn).1⟩

/-- Edges to nodes that are no headers of unrolled loops stay. -/
theorem mem_succs_unrollFound (hg : g.WellFormed) (hok : unrollFound d config l g = .ok found h)
    (hno : ∀ q ∈ found, q.outcome.isUnrolled = true → q.header ≠ s) (hs : s ∈ g.succs m) :
    s ∈ h.succs m := by
  rcases unrollFound_cases hok with ⟨-, rfl⟩ | ⟨newHeader, rfl, hloop⟩
  · exact hs
  · obtain ⟨_, _, _, _, _, _, _, hr⟩ := replaced_of_ok hg header_mem_currentBody hloop
    have hlt := lt_bound_of_isLive (isLive_of_mem_succs hs)
    by_cases hb : m ∈ currentBody g d l
    · rwa [hr.layout.succs_old hlt, if_pos hb]
    · exact (hr.mem_succs_iff hlt hb).mpr (.inr ⟨(hno _ rfl rfl).symm, hs⟩)

/-- While loops are unrolled all edges stay, except those to the headers of the loops that are. -/
theorem mem_succs_unrollEach (hg : g.WellFormed) (hok : unrollEach d config f g = .ok reports h)
    (hno : ∀ q ∈ reports, q.outcome.isUnrolled = true → q.header ≠ s) (hs : s ∈ g.succs m) :
    s ∈ h.succs m := by
  induction f generalizing g reports with
  | nil => cases hok; exact hs
  | cons l rest ih =>
      obtain ⟨q, k, qs, hfound, heach, rfl⟩ := unrollEach_cons_ok.mp hok
      have hk := (proper_unrollFound d config l).wellFormed_of_ok hfound hg
      refine ih hk heach (fun p hp => hno p (List.mem_append_right _ hp)) ?_
      refine mem_succs_unrollFound hg hfound (fun p hp => hno p (List.mem_append_left _ ?_)) hs
      exact Option.mem_toList.mpr hp

/-- What still leads back to the header through the body is collected. -/
theorem mem_currentBody_of_passage (gone : NodeId → Prop) (hd : d.Correct g start) (hk : k.Linked)
    (hl : l.Closed g start) (hkept : ∀ a b, ¬gone b → b ∈ g.succs a → b ∈ k.succs a)
    (hheader : ¬gone l.header) (hn : n ∈ l.body) (hns : g.Passage l.body l.header n l.header ns)
    (hno : ∀ m ∈ ns, ¬gone m) : n ∈ currentBody k d l := by
  rw [mem_currentBody hk, or_iff_not_imp_left]
  intro hne
  -- along the way, whose last node is a latch
  induction ns generalizing n with
  | nil =>
      have hs := passage_nil_iff.mp hns
      have hlatch : n ∈ l.latches := hl.mem_latches.mpr ⟨hs, hl.dominates hn⟩
      exact ⟨n, ⟨hlatch, hkept _ _ hheader hs⟩, hne, .refl⟩
  | cons b bs ih =>
      obtain ⟨hb, hbs⟩ := List.forall_mem_cons.mp hno
      have hns : g.Passage l.body l.header n l.header ([] ++ b :: bs) := hns
      obtain ⟨hfirst, ⟨hmem, hbne⟩, hrest⟩ := passage_append_iff.mp hns
      obtain ⟨t, ht, htne, hlead⟩ := ih hmem hrest hbs hbne
      have hs := hkept _ _ hb (passage_nil_iff.mp hfirst)
      exact ⟨t, ht, htne, .head ⟨hs, hne, hd.isReachable_iff.mpr (hl.reaches hn)⟩ hlead⟩

/-- Take a graph that passes its audit, and a loop that is unrolled when all its loops are.  The
loop qualifies on the nodes that it was judged on.  These are nodes of the body, as the body was
found, and among them are all from which a way through the body leads back to the header around the
headers of the loops that were unrolled before.  If none of those headers lies in the body, the loop
was judged on all of its body. -/
theorem unrolled_loops_qualify {report : UnrollReport} (hg : Built g) (hv : g.verify = .ok ())
    (hok : unrollLoops config g = .ok report h) :
    ∃ d, Dominators.compute g = .ok d ∧
      ∀ before r after newHeader, report.loops = before ++ r :: after →
        r.outcome = .unrolled newHeader →
        ∃ l ∈ LoopForest.detect g d, l.header = r.header ∧
          ∃ judged, judged.length = r.bodySize ∧ l.header ∈ judged ∧ judged ⊆ l.body ∧
            Qualifies g config l.header judged ∧
            (∀ n ∈ l.body, ∀ ns, g.Passage l.body l.header n l.header ns →
              (∀ q ∈ before, q.outcome.isUnrolled = true → q.header ∉ ns) → n ∈ judged) ∧
            ((∀ q ∈ before, q.outcome.isUnrolled = true → q.header ∉ l.body) →
              judged = l.body) := by
  have hw := hg.wellFormed
  obtain ⟨start, hs, -⟩ := hw.verify_eq_ok_iff.mp hv
  obtain ⟨d, hd, -⟩ := Dominators.compute_spec hw hs
  have hcorrect := Dominators.correct_of_compute hw hs hd
  refine ⟨d, hd, fun before r after newHeader hreport hr => ?_⟩
  obtain ⟨k', heach, -⟩ := unrollLoops_ok hd hok
  rw [hreport] at heach
  obtain ⟨earlier, l, later, k, k₁, hf, hbefore, hturn, -⟩ := unrollEach_of_report heach
  obtain ⟨hheader, hloop⟩ := unrolled_of_report hturn hr
  have hfound := LoopForest.found_detect hw hcorrect
  have hmem : l ∈ LoopForest.detect g d := hf ▸ List.mem_append_right _ List.mem_cons_self
  have hl := hfound.closed l hmem
  have hlt {n : NodeId} (hn : g.Reaches start n) : n < g.bound := lt_bound_of_reaches hw hs hn
  have hst := stage_unrollEach hw (hlt .refl) hbefore
  have hk := (proper_unrollEach d config earlier).wellFormed_of_ok hbefore hw
  have hsub {n : NodeId} (hn : n ∈ currentBody k d l) : n ∈ l.body :=
    mem_body_of_mem_currentBody hw hs hcorrect hst hk.toLinked hl hn
  have hback : ∀ n ∈ l.body, ∀ ns, g.Passage l.body l.header n l.header ns →
      (∀ q ∈ before, q.outcome.isUnrolled = true → q.header ∉ ns) → n ∈ currentBody k d l := by
    intro n hn ns hns hno
    refine mem_currentBody_of_passage (fun b => ∃ q ∈ before, q.outcome.isUnrolled = true ∧
      q.header = b) hcorrect hk.toLinked hl (fun a b hb => ?_) ?_ hn hns
      fun m hm ⟨q, hq, hun, he⟩ => hno q hq hun (he ▸ hm)
    · exact mem_succs_unrollEach hw hbefore fun q hq hun he => hb ⟨q, hq, hun, he⟩
    · rintro ⟨q, hq, -, he⟩
      -- the header of no loop lies in a loop that was found before
      obtain ⟨l', hl', hq'⟩ := exists_loop_of_report hbefore hq
      have hapart := (List.pairwise_append.mp (hf ▸ hfound.apart)).2.2 l' hl' l List.mem_cons_self
      have hclosed := hfound.closed l' (hf ▸ List.mem_append_left _ hl')
      exact hapart (he ▸ hq' ▸ hclosed.header_mem)
  obtain ⟨guard, hanalyze, -⟩ := unrollLoop_ok hloop
  refine ⟨l, hmem, hheader.symm, currentBody k d l, (report_of_unrollFound hturn).2.symm,
    header_mem_currentBody, fun _ => hsub, ?_, hback, fun hno => ?_⟩
  · exact qualifies_of_analyze hanalyze header_mem_currentBody fun n hn =>
      hst.kind_eq (hlt (hl.reaches (hsub hn)))
  · refine Ascending.eq_of_mem_iff (Ascending.pairwise_ofList _)
      (LoopForest.ascending_of_mem_detect hmem) fun n => ⟨hsub, fun hn => ?_⟩
    by_cases hne : n = l.header
    · exact hne ▸ header_mem_currentBody
    · obtain ⟨ns, hns⟩ := hl.exists_passage_back hn hne
      exact hback n hn ns hns fun q hq hun hin => hno q hq hun (hns.2 _ hin).1

/-! ### A loop with a call in front of its inner loop -/

/-- While `i` is below `n`, a branch on `c` goes to the end of the body, or to a call that writes
`i` and `n` and on to an inner loop, in which `j` runs from 0 to `m`. -/
def callBeside : Graph :=
  after (Edit.addStart 9) (after (Edit.substituteStub 1 9)
    (after (Edit.addBranch (.binop .lt (.temp "i") (.temp "n")) 8 0)
      (after (Edit.addAssign "j" (.const 0) 7) (after (Edit.addBranch (.temp "c") 2 6)
        (after (Edit.addCall ⟨.global "f", [], ["i", "n"]⟩ 5) (after (Edit.substituteStub 3 5)
          (after (Edit.addBranch (.binop .lt (.temp "j") (.temp "m")) 4 2)
            (after (Edit.addAssign "j" (.binop .add (.temp "j") (.const 1)) 3) (after Edit.addStub
              (after (Edit.addAssign "i" (.binop .add (.temp "i") (.const 1)) 1)
                (after Edit.addStub (after Edit.addReturn .empty))))))))))))

theorem built_callBeside : Built callBeside :=
  .tail (.tail (.tail (.tail (.tail (.tail (.tail (.tail (.tail (.tail (.tail (.tail
    (.single (.addReturn _)) (.addStub _)) (.addAssign _ _ _ _)) (.addStub _))
    (.addAssign _ _ _ _)) (.addBranch _ _ _ _)) (.substituteStub _ _ _)) (.addCall _ _ _))
    (.addBranch _ _ _ _)) (.addAssign _ _ _ _)) (.addBranch _ _ _ _)) (.substituteStub _ _ _))
    (.addStart _ _)

/-- Two loops are found, and both are replaced.  The outer one has seven nodes, of which six are
counted. -/
theorem unrollLoops_callBeside :
    (∃ d, Dominators.compute callBeside = .ok d ∧
      LoopForest.detect callBeside d = [⟨5, [4, 5], [4]⟩, ⟨9, [2, 4, 5, 6, 7, 8, 9], [2]⟩]) ∧
    ∃ swept h, unrollLoops (.withFactor 2 6) callBeside =
      .ok ⟨[⟨5, 2, .unrolled 20⟩, ⟨9, 6, .unrolled 42⟩], swept⟩ h := by
  have hdetect : (match Dominators.compute callBeside with
      | .ok d => decide (LoopForest.detect callBeside d =
          [⟨5, [4, 5], [4]⟩, ⟨9, [2, 4, 5, 6, 7, 8, 9], [2]⟩])
      | .error _ => false) = true := by decide +kernel
  have hunrolled : (match unrollLoops (.withFactor 2 6) callBeside with
      | .ok ⟨loops, _⟩ _ => decide (loops = [⟨5, 2, .unrolled 20⟩, ⟨9, 6, .unrolled 42⟩])
      | .error _ _ => false) = true := by decide +kernel
  refine ⟨?_, ?_⟩
  · split at hdetect
    case h_1 d hd => exact ⟨d, hd, of_decide_eq_true hdetect⟩
    case h_2 => cases hdetect
  · split at hunrolled
    case h_1 loops swept h hok => exact ⟨swept, h, of_decide_eq_true hunrolled ▸ hok⟩
    case h_2 => cases hunrolled

/-- The inner loop is unrolled first, and qualifies on its whole body; the outer one qualifies on
six of its nodes. -/
theorem unrolled_loops_qualify_callBeside :
    Built callBeside ∧ callBeside.verify = .ok () ∧
      (∃ report h, unrollLoops (.withFactor 2 6) callBeside = .ok report h) ∧
      Qualifies callBeside (.withFactor 2 6) 5 [4, 5] ∧
      ∃ judged, judged.length = 6 ∧ judged ⊆ [2, 4, 5, 6, 7, 8, 9] ∧
        Qualifies callBeside (.withFactor 2 6) 9 judged := by
  have hv : callBeside.verify = .ok () := by decide +kernel
  obtain ⟨⟨d, hd, hdetect⟩, swept, h, hok⟩ := unrollLoops_callBeside
  obtain ⟨d', hd', hqualify⟩ := unrolled_loops_qualify built_callBeside hv hok
  obtain rfl : d' = d := Except.ok.inj (hd'.symm.trans hd)
  obtain ⟨inner, hinner, hi, judged, -, -, -, hq, -, hall⟩ :=
    hqualify [] ⟨5, 2, .unrolled 20⟩ [⟨9, 6, .unrolled 42⟩] 20 rfl rfl
  obtain ⟨outer, houter, ho, judged', hlen, -, hsub, hq', -⟩ :=
    hqualify [⟨5, 2, .unrolled 20⟩] ⟨9, 6, .unrolled 42⟩ [] 42 rfl rfl
  -- a loop is known by its header
  have heq {l : NaturalLoop} (hl : l ∈ LoopForest.detect callBeside d') :
      l = ⟨5, [4, 5], [4]⟩ ∨ l = ⟨9, [2, 4, 5, 6, 7, 8, 9], [2]⟩ := by
    rwa [hdetect, List.mem_pair] at hl
  obtain rfl := (heq hinner).resolve_right fun e => by rw [e] at hi; cases hi
  obtain rfl := (heq houter).resolve_left fun e => by rw [e] at ho; cases ho
  rw [hall nofun] at hq
  exact ⟨built_callBeside, hv, ⟨_, h, hok⟩, hq, judged', hlen, hsub, hq'⟩

/-- The outer loop is unrolled too, although it does not qualify in any respect: it is too large,
and the call, which was not looked at, writes both its variable and its bound. -/
theorem callBeside_unrolled :
    Built callBeside ∧ callBeside.verify = .ok () ∧
      ∃ d report h, Dominators.compute callBeside = .ok d ∧
        ⟨9, [2, 4, 5, 6, 7, 8, 9], [2]⟩ ∈ LoopForest.detect callBeside d ∧
        unrollLoops (.withFactor 2 6) callBeside = .ok report h ∧
        ⟨9, 6, .unrolled 42⟩ ∈ report.loops ∧
        6 < [2, 4, 5, 6, 7, 8, 9].length ∧
        callBeside.kind? 9 = some (.branch (.binop .lt (.temp "i") (.temp "n"))) ∧
        "i" ∈ callBeside.defs 2 ∧ "i" ∈ callBeside.defs 6 ∧ "n" ∈ callBeside.defs 6 := by
  have hv : callBeside.verify = .ok () := by decide +kernel
  obtain ⟨⟨d, hd, hdetect⟩, swept, h, hok⟩ := unrollLoops_callBeside
  exact ⟨built_callBeside, hv, d, _, h, hd, hdetect ▸ List.mem_cons_of_mem _ List.mem_cons_self,
    hok, List.mem_cons_of_mem _ List.mem_cons_self, by decide, by decide +kernel, by decide +kernel,
    by decide +kernel, by decide +kernel⟩

end Flowgraph

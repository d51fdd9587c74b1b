import Flowgraph.Proofs.Dataflow.Greatest
import Flowgraph.Proofs.Paths

/-!
# Liveness along paths

A name is live after a node when some path from the node reads it before it is written, or when it
is a return temporary and some path ends at an exit without writing it.  Whatever lies on a path is
found, because live names travel backwards along its edges; and nothing else is, because the names
that are live along paths solve the equations, and what is computed is the least of all solutions.

* `Graph.LiveAhead`: live after a node along some path.
* `liveAhead_iff_of_exit`, `liveAhead_iff_of_succs`: it satisfies the equations of liveness.
* `pathFamily_solves`: so it is a solution of the liveness problem.
* `liveness_exact`: what is computed, for every node and name.
-/

namespace Flowgraph

open Dataflow Flowgraph.Graph

variable {g : Graph} {start n m : NodeId} {x : String} {i : Nat}

/-! ### Live along a path -/

namespace Graph

/-- Edges lead from `n` to `m`, and no node after `n` writes the name. -/
def Keeps (g : Graph) (x : String) (n m : NodeId) : Prop := g.ReachesBy (fun k => x ∉ g.defs k) n m

/-- Some path from the node keeps the name until it reads it. -/
def ReadAhead (g : Graph) (x : String) (n : NodeId) : Prop :=
  ∃ m, g.Keeps x n m ∧ ∃ b ∈ g.succs m, x ∈ g.uses b

/-- Some path from the node keeps the name until it ends at an exit. -/
def KeptToExit (g : Graph) (x : String) (n : NodeId) : Prop := ∃ m, g.Keeps x n m ∧ g.succs m = []

/-- Some path from the node reads the name before it is written, or hands it over as a result. -/
def LiveAhead (g : Graph) (x : String) (n : NodeId) : Prop :=
  g.ReadAhead x n ∨ isReturnTemp x = true ∧ g.Occurs x ∧ g.KeptToExit x n

/-- A temporary is read ahead at once, or after a node that keeps it. -/
theorem readAhead_iff :
    g.ReadAhead x n ↔ ∃ m ∈ g.succs n, x ∈ g.uses m ∨ x ∉ g.defs m ∧ g.ReadAhead x m := by
  constructor
  · rintro ⟨k, hk, b, hb, hu⟩
    rcases Relation.ReflTransGen.cases_head hk with rfl | ⟨m, hm, hrest⟩
    · exact ⟨b, hb, .inl hu⟩
    · exact ⟨m, hm.1, .inr ⟨hm.2, k, hrest, b, hb, hu⟩⟩
  · rintro ⟨m, hm, hu | ⟨hd, k, hk, hread⟩⟩
    · exact ⟨n, .refl, m, hm, hu⟩
    · exact ⟨k, .head ⟨hm, hd⟩ hk, hread⟩

/-- It is kept to an exit if this is one, or along some edge. -/
theorem keptToExit_iff :
    g.KeptToExit x n ↔ g.succs n = [] ∨ ∃ m ∈ g.succs n, x ∉ g.defs m ∧ g.KeptToExit x m := by
  constructor
  · rintro ⟨k, hk, hnil⟩
    rcases Relation.ReflTransGen.cases_head hk with rfl | ⟨m, hm, hrest⟩
    · exact .inl hnil
    · exact .inr ⟨m, hm.1, hm.2, k, hrest, hnil⟩
  · rintro (hnil | ⟨m, hm, hd, k, hk, hnil⟩)
    · exact ⟨n, .refl, hnil⟩
    · exact ⟨k, .head ⟨hm, hd⟩ hk, hnil⟩

/-- At an exit the return temporaries that occur are live, and nothing else. -/
theorem liveAhead_iff_of_exit (hnil : g.succs n = []) :
    g.LiveAhead x n ↔ g.Occurs x ∧ isReturnTemp x = true := by
  have hread : ¬g.ReadAhead x n := fun h => by
    obtain ⟨m, hm, -⟩ := readAhead_iff.mp h
    exact List.not_mem_nil (hnil ▸ hm)
  have hkept : g.KeptToExit x n := keptToExit_iff.mpr (.inl hnil)
  simp only [LiveAhead, hread, hkept, false_or, and_true]
  exact and_comm

/-- Elsewhere live is what some successor reads, or what is live after it and not written by it. -/
theorem liveAhead_iff_of_succs (hne : g.succs n ≠ []) :
    g.LiveAhead x n ↔ ∃ m ∈ g.succs n, x ∈ g.uses m ∨ g.LiveAhead x m ∧ x ∉ g.defs m := by
  rw [LiveAhead, readAhead_iff, keptToExit_iff, or_iff_right hne]
  constructor
  · rintro (⟨m, hm, hu | ⟨hd, hread⟩⟩ | ⟨hret, hocc, m, hm, hd, hkept⟩)
    · exact ⟨m, hm, .inl hu⟩
    · exact ⟨m, hm, .inr ⟨.inl hread, hd⟩⟩
    · exact ⟨m, hm, .inr ⟨.inr ⟨hret, hocc, hkept⟩, hd⟩⟩
  · rintro ⟨m, hm, hu | ⟨hread | ⟨hret, hocc, hkept⟩, hd⟩⟩
    · exact .inl ⟨m, hm, .inl hu⟩
    · exact .inl ⟨m, hm, .inr ⟨hd, hread⟩⟩
    · exact .inr ⟨hret, hocc, m, hm, hd, hkept⟩

/-- The same with the paths written out. -/
theorem liveAhead_iff_paths :
    g.LiveAhead x n ↔
      (∃ ms b, g.Path n b (n :: (ms ++ [b])) ∧ x ∈ g.uses b ∧ ∀ m ∈ ms, x ∉ g.defs m) ∨
      (isReturnTemp x = true ∧ g.Occurs x ∧
        ∃ ms b, g.Path n b (n :: ms) ∧ g.succs b = [] ∧ ∀ m ∈ ms, x ∉ g.defs m) := by
  refine or_congr ⟨?_, ?_⟩ (and_congr_right fun _ => and_congr_right fun _ => ⟨?_, ?_⟩)
  · rintro ⟨m, hm, b, hb, hu⟩
    obtain ⟨ms, hms, hd⟩ := exists_path_snoc_iff.mpr ⟨m, hm, hb⟩
    exact ⟨ms, b, hms, hu, hd⟩
  · rintro ⟨ms, b, hms, hu, hd⟩
    obtain ⟨m, hm, hb⟩ := exists_path_snoc_iff.mp ⟨ms, hms, hd⟩
    exact ⟨m, hm, b, hb, hu⟩
  · rintro ⟨b, hb, hnil⟩
    obtain ⟨ms, hms, hd⟩ := reachesBy_iff.mp hb
    exact ⟨ms, b, hms, hnil, hd⟩
  · rintro ⟨ms, b, hms, hnil, hd⟩
    exact ⟨b, reachesBy_iff.mpr ⟨ms, hms, hd⟩, hnil⟩

end Graph

/-! ### What is live along a path is found -/

namespace Liveness

variable {l : Liveness}

/-- The equations of liveness, at the nodes that the start leads to. -/
structure Equations (g : Graph) (l : Liveness) : Prop where
  before : ∀ {n x}, n ∈ g.reachable →
    (l.isLiveBefore n x = true ↔ x ∈ g.uses n ∨ l.isLiveAfter n x = true ∧ x ∉ g.defs n)
  after : ∀ {n x}, n ∈ g.reachable → (l.isLiveAfter n x = true ↔
    if g.succs n = [] then g.Occurs x ∧ isReturnTemp x = true
    else ∃ m ∈ g.succs n, l.isLiveBefore m x = true)

namespace Equations

variable (h : Equations g l) (hg : g.WellFormed) (hs : g.start = some start)

include h

/-- What is live before a successor is live after the node. -/
theorem after_of_succ (hn : n ∈ g.reachable) (hm : m ∈ g.succs n)
    (hlive : l.isLiveBefore m x = true) : l.isLiveAfter n x = true := by
  rw [h.after hn, if_neg (List.ne_nil_of_mem hm)]
  exact ⟨m, hm, hlive⟩

include hg hs

/-- What is live at the end of a path that keeps it is live at the beginning. -/
theorem after_of_keeps (hn : n ∈ g.reachable) (hk : g.Keeps x n m)
    (hlive : l.isLiveAfter m x = true) : l.isLiveAfter n x = true := by
  induction hk using Relation.ReflTransGen.head_induction_on with
  | refl => exact hlive
  | head hstep _ ih =>
      have hnext := hg.mem_reachable_of_succ hs hn hstep.1
      exact h.after_of_succ hn hstep.1 ((h.before hnext).mpr (.inr ⟨ih hnext, hstep.2⟩))

/-- What paths show to be live is found to be live, by induction on the path. -/
theorem after_of_liveAhead (hn : n ∈ g.reachable) (hlive : g.LiveAhead x n) :
    l.isLiveAfter n x = true := by
  have hreach {m : NodeId} (hk : g.Keeps x n m) : m ∈ g.reachable :=
    (hg.mem_reachable hs).mpr (((hg.mem_reachable hs).mp hn).trans hk.reaches)
  rcases hlive with ⟨m, hk, b, hb, hu⟩ | ⟨hret, hocc, m, hk, hnil⟩
  · refine h.after_of_keeps hg hs hn hk (h.after_of_succ (hreach hk) hb ?_)
    exact (h.before (hg.mem_reachable_of_succ hs (hreach hk) hb)).mpr (.inl hu)
  · refine h.after_of_keeps hg hs hn hk ((h.after (hreach hk)).mpr ?_)
    rw [if_pos hnil]
    exact ⟨hocc, hret⟩

end Equations

end Liveness

/-! ### What is live along paths is a solution -/

/-- The numbers of the names that are live after a node along some path. -/
noncomputable def aheadSet (g : Graph) (n : NodeId) : VarSet :=
  ⟨.setOf (Variables.ofGraph g).count fun i =>
    ∃ x, Variables.indexIn? (Variables.ofGraph g).names x = some i ∧ g.LiveAhead x n⟩

/-- Liveness along paths as a family of variable sets. -/
noncomputable def pathFamily (g : Graph) : Family VarSet where
  input n := aheadSet g n
  edge n _ := (Variables.ofGraph g).transfer n (aheadSet g n)

theorem fits_aheadSet : (aheadSet g n).Fits (Variables.ofGraph g).count := BitSet.fits_setOf ..

/-- The set has the numbers of the names that are live on some path. -/
theorem bit_aheadSet (hx : Variables.indexIn? (Variables.ofGraph g).names x = some i) :
    (aheadSet g n).bits.bit i = true ↔ g.LiveAhead x n := by
  have hget := Variables.getElem?_of_indexIn? hx
  rw [aheadSet, BitSet.bit_setOf]
  constructor
  · rintro ⟨-, y, hy, hlive⟩
    rw [Variables.getElem?_of_indexIn? hy, Option.some.injEq] at hget
    exact hget ▸ hlive
  · exact fun hlive => ⟨(List.getElem?_eq_some_iff.mp hget).1, x, hx, hlive⟩

/-- Every number below the count is that of a name. -/
theorem Variables.exists_indexIn?_eq (hi : i < (ofGraph g).count) :
    ∃ x, indexIn? (ofGraph g).names x = some i := by
  have hget : (ofGraph g).names[i]? = some (ofGraph g).names[i] := List.getElem?_eq_getElem hi
  obtain ⟨j, hj⟩ := exists_indexIn? (List.mem_of_getElem? hget)
  have hij := (List.getElem?_inj hi (nodup_names g)).mp (hget.trans (getElem?_of_indexIn? hj).symm)
  exact ⟨_, hj.trans (congrArg some hij.symm)⟩

/-- Two sets of variables are the same if they have the same names. -/
theorem VarSet.Fits.ext_names {s t : VarSet} (hs : s.Fits (Variables.ofGraph g).count)
    (ht : t.Fits (Variables.ofGraph g).count)
    (h : ∀ {x i}, Variables.indexIn? (Variables.ofGraph g).names x = some i →
      (s.bits.bit i = true ↔ t.bits.bit i = true)) : s = t := by
  refine congrArg VarSet.mk (BitSet.Fits.ext hs ht fun i => Bool.eq_iff_iff.mpr ?_)
  by_cases hi : i < (Variables.ofGraph g).count
  · obtain ⟨x, hx⟩ := Variables.exists_indexIn?_eq hi
    exact h hx
  · exact iff_of_false (fun hb => hi (hs.lt_capacity hb)) fun hb => hi (ht.lt_capacity hb)

theorem pathFamily_valid :
    (pathFamily g).Valid (Variables.ofGraph g).problem g
      (VarSet.Fits (Variables.ofGraph g).count) where
  input _ := fits_aheadSet
  edge _ _ := Variables.fits_transfer (Variables.fits_ofGraph g) fits_aheadSet

/-- Liveness on paths solves the equations. -/
theorem pathFamily_solves (hg : g.WellFormed) (hs : g.start = some start) :
    Solves (Variables.ofGraph g).problem g start (pathFamily g) where
  boundary {n v} hn hv hnil := by
    obtain rfl := Option.some.inj hv
    refine fits_aheadSet.ext_names
      (BitSet.Fits.union (BitSet.fits_empty _) (Variables.fits_ofGraph g).exits) fun {x i} hx => ?_
    have hoccurs : g.Occurs x := Variables.occurs_of_indexIn? hx
    refine (bit_aheadSet hx).trans ((liveAhead_iff_of_exit hnil).trans ?_)
    rw [Variables.bit_boundary hx, and_iff_right hoccurs]
  inner {n} hn hb := by
    have hne : g.succs n ≠ [] := hb.resolve_left nofun
    have hfits {m : NodeId} : ((Variables.ofGraph g).transfer m (aheadSet g m)).Fits
        (Variables.ofGraph g).count :=
      Variables.fits_transfer (Variables.fits_ofGraph g) fits_aheadSet
    refine fits_aheadSet.ext_names ((VarSet.meetLaws _).valid_foldr fun v hv => ?_)
      fun {x i} hx => ?_
    · obtain ⟨⟨m, j⟩, -, rfl⟩ := List.mem_map.mp hv
      exact hfits
    · refine Iff.trans (bit_aheadSet hx) (Iff.trans ?_ (Variables.bit_meet_entering hg hs hn
        (fun m => (Variables.ofGraph g).transfer m (aheadSet g m)) (fun _ _ => hfits)
        fun _ => rfl).symm)
      rw [liveAhead_iff_of_succs hne]
      refine exists_congr fun m => and_congr_right fun hm => ?_
      have hlive := isLive_of_mem_reachable (hg.mem_reachable_of_succ hs hn hm)
      rw [Variables.bit_transfer_ofGraph (lt_bound_of_isLive hlive) fits_aheadSet hx,
        bit_aheadSet hx]
  edge _ _ := rfl

/-! ### What is computed -/

namespace Liveness

/-- Nothing is known where the start does not lead. -/
theorem not_live_of_unreached {F : Family VarSet} {r : State VarSet}
    (hrec : Records (Variables.ofGraph g).problem g F r) (hn : n ∉ g.reachable) :
    isLiveBefore ⟨(Variables.ofGraph g).names, r⟩ n x = false ∧
      isLiveAfter ⟨(Variables.ofGraph g).names, r⟩ n x = false := by
  rw [isLiveBefore, isLiveAfter, before?, after?, State.input, State.output, hrec.unreached hn]
  simp [holds, Facts.unreached]

/-- What is computed is live along some path. -/
theorem exists_compute_eq (hg : g.WellFormed) (hs : g.start = some start) :
    ∃ l, Liveness.compute g = .ok l ∧ Equations g l ∧
      (∀ n ∈ g.reachable, ∀ x, l.isLiveAfter n x = true → g.LiveAhead x n) ∧
      ∀ n x, n ∉ g.reachable ∨ ¬g.Occurs x →
        l.isLiveBefore n x = false ∧ l.isLiveAfter n x = false := by
  obtain ⟨l, hl, hspec⟩ := compute_spec hg hs
  obtain ⟨F, r, hr, hrec, -, hval, hgreat⟩ :=
    solve_spec (Variables.lawful (Variables.fits_ofGraph g) g) hg hs (VarSet.ranks _)
      (VarSet.card_missing_le _ _)
  obtain rfl : (⟨(Variables.ofGraph g).names, r⟩ : Liveness) = l := by
    rw [compute, ofVariables, hr] at hl
    exact Except.ok.inj hl
  refine ⟨_, hl, ⟨fun hn => (hspec _ hn _).1, fun hn => (hspec _ hn _).2⟩, fun n hn x hlive => ?_,
    fun n x h => ?_⟩
  · cases hx : Variables.indexIn? (Variables.ofGraph g).names x with
    | none =>
        rw [(not_live_of_absent hx).2.2] at hlive
        cases hlive
    | some i =>
        -- what is live on paths solves the equations, so it lies below the greatest solution
        rw [isLiveAfter_eq hval hrec hx hn] at hlive
        have hle := (hgreat _ (pathFamily_solves hg hs) pathFamily_valid).input hn
        exact (bit_aheadSet hx).mp ((VarSet.below_iff fits_aheadSet (hval.input hn)).mp hle i hlive)
  · rcases h with hn | hx
    · exact not_live_of_unreached hrec hn
    · cases hi : Variables.indexIn? (Variables.ofGraph g).names x with
      | none => exact (not_live_of_absent hi).2
      | some i =>
          have hget := Variables.getElem?_of_indexIn? hi
          exact absurd (Variables.mem_names.mp (List.mem_of_getElem? hget)) hx

end Liveness

/-- The live names of a built graph with a start are computed.  After a node that the start leads
to, a name is live exactly if some path reads it before it is written, or if it is a return
temporary of the graph and some path leads to an exit without a write of it; before the node live
are those that it reads and those live after it that it does not write.  Where the start does not
lead nothing is live, and neither is a name that does not occur. -/
theorem liveness_exact (hg : Built g) (hs : g.start = some start) :
    ∃ l, Liveness.compute g = .ok l ∧
      (∀ n, g.Reaches start n → ∀ x,
        (l.isLiveAfter n x = true ↔
          (∃ ms b, g.Path n b (n :: (ms ++ [b])) ∧ x ∈ g.uses b ∧ ∀ m ∈ ms, x ∉ g.defs m) ∨
          (isReturnTemp x = true ∧ g.Occurs x ∧
            ∃ ms b, g.Path n b (n :: ms) ∧ g.succs b = [] ∧ ∀ m ∈ ms, x ∉ g.defs m)) ∧
        (l.isLiveBefore n x = true ↔
          x ∈ g.uses n ∨ x ∉ g.defs n ∧ l.isLiveAfter n x = true)) ∧
      ∀ n x, ¬g.Reaches start n ∨ ¬g.Occurs x →
        l.isLiveAfter n x = false ∧ l.isLiveBefore n x = false := by
  have hw := hg.wellFormed
  obtain ⟨l, hl, heq, hsound, hnone⟩ := Liveness.exists_compute_eq hw hs
  refine ⟨l, hl, fun n hn x => ⟨?_, ?_⟩, fun n x h => ?_⟩
  · have hr := (hw.mem_reachable hs).mpr hn
    rw [← liveAhead_iff_paths]
    exact ⟨hsound n hr x, heq.after_of_liveAhead hw hs hr⟩
  · rw [heq.before ((hw.mem_reachable hs).mpr hn), and_comm]
  · rw [← hw.mem_reachable hs] at h
    exact (hnone n x h).symm

/-- A branch on `c` that goes to a read of `x` or stays in one place for ever. -/
def readOrStay : Graph :=
  after (Edit.addStart 3) (after (Edit.addBranch (.temp "c") 1 2) (after Edit.addSelfLoop
    (after (Edit.addAssign "_RV0" (.temp "x") 0) (after Edit.addReturn .empty))))

/-- The name is live in front of the branch, along the one path that reads it. -/
theorem liveness_readOrStay :
    Built readOrStay ∧ readOrStay.start = some 4 ∧
      ∃ l, Liveness.compute readOrStay = .ok l ∧ l.isLiveAfter 4 "x" = true := by
  have hg : Built readOrStay :=
    .tail (.tail (.tail (.tail (.single (.addReturn _)) (.addAssign _ _ _ _)) (.addSelfLoop _))
      (.addBranch _ _ _ _)) (.addStart _ _)
  have hs : readOrStay.start = some 4 := by decide
  have hpath : readOrStay.Path 4 1 (4 :: ([3] ++ [1])) :=
    .cons (by decide) (.cons (by decide) (.single 1))
  obtain ⟨l, hl, hlive, -⟩ := liveness_exact hg hs
  exact ⟨hg, hs, l, hl, (hlive 4 .refl "x").1.mpr (.inl ⟨[3], 1, hpath, by decide, by decide⟩)⟩

end Flowgraph

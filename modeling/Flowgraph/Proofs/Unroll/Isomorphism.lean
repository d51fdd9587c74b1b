import Flowgraph.Proofs.Built
import Flowgraph.Proofs.Unroll.Behaviour
import Flowgraph.Proofs.Unroll.Sequence
import Mathlib.Data.Finset.Card
import Mathlib.Data.Finset.Prod
import Mathlib.Data.Set.Finite.Basic

/-!
# What an unrolled graph consists of

What the entry of a loop leads to inside of the body is copied once for the epilogue and once for
each round of the chain.  The copies are disjoint and each is the same as the original up to the
names of its nodes, and apart from them only the epilogue and the new header are new.

* `continuation`: where each copy leads in the place of the header.
* `CopiedLoop`, `Slots.copiedLoop`: old and new nodes with their kinds and their edges.
* `CopiedLoop.count_eq`: how many there are.
* `unrolled_copies_exact`: all of this, for every loop that is unrolled.
-/

namespace Flowgraph

open Flowgraph.Graph

variable {g h : Graph} {body : List NodeId} {header entry exit newHeader epilogue n c : NodeId}
  {factor i : Nat} {config : UnrollConfig}

/-- Where the copy of this number leads in the place of the header.  Copy 0 goes with the epilogue;
copies 1, 2 and so on are those of the chain, from its end. -/
def continuation (newHeader epilogue entry : NodeId) (copy : Nat → NodeId → NodeId) : Nat → NodeId
  | 0 => epilogue
  | 1 => newHeader
  | i + 2 => copy (i + 1) entry

/-- The unrolled graph, when `inner` holds what the entry leads to inside of the body. -/
structure CopiedLoop (g h : Graph) (body : List NodeId) (header entry exit : NodeId) (factor : Nat)
    (test : Expr) (newHeader epilogue : NodeId) (inner : Finset NodeId)
    (copy : Nat → NodeId → NodeId) : Prop where
  kind_old : ∀ {n}, n < g.bound → h.kind? n = g.kind? n
  succs_old : ∀ {n}, n < g.bound →
    h.succs n = if n ∈ body then g.succs n else (g.succs n).map (divert header newHeader)
  kind_epilogue : h.kind? epilogue = g.kind? header
  succs_epilogue : h.succs epilogue = [copy 0 entry, exit]
  kind_new : h.kind? newHeader = some (.branch test)
  succs_new : h.succs newHeader = [copy factor entry, epilogue]
  kind_copy : ∀ {i n}, i ≤ factor → n ∈ inner → h.kind? (copy i n) = g.kind? n
  succs_copy : ∀ {i n}, i ≤ factor → n ∈ inner → h.succs (copy i n) = (g.succs n).map fun s =>
    if s = header then continuation newHeader epilogue entry copy i
    else if s ∈ inner then copy i s else s
  inj : ∀ {i j n m}, i ≤ factor → j ≤ factor → n ∈ inner → m ∈ inner → copy i n = copy j m →
    i = j ∧ n = m
  epilogue_ne : epilogue ≠ newHeader
  copy_ne : ∀ {i n}, i ≤ factor → n ∈ inner → copy i n ≠ newHeader ∧ copy i n ≠ epilogue
  fresh_iff : ∀ {c}, g.bound ≤ c ∧ h.isLive c = true ↔
    c = newHeader ∨ c = epilogue ∨ ∃ i ≤ factor, ∃ n ∈ inner, c = copy i n
  mem_preds : ∀ {a b}, a ∈ h.preds b ↔ b ∈ h.succs a

/-! ### From the slots to the copies -/

namespace Slots

variable {test : Expr} {rest : NodeId → NodeId} {copy : Nat → NodeId → NodeId} {mark : Nat → Nat}
  (hs : Slots g h body header entry exit factor test newHeader epilogue rest copy mark)

include hs

/-- All copies together, that of the epilogue first. -/
theorem exists_exactCopy (hi : i ≤ factor) :
    ∃ low high, ExactCopy g h body header entry low high
      (continuation newHeader epilogue entry (prepend rest copy) i) (prepend rest copy i) := by
  cases i with
  | zero => exact ⟨_, _, hs.remainder.copy⟩
  | succ i =>
      have hcopy := hs.stacked i hi
      cases i with
      | zero => exact ⟨_, _, hcopy⟩
      | succ i => exact ⟨_, _, hcopy⟩

/-- The copy of the loop lies in front of its header. -/
theorem rest_between (hn : g.Inner body header entry n) : g.bound < rest n ∧ rest n < epilogue :=
  ⟨hs.remainder.copy.floor_le hn, hs.remainder.copy.lt hn⟩

/-- The copies of the chain lie between the two new headers. -/
theorem copy_between (hi : i < factor) (hn : g.Inner body header entry n) :
    epilogue < copy i n ∧ copy i n < newHeader :=
  ⟨Nat.lt_of_lt_of_le hs.epilogue_lt_mark (hs.stacked.mark_zero_le hi hn),
    hs.mark_last ▸ hs.stacked.lt_mark_last hi hn⟩

/-- No two copies of nodes are the same. -/
theorem inj_prepend {j : Nat} {m : NodeId} (hi : i ≤ factor) (hj : j ≤ factor)
    (hn : g.Inner body header entry n) (hm : g.Inner body header entry m)
    (he : prepend rest copy i n = prepend rest copy j m) : i = j ∧ n = m := by
  cases i with
  | zero =>
      cases j with
      | zero => exact ⟨rfl, hs.remainder.copy.inj hn hm he⟩
      | succ j =>
          exact absurd he
            (Nat.ne_of_lt (Nat.lt_trans (hs.rest_between hn).2 (hs.copy_between hj hm).1))
  | succ i =>
      cases j with
      | zero =>
          exact absurd he
            (Nat.ne_of_gt (Nat.lt_trans (hs.rest_between hm).2 (hs.copy_between hi hn).1))
      | succ j =>
          obtain ⟨rfl, rfl⟩ := hs.stacked.inj hi hj hn hm he
          exact ⟨rfl, rfl⟩

/-- No copy is one of the new headers. -/
theorem copy_ne (hi : i ≤ factor) (hn : g.Inner body header entry n) :
    prepend rest copy i n ≠ newHeader ∧ prepend rest copy i n ≠ epilogue := by
  cases i with
  | zero =>
      have hlt := (hs.rest_between hn).2
      have hnew := Nat.lt_of_lt_of_le hs.epilogue_lt_mark hs.mark_le_newHeader
      exact ⟨Nat.ne_of_lt (Nat.lt_trans hlt hnew), Nat.ne_of_lt hlt⟩
  | succ i =>
      obtain ⟨hlow, hhigh⟩ := hs.copy_between hi hn
      exact ⟨Nat.ne_of_lt hhigh, Nat.ne_of_gt hlow⟩

/-- Slot by slot, a new node that is there is one of those that are known. -/
theorem eq_of_fresh (hc : g.bound ≤ c) (hlive : h.isLive c = true) :
    c = newHeader ∨ c = epilogue ∨
      ∃ i ≤ factor, ∃ n, g.Inner body header entry n ∧ c = prepend rest copy i n := by
  obtain ⟨kind, hk⟩ := isLive_iff_kind?.mp hlive
  have hne {v : NodeId} (hv : h.kind? v = none) : v ≠ c := by
    rintro rfl
    rw [hv] at hk
    cases hk
  have hfirst := Nat.lt_of_le_of_ne hc (hne hs.remainder.vacant)
  rcases Nat.lt_trichotomy c epilogue with hlt | rfl | hgt
  · obtain ⟨n, hn, he⟩ := hs.remainder.copy.exists_eq hfirst hlt hlive
    exact .inr (.inr ⟨0, Nat.zero_le _, n, hn, he⟩)
  · exact .inr (.inl rfl)
  · have hsecond : mark 0 ≤ c := by
      rw [hs.mark_zero]
      exact Nat.lt_of_le_of_ne hgt (hne hs.vacant)
    have hlast : c < newHeader + 1 := hs.bound_eq ▸ lt_bound_of_isLive hlive
    rcases Nat.eq_or_lt_of_le (Nat.le_of_lt_succ hlast) with rfl | hlt
    · exact .inl rfl
    · rw [← hs.mark_last] at hlt
      obtain ⟨i, hi, n, hn, he⟩ := hs.stacked.exists_eq hsecond hlt hlive
      exact .inr (.inr ⟨i + 1, hi, n, hn, he⟩)

/-- The new nodes are the two headers and the copies of nodes that are entered. -/
theorem fresh_iff (hg : g.Linked) (he : Entry g body header entry)
    (hheader : g.isLive header = true) : g.bound ≤ c ∧ h.isLive c = true ↔
    c = newHeader ∨ c = epilogue ∨
      ∃ i ≤ factor, ∃ n, g.Inner body header entry n ∧ c = prepend rest copy i n := by
  have hep := Nat.le_of_lt hs.remainder.bound_lt
  refine ⟨fun ⟨hc, hlive⟩ => hs.eq_of_fresh hc hlive, ?_⟩
  rintro (rfl | rfl | ⟨i, hi, n, hn, rfl⟩)
  · exact ⟨Nat.le_trans hep (Nat.le_of_lt
      (Nat.lt_of_lt_of_le hs.epilogue_lt_mark hs.mark_le_newHeader)), isLive_of_kind? hs.kind_new⟩
  · obtain ⟨kind, hk⟩ := isLive_iff_kind?.mp hheader
    exact ⟨hep, isLive_of_kind? (hs.remainder.kind_eq.trans hk)⟩
  · obtain ⟨low, high, hcopy⟩ := hs.exists_exactCopy hi
    obtain ⟨kind, hk⟩ := isLive_iff_kind?.mp (he.inner hg hn).2.2
    refine ⟨?_, isLive_of_kind? ((hcopy.kind_eq hn).trans hk)⟩
    cases i with
    | zero => exact Nat.le_of_lt (hs.rest_between hn).1
    | succ i => exact Nat.le_trans hep (Nat.le_of_lt (hs.copy_between hi hn).1)

/-- The slots hold the copies; what an inner node leads to is inner exactly if it lies in the body
and is not the header. -/
theorem copiedLoop {inner : Finset NodeId} (hg : g.Linked) (he : Entry g body header entry)
    (hheader : g.isLive header = true) (hh : h.Linked) (hfactor : factor ≠ 0)
    (hinner : ∀ n, n ∈ inner ↔ g.Inner body header entry n) :
    CopiedLoop g h body header entry exit factor test newHeader epilogue inner
      (prepend rest copy) := by
  obtain ⟨last, rfl⟩ := Nat.exists_eq_succ_of_ne_zero hfactor
  constructor
  case kind_old => exact hs.kind_old
  case succs_old => exact hs.succs_old
  case kind_epilogue => exact hs.remainder.kind_eq
  case succs_epilogue => exact hs.remainder.succs_eq
  case kind_new => exact hs.kind_new
  case succs_new => exact hs.succs_new
  case kind_copy =>
    intro i n hi hn
    obtain ⟨low, high, hcopy⟩ := hs.exists_exactCopy hi
    exact hcopy.kind_eq ((hinner n).mp hn)
  case succs_copy =>
    intro i n hi hn
    obtain ⟨low, high, hcopy⟩ := hs.exists_exactCopy hi
    rw [hinner] at hn
    rw [hcopy.succs_eq hn]
    refine List.map_congr_left fun s hsucc => ?_
    rw [landing]
    by_cases hsh : s = header
    · rw [if_pos hsh, if_pos hsh]
    · have hiff : s ∈ body ↔ s ∈ inner := by
        rw [hinner]
        exact ⟨fun hb => hn.tail ⟨hsucc, hb, hsh⟩, fun hin => (he.inner hg hin).1⟩
      rw [if_neg hsh, if_neg hsh, if_congr hiff rfl rfl]
  case inj =>
    intro i j n m hi hj hn hm
    exact hs.inj_prepend hi hj ((hinner n).mp hn) ((hinner m).mp hm)
  case epilogue_ne => exact hs.layout.epilogue_ne
  case copy_ne =>
    intro i n hi hn
    exact hs.copy_ne hi ((hinner n).mp hn)
  case fresh_iff =>
    intro c
    simp only [hinner]
    exact hs.fresh_iff hg he hheader
  case mem_preds => exact hh.mem_preds

end Slots

/-! ### Counting -/

theorem Graph.count_eq_card (g : Graph) : g.count = g.ids.toFinset.card :=
  (List.toFinset_card_of_nodup (List.nodup_range.filter _)).symm

/-- The nodes of all copies. -/
def copiedNodes (factor : Nat) (inner : Finset NodeId) (copy : Nat → NodeId → NodeId) :
    Finset NodeId :=
  (Finset.range (factor + 1) ×ˢ inner).image fun p => copy p.1 p.2

theorem mem_copiedNodes {inner : Finset NodeId} {copy : Nat → NodeId → NodeId} :
    c ∈ copiedNodes factor inner copy ↔ ∃ i ≤ factor, ∃ n ∈ inner, c = copy i n := by
  simp only [copiedNodes, Finset.mem_image, Finset.mem_product, Finset.mem_range, Prod.exists,
    Nat.lt_succ_iff]
  exact ⟨fun ⟨i, n, ⟨hi, hn⟩, he⟩ => ⟨i, hi, n, hn, he.symm⟩,
    fun ⟨i, hi, n, hn, he⟩ => ⟨i, n, ⟨hi, hn⟩, he.symm⟩⟩

namespace CopiedLoop

variable {test : Expr} {inner : Finset NodeId} {copy : Nat → NodeId → NodeId}
  (hl : CopiedLoop g h body header entry exit factor test newHeader epilogue inner copy)

include hl

/-- Each copy has as many nodes as are entered. -/
theorem card_copiedNodes : (copiedNodes factor inner copy).card = (factor + 1) * inner.card := by
  rw [copiedNodes, Finset.card_image_of_injOn, Finset.card_product, Finset.card_range]
  rintro ⟨i, n⟩ hin ⟨j, m⟩ hjm he
  obtain ⟨hi, hn⟩ := Finset.mem_product.mp hin
  obtain ⟨hj, hm⟩ := Finset.mem_product.mp hjm
  obtain ⟨rfl, rfl⟩ := hl.inj (Nat.le_of_lt_succ (Finset.mem_range.mp hi))
    (Nat.le_of_lt_succ (Finset.mem_range.mp hj)) hn hm he
  rfl

theorem mem_fresh : c ∈ insert newHeader (insert epilogue (copiedNodes factor inner copy)) ↔
    g.bound ≤ c ∧ h.isLive c = true := by
  rw [Finset.mem_insert, Finset.mem_insert, mem_copiedNodes, hl.fresh_iff]

/-- So many nodes are new. -/
theorem card_fresh : (insert newHeader (insert epilogue (copiedNodes factor inner copy))).card =
    (factor + 1) * inner.card + 2 := by
  have hcopy {c : NodeId} (hc : c ∈ copiedNodes factor inner copy) :
      c ≠ newHeader ∧ c ≠ epilogue := by
    obtain ⟨i, hi, n, hn, rfl⟩ := mem_copiedNodes.mp hc
    exact hl.copy_ne hi hn
  have hepilogue : epilogue ∉ copiedNodes factor inner copy := fun hc => (hcopy hc).2 rfl
  have hnew : newHeader ∉ insert epilogue (copiedNodes factor inner copy) := fun hc =>
    (Finset.mem_insert.mp hc).elim (Ne.symm hl.epilogue_ne) fun hc => (hcopy hc).1 rfl
  rw [Finset.card_insert_of_notMem hnew, Finset.card_insert_of_notMem hepilogue,
    hl.card_copiedNodes]

/-- The new graph has the nodes that were there and the new ones. -/
theorem count_eq : h.count = g.count + (factor + 1) * inner.card + 2 := by
  have hunion : h.ids.toFinset =
      g.ids.toFinset ∪ insert newHeader (insert epilogue (copiedNodes factor inner copy)) := by
    ext c
    rw [Finset.mem_union, hl.mem_fresh, List.mem_toFinset, List.mem_toFinset, mem_ids, mem_ids]
    rcases Nat.lt_or_ge c g.bound with hlt | hge
    · have hlive : h.isLive c = g.isLive c := by
        rw [Bool.eq_iff_iff, isLive_iff_kind?, isLive_iff_kind?, hl.kind_old hlt]
      rw [hlive, or_iff_left fun hc => Nat.not_le.mpr hlt hc.1]
    · rw [or_iff_right fun hc => Nat.not_le.mpr (lt_bound_of_isLive hc) hge, and_iff_right hge]
  have hdisjoint : Disjoint g.ids.toFinset
      (insert newHeader (insert epilogue (copiedNodes factor inner copy))) := by
    refine Finset.disjoint_left.mpr fun c hc hnew => ?_
    rw [List.mem_toFinset, mem_ids] at hc
    exact Nat.not_le.mpr (lt_bound_of_isLive hc) (hl.mem_fresh.mp hnew).1
  rw [count_eq_card, count_eq_card, hunion, Finset.card_union_of_disjoint hdisjoint, hl.card_fresh,
    Nat.add_assoc]

end CopiedLoop

/-- A loop that is unrolled is copied exactly.  New are the new header, the epilogue, and the
disjoint copies, one for the epilogue and one for each round of the chain, of what the entry leads
to through the body without passing the header.  A copy keeps the kinds of its nodes.  Its edges
stay within it where the originals go to a copied node, go to its continuation where they go to the
header, and keep their targets otherwise.  Old nodes stay as they are, except that what leads to the
header from outside of the body leads to the new header. -/
theorem unrolled_copies_exact (hg : Built g) (hheader : header ∈ body)
    (hok : unrollLoop header body config g = .ok (.unrolled newHeader) h) :
    ∃ guard epilogue inner copy, Guard.analyze g header body config = .ok guard ∧
      g.succs header = [guard.entry, guard.exit] ∧
      (∀ n, n ∈ inner ↔ g.Inner body header guard.entry n) ∧
      CopiedLoop g h body header guard.entry guard.exit config.factor
        (guard.lookahead (.ofNat (config.factor - 1))) newHeader epilogue inner copy ∧
      h.count = g.count + (config.factor + 1) * inner.card + 2 := by
  have hw := hg.wellFormed
  have hh := (proper_unrollLoop header body config).wellFormed_of_ok hok hw
  obtain ⟨guard, v, epilogue, rest, copy, mark, ha, hanalyzed, hentry, hslots⟩ :=
    slots_of_ok hw hheader hok
  obtain ⟨hfactor, -⟩ := Guard.analyze_ok ha
  -- what the entry leads to lies in the body, so there are finitely many of them
  have hfinite : {n | g.Inner body header guard.entry n}.Finite :=
    body.toFinset.finite_toSet.subset fun n hn =>
      List.mem_toFinset.mpr (hentry.inner hw.toLinked hn).1
  have hinner n : n ∈ hfinite.toFinset ↔ g.Inner body header guard.entry n := hfinite.mem_toFinset
  have hloop := hslots.copiedLoop hw.toLinked hentry (isLive_of_kind? hanalyzed.kind_header)
    hh.toLinked hfactor hinner
  exact ⟨guard, epilogue, hfinite.toFinset, prepend rest copy, ha, hanalyzed.succs_header, hinner,
    hloop, hloop.count_eq⟩

/-- The outer loop, with the inner one and the way around it, has five nodes to copy: three copies
of them and two more nodes come to the eight that are there. -/
theorem unrolled_copies_exact_innerBeside :
    Built innerBeside ∧ ∃ newHeader h,
      unrollLoop 8 [2, 4, 5, 6, 7, 8] (.withFactor 2 10) innerBeside =
        .ok (.unrolled newHeader) h ∧
      innerBeside.count = 8 ∧ h.count = 25 ∧ ∃ (guard : Guard) (epilogue : NodeId)
        (inner : Finset NodeId) (copy : Nat → NodeId → NodeId),
        CopiedLoop innerBeside h [2, 4, 5, 6, 7, 8] 8 guard.entry guard.exit 2
          (guard.lookahead 1) newHeader epilogue inner copy ∧ inner.card = 5 := by
  have hunrolled : (match unrollLoop 8 [2, 4, 5, 6, 7, 8] (.withFactor 2 10) innerBeside with
      | .ok (.unrolled _) h => decide (h.count = 25)
      | .ok (.skipped _) _ => false
      | .error _ _ => false) = true := by decide +kernel
  split at hunrolled
  case h_1 newHeader h hok =>
    obtain ⟨guard, epilogue, inner, copy, -, -, -, hloop, hcount⟩ :=
      unrolled_copies_exact built_innerBeside (by decide) hok
    have hbefore : innerBeside.count = 8 := by decide +kernel
    have hafter : h.count = 25 := of_decide_eq_true hunrolled
    have htwo : (UnrollConfig.withFactor 2 10).factor = 2 := rfl
    rw [hbefore, hafter, htwo] at hcount
    exact ⟨built_innerBeside, newHeader, h, hok, hbefore, hafter, guard, epilogue, inner, copy,
      hloop, by omega⟩
  case h_2 | h_3 => cases hunrolled

end Flowgraph

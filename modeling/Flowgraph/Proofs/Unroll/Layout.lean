import Flowgraph.Proofs.Unroll.BodyCopies
import Flowgraph.Unroll.Loop

/-!
# The layout of an unrolled loop

Beside the old loop, to which nothing outside of it leads any more, there are a copy of the whole
loop and a chain of copies of its body behind a new header.  Slot by slot, what is new are an empty
slot, the copy of the body that goes with the epilogue, the epilogue, another empty slot, the copies
of the chain one after the other, and the new header.

* `Stacked`, `addChain_spec`: copies of the body, each leading to the one made before it.
* `Remainder`, `addEpilogue_spec`: a copy of the whole loop.
* `Entrances`, `moveEntries_spec`: what enters the old loop from outside is led elsewhere.
* `replaceLoop_ok`: the steps in which a loop is replaced.
* `Slots`, `replaceLoop_slots`: all slots of the unrolled graph.
* `Layout`, `Slots.layout`: what runs and paths see of it.
-/

namespace Flowgraph

open Flowgraph.Graph

variable {g h k : Graph} {body : List NodeId} {header entry exit back next stub real n c : NodeId}
  {floor : Nat}

/-! ### A chain of copies -/

/-- `c` enters a chain of so many copies of the body, of which each leads to the next one and the
last one to `back`. -/
inductive Chain (g h : Graph) (body : List NodeId) (header entry : NodeId) (floor : Nat)
    (back : NodeId) : Nat → NodeId → Prop
  | nil : Chain g h body header entry floor back 0 back
  | cons {j : Nat} {next : NodeId} {f : NodeId → NodeId}
      (hnext : Chain g h body header entry floor back j next)
      (hf : CopyOf g h body header entry floor next f) :
      Chain g h body header entry floor back (j + 1) (f entry)

namespace Chain

variable {j : Nat}

theorem floor_le (hc : Chain g h body header entry floor back j c) (hback : floor ≤ back) :
    floor ≤ c := by
  cases hc with
  | nil => exact hback
  | cons _ hf => exact hf.floor_le .refl

/-- A longer chain begins with a copy that leads to a shorter one. -/
theorem exists_of_succ (hc : Chain g h body header entry floor back (j + 1) c) :
    ∃ next f, c = f entry ∧ Chain g h body header entry floor back j next ∧
      CopyOf g h body header entry floor next f := by
  cases hc with
  | cons hnext hf => exact ⟨_, _, rfl, hnext, hf⟩

end Chain

/-- Where the copy of this number leads in the place of the header: to where the one before it is
entered, and the first one to `back`. -/
def onward (back entry : NodeId) (copy : Nat → NodeId → NodeId) : Nat → NodeId
  | 0 => back
  | i + 1 => copy i entry

/-- A sequence with one more element in front. -/
def prepend {α : Type} (a : α) (f : Nat → α) : Nat → α
  | 0 => a
  | i + 1 => f i

theorem onward_prepend (f : NodeId → NodeId) (copy : Nat → NodeId → NodeId) (i : Nat) :
    onward back entry (prepend f copy) (i + 1) = onward (f entry) entry copy i := by
  cases i <;> rfl

/-- Copy number `i` fills the slots from `mark i` to `mark (i + 1)`. -/
def Stacked (g h : Graph) (body : List NodeId) (header entry back : NodeId) (copies : Nat)
    (copy : Nat → NodeId → NodeId) (mark : Nat → Nat) : Prop :=
  ∀ i < copies, ExactCopy g h body header entry (mark i) (mark (i + 1))
    (onward back entry copy i) (copy i)

namespace Stacked

variable {copies i j : Nat} {copy : Nat → NodeId → NodeId} {mark : Nat → Nat}

/-- The marks ascend. -/
theorem mark_le (hs : Stacked g h body header entry back copies copy mark) (hij : i ≤ j)
    (hj : j ≤ copies) : mark i ≤ mark j := by
  induction hij with
  | refl => exact Nat.le_refl _
  | @step j _ ih =>
      exact Nat.le_trans (ih (Nat.le_of_succ_le hj)) (Nat.le_of_lt (hs j hj).low_lt_high)

theorem mark_zero_le (hs : Stacked g h body header entry back copies copy mark) (hi : i < copies)
    (hn : g.Inner body header entry n) : mark 0 ≤ copy i n :=
  Nat.le_trans (hs.mark_le (Nat.zero_le i) (Nat.le_of_lt hi)) ((hs i hi).floor_le hn)

theorem lt_mark_last (hs : Stacked g h body header entry back copies copy mark) (hi : i < copies)
    (hn : g.Inner body header entry n) : copy i n < mark copies :=
  Nat.lt_of_lt_of_le ((hs i hi).lt hn) (hs.mark_le hi (Nat.le_refl _))

/-- One more copy below the others, to which the first of them leads. -/
theorem cons {f : NodeId → NodeId} {low : Nat}
    (hf : ExactCopy g h body header entry low (mark 0) back f)
    (hs : Stacked g h body header entry (f entry) copies copy mark) :
    Stacked g h body header entry back (copies + 1) (prepend f copy) (prepend low mark) := by
  intro i hi
  cases i with
  | zero => exact hf
  | succ i =>
      rw [onward_prepend]
      exact hs i (Nat.lt_of_succ_lt_succ hi)

/-- A stack of copies is still one after the graph has grown. -/
theorem extend (hs : Stacked g h body header entry back copies copy mark) (hg : g.Linked)
    (he : Entry g body header entry) (hext : h.Extends k) :
    Stacked g k body header entry back copies copy mark :=
  fun i hi => (hs i hi).extend hg he hext

/-- Resolving the stub that the first copy leads back to. -/
theorem resolve (hs : Stacked g h body header entry stub copies copy mark) (hg : g.Linked)
    (hstub : g.bound ≤ stub) (hlow : stub < mark 0) (hr : Resolves stub real h k) :
    Stacked g k body header entry real copies copy mark := by
  intro i hi
  have hout := Nat.lt_of_lt_of_le hlow (hs.mark_le (Nat.zero_le i) (Nat.le_of_lt hi))
  have hcopy := (hs i hi).resolve hg hstub (.inl hout) hr
  cases i with
  | zero => rwa [onward, divert_self] at hcopy
  | succ i =>
      have hne : copy i entry ≠ stub := Nat.ne_of_gt
        (Nat.lt_of_lt_of_le hlow (hs.mark_zero_le (Nat.lt_of_succ_lt hi) .refl))
      rwa [onward, divert_of_ne hne] at hcopy

/-- A stack of copies is a chain, entered at the last of them. -/
theorem chain (hs : Stacked g h body header entry back copies copy mark) (hfloor : floor ≤ mark 0) :
    Chain g h body header entry floor back copies (onward back entry copy copies) := by
  induction copies with
  | zero => exact .nil
  | succ copies ih =>
      have hlow := hs.mark_le (Nat.zero_le copies) (Nat.le_succ copies)
      exact .cons (ih fun i hi => hs i (Nat.lt_succ_of_lt hi))
        ((hs copies (Nat.lt_succ_self _)).toCopyOf.mono (Nat.le_trans hfloor hlow))

/-- A slot that is taken up belongs to one of the copies. -/
theorem exists_eq (hs : Stacked g h body header entry back copies copy mark) (hlow : mark 0 ≤ c)
    (hlt : c < mark copies) (hlive : h.isLive c = true) :
    ∃ i < copies, ∃ n, g.Inner body header entry n ∧ c = copy i n := by
  induction copies with
  | zero => exact absurd hlt (Nat.not_lt.mpr hlow)
  | succ copies ih =>
      by_cases hc : c < mark copies
      · obtain ⟨i, hi, hn⟩ := ih (fun i hi => hs i (Nat.lt_succ_of_lt hi)) hc
        exact ⟨i, Nat.lt_succ_of_lt hi, hn⟩
      · exact ⟨copies, Nat.lt_succ_self _,
          (hs copies (Nat.lt_succ_self _)).exists_eq (Nat.le_of_not_lt hc) hlt hlive⟩

/-- Different nodes have different copies, and so has one node in different copies of the body. -/
theorem inj (hs : Stacked g h body header entry back copies copy mark) (hi : i < copies)
    (hj : j < copies) {m : NodeId} (hn : g.Inner body header entry n)
    (hm : g.Inner body header entry m) (he : copy i n = copy j m) : i = j ∧ n = m := by
  have hapart {i j : Nat} {n m : NodeId} (hij : i < j) (hj : j < copies)
      (hn : g.Inner body header entry n) (hm : g.Inner body header entry m) :
      copy i n < copy j m :=
    Nat.lt_of_lt_of_le ((hs i (Nat.lt_trans hij hj)).lt hn)
      (Nat.le_trans (hs.mark_le hij (Nat.le_of_lt hj)) ((hs j hj).floor_le hm))
  rcases Nat.lt_trichotomy i j with hij | rfl | hij
  · exact absurd he (Nat.ne_of_lt (hapart hij hj hn hm))
  · exact ⟨rfl, (hs i hi).inj hn hm he⟩
  · exact absurd he (Nat.ne_of_gt (hapart hij hi hm hn))

end Stacked

/-- As many copies are made as are asked for, and they fill the slots that are added. -/
theorem addChain_spec {copies : Nat} (hg : g.Linked) (he : Entry g body header entry)
    (hgh : g.Extends h) (hh : h.WellFormed) (hback : back < h.bound)
    (hok : addChain header body entry back copies h = .ok c k) :
    h.Extends k ∧ k.WellFormed ∧ ∃ copy mark, mark 0 = h.bound ∧ mark copies = k.bound ∧
      c = onward back entry copy copies ∧
      Stacked g k body header entry back copies copy mark := by
  induction copies generalizing h back with
  | zero =>
      cases hok
      exact ⟨.refl _, hh, fun _ => id, fun _ => k.bound, rfl, rfl, rfl, nofun⟩
  | succ copies ih =>
      obtain ⟨d, m, hcopy, hok⟩ := Edit.bind_eq_ok.mp hok
      obtain ⟨hext, hm, f, rfl, hf⟩ := copyBody_spec hg he hgh hh hback hcopy
      obtain ⟨hext', hk, copy, mark, hfirst, hlast, rfl, hs⟩ := ih (hgh.trans hext) hm
        (hf.toCopyOf.lt_bound hg he .refl) hok
      refine ⟨hext.trans hext', hk, prepend f copy, prepend h.bound mark, rfl, hlast,
        (onward_prepend f copy copies).symm, .cons ?_ hs⟩
      rw [hfirst]
      exact hf.extend hg he hext'

/-! ### A copy of the whole loop -/

/-- `epilogue` is a copy of the header; it leads to a copy of the body, which leads back to it, and
to the exit of the loop. -/
structure Epilogue (g h : Graph) (body : List NodeId) (header entry exit epilogue : NodeId)
    (rest : NodeId → NodeId) : Prop where
  kind_eq : h.kind? epilogue = g.kind? header
  succs_eq : h.succs epilogue = [rest entry, exit]
  copy : CopyOf g h body header entry g.bound epilogue rest
  bound_le : g.bound ≤ epilogue

/-- The first new slot is empty, those up to the epilogue hold the copy of the body, and the
epilogue leads to it and to the exit of the loop. -/
structure Remainder (g h : Graph) (body : List NodeId) (header entry exit epilogue : NodeId)
    (rest : NodeId → NodeId) : Prop where
  kind_eq : h.kind? epilogue = g.kind? header
  succs_eq : h.succs epilogue = [rest entry, exit]
  copy : ExactCopy g h body header entry (g.bound + 1) epilogue epilogue rest
  vacant : h.kind? g.bound = none

namespace Remainder

variable {epilogue : NodeId} {rest : NodeId → NodeId}

theorem bound_lt (hrem : Remainder g h body header entry exit epilogue rest) : g.bound < epilogue :=
  Nat.lt_of_succ_lt hrem.copy.low_lt_high

theorem lt_bound (hrem : Remainder g h body header entry exit epilogue rest)
    (hheader : g.isLive header = true) : epilogue < h.bound := by
  obtain ⟨kind, hk⟩ := isLive_iff_kind?.mp hheader
  exact lt_bound_of_kind? (hrem.kind_eq.trans hk)

theorem toEpilogue (hrem : Remainder g h body header entry exit epilogue rest) :
    Epilogue g h body header entry exit epilogue rest where
  kind_eq := hrem.kind_eq
  succs_eq := hrem.succs_eq
  copy := hrem.copy.toCopyOf.mono (Nat.le_succ _)
  bound_le := Nat.le_of_lt hrem.bound_lt

/-- The remainder is still one after the graph has grown. -/
theorem extend (hrem : Remainder g h body header entry exit epilogue rest) (hg : g.Linked)
    (he : Entry g body header entry) (hheader : g.isLive header = true) (hext : h.Extends k) :
    Remainder g k body header entry exit epilogue rest where
  kind_eq := (hext.kind_eq (hrem.lt_bound hheader)).trans hrem.kind_eq
  succs_eq := (hext.succs_eq (hrem.lt_bound hheader)).trans hrem.succs_eq
  copy := hrem.copy.extend hg he hext
  vacant :=
    (hext.kind_eq (Nat.lt_trans hrem.bound_lt (hrem.lt_bound hheader))).trans hrem.vacant

/-- Resolving a stub behind all this changes nothing. -/
theorem resolve (hrem : Remainder g h body header entry exit epilogue rest) (hg : g.Linked)
    (hexit : g.isLive exit = true) (hstub : epilogue < stub) (hr : Resolves stub real h k) :
    Remainder g k body header entry exit epilogue rest where
  kind_eq := (hr.kind?_of_ne (Nat.ne_of_gt hstub)).trans hrem.kind_eq
  succs_eq := by
    have hrest : rest entry ≠ stub := Nat.ne_of_lt (Nat.lt_trans (hrem.copy.lt .refl) hstub)
    have hexit' : exit ≠ stub := Nat.ne_of_lt
      (Nat.lt_trans (lt_bound_of_isLive hexit) (Nat.lt_trans hrem.bound_lt hstub))
    rw [hr.succs_of_ne (Nat.ne_of_gt hstub), hrem.succs_eq, List.map_cons, List.map_singleton,
      divert_of_ne hrest, divert_of_ne hexit']
  copy := by
    have hcopy := hrem.copy.resolve hg (Nat.le_of_lt (Nat.lt_trans hrem.bound_lt hstub))
      (.inr (Nat.le_of_lt hstub)) hr
    rwa [divert_of_ne (Nat.ne_of_lt hstub)] at hcopy
  vacant := (hr.kind?_of_ne (Nat.ne_of_gt (Nat.lt_trans hrem.bound_lt hstub))).trans hrem.vacant

/-- The header is copied after the body, and then takes the place of the stub that the copy of the
body leads back to. -/
theorem of_resolve {test : Expr} (hg : g.Linked) (he : Entry g body header entry)
    (hexit : g.isLive exit = true) (hheader : g.kind? header = some (.branch test))
    (hcopy : ExactCopy g h body header entry (g.bound + 1) h.bound g.bound rest)
    (hr : Resolves g.bound h.bound (h.attach (.branch test) [rest entry, exit]) k) :
    Remainder g k body header entry exit h.bound rest := by
  have hnew : g.bound ≠ h.bound := Nat.ne_of_lt (Nat.lt_of_succ_lt hcopy.low_lt_high)
  have hrest : rest entry ≠ g.bound := Nat.ne_of_gt (hcopy.floor_le .refl)
  constructor
  case kind_eq => rw [hr.kind?_of_ne hnew, kind?_attach, if_pos rfl, hheader]
  case succs_eq =>
    rw [hr.succs_of_ne hnew, succs_attach, if_pos rfl, targetsOf_of_ne Kind.noConfusion,
      List.map_cons, List.map_singleton, divert_of_ne hrest,
      divert_of_ne (Nat.ne_of_lt (lt_bound_of_isLive hexit))]
  case copy =>
    have hcopies := (hcopy.extend hg he (.attach ..)).resolve hg (Nat.le_refl _)
      (.inl (Nat.lt_succ_self _)) hr
    rwa [divert_self] at hcopies
  case vacant => rw [hr.kind_eq, if_pos rfl]

end Remainder

/-- What is built first is a copy of the loop that leaves where the loop leaves. -/
theorem addEpilogue_spec {guard : Guard} {test : Expr} (hg : g.WellFormed)
    (he : Entry g body header guard.entry) (hexit : g.isLive guard.exit = true)
    (hheader : g.kind? header = some (.branch test))
    (hok : addEpilogue header body guard g = .ok c h) :
    g.Extends h ∧ h.WellFormed ∧ h.bound = c + 1 ∧
      ∃ rest, Remainder g h body header guard.entry guard.exit c rest := by
  obtain ⟨stub, g₁, hstub, hok⟩ := Edit.bind_eq_ok.mp hok
  obtain ⟨copy, g₂, hcopy, hok⟩ := Edit.bind_eq_ok.mp hok
  obtain ⟨_, g₃, hclone, hok⟩ := Edit.bind_eq_ok.mp hok
  obtain ⟨_, _, hresolve, hok⟩ := Edit.bind_eq_ok.mp hok
  cases hok
  have hg₁ := (Edit.proper_addNode .stub []).wellFormed_of_ok hstub hg
  obtain ⟨rfl, rfl⟩ := Edit.addNode_ok hstub
  have hlt := lt_bound_attach g .stub []
  have hext₁ : g.Extends (g.attach .stub []) := .attach ..
  obtain ⟨hext₂, hg₂, rest, rfl, hrest⟩ := copyBody_spec hg.toLinked he hext₁ hg₁ hlt hcopy
  have hg₃ := (Edit.proper_cloneNode header _).wellFormed_of_ok hclone hg₂
  obtain ⟨kind, hk, rfl, rfl⟩ := Edit.cloneNode_ok hclone
  have hext := hext₁.trans hext₂
  obtain rfl : kind = .branch test :=
    Option.some.inj (hk.symm.trans (hext.kind?_of_some hheader))
  have hresolves := Edit.resolveStub_ok hg₃.toLinked hresolve
  rw [bound_attach] at hrest
  refine ⟨(hext.trans (.attach ..)).resolve hg.toLinked (Nat.le_refl _) hresolves,
    (Edit.proper_resolveStub _ _).wellFormed_of_ok hresolve hg₃, ?_, rest,
    .of_resolve hg.toLinked he hexit hheader hrest hresolves⟩
  rw [hresolves.bound_eq, bound_attach]

/-! ### What enters the old loop -/

/-- The edges to the header are led to another node, except those that come from the body. -/
structure Entrances (header : NodeId) (body : List NodeId) (real : NodeId) (g h : Graph) :
    Prop where
  bound_eq : h.bound = g.bound
  kind_eq : ∀ n, h.kind? n = g.kind? n
  succs_eq : ∀ n, h.succs n =
    if n ∈ body then g.succs n else (g.succs n).map (divert header real)

/-- Leading several nodes elsewhere changes the edges of these alone. -/
theorem forM_replaceSucc_ok {ps : List NodeId} (hnd : ps.Nodup)
    (hok : ps.forM (fun p => Edit.replaceSucc p header real) g = .ok () h) :
    h.bound = g.bound ∧ ∀ n, h.kind? n = g.kind? n ∧
      h.succs n = if n ∈ ps then (g.succs n).map (divert header real) else g.succs n := by
  induction ps generalizing g with
  | nil =>
      cases hok
      exact ⟨rfl, fun n => ⟨rfl, (if_neg List.not_mem_nil).symm⟩⟩
  | cons p ps ih =>
      obtain ⟨hp, hnd⟩ := List.nodup_cons.mp hnd
      obtain ⟨_, m, hfirst, hok⟩ := Edit.bind_eq_ok.mp hok
      obtain ⟨hbound, hrest⟩ := ih hnd hok
      obtain rfl := Edit.replaceSucc_ok hfirst
      refine ⟨hbound.trans (bound_moveEdges ..), fun n => ?_⟩
      obtain ⟨hkind, hsuccs⟩ := hrest n
      rw [kind?_moveEdges] at hkind
      rw [succs_moveEdges] at hsuccs
      refine ⟨hkind, hsuccs.trans ?_⟩
      by_cases e : p = n
      · subst e
        rw [if_neg hp, if_pos rfl, if_pos List.mem_cons_self]
      · rw [if_neg e]
        simp only [List.mem_cons, or_iff_right (Ne.symm e)]

/-- The entries from outside the body lead to the new header, and nothing else has changed. -/
theorem moveEntries_spec (hg : g.WellFormed)
    (hok : moveEntries header body real g = .ok () h) : Entrances header body real g h := by
  rw [moveEntries, Edit.bind_ok (Edit.get_apply g)] at hok
  obtain ⟨hbound, hspec⟩ := forM_replaceSucc_ok ((hg.nodup_preds header).filter _) hok
  refine ⟨hbound, fun n => (hspec n).1, fun n => (hspec n).2.trans ?_⟩
  have hmem : n ∈ (g.preds header).filter (fun p => !body.contains p) ↔
      header ∈ g.succs n ∧ n ∉ body := by
    rw [List.mem_filter, hg.mem_preds, Bool.not_eq_true', ← Bool.not_eq_true,
      List.contains_iff_mem]
  by_cases hb : n ∈ body
  · rw [if_pos hb, if_neg fun hn => (hmem.mp hn).2 hb]
  · rw [if_neg hb]
    by_cases hs : header ∈ g.succs n
    · rw [if_pos (hmem.mpr ⟨hs, hb⟩)]
    · rw [if_neg fun hn => hs (hmem.mp hn).1, map_divert_of_not_mem hs]

namespace Entrances

/-- A node without an edge to the old header keeps its edges. -/
theorem succs_of_not_mem (hr : Entrances header body real h k) (hn : header ∉ h.succs n) :
    k.succs n = h.succs n := by
  rw [hr.succs_eq]
  split
  · rfl
  · exact map_divert_of_not_mem hn

/-- No copy leads to the old header, so that copies stay as they are. -/
theorem exactCopy {f : NodeId → NodeId} {low high : Nat} (hr : Entrances header body real h k)
    (hf : ExactCopy g h body header entry low high back f) (hheader : header < low)
    (hback : header ≠ back) : ExactCopy g k body header entry low high back f where
  kind_eq hn := (hr.kind_eq _).trans (hf.kind_eq hn)
  succs_eq {n} hn := by
    rw [hr.succs_of_not_mem fun hmem => ?_, hf.succs_eq hn]
    rw [hf.succs_eq hn] at hmem
    obtain ⟨s, hs, he⟩ := List.mem_map.mp hmem
    rw [landing] at he
    split at he
    · exact hback he.symm
    · next hne =>
        split at he
        · next hb => exact Nat.not_le.mpr hheader (he ▸ hf.floor_le (hn.tail ⟨hs, hb, hne⟩))
        · exact hne he
  floor_le := hf.floor_le
  lt := hf.lt
  inj := hf.inj
  exists_eq {c} hlow hhigh hlive := by
    obtain ⟨kind, hk⟩ := isLive_iff_kind?.mp hlive
    exact hf.exists_eq hlow hhigh (isLive_of_kind? ((hr.kind_eq c).symm.trans hk))
  high_le := hr.bound_eq ▸ hf.high_le

/-- The copies of the chain do not lead to the old header, so that they stay as they are. -/
theorem stacked {copies : Nat} {copy : Nat → NodeId → NodeId} {mark : Nat → Nat}
    (hr : Entrances header body real h k)
    (hs : Stacked g h body header entry back copies copy mark) (hheader : header < mark 0)
    (hback : header ≠ back) : Stacked g k body header entry back copies copy mark := by
  intro i hi
  have hlow := Nat.lt_of_lt_of_le hheader (hs.mark_le (Nat.zero_le i) (Nat.le_of_lt hi))
  refine hr.exactCopy (hs i hi) hlow ?_
  cases i with
  | zero => exact hback
  | succ i =>
      exact Nat.ne_of_lt
        (Nat.lt_of_lt_of_le hheader (hs.mark_zero_le (Nat.lt_of_succ_lt hi) .refl))

/-- Nor does the copy of the loop. -/
theorem remainder {epilogue : NodeId} {rest : NodeId → NodeId} (hr : Entrances header body real h k)
    (hrem : Remainder g h body header entry exit epilogue rest) (hheader : header < g.bound)
    (hexit : exit ≠ header) : Remainder g k body header entry exit epilogue rest where
  kind_eq := (hr.kind_eq _).trans hrem.kind_eq
  succs_eq := by
    rw [hr.succs_of_not_mem fun hmem => ?_, hrem.succs_eq]
    rw [hrem.succs_eq, List.mem_pair] at hmem
    rcases hmem with e | e
    · exact Nat.not_lt.mpr (Nat.le_of_lt hheader) (e ▸ hrem.copy.floor_le .refl)
    · exact hexit e.symm
  copy := hr.exactCopy hrem.copy (Nat.lt_succ_of_lt hheader)
    (Nat.ne_of_lt (Nat.lt_trans hheader hrem.bound_lt))
  vacant := (hr.kind_eq _).trans hrem.vacant

end Entrances

/-! ### All slots -/

/-- The unrolled graph slot by slot. -/
structure Slots (g h : Graph) (body : List NodeId) (header entry exit : NodeId) (factor : Nat)
    (test : Expr) (newHeader epilogue : NodeId) (rest : NodeId → NodeId)
    (copy : Nat → NodeId → NodeId) (mark : Nat → Nat) : Prop where
  kind_old : ∀ {n}, n < g.bound → h.kind? n = g.kind? n
  succs_old : ∀ {n}, n < g.bound →
    h.succs n = if n ∈ body then g.succs n else (g.succs n).map (divert header newHeader)
  remainder : Remainder g h body header entry exit epilogue rest
  vacant : h.kind? (epilogue + 1) = none
  mark_zero : mark 0 = epilogue + 2
  stacked : Stacked g h body header entry newHeader factor copy mark
  mark_last : mark factor = newHeader
  kind_new : h.kind? newHeader = some (.branch test)
  succs_new : h.succs newHeader = [onward newHeader entry copy factor, epilogue]
  bound_eq : h.bound = newHeader + 1

/-- The new header is added after the chain, and then takes the place of the stub that the chain
leads back to; what enters the loop is moved in the end. -/
theorem Slots.of_resolve {test : Expr} {factor : Nat} {epilogue : NodeId}
    {rest : NodeId → NodeId} {copy : Nat → NodeId → NodeId} {mark : Nat → Nat} {g₄ g₅ : Graph}
    (hg : g.Linked) (he : Entry g body header entry) (hexit : g.isLive exit = true)
    (hne : exit ≠ header) (hheader : g.isLive header = true) (hgh : g.Extends h)
    (hrem : Remainder g h body header entry exit epilogue rest) (hfirst : mark 0 = epilogue + 2)
    (hlast : mark factor = h.bound)
    (hs : Stacked g h body header entry (epilogue + 1) factor copy mark)
    (hr : Resolves (epilogue + 1) h.bound
      (h.attach (.branch test) [onward (epilogue + 1) entry copy factor, epilogue]) g₄)
    (hen : Entrances header body h.bound g₄ g₅) :
    Slots g g₅ body header entry exit factor test h.bound epilogue rest copy mark := by
  have hext : h.Extends
      (h.attach (.branch test) [onward (epilogue + 1) entry copy factor, epilogue]) := .attach ..
  have hstub : epilogue < epilogue + 1 := Nat.lt_succ_self _
  have hgstub : g.bound ≤ epilogue + 1 := Nat.le_of_lt (Nat.lt_trans hrem.bound_lt hstub)
  have hlow : epilogue + 1 < mark 0 := hfirst ▸ Nat.lt_succ_self _
  have hlt : mark 0 ≤ h.bound := hlast ▸ hs.mark_le (Nat.zero_le _) (Nat.le_refl _)
  have hnew : epilogue + 1 ≠ h.bound := Nat.ne_of_lt (Nat.lt_of_lt_of_le hlow hlt)
  have hbound := lt_bound_of_isLive hheader
  have hmark : header < mark 0 :=
    Nat.lt_of_lt_of_le hbound (Nat.le_trans hgstub (Nat.le_of_lt hlow))
  have hbase : g.Extends g₄ := (hgh.trans hext).resolve hg hgstub hr
  have hrem₄ := (hrem.extend hg he hheader hext).resolve hg hexit hstub hr
  have hs₄ := (hs.extend hg he hext).resolve hg hgstub hlow hr
  -- without copies the new header led to the stub that it now stands for
  have hsuccs : g₄.succs h.bound = [onward h.bound entry copy factor, epilogue] := by
    rw [hr.succs_of_ne hnew, succs_attach, if_pos rfl, targetsOf_of_ne Kind.noConfusion,
      List.map_cons, List.map_singleton, divert_of_ne (Nat.ne_of_lt hstub)]
    cases factor with
    | zero => rw [onward, onward, divert_self]
    | succ i =>
        have hentry : copy i entry ≠ epilogue + 1 := Nat.ne_of_gt
          (Nat.lt_of_lt_of_le hlow (hs.mark_zero_le (Nat.lt_succ_self _) .refl))
        rw [onward, onward, divert_of_ne hentry]
  constructor
  case kind_old =>
    intro n hn
    rw [hen.kind_eq, hbase.kind_eq hn]
  case succs_old =>
    intro n hn
    rw [hen.succs_eq, hbase.succs_eq hn]
  case remainder => exact hen.remainder hrem₄ hbound hne
  case vacant => rw [hen.kind_eq, hr.kind_eq, if_pos rfl]
  case mark_zero => exact hfirst
  case stacked =>
    exact hen.stacked hs₄ hmark (Nat.ne_of_lt (Nat.lt_of_lt_of_le hmark hlt))
  case mark_last => exact hlast
  case kind_new => rw [hen.kind_eq, hr.kind?_of_ne hnew, kind?_attach, if_pos rfl]
  case succs_new =>
    -- the new header leads to new nodes only, so none of its edges is moved
    rw [hen.succs_of_not_mem, hsuccs]
    rw [hsuccs, List.mem_pair]
    rintro (e | e)
    · cases factor with
      | zero => exact Nat.ne_of_lt (Nat.lt_of_lt_of_le hmark hlt) e
      | succ i =>
          exact Nat.ne_of_lt
            (Nat.lt_of_lt_of_le hmark (hs.mark_zero_le (Nat.lt_succ_self _) .refl)) e
    · exact Nat.ne_of_lt (Nat.lt_trans hbound hrem.bound_lt) e
  case bound_eq => rw [hen.bound_eq, hr.bound_eq, bound_attach]

/-- The epilogue is added, then a stub, the chain that leads to it and the new header, which takes
the place of the stub; the edges into the loop are moved last. -/
theorem replaceLoop_ok {guard : Guard} {factor : Nat} {newHeader : NodeId} (hg : g.WellFormed)
    (hok : replaceLoop header body guard factor g = .ok newHeader h) :
    ∃ epilogue g₁ chain g₂ g₃,
      addEpilogue header body guard g = .ok epilogue g₁ ∧
      (g₁.attach .stub []).WellFormed ∧
      addChain header body guard.entry g₁.bound factor (g₁.attach .stub []) = .ok chain g₂ ∧
      newHeader = g₂.bound ∧
      (g₂.attach (.branch (guard.lookahead (.ofNat (factor - 1)))) [chain, epilogue]).WellFormed ∧
      Edit.resolveStub g₁.bound newHeader
        (g₂.attach (.branch (guard.lookahead (.ofNat (factor - 1)))) [chain, epilogue]) =
        .ok () g₃ ∧
      g₃.WellFormed ∧ moveEntries header body newHeader g₃ = .ok () h := by
  obtain ⟨epilogue, g₁, hepilogue, hok⟩ := Edit.bind_eq_ok.mp hok
  obtain ⟨stub, m, hstub, hok⟩ := Edit.bind_eq_ok.mp hok
  obtain ⟨chain, g₂, hchain, hok⟩ := Edit.bind_eq_ok.mp hok
  obtain ⟨_, k, hbranch, hok⟩ := Edit.bind_eq_ok.mp hok
  obtain ⟨_, g₃, hresolve, hok⟩ := Edit.bind_eq_ok.mp hok
  obtain ⟨_, _, hmove, hok⟩ := Edit.bind_eq_ok.mp hok
  cases hok
  have hg₁ := (proper_addEpilogue header body guard).wellFormed_of_ok hepilogue hg
  have hm := (Edit.proper_addNode .stub []).wellFormed_of_ok hstub hg₁
  have hg₂ := (proper_addChain header body guard.entry stub factor).wellFormed_of_ok hchain hm
  have hk := (Edit.proper_addNode (.branch _) _).wellFormed_of_ok hbranch hg₂
  have hg₃ := (Edit.proper_resolveStub _ _).wellFormed_of_ok hresolve hk
  obtain ⟨rfl, rfl⟩ := Edit.addNode_ok hstub
  obtain ⟨rfl, rfl⟩ := Edit.addNode_ok hbranch
  exact ⟨epilogue, g₁, chain, g₂, g₃, hepilogue, hm, hchain, rfl, hk, hresolve, hg₃, hmove⟩

/-- Where all the parts of an unrolled loop are. -/
theorem replaceLoop_slots {guard : Guard} {test : Expr} {factor : Nat} {newHeader : NodeId}
    (hg : g.WellFormed) (he : Entry g body header guard.entry)
    (hexit : g.isLive guard.exit = true) (hne : guard.exit ≠ header)
    (hheader : g.kind? header = some (.branch test))
    (hok : replaceLoop header body guard factor g = .ok newHeader h) :
    ∃ epilogue rest copy mark, Slots g h body header guard.entry guard.exit factor
      (guard.lookahead (.ofNat (factor - 1))) newHeader epilogue rest copy mark := by
  obtain ⟨epilogue, g₁, chain, g₂, g₃, hepilogue, hstub, hchain, rfl, hbranch, hresolve, hg₃,
    hmove⟩ := replaceLoop_ok hg hok
  have hlive : g.isLive header = true := isLive_of_kind? hheader
  obtain ⟨hext₁, -, hbound, rest, hrem⟩ := addEpilogue_spec hg he hexit hheader hepilogue
  have hext₂ : g₁.Extends (g₁.attach .stub []) := .attach ..
  obtain ⟨hext₃, -, copy, mark, hfirst, hlast, rfl, hs⟩ := addChain_spec hg.toLinked he
    (hext₁.trans hext₂) hstub (lt_bound_attach g₁ .stub []) hchain
  have hresolves := Edit.resolveStub_ok hbranch.toLinked hresolve
  rw [bound_attach] at hfirst
  rw [hbound] at hfirst hs hresolves
  exact ⟨epilogue, rest, copy, mark, .of_resolve hg.toLinked he hexit hne hlive
    (hext₁.trans (hext₂.trans hext₃)) (hrem.extend hg.toLinked he hlive (hext₂.trans hext₃))
    hfirst hlast hs hresolves (moveEntries_spec hg₃ hmove)⟩

/-! ### Everything together -/

/-- The unrolled graph: the old nodes, with what entered the loop led to a new header, which leads
to a chain of copies of the body and to a copy of the whole loop. -/
structure Layout (g h : Graph) (body : List NodeId) (header entry exit : NodeId) (factor : Nat)
    (test : Expr) (newHeader chain epilogue : NodeId) (rest : NodeId → NodeId) : Prop where
  kind_old : ∀ {n}, n < g.bound → h.kind? n = g.kind? n
  succs_old : ∀ {n}, n < g.bound →
    h.succs n = if n ∈ body then g.succs n else (g.succs n).map (divert header newHeader)
  kind_new : h.kind? newHeader = some (.branch test)
  succs_new : h.succs newHeader = [chain, epilogue]
  chained : Chain g h body header entry g.bound newHeader factor chain
  remainder : Epilogue g h body header entry exit epilogue rest
  epilogue_ne : epilogue ≠ newHeader
  chain_ne : chain ≠ epilogue

namespace Slots

variable {factor : Nat} {test : Expr} {newHeader epilogue : NodeId} {rest : NodeId → NodeId}
  {copy : Nat → NodeId → NodeId} {mark : Nat → Nat}

theorem epilogue_lt_mark
    (hs : Slots g h body header entry exit factor test newHeader epilogue rest copy mark) :
    epilogue < mark 0 := by
  rw [hs.mark_zero]
  exact Nat.lt_succ_of_lt (Nat.lt_succ_self _)

theorem mark_le_newHeader
    (hs : Slots g h body header entry exit factor test newHeader epilogue rest copy mark) :
    mark 0 ≤ newHeader :=
  hs.mark_last ▸ hs.stacked.mark_le (Nat.zero_le factor) (Nat.le_refl factor)

/-- Without the slots this is the layout that a run goes through. -/
theorem layout
    (hs : Slots g h body header entry exit factor test newHeader epilogue rest copy mark) :
    Layout g h body header entry exit factor test newHeader
      (onward newHeader entry copy factor) epilogue rest := by
  have hmark := hs.epilogue_lt_mark
  have hnew := hs.mark_le_newHeader
  have hlow : g.bound ≤ mark 0 := Nat.le_of_lt (Nat.lt_trans hs.remainder.bound_lt hmark)
  have hchain := hs.stacked.chain (Nat.le_refl _)
  exact {
    kind_old := hs.kind_old
    succs_old := hs.succs_old
    kind_new := hs.kind_new
    succs_new := hs.succs_new
    chained := hs.stacked.chain hlow
    remainder := hs.remainder.toEpilogue
    epilogue_ne := Nat.ne_of_lt (Nat.lt_of_lt_of_le hmark hnew)
    chain_ne := Nat.ne_of_gt (Nat.lt_of_lt_of_le hmark (hchain.floor_le hnew)) }

end Slots

end Flowgraph

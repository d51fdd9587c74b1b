import Flowgraph.Proofs.Unroll.Copies

/-!
# Copies of a body, seen from outside

A copy of a body has one node for each node that the entry leads to inside of the body, and nothing
else is left of the copying: no stub, and no node that stands for none.

* `Graph.Inner`: what the entry leads to through the body without passing the header.
* `Accounted`, `copyNode_accounts`: only such nodes are copied, and what is new is a copy of one.
* `CopyOf`, `ExactCopy`: copies that lead as their originals do, and that are all there is between
  two slots.
* `copyBody_spec`: a successful copy of a body is an exact one.
-/

namespace Flowgraph

open Flowgraph.Graph

variable {g h k : Graph} {body opened : List NodeId} {header back entry n m c d s : NodeId}
  {σ τ : CopyMap}

/-! ### What the entry leads to -/

namespace Graph

/-- An edge to a node of the body other than the header. -/
def Within (g : Graph) (body : List NodeId) (header a b : NodeId) : Prop :=
  b ∈ g.succs a ∧ b ∈ body ∧ b ≠ header

/-- `entry` leads to the node through the body without passing the header. -/
def Inner (g : Graph) (body : List NodeId) (header entry : NodeId) : NodeId → Prop :=
  Relation.ReflTransGen (g.Within body header) entry

end Graph

/-- The entry of a loop: a node of the body other than the header. -/
structure Entry (g : Graph) (body : List NodeId) (header entry : NodeId) : Prop where
  mem : entry ∈ body
  ne : entry ≠ header
  isLive : g.isLive entry = true

namespace Entry

/-- What is entered lies in the body and is not the header. -/
theorem inner (he : Entry g body header entry) (hg : g.Linked)
    (hn : g.Inner body header entry n) : n ∈ body ∧ n ≠ header ∧ g.isLive n = true := by
  induction hn with
  | refl => exact ⟨he.mem, he.ne, he.isLive⟩
  | tail _ hstep _ => exact ⟨hstep.2.1, hstep.2.2, hg.isLive_succ hstep.1⟩

theorem lt_bound (he : Entry g body header entry) (hg : g.Linked)
    (hn : g.Inner body header entry n) : n < g.bound :=
  lt_bound_of_isLive (he.inner hg hn).2.2

/-- The entry is still one after the graph has grown. -/
theorem extend (he : Entry g body header entry) (hext : g.Extends h) :
    Entry h body header entry := ⟨he.mem, he.ne, hext.isLive he.isLive⟩

/-- It leads nowhere else in a graph that has more nodes. -/
theorem inner_iff (he : Entry g body header entry) (hg : g.Linked) (hext : g.Extends h) :
    h.Inner body header entry n ↔ g.Inner body header entry n := by
  constructor
  · intro hn
    induction hn with
    | refl => exact .refl
    | tail _ hstep ih => exact ih.tail ⟨hext.succs_eq (he.lt_bound hg ih) ▸ hstep.1, hstep.2⟩
  · intro hn
    induction hn with
    | refl => exact .refl
    | tail ha hstep ih => exact ih.tail ⟨hext.succs_eq (he.lt_bound hg ha) ▸ hstep.1, hstep.2⟩

end Entry

/-! ### Nothing else is copied, and nothing else is new -/

/-- What has a stand-in is led to by the entry, and every new node is the stand-in of one. -/
structure Accounted (g : Graph) (body : List NodeId) (header entry : NodeId) (σ : CopyMap)
    (h : Graph) : Prop where
  inner : ∀ {n c}, σ.lookup n = some c → g.Inner body header entry n
  exists_lookup : ∀ {c}, g.bound ≤ c → h.isLive c = true → ∃ n, σ.lookup n = some c

namespace Accounted

/-- Before anything is copied there is nothing to account for. -/
theorem init (g : Graph) (body : List NodeId) (header entry : NodeId) :
    Accounted g body header entry [] g where
  inner hn := by cases hn
  exists_lookup hc hlive := absurd hc (Nat.not_le.mpr (lt_bound_of_isLive hlive))

/-- A node stands for `n` from now on, and what stood for it is gone. -/
theorem record (ha : Accounted g body header entry σ h) (hn : g.Inner body header entry n)
    (hlive : ∀ c, k.isLive c = true → c = d ∨ h.isLive c = true ∧ σ.lookup n ≠ some c) :
    Accounted g body header entry ((n, d) :: σ) k where
  inner {m c} hm := by
    rw [lookup_record] at hm
    split at hm
    · next e => exact e ▸ hn
    · exact ha.inner hm
  exists_lookup {c} hc hk := by
    rcases hlive c hk with rfl | ⟨hh, hne⟩
    · exact ⟨n, by rw [lookup_record, if_pos rfl]⟩
    · obtain ⟨m, hm⟩ := ha.exists_lookup hc hh
      have hmn : m ≠ n := fun e => hne (e ▸ hm)
      exact ⟨m, by rw [lookup_record, if_neg hmn, hm]⟩

/-- A node is added for a node that had no stand-in. -/
theorem attach (ha : Accounted g body header entry σ h) (hn : g.Inner body header entry n)
    (hnone : σ.lookup n = none) (kind : Kind) (succs : List NodeId) :
    Accounted g body header entry ((n, h.bound) :: σ) (h.attach kind succs) := by
  refine ha.record hn fun c hc => ?_
  rw [isLive_attach] at hc
  split at hc
  · next e => exact .inl e
  · refine .inr ⟨hc, fun e => ?_⟩
    rw [hnone] at e
    cases e

/-- The node that is added last takes the place of the stand-in of `n`. -/
theorem resolve {p : NodeId} {kind : Kind} {succs : List NodeId}
    (ha : Accounted g body header entry σ h) (hn : g.Inner body header entry n)
    (hp : σ.lookup n = some p) (hr : Resolves p h.bound (h.attach kind succs) k) :
    Accounted g body header entry ((n, h.bound) :: σ) k := by
  refine ha.record hn fun c hc => ?_
  obtain ⟨kind', hk⟩ := isLive_iff_kind?.mp hc
  rw [hr.kind_eq] at hk
  split at hk
  · cases hk
  · next hne =>
      rw [kind?_attach] at hk
      split at hk
      · next e => exact .inl e
      · exact .inr ⟨isLive_of_kind? hk, fun e => hne (Option.some.inj (hp.symm.trans e))⟩

end Accounted

/-- At this depth the copies of single nodes are accounted for. -/
def AccountsNodes (g : Graph) (body : List NodeId) (header back entry : NodeId)
    (opened : List NodeId) (depth : Nat) : Prop :=
  ∀ {n σ h c τ k}, Copying g body header back opened σ h → h.WellFormed →
    Accounted g body header entry σ h → g.Inner body header entry n →
    BodyCopy.copyNode body header back depth n σ h = .ok (c, τ) k →
    Accounted g body header entry τ k

variable {depth : Nat} {l ts : List NodeId}

/-- The target of an edge is accounted for, copied or not. -/
theorem AccountsNodes.target (hnode : AccountsNodes g body header back entry opened depth)
    (hc : Copying g body header back opened σ h) (hh : h.WellFormed)
    (ha : Accounted g body header entry σ h)
    (hs : s ∈ body → s ≠ header → g.Inner body header entry s)
    (hok : BodyCopy.copyTarget body header back depth s σ h = .ok (c, τ) k) :
    Accounted g body header entry τ k := by
  rw [BodyCopy.copyTarget] at hok
  split at hok
  · cases hok
    exact ha
  · next hne =>
      split at hok
      · next hb => exact hnode hc hh ha (hs hb hne) hok
      · cases hok
        exact ha

/-- So are the targets of all edges of a node. -/
theorem AccountsNodes.targets (hnode : AccountsNodes g body header back entry opened depth)
    (hcopies : CopiesNodes g body header back opened depth)
    (hc : Copying g body header back opened σ h) (hh : h.WellFormed)
    (ha : Accounted g body header entry σ h) (hl : ∀ s ∈ l, g.isLive s = true)
    (hs : ∀ s ∈ l, s ∈ body → s ≠ header → g.Inner body header entry s)
    (hok : l.mapM (BodyCopy.copyTarget body header back depth) σ h = .ok (ts, τ) k) :
    Accounted g body header entry τ k := by
  induction l generalizing σ h ts τ with
  | nil =>
      rw [BodyCopy.mapM_nil] at hok
      cases hok
      exact ha
  | cons s l ih =>
      obtain ⟨t, υ, m, ts', hfirst, hrest, rfl⟩ := BodyCopy.mapM_cons_ok hok
      obtain ⟨hlive, hl⟩ := List.forall_mem_cons.mp hl
      obtain ⟨hinner, hs⟩ := List.forall_mem_cons.mp hs
      obtain ⟨hadv, -⟩ := hcopies.target hc hh hlive hfirst
      exact ih hadv.copying hadv.wellFormed (hnode.target hc hh ha hinner hfirst) hl hs hrest

/-- While the targets of its edges are copied a node is accounted for by its stub, and then by its
copy. -/
theorem AccountsNodes.copyOpened
    (hnode : AccountsNodes g body header back entry (n :: opened) depth)
    (hcopies : CopiesNodes g body header back (n :: opened) depth)
    (hc : Copying g body header back opened σ h) (hg : g.Linked) (hh : h.WellFormed)
    (ha : Accounted g body header entry σ h) (hn : σ.lookup n = none)
    (hinner : g.Inner body header entry n)
    (hok : (Edit.addStub >>= fun pending =>
      (g.succs n).mapM (BodyCopy.copyTarget body header back depth) ((n, pending) :: σ) >>=
        fun p => Edit.cloneNode n p.1 >>= fun copy => Edit.resolveStub pending copy >>=
          fun _ => pure (copy, (n, copy) :: p.2) : Edit _) h = .ok (c, τ) k) :
    Accounted g body header entry τ k := by
  obtain ⟨p, m, hstub, hok⟩ := Edit.bind_eq_ok.mp hok
  obtain ⟨⟨ts, υ⟩, m₁, hts, hok⟩ := Edit.bind_eq_ok.mp hok
  obtain ⟨_, m₂, hclone, hok⟩ := Edit.bind_eq_ok.mp hok
  obtain ⟨_, _, hresolve, hok⟩ := Edit.bind_eq_ok.mp hok
  cases hok
  have hm := (Edit.proper_addNode .stub []).wellFormed_of_ok hstub hh
  obtain ⟨rfl, rfl⟩ := Edit.addNode_ok hstub
  have hlive : ∀ s ∈ g.succs n, g.isLive s = true := fun s hs => hg.isLive_succ hs
  obtain ⟨hadv, -⟩ := hcopies.targets (hc.openNode hn) hm hlive hts
  have hpending : υ.lookup n = some h.bound :=
    hadv.grows n _ (by rw [lookup_record, if_pos rfl])
  have hbetween := hnode.targets hcopies (hc.openNode hn) hm (ha.attach hinner hn .stub []) hlive
    (fun s hs hb hne => hinner.tail ⟨hs, hb, hne⟩) hts
  have hm₂ := (Edit.proper_cloneNode n _).wellFormed_of_ok hclone hadv.wellFormed
  obtain ⟨kind, -, rfl, rfl⟩ := Edit.cloneNode_ok hclone
  exact hbetween.resolve hinner hpending (Edit.resolveStub_ok hm₂.toLinked hresolve)

/-- The copy of a node keeps the account. -/
theorem copyNode_accounts (hg : g.Linked) (he : Entry g body header entry) (hback : back < g.bound)
    (hnested : Nested body opened depth) :
    AccountsNodes g body header back entry opened depth := by
  intro n σ h c τ k hc hh ha hinner hok
  induction depth generalizing n σ h opened c τ k with
  | zero => exact absurd rfl hnested.depth_ne_zero
  | succ depth ih =>
      have hlt := he.lt_bound hg hinner
      rw [BodyCopy.copyNode_succ, hc.extends_base.kind_eq hlt, hc.extends_base.succs_eq hlt] at hok
      cases hn : σ.lookup n with
      | some d =>
          rw [hn] at hok
          cases hok
          exact ha
      | none =>
          rw [hn] at hok
          dsimp only at hok
          split at hok
          · obtain ⟨d, m, hclone, hok⟩ := Edit.bind_eq_ok.mp hok
            cases hok
            obtain ⟨kind, -, rfl, rfl⟩ := Edit.cloneNode_ok hclone
            exact ha.attach hinner hn kind []
          · have hopen := hnested.cons (he.inner hg hinner).1 (hc.not_mem_opened hn)
            have hnode : AccountsNodes g body header back entry (n :: opened) depth :=
              fun hc hh ha hinner => ih hopen hc hh ha hinner
            exact hnode.copyOpened (copyNode_spec hg hback hopen) hc hg hh ha hn hinner hok

/-! ### Copies of a body -/

/-- `f` gives, for each node that `entry` leads to, a node of `h` above `floor` with the same kind,
which leads to the copies of its successors, and to `back` in the place of the header. -/
structure CopyOf (g h : Graph) (body : List NodeId) (header entry : NodeId) (floor : Nat)
    (back : NodeId) (f : NodeId → NodeId) : Prop where
  kind_eq : ∀ {n}, g.Inner body header entry n → h.kind? (f n) = g.kind? n
  succs_eq : ∀ {n}, g.Inner body header entry n →
    h.succs (f n) = (g.succs n).map (landing body header back f)
  floor_le : ∀ {n}, g.Inner body header entry n → floor ≤ f n

namespace CopyOf

variable {floor floor' : Nat} {f : NodeId → NodeId}

theorem lt_bound (hf : CopyOf g h body header entry floor back f) (hg : g.Linked)
    (he : Entry g body header entry) (hn : g.Inner body header entry n) : f n < h.bound := by
  obtain ⟨kind, hk⟩ := isLive_iff_kind?.mp (he.inner hg hn).2.2
  exact lt_bound_of_kind? ((hf.kind_eq hn).trans hk)

theorem mono (hf : CopyOf g h body header entry floor back f) (hle : floor' ≤ floor) :
    CopyOf g h body header entry floor' back f :=
  ⟨hf.kind_eq, hf.succs_eq, fun hn => Nat.le_trans hle (hf.floor_le hn)⟩

/-- A copy is still one after the graph has grown. -/
theorem extend (hf : CopyOf g h body header entry floor back f) (hg : g.Linked)
    (he : Entry g body header entry) (hext : h.Extends k) :
    CopyOf g k body header entry floor back f where
  kind_eq hn := (hext.kind_eq (hf.lt_bound hg he hn)).trans (hf.kind_eq hn)
  succs_eq hn := (hext.succs_eq (hf.lt_bound hg he hn)).trans (hf.succs_eq hn)
  floor_le := hf.floor_le

/-- Resolving a stub that is not among the copies only changes where they lead back. -/
theorem resolve {stub real : NodeId} (hf : CopyOf g h body header entry floor back f)
    (hg : g.Linked) (hstub : g.bound ≤ stub)
    (hne : ∀ n, g.Inner body header entry n → stub ≠ f n) (hr : Resolves stub real h k) :
    CopyOf g k body header entry floor (divert stub real back) f where
  kind_eq hn := (hr.kind?_of_ne (hne _ hn)).trans (hf.kind_eq hn)
  succs_eq {n} hn := by
    rw [hr.succs_of_ne (hne n hn), hf.succs_eq hn, List.map_map]
    refine List.map_congr_left fun s hs => ?_
    rw [Function.comp_apply, landing, landing]
    split
    · rfl
    · next hh =>
        split
        · next hb => exact divert_of_ne (Ne.symm (hne s (hn.tail ⟨hs, hb, hh⟩)))
        · refine divert_of_ne (Nat.ne_of_lt (Nat.lt_of_lt_of_le ?_ hstub))
          exact lt_bound_of_isLive (hg.isLive_succ hs)
  floor_le := hf.floor_le

end CopyOf

/-- The copies fill the slots from `low` to `high`: different nodes have different copies, and no
other node is there. -/
structure ExactCopy (g h : Graph) (body : List NodeId) (header entry : NodeId) (low high : Nat)
    (back : NodeId) (f : NodeId → NodeId) : Prop
    extends CopyOf g h body header entry low back f where
  lt : ∀ {n}, g.Inner body header entry n → f n < high
  inj : ∀ {n m}, g.Inner body header entry n → g.Inner body header entry m → f n = f m → n = m
  exists_eq : ∀ {c}, low ≤ c → c < high → h.isLive c = true →
    ∃ n, g.Inner body header entry n ∧ c = f n
  high_le : high ≤ h.bound

namespace ExactCopy

variable {low high : Nat} {f : NodeId → NodeId}

/-- The entry has a copy, so that there are slots for it. -/
theorem low_lt_high (hf : ExactCopy g h body header entry low high back f) : low < high :=
  Nat.lt_of_le_of_lt (hf.floor_le .refl) (hf.lt .refl)

theorem extend (hf : ExactCopy g h body header entry low high back f) (hg : g.Linked)
    (he : Entry g body header entry) (hext : h.Extends k) :
    ExactCopy g k body header entry low high back f where
  toCopyOf := hf.toCopyOf.extend hg he hext
  lt := hf.lt
  inj := hf.inj
  exists_eq {c} hlow hhigh hlive := by
    obtain ⟨kind, hk⟩ := isLive_iff_kind?.mp hlive
    rw [hext.kind_eq (Nat.lt_of_lt_of_le hhigh hf.high_le)] at hk
    exact hf.exists_eq hlow hhigh (isLive_of_kind? hk)
  high_le := Nat.le_trans hf.high_le hext.bound_le

/-- Resolving a stub in another slot only changes where the copies lead back. -/
theorem resolve {stub real : NodeId} (hf : ExactCopy g h body header entry low high back f)
    (hg : g.Linked) (hstub : g.bound ≤ stub) (hout : stub < low ∨ high ≤ stub)
    (hr : Resolves stub real h k) :
    ExactCopy g k body header entry low high (divert stub real back) f where
  toCopyOf := by
    refine hf.toCopyOf.resolve hg hstub (fun n hn => ?_) hr
    rcases hout with hlow | hhigh
    · exact Nat.ne_of_lt (Nat.lt_of_lt_of_le hlow (hf.floor_le hn))
    · exact Nat.ne_of_gt (Nat.lt_of_lt_of_le (hf.lt hn) hhigh)
  lt := hf.lt
  inj := hf.inj
  exists_eq {c} hlow hhigh hlive := by
    obtain ⟨kind, hk⟩ := isLive_iff_kind?.mp hlive
    rw [hr.kind_eq] at hk
    split at hk
    · cases hk
    · exact hf.exists_eq hlow hhigh (isLive_of_kind? hk)
  high_le := hr.bound_eq ▸ hf.high_le

end ExactCopy

/-- What a successful copy of a body adds to a graph that extends the one with the body. -/
theorem copyBody_spec (hg : g.Linked) (he : Entry g body header entry) (hgh : g.Extends h)
    (hh : h.WellFormed) (hback : back < h.bound)
    (hok : copyBody body header back entry h = .ok c k) :
    h.Extends k ∧ k.WellFormed ∧
      ∃ f, c = f entry ∧ ExactCopy g k body header entry h.bound k.bound back f := by
  rw [BodyCopy.copyBody_eq] at hok
  obtain ⟨⟨_, τ⟩, m, hcopy, hok⟩ := Edit.bind_eq_ok.mp hok
  cases hok
  have hnested : Nested body [] (body.length + 1) :=
    ⟨.nil, List.nil_subset _, Nat.lt_succ_self _⟩
  obtain ⟨hadv, hentry⟩ := copyNode_spec hh.toLinked hback hnested (.init h body header back) hh
    he.mem he.ne (hgh.isLive he.isLive) hcopy
  have hcopying := hadv.copying
  have haccount := copyNode_accounts hh.toLinked (he.extend hgh) hback hnested
    (.init h body header back) hh (.init h body header entry) .refl hcopy
  -- nothing is open any more, so whatever the entry leads to has been copied
  have hall {n} (hn : g.Inner body header entry n) : ∃ d, τ.lookup n = some d := by
    induction hn with
    | refl => exact ⟨_, hentry⟩
    | @tail a b ha hstep ih =>
        obtain ⟨d, hd⟩ := ih
        refine (hcopying.copied hd List.not_mem_nil).known b ?_ hstep.2.1 hstep.2.2
        rw [hgh.succs_eq (he.lt_bound hg ha)]
        exact hstep.1
  have hcopied {n} (hn : g.Inner body header entry n) :
      τ.lookup n = some (standIn τ n) ∧ Copied h body header back τ k n (standIn τ n) := by
    obtain ⟨d, hd⟩ := hall hn
    rw [standIn, hd]
    exact ⟨rfl, hcopying.copied hd List.not_mem_nil⟩
  refine ⟨hcopying.extends_base, hadv.wellFormed, standIn τ, ?_, ?_⟩
  · rw [standIn, hentry]
    rfl
  constructor
  case toCopyOf =>
    refine ⟨fun {n} hn => ?_, fun {n} hn => ?_, fun hn => (hcopying.fresh (hcopied hn).1).1⟩
    · rw [(hcopied hn).2.kind_eq, hgh.kind_eq (he.lt_bound hg hn)]
    · rw [(hcopied hn).2.succs_eq, hgh.succs_eq (he.lt_bound hg hn)]
  case lt => exact fun hn => (hcopying.fresh (hcopied hn).1).2
  case inj =>
    intro n m hn hm hnm
    exact hcopying.inj (hcopied hn).1 (hnm ▸ (hcopied hm).1)
  case exists_eq =>
    intro c hlow _ hlive
    obtain ⟨n, hn⟩ := haccount.exists_lookup hlow hlive
    refine ⟨n, (he.inner_iff hg hgh).mp (haccount.inner hn), ?_⟩
    rw [standIn, hn]
    rfl
  case high_le => exact Nat.le_refl _

end Flowgraph

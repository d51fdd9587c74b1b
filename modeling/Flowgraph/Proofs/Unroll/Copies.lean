import Flowgraph.Proofs.Extends
import Mathlib.Data.List.Perm.Subperm

/-!
# What a copy of a body is

A body is copied depth first, and while the copy of a node is made a stub stands for it.  What is
known at any time is that each node that has been dealt with is *copied*: its copy has its kind, and
leads to what stands now for its successors.  Resolving a stub changes at once what stands for a
node and where the copies lead.

* `landing`: where the copy of an edge leads.
* `Copied`, `Copying`: one node that has been copied, and all that is known on the way.
* `Copying.openNode`, `Copying.closeNode`: a node is opened, and its stub is resolved.
* `copyNode_spec`: the copy of one node keeps what is known and adds that node.
-/

namespace Flowgraph

open Flowgraph.Graph

/-- What stands for a node, or else the node itself. -/
def standIn (σ : CopyMap) (n : NodeId) : NodeId := (σ.lookup n).getD n

/-- Where the copy of an edge to `s` leads, when `f` gives the copies. -/
def landing (body : List NodeId) (header back : NodeId) (f : NodeId → NodeId) (s : NodeId) :
    NodeId :=
  if s = header then back else if s ∈ body then f s else s

/-- Whatever stood for a node still stands for it. -/
def Grows (σ τ : CopyMap) : Prop := ∀ n c, σ.lookup n = some c → τ.lookup n = some c

/-- A copy is found under the node that it was last recorded for. -/
theorem lookup_record (σ : CopyMap) (n c m : NodeId) :
    List.lookup m ((n, c) :: σ) = if m = n then some c else σ.lookup m := by
  rw [List.lookup_cons]
  by_cases h : m = n
  · rw [if_pos h, h, beq_self_eq_true]
  · rw [if_neg h, beq_false_of_ne h]

theorem grows_record {σ : CopyMap} {n : NodeId} (h : σ.lookup n = none) (c : NodeId) :
    Grows σ ((n, c) :: σ) := by
  intro m d hm
  rw [lookup_record, if_neg fun e => ?_]
  · exact hm
  · subst e
    rw [h] at hm
    cases hm

/-- Records that grow twice have grown. -/
theorem Grows.trans {σ τ υ : CopyMap} (h : Grows σ τ) (h' : Grows τ υ) : Grows σ υ :=
  fun n c hn => h' n c (h n c hn)

/-- Different nodes have different stand-ins, which lie between two bounds. -/
structure Apart (low high : Nat) (σ : CopyMap) : Prop where
  fresh : ∀ {n c}, σ.lookup n = some c → low ≤ c ∧ c < high
  inj : ∀ {n m c}, σ.lookup n = some c → σ.lookup m = some c → n = m

/-- A new slot keeps the copies apart. -/
theorem Apart.record {low high : Nat} {σ : CopyMap} {n c : NodeId} (hσ : Apart low high σ)
    (hlow : low ≤ c) (hlt : c < high) (hnew : ∀ m, σ.lookup m ≠ some c) :
    Apart low high ((n, c) :: σ) where
  fresh {m d} hm := by
    rw [lookup_record] at hm
    split at hm
    · cases hm
      exact ⟨hlow, hlt⟩
    · exact hσ.fresh hm
  inj {m m' d} hm hm' := by
    rw [lookup_record] at hm hm'
    split at hm
    · cases hm
      split at hm'
      · next e e' => exact e.trans e'.symm
      · exact absurd hm' (hnew m')
    · split at hm'
      · cases hm'
        exact absurd hm (hnew m)
      · exact hσ.inj hm hm'

/-- Something stands for `s`, if it is a node of the body other than the header. -/
def Known (body : List NodeId) (header : NodeId) (σ : CopyMap) (s : NodeId) : Prop :=
  s ∈ body → s ≠ header → ∃ d, σ.lookup s = some d

/-- The node has been copied in `h`, as far as the copies of its successors are known. -/
structure Copied (g : Graph) (body : List NodeId) (header back : NodeId) (σ : CopyMap) (h : Graph)
    (n c : NodeId) : Prop where
  kind_eq : h.kind? c = g.kind? n
  succs_eq : h.succs c = (g.succs n).map (landing body header back (standIn σ))
  known : ∀ s ∈ g.succs n, Known body header σ s

/-- What is known while the nodes of a body of `g` are copied.  Each node has another stand-in, and
those that are not open have been copied. -/
structure Copying (g : Graph) (body : List NodeId) (header back : NodeId) (opened : List NodeId)
    (σ : CopyMap) (h : Graph) : Prop extends Apart g.bound h.bound σ where
  extends_base : g.Extends h
  standIn_of_opened : ∀ {n}, n ∈ opened → ∃ p, σ.lookup n = some p
  copied : ∀ {n c}, σ.lookup n = some c → n ∉ opened → Copied g body header back σ h n c

variable {g h k : Graph} {body opened : List NodeId} {header back n m c d p s : NodeId}
  {σ τ : CopyMap}

/-- What is known stays known as records grow. -/
theorem Known.mono (hs : Known body header σ s) (hgrows : Grows σ τ) : Known body header τ s :=
  fun hb hh => (hs hb hh).imp (hgrows s)

theorem known_record (hs : Known body header σ s) (n c : NodeId) :
    Known body header ((n, c) :: σ) s := by
  intro hb hh
  rw [lookup_record]
  by_cases e : s = n
  · exact ⟨c, if_pos e⟩
  · rw [if_neg e]
    exact hs hb hh

/-- Where a known node lands does not change any more. -/
theorem landing_grows (hgrows : Grows σ τ) (hs : Known body header σ s) :
    landing body header back (standIn τ) s = landing body header back (standIn σ) s := by
  rw [landing, landing]
  split
  · rfl
  · next hh =>
      split
      · next hb =>
          obtain ⟨d, hd⟩ := hs hb hh
          rw [standIn, standIn, hd, hgrows s d hd]
      · rfl

/-- Edges land on the copy once it stands for a node in the place of the stub. -/
theorem Apart.divert_landing {low high : Nat} (hσ : Apart low high σ) (hback : back < low)
    (hn : σ.lookup n = some p) (hlow : s < low) (hs : Known body header σ s) :
    divert p c (landing body header back (standIn σ) s) =
      landing body header back (standIn ((n, c) :: σ)) s := by
  obtain ⟨hp, -⟩ := hσ.fresh hn
  rw [landing, landing]
  split
  · exact divert_of_ne (Nat.ne_of_lt (Nat.lt_of_lt_of_le hback hp))
  · next hh =>
      split
      · next hb =>
          obtain ⟨d, hd⟩ := hs hb hh
          rw [standIn, standIn, lookup_record]
          by_cases e : s = n
          · subst e
            rw [if_pos rfl, hn]
            exact divert_self p c
          · rw [if_neg e, hd, Option.getD_some]
            exact divert_of_ne fun hdp => e (hσ.inj hd (hdp ▸ hn))
      · exact divert_of_ne (Nat.ne_of_lt (Nat.lt_of_lt_of_le hlow hp))

namespace Copied

/-- A copied node stays copied. -/
theorem mono (hc : Copied g body header back σ h n c) (hgrows : Grows σ τ)
    (hext : h.Extends k) (hlt : c < h.bound) : Copied g body header back τ k n c where
  kind_eq := (hext.kind_eq hlt).trans hc.kind_eq
  succs_eq := by
    rw [hext.succs_eq hlt, hc.succs_eq]
    exact List.map_congr_left fun s hs => (landing_grows hgrows (hc.known s hs)).symm
  known s hs := (hc.known s hs).mono hgrows

/-- A copied node stays copied when the stub of another one is resolved. -/
theorem resolve {high : Nat} (hm : Copied g body header back σ h m d) (hg : g.Linked)
    (hσ : Apart g.bound high σ) (hback : back < g.bound) (hn : σ.lookup n = some p) (hd : p ≠ d)
    (hr : Resolves p c h k) : Copied g body header back ((n, c) :: σ) k m d where
  kind_eq := (hr.kind?_of_ne hd).trans hm.kind_eq
  succs_eq := by
    rw [hr.succs_of_ne hd, hm.succs_eq, List.map_map]
    exact List.map_congr_left fun s hs =>
      hσ.divert_landing hback hn (lt_bound_of_isLive (hg.isLive_succ hs)) (hm.known s hs)
  known s hs := known_record (hm.known s hs) n c

end Copied

namespace Copying

/-- Copying begins without any records. -/
theorem init (g : Graph) (body : List NodeId) (header back : NodeId) :
    Copying g body header back [] [] g where
  extends_base := .refl g
  fresh hn := by cases hn
  inj hn := by cases hn
  standIn_of_opened hn := by cases hn
  copied hn := by cases hn

/-- More nodes change nothing. -/
theorem extend (hc : Copying g body header back opened σ h) (hext : h.Extends k) :
    Copying g body header back opened σ k where
  extends_base := hc.extends_base.trans hext
  fresh hn := ⟨(hc.fresh hn).1, Nat.lt_of_lt_of_le (hc.fresh hn).2 hext.bound_le⟩
  inj := hc.inj
  standIn_of_opened := hc.standIn_of_opened
  copied hn ho := (hc.copied hn ho).mono (fun _ _ => id) hext (hc.fresh hn).2

/-- The next slot stands for nothing yet. -/
theorem lookup_ne_bound (hc : Copying g body header back opened σ h) (m : NodeId) :
    σ.lookup m ≠ some h.bound :=
  fun hm => Nat.lt_irrefl _ (hc.fresh hm).2

/-- A node without a record is not open. -/
theorem not_mem_opened (hc : Copying g body header back opened σ h) (hn : σ.lookup n = none) :
    n ∉ opened := by
  intro ho
  obtain ⟨p, hp⟩ := hc.standIn_of_opened ho
  rw [hn] at hp
  cases hp

/-- A node that is added stands from now on for a node that is open, or that it is a copy of. -/
theorem record (hc : Copying g body header back opened σ h) (hn : σ.lookup n = none)
    (kind : Kind) (succs opened' : List NodeId)
    (hopened : ∀ m, m ≠ n → (m ∈ opened' ↔ m ∈ opened))
    (hcopied : n ∉ opened' →
      Copied g body header back ((n, h.bound) :: σ) (h.attach kind succs) n h.bound) :
    Copying g body header back opened' ((n, h.bound) :: σ) (h.attach kind succs) := by
  have hext := hc.extend (.attach h kind succs)
  refine ⟨hext.toApart.record hc.extends_base.bound_le (lt_bound_attach ..) hc.lookup_ne_bound,
    hext.extends_base, fun {m} hm => ?_, fun {m d} hm ho => ?_⟩
  · rw [lookup_record]
    by_cases e : m = n
    · exact ⟨h.bound, if_pos e⟩
    · rw [if_neg e]
      exact hc.standIn_of_opened ((hopened m e).mp hm)
  · rw [lookup_record] at hm
    split at hm
    · next e =>
        subst e
        cases hm
        exact hcopied ho
    · next e =>
        exact (hext.copied hm fun h => ho ((hopened m e).mpr h)).mono (grows_record hn _) (.refl _)
          (hext.fresh hm).2

/-- A stub stands for a node while its successors are copied. -/
theorem openNode (hc : Copying g body header back opened σ h) (hn : σ.lookup n = none) :
    Copying g body header back (n :: opened) ((n, h.bound) :: σ) (h.attach .stub []) :=
  hc.record hn .stub [] (n :: opened) (fun m hm => by rw [List.mem_cons, or_iff_right hm])
    fun ho => absurd List.mem_cons_self ho

/-- The copy of a self-loop leads to itself. -/
theorem selfLoop (hc : Copying g body header back opened σ h) (hg : g.Linked)
    (hn : σ.lookup n = none) (hb : n ∈ body) (hne : n ≠ header)
    (hk : g.kind? n = some .selfLoop) :
    Copying g body header back opened ((n, h.bound) :: σ) (h.attach .selfLoop []) := by
  have hloop := hg.selfLoop hk
  refine hc.record hn .selfLoop [] opened (fun _ _ => Iff.rfl) fun _ => ⟨?_, ?_, fun s hs => ?_⟩
  · rw [kind?_attach, if_pos rfl, hk]
  · rw [succs_attach, if_pos rfl, hloop, targetsOf_selfLoop rfl, List.map_singleton, landing,
      if_neg hne, if_pos hb, standIn, lookup_record, if_pos rfl]
    rfl
  · rw [hloop, List.mem_singleton] at hs
    intro _ _
    exact ⟨_, by rw [lookup_record, if_pos hs]⟩

/-- The stub that stands for an open node is resolved into a copy of that node. -/
theorem closeNode {kind : Kind} (hc : Copying g body header back (n :: opened) σ h)
    (hg : g.Linked) (hback : back < g.bound) (hn : σ.lookup n = some p) (hno : n ∉ opened)
    (hk : g.kind? n = some kind) (hself : kind ≠ .selfLoop)
    (hknown : ∀ s ∈ g.succs n, Known body header σ s)
    (hr : Resolves p h.bound
      (h.attach kind ((g.succs n).map (landing body header back (standIn σ)))) k) :
    Copying g body header back opened ((n, h.bound) :: σ) k := by
  have hext := hc.extend (.attach h kind ((g.succs n).map (landing body header back (standIn σ))))
  refine ⟨?_, hext.extends_base.resolve hg (hc.fresh hn).1 hr, fun {m} hm => ?_,
    fun {m d} hm ho => ?_⟩
  · rw [hr.bound_eq]
    exact hext.toApart.record hc.extends_base.bound_le (lt_bound_attach ..) hc.lookup_ne_bound
  · have hmn : m ≠ n := fun e => hno (e ▸ hm)
    rw [lookup_record, if_neg hmn]
    exact hc.standIn_of_opened (List.mem_cons_of_mem n hm)
  · rw [lookup_record] at hm
    split at hm
    · next e =>
        subst e
        cases hm
        refine Copied.resolve ⟨?_, ?_, hknown⟩ hg hext.toApart hback hn
          (fun e => hc.lookup_ne_bound m (e ▸ hn)) hr
        · rw [kind?_attach, if_pos rfl, hk]
        · rw [succs_attach, if_pos rfl, targetsOf_of_ne hself]
    · next e =>
        -- the stub stood for this node alone, so that it is no other copy
        have hmo : m ∉ n :: opened := fun h => (List.mem_cons.mp h).elim e ho
        exact (hext.copied hm hmo).resolve hg hext.toApart hback hn
          (fun hpd => e (hc.inj hm (hpd ▸ hn))) hr

end Copying

/-! ### Copying depth first -/

/-- Nodes that are open at the same time are distinct members of the body, and the depth that is
left is enough for all others. -/
structure Nested (body opened : List NodeId) (depth : Nat) : Prop where
  nodup : opened.Nodup
  subset : opened ⊆ body
  enough : body.length < depth + opened.length

theorem Nested.depth_ne_zero {depth : Nat} (hn : Nested body opened depth) : depth ≠ 0 := by
  rintro rfl
  have hle := (List.subperm_of_subset hn.nodup hn.subset).length_le
  exact absurd hn.enough (by omega)

/-- To open another node uses up one step of the depth. -/
theorem Nested.cons {depth : Nat} (hn : Nested body opened (depth + 1)) (hb : n ∈ body)
    (ho : n ∉ opened) : Nested body (n :: opened) depth where
  nodup := List.nodup_cons.mpr ⟨ho, hn.nodup⟩
  subset := List.cons_subset.mpr ⟨hb, hn.subset⟩
  enough := by
    have := hn.enough
    rw [List.length_cons]
    omega

/-- From one state of the copying to a later one. -/
structure Advances (g : Graph) (body : List NodeId) (header back : NodeId) (opened : List NodeId)
    (σ τ : CopyMap) (k : Graph) : Prop where
  copying : Copying g body header back opened τ k
  wellFormed : k.WellFormed
  grows : Grows σ τ

/-- At this depth the copies of single nodes are as they should be. -/
def CopiesNodes (g : Graph) (body : List NodeId) (header back : NodeId) (opened : List NodeId)
    (depth : Nat) : Prop :=
  ∀ {n σ h c τ k}, Copying g body header back opened σ h → h.WellFormed → n ∈ body → n ≠ header →
    g.isLive n = true → BodyCopy.copyNode body header back depth n σ h = .ok (c, τ) k →
    Advances g body header back opened σ τ k ∧ τ.lookup n = some c

variable {depth : Nat} {l ts : List NodeId}

theorem Copying.advances (hc : Copying g body header back opened σ h) (hh : h.WellFormed) :
    Advances g body header back opened σ σ h :=
  ⟨hc, hh, fun _ _ => id⟩

/-- The target of an edge becomes what stands for it. -/
theorem CopiesNodes.target (hnode : CopiesNodes g body header back opened depth)
    (hc : Copying g body header back opened σ h) (hh : h.WellFormed) (hl : g.isLive s = true)
    (hok : BodyCopy.copyTarget body header back depth s σ h = .ok (c, τ) k) :
    Advances g body header back opened σ τ k ∧ c = landing body header back (standIn τ) s ∧
      Known body header τ s := by
  rw [BodyCopy.copyTarget] at hok
  rw [landing]
  split at hok
  · next e =>
      cases hok
      exact ⟨hc.advances hh, (if_pos e).symm, fun _ hne => absurd e hne⟩
  · next hne =>
      split at hok
      · next hb =>
          obtain ⟨hadv, hlookup⟩ := hnode hc hh hb hne hl hok
          refine ⟨hadv, ?_, fun _ _ => ⟨c, hlookup⟩⟩
          rw [if_neg hne, if_pos hb, standIn, hlookup]
          rfl
      · next hb =>
          cases hok
          refine ⟨hc.advances hh, ?_, fun hb' => absurd hb' hb⟩
          rw [if_neg hne, if_neg hb]

/-- So do the targets of a list of edges. -/
theorem CopiesNodes.targets (hnode : CopiesNodes g body header back opened depth)
    (hc : Copying g body header back opened σ h) (hh : h.WellFormed)
    (hl : ∀ s ∈ l, g.isLive s = true)
    (hok : l.mapM (BodyCopy.copyTarget body header back depth) σ h = .ok (ts, τ) k) :
    Advances g body header back opened σ τ k ∧
      ts = l.map (landing body header back (standIn τ)) ∧ ∀ s ∈ l, Known body header τ s := by
  induction l generalizing σ h ts τ with
  | nil =>
      rw [BodyCopy.mapM_nil] at hok
      cases hok
      exact ⟨hc.advances hh, rfl, fun s hs => by cases hs⟩
  | cons s l ih =>
      obtain ⟨t, υ, m, ts', hfirst, hrest, rfl⟩ := BodyCopy.mapM_cons_ok hok
      obtain ⟨hadv, rfl, hknown⟩ := hnode.target hc hh (hl s List.mem_cons_self) hfirst
      obtain ⟨hadv', rfl, hknown'⟩ := ih hadv.copying hadv.wellFormed
        (fun r hr => hl r (List.mem_cons_of_mem s hr)) hrest
      refine ⟨⟨hadv'.copying, hadv'.wellFormed, hadv.grows.trans hadv'.grows⟩, ?_, ?_⟩
      · rw [List.map_cons, landing_grows hadv'.grows hknown]
      · intro r hr
        rcases List.mem_cons.mp hr with rfl | hr
        · exact hknown.mono hadv'.grows
        · exact hknown' r hr

/-- A self-loop is copied as it is. -/
theorem Copying.copySelfLoop (hc : Copying g body header back opened σ h) (hg : g.Linked)
    (hh : h.WellFormed) (hn : σ.lookup n = none) (hb : n ∈ body) (hne : n ≠ header)
    (hself : g.kind? n = some .selfLoop)
    (hok : (Edit.cloneNode n [] >>= fun copy => pure (copy, (n, copy) :: σ) : Edit _) h =
      .ok (c, τ) k) :
    Advances g body header back opened σ τ k ∧ τ.lookup n = some c := by
  obtain ⟨d, m, hclone, hok⟩ := Edit.bind_eq_ok.mp hok
  cases hok
  have hm := (Edit.proper_cloneNode n []).wellFormed_of_ok hclone hh
  obtain ⟨kind, hk, rfl, rfl⟩ := Edit.cloneNode_ok hclone
  rw [hc.extends_base.kind_eq (lt_bound_of_kind? hself), hself, Option.some.injEq] at hk
  subst hk
  refine ⟨⟨hc.selfLoop hg hn hb hne hself, hm, grows_record hn _⟩, ?_⟩
  rw [lookup_record, if_pos rfl]

/-- Any other node is open while the targets of its edges are copied, and is then copied itself. -/
theorem CopiesNodes.copyOpened (hnode : CopiesNodes g body header back (n :: opened) depth)
    (hc : Copying g body header back opened σ h) (hg : g.Linked) (hback : back < g.bound)
    (hh : h.WellFormed) (hn : σ.lookup n = none) (hlt : n < g.bound)
    (hself : g.kind? n ≠ some .selfLoop)
    (hok : (Edit.addStub >>= fun pending =>
      (g.succs n).mapM (BodyCopy.copyTarget body header back depth) ((n, pending) :: σ) >>=
        fun p => Edit.cloneNode n p.1 >>= fun copy => Edit.resolveStub pending copy >>=
          fun _ => pure (copy, (n, copy) :: p.2) : Edit _) h = .ok (c, τ) k) :
    Advances g body header back opened σ τ k ∧ τ.lookup n = some c := by
  obtain ⟨p, m, hstub, hok⟩ := Edit.bind_eq_ok.mp hok
  obtain ⟨⟨ts, υ⟩, m₁, hts, hok⟩ := Edit.bind_eq_ok.mp hok
  obtain ⟨_, m₂, hclone, hok⟩ := Edit.bind_eq_ok.mp hok
  obtain ⟨_, _, hresolve, hok⟩ := Edit.bind_eq_ok.mp hok
  cases hok
  have hno := hc.not_mem_opened hn
  have hm := (Edit.proper_addNode .stub []).wellFormed_of_ok hstub hh
  obtain ⟨rfl, rfl⟩ := Edit.addNode_ok hstub
  obtain ⟨hadv, rfl, hknown⟩ :=
    hnode.targets (hc.openNode hn) hm (fun s hs => hg.isLive_succ hs) hts
  have hpending : υ.lookup n = some h.bound :=
    hadv.grows n _ (by rw [lookup_record, if_pos rfl])
  -- the targets are there, so the copy can be made and take the place of the stub
  have hm₂ := (Edit.proper_cloneNode n _).wellFormed_of_ok hclone hadv.wellFormed
  have hm₃ := (Edit.proper_resolveStub h.bound c).wellFormed_of_ok hresolve hm₂
  obtain ⟨kind, hk, rfl, rfl⟩ := Edit.cloneNode_ok hclone
  rw [hadv.copying.extends_base.kind_eq hlt] at hk
  have hclose := hadv.copying.closeNode hg hback hpending hno hk
    (fun e => hself (e ▸ hk)) hknown (Edit.resolveStub_ok hm₂.toLinked hresolve)
  refine ⟨⟨hclose, hm₃, fun r e hr => ?_⟩, by rw [lookup_record, if_pos rfl]⟩
  have hrn : r ≠ n := fun e => by rw [e, hn] at hr; cases hr
  rw [lookup_record, if_neg hrn]
  exact hadv.grows r e ((grows_record hn _) r e hr)

/-- The copy of a node keeps what is known about the copying, and something stands for the node. -/
theorem copyNode_spec (hg : g.Linked) (hback : back < g.bound)
    (hnested : Nested body opened depth) : CopiesNodes g body header back opened depth := by
  intro n σ h c τ k hc hh hb hne hlive hok
  -- each node on the way down is open, so the depth cannot run out within the body
  induction depth generalizing n σ h opened c τ k with
  | zero => exact absurd rfl hnested.depth_ne_zero
  | succ depth ih =>
      have hlt := lt_bound_of_isLive hlive
      rw [BodyCopy.copyNode_succ, hc.extends_base.kind_eq hlt, hc.extends_base.succs_eq hlt] at hok
      cases hn : σ.lookup n with
      | some d =>
          rw [hn] at hok
          cases hok
          exact ⟨hc.advances hh, hn⟩
      | none =>
          rw [hn] at hok
          dsimp only at hok
          split at hok
          · next hself => exact hc.copySelfLoop hg hh hn hb hne hself hok
          · next hself =>
              have hno := hc.not_mem_opened hn
              have hnode : CopiesNodes g body header back (n :: opened) depth :=
                fun hc hh hb' hne hlive => ih (hnested.cons hb hno) hc hh hb' hne hlive
              exact hnode.copyOpened hc hg hback hh hn hlt hself hok

end Flowgraph

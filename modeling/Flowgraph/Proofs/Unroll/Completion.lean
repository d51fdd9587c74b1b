import Flowgraph.Proofs.Unroll.Sequence

/-!
# Unrolling always succeeds

Every operation that unrolling makes is one whose conditions are met.  A stub is made for each node
that is being copied and for each new header; it is still there when it is to be resolved, and after
that it is gone.  So the stubs in between are those of the graph as it was and those that stand for
the nodes that are open, and in the end they are what they were.

* `SameStubs`, `Standing`: the stubs when nothing is open, and while nodes are copied.
* `Copyable`: what is asked of a body.
* `copyNode_completes`, `copyBody_completes`: copies are made.
* `replaceLoop_completes`, `unrollLoop_completes`: a loop is replaced.
* `copyable_currentBody`: the bodies that are collected can be copied.
* `unrollEach_completes`, `unrollLoops_completes`: all loops of a graph with a start are dealt with.
-/

namespace Flowgraph

open Flowgraph.Graph

variable {g h k : Graph} {body opened : List NodeId} {header back n m c p q s stub real : NodeId}
  {σ τ : CopyMap} {kind : Kind} {succs : List NodeId}

/-! ### Stubs -/

/-- The stubs are the same. -/
def SameStubs (g h : Graph) : Prop := ∀ p, h.kind? p = some .stub ↔ g.kind? p = some .stub

namespace SameStubs

theorem refl (g : Graph) : SameStubs g g := fun _ => Iff.rfl

theorem trans (hgh : SameStubs g h) (hhk : SameStubs h k) : SameStubs g k := fun p =>
  (hhk p).trans (hgh p)

/-- A node that is no stub can be added. -/
theorem attach (g : Graph) (hkind : kind ≠ .stub) (succs : List NodeId) :
    SameStubs g (g.attach kind succs) := by
  intro p
  rw [kind?_attach]
  split
  · next e =>
      refine iff_of_false (fun h => hkind (Option.some.inj h)) fun h => ?_
      exact Nat.lt_irrefl _ (e ▸ lt_bound_of_kind? h)
  · exact Iff.rfl

end SameStubs

/-- A new stub stands in the next slot. -/
theorem stub_addStub_iff :
    (g.attach .stub []).kind? p = some .stub ↔ p = g.bound ∨ g.kind? p = some .stub := by
  rw [kind?_attach]
  split
  · next e => exact iff_of_true rfl (.inl e)
  · next e => exact (or_iff_right e).symm

/-- The stub that is resolved goes, and all others stay. -/
theorem Graph.Resolves.stub_iff (hr : Resolves stub real g h) :
    h.kind? p = some .stub ↔ stub ≠ p ∧ g.kind? p = some .stub := by
  rw [hr.kind_eq]
  split
  · next e => exact iff_of_false nofun fun h => h.1 e
  · next e => exact (and_iff_right e).symm

/-- A stub that has been added is gone when it has been resolved. -/
theorem SameStubs.resolve (hsame : SameStubs (g.attach .stub []) h)
    (hr : Resolves g.bound real h k) : SameStubs g k := by
  intro p
  rw [hr.stub_iff, hsame p, stub_addStub_iff]
  refine ⟨fun ⟨hne, hp⟩ => hp.resolve_left hne.symm, fun hp => ⟨fun e => ?_, .inr hp⟩⟩
  exact Nat.lt_irrefl _ (e ▸ lt_bound_of_kind? hp)

/-- The stubs of `h` are those of `g` and those that stand for the nodes that are open. -/
def Standing (g : Graph) (opened : List NodeId) (σ : CopyMap) (h : Graph) : Prop :=
  ∀ p, h.kind? p = some .stub ↔ g.kind? p = some .stub ∨ ∃ n ∈ opened, σ.lookup n = some p

theorem exists_lookup_record (hn : n ∉ opened) :
    (∃ m ∈ opened, List.lookup m ((n, c) :: σ) = some p) ↔ ∃ m ∈ opened, σ.lookup m = some p := by
  refine exists_congr fun m => and_congr_right fun hm => ?_
  have hne : m ≠ n := fun e => hn (e ▸ hm)
  rw [lookup_record, if_neg hne]

namespace Standing

/-- Before anything is copied no stub stands for a node. -/
theorem init (g : Graph) : Standing g [] [] g := fun _ => by simp

theorem record (hst : Standing g opened σ h) (hn : n ∉ opened) (hsame : SameStubs h k)
    (c : NodeId) : Standing g opened ((n, c) :: σ) k := fun p => by
  rw [hsame p, hst p, exists_lookup_record hn]

/-- A node that is opened gets a stub. -/
theorem openNode (hst : Standing g opened σ h) (hn : n ∉ opened) :
    Standing g (n :: opened) ((n, h.bound) :: σ) (h.attach .stub []) := by
  intro p
  rw [stub_addStub_iff, hst p, List.exists_mem_cons_iff, exists_lookup_record hn, lookup_record,
    if_pos rfl, Option.some.injEq]
  tauto

/-- When its copy is made the stub is resolved. -/
theorem closeNode {h' : Graph} (hst : Standing g (n :: opened) σ h) (hσ : Apart g.bound h.bound σ)
    (hn : n ∉ opened) (hlookup : σ.lookup n = some q) (hsame : SameStubs h h')
    (hr : Resolves q real h' k) (c : NodeId) : Standing g opened ((n, c) :: σ) k := by
  intro p
  rw [hr.stub_iff, hsame p, hst p, exists_lookup_record hn, List.exists_mem_cons_iff, hlookup,
    Option.some.injEq]
  constructor
  · rintro ⟨hne, hp | hp | hp⟩
    · exact .inl hp
    · exact absurd hp hne
    · exact .inr hp
  · rintro (hp | ⟨m, hm, hp⟩)
    · refine ⟨fun e => ?_, .inl hp⟩
      exact Nat.not_lt.mpr (hσ.fresh hlookup).1 (e ▸ lt_bound_of_kind? hp)
    · exact ⟨fun e => hn (hσ.inj hlookup (e ▸ hp) ▸ hm), .inr (.inr ⟨m, hm, hp⟩)⟩

end Standing

/-- Only a self-loop has more successors than are named. -/
theorem Kind.degree_of_ne (hkind : kind ≠ .selfLoop) : kind.degree = kind.arity := by
  rw [Kind.degree]
  exact hkind

/-! ### Copies are made -/

/-- The nodes of the body other than the header are there, and are neither a start nor a stub. -/
def Copyable (g : Graph) (body : List NodeId) (header : NodeId) : Prop :=
  ∀ n ∈ body, n ≠ header → ∃ kind, g.kind? n = some kind ∧ kind ≠ .start ∧ kind ≠ .stub

theorem Copyable.extend (hcopy : Copyable g body header) (hext : g.Extends h) :
    Copyable h body header := fun n hn hne => by
  obtain ⟨kind, hk, hkind⟩ := hcopy n hn hne
  exact ⟨kind, hext.kind?_of_some hk, hkind⟩

theorem Copyable.isLive (hcopy : Copyable g body header) (hn : n ∈ body) (hne : n ≠ header) :
    g.isLive n = true := by
  obtain ⟨kind, hk, -⟩ := hcopy n hn hne
  exact isLive_of_kind? hk

/-- Where the copy of an edge leads there is a node. -/
theorem Copying.isLive_landing (hc : Copying g body header back opened σ h)
    (hst : Standing g opened σ h) (hback : g.isLive back = true) (hs : g.isLive s = true)
    (hknown : Known body header σ s) :
    h.isLive (landing body header back (standIn σ) s) = true := by
  rw [landing]
  split
  · exact hc.extends_base.isLive hback
  · next hne =>
      split
      · next hb =>
          obtain ⟨d, hd⟩ := hknown hb hne
          rw [standIn, hd, Option.getD_some]
          by_cases ho : s ∈ opened
          · exact isLive_of_kind? ((hst d).mpr (.inr ⟨s, ho, hd⟩))
          · obtain ⟨kind, hk⟩ := isLive_iff_kind?.mp hs
            exact isLive_of_kind? ((hc.copied hd ho).kind_eq.trans hk)
      · exact hc.extends_base.isLive hs

/-- At this depth the copies of single nodes are made. -/
def Completes (g : Graph) (body : List NodeId) (header back : NodeId) (opened : List NodeId)
    (depth : Nat) : Prop :=
  ∀ {n σ h}, Copying g body header back opened σ h → h.WellFormed → Standing g opened σ h →
    n ∈ body → n ≠ header → ∃ c τ k,
      BodyCopy.copyNode body header back depth n σ h = .ok (c, τ) k ∧ Standing g opened τ k

variable {depth : Nat} {l : List NodeId}

/-- The copy of a target is made, if the target has to be copied. -/
theorem Completes.target (hnode : Completes g body header back opened depth)
    (hc : Copying g body header back opened σ h) (hh : h.WellFormed)
    (hst : Standing g opened σ h) :
    ∃ c τ k, BodyCopy.copyTarget body header back depth s σ h = .ok (c, τ) k ∧
      Standing g opened τ k := by
  rw [BodyCopy.copyTarget]
  split
  · exact ⟨back, σ, h, rfl, hst⟩
  · next hne =>
      split
      · next hb => exact hnode hc hh hst hb hne
      · exact ⟨s, σ, h, rfl, hst⟩

/-- So are those of the targets of a list of edges. -/
theorem Completes.targets (hnode : Completes g body header back opened depth)
    (hcopies : CopiesNodes g body header back opened depth)
    (hc : Copying g body header back opened σ h) (hh : h.WellFormed)
    (hst : Standing g opened σ h) (hl : ∀ s ∈ l, g.isLive s = true) :
    ∃ ts τ k, l.mapM (BodyCopy.copyTarget body header back depth) σ h = .ok (ts, τ) k ∧
      Standing g opened τ k := by
  induction l generalizing σ h with
  | nil => exact ⟨[], σ, h, rfl, hst⟩
  | cons s l ih =>
      obtain ⟨hs, hl⟩ := List.forall_mem_cons.mp hl
      obtain ⟨c, υ, m, hfirst, hst'⟩ := hnode.target hc hh hst
      obtain ⟨hadv, -⟩ := hcopies.target hc hh hs hfirst
      obtain ⟨ts, τ, k, hrest, hst''⟩ := ih hadv.copying hadv.wellFormed hst' hl
      refine ⟨c :: ts, τ, k, ?_, hst''⟩
      rw [BodyCopy.mapM_cons, Edit.bind_ok hfirst, Edit.bind_ok hrest, Edit.pure_apply]

/-- A node is open while the targets of its edges are copied; then its stub is resolved. -/
theorem Completes.copyOpened (hnode : Completes g body header back (n :: opened) depth)
    (hcopies : CopiesNodes g body header back (n :: opened) depth)
    (hc : Copying g body header back opened σ h) (hg : g.Linked) (hback : g.isLive back = true)
    (hh : h.WellFormed) (hst : Standing g opened σ h) (hn : σ.lookup n = none)
    (hk : g.kind? n = some kind) (hstart : kind ≠ .start) (hstub : kind ≠ .stub)
    (hself : kind ≠ .selfLoop) :
    ∃ c τ k, (Edit.addStub >>= fun pending =>
      (g.succs n).mapM (BodyCopy.copyTarget body header back depth) ((n, pending) :: σ) >>=
        fun p => Edit.cloneNode n p.1 >>= fun copy => Edit.resolveStub pending copy >>=
          fun _ => pure (copy, (n, copy) :: p.2) : Edit _) h = .ok (c, τ) k ∧
      Standing g opened τ k := by
  have hno := hc.not_mem_opened hn
  have hm := (Edit.proper_addNode .stub []).wellFormed_of_ok Edit.addStub_eq hh
  have hlive : ∀ s ∈ g.succs n, g.isLive s = true := fun s hs => hg.isLive_succ hs
  rw [Edit.bind_ok Edit.addStub_eq]
  obtain ⟨ts, υ, m, hts, hst'⟩ := hnode.targets hcopies (hc.openNode hn) hm (hst.openNode hno) hlive
  obtain ⟨hadv, hlanding, hknown⟩ := hcopies.targets (hc.openNode hn) hm hlive hts
  rw [Edit.bind_ok hts]
  have hpending : υ.lookup n = some h.bound := hadv.grows n _ (by rw [lookup_record, if_pos rfl])
  -- every target is there now, so the copy can be made
  have hclone : Edit.cloneNode n ts m = .ok m.bound (m.attach kind ts) := by
    refine Edit.cloneNode_eq (hadv.copying.extends_base.kind?_of_some hk) ?_
      (fun e => absurd e hstart) fun t ht => ?_
    · rw [hlanding, List.length_map, hg.degree hk, Kind.degree_of_ne hself]
    · rw [hlanding] at ht
      obtain ⟨s, hs, rfl⟩ := List.mem_map.mp ht
      exact hadv.copying.isLive_landing hst' hback (hlive s hs) (hknown s hs)
  rw [Edit.bind_ok hclone]
  have hm₂ := (Edit.proper_cloneNode n _).wellFormed_of_ok hclone hadv.wellFormed
  have hsame : SameStubs m (m.attach kind ts) := .attach m hstub ts
  -- and it takes the place of the stub, which still stands for the node
  have hstill := (hsame h.bound).mpr
    ((hst' h.bound).mpr (.inr ⟨n, List.mem_cons_self, hpending⟩))
  obtain ⟨k, hresolve⟩ : ∃ k, Edit.resolveStub h.bound m.bound (m.attach kind ts) = .ok () k :=
    Edit.resolveStub_succeeds hstill (by rw [isLive_attach, if_pos rfl])
      (Nat.ne_of_lt (hadv.copying.fresh hpending).2) (hm₂.requireLinks_eq _)
  rw [Edit.bind_ok hresolve]
  exact ⟨_, _, k, rfl, hst'.closeNode hadv.copying.toApart hno hpending hsame
    (Edit.resolveStub_ok hm₂.toLinked hresolve) _⟩

/-- The copy of a node is made. -/
theorem copyNode_completes (hg : g.Linked) (hback : g.isLive back = true)
    (hcopy : Copyable g body header) (hnested : Nested body opened depth) :
    Completes g body header back opened depth := by
  intro n σ h hc hh hst hb hne
  induction depth generalizing n σ h opened with
  | zero => exact absurd rfl hnested.depth_ne_zero
  | succ depth ih =>
      obtain ⟨kind, hk, hstart, hstub⟩ := hcopy n hb hne
      have hlt := lt_bound_of_kind? hk
      rw [BodyCopy.copyNode_succ, hc.extends_base.kind_eq hlt, hc.extends_base.succs_eq hlt]
      cases hn : σ.lookup n with
      | some d => exact ⟨d, σ, h, rfl, hst⟩
      | none =>
          have hno := hc.not_mem_opened hn
          dsimp only
          split
          · next hself =>
              have hclone : Edit.cloneNode n [] h = .ok h.bound (h.attach .selfLoop []) :=
                Edit.cloneNode_eq (hc.extends_base.kind?_of_some hself) rfl Kind.noConfusion nofun
              rw [Edit.bind_ok hclone]
              exact ⟨_, _, _, rfl, hst.record hno (.attach h Kind.noConfusion []) _⟩
          · next hself =>
              have hinner := hnested.cons hb hno
              have hnode : Completes g body header back (n :: opened) depth := ih hinner
              exact hnode.copyOpened (copyNode_spec hg (lt_bound_of_isLive hback) hinner) hc hg
                hback hh hst hn hk hstart hstub fun e => hself (e ▸ hk)

/-- A copy of a body is made, and leaves the stubs as they were. -/
theorem copyBody_completes {entry : NodeId} (hg : g.WellFormed) (hback : g.isLive back = true)
    (hcopy : Copyable g body header) (hb : entry ∈ body) (hne : entry ≠ header) :
    ∃ c k, copyBody body header back entry g = .ok c k ∧ SameStubs g k := by
  have hnested : Nested body [] (body.length + 1) :=
    ⟨.nil, List.nil_subset _, Nat.lt_succ_self _⟩
  obtain ⟨c, τ, k, hok, hst⟩ := copyNode_completes hg.toLinked hback hcopy hnested
    (.init g body header back) hg (.init g) hb hne
  rw [BodyCopy.copyBody_eq, Edit.bind_ok hok]
  refine ⟨c, k, rfl, fun p => (hst p).trans (or_iff_left ?_)⟩
  rintro ⟨n, hn, -⟩
  exact List.not_mem_nil hn

/-! ### A loop is replaced -/

section Loop

variable {entry exit next : NodeId} {guard : Guard} {test : Expr}

theorem CopyOf.isLive_entry {floor : Nat} {f : NodeId → NodeId}
    (hf : CopyOf g h body header entry floor back f) (he : Entry g body header entry) :
    h.isLive (f entry) = true := by
  obtain ⟨kind, hk⟩ := isLive_iff_kind?.mp he.isLive
  exact isLive_of_kind? ((hf.kind_eq .refl).trans hk)

/-- A stub that was added, and that is still there after other nodes were, can be resolved by one
that is added last. -/
theorem resolveStub_of_added (hsame : SameStubs (g.attach .stub []) h) (hlt : g.bound < h.bound)
    (hh : (h.attach kind succs).WellFormed) (hkind : kind ≠ .stub) :
    ∃ k, Edit.resolveStub g.bound h.bound (h.attach kind succs) = .ok () k ∧
      k.isLive h.bound = true ∧ SameStubs g k := by
  have hattach := hsame.trans (.attach h hkind succs)
  obtain ⟨k, hok⟩ := Edit.resolveStub_succeeds
    ((hattach g.bound).mpr (stub_addStub_iff.mpr (.inl rfl))) (by rw [isLive_attach, if_pos rfl])
    (Nat.ne_of_lt hlt) (hh.requireLinks_eq _)
  have hr := Edit.resolveStub_ok hh.toLinked hok
  have hkind : k.kind? h.bound = some kind := by
    rw [hr.kind?_of_ne (Nat.ne_of_lt hlt), kind?_attach, if_pos rfl]
  exact ⟨k, hok, isLive_of_kind? hkind, hattach.resolve hr⟩

/-- The copy of the loop is made, and leaves the stubs as they were. -/
theorem addEpilogue_completes (hg : g.WellFormed) (he : Entry g body header guard.entry)
    (hexit : g.isLive guard.exit = true) (hheader : g.kind? header = some (.branch test))
    (hcopy : Copyable g body header) :
    ∃ c h, addEpilogue header body guard g = .ok c h ∧ SameStubs g h := by
  have hext₁ : g.Extends (g.attach .stub []) := .attach ..
  have hg₁ := (Edit.proper_addNode .stub []).wellFormed_of_ok Edit.addStub_eq hg
  have hlt := lt_bound_attach g .stub []
  have hback : (g.attach .stub []).isLive g.bound = true := by rw [isLive_attach, if_pos rfl]
  obtain ⟨c, g₂, hbody, hsame⟩ :=
    copyBody_completes hg₁ hback (hcopy.extend hext₁) he.mem he.ne
  obtain ⟨hext₂, hg₂, rest, rfl, hrest⟩ := copyBody_spec hg.toLinked he hext₁ hg₁ hlt hbody
  have hext := hext₁.trans hext₂
  have hclone : Edit.cloneNode header [rest guard.entry, guard.exit] g₂ =
      .ok g₂.bound (g₂.attach (.branch test) [rest guard.entry, guard.exit]) := by
    refine Edit.cloneNode_eq (hext.kind?_of_some hheader) rfl Kind.noConfusion fun s hs => ?_
    rcases List.mem_pair.mp hs with rfl | rfl
    · exact hrest.isLive_entry he
    · exact hext.isLive hexit
  have hg₃ := (Edit.proper_cloneNode header _).wellFormed_of_ok hclone hg₂
  obtain ⟨h, hresolve, -, hstubs⟩ := resolveStub_of_added hsame
    (Nat.lt_of_lt_of_le hlt hext₂.bound_le) hg₃ Kind.noConfusion
  refine ⟨g₂.bound, h, ?_, hstubs⟩
  rw [addEpilogue, Edit.bind_ok Edit.addStub_eq, Edit.bind_ok hbody, Edit.bind_ok hclone,
    Edit.bind_ok hresolve, Edit.pure_apply]

/-- Any number of copies of the body are made. -/
theorem addChain_completes (copies : Nat) (hg : g.Linked) (he : Entry g body header entry)
    (hcopy : Copyable g body header) (hgh : g.Extends h) (hh : h.WellFormed)
    (hnext : h.isLive next = true) :
    ∃ c k, addChain header body entry next copies h = .ok c k ∧ SameStubs h k ∧
      k.isLive c = true := by
  induction copies generalizing h next with
  | zero => exact ⟨next, h, rfl, .refl h, hnext⟩
  | succ copies ih =>
      obtain ⟨d, m, hbody, hsame⟩ := copyBody_completes hh hnext (hcopy.extend hgh) he.mem he.ne
      obtain ⟨hext, hm, f, rfl, hf⟩ :=
        copyBody_spec hg he hgh hh (lt_bound_of_isLive hnext) hbody
      obtain ⟨c, k, hrest, hsame', hc⟩ := ih (hgh.trans hext) hm (hf.isLive_entry he)
      refine ⟨c, k, ?_, hsame.trans hsame', hc⟩
      rw [addChain, Edit.bind_ok hbody]
      exact hrest

/-- All entries are led elsewhere. -/
theorem forM_replaceSucc_completes {ps : List NodeId} (hnd : ps.Nodup)
    (hreal : g.isLive real = true)
    (hps : ∀ p ∈ ps, header ∈ g.succs p ∧ g.kind? p ≠ some .selfLoop) :
    ∃ h, ps.forM (fun p => Edit.replaceSucc p header real) g = .ok () h ∧ SameStubs g h := by
  induction ps generalizing g with
  | nil => exact ⟨g, rfl, .refl g⟩
  | cons p ps ih =>
      obtain ⟨hp, hnd⟩ := List.nodup_cons.mp hnd
      obtain ⟨⟨hs, hself⟩, hps⟩ := List.forall_mem_cons.mp hps
      have hfirst := Edit.replaceSucc_eq hreal hs fun e => absurd e hself
      obtain ⟨h, hrest, hsame⟩ := ih (g := g.moveEdges p header real) hnd
        (by rwa [isLive_moveEdges]) fun q hq => by
          have hne : p ≠ q := fun e => hp (e ▸ hq)
          rw [succs_moveEdges, if_neg hne, kind?_moveEdges]
          exact hps q hq
      refine ⟨h, (Edit.bind_ok hfirst).trans hrest, fun q => (hsame q).trans ?_⟩
      rw [kind?_moveEdges]

/-- A self-loop that leads to the header is the header, and so lies in the body. -/
theorem moveEntries_completes (hg : g.WellFormed) (hmem : header ∈ body)
    (hreal : g.isLive real = true) :
    ∃ h, moveEntries header body real g = .ok () h ∧ SameStubs g h := by
  rw [moveEntries, Edit.bind_ok (Edit.get_apply g)]
  refine forM_replaceSucc_completes ((hg.nodup_preds header).filter _) hreal fun p hp => ?_
  obtain ⟨hp, hout⟩ := List.mem_filter.mp hp
  have hs := hg.mem_preds.mp hp
  refine ⟨hs, fun hself => ?_⟩
  rw [hg.selfLoop hself, List.mem_singleton] at hs
  rw [hs] at hmem
  simp [hmem] at hout

/-- A loop with an entry and no start or stub in its body is replaced. -/
theorem replaceLoop_completes (factor : Nat) (hg : g.WellFormed)
    (he : Entry g body header guard.entry) (hexit : g.isLive guard.exit = true)
    (hheader : g.kind? header = some (.branch test)) (hmem : header ∈ body)
    (hcopy : Copyable g body header) :
    ∃ newHeader h, replaceLoop header body guard factor g = .ok newHeader h ∧ SameStubs g h := by
  obtain ⟨epilogue, g₁, hepilogue, hsame₁⟩ := addEpilogue_completes hg he hexit hheader hcopy
  obtain ⟨hext₁, hg₁, -, rest, hrem⟩ := addEpilogue_spec hg he hexit hheader hepilogue
  have hext₂ : g₁.Extends (g₁.attach .stub []) := .attach ..
  have hg₂ := (Edit.proper_addNode .stub []).wellFormed_of_ok Edit.addStub_eq hg₁
  have hlt := lt_bound_attach g₁ .stub []
  have hback : (g₁.attach .stub []).isLive g₁.bound = true := by rw [isLive_attach, if_pos rfl]
  obtain ⟨chain, g₃, hchain, hsame₃, hlive⟩ := addChain_completes factor hg.toLinked he
    hcopy (hext₁.trans hext₂) hg₂ hback
  obtain ⟨hext₃, hg₃, -⟩ := addChain_spec hg.toLinked he (hext₁.trans hext₂) hg₂ hlt hchain
  have hbranch : Edit.addBranch (guard.lookahead (Int64.ofNat (factor - 1))) chain epilogue g₃ =
      .ok g₃.bound (g₃.attach (.branch (guard.lookahead (Int64.ofNat (factor - 1))))
        [chain, epilogue]) := by
    refine Edit.addNode_eq rfl Kind.noConfusion fun s hs => ?_
    rcases List.mem_pair.mp hs with rfl | rfl
    · exact hlive
    · exact (hext₂.trans hext₃).isLive (isLive_of_kind? (hrem.kind_eq.trans hheader))
  have hg₄ := (Edit.proper_addNode _ _).wellFormed_of_ok hbranch hg₃
  have hnew : g₁.bound < g₃.bound := Nat.lt_of_lt_of_le hlt hext₃.bound_le
  obtain ⟨g₅, hresolve, hreal, hsame₅⟩ := resolveStub_of_added hsame₃ hnew hg₄ Kind.noConfusion
  have hg₅ := (Edit.proper_resolveStub _ _).wellFormed_of_ok hresolve hg₄
  obtain ⟨h, hmove, hsame⟩ := moveEntries_completes hg₅ hmem hreal
  refine ⟨g₃.bound, h, ?_, hsame₁.trans (hsame₅.trans hsame)⟩
  rw [replaceLoop, Edit.bind_ok hepilogue, Edit.bind_ok Edit.addStub_eq, Edit.bind_ok hchain,
    Edit.bind_ok hbranch, Edit.bind_ok hresolve, Edit.bind_ok hmove, Edit.pure_apply]

/-- A loop whose body can be copied is replaced or left alone. -/
theorem unrollLoop_completes (config : UnrollConfig) (hg : g.WellFormed)
    (hheader : g.isLive header = true) (hmem : header ∈ body) (hcopy : Copyable g body header) :
    ∃ outcome h, unrollLoop header body config g = .ok outcome h ∧ SameStubs g h := by
  obtain ⟨node, hnode⟩ := isLive_iff.mp hheader
  rw [unrollLoop, Edit.bind_ok (Edit.require_eq hnode), Edit.bind_ok (Edit.get_apply g)]
  cases ha : Guard.analyze g header body config with
  | error reason => exact ⟨_, g, rfl, .refl g⟩
  | ok guard =>
      dsimp only
      split
      · obtain ⟨-, v, hanalyzed⟩ := Guard.analyze_ok ha
        have hlive {s : NodeId} (hs : s ∈ [guard.entry, guard.exit]) : g.isLive s = true :=
          hg.isLive_succ (hanalyzed.succs_header ▸ hs)
        obtain ⟨newHeader, h, hok, hsame⟩ := replaceLoop_completes config.factor hg
          ⟨hanalyzed.entry_mem, hanalyzed.entry_ne, hlive List.mem_cons_self⟩
          (hlive (List.mem_cons_of_mem _ List.mem_cons_self)) hanalyzed.kind_header hmem hcopy
        exact ⟨.unrolled newHeader, h, Edit.bind_ok hok, hsame⟩
      · exact ⟨_, g, rfl, .refl g⟩

end Loop

/-! ### All loops -/

section Loops

variable {start : NodeId} {d : Dominators} {l : NaturalLoop}
  (hg : g.WellFormed) (hs : g.start = some start) (hd : d.Correct g start)

include hg hs hd

/-- What is collected for a loop leads back to its header, so it has no stub; and the header
dominates it, so it has no start other than the header. -/
theorem copyable_currentBody (hst : Stage g k start) (hk : k.WellFormed) (hl : l.Closed g start) :
    Copyable k (currentBody k d l) l.header := by
  intro n hn hne
  have hsucc : ∃ s, s ∈ k.succs n := by
    obtain ⟨t, ⟨-, ht⟩, -, hlead⟩ := ((mem_currentBody hk.toLinked).mp hn).resolve_left hne
    rcases Relation.ReflTransGen.cases_head hlead with rfl | ⟨m, hm, -⟩
    · exact ⟨l.header, ht⟩
    · exact ⟨m, hm.1⟩
  obtain ⟨s, hsn⟩ := hsucc
  obtain ⟨kind, hkind⟩ := isLive_iff_kind?.mp (isLive_of_mem_succs hsn)
  have hbody := mem_body_of_mem_currentBody hg hs hd hst hk.toLinked hl hn
  refine ⟨kind, hkind, fun e => hne ?_, fun e => ?_⟩
  · rw [e, hst.kind_eq (lt_bound_of_reaches hg hs (hl.reaches hbody)), ← hg.start_iff, hs,
      Option.some.injEq] at hkind
    have hdom := hl.dominates hbody
    rw [← hkind] at hdom ⊢
    exact (dominates_start_iff.mp hdom).symm
  · rw [hk.succs_of_stub (e ▸ hkind)] at hsn
    cases hsn

/-- A loop that was found is looked at without an error. -/
theorem unrollFound_completes (config : UnrollConfig) (hst : Stage g k start) (hk : k.WellFormed)
    (hl : l.Closed g start) :
    ∃ found h, unrollFound d config l k = .ok found h ∧ SameStubs k h := by
  rw [unrollFound, Edit.bind_ok (Edit.get_apply k)]
  split
  · next hlive =>
      obtain ⟨outcome, h, hok, hsame⟩ := unrollLoop_completes config hk hlive
        header_mem_currentBody (copyable_currentBody hg hs hd hst hk hl)
      exact ⟨_, h, Edit.bind_ok hok, hsame⟩
  · exact ⟨none, k, rfl, .refl k⟩

/-- So are all of them, one after the other. -/
theorem unrollEach_completes {f : LoopForest} (config : UnrollConfig) (hst : Stage g k start)
    (hk : k.WellFormed) (hf : ∀ l ∈ f, l.Closed g start) :
    ∃ reports h, unrollEach d config f k = .ok reports h ∧ SameStubs k h := by
  induction f generalizing k with
  | nil => exact ⟨[], k, rfl, .refl k⟩
  | cons l rest ih =>
      obtain ⟨hl, hf⟩ := List.forall_mem_cons.mp hf
      have hstart : start < k.bound :=
        Nat.lt_of_lt_of_le (lt_bound_of_reaches hg hs .refl) hst.bound_le
      obtain ⟨found, m, hfound, hsame⟩ := unrollFound_completes hg hs hd config hst hk hl
      have hm := (proper_unrollFound d config l).wellFormed_of_ok hfound hk
      obtain ⟨reports, h, heach, hsame'⟩ :=
        ih (hst.trans (stage_unrollFound hk hstart hfound)) hm hf
      exact ⟨_, h, unrollEach_cons_ok.mpr ⟨found, m, reports, hfound, heach, rfl⟩,
        hsame.trans hsame'⟩

end Loops

/-- A graph none of whose loops is unrolled stays as it is. -/
theorem eq_of_not_unrolled {d : Dominators} {config : UnrollConfig} {f : LoopForest}
    {reports : List LoopReport} (hok : unrollEach d config f g = .ok reports h)
    (hno : ∀ r ∈ reports, r.outcome.isUnrolled = false) : h = g := by
  induction f generalizing g reports with
  | nil => cases hok; rfl
  | cons l rest ih =>
      obtain ⟨q, m, qs, hfound, heach, rfl⟩ := unrollEach_cons_ok.mp hok
      rcases unrollFound_cases hfound with ⟨-, rfl⟩ | ⟨newHeader, rfl, -⟩
      · exact ih heach fun r hr => hno r (List.mem_append_right _ hr)
      · cases hno _ List.mem_cons_self

/-- All loops of a graph with a start are dealt with.  Before the last sweep the stubs are what they
were. -/
theorem unrollLoops_completes {start : NodeId} (hg : g.WellFormed) (hs : g.start = some start)
    (config : UnrollConfig) :
    ∃ d report k h, Dominators.compute g = .ok d ∧ unrollLoops config g = .ok report h ∧
      unrollEach d config (LoopForest.detect g d) g = .ok report.loops k ∧ SameStubs g k ∧
      (h = k.swept ∨ h = g) := by
  obtain ⟨d, hd, -⟩ := Dominators.compute_spec hg hs
  have hcorrect := Dominators.correct_of_compute hg hs hd
  obtain ⟨loops, k, heach, hsame⟩ := unrollEach_completes hg hs hcorrect config
    (.refl g start) hg (LoopForest.found_detect hg hcorrect).closed
  rw [unrollLoops, Edit.bind_ok (Edit.get_apply g), hd]
  dsimp only
  rw [Edit.bind_ok heach]
  split
  · exact ⟨d, ⟨loops, k.unreachable.length⟩, k, k.swept, rfl, rfl, heach, hsame, .inl rfl⟩
  · next hno =>
      refine ⟨d, ⟨loops, 0⟩, k, k, rfl, rfl, heach, hsame, .inr (eq_of_not_unrolled heach ?_)⟩
      simpa using hno

end Flowgraph

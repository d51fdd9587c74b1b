import Flowgraph.DeadCode
import Flowgraph.Proofs.Built
import Flowgraph.Proofs.LiveVariables
import Flowgraph.Proofs.Simulation

/-!
# Dead code elimination keeps behaviour

Dead assignments are spliced out one after the other, by what was live before the first of them
went.  A *certificate* is what is left of that knowledge: sets of live temporaries that are large
enough for the graph as it is now.  Splicing out one assignment to a temporary that the certificate
does not count as live keeps the certificate, and the runs before and after agree on what is live.

* `Certificate.ofLiveness`: liveness is a certificate for the graph it was computed for.
* `Certificate.splice`, `Certificate.alike_splice`: what splicing out one assignment keeps.
* `Certificate.removeNodes`: splicing out one after the other.
* `eliminateDeadCode_alike`: one round.
* `deadCode_keeps_behaviour`: one round or any number of rounds, on built graphs.
-/

namespace Flowgraph

open Flowgraph.Graph Machine

variable {V : Type} [DecidableEq V] {M : Machine V} {g : Graph} {start node next n m : NodeId}
  {x t : String} {live : NodeId → String → Prop} {reached : NodeId → Prop}

/-- Live before a node are the temporaries that it reads, and those live after it that it does not
write. -/
def LiveBefore (g : Graph) (live : NodeId → String → Prop) (n : NodeId) (x : String) : Prop :=
  x ∈ g.uses n ∨ live n x ∧ x ∉ g.defs n

/-- Sets of temporaries live after each node that hold everything that may still be read, and at
the exits the return temporaries. -/
structure Certificate (g : Graph) (reached : NodeId → Prop) (live : NodeId → String → Prop) :
    Prop where
  closed : ∀ {n m}, reached n → m ∈ g.succs n → reached m
  isLive : ∀ {n}, reached n → g.isLive n = true
  covers : ∀ {n m x}, reached n → m ∈ g.succs n → LiveBefore g live m x → live n x
  exits : ∀ {n x}, reached n → g.succs n = [] → isReturnTemp x = true → live n x

/-- A temporary is live by liveness, or does not occur at all. -/
def Liveness.afterOrAbsent (l : Liveness) (g : Graph) (n : NodeId) (x : String) : Prop :=
  l.isLiveAfter n x = true ∨ ¬g.Occurs x

/-- The equations of liveness make a certificate. -/
theorem Certificate.ofLiveness (hg : g.WellFormed) (hs : g.start = some start) {l : Liveness}
    (hl : ∀ n ∈ g.reachable, ∀ x,
      (l.isLiveBefore n x = true ↔
        x ∈ g.uses n ∨ l.isLiveAfter n x = true ∧ x ∉ g.defs n) ∧
      (l.isLiveAfter n x = true ↔
        if g.succs n = [] then g.Occurs x ∧ isReturnTemp x = true
        else ∃ m ∈ g.succs n, l.isLiveBefore m x = true)) :
    Certificate g (· ∈ g.reachable) (l.afterOrAbsent g) := by
  have hclosed {n m} (hn : n ∈ g.reachable) (hm : m ∈ g.succs n) : m ∈ g.reachable :=
    hg.mem_reachable_of_succ hs hn hm
  refine ⟨hclosed, isLive_of_mem_reachable, fun {n m x} hn hm hx => ?_, fun {n x} hn hnil hx => ?_⟩
  · have hbefore (h : l.isLiveBefore m x = true) : l.afterOrAbsent g n x := by
      refine .inl ((hl n hn x).2.mpr ?_)
      rw [if_neg (List.ne_nil_of_mem hm)]
      exact ⟨m, hm, h⟩
    rcases hx with hx | ⟨hx | hx, hd⟩
    · exact hbefore ((hl m (hclosed hn hm) x).1.mpr (.inl hx))
    · exact hbefore ((hl m (hclosed hn hm) x).1.mpr (.inr ⟨hx, hd⟩))
    · exact .inr hx
  · by_cases ho : g.Occurs x
    · refine .inl ((hl n hn x).2.mpr ?_)
      rw [if_pos hnil]
      exact ⟨ho, hx⟩
    · exact .inr ho

/-! ### Splicing out one assignment -/

/-- The graph without a node whose successor is `next`. -/
def spliced (g : Graph) (node next : NodeId) : Graph :=
  (g.bypass node next (g.preds node)).unlink node next

/-- Only the node that is spliced out goes. -/
theorem kind?_spliced (n : NodeId) :
    (spliced g node next).kind? n = if node = n then none else g.kind? n := by
  rw [spliced, kind?_unlink, kind?_bypass]

/-- What led to it leads to its successor. -/
theorem succs_spliced (hg : g.Linked) (n : NodeId) :
    (spliced g node next).succs n =
      if node = n then [] else (g.succs n).map (divert node next) := by
  rw [spliced, succs_unlink, hg.succs_bypass]

theorem start_spliced : (spliced g node next).start = g.start := by
  rw [spliced, start_unlink, start_bypass]

theorem defs_spliced (h : n ≠ node) : (spliced g node next).defs n = g.defs n := by
  rw [Graph.defs, Graph.defs, kind?_spliced, if_neg (Ne.symm h)]

theorem uses_spliced (h : n ≠ node) : (spliced g node next).uses n = g.uses n := by
  rw [Graph.uses, Graph.uses, kind?_spliced, if_neg (Ne.symm h)]

/-- What is live before another node stays so. -/
theorem liveBefore_spliced (h : n ≠ node) :
    LiveBefore (spliced g node next) live n x ↔ LiveBefore g live n x := by
  rw [LiveBefore, LiveBefore, defs_spliced h, uses_spliced h]

/-- A node that is its own only successor is passed over. -/
theorem removeNodes_of_self {rest : List NodeId} (hs : g.succs n = [n]) :
    removeNodes (n :: rest) g = removeNodes rest g := by
  rw [removeNodes, Edit.bind_ok (Edit.get_apply g), if_pos hs]

/-- Another one with one successor is spliced out, unless it is the start. -/
theorem removeNodes_of_succ {rest : List NodeId} {removed : List Removal} {h : Graph} {k : Kind}
    (hstart : g.start ≠ some n) (hk : g.kind? n = some k) (hs : g.succs n = [next]) (hne : next ≠ n)
    (hok : removeNodes rest (spliced g n next) = .ok removed h) :
    removeNodes (n :: rest) g = .ok (⟨n, k⟩ :: removed) h := by
  obtain ⟨node, hnode⟩ := isLive_iff.mp (isLive_of_kind? hk)
  obtain rfl : node.kind = k := Option.some.inj ((kind?_of_node? hnode).symm.trans hk)
  have hremove : Edit.removeNode n g = .ok () (spliced g n next) := Edit.removeNode_ok hstart hs hne
  rw [removeNodes, Edit.bind_ok (Edit.get_apply g),
    if_neg fun e => hne (List.singleton_inj.mp (hs.symm.trans e)),
    Edit.bind_ok (Edit.require_eq hnode), Edit.bind_ok hremove, Edit.bind_ok hok]
  rfl

/-- A node that writes one temporary has no other effect on them and one way on. -/
theorem defs_of_target? {k : Kind} (h : k.target? = some t) : k.defs = [t] ∧ k.degree = 1 := by
  cases k with
  | stmt st =>
      cases st with
      | assign target e => cases h; exact ⟨rfl, rfl⟩
      | store target e =>
          cases target with
          | temp y => cases h; exact ⟨rfl, rfl⟩
          | const | global | mem | binop => cases h
      | call c => cases h
  | start | branch | ret | selfLoop | block | stub => cases h

/-- An assignment of one temporary does nothing else. -/
theorem perform_of_target? {k : Kind} (h : k.target? = some t) (s : Snapshot V) :
    ∃ v, M.perform s k = s.assign t v := by
  cases k with
  | stmt st =>
      cases st with
      | assign target e => cases h; exact ⟨_, rfl⟩
      | store target e =>
          cases target with
          | temp y => cases h; exact ⟨_, rfl⟩
          | const | global | mem | binop => cases h
      | call c => cases h
  | start | branch | ret | selfLoop | block | stub => cases h

/-- The node assigns one temporary, which is not live after it. -/
def DeadAt (g : Graph) (live : NodeId → String → Prop) (node : NodeId) : Prop :=
  ∃ k t, g.kind? node = some k ∧ k.target? = some t ∧ ¬live node t

/-- A dead node has one successor. -/
theorem DeadAt.exists_succ (hg : g.Linked) (hd : DeadAt g live node) :
    ∃ next, g.succs node = [next] := by
  obtain ⟨k, t, hk, ht, -⟩ := hd
  have hlen := hg.degree hk
  rw [(defs_of_target? ht).2] at hlen
  exact List.length_eq_one_iff.mp hlen

/-- The start assigns nothing. -/
theorem DeadAt.ne_start (hg : g.WellFormed) (hd : DeadAt g live node) : g.start ≠ some node := by
  intro hs
  obtain ⟨k, t, hk, ht, -⟩ := hd
  rw [hg.start_iff.mp hs, Option.some.injEq] at hk
  subst hk
  cases ht

/-- Other dead nodes stay dead. -/
theorem DeadAt.spliced (hd : DeadAt g live n) (hne : n ≠ node) :
    DeadAt (Flowgraph.spliced g node next) live n := by
  obtain ⟨k, t, hk, ht, hlive⟩ := hd
  exact ⟨k, t, by rw [kind?_spliced, if_neg (Ne.symm hne), hk], ht, hlive⟩

namespace Certificate

/-- Whatever is live before the successor of a dead assignment is live before the assignment. -/
theorem liveBefore_of_dead (hc : Certificate g reached live) (hr : reached node)
    (hd : DeadAt g live node) (hm : next ∈ g.succs node) (hx : LiveBefore g live next x) :
    LiveBefore g live node x := by
  obtain ⟨k, t, hk, ht, hdead⟩ := hd
  have hlive := hc.covers hr hm hx
  refine .inr ⟨hlive, fun hmem => hdead ?_⟩
  rw [Graph.defs, hk, Option.map_some, Option.getD_some, (defs_of_target? ht).1,
    List.mem_singleton] at hmem
  exact hmem ▸ hlive

/-- Splicing out a dead assignment keeps the certificate. -/
theorem splice (hc : Certificate g reached live) (hg : g.Linked) (hr : reached node)
    (hd : DeadAt g live node) (hs : g.succs node = [next]) (hne : next ≠ node) :
    Certificate (spliced g node next) (fun n => reached n ∧ n ≠ node) live := by
  have hnext : next ∈ g.succs node := by rw [hs]; exact List.mem_cons_self
  -- an edge now is an edge as it was, or one that led to the node that is gone
  have hedge {n m} (hn : n ≠ node) (hm : m ∈ (spliced g node next).succs n) :
      m ∈ g.succs n ∧ m ≠ node ∨ m = next ∧ node ∈ g.succs n := by
    rw [succs_spliced hg, if_neg (Ne.symm hn), List.mem_map] at hm
    obtain ⟨k, hk, rfl⟩ := hm
    by_cases e : k = node
    · subst e
      exact .inr ⟨divert_self k next, hk⟩
    · rw [divert_of_ne e]
      exact .inl ⟨hk, e⟩
  constructor
  case closed =>
    intro n m hn hm
    rcases hedge hn.2 hm with ⟨hm, hmn⟩ | ⟨rfl, -⟩
    · exact ⟨hc.closed hn.1 hm, hmn⟩
    · exact ⟨hc.closed hr hnext, hne⟩
  case isLive =>
    intro n hn
    obtain ⟨k, hk⟩ := isLive_iff_kind?.mp (hc.isLive hn.1)
    exact isLive_of_kind? (by rw [kind?_spliced, if_neg (Ne.symm hn.2), hk])
  case covers =>
    intro n m x hn hm hx
    rcases hedge hn.2 hm with ⟨hold, hmn⟩ | ⟨rfl, hold⟩
    · exact hc.covers hn.1 hold ((liveBefore_spliced hmn).mp hx)
    · exact hc.covers hn.1 hold
        (hc.liveBefore_of_dead hr hd hnext ((liveBefore_spliced hne).mp hx))
  case exits =>
    intro n x hn hnil hx
    rw [succs_spliced hg, if_neg (Ne.symm hn.2), List.map_eq_nil_iff] at hnil
    exact hc.exits hn.1 hnil hx

/-- Runs with and without the node, while they are in step: the run with the node may still have to
pass it. -/
def InStep (g : Graph) (reached : NodeId → Prop) (live : NodeId → String → Prop)
    (node next : NodeId) (a b : Config V) : Prop :=
  reached a.node ∧ b.node = divert node next a.node ∧
    Agrees (LiveBefore g live a.node) a.state b.state

/-- After a node that both runs perform, they agree on what is live before any of its successors. -/
theorem agrees_perform (hc : Certificate g reached live) {s s' : Snapshot V} {k : Kind}
    (hr : reached n) (hk : g.kind? n = some k) (hs : Agrees (LiveBefore g live n) s s')
    (hm : m ∈ g.succs n) :
    Agrees (LiveBefore g live m) (M.perform s k) (M.perform s' k) ∧ M.slot s k = M.slot s' k := by
  have huses : ∀ x ∈ k.uses, LiveBefore g live n x := fun x hx =>
    .inl (by rwa [Graph.uses, hk, Option.map_some, Option.getD_some])
  obtain ⟨hag, hslot⟩ := Machine.agrees_perform (M := M) hs huses
  refine ⟨hag.mono fun {x} hx => ?_, hslot⟩
  by_cases hd : x ∈ k.defs
  · exact .inl hd
  · refine .inr (.inr ⟨hc.covers hr hm hx, ?_⟩)
    rwa [Graph.defs, hk, Option.map_some, Option.getD_some]

/-- The run with the node has to pass it before it is done. -/
def passing (node : NodeId) (a _ : Config V) : Nat := if a.node = node then 1 else 0

/-- The dead assignment is made on one side only. -/
theorem progress_dead (hc : Certificate g reached live) (hg : g.Linked) (hr : reached node)
    (hd : DeadAt g live node) (hs : g.succs node = [next]) (hne : next ≠ node) {a b : Config V}
    (hab : InStep g reached live node next a b) (ha : a.node = node) :
    ∃ a', M.step g a = some a' ∧ InStep g reached live node next a' b ∧
      passing node a' b < passing node a b := by
  obtain ⟨-, hnode, hag⟩ := hab
  have hnext : next ∈ g.succs node := by rw [hs]; exact List.mem_cons_self
  obtain ⟨k, t, hk, ht, hdead⟩ := id hd
  have hdeg : k.degree ≠ 0 := by rw [(defs_of_target? ht).2]; exact Nat.one_ne_zero
  obtain ⟨m, hm, hstep⟩ := exists_step (M := M) (c := a) hg (ha.symm ▸ hk) hdeg
  rw [ha, hs] at hm
  obtain rfl : m = next := by simpa using List.mem_of_getElem? hm
  obtain ⟨v, hv⟩ := perform_of_target? (M := M) ht a.state
  rw [hv] at hstep
  refine ⟨_, hstep, ⟨hc.closed hr hnext, ?_, ?_⟩, ?_⟩
  · rw [hnode, ha, divert_self, divert_of_ne hne]
  · refine (hag.mono fun {x} hx => ?_).assign_left v fun hx => hdead (hc.covers hr hnext hx)
    rw [ha]
    exact hc.liveBefore_of_dead hr hd hnext hx
  · rw [passing, passing, if_pos ha, if_neg hne]
    exact Nat.one_pos

/-- Both runs perform any other node. -/
theorem progress_other (hc : Certificate g reached live) (hg : g.Linked) {a b : Config V}
    (hab : InStep g reached live node next a b) (ha : a.node ≠ node) :
    Progress M (fun x => isReturnTemp x = true) g (spliced g node next)
      (InStep g reached live node next) (passing node) a b := by
  obtain ⟨hra, hnode, hag⟩ := hab
  obtain ⟨k, hk⟩ := isLive_iff_kind?.mp (hc.isLive hra)
  rw [divert_of_ne ha] at hnode
  have hk' : (spliced g node next).kind? b.node = some k := by
    rw [kind?_spliced, hnode, if_neg (Ne.symm ha), hk]
  by_cases hdeg : k.degree = 0
  · have hnil : g.succs a.node = [] := List.eq_nil_of_length_eq_zero ((hg.degree hk).trans hdeg)
    have hdefs : k.defs = [] := by
      cases k with
      | ret | stub => rfl
      | start | stmt | branch | selfLoop | block => cases hdeg
    refine .inr (.inr (.inr ⟨step_of_degree_eq_zero hk hdeg, step_of_degree_eq_zero hk' hdeg,
      hag.mono fun {x} hx => .inr ⟨hc.exits hra hnil hx, ?_⟩, by rw [hk, hk']⟩))
    rw [Graph.defs, hk, Option.map_some, Option.getD_some, hdefs]
    exact List.not_mem_nil
  · obtain ⟨m, hm, hstep⟩ := exists_step (M := M) (c := a) hg hk hdeg
    obtain ⟨hag', hslot⟩ := hc.agrees_perform (M := M) hra hk hag (List.mem_of_getElem? hm)
    refine .inl ⟨_, ⟨divert node next m, M.perform b.state k⟩, hstep, ?_,
      hc.closed hra (List.mem_of_getElem? hm), rfl, hag'⟩
    rw [step_eq hk' hdeg, hnode, succs_spliced hg, if_neg (Ne.symm ha), List.getElem?_map,
      ← hslot, hm]
    rfl

/-- Runs with and without a dead assignment stay in step. -/
theorem simulation (hc : Certificate g reached live) (hg : g.Linked) (hr : reached node)
    (hd : DeadAt g live node) (hs : g.succs node = [next]) (hne : next ≠ node) :
    Simulation M (fun x => isReturnTemp x = true) g (spliced g node next)
      (InStep g reached live node next) (passing node) where
  progress {a b} hab := by
    by_cases ha : a.node = node
    · exact .inr (.inl (hc.progress_dead hg hr hd hs hne hab ha))
    · exact hc.progress_other hg hab ha
  trace hab := hab.2.2.trace

/-- Splicing out a dead assignment keeps behaviour. -/
theorem alike_splice (hc : Certificate g reached live) (hg : g.Linked) (hr : reached node)
    (hd : DeadAt g live node) (hs : g.succs node = [next]) (hne : next ≠ node)
    (hstart : g.start = some start) (hrs : reached start) (hns : start ≠ node) :
    Alike M (fun x => isReturnTemp x = true) g (spliced g node next) :=
  (hc.simulation hg hr hd hs hne).alike hstart (start_spliced.trans hstart) fun s =>
    ⟨hrs, (divert_of_ne hns).symm, .refl s⟩

/-- Splicing out dead assignments one after the other succeeds and keeps behaviour.  An assignment
that has become its own successor stays. -/
theorem removeNodes (hc : Certificate g reached live) (hg : g.WellFormed)
    (hstart : g.start = some start) (hrs : reached start) (ns : List NodeId) (hnd : ns.Nodup)
    (hns : ∀ n ∈ ns, reached n ∧ DeadAt g live n) :
    ∃ removed h, Flowgraph.removeNodes ns g = .ok removed h ∧ h.start = some start ∧
      Alike M (fun x => isReturnTemp x = true) g h := by
  induction ns generalizing g reached with
  | nil => exact ⟨[], g, rfl, hstart, .refl g⟩
  | cons n rest ih =>
      obtain ⟨hn, hrest⟩ := List.nodup_cons.mp hnd
      obtain ⟨hr, hd⟩ := hns n List.mem_cons_self
      obtain ⟨next, hs⟩ := hd.exists_succ hg.toLinked
      by_cases hne : next = n
      · rw [removeNodes_of_self (hne ▸ hs)]
        exact ih hc hg hstart hrs hrest fun m hm => hns m (List.mem_cons_of_mem _ hm)
      · obtain ⟨k, t, hk, -⟩ := id hd
        have hgs : g.start ≠ some n := hd.ne_start hg
        have hsn : start ≠ n := fun e => hgs (e ▸ hstart)
        have hlater := ih (hc.splice hg.toLinked hr hd hs hne)
          (Change.wellFormed (.splice hgs hs hne) hg) (start_spliced.trans hstart) ⟨hrs, hsn⟩ hrest
          fun m hm => by
            have hmn : m ≠ n := fun e => hn (e ▸ hm)
            obtain ⟨hrm, hdm⟩ := hns m (List.mem_cons_of_mem _ hm)
            exact ⟨⟨hrm, hmn⟩, hdm.spliced hmn⟩
        obtain ⟨removed, h, hok, hh, halike⟩ := hlater
        exact ⟨_, h, removeNodes_of_succ hgs hk hs hne hok, hh,
          (hc.alike_splice hg.toLinked hr hd hs hne hstart hrs hsn).trans halike⟩

end Certificate

/-! ### Rounds -/

/-- The test for dead nodes, by what is computed to be live. -/
theorem isDead_iff {l : Liveness} :
    isDead g l n = true ↔ DeadAt g (fun n t => l.isLiveAfter n t = true) n := by
  rw [isDead, DeadAt]
  cases hk : g.kind? n with
  | none => simp
  | some k =>
      cases ht : k.target? with
      | none => simp [ht]
      | some t => simp [ht]

theorem mem_deadNodes {l : Liveness} :
    n ∈ deadNodes g l ↔ n ∈ g.reachable ∧ DeadAt g (fun n t => l.isLiveAfter n t = true) n := by
  rw [deadNodes, List.mem_filter, Bool.and_eq_true, List.contains_iff_mem, isDead_iff]
  exact and_iff_right_of_imp fun h => mem_ids.mpr (isLive_of_mem_reachable h.1)

/-- The nodes that a round takes out are distinct dead assignments that the start leads to. -/
theorem deadNodes_spec (l : Liveness) :
    (deadNodes g l).Nodup ∧
      ∀ n ∈ deadNodes g l, n ∈ g.reachable ∧ DeadAt g (l.afterOrAbsent g) n := by
  refine ⟨((List.nodup_range.filter _).filter _), fun n hn => ?_⟩
  obtain ⟨hr, k, t, hk, ht, hlive⟩ := mem_deadNodes.mp hn
  have hoccurs : g.Occurs t := by
    refine ⟨n, .inl ?_⟩
    rw [Graph.defs, hk, Option.map_some, Option.getD_some, (defs_of_target? ht).1]
    exact List.mem_singleton_self t
  exact ⟨hr, k, t, hk, ht, fun h => h.elim hlive fun h => h hoccurs⟩

/-- What is done about the first of some nodes: nothing, or it is spliced out. -/
theorem removeNodes_cons_ok {rest : List NodeId} {removed : List Removal} {h : Graph}
    (hok : removeNodes (n :: rest) g = .ok removed h) :
    g.succs n = [n] ∧ removeNodes rest g = .ok removed h ∨
      ∃ next k removed', g.start ≠ some n ∧ g.kind? n = some k ∧ g.succs n = [next] ∧ next ≠ n ∧
        removeNodes rest (spliced g n next) = .ok removed' h ∧ removed = ⟨n, k⟩ :: removed' := by
  rw [removeNodes, Edit.bind_ok (Edit.get_apply g)] at hok
  split at hok
  · next hself => exact .inl ⟨hself, hok⟩
  · obtain ⟨node, m, hrequire, hok⟩ := Edit.bind_eq_ok.mp hok
    obtain ⟨_, k, hremove, hok⟩ := Edit.bind_eq_ok.mp hok
    obtain ⟨removed', _, hrest, hok⟩ := Edit.bind_eq_ok.mp hok
    cases hok
    rcases Edit.require_cases n g with ⟨e, he⟩ | ⟨_, he, hnode⟩
    · rw [he] at hrequire; cases hrequire
    rw [he] at hrequire
    cases hrequire
    rcases Edit.removeNode_cases n g with ⟨e, he⟩ | ⟨next, he, hstart, hsucc, hne⟩
    · rw [he] at hremove; cases hremove
    rw [he] at hremove
    cases hremove
    exact .inr ⟨next, node.kind, removed', hstart, kind?_of_node? hnode, hsucc, hne, hrest, rfl⟩

/-- A round removes the nodes that are dead before it. -/
theorem eliminateDeadCode_eq {l : Liveness} (hl : Liveness.compute g = .ok l) :
    eliminateDeadCode g = removeNodes (deadNodes g l) g := by
  rw [eliminateDeadCode, Edit.bind_ok (Edit.get_apply g), hl]

theorem eliminateDeadCode_ok {removed : List Removal} {h : Graph}
    (hok : eliminateDeadCode g = .ok removed h) :
    ∃ l, removeNodes (deadNodes g l) g = .ok removed h := by
  rw [eliminateDeadCode, Edit.bind_ok (Edit.get_apply g)] at hok
  cases hl : Liveness.compute g with
  | error e => rw [hl] at hok; cases hok
  | ok l => rw [hl] at hok; exact ⟨l, hok⟩

/-- A round that removes nothing changes nothing. -/
theorem eq_of_removeNodes_nil {ns : List NodeId} {h : Graph} (hok : removeNodes ns g = .ok [] h) :
    h = g := by
  induction ns with
  | nil => cases hok; rfl
  | cons n rest ih =>
      rcases removeNodes_cons_ok hok with ⟨-, hok⟩ | ⟨_, _, _, _, _, _, _, _, hcons⟩
      · exact ih hok
      · cases hcons

/-- A round that removes nothing changes nothing. -/
theorem eq_of_eliminateDeadCode_nil {h : Graph} (hok : eliminateDeadCode g = .ok [] h) : h = g := by
  obtain ⟨l, hok⟩ := eliminateDeadCode_ok hok
  exact eq_of_removeNodes_nil hok

/-- After a round that removes nothing, so does every other one. -/
theorem eliminateToFixpoint_of_nil (hok : eliminateDeadCode g = .ok [] g) (rounds : Nat) :
    eliminateToFixpoint rounds g = .ok 0 g := by
  cases rounds with
  | zero => rfl
  | succ rounds =>
      rw [eliminateToFixpoint, Edit.bind_ok hok]
      rfl

/-- After a round that removes something, the others go on. -/
theorem eliminateToFixpoint_succ {rounds later : Nat} {removed : List Removal} {h k : Graph}
    (hok : eliminateDeadCode g = .ok removed h) (hne : removed ≠ [])
    (hlater : eliminateToFixpoint rounds h = .ok later k) :
    eliminateToFixpoint (rounds + 1) g = .ok (removed.length + later) k := by
  rw [eliminateToFixpoint, Edit.bind_ok hok, if_neg fun he => hne (List.isEmpty_iff.mp he),
    Edit.bind_ok hlater]
  rfl

/-- There is nothing else that the first of several rounds can have done. -/
theorem eliminateToFixpoint_cases {rounds total : Nat} {h : Graph}
    (hok : eliminateToFixpoint (rounds + 1) g = .ok total h) :
    eliminateDeadCode g = .ok [] g ∧ total = 0 ∧ h = g ∨
      ∃ removed k later, eliminateDeadCode g = .ok removed k ∧ removed ≠ [] ∧
        eliminateToFixpoint rounds k = .ok later h ∧ total = removed.length + later := by
  obtain ⟨removed, k, hround, hok⟩ := Edit.bind_eq_ok.mp hok
  split at hok
  · next hnil =>
      cases hok
      rw [List.isEmpty_iff.mp hnil] at hround
      obtain rfl := eq_of_eliminateDeadCode_nil hround
      exact .inl ⟨hround, rfl, rfl⟩
  · next hne =>
      obtain ⟨later, _, hlater, hok⟩ := Edit.bind_eq_ok.mp hok
      cases hok
      exact .inr ⟨removed, k, later, hround, fun he => hne (List.isEmpty_iff.mpr he), hlater, rfl⟩

/-- One round succeeds on every well-formed graph with a start, and keeps behaviour. -/
theorem eliminateDeadCode_alike (hg : g.WellFormed) (hs : g.start = some start) :
    ∃ removed h, eliminateDeadCode g = .ok removed h ∧ h.start = some start ∧
      Alike M (fun x => isReturnTemp x = true) g h := by
  obtain ⟨l, hl, hspec⟩ := Liveness.compute_spec hg hs
  obtain ⟨hnd, hdead⟩ := deadNodes_spec (g := g) l
  have hrs : start ∈ g.reachable := (hg.mem_reachable hs).mpr .refl
  obtain ⟨removed, h, hok, hh, halike⟩ :=
    (Certificate.ofLiveness hg hs hspec).removeNodes (M := M) hg hs hrs _ hnd hdead
  exact ⟨removed, h, (eliminateDeadCode_eq hl).trans hok, hh, halike⟩

/-- So does any number of rounds. -/
theorem eliminateToFixpoint_alike (hg : g.WellFormed) (hs : g.start = some start) (rounds : Nat) :
    ∃ count h, eliminateToFixpoint rounds g = .ok count h ∧ h.start = some start ∧
      Alike M (fun x => isReturnTemp x = true) g h := by
  induction rounds generalizing g with
  | zero => exact ⟨0, g, rfl, hs, .refl g⟩
  | succ rounds ih =>
      obtain ⟨removed, h, hok, hh, halike⟩ := eliminateDeadCode_alike (M := M) hg hs
      by_cases hne : removed = []
      · subst hne
        obtain rfl := eq_of_eliminateDeadCode_nil hok
        exact ⟨0, h, eliminateToFixpoint_of_nil hok _, hs, halike⟩
      · obtain ⟨count, k, hok', hk, halike'⟩ :=
          ih (proper_eliminateDeadCode.wellFormed_of_ok hok hg) hh
        exact ⟨_, k, eliminateToFixpoint_succ hok hne hok', hk, halike.trans halike'⟩

/-- On a built graph with a start, a round of dead code elimination and any number of rounds
succeed and keep behaviour on every machine: from the same state, the runs before and after have
the same effects one after the other, and one comes to a return exactly if the other does, with the
same memory and the same return temporaries. -/
theorem deadCode_keeps_behaviour (hg : Built g) (hs : g.start = some start) (M : Machine V) :
    (∃ removed h, eliminateDeadCode g = .ok removed h ∧ h.start = some start ∧
      Alike M (fun x => isReturnTemp x = true) g h) ∧
    ∀ rounds, ∃ count h, eliminateToFixpoint rounds g = .ok count h ∧ h.start = some start ∧
      Alike M (fun x => isReturnTemp x = true) g h :=
  ⟨eliminateDeadCode_alike hg.wellFormed hs, eliminateToFixpoint_alike hg.wellFormed hs⟩

/-- A dead assignment to `y` in front of one to a return temporary. -/
def deadInFrontOfLive : Graph :=
  after (Edit.addStart 2) (after (Edit.addAssign "y" (.const 15) 1)
    (after (Edit.addAssign "_RV0" (.temp "x") 0) (after Edit.addReturn .empty)))

/-- The round goes through on the machine of integers and takes the dead assignment out. -/
theorem deadCode_deadInFrontOfLive :
    Built deadInFrontOfLive ∧ deadInFrontOfLive.start = some 3 ∧
      ∃ removed h, eliminateDeadCode deadInFrontOfLive = .ok removed h ∧
        h.succs 3 = [1] ∧
        Alike (Machine.integers fun _ _ => 0) (fun x => isReturnTemp x = true)
          deadInFrontOfLive h := by
  have hg : Built deadInFrontOfLive :=
    .tail (.tail (.tail (.single (.addReturn _)) (.addAssign _ _ _ _)) (.addAssign _ _ _ _))
      (.addStart _ _)
  have hs : deadInFrontOfLive.start = some 3 := by decide
  obtain ⟨⟨removed, h, hok, -, halike⟩, -⟩ :=
    deadCode_keeps_behaviour hg hs (.integers fun _ _ => 0)
  refine ⟨hg, hs, removed, h, hok, ?_, halike⟩
  have hsuccs : (after eliminateDeadCode deadInFrontOfLive).succs 3 = [1] := by decide +kernel
  rwa [after_of_ok hok] at hsuccs

end Flowgraph

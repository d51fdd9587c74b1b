import Flowgraph.Proofs.DeadCode
import Flowgraph.Proofs.Paths
import Mathlib.Data.List.Forall2

/-!
# Splicing out nodes one after the other

Nodes that have one successor each are spliced out in slot order, and a node that has become its own
successor when its turn comes stays.  Said of the graph as it was, this happens to the last node of
every cycle of such nodes and to no other.  When its turn comes, the rest of its cycle is gone; and
if a node has become its own successor, what is gone on the way back to it makes a cycle with it.

* `Graph.LandsOn`: where an edge leads when nodes on the way are gone.
* `Graph.ClosesCycle`: the last node of a cycle.
* `Pruned`, `Pruned.splice`: a graph from which nodes are gone, and what splicing out one more does.
* `Pruned.reaches_iff`: what is reached in it.
* `removeNodes_pruned`: which nodes are spliced out.
-/

namespace Flowgraph

open Flowgraph.Graph

variable {g h : Graph} {gone gone' p q : NodeId → Prop} {start a m n s t u next : NodeId}

namespace Graph

/-- From the first node on, over nodes that are gone and have one successor each, the second node is
the first that is not gone. -/
inductive LandsOn (g : Graph) (gone : NodeId → Prop) : NodeId → NodeId → Prop
  | stays {n : NodeId} (hn : ¬gone n) : LandsOn g gone n n
  | passes {n next t : NodeId} (hn : gone n) (hs : g.succs n = [next])
      (hrest : LandsOn g gone next t) : LandsOn g gone n t

/-- The node is the last one, in slot order, of a cycle of nodes with a property. -/
def ClosesCycle (g : Graph) (p : NodeId → Prop) (n : NodeId) : Prop :=
  p n ∧ ∃ ns, g.Path n n (n :: (ns ++ [n])) ∧ ∀ m ∈ ns, p m ∧ m ≤ n

/-! ### Where edges lead -/

namespace LandsOn

/-- A path lands on a node that stays. -/
theorem not_gone (h : g.LandsOn gone s t) : ¬gone t := by
  induction h with
  | stays hn => exact hn
  | passes _ _ _ ih => exact ih

theorem reaches (h : g.LandsOn gone s t) : g.Reaches s t := by
  induction h with
  | stays => exact .refl
  | passes _ hs _ ih => exact .head (by rw [hs]; exact List.mem_cons_self) ih

/-- It lands on no other: nodes that go have one successor each. -/
theorem unique (h : g.LandsOn gone s t) (h' : g.LandsOn gone s u) : t = u := by
  induction h with
  | stays hn =>
      cases h' with
      | stays => rfl
      | passes hgone => exact absurd hgone hn
  | passes hgone hs _ ih =>
      cases h' with
      | stays hn => exact absurd hgone hn
      | passes _ hs' hrest => exact ih (List.singleton_inj.mp (hs'.symm.trans hs) ▸ hrest)

/-- When more nodes are gone, an edge leads on from where it led. -/
theorem trans (h : g.LandsOn gone s t) (hmore : ∀ m, gone m → gone' m)
    (h' : g.LandsOn gone' t u) : g.LandsOn gone' s u := by
  induction h with
  | stays => exact h'
  | passes hgone hs _ ih => exact .passes (hmore _ hgone) hs (ih h')

/-- Each of some edges leads to one of the nodes where they lead together. -/
theorem mem_iff_of_forall₂ {ss ts : List NodeId} (h : List.Forall₂ (g.LandsOn gone) ss ts) :
    t ∈ ts ↔ ∃ s ∈ ss, g.LandsOn gone s t := by
  induction h with
  | nil => simp
  | @cons s u ss ts hsu _ ih =>
      rw [List.mem_cons, ih, List.exists_mem_cons_iff]
      exact or_congr_left ⟨fun he => he ▸ hsu, fun hst => hst.unique hsu⟩

/-- The last step of the way is an edge, to which what is gone leads. -/
theorem exists_last (h : g.LandsOn gone s t) (hp : ∀ m, gone m → p m) (ha : s ∈ g.succs a) :
    ∃ k, g.ReachesBy p a k ∧ t ∈ g.succs k := by
  induction h generalizing a with
  | stays => exact ⟨a, .refl, ha⟩
  | passes hgone hs _ ih =>
      obtain ⟨k, hk, ht⟩ := ih (by rw [hs]; exact List.mem_cons_self)
      exact ⟨k, .head ⟨ha, hp _ hgone⟩ hk, ht⟩

end LandsOn

/-! ### Cycles -/

/-- A node closes a cycle if it leads back to itself through such nodes that do not come after
it. -/
theorem closesCycle_iff :
    g.ClosesCycle p n ↔ p n ∧ ∃ k, g.ReachesBy (fun m => p m ∧ m ≤ n) n k ∧ n ∈ g.succs k :=
  and_congr_right fun _ => exists_path_snoc_iff

namespace ClosesCycle

variable (hone : ∀ m, p m → ∃ next, g.succs m = [next]) (hc : g.ClosesCycle p n)

include hone hc

/-- Where nodes with the property have one successor, everything that the last node of a cycle leads
to lies on the cycle. -/
theorem of_reaches (hm : g.Reaches n m) :
    (p m ∧ m ≤ n) ∧ ∃ k, g.ReachesBy (fun m => p m ∧ m ≤ n) m k ∧ n ∈ g.succs k := by
  obtain ⟨hn, hback⟩ := closesCycle_iff.mp hc
  induction hm with
  | refl => exact ⟨⟨hn, Nat.le_refl n⟩, hback⟩
  | @tail m b hm hs ih =>
      obtain ⟨⟨hpm, -⟩, k, hk, hlast⟩ := ih
      obtain ⟨next, hnext⟩ := hone m hpm
      obtain rfl := List.mem_singleton.mp (hnext ▸ hs)
      rcases Relation.ReflTransGen.cases_head hk with rfl | ⟨c, hstep, hrest⟩
      · obtain rfl := List.mem_singleton.mp (hnext ▸ hlast)
        exact ⟨⟨hn, Nat.le_refl n⟩, hback⟩
      · obtain rfl := List.mem_singleton.mp (hnext ▸ hstep.1)
        exact ⟨hstep.2, k, hrest, hlast⟩

/-- So no later node is reached from it. -/
theorem le_of_reaches (hm : g.Reaches n m) : m ≤ n := (hc.of_reaches hone hm).1.2

/-- When the earlier nodes of its cycle are gone, the last node has become its own successor. -/
theorem landsOn_self (hn : ¬gone n) (hgone : ∀ m, p m → m < n → ¬g.ClosesCycle p m → gone m)
    (hs : s ∈ g.succs n) : g.LandsOn gone s n := by
  obtain ⟨hps, k, hk, hlast⟩ := hc.of_reaches hone (.single hs)
  -- a node from which a later one is reached closes no cycle
  have hearlier {a : NodeId} (ha : p a ∧ a ≤ n) (hne : a ≠ n) (hreach : g.Reaches a n) : gone a :=
    hgone a ha.1 (Nat.lt_of_le_of_ne ha.2 hne) fun hc' =>
      hne (Nat.le_antisymm ha.2 (hc'.le_of_reaches hone hreach))
  clear hs
  induction hk using Relation.ReflTransGen.head_induction_on with
  | refl =>
      by_cases hne : k = n
      · rw [hne]
        exact .stays hn
      · obtain ⟨next, hnext⟩ := hone k hps.1
        obtain rfl := List.mem_singleton.mp (hnext ▸ hlast)
        exact .passes (hearlier hps hne (.single hlast)) hnext (.stays hn)
  | @head a b hstep hrest ih =>
      by_cases hne : a = n
      · rw [hne]
        exact .stays hn
      · obtain ⟨next, hnext⟩ := hone a hps.1
        obtain rfl := List.mem_singleton.mp (hnext ▸ hstep.1)
        have hreach := (ReachesBy.reaches hrest).tail hlast
        exact .passes (hearlier hps hne (.head hstep.1 hreach)) hnext (ih hstep.2)

omit hc in
/-- If all nodes with the property are last ones of a cycle, they are their own successors. -/
theorem succs_eq_self (hall : ∀ m, p m → g.ClosesCycle p m) (hn : p n) : g.succs n = [n] := by
  obtain ⟨s, hs⟩ := hone n hn
  have hsn : s ∈ g.succs n := hs ▸ List.mem_singleton_self s
  obtain ⟨⟨hps, hle⟩, k, hk, hlast⟩ := (hall n hn).of_reaches hone (.single hsn)
  -- each of two nodes that lead to each other is the last one of the cycle
  have hge := (hall s hps).le_of_reaches hone ((ReachesBy.reaches hk).tail hlast)
  rw [hs, Nat.le_antisymm hle hge]

end ClosesCycle

/-- If all that is gone is earlier and has the property, a node that has become its own successor is
the last one of a cycle. -/
theorem closesCycle_of_landsOn (hn : p n) (hs : s ∈ g.succs n)
    (hgone : ∀ m, gone m → p m ∧ m ≤ n) (hself : g.LandsOn gone s n) : g.ClosesCycle p n :=
  closesCycle_iff.mpr ⟨hn, hself.exists_last hgone hs⟩

end Graph

/-! ### Graphs from which nodes are gone -/

/-- What is left of `g` when some nodes with one successor each have been spliced out. -/
structure Pruned (g h : Graph) (gone : NodeId → Prop) : Prop where
  bound_eq : h.bound = g.bound
  start_eq : h.start = g.start
  kind_eq : ∀ {n}, ¬gone n → h.kind? n = g.kind? n
  vacant : ∀ {n}, gone n → h.kind? n = none
  linear : ∀ {n}, gone n → ∃ next, g.succs n = [next]
  lands : ∀ {n}, ¬gone n → List.Forall₂ (g.LandsOn gone) (g.succs n) (h.succs n)

theorem Pruned.refl (g : Graph) : Pruned g g fun _ => False where
  bound_eq := rfl
  start_eq := rfl
  kind_eq _ := rfl
  vacant := False.elim
  linear := False.elim
  lands _ := List.forall₂_same.mpr fun _ _ => .stays id

theorem bound_spliced : (spliced g n next).bound = g.bound := by
  rw [spliced, bound_unlink, bound_bypass]

namespace Pruned

variable (hp : Pruned g h gone)

include hp

theorem isLive_of_gone (hn : gone n) : h.isLive n = false := by
  rw [← Bool.not_eq_true, isLive_iff_kind?, hp.vacant hn]
  exact nofun

theorem isLive_eq (hn : ¬gone n) : h.isLive n = g.isLive n := by
  rw [Bool.eq_iff_iff, isLive_iff_kind?, isLive_iff_kind?, hp.kind_eq hn]

/-- The edges are those that were there, each to where it leads by now. -/
theorem mem_succs_iff (hn : ¬gone n) : t ∈ h.succs n ↔ ∃ s ∈ g.succs n, g.LandsOn gone s t :=
  LandsOn.mem_iff_of_forall₂ (hp.lands hn)

/-- The successor of a node that stays is now the first one on the way that stays. -/
theorem exists_succ (hn : ¬gone n) (hs : g.succs n = [s]) :
    ∃ next, h.succs n = [next] ∧ g.LandsOn gone s next := by
  have hlands := hp.lands hn
  rw [hs, List.forall₂_cons_left_iff] at hlands
  obtain ⟨next, ts, hnext, hnil, hsuccs⟩ := hlands
  rw [List.forall₂_nil_left_iff.mp hnil] at hsuccs
  exact ⟨next, hsuccs, hnext⟩

/-- Splicing out one more node. -/
theorem splice (hh : h.Linked) (hs : g.succs n = [s]) (hland : g.LandsOn gone s next)
    (hne : next ≠ n) : Pruned g (spliced h n next) fun m => gone m ∨ m = n := by
  have hnext : g.LandsOn (fun m => gone m ∨ m = n) n next :=
    .passes (.inr rfl) hs
      (hland.trans (fun _ => .inl) (.stays fun hgone => hgone.elim hland.not_gone hne))
  constructor
  case bound_eq => rw [bound_spliced, hp.bound_eq]
  case start_eq => rw [start_spliced, hp.start_eq]
  case kind_eq =>
    intro m hm
    rw [kind?_spliced, if_neg fun e => hm (.inr e.symm), hp.kind_eq fun hgone => hm (.inl hgone)]
  case vacant =>
    rintro m (hm | rfl)
    · rw [kind?_spliced, hp.vacant hm, ite_self]
    · rw [kind?_spliced, if_pos rfl]
  case linear =>
    rintro m (hm | rfl)
    · exact hp.linear hm
    · exact ⟨s, hs⟩
  case lands =>
    intro m hm
    rw [succs_spliced hh, if_neg fun e => hm (.inr e.symm), List.forall₂_map_right_iff]
    refine (hp.lands fun hgone => hm (.inl hgone)).imp fun s t hst => ?_
    -- what led to the node leads on with it, and everything else stays
    by_cases he : t = n
    · rw [he, divert_self]
      exact hst.trans (fun _ => .inl) (he ▸ hnext)
    · rw [divert_of_ne he]
      exact hst.trans (fun _ => .inl) (.stays fun hgone => hgone.elim hst.not_gone he)

/-- What is reached is what was reached and is not gone. -/
theorem reaches_iff (hstart : ¬gone start) :
    h.Reaches start n ↔ g.Reaches start n ∧ ¬gone n := by
  constructor
  · intro hn
    induction hn with
    | refl => exact ⟨.refl, hstart⟩
    | tail _ hs ih =>
        obtain ⟨s, hs, hst⟩ := (hp.mem_succs_iff ih.2).mp hs
        exact ⟨(ih.1.tail hs).trans hst.reaches, hst.not_gone⟩
  · rintro ⟨hn, hstays⟩
    -- whatever a node that was reached leads on to is reached
    suffices hland : ∀ t, g.LandsOn gone n t → h.Reaches start t from hland n (.stays hstays)
    clear hstays
    induction hn with
    | refl => exact fun t ht => (ht.unique (.stays hstart)) ▸ .refl
    | @tail m s hm hs ih =>
        intro t ht
        by_cases hgone : gone m
        · obtain ⟨next, hnext⟩ := hp.linear hgone
          obtain rfl := List.mem_singleton.mp (hnext ▸ hs)
          exact ih t (.passes hgone hnext ht)
        · exact (ih m (.stays hgone)).tail ((hp.mem_succs_iff hgone).mpr ⟨s, hs, ht⟩)

end Pruned

/-! ### Splicing out in slot order -/

section Ordered

variable {ns done rest : List NodeId}

/-- A node that closes a cycle stays, so that nothing more is gone after its turn. -/
theorem gone_snoc_of_closesCycle (hc : g.ClosesCycle (· ∈ ns) n) :
    (fun m => m ∈ done ++ [n] ∧ ¬g.ClosesCycle (· ∈ ns) m) =
      fun m => m ∈ done ∧ ¬g.ClosesCycle (· ∈ ns) m := by
  funext m
  rw [List.mem_append, List.mem_singleton]
  exact propext (and_congr_left fun hopen => or_iff_left fun e => hopen (e ▸ hc))

/-- Any other node is gone after its turn. -/
theorem gone_snoc_of_not_closesCycle (hopen : ¬g.ClosesCycle (· ∈ ns) n) :
    (fun m => m ∈ done ++ [n] ∧ ¬g.ClosesCycle (· ∈ ns) m) =
      fun m => (m ∈ done ∧ ¬g.ClosesCycle (· ∈ ns) m) ∨ m = n := by
  funext m
  rw [List.mem_append, List.mem_singleton, or_and_right]
  exact propext (or_congr_right (and_iff_left_of_imp fun e => e ▸ hopen))

variable (hone : ∀ n ∈ ns, ∃ next, g.succs n = [next])
  (hasc : Ascending ns)

include hone hasc

/-- When the nodes before one have had their turn, it has become its own successor exactly if it is
the last one of a cycle. -/
theorem landsOn_self_iff (hns : ns = done ++ n :: rest) (hs : g.succs n = [s]) :
    g.LandsOn (fun m => m ∈ done ∧ ¬g.ClosesCycle (· ∈ ns) m) s n ↔
      g.ClosesCycle (· ∈ ns) n := by
  obtain ⟨-, htail, hcross⟩ := List.pairwise_append.mp (hns ▸ hasc)
  have hdone {m : NodeId} (hm : m ∈ done) : m < n := hcross m hm n List.mem_cons_self
  have hmem : n ∈ ns := hns ▸ List.mem_append_right _ List.mem_cons_self
  have hsn : s ∈ g.succs n := hs ▸ List.mem_singleton_self s
  constructor
  · refine closesCycle_of_landsOn hmem hsn fun m hm => ⟨?_, Nat.le_of_lt (hdone hm.1)⟩
    exact hns ▸ List.mem_append_left _ hm.1
  · intro hc
    have hturn : ¬(n ∈ done ∧ ¬g.ClosesCycle (· ∈ ns) n) := fun hn => Nat.lt_irrefl n (hdone hn.1)
    refine hc.landsOn_self hone hturn (fun m hm hlt hopen => ?_) hsn
    refine ⟨((List.mem_append.mp (hns ▸ hm)).resolve_right fun hlater => ?_), hopen⟩
    rcases List.mem_cons.mp hlater with rfl | hlater
    · exact Nat.lt_irrefl _ hlt
    · exact Nat.lt_asymm hlt ((List.pairwise_cons.mp htail).1 m hlater)

/-- Splicing out nodes that have one successor each, in slot order and without the start, takes out
all but the last one of every cycle of them. -/
theorem removeNodes_pruned (hstart : ∀ n ∈ ns, g.start ≠ some n) (hns : ns = done ++ rest)
    (hp : Pruned g h fun m => m ∈ done ∧ ¬g.ClosesCycle (· ∈ ns) m) (hh : h.WellFormed) :
    ∃ removed k, removeNodes rest h = .ok removed k ∧
      Pruned g k (fun m => m ∈ ns ∧ ¬g.ClosesCycle (· ∈ ns) m) ∧
      removed.map Removal.node = rest.filter (fun n => !k.isLive n) ∧
      ∀ r ∈ removed, g.kind? r.node = some r.kind := by
  induction rest generalizing done h with
  | nil =>
      obtain rfl : ns = done := hns.trans (List.append_nil done)
      exact ⟨[], h, rfl, hp, rfl, nofun⟩
  | cons n rest ih =>
      have hmem : n ∈ ns := hns ▸ List.mem_append_right _ List.mem_cons_self
      have hnext : ns = done ++ [n] ++ rest := by rw [hns, List.append_assoc, List.singleton_append]
      have hturn : ¬(n ∈ done ∧ ¬g.ClosesCycle (· ∈ ns) n) := fun hn =>
        Nat.lt_irrefl n ((List.pairwise_append.mp (hns ▸ hasc)).2.2 n hn.1 n List.mem_cons_self)
      obtain ⟨s, hs⟩ := hone n hmem
      obtain ⟨next, hsucc, hland⟩ := hp.exists_succ hturn hs
      have hself := landsOn_self_iff hone hasc hns hs
      have hlive : g.isLive n = true := isLive_of_mem_succs (hs ▸ List.mem_singleton_self s)
      by_cases he : next = n
      · -- it stays, and so nothing more is gone after its turn
        have hc := hself.mp (he ▸ hland)
        have hp' := (gone_snoc_of_closesCycle hc).symm ▸ hp
        obtain ⟨removed, k, hok, hk, hremoved, hkinds⟩ := ih hnext hp' hh
        refine ⟨removed, k, (removeNodes_of_self (he ▸ hsucc)).trans hok, hk, ?_, hkinds⟩
        rw [hremoved, List.filter_cons_of_neg]
        rw [hk.isLive_eq fun hn => hn.2 hc, hlive]
        decide
      · -- it goes, and what would have landed on it goes on to where its successor lands
        have hopen : ¬g.ClosesCycle (· ∈ ns) n := fun hc => he (hland.unique (hself.mpr hc))
        have hhs : h.start ≠ some n := hp.start_eq ▸ hstart n hmem
        obtain ⟨removed, k, hok, hk, hremoved, hkinds⟩ :=
          ih hnext (gone_snoc_of_not_closesCycle hopen ▸ hp.splice hh.toLinked hs hland he)
            (Change.wellFormed (.splice hhs hsucc he) hh)
        obtain ⟨kind, hkind⟩ := isLive_iff_kind?.mp hlive
        have hkind' : h.kind? n = some kind := (hp.kind_eq hturn).trans hkind
        refine ⟨_, k, removeNodes_of_succ hhs hkind' hsucc he hok, hk, ?_,
          List.forall_mem_cons.mpr ⟨hkind, hkinds⟩⟩
        rw [List.map_cons, hremoved, List.filter_cons_of_pos]
        rw [hk.isLive_of_gone ⟨hmem, hopen⟩]
        rfl

end Ordered

end Flowgraph

import Flowgraph.Proofs.Built
import Flowgraph.Proofs.Search.DepthFirst

/-!
# Searches that mark what they put aside

`Digraph.dfs` marks a node when it goes on the stack.  A node thus reserves all its new successors
before the first of them is searched, and none of them is found through another one.  The order
is a preorder, of other trees than those of the recursive search.

* `Digraph.reserveFrom`, `Digraph.reserving`: the recursive search in which nodes reserve their
  successors.
* `Digraph.dfs_eq_reserving`: the loop with the stack lists its preorder.
* `Digraph.Sided`: no later successor of a node is reached from an earlier one except through the
  node.
* `Digraph.dfs_order`: what `dfs` lists, and that it is the preorder of the recursive search where
  all nodes are sided.
-/

namespace Flowgraph

open Flowgraph.Graph

namespace Digraph

variable {g : Digraph} {a b n root s t : NodeId} {seen seen' stack visited ns ms : List NodeId}

/-! ### Reserving successors -/

/-- Visit reserved nodes one after the other, each with all that is reserved through it.  A node
reserves its new successors before any of them is visited. -/
def reserveFrom (g : Digraph) (seen ns : List NodeId) : Forest :=
  match ns with
  | [] => .nil
  | n :: rest =>
      let reserved := g.fresh seen (g.succs n)
      let children := g.reserveFrom (reserved ++ seen) reserved
      .cons n children (g.reserveFrom (children.preorder ++ seen) rest)
termination_by unseenWeight (fun _ => 2) seen g.bound + ns.length
decreasing_by
  · have := g.unseenWeight_fresh seen (g.succs n)
    simp only [List.length_cons]
    omega
  · exact Nat.add_lt_add_of_le_of_lt (unseenWeight_append_le ..) (by simp)

/-- The search from one node, which reserves itself if it is live. -/
def reserving (g : Digraph) (root : NodeId) : Forest :=
  g.reserveFrom (g.fresh [] [root]) (g.fresh [] [root])

/-- Which nodes are new depends on the members of a list, not on their order. -/
theorem fresh_congr (h : ∀ n, n ∈ seen ↔ n ∈ seen') (ns : List NodeId) :
    g.fresh seen ns = g.fresh seen' ns := by
  simp only [fresh, h]

/-- It matters which nodes have been seen, and not in which order. -/
theorem visitFrom_congr (h : ∀ n, n ∈ seen ↔ n ∈ seen') :
    g.visitFrom stack seen = g.visitFrom stack seen' := by
  induction stack, seen using visitFrom.induct g generalizing seen' with
  | case1 => rw [visitFrom, visitFrom]
  | case2 seen n rest ih =>
      rw [visitFrom, visitFrom, fresh_congr h, ← fresh_congr h, ih fun m => ?_]
      simp only [List.mem_append, h]

/-- The upper part of a stack is searched first, and its search marks what it lists. -/
theorem visitFrom_append (hsub : ∀ n ∈ ns, n ∈ seen) :
    g.visitFrom (ns ++ ms) seen =
      g.visitFrom ns seen ++ g.visitFrom ms (g.visitFrom ns seen ++ seen) := by
  induction ns, seen using visitFrom.induct g with
  | case1 seen => simp [visitFrom]
  | case2 seen n rest ih =>
      have hn : n ∈ seen := hsub n List.mem_cons_self
      have hrest : ∀ m ∈ g.fresh seen (g.succs n) ++ rest, m ∈ g.fresh seen (g.succs n) ++ seen :=
        fun m hm => List.mem_append.mpr ((List.mem_append.mp hm).imp id
          fun hm => hsub m (List.mem_cons_of_mem _ hm))
      -- what the node reserves is listed, and the node itself was seen
      have hsame : ∀ m, m ∈ g.visitFrom (g.fresh seen (g.succs n) ++ rest)
            (g.fresh seen (g.succs n) ++ seen) ++ (g.fresh seen (g.succs n) ++ seen) ↔
          m ∈ g.visitFrom (n :: rest) seen ++ seen := by
        intro m
        have hlisted : m ∈ g.fresh seen (g.succs n) → m ∈ g.visitFrom
            (g.fresh seen (g.succs n) ++ rest) (g.fresh seen (g.succs n) ++ seen) := fun hm =>
          mem_visitFrom_of_mem_stack (List.mem_append_left _ hm)
        rw [visitFrom]
        simp only [List.cons_append, List.mem_append, List.mem_cons]
        grind
      have ih := ih hrest
      rw [List.append_assoc] at ih
      rw [List.cons_append, visitFrom, ih, visitFrom_congr hsame, visitFrom, List.cons_append,
        List.cons_append]

/-- The loop lists the preorder of the trees in which nodes reserve their successors. -/
theorem visitFrom_eq (hsub : ∀ n ∈ ns, n ∈ seen) :
    g.visitFrom ns seen = (g.reserveFrom seen ns).preorder := by
  induction seen, ns using reserveFrom.induct g with
  | case1 seen =>
      rw [visitFrom, reserveFrom]
      rfl
  | case2 seen n rest reserved children ihc _ ihl =>
      have hn : n ∈ seen := hsub n List.mem_cons_self
      have hreserved : ∀ m ∈ reserved, m ∈ reserved ++ seen := fun m hm =>
        List.mem_append_left _ hm
      have hrest : ∀ m ∈ rest, m ∈ children.preorder ++ seen := fun m hm =>
        List.mem_append_right _ (hsub m (List.mem_cons_of_mem _ hm))
      have hchildren : g.visitFrom reserved (reserved ++ seen) = children.preorder :=
        ihc hreserved
      have hsame : ∀ m, m ∈ children.preorder ++ (reserved ++ seen) ↔
          m ∈ children.preorder ++ seen := by
        intro m
        have hlisted : m ∈ reserved → m ∈ children.preorder := fun hm =>
          hchildren ▸ mem_visitFrom_of_mem_stack hm
        simp only [List.mem_append]
        tauto
      rw [visitFrom, visitFrom_append hreserved, hchildren, visitFrom_congr hsame, ihl hrest,
        reserveFrom]
      rfl

/-- The search with a stack is the recursive one that reserves siblings. -/
theorem dfs_eq_reserving (g : Digraph) (root : NodeId) :
    g.dfs root = (g.reserving root).preorder :=
  visitFrom_eq fun _ => id

/-! ### When reserving makes no difference -/

/-- A path of live nodes that meets none of the `barred` ones. -/
def ReachesAround (g : Digraph) (barred : List NodeId) : NodeId → NodeId → Prop :=
  Relation.ReflTransGen fun a b => g.Edge a b ∧ b ∉ barred

/-- Fewer barred nodes bar fewer ways. -/
theorem ReachesAround.mono {barred barred' : List NodeId} (h : g.ReachesAround barred a b)
    (hsub : ∀ n ∈ barred', n ∈ barred) : g.ReachesAround barred' a b :=
  Relation.ReflTransGen.mono (fun _ _ he => ⟨he.1, mt (hsub _) he.2⟩) _ _ h

/-- A set that no edge leaves except to a barred node holds what is reached around these nodes. -/
theorem ReachesAround.mem {barred : List NodeId} {P : NodeId → Prop}
    (h : g.ReachesAround barred a b) (ha : P a)
    (hP : ∀ m, P m → ∀ k ∈ g.succs m, P k ∨ k ∈ barred) : P b := by
  induction h with
  | refl => exact ha
  | tail _ he ih => exact (hP _ ih _ he.1.1).resolve_right he.2

/-- The sides of a node are apart: from what stands in one of its slots nothing in a later slot is
reached except through the node, and a successor that is named twice stands in slots next to each
other. -/
structure Sided (g : Digraph) (n : NodeId) : Prop where
  apart : ∀ s t, [s, t].Sublist (g.succs n) → s ≠ t → ¬g.ReachesAround [n] s t
  adjacent : ∀ s t, [s, t, s].Sublist (g.succs n) → s = t

namespace Sided

theorem of_length_le_one (h : (g.succs n).length ≤ 1) : g.Sided n where
  apart s t hst := absurd hst.length_le (by simp only [List.length_cons]; omega)
  adjacent s t hst := absurd hst.length_le (by simp only [List.length_cons]; omega)

/-- The two sides of a branch are apart if a set holds the first and not the second, and no edge
leaves it except to the branch. -/
theorem of_closed {P : NodeId → Prop} (hn : g.succs n = [s, t]) (hs : P s) (ht : ¬P t)
    (hP : ∀ m, P m → ∀ k ∈ g.succs m, P k ∨ k = n) : g.Sided n where
  apart a b hab _ hr := by
    obtain ⟨rfl, rfl⟩ : a = s ∧ b = t := by
      have := hab.eq_of_length (by rw [hn]; rfl)
      simpa [hn] using this
    exact ht (hr.mem hs fun m hm k hk => (hP m hm k hk).imp id fun e => by simp [e])
  adjacent a b hab := absurd hab.length_le (by simp [hn])

end Sided

/-- The new nodes stand in the order of the list. -/
theorem fresh_sublist (g : Digraph) (seen ns : List NodeId) : (g.fresh seen ns).Sublist ns := by
  induction ns with
  | nil => exact .slnil
  | cons n ns ih =>
      simp only [fresh, List.foldr_cons] at ih ⊢
      split
      · exact ih.cons_cons n
      · exact ih.cons n

/-- Where repeated nodes stand next to each other, a node that comes again comes at once. -/
theorem exists_fresh_eq_cons (hadj : ∀ t, [s, t, s].Sublist (s :: ns) → s = t)
    (hagain : s ∈ g.fresh seen ns) : ∃ more, g.fresh seen ns = s :: more := by
  cases hf : g.fresh seen ns with
  | nil => simp [hf] at hagain
  | cons t more =>
      by_cases hts : t = s
      · exact ⟨more, by rw [hts]⟩
      have hsub : [t, s].Sublist (g.fresh seen ns) := by
        rw [hf] at hagain ⊢
        exact (List.singleton_sublist.mpr
          ((List.mem_cons.mp hagain).resolve_left (Ne.symm hts))).cons_cons t
      exact absurd (hadj t ((hsub.trans (fresh_sublist g seen ns)).cons_cons s)).symm hts

/-- A search of the new nodes of a list is a search of the list, if nothing else in it is left to
visit and repeated nodes stand next to each other. -/
theorem searchFrom_fresh (hnew : ∀ n ∈ ns, g.isLive n = true → n ∉ visited → n ∉ seen)
    (hadj : ∀ s t, [s, t, s].Sublist ns → s = t) :
    g.searchFrom visited (g.fresh seen ns) = g.searchFrom visited ns := by
  induction ns generalizing visited with
  | nil => rfl
  | cons s ns ih =>
      have ih' : ∀ {later : List NodeId}, (∀ m ∈ visited, m ∈ later) →
          g.searchFrom later (g.fresh seen ns) = g.searchFrom later ns := fun hlater =>
        ih (fun m hm hl hv => hnew m (List.mem_cons_of_mem _ hm) hl (mt (hlater m) hv))
          fun s t h => hadj s t (h.cons _)
      have hcons : g.fresh seen (s :: ns) = if g.isLive s = true ∧ s ∉ seen ∧ s ∉ g.fresh seen ns
          then s :: g.fresh seen ns else g.fresh seen ns := rfl
      by_cases hs : g.isLive s = true ∧ s ∉ visited
      · have hlater : ∀ m ∈ visited,
            m ∈ (g.searchFrom (s :: visited) (g.succs s)).preorder.reverse ++ s :: visited :=
          fun m hm => List.mem_append_right _ (List.mem_cons_of_mem _ hm)
        rw [searchFrom_enter hs, ← ih' hlater, hcons]
        by_cases hagain : s ∈ g.fresh seen ns
        · -- the node comes again, and then at once
          obtain ⟨more, hmore⟩ := exists_fresh_eq_cons (hadj s) hagain
          rw [if_neg fun h => h.2.2 hagain, hmore, searchFrom_enter hs, searchFrom_pass fun h => ?_]
          exact h.2 (List.mem_append_right _ List.mem_cons_self)
        · rw [if_pos ⟨hs.1, hnew s List.mem_cons_self hs.1 hs.2, hagain⟩, searchFrom_enter hs]
      · rw [searchFrom_pass hs, ← ih' fun _ => id, hcons]
        split
        · rw [searchFrom_pass hs]
        · rfl

/-- A stack whose nodes are searched as if none of them had been marked. -/
structure Unshared (g : Digraph) (visited seen stack : List NodeId) : Prop where
  mem_seen : ∀ {n}, n ∈ seen ↔ n ∈ visited ∨ n ∈ stack
  waiting : ∀ {n}, n ∈ stack → g.isLive n = true ∧ n ∉ visited
  /-- Nothing on the stack is reached from above it. -/
  apart : stack.Pairwise fun s t => ¬g.ReachesAround visited s t
  sided : ∀ {n m}, n ∈ stack → g.Reaches n m → g.Sided m

namespace Unshared

variable {rest : List NodeId}

/-- A sibling that still waits is no successor of the node whose turn it is. -/
theorem not_mem_succs (h : g.Unshared visited seen (n :: rest)) (ht : t ∈ rest) :
    t ∉ g.succs n := fun hnt =>
  have hwait := h.waiting (List.mem_cons_of_mem _ ht)
  (List.pairwise_cons.mp h.apart).1 t ht (.single ⟨⟨hnt, hwait.1⟩, hwait.2⟩)

/-- The invariant stays when the node on top is visited. -/
theorem visit (h : g.Unshared visited seen (n :: rest)) :
    g.Unshared (n :: visited) (g.fresh seen (g.succs n) ++ seen)
      (g.fresh seen (g.succs n) ++ rest) := by
  obtain ⟨hn, hapart⟩ := List.pairwise_cons.mp h.apart
  have hne : ∀ {m}, m ∈ rest → m ≠ n := fun hm e => hn _ hm (e ▸ .refl)
  have hlater : ∀ {s t}, g.ReachesAround (n :: visited) s t → g.ReachesAround visited s t :=
    fun hst => hst.mono fun _ => List.mem_cons_of_mem _
  have hedge : ∀ {m}, m ∈ g.fresh seen (g.succs n) → g.Edge n m ∧ m ∉ visited ∧ m ≠ n := by
    intro m hm
    obtain ⟨hs, hl, hseen⟩ := mem_fresh.mp hm
    rw [h.mem_seen, List.mem_cons] at hseen
    tauto
  refine ⟨fun {m} => ?_, fun {m} hm => ?_, List.pairwise_append.mpr ⟨?_, ?_, ?_⟩,
    fun {m k} hm hk => ?_⟩
  · simp only [List.mem_append, List.mem_cons, h.mem_seen]
    tauto
  · rw [List.mem_cons, not_or]
    rcases List.mem_append.mp hm with hm | hm
    · obtain ⟨he, hv, hmn⟩ := hedge hm
      exact ⟨he.2, hmn, hv⟩
    · obtain ⟨hl, hv⟩ := h.waiting (List.mem_cons_of_mem _ hm)
      exact ⟨hl, hne hm, hv⟩
  · -- of two successors of the node, the later one is not reached from the earlier one
    refine List.pairwise_iff_forall_sublist.mpr fun {s t} hst hr => ?_
    refine (h.sided List.mem_cons_self .refl).apart s t (hst.trans (fresh_sublist ..))
      (List.pairwise_iff_forall_sublist.mp (nodup_fresh g seen (g.succs n)) hst)
      (hr.mono fun m hm => ?_)
    rw [List.mem_singleton.mp hm]
    exact List.mem_cons_self
  · exact hapart.imp fun hst hr => hst (hlater hr)
  · -- what is reached from a successor is reached from the node
    intro s hs t ht hst
    obtain ⟨he, hv, -⟩ := hedge hs
    exact hn t ht (.head ⟨he, hv⟩ (hlater hst))
  · rcases List.mem_append.mp hm with hm | hm
    · exact h.sided List.mem_cons_self (.head (hedge hm).1 hk)
    · exact h.sided (List.mem_cons_of_mem _ hm) hk

end Unshared

/-- Where nodes are sided, the search that marks nodes on the stack lists them as the recursive
search visits them. -/
theorem Unshared.visitFrom_eq (h : g.Unshared visited seen stack) :
    g.visitFrom stack seen = (g.searchFrom visited stack).preorder := by
  induction stack, seen using visitFrom.induct g generalizing visited with
  | case1 =>
      rw [visitFrom, searchFrom_nil]
      rfl
  | case2 seen n rest ih =>
      -- the successors that the node reserves are all that is left to visit among them
      have hreserved : g.searchFrom (n :: visited) (g.fresh seen (g.succs n)) =
          g.searchFrom (n :: visited) (g.succs n) := by
        refine searchFrom_fresh (fun m hm _ hv hseen => ?_)
          (h.sided List.mem_cons_self .refl).adjacent
        rw [h.mem_seen] at hseen
        rw [List.mem_cons, not_or] at hv
        rcases List.mem_cons.mp (hseen.resolve_left hv.2) with hmn | hrest
        · exact hv.1 hmn
        · exact h.not_mem_succs hrest hm
      rw [visitFrom, ih h.visit, searchFrom_append, searchFrom_enter (h.waiting List.mem_cons_self),
        hreserved, Forest.preorder_append, Forest.preorder]

/-! ### What the search lists -/

/-- The search lists the preorder of the trees in which every node reserves its new successors
before the first of them is searched.  These are the nodes that the recursive search visits, and if
nothing in a later slot of a node is reached from an earlier slot except through the node, they come
in the same order. -/
theorem dfs_order (g : Digraph) (root : NodeId) :
    g.dfs root = (g.reserving root).preorder ∧
    (g.dfs root).Perm (g.search root).preorder ∧
    ((∀ n, g.Reaches root n → g.Sided n) → g.dfs root = (g.search root).preorder) := by
  refine ⟨dfs_eq_reserving g root, ?_, fun hsided => ?_⟩
  · exact (List.perm_ext_iff_of_nodup (nodup_dfs g root) (nodup_preorder_search g root)).mpr
      fun n => mem_dfs.trans mem_preorder_search.symm
  · by_cases hl : g.isLive root = true
    · have hroot : g.fresh [] [root] = [root] := by simp [fresh, hl]
      rw [dfs, closure, hroot, search]
      refine Unshared.visitFrom_eq ⟨by simp, ?_, List.pairwise_singleton .., ?_⟩
      · intro n hn
        exact ⟨List.mem_singleton.mp hn ▸ hl, List.not_mem_nil⟩
      · intro n m hn hm
        exact hsided m (List.mem_singleton.mp hn ▸ hm)
    · rw [search_of_not_live hl]
      refine List.eq_nil_iff_forall_not_mem.mpr fun n hn => hl (mem_dfs.mp hn).1

end Digraph

/-- While `i` is below `n`, a branch on `c` sets `a` or `b`. -/
def branchInLoop : Graph :=
  after (Edit.addStart 5) (after (Edit.substituteStub 1 5)
    (after (Edit.addBranch (.binop .lt (.temp "i") (.temp "n")) 4 0)
      (after (Edit.addBranch (.temp "c") 2 3) (after (Edit.addAssign "b" (.const 0) 1)
        (after (Edit.addAssign "a" (.const 0) 1) (after Edit.addStub
          (after Edit.addReturn .empty)))))))

/-- The sides of the branch meet in the header of the loop only, and its exit is reached through the
header only, so that the nodes come in the order of the recursive search. -/
theorem dfs_order_branchInLoop :
    Built branchInLoop ∧ (∀ n, branchInLoop.flow.Reaches 6 n → branchInLoop.flow.Sided n) ∧
      branchInLoop.flow.dfs 6 = [6, 5, 4, 2, 3, 0] ∧
      (branchInLoop.flow.search 6).preorder = [6, 5, 4, 2, 3, 0] := by
  have hg : Built branchInLoop :=
    .tail (.tail (.tail (.tail (.tail (.tail (.tail (.single (.addReturn _)) (.addStub _))
      (.addAssign _ _ _ _)) (.addAssign _ _ _ _)) (.addBranch _ _ _ _)) (.addBranch _ _ _ _))
      (.substituteStub _ _ _)) (.addStart _ _)
  have hdfs : branchInLoop.flow.dfs 6 = [6, 5, 4, 2, 3, 0] := by decide +kernel
  have hsided : ∀ n, branchInLoop.flow.Reaches 6 n → branchInLoop.flow.Sided n := by
    intro n hn
    have hmem : n ∈ branchInLoop.flow.dfs 6 := Digraph.mem_dfs.mpr ⟨by decide +kernel, hn⟩
    rw [hdfs] at hmem
    simp only [List.mem_cons, List.not_mem_nil, or_false] at hmem
    rcases hmem with rfl | rfl | rfl | rfl | rfl | rfl
    case inr.inl =>
      refine .of_closed (P := (· ∈ [2, 3, 4])) (s := 4) (t := 0) (by decide +kernel) (by decide)
        (by decide) ?_
      decide +kernel
    case inr.inr.inl =>
      refine .of_closed (P := (· ∈ [0, 2, 5])) (s := 2) (t := 3) (by decide +kernel) (by decide)
        (by decide) ?_
      decide +kernel
    all_goals exact .of_length_le_one (by decide +kernel)
  exact ⟨hg, hsided, hdfs, ((Digraph.dfs_order _ 6).2.2 hsided).symm.trans hdfs⟩

/-- A branch on `c` to a branch on `d` or past it, to where that one goes if `d` holds. -/
def sharedSide : Graph :=
  after (Edit.addStart 3) (after (Edit.addBranch (.temp "c") 2 0)
    (after (Edit.addBranch (.temp "d") 0 1) (after Edit.addReturn (after Edit.addReturn .empty))))

/-- The first side of the branch on `d` has been put aside for the branch on `c`, and so comes after
the second one, where the recursive search has it first. -/
theorem sharedSide_searched_late :
    Built sharedSide ∧ sharedSide.start = some 4 ∧ sharedSide.succs 2 = [0, 1] ∧
      sharedSide.flow.dfs 4 = [4, 3, 2, 1, 0] ∧
      (sharedSide.flow.search 4).preorder = [4, 3, 2, 0, 1] :=
  ⟨.tail (.tail (.tail (.tail (.single (.addReturn _)) (.addReturn _)) (.addBranch _ _ _ _))
    (.addBranch _ _ _ _)) (.addStart _ _), by decide +kernel, by decide +kernel, by decide +kernel,
    by decide +kernel⟩

end Flowgraph

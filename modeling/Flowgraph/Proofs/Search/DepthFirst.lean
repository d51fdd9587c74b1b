import Flowgraph.Proofs.Reach
import Mathlib.Data.List.Nodup

/-!
# The recursive depth-first search

The search that the traversals stand for: it visits the nodes of a list one after the other, each
with everything that is newly found through its successors before the next one.  What it visits
forms trees, whose roots can be listed when the search enters them or when it leaves them.

* `Digraph.searchFrom`, `Digraph.search`: the trees of the search.
* `Digraph.searchFrom_append`: a list is searched in parts, each part seeing the ones before it.
* `Digraph.finishFrom_eq`, `Digraph.postorder_eq`: the loop with open frames lists the nodes as the
  search leaves them.
* `Digraph.traversals_exact`: what each of the three traversals lists, and in which order.
-/

namespace Flowgraph

/-- The trees of a search: the first root, what was found through it, and the trees after it. -/
inductive Forest where
  | nil
  | cons (root : NodeId) (children later : Forest)
  deriving DecidableEq

namespace Forest

/-- Every root before what was found through it. -/
def preorder : Forest → List NodeId
  | .nil => []
  | .cons root children later => root :: (children.preorder ++ later.preorder)

/-- Every root after what was found through it. -/
def postorder : Forest → List NodeId
  | .nil => []
  | .cons root children later => children.postorder ++ root :: later.postorder

/-- The trees of one forest, then those of another. -/
def append : Forest → Forest → Forest
  | .nil, f => f
  | .cons root children later, f => .cons root children (later.append f)

@[simp] theorem preorder_append (e f : Forest) :
    (e.append f).preorder = e.preorder ++ f.preorder := by
  induction e with
  | nil => rfl
  | cons root children later _ ih => simp [append, preorder, ih]

/-- Both orders list the same nodes. -/
theorem postorder_perm (f : Forest) : f.postorder.Perm f.preorder := by
  induction f with
  | nil => exact .nil
  | cons root children later ihc ihl =>
      rw [postorder, preorder]
      exact List.perm_middle.trans ((ihc.append ihl).cons root)

end Forest

namespace Digraph

variable {g : Digraph} {n root : NodeId} {seen ns ms : List NodeId}

/-- The more has been seen the less is left. -/
theorem unseenWeight_append_le (weight : NodeId → Nat) (ns seen : List NodeId) (bound : Nat) :
    unseenWeight weight (ns ++ seen) bound ≤ unseenWeight weight seen bound := by
  induction bound with
  | zero => exact Nat.le_refl _
  | succ b ih =>
      simp only [unseenWeight, List.mem_append]
      by_cases hb : b ∈ seen
      · simpa [hb] using ih
      · rw [if_neg hb]
        split <;> omega

/-- Visit the live nodes of a list that have not been seen, one after the other, each with all that
its successors lead to. -/
def searchFrom (g : Digraph) (seen ns : List NodeId) : Forest :=
  match ns with
  | [] => .nil
  | n :: rest =>
      if _h : g.isLive n = true ∧ n ∉ seen then
        let children := g.searchFrom (n :: seen) (g.succs n)
        .cons n children (g.searchFrom (children.preorder.reverse ++ n :: seen) rest)
      else g.searchFrom seen rest
termination_by unseenWeight g.frameWeight seen g.bound + ns.length
decreasing_by
  · have := unseenWeight_cons g.frameWeight (g.lt_bound _h.1) _h.2
    simp only [frameWeight, List.length_cons] at this ⊢
    omega
  · have := unseenWeight_cons g.frameWeight (g.lt_bound _h.1) _h.2
    exact Nat.add_lt_add_of_le_of_lt (Nat.le_trans (unseenWeight_append_le ..) (by omega)) (by simp)
  · simp

/-- The search from one node. -/
def search (g : Digraph) (root : NodeId) : Forest := g.searchFrom [] [root]

theorem searchFrom_nil : g.searchFrom seen [] = .nil := by rw [searchFrom]

/-- A node that has not been seen is entered, and its successors come before the rest. -/
theorem searchFrom_enter (h : g.isLive n = true ∧ n ∉ seen) :
    g.searchFrom seen (n :: ns) = .cons n (g.searchFrom (n :: seen) (g.succs n))
      (g.searchFrom ((g.searchFrom (n :: seen) (g.succs n)).preorder.reverse ++ n :: seen) ns) := by
  rw [searchFrom, dif_pos h]

/-- A node that has been seen is passed over. -/
theorem searchFrom_pass (h : ¬(g.isLive n = true ∧ n ∉ seen)) :
    g.searchFrom seen (n :: ns) = g.searchFrom seen ns := by
  rw [searchFrom, dif_neg h]

/-- The second part of a list is searched when all that the first part leads to has been seen. -/
theorem searchFrom_append (g : Digraph) (seen ns ms : List NodeId) :
    g.searchFrom seen (ns ++ ms) = (g.searchFrom seen ns).append
      (g.searchFrom ((g.searchFrom seen ns).preorder.reverse ++ seen) ms) := by
  induction seen, ns using searchFrom.induct g with
  | case1 seen => simp [searchFrom_nil, Forest.append, Forest.preorder]
  | case2 seen n rest h children _ ih =>
      rw [List.cons_append, searchFrom_enter h, searchFrom_enter h, ih]
      simp [Forest.append, Forest.preorder, children]
  | case3 seen n rest h ih =>
      rw [List.cons_append, searchFrom_pass h, searchFrom_pass h, ih]

/-- The search from a node has that node as its root. -/
theorem search_of_live (h : g.isLive root = true) :
    g.search root = .cons root (g.searchFrom [root] (g.succs root)) .nil := by
  rw [search, searchFrom_enter ⟨h, List.not_mem_nil⟩, searchFrom_nil]

theorem search_of_not_live (h : ¬g.isLive root = true) : g.search root = .nil := by
  rw [search, searchFrom_pass fun hl => h hl.1, searchFrom_nil]

/-! ### The loop with open frames -/

/-- The top frame is finished by the search of what it has still to look at. -/
theorem finishFrom_eq (g : Digraph) (n : NodeId) (rest : List (NodeId × List NodeId))
    (seen ns : List NodeId) :
    g.finishFrom ((n, ns) :: rest) seen = (g.searchFrom seen ns).postorder ++
      n :: g.finishFrom rest ((g.searchFrom seen ns).preorder.reverse ++ seen) := by
  induction seen, ns using searchFrom.induct g generalizing n rest with
  | case1 seen => simp [finishFrom, searchFrom_nil, Forest.postorder, Forest.preorder]
  | case2 seen s more h children ihc ihl =>
      rw [finishFrom, dif_pos h, ihc, ihl, searchFrom_enter h]
      simp [Forest.postorder, Forest.preorder, children]
  | case3 seen s more h ih => rw [finishFrom, dif_neg h, ih, searchFrom_pass h]

/-- Postorder lists the nodes as the recursive search leaves them. -/
theorem postorder_eq (g : Digraph) (root : NodeId) :
    g.postorder root = (g.search root).postorder := by
  rw [postorder]
  split
  · next h =>
      rw [finishFrom_eq, finishFrom, search_of_live h]
      rfl
  · next h =>
      rw [search_of_not_live h]
      rfl

/-- The search visits what can be reached from a live root. -/
theorem mem_preorder_search :
    n ∈ (g.search root).preorder ↔ g.isLive root = true ∧ g.Reaches root n := by
  rw [← (Forest.postorder_perm _).mem_iff, ← postorder_eq, mem_postorder]

theorem nodup_preorder_search (g : Digraph) (root : NodeId) : (g.search root).preorder.Nodup := by
  rw [← (Forest.postorder_perm _).nodup_iff, ← postorder_eq]
  exact nodup_postorder g root

/-! ### What the traversals list -/

/-- In postorder a node stands before those that lead to it, unless it leads back to them. -/
theorem idxOf_postorder_lt {u v : NodeId} (hu : u ∈ g.postorder root) (hv : v ∈ g.postorder root)
    (huv : v ∈ g.succs u) (hback : ¬g.Reaches v u) :
    (g.postorder root).idxOf v < (g.postorder root).idxOf u := by
  have hroot := mem_postorder.mp hv
  have hedge : g.Edge u v := ⟨huv, isLive_of_reaches hroot.1 hroot.2⟩
  have hiu := List.idxOf_lt_length_of_mem hu
  have hiv := List.idxOf_lt_length_of_mem hv
  rcases Nat.lt_trichotomy ((g.postorder root).idxOf u) ((g.postorder root).idxOf v) with
    hlt | heq | hlt
  · have := List.pairwise_iff_getElem.mp (pairwise_postorder g root) _ _ hiu hiv hlt
    rw [List.getElem_idxOf hiu, List.getElem_idxOf hiv] at this
    exact absurd (this hedge) hback
  · exact absurd ((List.idxOf_inj hu).mp heq ▸ .refl) hback
  · exact hlt

/-- Of two nodes of a list without repetition, the one that stands first in it stands last in the
reverse. -/
theorem idxOf_reverse_lt {l : List NodeId} (hl : l.Nodup) {u v : NodeId} (hu : u ∈ l)
    (h : l.idxOf v < l.idxOf u) : l.reverse.idxOf u < l.reverse.idxOf v := by
  have hiu := List.idxOf_lt_length_of_mem hu
  have hiv : l.idxOf v < l.length := Nat.lt_trans h hiu
  have hat : ∀ {w : NodeId} (hw : l.idxOf w < l.length),
      l.reverse.idxOf w = l.length - 1 - l.idxOf w := by
    intro w hw
    have hlt : l.length - 1 - l.idxOf w < l.reverse.length := by
      rw [List.length_reverse]
      omega
    have hget : l.reverse[l.length - 1 - l.idxOf w] = w := by
      rw [List.getElem_reverse]
      have : l.length - 1 - (l.length - 1 - l.idxOf w) = l.idxOf w := by omega
      simp only [this, List.getElem_idxOf hw]
    calc l.reverse.idxOf w
        _ = l.reverse.idxOf (l.reverse[l.length - 1 - l.idxOf w]) := by rw [hget]
        _ = l.length - 1 - l.idxOf w := (List.nodup_reverse.mpr hl).idxOf_getElem _ hlt
  rw [hat hiu, hat hiv]
  omega

/-- Each traversal lists the live nodes that a path of live nodes leads to from a live root, and
each of them once; from any other root it lists nothing.  Postorder is the order in which the
recursive search leaves the nodes.  Of two listed nodes joined by an edge, the target stands first
in postorder and last in reverse postorder, unless it leads back to the source. -/
theorem traversals_exact (g : Digraph) (root : NodeId) :
    (∀ order ∈ [g.dfs root, g.postorder root, g.reversePostorder root],
      (∀ n, n ∈ order ↔ g.isLive root = true ∧ g.isLive n = true ∧ g.Reaches root n) ∧
        order.Nodup ∧ (g.isLive root = false → order = [])) ∧
    g.postorder root = (g.search root).postorder ∧
    g.reversePostorder root = (g.search root).postorder.reverse ∧
    ∀ u ∈ g.postorder root, ∀ v ∈ g.postorder root, v ∈ g.succs u → g.Reaches v u ∨
      (g.postorder root).idxOf v < (g.postorder root).idxOf u ∧
        (g.reversePostorder root).idxOf u < (g.reversePostorder root).idxOf v := by
  refine ⟨fun order horder => ?_, postorder_eq g root,
    congrArg List.reverse (postorder_eq g root), fun u hu v hv huv => ?_⟩
  · have hmem : ∀ n, n ∈ order ↔ g.isLive root = true ∧ g.Reaches root n := fun n => by
      simp only [List.mem_cons, List.not_mem_nil, or_false] at horder
      rcases horder with rfl | rfl | rfl
      · exact mem_dfs
      · exact mem_postorder
      · rw [reversePostorder, List.mem_reverse, mem_postorder]
    have hnodup : order.Nodup := by
      simp only [List.mem_cons, List.not_mem_nil, or_false] at horder
      rcases horder with rfl | rfl | rfl
      · exact nodup_dfs g root
      · exact nodup_postorder g root
      · exact List.nodup_reverse.mpr (nodup_postorder g root)
    refine ⟨fun n => (hmem n).trans ⟨fun h => ⟨h.1, isLive_of_reaches h.1 h.2, h.2⟩,
      fun h => ⟨h.1, h.2.2⟩⟩, hnodup, fun hdead => ?_⟩
    exact List.eq_nil_iff_forall_not_mem.mpr fun n hn => by simp [hdead] at hmem; exact hmem n hn
  · by_cases hback : g.Reaches v u
    · exact .inl hback
    · have hlt := idxOf_postorder_lt hu hv huv hback
      exact .inr ⟨hlt, idxOf_reverse_lt (nodup_postorder g root) hu hlt⟩

/-- Slot 2 is vacant.  Edges lead to it, beyond the last slot, twice to one node and around a
cycle. -/
def gapped : Digraph where
  bound := 4
  isLive n := n == 0 || n == 1 || n == 3
  succs n := [[1, 2, 1, 7], [0, 3], [], [3]].getD n []
  lt_bound {n} h := by
    simp only [Bool.or_eq_true, beq_iff_eq] at h
    rcases h with (rfl | rfl) | rfl <;> decide

/-- The search from node 0 leaves node 3 first; from the vacant slot there is none. -/
theorem traversals_exact_gapped :
    (gapped.search 0).postorder = [3, 1, 0] ∧ gapped.dfs 2 = [] ∧
      (gapped.reversePostorder 0).idxOf 1 < (gapped.reversePostorder 0).idxOf 3 := by
  obtain ⟨-, horder, -, hedges⟩ := traversals_exact gapped 0
  have hpost : gapped.postorder 0 = [3, 1, 0] := by decide +kernel
  have hback : ¬gapped.Reaches 3 1 := fun h => by
    have hmem : 1 ∈ gapped.dfs 3 := mem_dfs.mpr ⟨rfl, h⟩
    revert hmem
    decide +kernel
  have hedge := hedges 1 (by rw [hpost]; decide) 3 (by rw [hpost]; decide) (by decide)
  have hlast := hedge.resolve_left hback
  exact ⟨horder ▸ hpost, ((traversals_exact gapped 2).1 _ List.mem_cons_self).2.2 rfl, hlast.2⟩

end Digraph

end Flowgraph

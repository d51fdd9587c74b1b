import Flowgraph.Proofs.Reach

/-!
# Paths

A path is given by the list of its nodes, both ends included.  Here paths are taken apart at either
end, and related to reaching a node through nodes of some kind.

* `Path.snoc`, `Path.snoc_cases`: a path at its last edge.
* `Path.append_iff`, `Path.append`, `Path.exists_first`: a path at one of its nodes.
* `reachesBy_iff`: reaching a node through nodes with a property, as the existence of a path.
* `exists_path_snoc_iff`: the same with one more edge to any node.
-/

namespace Flowgraph.Graph

variable {g : Graph} {a b c n : NodeId} {ns ms : List NodeId} {p : NodeId → Prop}

/-- Edges lead from the first node to the second through the nodes of the list, which begins with
the first node and ends with the second. -/
inductive Path (g : Graph) : NodeId → NodeId → List NodeId → Prop
  | single (a : NodeId) : Path g a a [a]
  | cons {a b c : NodeId} {ns : List NodeId} (h : b ∈ g.succs a) (hns : Path g b c ns) :
      Path g a c (a :: ns)

/-- Edges lead from one node to another, and all nodes after the first have the property. -/
def ReachesBy (g : Graph) (p : NodeId → Prop) : NodeId → NodeId → Prop :=
  Relation.ReflTransGen fun a b => b ∈ g.succs a ∧ p b

namespace Path

/-- A path begins with its first node. -/
theorem exists_eq_cons (h : g.Path a b ns) : ∃ ms, ns = a :: ms := by
  cases h with
  | single => exact ⟨[], rfl⟩
  | cons => exact ⟨_, rfl⟩

/-- It passes through its last one. -/
theorem right_mem (h : g.Path a b ns) : b ∈ ns := by
  induction h with
  | single => exact List.mem_cons_self
  | cons _ _ ih => exact List.mem_cons_of_mem _ ih

theorem reaches (h : g.Path a b ns) : g.Reaches a b := by
  induction h with
  | single => exact .refl
  | cons hs _ ih => exact .head hs ih

/-- A path goes on along an edge. -/
theorem snoc (h : g.Path a b ns) (hs : c ∈ g.succs b) : g.Path a c (ns ++ [c]) := by
  induction h with
  | single => exact .cons hs (.single c)
  | cons ht _ ih => exact .cons ht (ih hs)

/-- A path is a single node or has a last edge. -/
theorem snoc_cases (h : g.Path a c ns) :
    a = c ∧ ns = [a] ∨ ∃ b ms, ns = ms ++ [c] ∧ g.Path a b ms ∧ c ∈ g.succs b := by
  induction h with
  | single a => exact .inl ⟨rfl, rfl⟩
  | @cons a b c ns hs hns ih =>
      refine .inr ?_
      rcases ih with ⟨rfl, rfl⟩ | ⟨d, ms, rfl, hms, hd⟩
      · exact ⟨a, [a], rfl, .single a, hs⟩
      · exact ⟨d, a :: ms, rfl, .cons hs hms, hd⟩

/-- A path is cut at any of its nodes into one that ends there and one that begins there. -/
theorem append_iff :
    g.Path a c (ns ++ b :: ms) ↔ g.Path a b (ns ++ [b]) ∧ g.Path b c (b :: ms) := by
  induction ns generalizing a with
  | nil =>
      rw [List.nil_append, List.nil_append]
      refine ⟨fun h => ?_, fun ⟨h, h'⟩ => ?_⟩
      · obtain ⟨ks, hks⟩ := h.exists_eq_cons
        obtain rfl := (List.cons.inj hks).1
        exact ⟨.single b, h⟩
      · obtain ⟨ks, hks⟩ := h.exists_eq_cons
        rwa [← (List.cons.inj hks).1]
  | cons n ns ih =>
      rw [List.cons_append, List.cons_append]
      constructor
      · intro h
        generalize hl : ns ++ b :: ms = l at h
        cases h with
        | single => simp at hl
        | cons hs hns =>
            subst hl
            obtain ⟨hleft, hright⟩ := ih.mp hns
            exact ⟨.cons hs hleft, hright⟩
      · rintro ⟨h, hright⟩
        generalize hl : ns ++ [b] = l at h
        cases h with
        | single => simp at hl
        | cons hs hns =>
            subst hl
            exact .cons hs (ih.mpr ⟨hns, hright⟩)

/-- Where one path ends another one may begin. -/
theorem append (h : g.Path a b ns) (h' : g.Path b c (b :: ms)) : g.Path a c (ns ++ ms) := by
  induction h with
  | single => exact h'
  | cons hs _ ih => exact .cons hs (ih h')

/-- A path to any of its nodes, up to where it gets there first. -/
theorem exists_first (h : g.Path a b ns) (hc : c ∈ ns) :
    ∃ ms ks, ns = ms ++ c :: ks ∧ c ∉ ms ∧ g.Path a c (ms ++ [c]) := by
  obtain ⟨ms, ks, rfl, hfirst⟩ := List.eq_append_cons_of_mem hc
  exact ⟨ms, ks, rfl, hfirst, (append_iff.mp h).1⟩

end Path

/-- A node that is reached is reached along a path. -/
theorem exists_path (h : g.Reaches a b) : ∃ ns, g.Path a b ns := by
  induction h with
  | refl => exact ⟨_, .single a⟩
  | tail _ hs ih =>
      obtain ⟨ns, hns⟩ := ih
      exact ⟨_, hns.snoc hs⟩

/-- A node is reached through nodes with a property exactly along a path of such nodes. -/
theorem reachesBy_iff :
    g.ReachesBy p a b ↔ ∃ ns, g.Path a b (a :: ns) ∧ ∀ n ∈ ns, p n := by
  constructor
  · intro h
    induction h using Relation.ReflTransGen.head_induction_on with
    | refl => exact ⟨[], .single b, by simp⟩
    | @head a m hs _ ih =>
        obtain ⟨ns, hns, hp⟩ := ih
        exact ⟨m :: ns, .cons hs.1 hns, List.forall_mem_cons.mpr ⟨hs.2, hp⟩⟩
  · rintro ⟨ns, hns, hp⟩
    generalize hl : a :: ns = l at hns
    induction hns generalizing ns with
    | single => exact .refl
    | cons hs hms ih =>
        obtain rfl := (List.cons.inj hl).2
        obtain ⟨ks, rfl⟩ := hms.exists_eq_cons
        obtain ⟨hb, hks⟩ := List.forall_mem_cons.mp hp
        exact .head ⟨hs, hb⟩ (ih ks hks rfl)

/-- The same with one more edge, to any node. -/
theorem exists_path_snoc_iff :
    (∃ ns, g.Path a b (a :: (ns ++ [b])) ∧ ∀ n ∈ ns, p n) ↔
      ∃ m, g.ReachesBy p a m ∧ b ∈ g.succs m := by
  constructor
  · rintro ⟨ns, hns, hp⟩
    rcases hns.snoc_cases with ⟨-, he⟩ | ⟨m, ms, he, hms, hm⟩
    · simp at he
    · rw [← List.cons_append] at he
      obtain rfl := (List.append_inj' he rfl).1
      exact ⟨m, reachesBy_iff.mpr ⟨ns, hms, hp⟩, hm⟩
  · rintro ⟨m, hm, hs⟩
    obtain ⟨ns, hns, hp⟩ := reachesBy_iff.mp hm
    exact ⟨ns, hns.snoc hs, hp⟩

/-- What lies on a path leads to its end without coming back to itself. -/
theorem Path.reachesBy_of_mem (h : g.Path a b ns) (hc : c ∈ ns) : g.ReachesBy (· ≠ c) c b := by
  induction h with
  | single => rw [List.mem_singleton.mp hc]; exact .refl
  | @cons a m b ns hs hns ih =>
      by_cases hlater : c ∈ ns
      · exact ih hlater
      · obtain rfl := (List.mem_cons.mp hc).resolve_right hlater
        exact reachesBy_iff.mpr ⟨ns, .cons hs hns, fun n hn e => hlater (e ▸ hn)⟩

theorem ReachesBy.reaches (h : g.ReachesBy p a b) : g.Reaches a b := by
  induction h with
  | refl => exact .refl
  | tail _ hs ih => exact ih.tail hs.1

end Flowgraph.Graph

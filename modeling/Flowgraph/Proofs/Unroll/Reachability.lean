import Flowgraph.Proofs.Unroll.Layout

/-!
# What can be reached when a loop has been replaced

Every node of the unrolled graph does the work of a node of the graph as it was, and its edges
follow that node's edges.  So no old node is reached that was not reached before; and the old loop
is reached exactly if something outside of it leads into it past the header, since every edge to the
header has been moved.

* `Replaced`: a loop that has been replaced, with its layout.
* `Replaced.Counterpart`, `Replaced.counterpart_of_reaches`: whose work a node does.
* `Replaced.reaches_of_reaches`: old nodes that are reached were reached before.
* `Replaced.reaches_of_not_mem`: what was reached outside of the loop still is.
* `Replaced.reaches_body_iff`, `Replaced.not_reaches_body`: whether the old loop is still reached.
-/

namespace Flowgraph

open Flowgraph.Graph

/-- A loop that goes from its header to its entry or its exit in `g`, and that has been replaced
in `h`. -/
structure Replaced (g h : Graph) (body : List NodeId) (header entry exit : NodeId) (factor : Nat)
    (test : Expr) (newHeader chain epilogue : NodeId) (rest : NodeId → NodeId) : Prop where
  linked : g.Linked
  entered : Entry g body header entry
  succs_header : g.succs header = [entry, exit]
  header_mem : header ∈ body
  exit_not_mem : exit ∉ body
  layout : Layout g h body header entry exit factor test newHeader chain epilogue rest

namespace Replaced

/-- The nodes of the unrolled graph, each with the old node whose work it does. -/
inductive Counterpart (g h : Graph) (body : List NodeId) (header entry newHeader epilogue : NodeId)
    (rest : NodeId → NodeId) : NodeId → NodeId → Prop
  | old {n} (hn : n < g.bound) : Counterpart g h body header entry newHeader epilogue rest n n
  | newHeader : Counterpart g h body header entry newHeader epilogue rest newHeader header
  | epilogue : Counterpart g h body header entry newHeader epilogue rest epilogue header
  | rest {n} (hn : g.Inner body header entry n) :
      Counterpart g h body header entry newHeader epilogue rest (rest n) n
  | chained {j next f n} (hnext : Chain g h body header entry g.bound newHeader j next)
      (hf : CopyOf g h body header entry g.bound next f) (hn : g.Inner body header entry n) :
      Counterpart g h body header entry newHeader epilogue rest (f n) n

variable {g h : Graph} {body : List NodeId} {header entry exit newHeader chain epilogue : NodeId}
  {start n m s t : NodeId} {factor : Nat} {test : Expr} {rest : NodeId → NodeId}

section

variable (hr : Replaced g h body header entry exit factor test newHeader chain epilogue rest)

include hr

theorem entry_mem_succs : entry ∈ g.succs header := by
  rw [hr.succs_header]
  exact List.mem_cons_self

theorem exit_mem_succs : exit ∈ g.succs header := by
  rw [hr.succs_header]
  exact List.mem_cons_of_mem _ List.mem_cons_self

/-- The new header is new: no old node leads to the epilogue. -/
theorem bound_le_newHeader : g.bound ≤ newHeader := by
  by_contra hlt
  have hmem : epilogue ∈ h.succs newHeader := by
    rw [hr.layout.succs_new]
    exact List.mem_cons_of_mem _ List.mem_cons_self
  have hno : epilogue ∉ g.succs newHeader := fun h =>
    Nat.not_le.mpr (lt_bound_of_isLive (hr.linked.isLive_succ h)) hr.layout.remainder.bound_le
  rw [hr.layout.succs_old (Nat.lt_of_not_le hlt)] at hmem
  split at hmem
  · exact hno hmem
  · obtain ⟨t, ht, he⟩ := List.mem_map.mp hmem
    by_cases htn : t = header
    · rw [htn, divert_self] at he
      exact hr.layout.epilogue_ne he.symm
    · rw [divert_of_ne htn] at he
      exact hno (he ▸ ht)

/-- The edges of an old node outside of the body. -/
theorem mem_succs_iff (hm : m < g.bound) (hb : m ∉ body) :
    s ∈ h.succs m ↔ s = newHeader ∧ header ∈ g.succs m ∨ s ≠ header ∧ s ∈ g.succs m := by
  rw [hr.layout.succs_old hm, if_neg hb, List.mem_map]
  constructor
  · rintro ⟨t, ht, rfl⟩
    by_cases he : t = header
    · rw [he, divert_self]
      exact .inl ⟨rfl, he ▸ ht⟩
    · rw [divert_of_ne he]
      exact .inr ⟨he, ht⟩
  · rintro (⟨rfl, hs⟩ | ⟨hne, hs⟩)
    · exact ⟨header, hs, divert_self ..⟩
    · exact ⟨s, hs, divert_of_ne hne⟩

/-- An edge between old nodes was there before. -/
theorem mem_succs_old (hm : m < g.bound) (hs : s < g.bound) (hsucc : s ∈ h.succs m) :
    s ∈ g.succs m := by
  by_cases hb : m ∈ body
  · rwa [hr.layout.succs_old hm, if_pos hb] at hsucc
  · rcases (hr.mem_succs_iff hm hb).mp hsucc with ⟨rfl, -⟩ | ⟨-, hsucc⟩
    · exact absurd hr.bound_le_newHeader (Nat.not_le.mpr hs)
    · exact hsucc

/-! ### Whose work a node does -/

/-- A counterpart of an old node is that node. -/
theorem eq_of_counterpart (hm : Counterpart g h body header entry newHeader epilogue rest m n)
    (hlt : m < g.bound) : n = m := by
  have hnew {c : NodeId} (hc : g.bound ≤ c) (hlt : c < g.bound) : n = c :=
    absurd hc (Nat.not_le.mpr hlt)
  cases hm with
  | old => rfl
  | newHeader => exact hnew hr.bound_le_newHeader hlt
  | epilogue => exact hnew hr.layout.remainder.bound_le hlt
  | rest hn => exact hnew (hr.layout.remainder.copy.floor_le hn) hlt
  | chained _ hf hn => exact hnew (hf.floor_le hn) hlt

/-- Where an edge leads when its source does the work of `n`: what does the work of a node that `n`
leads to, or from a new node out of the body. -/
def Follows (g h : Graph) (body : List NodeId) (header entry newHeader epilogue : NodeId)
    (rest : NodeId → NodeId) (n s : NodeId) : Prop :=
  (∃ t, Counterpart g h body header entry newHeader epilogue rest s t ∧ g.Reaches n t) ∧
    (s < g.bound → n ∈ body ∧ s ∉ body ∧ s ∈ g.succs n)

/-- Every way into the chain does the work of the header or of the entry. -/
theorem counterpart_chain {j : Nat} {c : NodeId}
    (hc : Chain g h body header entry g.bound newHeader j c) :
    ∃ t, Counterpart g h body header entry newHeader epilogue rest c t ∧ g.Reaches header t := by
  cases hc with
  | nil => exact ⟨header, .newHeader, .refl⟩
  | cons hnext hf => exact ⟨entry, .chained hnext hf .refl, .single hr.entry_mem_succs⟩

/-- The edges of copies. -/
theorem follows_copy {back : NodeId} {f : NodeId → NodeId}
    (hf : CopyOf g h body header entry g.bound back f)
    (hcopies : ∀ {n}, g.Inner body header entry n →
      Counterpart g h body header entry newHeader epilogue rest (f n) n)
    (hback : ∃ t, Counterpart g h body header entry newHeader epilogue rest back t ∧
      g.Reaches header t)
    (hlow : g.bound ≤ back) (hn : g.Inner body header entry n) (hs : s ∈ h.succs (f n)) :
    Follows g h body header entry newHeader epilogue rest n s := by
  rw [hf.succs_eq hn] at hs
  obtain ⟨t, ht, rfl⟩ := List.mem_map.mp hs
  rw [landing]
  split
  · next he =>
      obtain ⟨u, hu, hreach⟩ := hback
      exact ⟨⟨u, hu, .head (he ▸ ht) hreach⟩, fun hlt => absurd hlow (Nat.not_le.mpr hlt)⟩
  · next hne =>
      split
      · next hb =>
          have hinner := hn.tail ⟨ht, hb, hne⟩
          exact ⟨⟨t, hcopies hinner, .single ht⟩, fun hlt =>
            absurd (hf.floor_le hinner) (Nat.not_le.mpr hlt)⟩
      · next hb =>
          have hlt := lt_bound_of_isLive (hr.linked.isLive_succ ht)
          exact ⟨⟨t, .old hlt, .single ht⟩, fun _ => ⟨(hr.entered.inner hr.linked hn).1, hb, ht⟩⟩

/-- The edges of new nodes. -/
theorem follows_of_new (hm : Counterpart g h body header entry newHeader epilogue rest m n)
    (hnew : g.bound ≤ m) (hs : s ∈ h.succs m) :
    Follows g h body header entry newHeader epilogue rest n s := by
  have hremainder := hr.layout.remainder
  -- of a target that is new nothing is asked as to where the body is left
  have hlow {c : NodeId} (hc : g.bound ≤ c) (hlt : c < g.bound) :
      n ∈ body ∧ c ∉ body ∧ c ∈ g.succs n := absurd hc (Nat.not_le.mpr hlt)
  cases hm with
  | old hlt => exact absurd hnew (Nat.not_le.mpr hlt)
  | newHeader =>
      rw [hr.layout.succs_new, List.mem_pair] at hs
      rcases hs with rfl | rfl
      · exact ⟨hr.counterpart_chain hr.layout.chained,
          hlow (hr.layout.chained.floor_le hr.bound_le_newHeader)⟩
      · exact ⟨⟨header, .epilogue, .refl⟩, hlow hremainder.bound_le⟩
  | epilogue =>
      rw [hremainder.succs_eq, List.mem_pair] at hs
      rcases hs with rfl | rfl
      · exact ⟨⟨entry, .rest .refl, .single hr.entry_mem_succs⟩,
          hlow (hremainder.copy.floor_le .refl)⟩
      · have hlt := lt_bound_of_isLive (hr.linked.isLive_succ hr.exit_mem_succs)
        exact ⟨⟨s, .old hlt, .single hr.exit_mem_succs⟩, fun _ =>
          ⟨hr.header_mem, hr.exit_not_mem, hr.exit_mem_succs⟩⟩
  | rest hn =>
      exact hr.follows_copy hremainder.copy .rest ⟨header, .epilogue, .refl⟩ hremainder.bound_le hn
        hs
  | chained hnext hf hn =>
      exact hr.follows_copy hf (.chained hnext hf) (hr.counterpart_chain hnext)
        (hnext.floor_le hr.bound_le_newHeader) hn hs

/-- Every edge follows the edges of the node whose work is done. -/
theorem exists_counterpart_succ
    (hm : Counterpart g h body header entry newHeader epilogue rest m n) (hs : s ∈ h.succs m) :
    ∃ t, Counterpart g h body header entry newHeader epilogue rest s t ∧ g.Reaches n t := by
  by_cases hlt : m < g.bound
  · obtain rfl := hr.eq_of_counterpart hm hlt
    by_cases hb : n ∈ body
    · rw [hr.layout.succs_old hlt, if_pos hb] at hs
      exact ⟨s, .old (lt_bound_of_isLive (hr.linked.isLive_succ hs)), .single hs⟩
    · rcases (hr.mem_succs_iff hlt hb).mp hs with ⟨rfl, hs⟩ | ⟨-, hs⟩
      · exact ⟨header, .newHeader, .single hs⟩
      · exact ⟨s, .old (lt_bound_of_isLive (hr.linked.isLive_succ hs)), .single hs⟩
  · exact (hr.follows_of_new hm (Nat.le_of_not_lt hlt) hs).1

/-- Whatever is reached does the work of a node that was reached. -/
theorem counterpart_of_reaches (hstart : start < g.bound) (hm : h.Reaches start m) :
    ∃ n, Counterpart g h body header entry newHeader epilogue rest m n ∧ g.Reaches start n := by
  induction hm with
  | refl => exact ⟨start, .old hstart, .refl⟩
  | tail _ hs ih =>
      obtain ⟨n, hn, hreach⟩ := ih
      obtain ⟨t, ht, hnt⟩ := hr.exists_counterpart_succ hn hs
      exact ⟨t, ht, hreach.trans hnt⟩

/-- Old nodes that are reached were reached before. -/
theorem reaches_of_reaches (hstart : start < g.bound) (hm : h.Reaches start m)
    (hlt : m < g.bound) : g.Reaches start m := by
  obtain ⟨n, hn, hreach⟩ := hr.counterpart_of_reaches hstart hm
  exact hr.eq_of_counterpart hn hlt ▸ hreach

/-! ### The old loop -/

/-- A new node that is reached leads into the old graph only along an edge out of the body. -/
theorem exit_of_new (hstart : start < g.bound) (hm : h.Reaches start m) (hnew : g.bound ≤ m)
    (hs : s ∈ h.succs m) (hlt : s < g.bound) : s ∉ body ∧ ∃ n ∈ body, s ∈ g.succs n := by
  obtain ⟨n, hn, -⟩ := hr.counterpart_of_reaches hstart hm
  obtain ⟨hb, hout, hsucc⟩ := (hr.follows_of_new hn hnew hs).2 hlt
  exact ⟨hout, n, hb, hsucc⟩

/-- What was reached is reached, unless it is in the loop and a copy of it is reached in its
place. -/
theorem reaches_or_copy (hn : g.Reaches start n) :
    h.Reaches start n ∨ n = header ∧ h.Reaches start epilogue ∨
      g.Inner body header entry n ∧ h.Reaches start (rest n) := by
  have hremainder := hr.layout.remainder
  induction hn with
  | refl => exact .inl .refl
  | @tail n s hn hs ih =>
      rcases ih with hreach | ⟨rfl, hreach⟩ | ⟨hinner, hreach⟩
      · have hlt := lt_bound_of_isLive (isLive_of_mem_succs hs)
        by_cases hb : n ∈ body
        · exact .inl (hreach.tail (by rwa [hr.layout.succs_old hlt, if_pos hb]))
        · by_cases he : s = header
          · -- the entrance leads to the new header now, which leads to the epilogue
            have hnew := hreach.tail ((hr.mem_succs_iff hlt hb).mpr (.inl ⟨rfl, he ▸ hs⟩))
            refine .inr (.inl ⟨he, hnew.tail ?_⟩)
            rw [hr.layout.succs_new]
            exact List.mem_cons_of_mem _ List.mem_cons_self
          · exact .inl (hreach.tail ((hr.mem_succs_iff hlt hb).mpr (.inr ⟨he, hs⟩)))
      · have hsuccs := hremainder.succs_eq
        rw [hr.succs_header, List.mem_pair] at hs
        rcases hs with rfl | rfl
        · exact .inr (.inr ⟨.refl, hreach.tail (by simp [hsuccs])⟩)
        · exact .inl (hreach.tail (by simp [hsuccs]))
      · have hcopy : landing body header epilogue rest s ∈ h.succs (rest n) := by
          rw [hremainder.copy.succs_eq hinner]
          exact List.mem_map_of_mem hs
        have hnext := hreach.tail hcopy
        rw [landing] at hnext
        split at hnext
        · next he => exact .inr (.inl ⟨he, hnext⟩)
        · next hne =>
            split at hnext
            · next hb => exact .inr (.inr ⟨hinner.tail ⟨hs, hb, hne⟩, hnext⟩)
            · exact .inl hnext

/-- What was reached outside of the body still is. -/
theorem reaches_of_not_mem (hn : g.Reaches start n) (hb : n ∉ body) : h.Reaches start n := by
  rcases hr.reaches_or_copy hn with hreach | ⟨rfl, -⟩ | ⟨hinner, -⟩
  · exact hreach
  · exact absurd hr.header_mem hb
  · exact absurd (hr.entered.inner hr.linked hinner).1 hb

/-- Something of the old loop is still reached exactly if some node outside of it that was reached
leads into it past the header. -/
theorem reaches_body_iff (hstart : start < g.bound) (hout : start ∉ body)
    (hbody : ∀ n ∈ body, n < g.bound) :
    (∃ n ∈ body, h.Reaches start n) ↔
      ∃ m n, g.Reaches start m ∧ m ∉ body ∧ n ∈ g.succs m ∧ n ∈ body ∧ n ≠ header := by
  constructor
  · rintro ⟨n, hn, hreach⟩
    induction hreach with
    | refl => exact absurd hn hout
    | @tail m n hm hs ih =>
        have hlt := hbody n hn
        by_cases hb : m ∈ body
        · exact ih hb
        by_cases hold : m < g.bound
        · rcases (hr.mem_succs_iff hold hb).mp hs with ⟨rfl, -⟩ | ⟨hne, hs⟩
          · exact absurd hr.bound_le_newHeader (Nat.not_le.mpr hlt)
          · exact ⟨m, n, hr.reaches_of_reaches hstart hm hold, hb, hs, hn, hne⟩
        · exact absurd hn (hr.exit_of_new hstart hm (Nat.le_of_not_lt hold) hs hlt).1
  · rintro ⟨m, n, hm, hb, hs, hn, hne⟩
    refine ⟨n, hn, (hr.reaches_of_not_mem hm hb).tail ?_⟩
    exact (hr.mem_succs_iff (lt_bound_of_isLive (isLive_of_mem_succs hs)) hb).mpr (.inr ⟨hne, hs⟩)

/-- A loop that is entered at its header only is not reached any more. -/
theorem not_reaches_body (hstart : start < g.bound) (hout : start ∉ body)
    (hbody : ∀ n ∈ body, n < g.bound)
    (hentered : ∀ {m n}, g.Reaches start m → n ∈ g.succs m → n ∈ body → n ≠ header → m ∈ body)
    (hn : n ∈ body) : ¬h.Reaches start n := by
  intro hreach
  obtain ⟨m, n, hm, hmout, hs, hn, hne⟩ :=
    (hr.reaches_body_iff hstart hout hbody).mp ⟨n, hn, hreach⟩
  exact hmout (hentered hm hs hn hne)

end

end Replaced

end Flowgraph

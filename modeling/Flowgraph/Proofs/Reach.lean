import Flowgraph.Proofs.Linked
import Mathlib.Logic.Relation
import Mathlib.Tactic.Tauto

/-!
# What the searches find

Both searches find exactly the live nodes that a path of live nodes leads to, and each of them
once.

* `Digraph.mem_closure`, `Digraph.mem_dfs`, `Digraph.nodup_dfs`: the search that marks a node when
  it goes on the stack.
* `Digraph.Open`, `Digraph.mem_postorder`, `Digraph.nodup_postorder`: the search that keeps open
  frames.
* `Digraph.pairwise_postorder`: the order in which that search leaves nodes.
* `Digraph.AgreeOn.dfs_eq`, `Digraph.AgreeOn.postorder_eq`: a search of two graphs that agree on
  what it can see.
* `Graph.Linked.mem_reachable`: what the start leads to.
-/

namespace Flowgraph

namespace Digraph

variable {g : Digraph} {a b n r root : NodeId} {seen stack ns roots : List NodeId}

/-- An edge to a live node. -/
def Edge (g : Digraph) (a b : NodeId) : Prop := b ∈ g.succs a ∧ g.isLive b = true

/-- A path of edges to live nodes. -/
def Reaches (g : Digraph) : NodeId → NodeId → Prop := Relation.ReflTransGen g.Edge

/-! ### Marking on the stack -/

/-- Fresh are the nodes of a list that are live and have not been seen. -/
theorem mem_fresh : n ∈ g.fresh seen ns ↔ n ∈ ns ∧ g.isLive n = true ∧ n ∉ seen := by
  induction ns with
  | nil => simp [fresh]
  | cons m ns ih =>
      simp only [fresh, List.foldr_cons] at ih ⊢
      split
      · grind
      · grind

/-- Each of them is fresh once. -/
theorem nodup_fresh (g : Digraph) (seen ns : List NodeId) : (g.fresh seen ns).Nodup := by
  induction ns with
  | nil => exact .nil
  | cons m ns ih =>
      simp only [fresh, List.foldr_cons] at ih ⊢
      split
      · next h => exact List.nodup_cons.mpr ⟨h.2.2, ih⟩
      · exact ih

/-- The nodes on the stack are found. -/
theorem mem_visitFrom_of_mem_stack (h : n ∈ stack) : n ∈ g.visitFrom stack seen := by
  induction stack, seen using visitFrom.induct g with
  | case1 => cases h
  | case2 seen m rest ih =>
      rw [visitFrom, List.mem_cons]
      rcases List.mem_cons.mp h with rfl | h
      · exact .inl rfl
      · exact .inr (ih (List.mem_append_right _ h))

/-- What is found can be reached from the stack. -/
theorem reaches_of_mem_visitFrom (h : n ∈ g.visitFrom stack seen) :
    ∃ r ∈ stack, g.Reaches r n := by
  induction stack, seen using visitFrom.induct g with
  | case1 => simp [visitFrom] at h
  | case2 seen m rest ih =>
      rw [visitFrom, List.mem_cons] at h
      rcases h with rfl | h
      · exact ⟨n, List.mem_cons_self, .refl⟩
      obtain ⟨r, hr, hrn⟩ := ih h
      rcases List.mem_append.mp hr with hr | hr
      · obtain ⟨hs, hl, -⟩ := mem_fresh.mp hr
        exact ⟨m, List.mem_cons_self, .head ⟨hs, hl⟩ hrn⟩
      · exact ⟨r, List.mem_cons_of_mem _ hr, hrn⟩

/-- An edge from what is found leads to what is found or was seen before. -/
theorem mem_visitFrom_of_edge (h : a ∈ g.visitFrom stack seen) (hab : g.Edge a b) :
    b ∈ seen ∨ b ∈ g.visitFrom stack seen := by
  induction stack, seen using visitFrom.induct g with
  | case1 => simp [visitFrom] at h
  | case2 seen m rest ih =>
      rw [visitFrom, List.mem_cons] at h ⊢
      have hfresh : b ∈ g.fresh seen (g.succs m) →
          b ∈ g.visitFrom (g.fresh seen (g.succs m) ++ rest) (g.fresh seen (g.succs m) ++ seen) :=
        fun hb => mem_visitFrom_of_mem_stack (List.mem_append_left _ hb)
      rcases h with rfl | h
      · by_cases hb : b ∈ seen
        · exact .inl hb
        · exact .inr (.inr (hfresh (mem_fresh.mpr ⟨hab.1, hab.2, hb⟩)))
      · rcases ih h with hb | hb
        · exact (List.mem_append.mp hb).elim (fun hb => .inr (.inr (hfresh hb))) .inl
        · exact .inr (.inr hb)

/-- The search visits no node twice, as it marks what it puts on the stack. -/
theorem nodup_visitFrom (hnd : stack.Nodup) (hsub : ∀ n ∈ stack, n ∈ seen) :
    (g.visitFrom stack seen).Nodup ∧
      ∀ n ∈ g.visitFrom stack seen, n ∈ stack ∨ n ∉ seen := by
  induction stack, seen using visitFrom.induct g with
  | case1 => simp [visitFrom]
  | case2 seen m rest ih =>
      obtain ⟨hm, hrest⟩ := List.nodup_cons.mp hnd
      have hdis : ∀ x ∈ g.fresh seen (g.succs m), x ∉ seen := fun x hx => (mem_fresh.mp hx).2.2
      obtain ⟨ihnd, ihnew⟩ := ih
        (List.nodup_append.mpr ⟨nodup_fresh .., hrest, fun x hx y hy e =>
          hdis x hx (e ▸ hsub y (List.mem_cons_of_mem _ hy))⟩)
        (fun n hn => List.mem_append.mpr ((List.mem_append.mp hn).imp id
          fun h => hsub n (List.mem_cons_of_mem _ h)))
      rw [visitFrom]
      refine ⟨List.nodup_cons.mpr ⟨fun hin => ?_, ihnd⟩, fun n hn => ?_⟩
      · have hms : m ∈ seen := hsub m List.mem_cons_self
        rcases ihnew m hin with h | h
        · exact (List.mem_append.mp h).elim (fun h => hdis m h hms) hm
        · exact h (List.mem_append_right _ hms)
      · rcases List.mem_cons.mp hn with rfl | hn
        · exact .inl List.mem_cons_self
        · rcases ihnew n hn with h | h
          · rcases List.mem_append.mp h with h | h
            · exact .inr (hdis n h)
            · exact .inl (List.mem_cons_of_mem _ h)
          · exact .inr fun hs => h (List.mem_append_right _ hs)

/-- What can be reached from live roots. -/
theorem mem_closure :
    n ∈ g.closure roots ↔ ∃ r ∈ roots, g.isLive r = true ∧ g.Reaches r n := by
  constructor
  · intro h
    obtain ⟨r, hr, hrn⟩ := reaches_of_mem_visitFrom h
    obtain ⟨hr, hl, -⟩ := mem_fresh.mp hr
    exact ⟨r, hr, hl, hrn⟩
  · rintro ⟨r, hr, hl, hrn⟩
    have hroots : ∀ x ∈ g.fresh [] roots, x ∈ g.closure roots := fun x hx =>
      mem_visitFrom_of_mem_stack hx
    induction hrn with
    | refl => exact hroots r (mem_fresh.mpr ⟨hr, hl, List.not_mem_nil⟩)
    | tail _ he ih => exact (mem_visitFrom_of_edge ih he).elim (hroots _) id

/-- The search finds what its root leads to. -/
theorem mem_dfs : n ∈ g.dfs root ↔ g.isLive root = true ∧ g.Reaches root n := by
  simp [dfs, mem_closure]

theorem isLive_of_reaches (ha : g.isLive a = true) (h : g.Reaches a b) : g.isLive b = true := by
  cases h with
  | refl => exact ha
  | tail _ he => exact he.2

theorem nodup_dfs (g : Digraph) (root : NodeId) : (g.dfs root).Nodup :=
  (nodup_visitFrom (nodup_fresh ..) fun _ h => h).1

/-! ### Open frames -/

section Frames

variable {frames : List (NodeId × List NodeId)}

/-- The open nodes are found. -/
theorem mem_finishFrom_of_mem_frames {f : NodeId × List NodeId} (h : f ∈ frames) :
    f.1 ∈ g.finishFrom frames seen := by
  induction frames, seen using finishFrom.induct g generalizing f with
  | case1 => cases h
  | case2 seen m rest ih =>
      rw [finishFrom, List.mem_cons]
      rcases List.mem_cons.mp h with rfl | h
      · exact .inl rfl
      · exact .inr (ih h)
  | case3 seen m s more rest hs ih =>
      rw [finishFrom, dif_pos hs]
      rcases List.mem_cons.mp h with rfl | h
      · exact ih (f := (m, more)) (by simp)
      · exact ih (List.mem_cons_of_mem _ (List.mem_cons_of_mem _ h))
  | case4 seen m s more rest hs ih =>
      rw [finishFrom, dif_neg hs]
      rcases List.mem_cons.mp h with rfl | h
      · exact ih (f := (m, more)) List.mem_cons_self
      · exact ih (List.mem_cons_of_mem _ h)

/-- The frames of a search under way: each is of a node that was seen, and was entered from those
below it. -/
structure Open (g : Digraph) (frames : List (NodeId × List NodeId)) (seen : List NodeId) :
    Prop where
  /-- What is still to be looked at are targets of edges. -/
  ahead : ∀ f ∈ frames, ∀ s ∈ f.2, s ∈ g.succs f.1
  /-- What is not has been seen. -/
  behind : ∀ f ∈ frames, ∀ s, g.Edge f.1 s → s ∈ f.2 ∨ s ∈ seen
  marked : ∀ f ∈ frames, f.1 ∈ seen
  nested : frames.Pairwise fun f e => f.1 ≠ e.1 ∧ g.Reaches e.1 f.1

namespace Open

variable {s : NodeId} {more : List NodeId} {rest : List (NodeId × List NodeId)}

/-- The search with frames begins with the root entered. -/
theorem start (g : Digraph) (root : NodeId) : g.Open [(root, g.succs root)] [root] where
  ahead f hf s hs := by rwa [List.mem_singleton.mp hf] at hs ⊢
  behind f hf s hs := by
    rw [List.mem_singleton.mp hf] at hs ⊢
    exact .inl hs.1
  marked f hf := by
    rw [List.mem_singleton.mp hf]
    exact List.mem_cons_self
  nested := List.pairwise_singleton ..

/-- A node is finished when it has nothing more to look at. -/
theorem leave (h : g.Open ((n, []) :: rest) seen) : g.Open rest seen where
  ahead := (List.forall_mem_cons.mp h.ahead).2
  behind := (List.forall_mem_cons.mp h.behind).2
  marked := (List.forall_mem_cons.mp h.marked).2
  nested := (List.pairwise_cons.mp h.nested).2

/-- A node that was not seen is opened on top of the one that leads to it. -/
theorem enter (h : g.Open ((n, s :: more) :: rest) seen) (hs : g.isLive s = true ∧ s ∉ seen) :
    g.Open ((s, g.succs s) :: (n, more) :: rest) (s :: seen) := by
  obtain ⟨hahead, haheads⟩ := List.forall_mem_cons.mp h.ahead
  obtain ⟨hbehind, hbehinds⟩ := List.forall_mem_cons.mp h.behind
  obtain ⟨hmarked, hmarkeds⟩ := List.forall_mem_cons.mp h.marked
  obtain ⟨hnested, hnesteds⟩ := List.pairwise_cons.mp h.nested
  have hedge : g.Edge n s := ⟨hahead s List.mem_cons_self, hs.1⟩
  refine ⟨List.forall_mem_cons.mpr ⟨fun _ => id, List.forall_mem_cons.mpr ⟨fun t ht =>
      hahead t (List.mem_cons_of_mem _ ht), haheads⟩⟩,
    List.forall_mem_cons.mpr ⟨fun t ht => .inl ht.1, List.forall_mem_cons.mpr
      ⟨fun t ht => ?behind, fun f hf t ht => (hbehinds f hf t ht).imp id (.tail _)⟩⟩,
    List.forall_mem_cons.mpr ⟨List.mem_cons_self, List.forall_mem_cons.mpr
      ⟨.tail _ hmarked, fun f hf => .tail _ (hmarkeds f hf)⟩⟩,
    List.pairwise_cons.mpr ⟨List.forall_mem_cons.mpr ⟨⟨?new, .single hedge⟩, fun f hf =>
      ⟨?news, (hnested f hf).2.tail hedge⟩⟩, List.pairwise_cons.mpr ⟨hnested, hnesteds⟩⟩⟩
  case behind =>
    have := hbehind t ht
    simp only [List.mem_cons] at this ⊢
    tauto
  case new => exact fun e : s = n => hs.2 (e ▸ hmarked)
  case news => exact fun e : s = f.1 => hs.2 (e ▸ hmarkeds f hf)

/-- What was seen, or is not a node, is passed over. -/
theorem pass (h : g.Open ((n, s :: more) :: rest) seen) (hs : ¬(g.isLive s = true ∧ s ∉ seen)) :
    g.Open ((n, more) :: rest) seen := by
  obtain ⟨hahead, haheads⟩ := List.forall_mem_cons.mp h.ahead
  obtain ⟨hbehind, hbehinds⟩ := List.forall_mem_cons.mp h.behind
  obtain ⟨hmarked, hmarkeds⟩ := List.forall_mem_cons.mp h.marked
  refine ⟨List.forall_mem_cons.mpr ⟨fun t ht => hahead t (.tail _ ht), haheads⟩,
    List.forall_mem_cons.mpr ⟨fun t ht => ?_, hbehinds⟩,
    List.forall_mem_cons.mpr ⟨hmarked, hmarkeds⟩, List.pairwise_cons.mpr
      (List.pairwise_cons.mp h.nested)⟩
  rcases hbehind t ht with hm | hm
  · rcases List.mem_cons.mp hm with rfl | hm
    · exact .inr (by_contra fun hseen => hs ⟨ht.2, hseen⟩)
    · exact .inl hm
  · exact .inr hm

end Open

/-- What is found can be reached from an open node. -/
theorem reaches_of_mem_finishFrom (ho : g.Open frames seen) (h : n ∈ g.finishFrom frames seen) :
    ∃ f ∈ frames, g.Reaches f.1 n := by
  induction frames, seen using finishFrom.induct g with
  | case1 => simp [finishFrom] at h
  | case2 seen m rest ih =>
      rw [finishFrom, List.mem_cons] at h
      rcases h with rfl | h
      · exact ⟨_, List.mem_cons_self, .refl⟩
      · obtain ⟨f, hf, hfn⟩ := ih ho.leave h
        exact ⟨f, List.mem_cons_of_mem _ hf, hfn⟩
  | case3 seen m s more rest hs ih =>
      rw [finishFrom, dif_pos hs] at h
      have hms : s ∈ g.succs m := ho.ahead (m, s :: more) List.mem_cons_self s List.mem_cons_self
      obtain ⟨f, hf, hfn⟩ := ih (ho.enter hs) h
      rcases List.mem_cons.mp hf with rfl | hf
      · exact ⟨_, List.mem_cons_self, .head ⟨hms, hs.1⟩ hfn⟩
      rcases List.mem_cons.mp hf with rfl | hf
      · exact ⟨_, List.mem_cons_self, hfn⟩
      · exact ⟨f, List.mem_cons_of_mem _ hf, hfn⟩
  | case4 seen m s more rest hs ih =>
      rw [finishFrom, dif_neg hs] at h
      obtain ⟨f, hf, hfn⟩ := ih (ho.pass hs) h
      rcases List.mem_cons.mp hf with rfl | hf
      · exact ⟨_, List.mem_cons_self, hfn⟩
      · exact ⟨f, List.mem_cons_of_mem _ hf, hfn⟩

/-- Every edge from what is found leads to what is found or was seen. -/
theorem mem_finishFrom_of_edge (ho : g.Open frames seen) (h : a ∈ g.finishFrom frames seen)
    (hab : g.Edge a b) : b ∈ seen ∨ b ∈ g.finishFrom frames seen := by
  induction frames, seen using finishFrom.induct g with
  | case1 => simp [finishFrom] at h
  | case2 seen m rest ih =>
      rw [finishFrom, List.mem_cons] at h ⊢
      rcases h with rfl | h
      · exact .inl ((ho.behind _ List.mem_cons_self b hab).resolve_left List.not_mem_nil)
      · exact (ih ho.leave h).imp id .inr
  | case3 seen m s more rest hs ih =>
      rw [finishFrom, dif_pos hs] at h ⊢
      rcases ih (ho.enter hs) h with hb | hb
      · rcases List.mem_cons.mp hb with rfl | hb
        · exact .inr (mem_finishFrom_of_mem_frames (f := (b, g.succs b)) List.mem_cons_self)
        · exact .inl hb
      · exact .inr hb
  | case4 seen m s more rest hs ih =>
      rw [finishFrom, dif_neg hs] at h ⊢
      exact ih (ho.pass hs) h

/-- What is found is open or was not seen, and is found once. -/
theorem nodup_finishFrom (ho : g.Open frames seen) :
    (g.finishFrom frames seen).Nodup ∧
      ∀ n ∈ g.finishFrom frames seen, n ∈ frames.map Prod.fst ∨ n ∉ seen := by
  induction frames, seen using finishFrom.induct g with
  | case1 => simp [finishFrom]
  | case2 seen m rest ih =>
      -- the node that is left is not open below, and was seen, so it is not found again
      obtain ⟨ihnd, ihnew⟩ := ih ho.leave
      have hm : m ∉ rest.map Prod.fst := fun h => by
        obtain ⟨f, hf, rfl⟩ := List.mem_map.mp h
        exact ((List.pairwise_cons.mp ho.nested).1 f hf).1 rfl
      have hms : m ∈ seen := ho.marked (m, []) List.mem_cons_self
      rw [finishFrom]
      refine ⟨List.nodup_cons.mpr ⟨fun h => (ihnew m h).elim hm fun h => h hms, ihnd⟩,
        fun n hn => ?_⟩
      rcases List.mem_cons.mp hn with rfl | hn
      · exact .inl List.mem_cons_self
      · exact (ihnew n hn).imp (List.mem_cons_of_mem _) id
  | case3 seen m s more rest hs ih =>
      obtain ⟨ihnd, ihnew⟩ := ih (ho.enter hs)
      rw [finishFrom, dif_pos hs]
      refine ⟨ihnd, fun n hn => ?_⟩
      rcases ihnew n hn with h | h
      · rcases List.mem_cons.mp h with rfl | h
        · exact .inr hs.2
        · exact .inl h
      · exact .inr fun hseen => h (List.mem_cons_of_mem _ hseen)
  | case4 seen m s more rest hs ih =>
      rw [finishFrom, dif_neg hs]
      exact ih (ho.pass hs)

/-- A node is found after those that its edges lead to, unless they lead back to it. -/
theorem pairwise_finishFrom (ho : g.Open frames seen) :
    (g.finishFrom frames seen).Pairwise fun a b => g.Edge a b → g.Reaches b a := by
  induction frames, seen using finishFrom.induct g with
  | case1 =>
      rw [finishFrom]
      exact .nil
  | case2 seen m rest ih =>
      rw [finishFrom]
      refine List.pairwise_cons.mpr ⟨fun b hb hab => ?_, ih ho.leave⟩
      -- what is found later although it was seen is still open, and so leads to this node
      have hseen : b ∈ seen :=
        (ho.behind _ List.mem_cons_self b hab).resolve_left List.not_mem_nil
      obtain ⟨f, hf, rfl⟩ := List.mem_map.mp
        (((nodup_finishFrom ho.leave).2 b hb).resolve_right fun h => h hseen)
      exact ((List.pairwise_cons.mp ho.nested).1 f hf).2
  | case3 seen m s more rest hs ih =>
      rw [finishFrom, dif_pos hs]
      exact ih (ho.enter hs)
  | case4 seen m s more rest hs ih =>
      rw [finishFrom, dif_neg hs]
      exact ih (ho.pass hs)

end Frames

/-- The search with frames finishes the nodes that its root leads to. -/
theorem mem_postorder : n ∈ g.postorder root ↔ g.isLive root = true ∧ g.Reaches root n := by
  rw [postorder]
  split
  · next hl =>
      have hroot : root ∈ g.finishFrom [(root, g.succs root)] [root] :=
        mem_finishFrom_of_mem_frames (f := (root, g.succs root)) List.mem_cons_self
      refine ⟨fun h => ⟨hl, ?_⟩, fun h => ?_⟩
      · obtain ⟨f, hf, hfn⟩ := reaches_of_mem_finishFrom (.start g root) h
        rwa [List.mem_singleton.mp hf] at hfn
      · induction h.2 with
        | refl => exact hroot
        | tail hr he ih =>
            rcases mem_finishFrom_of_edge (.start g root) (ih ⟨hl, hr⟩) he with hb | hb
            · rwa [List.mem_singleton.mp hb]
            · exact hb
  · next hl => simp [hl]

theorem nodup_postorder (g : Digraph) (root : NodeId) : (g.postorder root).Nodup := by
  rw [postorder]
  split
  · exact (nodup_finishFrom (.start g root)).1
  · exact .nil

/-- In postorder every edge leads backwards, unless its target leads back to its source. -/
theorem pairwise_postorder (g : Digraph) (root : NodeId) :
    (g.postorder root).Pairwise fun a b => g.Edge a b → g.Reaches b a := by
  rw [postorder]
  split
  · exact pairwise_finishFrom (.start g root)
  · exact .nil

/-! ### Graphs that agree on what is searched -/

/-- Two graphs are the same on a set of nodes that no edge leaves. -/
structure AgreeOn (g h : Digraph) (P : NodeId → Prop) : Prop where
  isLive_eq : ∀ {n}, P n → h.isLive n = g.isLive n
  succs_eq : ∀ {n}, P n → h.succs n = g.succs n
  closed : ∀ {a b}, P a → b ∈ g.succs a → P b

namespace AgreeOn

variable {h : Digraph} {P : NodeId → Prop} {frames : List (NodeId × List NodeId)}

/-- Where the graphs agree the same nodes are fresh. -/
theorem fresh_eq (hgh : g.AgreeOn h P) (hns : ∀ n ∈ ns, P n) :
    h.fresh seen ns = g.fresh seen ns := by
  induction ns with
  | nil => rfl
  | cons n ns ih =>
      have ih := ih fun m hm => hns m (List.mem_cons_of_mem _ hm)
      simp only [fresh, List.foldr_cons] at ih ⊢
      rw [ih, hgh.isLive_eq (hns n List.mem_cons_self)]

/-- From nodes on which the graphs agree, a search takes the same steps in both. -/
theorem visitFrom_eq (hgh : g.AgreeOn h P) (hstack : ∀ n ∈ stack, P n) :
    h.visitFrom stack seen = g.visitFrom stack seen := by
  induction stack, seen using visitFrom.induct g with
  | case1 => rw [visitFrom, visitFrom]
  | case2 seen n rest ih =>
      have hn := hstack n List.mem_cons_self
      have hsuccs : ∀ m ∈ g.succs n, P m := fun m hm => hgh.closed hn hm
      rw [visitFrom, visitFrom, hgh.succs_eq hn, hgh.fresh_eq hsuccs, ih fun m hm => ?_]
      rcases List.mem_append.mp hm with hm | hm
      · exact hsuccs m (mem_fresh.mp hm).1
      · exact hstack m (List.mem_cons_of_mem _ hm)

/-- A search from roots where they agree is the same. -/
theorem closure_eq (hgh : g.AgreeOn h P) (hroots : ∀ r ∈ roots, P r) :
    h.closure roots = g.closure roots := by
  rw [closure, closure, hgh.fresh_eq hroots,
    hgh.visitFrom_eq fun _ hr => hroots _ (mem_fresh.mp hr).1]

theorem dfs_eq (hgh : g.AgreeOn h P) (hroot : P root) : h.dfs root = g.dfs root :=
  hgh.closure_eq fun _ hr => List.mem_singleton.mp hr ▸ hroot

/-- So is the search with frames. -/
theorem finishFrom_eq (hgh : g.AgreeOn h P) (hframes : ∀ f ∈ frames, ∀ s ∈ f.2, P s) :
    h.finishFrom frames seen = g.finishFrom frames seen := by
  induction frames, seen using finishFrom.induct g with
  | case1 => rw [finishFrom, finishFrom]
  | case2 seen n rest ih =>
      rw [finishFrom, finishFrom, ih fun f hf => hframes f (List.mem_cons_of_mem _ hf)]
  | case3 seen n s more rest hs ih =>
      have hP : P s := hframes (n, s :: more) List.mem_cons_self s List.mem_cons_self
      rw [finishFrom, finishFrom, dif_pos hs, dif_pos (hgh.isLive_eq hP ▸ hs), hgh.succs_eq hP,
        ih fun f hf t ht => ?_]
      rcases List.mem_cons.mp hf with rfl | hf
      · exact hgh.closed hP ht
      rcases List.mem_cons.mp hf with rfl | hf
      · exact hframes (n, s :: more) List.mem_cons_self t (List.mem_cons_of_mem _ ht)
      · exact hframes f (List.mem_cons_of_mem _ hf) t ht
  | case4 seen n s more rest hs ih =>
      have hP : P s := hframes (n, s :: more) List.mem_cons_self s List.mem_cons_self
      rw [finishFrom, finishFrom, dif_neg hs, dif_neg (hgh.isLive_eq hP ▸ hs),
        ih fun f hf t ht => ?_]
      rcases List.mem_cons.mp hf with rfl | hf
      · exact hframes (n, s :: more) List.mem_cons_self t (List.mem_cons_of_mem _ ht)
      · exact hframes f (List.mem_cons_of_mem _ hf) t ht

theorem postorder_eq (hgh : g.AgreeOn h P) (hroot : P root) :
    h.postorder root = g.postorder root := by
  rw [postorder, postorder, hgh.isLive_eq hroot, hgh.succs_eq hroot,
    hgh.finishFrom_eq fun f hf => ?_]
  rw [List.mem_singleton.mp hf]
  exact fun s hs => hgh.closed hroot hs

end AgreeOn

end Digraph

namespace Graph

variable {g : Graph} {a b n s : NodeId}

/-- A path of edges leads from one node to another. -/
def Reaches (g : Graph) : NodeId → NodeId → Prop :=
  Relation.ReflTransGen fun a b => b ∈ g.succs a

/-- In a linked graph all successors are live, so that every edge can be followed. -/
theorem Linked.flow_reaches (hg : g.Linked) : g.flow.Reaches a b ↔ g.Reaches a b := by
  have he : g.flow.Edge = fun a b => b ∈ g.succs a := by
    funext x y
    exact propext ⟨And.left, fun h => ⟨h, hg.isLive_succ h⟩⟩
  rw [Digraph.Reaches, he, Reaches]

/-- What a node leads to is live. -/
theorem Linked.isLive_of_reaches (hg : g.Linked) (ha : g.isLive a = true) (h : g.Reaches a b) :
    g.isLive b = true := by
  cases h with
  | refl => exact ha
  | tail _ hb => exact hg.isLive_succ hb

/-- The search from a live start finds what paths from the start lead to. -/
theorem Linked.mem_reachable (hg : g.Linked) (hs : g.start = some s) (hl : g.isLive s = true) :
    n ∈ g.reachable ↔ g.Reaches s n := by
  rw [reachable, hs, Option.map_some, Option.getD_some, Digraph.mem_dfs, hg.flow_reaches]
  exact and_iff_right hl

/-- The search finds nothing but nodes. -/
theorem isLive_of_mem_reachable (h : n ∈ g.reachable) : g.isLive n = true := by
  rw [reachable] at h
  cases hs : g.start with
  | none => simp [hs] at h
  | some s =>
      rw [hs] at h
      obtain ⟨hl, hr⟩ := Digraph.mem_dfs.mp h
      exact Digraph.isLive_of_reaches hl hr

theorem nodup_reachable (g : Graph) : g.reachable.Nodup := by
  rw [reachable]
  cases g.start with
  | none => exact .nil
  | some s => exact Digraph.nodup_dfs ..

end Graph

end Flowgraph

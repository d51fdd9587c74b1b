import Flowgraph.Graph.Edit

/-!
# The view of a changed graph

What kinds, successors and predecessors a graph has after one of its slots was changed, and after
the compound changes that operations on graphs are made of.

* `preds_link`, `preds_unlink`: a predecessor list after one edge was listed or struck.
* `mem_preds_linkAll`: after the edges of a new node were listed.
* `succs_rerouted`, `preds_rerouted`: after edges to a node were led to another one.
-/

namespace Flowgraph

namespace Kind

@[simp] theorem isStart_iff {k : Kind} : k.isStart = true ↔ k = .start := by
  cases k <;> simp [isStart]

@[simp] theorem isSelfLoop_iff {k : Kind} : k.isSelfLoop = true ↔ k = .selfLoop := by
  cases k <;> simp [isSelfLoop]

@[simp] theorem isStub_iff {k : Kind} : k.isStub = true ↔ k = .stub := by
  cases k <;> simp [isStub]

end Kind

namespace Graph

variable {g : Graph} {a b id : NodeId} {n : Node}

/-- Graphs with the same nodes in as many slots and with the same start are the same. -/
theorem eq_of_node? {h : Graph} (hb : g.bound = h.bound) (hs : g.start = h.start)
    (hn : ∀ id, g.node? id = h.node? id) : g = h := by
  obtain ⟨slots, start⟩ := g
  obtain ⟨slots', start'⟩ := h
  obtain rfl : start = start' := hs
  have hslots : slots = slots' := Array.ext hb fun i hi hi' => by
    have hslot := hn i
    simpa [node?, Array.getElem?_eq_getElem hi, Array.getElem?_eq_getElem hi'] using hslot
  rw [hslots]

/-! ### Queries read the view -/

/-- A slot is live if it holds a node. -/
theorem isLive_iff : g.isLive id = true ↔ ∃ n, g.node? id = some n := Option.isSome_iff_exists

theorem isLive_eq_false_iff : g.isLive id = false ↔ g.node? id = none := by simp [isLive]

theorem isLive_iff_kind? : g.isLive id = true ↔ ∃ k, g.kind? id = some k := by
  rw [isLive_iff, kind?]
  cases g.node? id <;> simp

theorem kind?_of_node? (h : g.node? id = some n) : g.kind? id = some n.kind := by simp [kind?, h]

theorem succs_of_node? (h : g.node? id = some n) : g.succs id = n.succs := by simp [succs, h]

theorem preds_of_node? (h : g.node? id = some n) : g.preds id = n.preds := by simp [preds, h]

/-- A node is its kind and its two lists. -/
theorem node?_eq (g : Graph) (id : NodeId) :
    g.node? id = (g.kind? id).map fun k => ⟨k, g.succs id, g.preds id⟩ := by
  simp only [kind?, succs, preds]
  cases g.node? id <;> rfl

/-- Graphs that answer all queries in the same way are the same. -/
theorem eq_of_views {h : Graph} (hb : g.bound = h.bound) (hs : g.start = h.start)
    (hkind : ∀ id, g.kind? id = h.kind? id) (hsuccs : ∀ id, g.succs id = h.succs id)
    (hpreds : ∀ id, g.preds id = h.preds id) : g = h :=
  eq_of_node? hb hs fun id => by rw [node?_eq, node?_eq, hkind, hsuccs, hpreds]

theorem isLive_of_kind? {k : Kind} (h : g.kind? id = some k) : g.isLive id = true :=
  isLive_iff_kind?.mpr ⟨k, h⟩

/-- Only nodes have successors. -/
theorem isLive_of_mem_succs (h : b ∈ g.succs a) : g.isLive a = true := by
  rw [isLive_iff]
  cases hn : g.node? a with
  | none => simp [succs, hn] at h
  | some n => exact ⟨n, rfl⟩

/-- The next slot is free. -/
theorem isLive_bound (g : Graph) : g.isLive g.bound = false := by
  rw [isLive_eq_false_iff, node?_eq_none_of_bound_le (Nat.le_refl _)]

theorem mem_ids : id ∈ g.ids ↔ g.isLive id = true := by
  simp only [ids, List.mem_filter, List.mem_range, and_iff_right_iff_imp]
  exact lt_bound_of_isLive

/-! ### Filling and vacating a slot -/

section Push

variable (g n id)

@[simp] theorem start_push : (g.push n).start = g.start := rfl

/-- A new node has its kind. -/
theorem kind?_push : (g.push n).kind? id = if id = g.bound then some n.kind else g.kind? id := by
  simp only [kind?, node?_push]; split <;> rfl

theorem succs_push : (g.push n).succs id = if id = g.bound then n.succs else g.succs id := by
  simp only [succs, node?_push]; split <;> rfl

theorem preds_push : (g.push n).preds id = if id = g.bound then n.preds else g.preds id := by
  simp only [preds, node?_push]; split <;> rfl

theorem isLive_push :
    (g.push n).isLive id = if id = g.bound then true else g.isLive id := by
  simp only [isLive, node?_push]; split <;> rfl

end Push

section Vacate

variable (g) (v : NodeId) (id)

@[simp] theorem start_vacate : (g.vacate v).start = g.start := rfl

/-- A vacant slot has no kind. -/
theorem kind?_vacate : (g.vacate v).kind? id = if v = id then none else g.kind? id := by
  simp only [kind?, node?_vacate]; split <;> rfl

theorem succs_vacate : (g.vacate v).succs id = if v = id then [] else g.succs id := by
  simp only [succs, node?_vacate]; split <;> rfl

theorem preds_vacate : (g.vacate v).preds id = if v = id then [] else g.preds id := by
  simp only [preds, node?_vacate]; split <;> rfl

theorem isLive_vacate : (g.vacate v).isLive id = if v = id then false else g.isLive id := by
  simp only [isLive, node?_vacate]; split <;> rfl

end Vacate

/-! ### Changing a node in place -/

section Update

variable (g) (m : NodeId) (f : Node → Node) (id)

@[simp] theorem start_update : (g.update m f).start = g.start := rfl

@[simp] theorem isLive_update : (g.update m f).isLive id = g.isLive id := by
  simp only [isLive, node?_update]; split <;> simp

/-- A change that keeps the kind of a node is not seen in the kinds. -/
theorem kind?_update (hf : ∀ n, (f n).kind = n.kind) :
    (g.update m f).kind? id = g.kind? id := by
  simp only [kind?, node?_update]
  split
  · cases g.node? id <;> simp [hf]
  · rfl

/-- A change of one node is seen in its own lists alone. -/
theorem succs_update :
    (g.update m f).succs id =
      if m = id then ((g.node? id).map fun n => (f n).succs).getD [] else g.succs id := by
  simp only [succs, node?_update]; split <;> simp [Function.comp_def]

theorem preds_update :
    (g.update m f).preds id =
      if m = id then ((g.node? id).map fun n => (f n).preds).getD [] else g.preds id := by
  simp only [preds, node?_update]; split <;> simp [Function.comp_def]

end Update

section Link

variable (g) (source target id : NodeId)

@[simp] theorem bound_link : (g.link source target).bound = g.bound := bound_update ..

@[simp] theorem start_link : (g.link source target).start = g.start := rfl

@[simp] theorem isLive_link : (g.link source target).isLive id = g.isLive id := isLive_update ..

@[simp] theorem kind?_link : (g.link source target).kind? id = g.kind? id :=
  kind?_update _ _ _ _ fun n => by split <;> rfl

@[simp] theorem succs_link : (g.link source target).succs id = g.succs id := by
  rw [link, succs_update]
  split
  · rw [succs]; congr 2; funext n; split <;> rfl
  · rfl

variable {g source target}

/-- A predecessor is listed at the end, unless it was listed before. -/
theorem preds_link :
    (g.link source target).preds b =
      if b = target ∧ g.isLive target = true ∧ source ∉ g.preds target then g.preds b ++ [source]
      else g.preds b := by
  rw [link, preds_update]
  by_cases hb : target = b
  · subst hb
    rw [if_pos rfl, isLive, preds]
    cases g.node? target with
    | none => simp
    | some n =>
        simp only [Option.map_some, Option.getD_some, Option.isSome_some, true_and]
        split
        · rfl
        · rfl
  · rw [if_neg hb, if_neg fun h => hb h.1.symm]

/-- A link adds one predecessor, at a live target. -/
theorem mem_preds_link :
    a ∈ (g.link source target).preds b ↔
      a ∈ g.preds b ∨ a = source ∧ b = target ∧ g.isLive target = true := by
  rw [preds_link]
  grind

/-- No predecessor comes to be listed twice. -/
theorem nodup_preds_link (h : (g.preds b).Nodup) : ((g.link source target).preds b).Nodup := by
  rw [preds_link]
  split
  · exact List.nodup_append.mpr ⟨h, by simp, by grind⟩
  · exact h

end Link

section Unlink

variable (g) (source target id : NodeId)

@[simp] theorem bound_unlink : (g.unlink source target).bound = g.bound := by
  rw [unlink]; split <;> simp

@[simp] theorem start_unlink : (g.unlink source target).start = g.start := by
  rw [unlink]; split <;> rfl

@[simp] theorem isLive_unlink : (g.unlink source target).isLive id = g.isLive id := by
  rw [unlink]; split <;> simp

@[simp] theorem kind?_unlink : (g.unlink source target).kind? id = g.kind? id := by
  rw [unlink]
  split
  · rfl
  · exact kind?_update _ _ _ _ fun n => rfl

@[simp] theorem succs_unlink : (g.unlink source target).succs id = g.succs id := by
  rw [unlink]
  split
  · rfl
  · rw [succs_update]; split <;> rfl

variable {g source target}

/-- A predecessor is struck off, unless it still has an edge. -/
theorem preds_unlink :
    (g.unlink source target).preds b =
      if b = target ∧ target ∉ g.succs source then (g.preds b).filter fun p => p ≠ source
      else g.preds b := by
  rw [unlink]
  split
  · next h => rw [if_neg fun hb => hb.2 h]
  · next h =>
      rw [preds_update]
      by_cases hb : target = b
      · subst hb
        rw [if_pos rfl, if_pos ⟨rfl, h⟩, preds]
        cases g.node? target <;> rfl
      · rw [if_neg hb, if_neg fun h => hb h.1.symm]

/-- A predecessor is taken off when no edge of it is left. -/
theorem mem_preds_unlink :
    a ∈ (g.unlink source target).preds b ↔
      a ∈ g.preds b ∧ ¬(a = source ∧ b = target ∧ target ∉ g.succs source) := by
  rw [preds_unlink]
  grind

theorem nodup_preds_unlink (h : (g.preds b).Nodup) :
    ((g.unlink source target).preds b).Nodup := by
  rw [preds_unlink]
  split
  · exact h.filter _
  · exact h

end Unlink

/-- Where an edge to `s` leads when edges to `old` lead to `new` instead. -/
def divert (old new s : NodeId) : NodeId := if s = old then new else s

@[simp] theorem divert_self (old new : NodeId) : divert old new old = new := if_pos rfl

/-- Edges to other nodes are left alone. -/
theorem divert_of_ne {old new s : NodeId} (h : s ≠ old) : divert old new s = s := if_neg h

theorem divert_divert (old new s : NodeId) :
    divert old new (divert old new s) = divert old new s := by
  unfold divert; grind

theorem map_divert_of_not_mem {old new : NodeId} {l : List NodeId} (h : old ∉ l) :
    l.map (divert old new) = l := by
  have hid : ∀ s ∈ l, divert old new s = id s := fun s hs =>
    divert_of_ne fun e => h (e ▸ hs)
  rw [List.map_congr_left hid, List.map_id]

theorem map_divert_self (old : NodeId) (l : List NodeId) : l.map (divert old old) = l := by
  refine List.map_id'' (fun s => ?_) l
  by_cases h : s = old
  · rw [h, divert_self]
  · exact divert_of_ne h

/-- After all edges to one node have been diverted, none leads there. -/
theorem mem_map_divert {old new s : NodeId} {l : List NodeId} (h : old ≠ new) :
    s ∈ l.map (divert old new) ↔ s ∈ l ∧ s ≠ old ∨ s = new ∧ (old ∈ l ∨ new ∈ l) := by
  simp only [List.mem_map, divert]; grind

section Retarget

variable (g) (source old new id : NodeId)

@[simp] theorem bound_retarget : (g.retarget source old new).bound = g.bound := bound_update ..

@[simp] theorem start_retarget : (g.retarget source old new).start = g.start := rfl

@[simp] theorem isLive_retarget : (g.retarget source old new).isLive id = g.isLive id :=
  isLive_update ..

@[simp] theorem kind?_retarget : (g.retarget source old new).kind? id = g.kind? id :=
  kind?_update _ _ _ _ fun _ => rfl

@[simp] theorem preds_retarget : (g.retarget source old new).preds id = g.preds id := by
  rw [retarget, preds_update]; split <;> rfl

/-- Only the edges of the source are diverted. -/
theorem succs_retarget :
    (g.retarget source old new).succs id =
      if source = id then (g.succs id).map (divert old new) else g.succs id := by
  rw [retarget, succs_update]
  split
  · rw [succs]; cases g.node? id <;> rfl
  · rfl

end Retarget

section Restrict

variable (g) (keep : NodeId → Bool) (id)

@[simp] theorem bound_restrict : (g.restrict keep).bound = g.bound := by simp [bound, restrict]

@[simp] theorem start_restrict : (g.restrict keep).start = g.start := rfl

theorem kind?_restrict :
    (g.restrict keep).kind? id = if keep id then g.kind? id else none := by
  simp only [kind?, node?_restrict]
  split
  · cases g.node? id <;> rfl
  · rfl

/-- The nodes that stay keep all their successors. -/
theorem succs_restrict :
    (g.restrict keep).succs id = if keep id then g.succs id else [] := by
  simp only [succs, node?_restrict]
  split
  · cases g.node? id <;> rfl
  · rfl

/-- Of their predecessors they keep those that stay. -/
theorem preds_restrict :
    (g.restrict keep).preds id = if keep id then (g.preds id).filter keep else [] := by
  simp only [preds, node?_restrict]
  split
  · cases g.node? id <;> rfl
  · rfl

theorem isLive_restrict :
    (g.restrict keep).isLive id = (keep id && g.isLive id) := by
  simp only [isLive, node?_restrict]
  split <;> simp [*]

end Restrict

/-! ### Listing the edges of a new node -/

/-- List `source` with each of `targets`. -/
def linkAll (g : Graph) (source : NodeId) (targets : List NodeId) : Graph :=
  targets.foldl (fun h t => h.link source t) g

section LinkAll

variable (g) (source : NodeId) (targets : List NodeId) (id)

@[simp] theorem bound_linkAll : (g.linkAll source targets).bound = g.bound := by
  induction targets generalizing g with
  | nil => rfl
  | cons t ts ih => exact (ih _).trans (bound_link ..)

@[simp] theorem start_linkAll : (g.linkAll source targets).start = g.start := by
  induction targets generalizing g with
  | nil => rfl
  | cons t ts ih => exact (ih _).trans (start_link ..)

@[simp] theorem isLive_linkAll : (g.linkAll source targets).isLive id = g.isLive id := by
  induction targets generalizing g with
  | nil => rfl
  | cons t ts ih => exact (ih _).trans (isLive_link ..)

@[simp] theorem kind?_linkAll : (g.linkAll source targets).kind? id = g.kind? id := by
  induction targets generalizing g with
  | nil => rfl
  | cons t ts ih => exact (ih _).trans (kind?_link ..)

@[simp] theorem succs_linkAll : (g.linkAll source targets).succs id = g.succs id := by
  induction targets generalizing g with
  | nil => rfl
  | cons t ts ih => exact (ih _).trans (succs_link ..)

variable {g source targets}

/-- Links to several nodes add one predecessor at each of them. -/
theorem mem_preds_linkAll :
    a ∈ (g.linkAll source targets).preds b ↔
      a ∈ g.preds b ∨ a = source ∧ b ∈ targets ∧ g.isLive b = true := by
  induction targets generalizing g with
  | nil => simp [linkAll]
  | cons t ts ih =>
      have := ih (g := g.link source t)
      rw [linkAll] at this ⊢
      rw [List.foldl_cons, this, mem_preds_link, isLive_link, List.mem_cons]
      grind

theorem nodup_preds_linkAll (h : (g.preds b).Nodup) :
    ((g.linkAll source targets).preds b).Nodup := by
  induction targets generalizing g with
  | nil => exact h
  | cons t ts ih => exact ih (nodup_preds_link h)

end LinkAll

/-! ### Putting a node in the place of another one -/

/-- Lead each of `ps` to `target` in place of `node`. -/
def rerouted (g : Graph) (node target : NodeId) (ps : List NodeId) : Graph :=
  ps.foldl (fun h p => (h.retarget p node target).link p target) g

/-- To bypass a node is to reroute its predecessors and then vacate its slot. -/
theorem bypass_eq (g : Graph) (node target : NodeId) (ps : List NodeId) :
    g.bypass node target ps = (g.rerouted node target ps).vacate node := rfl

section Rerouted

variable (g) (node target : NodeId) (ps : List NodeId) (id)

@[simp] theorem bound_rerouted : (g.rerouted node target ps).bound = g.bound := by
  induction ps generalizing g with
  | nil => rfl
  | cons p ps ih => exact (ih _).trans (by simp)

@[simp] theorem start_rerouted : (g.rerouted node target ps).start = g.start := by
  induction ps generalizing g with
  | nil => rfl
  | cons p ps ih => exact (ih _).trans (by simp)

@[simp] theorem isLive_rerouted : (g.rerouted node target ps).isLive id = g.isLive id := by
  induction ps generalizing g with
  | nil => rfl
  | cons p ps ih => exact (ih _).trans (by simp)

@[simp] theorem kind?_rerouted : (g.rerouted node target ps).kind? id = g.kind? id := by
  induction ps generalizing g with
  | nil => rfl
  | cons p ps ih => exact (ih _).trans (by simp)

/-- The predecessors lead to the target in its place. -/
theorem succs_rerouted :
    (g.rerouted node target ps).succs id =
      if id ∈ ps then (g.succs id).map (divert node target) else g.succs id := by
  induction ps generalizing g with
  | nil => simp [rerouted]
  | cons p ps ih =>
      have h := ih ((g.retarget p node target).link p target)
      rw [rerouted] at h ⊢
      rw [List.foldl_cons, h, succs_link, succs_retarget]
      by_cases hp : p = id
      · subst hp; simp [divert_divert]
      · simp [hp, Ne.symm hp]

variable {g node target ps}

/-- Nodes that are led elsewhere are listed there in their order, behind those listed before. -/
theorem preds_rerouted (hps : ps.Nodup) :
    (g.rerouted node target ps).preds b =
      if b = target ∧ g.isLive target = true then g.preds b ++ ps.filter fun p => p ∉ g.preds b
      else g.preds b := by
  induction ps generalizing g with
  | nil => simp [rerouted]
  | cons p ps ih =>
      obtain ⟨hp, hps⟩ := List.nodup_cons.mp hps
      have h := ih (g := (g.retarget p node target).link p target) hps
      rw [rerouted] at h ⊢
      rw [List.foldl_cons, h, preds_link, isLive_link, isLive_retarget, preds_retarget,
        preds_retarget]
      by_cases hb : b = target ∧ g.isLive target = true
      · obtain ⟨rfl, hl⟩ := hb
        -- the rest of the list does not hold the node that has just been listed
        have hrest : ps.filter (fun q => q ∉ g.preds b ++ [p]) =
            ps.filter fun q => q ∉ g.preds b := by
          refine List.filter_congr fun q hq => ?_
          have hne : q ≠ p := fun e => hp (e ▸ hq)
          simp [hne]
        by_cases hpb : p ∈ g.preds b
        · simp [hl, hpb]
        · simp only [hl, hpb, not_false_eq_true, and_self, if_true, hrest, List.append_assoc,
            List.singleton_append, List.filter_cons_of_pos, decide_true]
      · rw [if_neg hb, if_neg hb, if_neg fun h => hb ⟨h.1, h.2.1⟩]

/-- The target lists them, if it is live. -/
theorem mem_preds_rerouted :
    a ∈ (g.rerouted node target ps).preds b ↔
      a ∈ g.preds b ∨ a ∈ ps ∧ b = target ∧ g.isLive target = true := by
  induction ps generalizing g with
  | nil => simp [rerouted]
  | cons p ps ih =>
      have h := ih (g := (g.retarget p node target).link p target)
      rw [rerouted] at h ⊢
      rw [List.foldl_cons, h, mem_preds_link, preds_retarget, isLive_link, isLive_retarget,
        List.mem_cons]
      grind

theorem nodup_preds_rerouted (h : (g.preds b).Nodup) :
    ((g.rerouted node target ps).preds b).Nodup := by
  induction ps generalizing g with
  | nil => exact h
  | cons p ps ih =>
      refine ih (nodup_preds_link ?_)
      rwa [preds_retarget]

end Rerouted

end Graph

end Flowgraph

import Flowgraph.Proofs.Views

/-!
# Graphs whose lists fit together

A graph is *linked* when every node has the successors its kind calls for, every successor is a
node, and the predecessor lists say what the successor lists say, each predecessor once.  This is
what every change to a graph has to keep; it says nothing about the start.

* `Linked.attach`: kept when a node is added.
* `Linked.rewired`, `Linked.moveEdges`, `Linked.moveEdge`: kept when edges of one node are moved.
* `Linked.bypass`, `Linked.splice`, `Linked.vacate`: kept when a node is taken out.
* `Linked.restrict`: kept when only a set of nodes closed under successors stays.
* `Linked.restrict_congr`: what such a graph depends on.
-/

namespace Flowgraph.Graph

/-- Successor and predecessor lists fit the kinds of the nodes and each other. -/
structure Linked (g : Graph) : Prop where
  degree : ∀ {a k}, g.kind? a = some k → (g.succs a).length = k.degree
  selfLoop : ∀ {a}, g.kind? a = some .selfLoop → g.succs a = [a]
  isLive_succ : ∀ {a b}, b ∈ g.succs a → g.isLive b = true
  mem_preds : ∀ {a b}, a ∈ g.preds b ↔ b ∈ g.succs a
  nodup_preds : ∀ a, (g.preds a).Nodup

variable {g : Graph} {a b node target old new : NodeId} {kind : Kind} {succs : List NodeId}

/-! ### Compound changes -/

section Attach

variable (g) (kind : Kind) (succs : List NodeId) (id : NodeId)

/-- The successors of a node that is added. -/
def targetsOf : List NodeId := if kind.isSelfLoop then succs ++ [g.bound] else succs

theorem attach_eq :
    g.attach kind succs =
      if kind.isStart then
        { (g.push ⟨kind, g.targetsOf kind succs, []⟩).linkAll g.bound (g.targetsOf kind succs) with
          start := some g.bound }
      else (g.push ⟨kind, g.targetsOf kind succs, []⟩).linkAll g.bound (g.targetsOf kind succs) :=
  rfl

/-- Apart from the start, adding a node is filling a slot and listing its edges. -/
theorem node?_attach :
    (g.attach kind succs).node? id =
      ((g.push ⟨kind, g.targetsOf kind succs, []⟩).linkAll g.bound
        (g.targetsOf kind succs)).node? id := by
  rw [attach_eq]; split <;> rfl

@[simp] theorem bound_attach : (g.attach kind succs).bound = g.bound + 1 := by
  rw [attach_eq]
  split
  · exact (bound_linkAll ..).trans (bound_push ..)
  · exact (bound_linkAll ..).trans (bound_push ..)

/-- A start node becomes the start, and no other node does. -/
theorem start_attach :
    (g.attach kind succs).start = if kind.isStart then some g.bound else g.start := by
  rw [attach_eq]
  split
  · rfl
  · exact start_linkAll ..

theorem isLive_attach :
    (g.attach kind succs).isLive id = if id = g.bound then true else g.isLive id := by
  rw [isLive, node?_attach, ← isLive, isLive_linkAll, isLive_push]

/-- The new node has its kind, and all others keep theirs. -/
theorem kind?_attach :
    (g.attach kind succs).kind? id = if id = g.bound then some kind else g.kind? id := by
  rw [kind?, node?_attach, ← kind?, kind?_linkAll, kind?_push]

/-- The new node has its successors, and all others keep theirs. -/
theorem succs_attach :
    (g.attach kind succs).succs id =
      if id = g.bound then g.targetsOf kind succs else g.succs id := by
  rw [Graph.succs, node?_attach, ← Graph.succs, succs_linkAll, succs_push]

theorem preds_attach :
    (g.attach kind succs).preds id =
      ((g.push ⟨kind, g.targetsOf kind succs, []⟩).linkAll g.bound
        (g.targetsOf kind succs)).preds id := by
  rw [preds, node?_attach, ← preds]

end Attach

section Rewired

variable (g) (node old new : NodeId) (f : List NodeId → List NodeId) (id : NodeId)

/-- The successors of a node are changed by a function, which may take the edges to `old` away and
puts an edge to `new` in. -/
def rewired : Graph :=
  ((g.update node fun n => { n with succs := f n.succs }).unlink node old).link node new

@[simp] theorem bound_rewired : (g.rewired node old new f).bound = g.bound := by
  simp [rewired]

@[simp] theorem start_rewired : (g.rewired node old new f).start = g.start := by
  simp [rewired]

@[simp] theorem isLive_rewired : (g.rewired node old new f).isLive id = g.isLive id := by
  simp [rewired]

@[simp] theorem kind?_rewired : (g.rewired node old new f).kind? id = g.kind? id := by
  rw [rewired, kind?_link, kind?_unlink]
  exact kind?_update _ _ _ _ fun _ => rfl

variable {f}

/-- Only the node that is rewired changes its successors. -/
theorem succs_rewired (hf : f [] = []) :
    (g.rewired node old new f).succs id = if node = id then f (g.succs id) else g.succs id := by
  rw [rewired, succs_link, succs_unlink, succs_update]
  split
  · rw [Graph.succs]
    cases g.node? id with
    | none => exact hf.symm
    | some n => rfl
  · rfl

/-- It is taken off the predecessors of the old target if no edge is left, and listed at the new
one. -/
theorem mem_preds_rewired (hf : f [] = []) :
    a ∈ (g.rewired node old new f).preds b ↔
      a ∈ g.preds b ∧ ¬(a = node ∧ b = old ∧ old ∉ f (g.succs node)) ∨
        a = node ∧ b = new ∧ g.isLive new = true := by
  have hsuccs := succs_rewired g node old new node hf
  rw [rewired, succs_link, succs_unlink, if_pos rfl] at hsuccs
  have hpreds : (g.update node fun n => { n with succs := f n.succs }).preds b = g.preds b := by
    rw [preds_update]
    split <;> rfl
  rw [rewired, mem_preds_link, mem_preds_unlink, isLive_unlink, isLive_update, hsuccs, hpreds]

variable {g node old new}

theorem nodup_preds_rewired (h : (g.preds b).Nodup) :
    ((g.rewired node old new f).preds b).Nodup := by
  refine nodup_preds_link (nodup_preds_unlink ?_)
  rw [preds_update]
  split
  · exact h
  · exact h

/-- Moving all edges is such a rewiring. -/
theorem moveEdges_eq (h : old ≠ new) :
    g.moveEdges node old new = g.rewired node old new (List.map (divert old new)) :=
  if_neg h

/-- So is moving the edge at one position. -/
theorem moveEdge_eq (position : Nat) :
    g.moveEdge node position old new = g.rewired node old new fun l => l.set position new :=
  rfl

end Rewired

section MoveEdges

variable (g) (node old new id : NodeId)

@[simp] theorem bound_moveEdges : (g.moveEdges node old new).bound = g.bound := by
  rw [moveEdges]; split <;> simp

@[simp] theorem start_moveEdges : (g.moveEdges node old new).start = g.start := by
  rw [moveEdges]; split <;> simp

@[simp] theorem isLive_moveEdges : (g.moveEdges node old new).isLive id = g.isLive id := by
  rw [moveEdges]; split <;> simp

@[simp] theorem kind?_moveEdges : (g.moveEdges node old new).kind? id = g.kind? id := by
  rw [moveEdges]; split <;> simp

theorem succs_moveEdges :
    (g.moveEdges node old new).succs id =
      if node = id then (g.succs id).map (divert old new) else g.succs id := by
  by_cases h : old = new
  · rw [moveEdges, if_pos h, h, map_divert_self, ite_self]
  · rw [moveEdges_eq h, succs_rewired _ _ _ _ _ List.map_nil]

variable (position : Nat)

@[simp] theorem bound_moveEdge : (g.moveEdge node position old new).bound = g.bound := by
  rw [moveEdge_eq, bound_rewired]

@[simp] theorem start_moveEdge : (g.moveEdge node position old new).start = g.start := by
  rw [moveEdge_eq, start_rewired]

@[simp] theorem isLive_moveEdge : (g.moveEdge node position old new).isLive id = g.isLive id := by
  rw [moveEdge_eq, isLive_rewired]

@[simp] theorem kind?_moveEdge : (g.moveEdge node position old new).kind? id = g.kind? id := by
  rw [moveEdge_eq, kind?_rewired]

end MoveEdges

section Bypass

variable (g) (node target : NodeId) (ps : List NodeId) (id : NodeId)

@[simp] theorem bound_bypass : (g.bypass node target ps).bound = g.bound := by
  rw [bypass_eq]; simp

@[simp] theorem start_bypass : (g.bypass node target ps).start = g.start := by
  rw [bypass_eq]; simp

theorem isLive_bypass :
    (g.bypass node target ps).isLive id = if node = id then false else g.isLive id := by
  rw [bypass_eq, isLive_vacate, isLive_rerouted]

/-- Only the node that is bypassed goes. -/
theorem kind?_bypass :
    (g.bypass node target ps).kind? id = if node = id then none else g.kind? id := by
  rw [bypass_eq, kind?_vacate, kind?_rerouted]

variable {g}

/-- Once all predecessors of a node are led elsewhere, so is every edge to it. -/
theorem Linked.succs_bypass (hg : g.Linked) :
    (g.bypass node target (g.preds node)).succs id =
      if node = id then [] else (g.succs id).map (divert node target) := by
  rw [bypass_eq, succs_vacate, succs_rerouted]
  split
  · rfl
  · split
    · rfl
    · next h => rw [map_divert_of_not_mem fun hm => h (hg.mem_preds.mpr hm)]

/-- The target has its own predecessors and those of the node that went. -/
theorem Linked.mem_preds_bypass (hg : g.Linked) (ht : g.isLive target = true) :
    a ∈ (g.bypass node target (g.preds node)).preds b ↔
      b ≠ node ∧ (b ∈ g.succs a ∨ node ∈ g.succs a ∧ b = target) := by
  rw [bypass_eq, preds_vacate]
  split
  · next h => simp [h]
  · next h => simp [mem_preds_rerouted, hg.mem_preds, ht, Ne.symm h]

end Bypass

/-! ### What keeps a graph linked -/

/-- Where there is no node there is nothing to fit together. -/
theorem linked_empty : Graph.empty.Linked where
  degree h := by simp [kind?, node?, empty] at h
  selfLoop h := by simp [kind?, node?, empty] at h
  isLive_succ h := by simp [Graph.succs, node?, empty] at h
  mem_preds := by simp [Graph.succs, preds, node?, empty]
  nodup_preds _ := by simp [preds, node?, empty]

/-- A node that is added has as many successors as a node of its kind has. -/
theorem targetsOf_length (h : succs.length = kind.arity) :
    (g.targetsOf kind succs).length = kind.degree := by
  cases kind <;> simp [targetsOf, Kind.isSelfLoop, Kind.degree, h, Kind.arity]

theorem targetsOf_selfLoop (h : succs.length = Kind.selfLoop.arity) :
    g.targetsOf .selfLoop succs = [g.bound] := by
  rw [List.eq_nil_of_length_eq_zero h]; rfl

theorem targetsOf_of_ne (h : kind ≠ .selfLoop) : g.targetsOf kind succs = succs := by
  rw [targetsOf, if_neg (mt Kind.isSelfLoop_iff.mp h)]

/-- A new node leads where it is told to, and to itself if it is a self-loop. -/
theorem mem_targetsOf :
    b ∈ g.targetsOf kind succs ↔ b ∈ succs ∨ kind = .selfLoop ∧ b = g.bound := by
  by_cases h : kind = .selfLoop
  · subst h; simp [targetsOf, Kind.isSelfLoop]
  · have : kind.isSelfLoop = false := Bool.eq_false_iff.mpr (mt Kind.isSelfLoop_iff.mp h)
    simp [targetsOf, this, h]

/-- Predecessors are nodes. -/
theorem Linked.isLive_pred (hg : g.Linked) (h : a ∈ g.preds b) : g.isLive a = true :=
  isLive_of_mem_succs (hg.mem_preds.mp h)

/-- Adding a node with the right number of live successors keeps the lists fit together. -/
theorem Linked.attach (hg : g.Linked) (hlen : succs.length = kind.arity)
    (hlive : ∀ s ∈ succs, g.isLive s = true) : (g.attach kind succs).Linked where
  degree {a k} h := by
    rw [kind?_attach] at h
    rw [succs_attach]
    split at h
    · next ha => cases h; rw [if_pos ha]; exact targetsOf_length hlen
    · next ha => rw [if_neg ha]; exact hg.degree h
  selfLoop {a} h := by
    rw [kind?_attach] at h
    rw [succs_attach]
    split at h
    · next ha => cases h; rw [if_pos ha, ha]; exact targetsOf_selfLoop hlen
    · next ha => rw [if_neg ha]; exact hg.selfLoop h
  isLive_succ {a b} h := by
    rw [succs_attach] at h
    rw [isLive_attach]
    split
    · rfl
    · next hb =>
        split at h
        · exact hlive b ((mem_targetsOf.mp h).resolve_right fun h' => hb h'.2)
        · exact hg.isLive_succ h
  mem_preds {a b} := by
    have hb : g.bound ∉ g.succs a := fun h => by simpa [isLive_bound] using hg.isLive_succ h
    have ha : ∀ {c}, a ∈ g.preds c → a ≠ g.bound := fun h e => by
      simpa [e, isLive_bound] using hg.isLive_pred h
    have hs : ∀ s ∈ g.targetsOf kind succs, s = g.bound ∨ g.isLive s = true := fun s h =>
      (mem_targetsOf.mp h).elim (fun h => .inr (hlive s h)) fun h => .inl h.2
    rw [preds_attach, mem_preds_linkAll, preds_push, isLive_push, succs_attach]
    -- the new node has no predecessors but perhaps itself, and precedes nothing it does not target
    have hp := hg.mem_preds (a := a) (b := b)
    grind
  nodup_preds a := by
    rw [preds_attach]
    refine nodup_preds_linkAll ?_
    rw [preds_push]
    split
    · exact .nil
    · exact hg.nodup_preds a

/-- The successors `l'` are left of `l` when edges to `old` are led to `new`. -/
structure Moved (old new : NodeId) (l l' : List NodeId) : Prop where
  length_eq : l'.length = l.length
  mem_new : new ∈ l'
  mem_or_eq : ∀ s ∈ l', s ∈ l ∨ s = new
  mem_of_ne : ∀ s ∈ l, s ≠ old → s ∈ l'

/-- Moving all edges moves the ones to the old target away. -/
theorem moved_map (hne : old ≠ new) (hold : old ∈ succs) :
    Moved old new succs (succs.map (divert old new)) where
  length_eq := List.length_map _
  mem_new := (mem_map_divert hne).mpr (.inr ⟨rfl, .inl hold⟩)
  mem_or_eq _ hs := ((mem_map_divert hne).mp hs).imp (·.1) (·.1)
  mem_of_ne _ hs ho := (mem_map_divert hne).mpr (.inl ⟨hs, ho⟩)

/-- Moving one edge leaves the others, so that some may still lead to the old target. -/
theorem moved_set {position : Nat} (hold : succs[position]? = some old) :
    Moved old new succs (succs.set position new) where
  length_eq := List.length_set
  mem_new := List.mem_set (List.getElem?_eq_some_iff.mp hold).1 new
  mem_or_eq _ hs := List.mem_or_eq_of_mem_set hs
  mem_of_ne s hs ho := by
    obtain ⟨hpos, rfl⟩ := List.getElem?_eq_some_iff.mp hold
    obtain ⟨i, hi, rfl⟩ := List.getElem_of_mem hs
    have hip : position ≠ i := fun e => ho (by subst e; rfl)
    exact List.mem_iff_getElem.mpr ⟨i, by simpa using hi, by rw [List.getElem_set_ne hip]⟩

/-- Edges of a node that is no self-loop are led elsewhere. -/
theorem Linked.rewired {f : List NodeId → List NodeId} (hg : g.Linked) (hf : f [] = [])
    (hself : g.kind? node ≠ some .selfLoop) (hnew : g.isLive new = true)
    (hmoved : Moved old new (g.succs node) (f (g.succs node))) :
    (g.rewired node old new f).Linked := by
  obtain ⟨hlen, hmem, hkeep, hother⟩ := hmoved
  constructor
  case degree =>
    intro a k h
    rw [kind?_rewired] at h
    rw [succs_rewired _ _ _ _ _ hf]
    split
    · next e => rw [← e, hlen, e]; exact hg.degree h
    · exact hg.degree h
  case selfLoop =>
    intro a h
    rw [kind?_rewired] at h
    rw [succs_rewired _ _ _ _ _ hf, if_neg fun e : node = a => hself (e ▸ h)]
    exact hg.selfLoop h
  case isLive_succ =>
    intro a b h
    rw [succs_rewired _ _ _ _ _ hf] at h
    rw [isLive_rewired]
    split at h
    · next e =>
        subst e
        rcases hkeep b h with hm | rfl
        · exact hg.isLive_succ hm
        · exact hnew
    · exact hg.isLive_succ h
  case mem_preds =>
    intro a b
    have hp := hg.mem_preds (a := a) (b := b)
    rw [mem_preds_rewired _ _ _ _ hf, succs_rewired _ _ _ _ _ hf]
    grind
  case nodup_preds =>
    intro a
    exact nodup_preds_rewired (hg.nodup_preds a)

/-- Moving all edges between two nodes keeps the lists fit together. -/
theorem Linked.moveEdges (hg : g.Linked) (hnew : g.isLive new = true) (hold : old ∈ g.succs node)
    (hself : g.kind? node = some .selfLoop → new = node) : (g.moveEdges node old new).Linked := by
  by_cases hon : old = new
  · rwa [Graph.moveEdges, if_pos hon]
  -- the only edge of a self-loop could not have moved
  have hns : g.kind? node ≠ some .selfLoop := fun h => by
    have : old = node := by simpa [hg.selfLoop h] using hold
    exact hon (this.trans (hself h).symm)
  rw [moveEdges_eq hon]
  exact hg.rewired List.map_nil hns hnew (moved_map hon hold)

/-- So does moving the edge at one position. -/
theorem Linked.moveEdge {position : Nat} (hg : g.Linked) (hnew : g.isLive new = true)
    (hold : (g.succs node)[position]? = some old) (hself : g.kind? node ≠ some .selfLoop) :
    (g.moveEdge node position old new).Linked := by
  rw [moveEdge_eq]
  exact hg.rewired List.set_nil hself hnew (moved_set hold)

/-! ### Taking nodes out -/

/-- What is left of a linked graph when the predecessors of a node are led elsewhere, up to the
predecessor lists. -/
theorem Linked.degree_bypass (hg : g.Linked) {k : Kind}
    (h : (g.bypass node target (g.preds node)).kind? a = some k) :
    ((g.bypass node target (g.preds node)).succs a).length = k.degree := by
  rw [kind?_bypass] at h
  rw [hg.succs_bypass]
  split at h
  · cases h
  · next hn => rw [if_neg hn, List.length_map]; exact hg.degree h

/-- A self-loop still succeeds itself alone. -/
theorem Linked.selfLoop_bypass (hg : g.Linked)
    (h : (g.bypass node target (g.preds node)).kind? a = some .selfLoop) :
    (g.bypass node target (g.preds node)).succs a = [a] := by
  rw [kind?_bypass] at h
  rw [hg.succs_bypass]
  split at h
  · cases h
  · next hn => rw [if_neg hn, hg.selfLoop h, List.map_singleton, divert_of_ne (Ne.symm hn)]

/-- No edge leads to the node that went. -/
theorem Linked.isLive_succ_bypass (hg : g.Linked) (ht : g.isLive target = true)
    (hne : node ≠ target) (h : b ∈ (g.bypass node target (g.preds node)).succs a) :
    (g.bypass node target (g.preds node)).isLive b = true := by
  rw [hg.succs_bypass] at h
  rw [isLive_bypass]
  split at h
  · cases h
  · rcases (mem_map_divert hne).mp h with ⟨hm, hb⟩ | ⟨rfl, -⟩
    · rw [if_neg (Ne.symm hb)]; exact hg.isLive_succ hm
    · rw [if_neg hne]; exact ht

theorem nodup_preds_bypass (h : (g.preds a).Nodup) :
    ((g.bypass node target (g.preds node)).preds a).Nodup := by
  rw [bypass_eq, preds_vacate]
  split
  · exact .nil
  · exact nodup_preds_rerouted h

/-- A node without successors gives its place to another one. -/
theorem Linked.bypass (hg : g.Linked) (ht : g.isLive target = true) (hne : node ≠ target)
    (hnil : g.succs node = []) : (g.bypass node target (g.preds node)).Linked where
  degree := hg.degree_bypass
  selfLoop := hg.selfLoop_bypass
  isLive_succ := hg.isLive_succ_bypass ht hne
  mem_preds {a b} := by
    rw [hg.mem_preds_bypass node target ht, hg.succs_bypass]
    split
    · next h => subst h; simp [hnil]
    · rw [mem_map_divert hne]; grind
  nodup_preds a := nodup_preds_bypass (hg.nodup_preds a)

/-- A node with one other successor is taken out, and its predecessors go on there. -/
theorem Linked.splice (hg : g.Linked) (hne : target ≠ node) (hs : g.succs node = [target]) :
    ((g.bypass node target (g.preds node)).unlink node target).Linked := by
  have ht : g.isLive target = true := hg.isLive_succ (a := node) (by simp [hs])
  constructor
  case degree =>
    intro a k h
    rw [kind?_unlink] at h
    rw [succs_unlink]
    exact hg.degree_bypass h
  case selfLoop =>
    intro a h
    rw [kind?_unlink] at h
    rw [succs_unlink]
    exact hg.selfLoop_bypass h
  case isLive_succ =>
    intro a b h
    rw [succs_unlink] at h
    rw [isLive_unlink]
    exact hg.isLive_succ_bypass ht (Ne.symm hne) h
  case mem_preds =>
    intro a b
    rw [mem_preds_unlink, hg.mem_preds_bypass node target ht, succs_unlink, hg.succs_bypass,
      hg.succs_bypass, if_pos rfl]
    split
    · next h => subst h; simp [hs, Ne.symm hne]
    · rw [mem_map_divert (Ne.symm hne)]; grind
  case nodup_preds =>
    intro a
    exact nodup_preds_unlink (nodup_preds_bypass (hg.nodup_preds a))

/-- A node without successors and predecessors is dropped. -/
theorem Linked.vacate (hg : g.Linked) (hs : g.succs node = []) (hp : g.preds node = []) :
    (g.vacate node).Linked where
  degree {a k} h := by
    rw [kind?_vacate] at h
    rw [succs_vacate]
    split at h
    · cases h
    · next hn => rw [if_neg hn]; exact hg.degree h
  selfLoop {a} h := by
    rw [kind?_vacate] at h
    rw [succs_vacate]
    split at h
    · cases h
    · next hn => rw [if_neg hn]; exact hg.selfLoop h
  isLive_succ {a b} h := by
    rw [succs_vacate] at h
    split at h
    · cases h
    · rw [isLive_vacate, if_neg]
      · exact hg.isLive_succ h
      · -- an edge to the node would make its source a predecessor
        rintro rfl
        simpa [hp] using hg.mem_preds.mpr h
  mem_preds {a b} := by
    have := hg.mem_preds (a := a) (b := b)
    rw [preds_vacate, succs_vacate]
    grind
  nodup_preds a := by
    rw [preds_vacate]
    split
    · exact .nil
    · exact hg.nodup_preds a

/-- Only a set of nodes that is closed under successors stays. -/
theorem Linked.restrict {keep : NodeId → Bool} (hg : g.Linked)
    (hkeep : ∀ a b, keep a = true → b ∈ g.succs a → keep b = true) : (g.restrict keep).Linked where
  degree {a k} h := by
    rw [kind?_restrict] at h
    rw [succs_restrict]
    split at h
    · next ha => rw [if_pos ha]; exact hg.degree h
    · cases h
  selfLoop {a} h := by
    rw [kind?_restrict] at h
    rw [succs_restrict]
    split at h
    · next ha => rw [if_pos ha]; exact hg.selfLoop h
    · cases h
  isLive_succ {a b} h := by
    rw [succs_restrict] at h
    split at h
    · next ha => rw [isLive_restrict, hkeep a b ha h, hg.isLive_succ h]; rfl
    · cases h
  mem_preds {a b} := by
    have hp := hg.mem_preds (a := a) (b := b)
    have hk := hkeep a b
    rw [preds_restrict, succs_restrict]
    grind
  nodup_preds a := by
    rw [preds_restrict]
    split
    · exact (hg.nodup_preds a).filter _
    · exact .nil

/-- It only matters which of the nodes are to stay. -/
theorem Linked.restrict_congr {keep keep' : NodeId → Bool} (hg : g.Linked)
    (h : ∀ a, g.isLive a = true → keep a = keep' a) : g.restrict keep = g.restrict keep' := by
  refine eq_of_node? (by rw [bound_restrict, bound_restrict]) rfl fun id => ?_
  rw [node?_restrict, node?_restrict]
  cases hn : g.node? id with
  | none => rw [Option.map_none, Option.map_none, ite_self, ite_self]
  | some n =>
      have hpreds : n.preds.filter keep = n.preds.filter keep' := List.filter_congr fun p hp =>
        h p (hg.isLive_pred (preds_of_node? hn ▸ hp))
      rw [h id (isLive_iff.mpr ⟨n, hn⟩), Option.map_some, Option.map_some, hpreds]

end Flowgraph.Graph

import Flowgraph.Proofs.Passes
import Flowgraph.Proofs.Renaming.Analyses
import Flowgraph.Proofs.Renaming.Edits
import Flowgraph.Proofs.Renaming.Guards
import Mathlib.Logic.Equiv.Basic

/-!
# Optimizations do not depend on names

The optimizations look at the name of a temporary only to compare it with another one and to see
whether it holds a return value.  On a renamed graph they remove the same nodes, unroll the same
loops and number the new nodes in the same way, and what they leave is the renaming of what they
leave otherwise.

* `eliminateDeadCode_renames`, `eliminateToFixpoint_renames`: dead code elimination.
* `copyNode_renames`, `replaceLoop_renames`, `unrollLoops_renames`: loop unrolling, from the copy of
  one node up to all loops of a graph.
* `optimizations_rename`: both, with liveness.
-/

namespace Flowgraph

open Edit

variable {ρ : String → String} {g : Graph}

/-! ### Dead code -/

/-- The removal of the renamed node. -/
def Removal.rename (ρ : String → String) (r : Removal) : Removal :=
  { r with kind := r.kind.rename ρ }

section DeadCode

variable {l l' : Liveness}

theorem isDead_rename (hρ : Renaming ρ) (hl : l.Renamed ρ l') (n : NodeId) :
    isDead (g.rename ρ) l' n = isDead g l n := by
  have htarget : ((g.rename ρ).kind? n).bind Kind.target? =
      ((g.kind? n).bind Kind.target?).map ρ := by
    rw [Graph.kind?_rename]
    cases g.kind? n with
    | none => rfl
    | some k => exact k.target?_rename
  rw [isDead, isDead, htarget]
  cases (g.kind? n).bind Kind.target? with
  | none => rfl
  | some x =>
      have hlive : l'.isLiveAfter n (ρ x) = l.isLiveAfter n x := by
        rw [Bool.eq_iff_iff, hl.after_iff]
        simp [hρ.injective.eq_iff]
      simp only [Option.map_some, hlive]

/-- The same nodes are dead. -/
theorem deadNodes_rename (hρ : Renaming ρ) (hl : l.Renamed ρ l') :
    deadNodes (g.rename ρ) l' = deadNodes g l := by
  simp only [deadNodes, Graph.ids_rename, Graph.reachable_rename, isDead_rename hρ hl]

/-- They are spliced out in the same way, and reported with their renamed kinds. -/
theorem removeNodes_renames (ns : List NodeId) :
    Renames ρ (List.map (Removal.rename ρ)) (removeNodes ns) (removeNodes ns) := by
  induction ns with
  | nil => exact Renames.pure []
  | cons n rest ih =>
      rw [removeNodes]
      refine Renames.get.bind fun g => ?_
      rw [Graph.succs_rename]
      split
      · exact ih
      · exact (require_renames n).bind fun node =>
          (removeNode_renames n).bind fun _ => ih.map fun _ => rfl

variable (hρ : Renaming ρ)

include hρ

theorem eliminateDeadCode_renames :
    Renames ρ (List.map (Removal.rename ρ)) eliminateDeadCode eliminateDeadCode := by
  intro g
  cases hs : g.start with
  | none =>
      rw [eliminateDeadCode_of_no_start hs, eliminateDeadCode_of_no_start (g.start_rename.trans hs)]
      rfl
  | some start =>
      obtain ⟨l, l', hl, hl', hrenamed⟩ := Liveness.compute_rename hρ hs
      rw [eliminateDeadCode, bind_ok (get_apply g), bind_ok (get_apply _), hl, hl']
      simp only [deadNodes_rename hρ hrenamed]
      exact removeNodes_renames _ g

/-- As many rounds remove as many nodes. -/
theorem eliminateToFixpoint_renames (rounds : Nat) :
    Renames ρ id (eliminateToFixpoint rounds) (eliminateToFixpoint rounds) := by
  induction rounds with
  | zero => exact Renames.pure 0
  | succ rounds ih =>
      rw [eliminateToFixpoint]
      refine (eliminateDeadCode_renames hρ).bind fun removed => ?_
      rw [List.isEmpty_map, List.length_map]
      split
      · exact Renames.pure 0
      · exact ih.map fun _ => rfl

end DeadCode

/-! ### Copies of a loop body -/

section Copies

variable (body : List NodeId) (header back : NodeId)

namespace BodyCopy

theorem mapM_renames {α β : Type} {f : α → CopyM β} (hf : ∀ a σ, Renames ρ id (f a σ) (f a σ))
    (as : List α) (σ : CopyMap) : Renames ρ id (as.mapM f σ) (as.mapM f σ) := by
  induction as generalizing σ with
  | nil => exact Renames.pure _
  | cons a as ih =>
      rw [mapM_cons]
      exact (hf a σ).bind fun b => (ih b.2).bind fun _ => Renames.pure _

theorem copyTarget_renames {depth : Nat} (ih : ∀ s σ, Renames ρ id
      (copyNode body header back depth s σ) (copyNode body header back depth s σ))
    (s : NodeId) (σ : CopyMap) : Renames ρ id
      (copyTarget body header back depth s σ) (copyTarget body header back depth s σ) := by
  rw [copyTarget]
  split
  · exact Renames.pure _
  · split
    · exact ih s σ
    · exact Renames.pure _

/-- Nodes are copied in the same order, by induction on the depth. -/
theorem copyNode_renames (depth : Nat) (n : NodeId) (σ : CopyMap) :
    Renames ρ id (copyNode body header back depth n σ) (copyNode body header back depth n σ) := by
  -- for every copy map, as the copies of the targets hand theirs on
  induction depth generalizing n σ with
  | zero => exact Renames.pure _
  | succ depth ih =>
      intro g
      rw [copyNode_succ, copyNode_succ, Graph.succs_rename]
      simp only [Graph.kind?_rename_eq_selfLoop_iff]
      cases σ.lookup n with
      | some copy => rfl
      | none =>
          dsimp only
          split
          · exact ((cloneNode_renames n []).bind fun copy => Renames.pure (copy, (n, copy) :: σ)) g
          · refine (addStub_renames.bind fun pending => ?_) g
            refine (mapM_renames (copyTarget_renames body header back ih) _ _).bind fun p => ?_
            refine (cloneNode_renames n p.1).bind fun copy => ?_
            exact (resolveStub_renames pending copy).bind fun _ => Renames.pure _

end BodyCopy

theorem copyBody_renames (entry : NodeId) :
    Renames ρ id (copyBody body header back entry) (copyBody body header back entry) := by
  rw [BodyCopy.copyBody_eq]
  exact (BodyCopy.copyNode_renames body header back _ entry []).bind fun _ => Renames.pure _

end Copies

/-! ### One loop -/

section Loop

variable (header : NodeId) (body : List NodeId) (guard : Guard)

/-- The copy of the loop is renamed. -/
theorem addEpilogue_renames :
    Renames ρ id (addEpilogue header body guard) (addEpilogue header body (guard.rename ρ)) := by
  refine addStub_renames.bind fun back => (copyBody_renames body header back _).bind fun entry => ?_
  refine (cloneNode_renames header [entry, guard.exit]).bind fun epilogue => ?_
  exact (resolveStub_renames back epilogue).bind fun _ => Renames.pure _

theorem addChain_renames (entry back : NodeId) (copies : Nat) :
    Renames ρ id (addChain header body entry back copies)
      (addChain header body entry back copies) := by
  induction copies generalizing back with
  | zero => exact Renames.pure _
  | succ copies ih => exact (copyBody_renames body header back entry).bind fun next => ih next

theorem forM_renames {f : NodeId → Edit Unit} (hf : ∀ n, Renames ρ id (f n) (f n))
    (ns : List NodeId) : Renames ρ id (ns.forM f) (ns.forM f) := by
  induction ns with
  | nil => exact Renames.pure _
  | cons n ns ih => exact (hf n).bind fun _ => ih

theorem moveEntries_renames (target : NodeId) :
    Renames ρ id (moveEntries header body target) (moveEntries header body target) := by
  refine Renames.get.bind fun g => ?_
  rw [Graph.preds_rename]
  exact forM_renames (fun p => replaceSucc_renames p header target) _

/-- The new header tests the renamed variable. -/
theorem replaceLoop_renames (factor : Nat) :
    Renames ρ id (replaceLoop header body guard factor)
      (replaceLoop header body (guard.rename ρ) factor) := by
  refine (addEpilogue_renames header body guard).bind fun epilogue => ?_
  refine addStub_renames.bind fun back => ?_
  refine (addChain_renames header body guard.entry back factor).bind fun chain => ?_
  refine (addBranch_renames chain epilogue (guard.lookahead _)).bind fun newHeader => ?_
  refine (resolveStub_renames back newHeader).bind fun _ => ?_
  exact (moveEntries_renames header body newHeader).bind fun _ => Renames.pure _

/-- A loop is unrolled if the renamed one is, and skipped for the same reason. -/
theorem unrollLoop_renames (hρ : Renaming ρ) (config : UnrollConfig) :
    Renames ρ id (unrollLoop header body config) (unrollLoop header body config) := by
  refine (require_renames header).bind fun _ => Renames.get.bind fun g => ?_
  rw [Guard.analyze_rename hρ]
  cases Guard.analyze g header body config with
  | error reason => exact Renames.pure _
  | ok guard =>
      simp only [Except.map]
      split
      · exact (replaceLoop_renames header body guard config.factor).map fun _ => rfl
      · exact Renames.pure _

end Loop

/-! ### All loops -/

section AllLoops

variable (hρ : Renaming ρ) (config : UnrollConfig)

include hρ

theorem unrollFound_renames (d : Dominators) (l : NaturalLoop) :
    Renames ρ id (unrollFound d config l) (unrollFound d config l) := by
  refine Renames.get.bind fun g => ?_
  rw [Graph.isLive_rename, currentBody_rename]
  split
  · exact (unrollLoop_renames _ _ hρ config).map fun _ => rfl
  · exact Renames.pure _

theorem unrollEach_renames (d : Dominators) (loops : LoopForest) :
    Renames ρ id (unrollEach d config loops) (unrollEach d config loops) := by
  induction loops with
  | nil => exact Renames.pure _
  | cons l rest ih =>
      exact (unrollFound_renames hρ config d l).bind fun _ => ih.map fun _ => rfl

/-- The report of all loops is the same. -/
theorem unrollLoops_renames : Renames ρ id (unrollLoops config) (unrollLoops config) := by
  intro g
  cases hs : g.start with
  | none =>
      rw [unrollLoops_of_no_start hs, unrollLoops_of_no_start (g.start_rename.trans hs)]
      rfl
  | some start =>
      obtain ⟨facts, hd⟩ : ∃ facts, Dominators.compute g = .ok ⟨start, facts⟩ := by
        rw [Dominators.compute, Dataflow.Problem.solve, Dataflow.solveWithin_eq hs, Graph.entry, hs]
        exact ⟨_, rfl⟩
      rw [unrollLoops, bind_ok (get_apply g), bind_ok (get_apply _), Dominators.compute_rename, hd]
      simp only [LoopForest.detect_rename]
      refine ((unrollEach_renames hρ config _ _).bind fun loops => ?_) g
      simp only [id]
      split
      · exact sweep_renames.map fun _ => rfl
      · exact Renames.pure _

end AllLoops

/-- The optimizations do not depend on the names of temporaries.  For a built graph with a start and
its renaming, a round of dead code elimination, any number of rounds and the unrolling of all loops
succeed with the same nodes and edges and with the same report, the one with the renaming of the
kinds that the other has; and liveness is found with as many visits to hold for the renamed
temporaries. -/
theorem optimizations_rename {start : NodeId} (hρ : Renaming ρ) (hg : Built g)
    (hs : g.start = some start) :
    (∃ removed h, eliminateDeadCode g = .ok removed h ∧
      eliminateDeadCode (g.rename ρ) = .ok (removed.map (Removal.rename ρ)) (h.rename ρ)) ∧
    (∀ rounds, ∃ count h, eliminateToFixpoint rounds g = .ok count h ∧
      eliminateToFixpoint rounds (g.rename ρ) = .ok count (h.rename ρ)) ∧
    (∀ config, ∃ report h, unrollLoops config g = .ok report h ∧
      unrollLoops config (g.rename ρ) = .ok report (h.rename ρ)) ∧
    ∃ l l', Liveness.compute g = .ok l ∧ Liveness.compute (g.rename ρ) = .ok l' ∧
      l'.facts.visits = l.facts.visits ∧ ∀ n y,
        (l'.isLiveBefore n y = true ↔ ∃ x, l.isLiveBefore n x = true ∧ ρ x = y) ∧
        (l'.isLiveAfter n y = true ↔ ∃ x, l.isLiveAfter n x = true ∧ ρ x = y) := by
  have hw := hg.wellFormed
  refine ⟨?_, fun rounds => ?_, fun config => ?_, ?_⟩
  · obtain ⟨removed, h, hok⟩ := eliminateDeadCode_succeeds hw hs
    exact ⟨removed, h, hok, (eliminateDeadCode_renames hρ).ok hok⟩
  · obtain ⟨count, h, hok, -⟩ :=
      eliminateToFixpoint_alike (M := Machine.integers fun _ _ => 0) hw hs rounds
    exact ⟨count, h, hok, (eliminateToFixpoint_renames hρ rounds).ok hok⟩
  · obtain ⟨-, report, -, h, -, hok, -⟩ := unrollLoops_completes hw hs config
    exact ⟨report, h, hok, (unrollLoops_renames hρ config).ok hok⟩
  · obtain ⟨l, l', hl, hl', hrenamed⟩ := Liveness.compute_rename hρ hs
    exact ⟨l, l', hl, hl', hrenamed.visits_eq,
      fun n y => ⟨hrenamed.before_iff n y, hrenamed.after_iff n y⟩⟩

/-- `i` rises by one while it is below `n`; `k` is never read. -/
def deadBesideCounter : Graph :=
  after (Edit.addStart 4) (after (Edit.substituteStub 1 4)
    (after (Edit.addBranch (.binop .lt (.temp "i") (.temp "n")) 3 0)
      (after (Edit.addAssign "k" (.temp "i") 2)
        (after (Edit.addAssign "i" (.binop .add (.temp "i") (.const 1)) 1)
          (after Edit.addStub (after Edit.addReturn .empty))))))

/-- The counter and its bound change names, and with that their order. -/
def swapNames : String → String := Equiv.swap "i" "n"

theorem renaming_swapNames : Renaming swapNames where
  injective := (Equiv.swap "i" "n").injective
  isReturnTemp_eq x := by
    rw [swapNames, Equiv.swap_apply_def]
    split
    · next h => subst h; decide
    · split
      · next h => subst h; decide
      · rfl

/-- Under the new names too, the assignment to `k` is dead and the loop is unrolled. -/
theorem optimizations_rename_deadBesideCounter :
    Renaming swapNames ∧ Built deadBesideCounter ∧ deadBesideCounter.start = some 5 ∧
      (∃ h, eliminateDeadCode (deadBesideCounter.rename swapNames) =
        .ok [⟨3, .stmt (.assign "k" (.temp "n"))⟩] h) ∧
      ∃ report h, report.unrolled = 1 ∧
        unrollLoops (.withFactor 2 10) (deadBesideCounter.rename swapNames) = .ok report h := by
  have hg : Built deadBesideCounter :=
    .tail (.tail (.tail (.tail (.tail (.tail (.single (.addReturn _)) (.addStub _))
      (.addAssign _ _ _ _)) (.addAssign _ _ _ _)) (.addBranch _ _ _ _))
      (.substituteStub _ _ _)) (.addStart _ _)
  have hs : deadBesideCounter.start = some 5 := by decide
  obtain ⟨⟨removed, h, hok, hrenamed⟩, -, hunroll, -⟩ :=
    optimizations_rename renaming_swapNames hg hs
  obtain ⟨report, k, hok', hrenamed'⟩ := hunroll (.withFactor 2 10)
  have hremoved : (match eliminateDeadCode deadBesideCounter with
      | .ok removed _ => decide (removed = [⟨3, .stmt (.assign "k" (.temp "i"))⟩])
      | .error _ _ => false) = true := by decide +kernel
  have hunrolled : (match unrollLoops (.withFactor 2 10) deadBesideCounter with
      | .ok report _ => decide (report.unrolled = 1)
      | .error _ _ => false) = true := by decide +kernel
  simp only [hok, decide_eq_true_eq] at hremoved
  simp only [hok', decide_eq_true_eq] at hunrolled
  subst hremoved
  exact ⟨renaming_swapNames, hg, hs, ⟨_, hrenamed⟩, report, _, hunrolled, hrenamed'⟩

end Flowgraph

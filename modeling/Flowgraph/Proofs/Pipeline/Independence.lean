import Flowgraph.Proofs.Pipeline.Rounds
import Mathlib.Data.List.MinMax
import Mathlib.Order.Nat

/-!
# Functions do not interact

Rounds of the cleaning passes are counted for all functions together: they go on until nothing
changes anywhere.  A function that has become stable is not touched by the rounds that others still
need, and a function that needs more rounds than there are is cut off where it would be alone.  So
each function ends up as it would alone, and there are as many rounds as the slowest needs.

* `Context.Greatest`: the greatest of a number for each function.
* `cleanUp_spec`: what at most so many rounds do, and how many there are.
* `Scheduler.runInOrder_spec`: what the pipeline does.
* `functions_do_not_interact`: the pipeline on many functions and on each of them alone.
-/

namespace Flowgraph

variable {c d : Context} {passes : List Pass} {order : VisitOrder} {f : String} {g : Graph}

namespace Context

/-- The greatest of these numbers for the functions, or zero if there are none. -/
structure Greatest (c : Context) (value : String → Graph → Nat) (n : Nat) : Prop where
  le : ∀ {f g}, c.function? f = some g → value f g ≤ n
  attained : n = 0 ∨ c.Somewhere fun f g => value f g = n

theorem Greatest.zero (c : Context) : c.Greatest (fun _ _ => 0) 0 :=
  ⟨fun _ => Nat.le_refl 0, .inl rfl⟩

/-- It depends only on the numbers of the functions that are there. -/
theorem Greatest.congr {value value' : String → Graph → Nat} {n : Nat} (hn : c.Greatest value n)
    (h : ∀ f g, c.function? f = some g → value f g = value' f g) : c.Greatest value' n where
  le hg := h _ _ hg ▸ hn.le hg
  attained := hn.attained.imp_right fun ⟨f, g, hg, e⟩ => ⟨f, g, hg, (h f g hg).symm.trans e⟩

/-- It is the maximum of the list of these numbers. -/
theorem Greatest.eq_foldr_max {value : String → Graph → Nat} {n : Nat} (hn : c.Greatest value n)
    {count : String → Nat} (hcount : ∀ f g, c.function? f = some g → count f = value f g) :
    n = (c.names.map count).foldr max 0 := by
  apply Nat.le_antisymm
  · rcases hn.attained with rfl | ⟨f, g, hg, rfl⟩
    · exact Nat.zero_le _
    · have hmem : count f ∈ c.names.map count :=
        List.mem_map.mpr ⟨f, mem_names_iff.mpr ⟨g, hg⟩, rfl⟩
      exact List.le_max_of_le hmem (Nat.le_of_eq (hcount f g hg).symm)
  · refine List.max_le_of_forall_le _ _ fun m hm => ?_
    obtain ⟨f, hf, rfl⟩ := List.mem_map.mp hm
    obtain ⟨g, hg⟩ := mem_names_iff.mp hf
    exact hcount f g hg ▸ hn.le hg

end Context

/-- Numbers that depend on what has become of the functions. -/
theorem Undergoes.greatest {α : Type} {effect : String → Graph → Outcome α}
    {value : String → Graph → Nat} {n : Nat} (hcd : Undergoes c d effect)
    (hn : d.Greatest value n) : c.Greatest (fun f g => value f (effect f g).graph) n where
  le hg := hn.le (hcd.function? hg)
  attained := hn.attained.imp_right hcd.somewhere_iff.mp

/-- After a round with a change the slowest function is one that was changed by it: one that was not
is stable, and if no function needs further rounds, any that was changed will do. -/
theorem Undergoes.greatest_succ {rounds n : Nat} (hexact : ∀ pass ∈ passes, pass.Exact c.config)
    (hc : c.Ready) (hcd : Undergoes c d fun f => roundEffect c.config f passes)
    (hsome : c.Somewhere fun f g => (roundEffect c.config f passes g).value = true)
    (hn : d.Greatest (fun f h => (cleanUpEffect c.config f passes rounds h).value) n) :
    c.Greatest (fun f g => (cleanUpEffect c.config f passes (rounds + 1) g).value) (n + 1) := by
  have hsucc {f g} (hg : c.function? f = some g) :
      (cleanUpEffect c.config f passes (rounds + 1) g).value =
        (cleanUpEffect c.config f passes rounds (roundEffect c.config f passes g).graph).value +
          (roundEffect c.config f passes g).value.toNat := by
    rw [cleanUpEffect_succ hexact (hc _ _ hg)]
    rfl
  have hslowest : ∃ f g, c.function? f = some g ∧
      (roundEffect c.config f passes g).value = true ∧
      (cleanUpEffect c.config f passes rounds (roundEffect c.config f passes g).graph).value =
        n := by
    obtain ⟨f, g, hg, hvalue⟩ := hsome
    by_cases hzero : n = 0
    · -- no function needs further rounds, and any that was changed will do
      subst hzero
      exact ⟨f, g, hg, hvalue, Nat.le_zero.mp (hn.le (hcd.function? hg))⟩
    · -- one that was not changed would need none
      obtain ⟨f, g, hg, hcount⟩ := (hcd.greatest hn).attained.resolve_left hzero
      refine ⟨f, g, hg, Bool.not_eq_false _ ▸ fun hvalue => hzero ?_, hcount⟩
      have hidle := roundEffect_of_unchanged hexact (hc _ _ hg) hvalue
      rw [hidle, Outcome.idle, cleanUpEffect_of_idle hidle, Outcome.idle] at hcount
      exact hcount.symm
  refine ⟨fun hg => ?_, .inr ?_⟩
  · rw [hsucc hg]
    exact Nat.add_le_add (hn.le (hcd.function? hg)) (Bool.toNat_le _)
  · obtain ⟨f, g, hg, hvalue, hcount⟩ := hslowest
    exact ⟨f, g, hg, (hsucc hg).trans (by rw [hvalue, hcount, Bool.toNat_true])⟩

/-- At most so many rounds of local and exact passes have their effect on every function, and as
many change something as for the slowest of them. -/
theorem cleanUp_spec (horder : order.Permutes) (hlocal : ∀ pass ∈ passes, pass.Local c.config)
    (hexact : ∀ pass ∈ passes, pass.Exact c.config) (hc : c.Ready) (round rounds : Nat) :
    ∃ n d, Scheduler.cleanUp order passes round rounds c = .ok n d ∧
      Undergoes c d (fun f => cleanUpEffect c.config f passes rounds) ∧
      c.Greatest (fun f g => (cleanUpEffect c.config f passes rounds g).value) n := by
  induction rounds generalizing c round with
  | zero => exact ⟨0, c, rfl, .refl c 0, .zero c⟩
  | succ rounds ih =>
      obtain ⟨changed, d, hok, hcd, hchanged⟩ :=
        does_runRound horder .cleanup round hlocal hc
      rw [Scheduler.cleanUp, bind_of_ok hok]
      cases changed with
      | false =>
          -- the round was one without a change for every function
          have hidle : ∀ f g, c.function? f = some g →
              roundEffect c.config f passes g = .idle false g := fun f g hg =>
            roundEffect_of_unchanged hexact (hc _ _ hg) <| Bool.eq_false_iff.mpr fun h =>
              Bool.false_ne_true (hchanged.mpr ⟨f, g, hg, h⟩)
          refine ⟨0, d, rfl, (hcd.trans (.refl d 0) fun _ _ n => n).congr fun f g hg => ?_,
            (Context.Greatest.zero c).congr fun f g hg => ?_⟩
          · rw [hidle f g hg, cleanUpEffect_of_idle (hidle f g hg)]
            rfl
          · rw [cleanUpEffect_of_idle (hidle f g hg), Outcome.idle]
      | true =>
          have hd : d.Ready := hcd.ready hc fun f g hg => proper_roundEffect hlocal hg
          obtain ⟨n, k, hok', hdk, hn⟩ :=
            ih (hcd.config_eq ▸ hlocal) (hcd.config_eq ▸ hexact) hd (round + 1)
          rw [hcd.config_eq] at hdk hn
          refine ⟨n + 1, k, ?_, (hcd.trans hdk fun _ changed m => m + changed.toNat).congr
            fun f g hg => (cleanUpEffect_succ hexact (hc _ _ hg) rounds).symm,
            hcd.greatest_succ hexact hc (hchanged.mp rfl) hn⟩
          rw [if_pos rfl, bind_of_ok hok']
          rfl

namespace Scheduler

variable {s : Scheduler}

/-- The transforming passes, if there are any, and what is left to do after them. -/
theorem runInOrder_transform (horder : order.Permutes)
    (hlocal : ∀ pass ∈ s.transform, pass.Local c.config) (hc : c.Ready) :
    ∃ d, s.runInOrder order c =
        (if s.cleanup.isEmpty then (pure 0 : Optimize Nat)
          else cleanUp order s.cleanup 0 s.maxCleanupRounds) d ∧
      Undergoes c d fun f => roundEffect c.config f s.transform := by
  cases htransform : s.transform with
  | nil =>
      refine ⟨c, ?_, .refl c false⟩
      rw [runInOrder, htransform]
      rfl
  | cons pass rest =>
      rw [← htransform]
      obtain ⟨changed, d, hok, hcd, -⟩ := does_runRound horder .transform 0 hlocal hc
      refine ⟨d, ?_, hcd⟩
      rw [runInOrder, if_pos (by rw [htransform]; rfl)]
      exact bind_of_ok hok

/-- The pipeline has its effect on every function. -/
theorem runInOrder_spec (horder : order.Permutes)
    (htransform : ∀ pass ∈ s.transform, pass.Local c.config)
    (hcleanup : ∀ pass ∈ s.cleanup, pass.Local c.config)
    (hexact : ∀ pass ∈ s.cleanup, pass.Exact c.config) (hc : c.Ready) :
    ∃ n d, s.runInOrder order c = .ok n d ∧ Undergoes c d (s.effect c.config) ∧
      c.Greatest (fun f g => (s.effect c.config f g).value) n := by
  obtain ⟨k, hrun, hck⟩ := runInOrder_transform horder htransform hc
  have hk : k.Ready := hck.ready hc fun f g hg => proper_roundEffect htransform hg
  -- what the second phase does, and then both
  suffices h : ∃ n d, (if s.cleanup.isEmpty then (pure 0 : Optimize Nat)
        else cleanUp order s.cleanup 0 s.maxCleanupRounds) k = .ok n d ∧
      Undergoes k d (fun f => cleanUpEffect c.config f s.cleanup s.maxCleanupRounds) ∧
      k.Greatest (fun f g => (cleanUpEffect c.config f s.cleanup s.maxCleanupRounds g).value) n by
    obtain ⟨n, d, hok, hkd, hn⟩ := h
    exact ⟨n, d, hrun.trans hok, hck.trans hkd fun _ _ n => n, hck.greatest hn⟩
  by_cases hnil : s.cleanup = []
  · have hidle (f : String) (g : Graph) :
        cleanUpEffect c.config f [] s.maxCleanupRounds g = .idle 0 g := cleanUpEffect_of_idle rfl _
    rw [hnil]
    refine ⟨0, k, rfl, (Undergoes.refl k 0).congr fun f g _ => (hidle f g).symm,
      (Context.Greatest.zero k).congr fun f g _ => ?_⟩
    rw [hidle, Outcome.idle]
  · rw [if_neg (mt List.isEmpty_iff.mp hnil), ← hck.config_eq]
    exact cleanUp_spec horder (hck.config_eq ▸ hcleanup) (hck.config_eq ▸ hexact) hk 0 _

/-- The passes that a configuration enables are local, and the cleaning ones are exact. -/
theorem runInOrder_ofConfig (horder : order.Permutes) (hc : c.Ready) :
    ∃ n d, (ofConfig c.config).runInOrder order c = .ok n d ∧
      Undergoes c d ((ofConfig c.config).effect c.config) ∧
      c.Greatest (fun f g => ((ofConfig c.config).effect c.config f g).value) n := by
  have htransform : ∀ pass ∈ (ofConfig c.config).transform, pass = unrollPass := by
    intro pass hpass
    simp only [ofConfig] at hpass
    split at hpass
    · exact List.mem_singleton.mp hpass
    · cases hpass
  have hcleanup : ∀ pass ∈ (ofConfig c.config).cleanup, pass = deadCodePass := by
    intro pass hpass
    simp only [ofConfig] at hpass
    split at hpass
    · exact List.mem_singleton.mp hpass
    · cases hpass
  exact runInOrder_spec horder (fun pass hpass => htransform pass hpass ▸ local_unrollPass _)
    (fun pass hpass => hcleanup pass hpass ▸ local_deadCodePass _)
    (fun pass hpass => hcleanup pass hpass ▸ exact_deadCodePass _) hc

end Scheduler

/-- Let all functions be built and have a start, and let each turn take them in any order.  Then the
pipeline that the configuration calls for succeeds and leaves the functions under their names.  Each
of them gets the graph that the pipeline gives it when it is all there is, in whatever order and
with whatever log that is done, and the same events are added to its own.  The number of rounds is
the greatest of those that the functions have on their own. -/
theorem functions_do_not_interact
    (hfunctions : ∀ f g, c.function? f = some g → Built g ∧ g.start ≠ none)
    (horder : order.Permutes) :
    ∃ n d, (Scheduler.ofConfig c.config).runInOrder order c = .ok n d ∧ d.names = c.names ∧
      ∃ count : String → Nat, n = (c.names.map count).foldr max 0 ∧
        ∀ f g, c.function? f = some g → ∃ h new, d.function? f = some h ∧
          d.events.forFunction f = c.events.forFunction f ++ new ∧
          ∀ order' : VisitOrder, order'.Permutes → ∀ log, ∃ e,
            (Scheduler.ofConfig c.config).runInOrder order' (.alone f g log c.config) =
              .ok (count f) e ∧
            e.names = [f] ∧ e.function? f = some h ∧
            e.events.forFunction f = log.forFunction f ++ new := by
  have hstarted : c.Ready := fun f g hg =>
    ⟨(hfunctions f g hg).1.wellFormed, Option.ne_none_iff_exists'.mp (hfunctions f g hg).2⟩
  obtain ⟨n, d, hok, hcd, hn⟩ := Scheduler.runInOrder_ofConfig horder hstarted
  let count (f : String) : Nat := ((c.function? f).map fun g =>
    ((Scheduler.ofConfig c.config).effect c.config f g).value).getD 0
  have hcount {f g} (hg : c.function? f = some g) :
      count f = ((Scheduler.ofConfig c.config).effect c.config f g).value := by
    simp only [count, hg, Option.map_some, Option.getD_some]
  refine ⟨n, d, hok, hcd.names_eq, count, hn.eq_foldr_max fun f g => hcount, fun f g hg =>
    ⟨_, _, hcd.function? hg, hcd.events hg, fun order' horder' log => ?_⟩⟩
  have hready : (Context.alone f g log c.config).Ready := fun f' k hk =>
    (Context.function?_alone.mp hk).2 ▸ hstarted f g hg
  obtain ⟨m, e, hok', hce, hm⟩ := Scheduler.runInOrder_ofConfig horder' hready
  have hself : (Context.alone f g log c.config).function? f = some g :=
    Context.function?_alone.mpr ⟨rfl, rfl⟩
  have hmax : m = ([f].map count).foldr max 0 := hm.eq_foldr_max fun f' g' hg' => by
    obtain ⟨rfl, rfl⟩ := Context.function?_alone.mp hg'
    exact hcount hg
  obtain rfl : m = count f := hmax.trans (Nat.max_zero _)
  exact ⟨e, hok', hce.names_eq, hce.function? hself, hce.events hself⟩

/-- A dead assignment that another dead assignment reads. -/
def deadInChain : Graph :=
  after (Edit.addStart 2) (after (Edit.addAssign "x" (.const 15) 1)
    (after (Edit.addAssign "y" (.temp "x") 0) (after Edit.addReturn .empty)))

/-- One function that needs two rounds and one that needs a single one. -/
def chainAndSingle : Context :=
  ((Context.ofConfig .standard).addFunction "single" deadInFrontOfLive).addFunction "chain"
    deadInChain

theorem built_chainAndSingle (hg : chainAndSingle.function? f = some g) :
    Built g ∧ g.start ≠ none := by
  rw [chainAndSingle, Context.function?_addFunction, Context.function?_addFunction] at hg
  split at hg
  · cases hg
    exact ⟨.tail (.tail (.tail (.single (.addReturn _)) (.addAssign _ _ _ _)) (.addAssign _ _ _ _))
      (.addStart _ _), by decide⟩
  · split at hg
    · cases hg
      exact ⟨.tail (.tail (.tail (.single (.addReturn _)) (.addAssign _ _ _ _))
        (.addAssign _ _ _ _)) (.addStart _ _), by decide⟩
    · cases hg

/-- Two rounds for both, in the reverse order, come to the same as two for the one and one for the
other. -/
theorem functions_do_not_interact_chainAndSingle :
    (∀ f g, chainAndSingle.function? f = some g → Built g ∧ g.start ≠ none) ∧
      VisitOrder.Permutes (fun _ names => names.reverse) ∧
      ∃ d e, (Scheduler.ofConfig .standard).runInOrder (fun _ names => names.reverse)
          chainAndSingle = .ok 2 d ∧
        (Scheduler.ofConfig .standard).run (.alone "single" deadInFrontOfLive [] .standard) =
          .ok 1 e ∧
        d.names = ["chain", "single"] ∧ e.names = ["single"] ∧
        d.function? "single" = e.function? "single" ∧
        d.events.forFunction "single" = e.events.forFunction "single" := by
  have hreverse : VisitOrder.Permutes (fun _ names => names.reverse) :=
    fun _ names => names.reverse_perm
  have hkeep : VisitOrder.Permutes (fun _ names => names) := fun _ names => .refl names
  obtain ⟨n, d, hok, hd, count, -, hall⟩ := functions_do_not_interact
    (fun _ _ => built_chainAndSingle) hreverse
  obtain ⟨h, new, hh, hevents, halone⟩ := hall "single" deadInFrontOfLive rfl
  obtain ⟨e, hok', he, hh', hevents'⟩ := halone _ hkeep []
  have hrounds : (match (Scheduler.ofConfig .standard).runInOrder (fun _ names => names.reverse)
      chainAndSingle with
        | .ok n _ => n
        | .error _ _ => 0) = 2 := by
    decide +kernel
  have hrounds' : (match (Scheduler.ofConfig .standard).runInOrder (fun _ names => names)
      (.alone "single" deadInFrontOfLive [] .standard) with
        | .ok n _ => n
        | .error _ _ => 0) = 1 := by
    decide +kernel
  have hconfig : chainAndSingle.config = .standard := rfl
  rw [hconfig] at hok hok'
  rw [hok] at hrounds
  rw [hok'] at hrounds'
  obtain rfl : n = 2 := hrounds
  have hcount : count "single" = 1 := hrounds'
  rw [hcount] at hok'
  exact ⟨fun _ _ => built_chainAndSingle, hreverse, d, e, hok, hok', hd, he, hh.trans hh'.symm,
    hevents.trans hevents'.symm⟩

end Flowgraph

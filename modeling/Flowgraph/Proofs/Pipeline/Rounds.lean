import Flowgraph.Proofs.Pipeline.Effects

/-!
# What a round does to all functions

In a context each function has its own graph and its own events.  A turn of one function replaces
its graph and adds to its events, by the effect of a pass, and leaves all others alone.  So a round
has its effect on every function, in whatever order they are taken.

* `Context.Ready`: a context that the pipeline can be run on; `Context.alone` holds one function.
* `Undergoes`: every function of a context has had its effect.
* `Optimize.Does`: a computation has an effect on every function and says whether it was a change.
* `does_runOn`, `does_forAll_order`, `does_runRound`: a turn, a pass over all functions, a round.
-/

namespace Flowgraph

variable {α β γ : Type} {c d : Context} {config : OptimizerConfig} {pass : Pass}
  {passes : List Pass} {order : VisitOrder} {name f : String} {g h : Graph} {round : Nat}

/-! ### Contexts -/

namespace Context

/-- A function that is put in is found under its name, and all others where they were. -/
theorem lookup_insertFunction (name f : String) (g : Graph) (l : List (String × Graph)) :
    (insertFunction name g l).lookup f = if f = name then some g else l.lookup f := by
  induction l with
  | nil => grind [insertFunction]
  | cons entry rest ih => grind [insertFunction]

theorem function?_addFunction :
    (c.addFunction name g).function? f = if f = name then some g else c.function? f :=
  lookup_insertFunction ..

/-- Its name takes its place among the others. -/
theorem names_addFunction (c : Context) (name : String) (g : Graph) :
    (c.addFunction name g).names = Ascending.insert name c.names :=
  map_fst_insertFunction ..

/-- The names are those under which there are functions. -/
theorem mem_names_iff : f ∈ c.names ↔ ∃ g, c.function? f = some g := by
  rw [← Option.isSome_iff_exists, function?, List.lookup_isSome_iff, names, List.mem_map]
  exact exists_congr fun entry => and_congr_right fun _ => eq_comm.trans beq_iff_eq.symm

/-- A function that is all there is. -/
def alone (name : String) (g : Graph) (log : EventLog) (config : OptimizerConfig) : Context :=
  ⟨[(name, g)], log, config, List.pairwise_singleton ..⟩

theorem function?_alone {log : EventLog} {k : Graph} :
    (alone name g log config).function? f = some k ↔ f = name ∧ g = k := by
  rw [function?, alone, List.lookup_cons, List.lookup_nil]
  by_cases hf : f = name
  · rw [beq_iff_eq.mpr hf, Option.some_inj, and_iff_right hf]
  · rw [beq_false_of_ne hf]
    exact iff_of_false nofun fun h => hf h.1

/-- Every graph is one that a pass can be run on. -/
def Ready (c : Context) : Prop := ∀ f g, c.function? f = some g → g.Started

/-- Some function is like this. -/
def Somewhere (c : Context) (P : String → Graph → Prop) : Prop :=
  ∃ f g, c.function? f = some g ∧ P f g

/-- A name that is there keeps its place. -/
theorem names_addFunction_of_mem (hf : name ∈ c.names) :
    (c.addFunction name g).names = c.names := by
  rw [names_addFunction]
  refine Ascending.eq_of_mem_iff (Ascending.pairwise_insert c.ascending) c.ascending fun a => ?_
  rw [Ascending.mem_insert]
  exact ⟨fun h => h.elim (fun e => e ▸ hf) id, .inr⟩

end Context

namespace EventLog

theorem forFunction_append (log log' : EventLog) (f : String) :
    (log ++ log').forFunction f = log.forFunction f ++ log'.forFunction f :=
  List.filter_append ..

/-- All events of a log with one function are those of this function. -/
theorem forFunction_own {log : EventLog} (h : ∀ e ∈ log, e.function = some f) :
    log.forFunction f = log :=
  List.filter_eq_self.mpr fun e he => decide_eq_true (h e he)

/-- No other function has any of them. -/
theorem forFunction_other {log : EventLog} (h : ∀ e ∈ log, e.function = some name)
    (hne : f ≠ name) : log.forFunction f = [] :=
  List.filter_eq_nil_iff.mpr fun e he => by
    rw [h e he]
    simpa using hne.symm

end EventLog

/-! ### Effects on all functions -/

/-- Every function of a context has had its effect. -/
structure Undergoes (c d : Context) (effect : String → Graph → Outcome α) : Prop where
  config_eq : d.config = c.config
  names_eq : d.names = c.names
  function? : ∀ {f g}, c.function? f = some g → d.function? f = some (effect f g).graph
  events : ∀ {f g}, c.function? f = some g →
    d.events.forFunction f = c.events.forFunction f ++ (effect f g).events

namespace Undergoes

variable {effect effect' : String → Graph → Outcome α}

/-- Where nothing is done every function has undergone nothing. -/
theorem refl (c : Context) (a : α) : Undergoes c c fun _ => .idle a :=
  ⟨rfl, rfl, id, fun _ => (List.append_nil _).symm⟩

theorem congr (hcd : Undergoes c d effect)
    (h : ∀ f g, c.function? f = some g → effect f g = effect' f g) : Undergoes c d effect' where
  config_eq := hcd.config_eq
  names_eq := hcd.names_eq
  function? hg := h _ _ hg ▸ hcd.function? hg
  events hg := h _ _ hg ▸ hcd.events hg

/-- What is done in two steps has the effects of both, one after the other. -/
theorem trans {k : Context} {later : String → Graph → Outcome β} (hcd : Undergoes c d effect)
    (hdk : Undergoes d k later) (F : String → α → β → γ) :
    Undergoes c k fun f g => (effect f g).bind fun a h => (later f h).map (F f a) where
  config_eq := hdk.config_eq.trans hcd.config_eq
  names_eq := hdk.names_eq.trans hcd.names_eq
  function? hg := hdk.function? (hcd.function? hg)
  events hg := by
    rw [hdk.events (hcd.function? hg), hcd.events hg, List.append_assoc]
    rfl

/-- The functions are those there were. -/
theorem function?_eq_some_iff (hcd : Undergoes c d effect) :
    d.function? f = some h ↔ ∃ g, c.function? f = some g ∧ (effect f g).graph = h := by
  constructor
  · intro hd
    obtain ⟨g, hg⟩ := Context.mem_names_iff.mp
      (hcd.names_eq ▸ Context.mem_names_iff.mpr ⟨h, hd⟩)
    exact ⟨g, hg, Option.some.inj ((hcd.function? hg).symm.trans hd)⟩
  · rintro ⟨g, hg, rfl⟩
    exact hcd.function? hg

/-- What holds of some function afterwards holds of what it has become. -/
theorem somewhere_iff (hcd : Undergoes c d effect) {P : String → Graph → Prop} :
    d.Somewhere P ↔ c.Somewhere fun f g => P f (effect f g).graph := by
  constructor
  · rintro ⟨f, h, hd, hP⟩
    obtain ⟨g, hg, rfl⟩ := hcd.function?_eq_some_iff.mp hd
    exact ⟨f, g, hg, hP⟩
  · rintro ⟨f, g, hg, hP⟩
    exact ⟨f, _, hcd.function? hg, hP⟩

/-- Proper effects leave graphs that a pass can be run on. -/
theorem ready (hcd : Undergoes c d effect) (hc : c.Ready)
    (hproper : ∀ f g, g.Started → (effect f g).Proper f) : d.Ready := by
  intro f h hd
  obtain ⟨g, hg, rfl⟩ := hcd.function?_eq_some_iff.mp hd
  exact (hproper f g (hc f g hg)).started

end Undergoes

/-- The computation succeeds, has its effect on every function, and says whether that is a change of
any of them. -/
def Optimize.Does (m : Optimize Bool) (c : Context) (effect : String → Graph → Outcome Bool) :
    Prop :=
  ∃ changed d, m c = .ok changed d ∧ Undergoes c d effect ∧
    (changed = true ↔ c.Somewhere fun f g => (effect f g).value = true)

namespace Optimize.Does

variable {m m' : Optimize Bool} {effect effect' later : String → Graph → Outcome Bool}

theorem congr (hm : Does m c effect)
    (h : ∀ f g, c.function? f = some g → effect f g = effect' f g) : Does m c effect' := by
  obtain ⟨changed, d, hok, hcd, hchanged⟩ := hm
  refine ⟨changed, d, hok, hcd.congr h, hchanged.trans ⟨?_, ?_⟩⟩
  · rintro ⟨f, g, hg, hvalue⟩
    exact ⟨f, g, hg, by rwa [h f g hg] at hvalue⟩
  · rintro ⟨f, g, hg, hvalue⟩
    exact ⟨f, g, hg, by rwa [← h f g hg] at hvalue⟩

/-- Nothing is done. -/
theorem pure (c : Context) : Does (Pure.pure false) c fun _ => .idle false :=
  ⟨false, c, rfl, .refl c false, iff_of_false Bool.false_ne_true nofun⟩

/-- One after the other; any change of either is a change. -/
theorem or (hm : Does m c effect) (hm' : ∀ d, Undergoes c d effect → Does m' d later) :
    Does (do let changed ← m; let later ← m'; return changed || later) c
      fun f g => (effect f g).bind fun changed h => (later f h).map (changed || ·) := by
  obtain ⟨changed, d, hok, hcd, hchanged⟩ := hm
  obtain ⟨changed', k, hok', hdk, hchanged'⟩ := hm' d hcd
  refine ⟨changed || changed', k, ?_, hcd.trans hdk fun _ => (· || ·), ?_⟩
  · rw [bind_of_ok hok, bind_of_ok hok']
    rfl
  · rw [Bool.or_eq_true, hchanged, hchanged', hcd.somewhere_iff]
    simp only [Context.Somewhere, Outcome.bind, Outcome.map, Bool.or_eq_true, ← exists_or,
      ← and_or_left]

end Optimize.Does

/-! ### One pass -/

/-- The effect of a pass on some of the functions. -/
def visiting (names : List String) (effect : String → Graph → Outcome Bool) (f : String)
    (g : Graph) : Outcome Bool :=
  if f ∈ names then effect f g else .idle false g

section Visiting

variable {names : List String} {effect : String → Graph → Outcome Bool}

theorem visiting_of_mem (h : f ∈ names) : visiting names effect f g = effect f g := if_pos h

theorem visiting_of_not_mem (h : f ∉ names) : visiting names effect f g = .idle false g := if_neg h

/-- With one function to visit, only its own graph matters. -/
theorem visiting_singleton {k : Graph} (hg : c.function? name = some g)
    (hk : c.function? f = some k) :
    visiting [name] (fun _ _ => effect name g) f k = visiting [name] effect f k := by
  by_cases hf : f = name
  · subst hf
    obtain rfl := Option.some.inj (hg.symm.trans hk)
    rw [visiting_of_mem (List.mem_singleton_self f), visiting_of_mem (List.mem_singleton_self f)]
  · rw [visiting_of_not_mem (mt List.mem_singleton.mp hf),
      visiting_of_not_mem (mt List.mem_singleton.mp hf)]

/-- First one function, and then others. -/
theorem visiting_cons (h : name ∉ names) :
    visiting (name :: names) effect = fun f g =>
      (visiting [name] effect f g).bind fun changed k =>
        (visiting names effect f k).map (changed || ·) := by
  funext f g
  by_cases hf : f = name
  · subst hf
    simp only [visiting_of_mem List.mem_cons_self, visiting_of_not_mem h, Outcome.bind, Outcome.map,
      Outcome.idle, Bool.or_false, List.append_nil]
  · have hmem : f ∈ name :: names ↔ f ∈ names := List.mem_cons.trans (or_iff_right hf)
    rw [visiting_of_not_mem (mt List.mem_singleton.mp hf), Outcome.idle_bind, visiting, visiting]
    simp only [hmem]
    rfl

end Visiting

/-- A new graph for a function, with events of this function. -/
theorem undergoes_addFunction (hname : name ∈ c.names) {o : Outcome Bool}
    (ho : o.Proper name) :
    Undergoes c { c.addFunction name o.graph with events := c.events ++ o.events }
      (visiting [name] fun _ _ => o) := by
  refine ⟨rfl, Context.names_addFunction_of_mem hname, fun {f g} hg => ?_, fun {f g} hg => ?_⟩
  · refine Context.function?_addFunction.trans ?_
    split
    · next hf => rw [visiting_of_mem (List.mem_singleton.mpr hf)]
    · next hf => rw [visiting_of_not_mem (mt List.mem_singleton.mp hf), hg, Outcome.idle]
  · rw [EventLog.forFunction_append]
    by_cases hf : f = name
    · subst hf
      rw [visiting_of_mem (List.mem_singleton_self f), EventLog.forFunction_own ho.own]
    · rw [visiting_of_not_mem (mt List.mem_singleton.mp hf), EventLog.forFunction_other ho.own hf,
        Outcome.idle]

/-- A visit of one function is a change if it changed that one. -/
theorem somewhere_visiting_singleton (hname : name ∈ c.names) (o : Outcome Bool) :
    (c.Somewhere fun f g => (visiting [name] (fun _ _ => o) f g).value = true) ↔
      o.value = true := by
  constructor
  · rintro ⟨f, g, -, h⟩
    rw [visiting] at h
    split at h
    · exact h
    · cases h
  · intro h
    obtain ⟨g, hg⟩ := Context.mem_names_iff.mp hname
    refine ⟨name, g, hg, ?_⟩
    beta_reduce
    rwa [visiting_of_mem (List.mem_singleton_self name)]

/-- A turn of one function. -/
theorem does_runOn (hc : c.Ready) (hpass : pass.Local c.config) (hname : name ∈ c.names) :
    (Optimize.runOn pass round name).Does c (visiting [name] (pass.effect c.config)) := by
  by_cases hshould : pass.shouldRun c.config name = true
  · obtain ⟨g, hg⟩ := Context.mem_names_iff.mp hname
    have hstarted := hc name g hg
    have hdoes : (Optimize.runOn pass round name).Does c
        (visiting [name] fun _ _ => pass.effect c.config name g) := by
      refine ⟨_, _, ?_, undergoes_addFunction hname (hpass.proper hstarted),
        (somewhere_visiting_singleton hname _).symm⟩
      rw [Optimize.runOn, if_pos hshould, hg]
      dsimp only
      rw [hpass.run_eq hstarted hshould]
    exact hdoes.congr fun f k hk => visiting_singleton hg hk
  · have hrun : Optimize.runOn pass round name c = (pure false : Optimize Bool) c := if_neg hshould
    rw [Optimize.Does, hrun]
    refine (Optimize.Does.pure c).congr fun f k _ => ?_
    rw [visiting]
    split
    · next hf =>
        rw [List.mem_singleton.mp hf]
        exact (if_neg hshould).symm
    · rfl

/-- Turns of different functions. -/
theorem does_forAll_runOn {names : List String} (hc : c.Ready) (hpass : pass.Local c.config)
    (hnodup : names.Nodup) (hmem : ∀ name ∈ names, name ∈ c.names) :
    (Optimize.forAll (Optimize.runOn pass round) names).Does c
      (visiting names (pass.effect c.config)) := by
  induction names generalizing c with
  | nil =>
      exact (Optimize.Does.pure c).congr fun _ _ _ => (visiting_of_not_mem List.not_mem_nil).symm
  | cons name rest ih =>
      obtain ⟨hname, hrest⟩ := List.forall_mem_cons.mp hmem
      obtain ⟨hnew, hnodup⟩ := List.nodup_cons.mp hnodup
      rw [visiting_cons hnew]
      refine (does_runOn hc hpass hname).or fun d hcd => ?_
      have hd : d.Ready := hcd.ready hc fun f g hg => by
        rw [visiting]
        split
        · exact hpass.proper hg
        · exact .idle false hg
      have hlater := ih hd (hcd.config_eq ▸ hpass) hnodup
        fun other hother => hcd.names_eq ▸ hrest other hother
      rwa [hcd.config_eq] at hlater

/-! ### Rounds -/

/-- An order takes every function once. -/
def VisitOrder.Permutes (order : VisitOrder) : Prop := ∀ turn names, (order turn names).Perm names

/-- A pass over all functions, in any order. -/
theorem does_forAll_order (horder : order.Permutes) (hc : c.Ready) (hpass : pass.Local c.config)
    (turn : Turn) :
    (Optimize.forAll (Optimize.runOn pass round) (order turn c.names)).Does c
      (pass.effect c.config) := by
  have hperm := horder turn c.names
  refine (does_forAll_runOn hc hpass (hperm.nodup_iff.mpr c.ascending.nodup)
    fun _ => hperm.mem_iff.mp).congr fun f g hg => ?_
  exact visiting_of_mem (hperm.mem_iff.mpr (Context.mem_names_iff.mpr ⟨g, hg⟩))

/-- The passes of a round, one after the other. -/
theorem does_forAll_passes (horder : order.Permutes) (phase : Phase) (round : Nat)
    {names : List String} (hpasses : ∀ pass ∈ passes, pass.Local config) (hc : c.Ready)
    (hconfig : c.config = config) (hnames : c.names = names) (position : Nat) :
    (Optimize.forAll (fun (pass, position) =>
      Optimize.forAll (Optimize.runOn pass round) (order ⟨phase, round, position⟩ names))
      (passes.zipIdx position)).Does c fun f => roundEffect config f passes := by
  induction passes generalizing c position with
  | nil => exact .pure c
  | cons pass rest ih =>
      obtain ⟨hpass, hrest⟩ := List.forall_mem_cons.mp hpasses
      subst hconfig hnames
      refine (does_forAll_order horder hc hpass ⟨phase, round, position⟩).or fun d hcd => ?_
      exact ih hrest (hcd.ready hc fun f g hg => hpass.proper hg) hcd.config_eq hcd.names_eq _

/-- Setting up and tearing down does nothing if it does nothing for each pass. -/
theorem forM_onEvents {m : Pass → EStateM GraphError EventLog Unit}
    (h : ∀ pass ∈ passes, ∀ log, m pass log = .ok () log) (c : Context) :
    (passes.forM fun pass => Optimize.onEvents (m pass)) c = .ok () c := by
  induction passes with
  | nil => rfl
  | cons pass rest ih =>
      obtain ⟨hpass, hrest⟩ := List.forall_mem_cons.mp h
      have hfirst : Optimize.onEvents (m pass) c = .ok () c := by
        rw [Optimize.onEvents, hpass]
      exact (bind_of_ok hfirst).trans (ih hrest)

/-- A round of local passes has its effect on every function, in whatever orders they are taken. -/
theorem does_runRound (horder : order.Permutes) (phase : Phase) (round : Nat)
    (hpasses : ∀ pass ∈ passes, pass.Local c.config) (hc : c.Ready) :
    (Scheduler.runRound order phase round passes).Does c
      fun f => roundEffect c.config f passes := by
  obtain ⟨changed, d, hok, hcd, hchanged⟩ :=
    does_forAll_passes horder phase round hpasses hc rfl rfl 0
  refine ⟨changed, d, ?_, hcd, hchanged⟩
  have hsetup := forM_onEvents (fun pass hpass => (hpasses pass hpass).setup_eq) c
  have hget : (get : Optimize Context) c = .ok c c := rfl
  have hteardown := forM_onEvents (fun pass hpass => (hpasses pass hpass).teardown_eq) d
  rw [Scheduler.runRound, bind_of_ok hsetup, bind_of_ok hget, bind_of_ok hok, bind_of_ok hteardown]
  rfl

end Flowgraph

import Flowgraph.Proofs.Renaming.Graphs
import Flowgraph.Proofs.Unroll.Lookahead

/-!
# Guards of a renamed graph

The induction variables of a body are sorted by name and the one that a guard tests is picked by
name.  A body has at most one of each name, so that the order does not matter: the variable that is
picked in a renamed graph is the one that was picked under its old name, and a loop has a guard
exactly if it had one.

* `inductionVar?_rename`, `mem_inductionVars_rename`: the induction variables.
* `Guard.inductionVar_rename`, `Guard.analyze_rename`: the one that is picked, and the guard or the
  reason against one.
-/

namespace Flowgraph

variable {ρ : String → String} {g : Graph} {body : List NodeId} {n header : NodeId}

/-! ### Induction variables -/

/-- The variable under its new name. -/
def InductionVar.rename (ρ : String → String) (v : InductionVar) : InductionVar :=
  { v with name := ρ v.name }

section Injective

variable (hρ : Renaming ρ)

include hρ

/-- An increment of a temporary is one of the renamed temporary, by the same constant. -/
theorem selfIncrement?_rename (x : String) (e : Expr) :
    selfIncrement? (ρ x) (e.rename ρ) = selfIncrement? x e := by
  cases e with
  | binop op left right =>
      cases op with
      | add | sub =>
          cases left <;> cases right <;> simp [Expr.rename, selfIncrement?, hρ.injective.eq_iff]
      | _ => rfl
  | _ => rfl

/-- As many nodes write it. -/
theorem writers_rename (x : String) : writers (g.rename ρ) body (ρ x) = writers g body x := by
  rw [writers, writers]
  congr 2
  funext n
  simp [Graph.rename_mem_defs_rename hρ]

/-- The variable that a node updates is renamed. -/
theorem inductionVar?_rename :
    inductionVar? (g.rename ρ) body n = (inductionVar? g body n).map (InductionVar.rename ρ) := by
  rw [inductionVar?, inductionVar?, Graph.kind?_rename]
  cases g.kind? n with
  | none => rfl
  | some k =>
      cases k with
      | stmt s =>
          cases s with
          | assign name value =>
              simp only [Option.map_some, Kind.rename, Stmt.rename, writers_rename hρ,
                selfIncrement?_rename hρ]
              split
              · rw [Option.map_map]
                rfl
              · rfl
          | _ => rfl
      | _ => rfl

/-- The induction variables are renamed; their order may be another. -/
theorem mem_inductionVars_rename {w : InductionVar} :
    w ∈ inductionVars (g.rename ρ) body ↔ ∃ v ∈ inductionVars g body, v.rename ρ = w := by
  simp only [inductionVars, List.mem_mergeSort, List.mem_filterMap, inductionVar?_rename hρ,
    Option.map_eq_some_iff]
  constructor
  · rintro ⟨n, hn, v, hv, rfl⟩
    exact ⟨v, ⟨n, hn, hv⟩, rfl⟩
  · rintro ⟨v, ⟨n, hn, hv⟩, rfl⟩
    exact ⟨n, hn, v, hv, rfl⟩

end Injective

/-! ### Guards -/

namespace Guard

/-- The guard on the renamed variable and bound. -/
def rename (ρ : String → String) (guard : Guard) : Guard :=
  { guard with iv := ρ guard.iv, bound := guard.bound.rename ρ }

theorem comparison?_rename :
    comparison? (g.rename ρ) header =
      (comparison? g header).map fun c => (c.1, c.2.1.rename ρ, c.2.2.rename ρ) := by
  rw [comparison?, comparison?, Graph.kind?_rename]
  cases g.kind? header with
  | none => rfl
  | some k =>
      cases k with
      | branch cond => cases cond <;> rfl
      | _ => rfl

/-- The variable that a bare temporary names is found, wherever it is in the order. -/
theorem inductionVar_eq_ok {left : Expr} {v : InductionVar} :
    inductionVar g body left = .ok v ↔ left = .temp v.name ∧ v ∈ inductionVars g body := by
  refine ⟨inductionVar_ok, ?_⟩
  rintro ⟨rfl, hv⟩
  obtain ⟨w, hw⟩ : ∃ w, (inductionVars g body).find? (fun w => w.name == v.name) = some w :=
    Option.isSome_iff_exists.mp (List.find?_isSome.mpr ⟨v, hv, by simp⟩)
  have hname : w.name = v.name := by simpa using List.find?_some hw
  obtain rfl := eq_of_name_eq (List.mem_of_find?_eq_some hw) hv hname
  simp [inductionVar, Expr.temp?, hw]

theorem inductionVar_error {left : Expr} {reason : SkipReason}
    (h : inductionVar g body left = .error reason) : reason = .noInductionVariable := by
  rw [inductionVar] at h
  split at h
  · cases h
  · cases h
    rfl

/-- A header has the same ends. -/
theorem ends_rename : ends (g.rename ρ) header body = (ends g header body).map id := by
  have hid : ends (g.rename ρ) header body = ends g header body := by simp [ends]
  rw [hid]
  cases ends g header body <;> rfl

section Checks

variable {ε α β γ δ : Type} {φ : γ → δ}

/-- What goes on after related results is related. -/
theorem bind_eq_map {e : Except ε α} {e' : Except ε β} {f : α → β} {k : α → Except ε γ}
    {k' : β → Except ε δ} (he : e' = e.map f) (hk : ∀ a, k' (f a) = (k a).map φ) :
    (e' >>= k') = (e >>= k).map φ := by
  subst he
  cases e with
  | error _ => rfl
  | ok a => exact hk a

/-- So is what goes on after the same check. -/
theorem ite_eq_map {c c' : Prop} [Decidable c] [Decidable c'] {a b : Except ε γ}
    {a' b' : Except ε δ} (hc : c' ↔ c) (ha : a' = a.map φ) (hb : b' = b.map φ) :
    (if c' then a' else b') = (if c then a else b).map φ := by
  simp only [hc]
  split
  · exact ha
  · exact hb

end Checks

variable (hρ : Renaming ρ)

include hρ

/-- The same variable is found under its new name. -/
theorem inductionVar_rename (left : Expr) :
    inductionVar (g.rename ρ) body (left.rename ρ) =
      (inductionVar g body left).map (InductionVar.rename ρ) := by
  cases h : inductionVar g body left with
  | ok v =>
      obtain ⟨rfl, hv⟩ := inductionVar_eq_ok.mp h
      exact inductionVar_eq_ok.mpr ⟨rfl, (mem_inductionVars_rename hρ).mpr ⟨v, hv, rfl⟩⟩
  | error reason =>
      obtain rfl := inductionVar_error h
      cases h' : inductionVar (g.rename ρ) body (left.rename ρ) with
      | error reason => rw [inductionVar_error h']; rfl
      | ok w =>
          -- what is found under the new name would have been found under the old one
          obtain ⟨hleft, hw⟩ := inductionVar_eq_ok.mp h'
          obtain ⟨v, hv, rfl⟩ := (mem_inductionVars_rename hρ).mp hw
          cases left with
          | temp name =>
              obtain rfl : name = v.name := hρ.injective (Expr.temp.inj hleft)
              rw [inductionVar_eq_ok.mpr ⟨rfl, hv⟩] at h
              cases h
          | _ => cases hleft

theorem mem_bodyDefs_rename {x : String} :
    ρ x ∈ bodyDefs (g.rename ρ) body ↔ x ∈ bodyDefs g body := by
  simp only [bodyDefs, Ascending.mem_unions, List.mem_map, exists_exists_and_eq_and,
    Graph.rename_mem_defs_rename hρ]

/-- A bound stays invariant. -/
theorem isInvariant_rename (e : Expr) :
    (e.rename ρ).isInvariant (bodyDefs (g.rename ρ) body) = e.isInvariant (bodyDefs g body) := by
  induction e with
  | temp x =>
      simp [Expr.rename, Expr.isInvariant, mem_bodyDefs_rename hρ]
  | binop op left right ihl ihr => simp only [Expr.rename, Expr.isInvariant, ihl, ihr]
  | _ => rfl

/-- A loop has the renamed guard, or none for the same reason. -/
theorem analyze_rename (config : UnrollConfig) :
    Guard.analyze (g.rename ρ) header body config =
      (Guard.analyze g header body config).map (Guard.rename ρ) := by
  rw [analyze, analyze]
  refine ite_eq_map Iff.rfl rfl (ite_eq_map Iff.rfl rfl ?_)
  refine bind_eq_map comparison?_rename fun c => ?_
  obtain ⟨op, left, right⟩ := c
  refine bind_eq_map (inductionVar_rename hρ left) fun v => ?_
  refine ite_eq_map Iff.rfl rfl (ite_eq_map (by rw [isInvariant_rename hρ]) rfl ?_)
  exact bind_eq_map ends_rename fun _ => rfl

end Guard

end Flowgraph

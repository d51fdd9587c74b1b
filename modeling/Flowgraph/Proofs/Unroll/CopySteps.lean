import Flowgraph.Proofs.Edits
import Flowgraph.Unroll.BodyCopy

/-!
# Copying step by step

A computation that copies nodes, read as an edit that takes a copy map in and gives one back.

* `bind_apply`, `lift_apply`, `mapM_cons`, `mapM_cons_ok`: reading sequences.
* `copyNode_succ`: the copy of one node, with `copyTarget` for each of its successors.
-/

namespace Flowgraph.BodyCopy

open Edit

variable {α β : Type}

/-- In a sequence of copies the records are handed on. -/
theorem bind_apply (m : CopyM α) (f : α → CopyM β) (σ : CopyMap) :
    (m >>= f) σ = (m σ >>= fun p => f p.1 p.2 : Edit (β × CopyMap)) := rfl

theorem pure_apply (a : α) (σ : CopyMap) :
    (pure a : CopyM α) σ = (pure (a, σ) : Edit (α × CopyMap)) := rfl

theorem lift_apply (e : Edit α) (σ : CopyMap) :
    (liftM e : CopyM α) σ = (e >>= fun a => pure (a, σ) : Edit (α × CopyMap)) := rfl

theorem setCopy_apply (n c : NodeId) (σ : CopyMap) :
    setCopy n c σ = (pure ((), (n, c) :: σ) : Edit (Unit × CopyMap)) := rfl

theorem copyOf?_apply (n : NodeId) (σ : CopyMap) :
    copyOf? n σ = (pure (σ.lookup n, σ) : Edit (Option NodeId × CopyMap)) := rfl

theorem mapM_nil (f : α → CopyM β) (σ : CopyMap) :
    (([] : List α).mapM f) σ = (pure ([], σ) : Edit (List β × CopyMap)) := rfl

/-- What is copied first is recorded for the rest. -/
theorem mapM_cons (f : α → CopyM β) (a : α) (l : List α) (σ : CopyMap) :
    ((a :: l).mapM f) σ =
      (f a σ >>= fun p => l.mapM f p.2 >>= fun q => pure (p.1 :: q.1, q.2) :
        Edit (List β × CopyMap)) := by
  rw [List.mapM_cons]
  simp only [bind_apply, pure_apply]

/-- The rest of a list is gone through from where its head has led. -/
theorem mapM_cons_ok {f : α → CopyM β} {a : α} {l : List α} {bs : List β} {σ τ : CopyMap}
    {g h : Graph} (hok : (a :: l).mapM f σ g = .ok (bs, τ) h) :
    ∃ b υ m rest, f a σ g = .ok (b, υ) m ∧ l.mapM f υ m = .ok (rest, τ) h ∧ bs = b :: rest := by
  rw [mapM_cons] at hok
  obtain ⟨⟨b, υ⟩, m, hfirst, hok⟩ := bind_eq_ok.mp hok
  obtain ⟨⟨rest, υ'⟩, m', hrest, hok⟩ := bind_eq_ok.mp hok
  rw [Edit.pure_apply, EStateM.Result.ok.injEq, Prod.mk.injEq] at hok
  obtain ⟨⟨rfl, rfl⟩, rfl⟩ := hok
  exact ⟨b, υ, m, rest, hfirst, hrest, rfl⟩

variable (body : List NodeId) (header back : NodeId)

/-- What an edge to `s` becomes in a copy. -/
def copyTarget (depth : Nat) (s : NodeId) : CopyM NodeId :=
  if s = header then return back
  else if s ∈ body then copyNode body header back depth s
  else return s

/-- One copy: what stands for the node already; a self-loop as it is; otherwise a stub, the copies
of the targets, and the node with these in the place of the stub. -/
theorem copyNode_succ (depth : Nat) (n : NodeId) (σ : CopyMap) (g : Graph) :
    copyNode body header back (depth + 1) n σ g =
      match σ.lookup n with
      | some copy => .ok (copy, σ) g
      | none =>
          if g.kind? n = some .selfLoop then
            (cloneNode n [] >>= fun copy => pure (copy, (n, copy) :: σ) : Edit _) g
          else
            (addStub >>= fun pending =>
              (g.succs n).mapM (copyTarget body header back depth) ((n, pending) :: σ) >>=
                fun p => cloneNode n p.1 >>=
                  fun copy => resolveStub pending copy >>=
                    fun _ => pure (copy, (n, copy) :: p.2) : Edit _) g := by
  rw [copyNode, bind_apply, copyOf?_apply, pure_bind]
  cases hn : σ.lookup n with
  | some copy => rfl
  | none =>
      have hget : (getThe Graph : CopyM Graph) σ = (get >>= fun g => pure (g, σ) : Edit _) := rfl
      simp only []
      rw [bind_apply, hget]
      by_cases hk : g.kind? n = some .selfLoop
      · rw [if_pos hk]
        -- the test of the kind stands under both states, where `rw` does not find it
        change (if ((g.kind? n).map Kind.isSelfLoop).getD false = true then _ else _ :
          CopyM NodeId) σ g = _
        rw [if_pos (by simp [hk, Kind.isSelfLoop])]
        simp only [bind_apply, lift_apply, setCopy_apply, pure_apply, bind_assoc, pure_bind]
      · rw [if_neg hk]
        change (if ((g.kind? n).map Kind.isSelfLoop).getD false = true then _ else _ :
          CopyM NodeId) σ g = _
        have hns : ¬((g.kind? n).map Kind.isSelfLoop).getD false = true := by
          cases hn : g.kind? n with
          | none => simp
          | some k =>
              rw [hn] at hk
              simpa using mt (congrArg some) hk
        rw [if_neg hns]
        simp only [bind_apply, lift_apply, setCopy_apply, pure_apply, bind_assoc, pure_bind]
        rfl

/-- A copy of a body starts with nothing copied. -/
theorem copyBody_eq (entry : NodeId) :
    copyBody body header back entry =
      copyNode body header back (body.length + 1) entry [] >>= fun p => pure p.1 := rfl

end Flowgraph.BodyCopy

/-!
# Ascending lists

A finite set of names or node identifiers is kept as the list of its members in strictly
ascending order, so that equal sets are equal lists and a listing is sorted by construction.

* `mem_insert`, `mem_union`, `mem_ofList`: membership is that of the set.
* `pairwise_insert`, `pairwise_union`, `pairwise_unions`: the order is strict.
* `eq_of_mem_iff`: an ascending list is determined by its members.
-/

namespace Flowgraph

/-- Strictly ascending, hence without repetition. -/
abbrev Ascending {α : Type} [LT α] (l : List α) : Prop := l.Pairwise (· < ·)

namespace Ascending

section Operations

variable {α : Type} [LT α] [DecidableLT α] [DecidableEq α]

/-- Put `a` at its place; a member stays where it is. -/
def insert (a : α) : List α → List α
  | [] => [a]
  | b :: l => if a < b then a :: b :: l else if a = b then b :: l else b :: insert a l

/-- The members of either list; the second is taken to be ascending. -/
def union (l₁ l₂ : List α) : List α := l₁.foldr insert l₂

/-- The members of any list, in order and once each. -/
def ofList (l : List α) : List α := union l []

/-- The members of all the lists. -/
def unions (ls : List (List α)) : List α := ls.foldr union []

@[simp] theorem mem_insert {a b : α} {l : List α} : b ∈ insert a l ↔ b = a ∨ b ∈ l := by
  induction l with
  | nil => simp [insert]
  | cons c l ih =>
      unfold insert
      split
      · simp
      · split
        · next h => subst h; simp
        · simp only [List.mem_cons, ih]; grind

@[simp] theorem mem_union {b : α} {l₁ l₂ : List α} : b ∈ union l₁ l₂ ↔ b ∈ l₁ ∨ b ∈ l₂ := by
  induction l₁ with
  | nil => simp [union]
  | cons a l₁ ih => simp only [union, List.foldr_cons, mem_insert, List.mem_cons] at ih ⊢; grind

@[simp] theorem mem_ofList {b : α} {l : List α} : b ∈ ofList l ↔ b ∈ l := by simp [ofList]

@[simp] theorem mem_unions {b : α} {ls : List (List α)} : b ∈ unions ls ↔ ∃ l ∈ ls, b ∈ l := by
  induction ls with
  | nil => simp [unions]
  | cons l ls ih => simp only [unions, List.foldr_cons, mem_union] at ih ⊢; simp [ih]

end Operations

variable {α : Type} [LT α] [DecidableLT α] [DecidableEq α] [LE α] [Std.IsLinearOrder α]
  [Std.LawfulOrderLT α]

/-- Putting an element at its place keeps the order strict. -/
theorem pairwise_insert {a : α} {l : List α} (h : Ascending l) : Ascending (insert a l) := by
  induction l with
  | nil => simp [insert, Ascending]
  | cons b l ih =>
      obtain ⟨hb, hl⟩ := List.pairwise_cons.1 h
      unfold insert
      split
      · next hab =>
          refine List.pairwise_cons.2 ⟨fun c hc => ?_, h⟩
          rcases List.mem_cons.1 hc with rfl | hc
          · exact hab
          · exact Std.lt_trans hab (hb c hc)
      · split
        · exact h
        · next hab hne =>
            refine List.pairwise_cons.2 ⟨fun c hc => ?_, ih hl⟩
            rcases mem_insert.1 hc with rfl | hc
            · exact Std.lt_of_le_of_ne (Std.not_lt.1 hab) (Ne.symm hne)
            · exact hb c hc

/-- A union is in order if its second part is. -/
theorem pairwise_union {l₁ l₂ : List α} (h : Ascending l₂) : Ascending (union l₁ l₂) := by
  induction l₁ with
  | nil => exact h
  | cons a l₁ ih => exact pairwise_insert ih

theorem pairwise_ofList (l : List α) : Ascending (ofList l) := pairwise_union .nil

/-- A union of any number of lists is in order, whatever they are. -/
theorem pairwise_unions (ls : List (List α)) : Ascending (unions ls) := by
  induction ls with
  | nil => exact .nil
  | cons l ls ih => exact pairwise_union ih

omit [DecidableLT α] [DecidableEq α] in
/-- Two ascending lists with the same members are the same list. -/
theorem eq_of_mem_iff {l₁ l₂ : List α} (h₁ : Ascending l₁) (h₂ : Ascending l₂)
    (h : ∀ a, a ∈ l₁ ↔ a ∈ l₂) : l₁ = l₂ := by
  induction l₁ generalizing l₂ with
  | nil =>
      cases l₂ with
      | nil => rfl
      | cons b l₂ => simpa using h b
  | cons a l₁ ih =>
      obtain ⟨ha, hl₁⟩ := List.pairwise_cons.1 h₁
      cases l₂ with
      | nil => simpa using h a
      | cons b l₂ =>
          obtain ⟨hb, hl₂⟩ := List.pairwise_cons.1 h₂
          -- of two different heads each would lie strictly below the other
          have hab : a = b := by
            rcases List.mem_cons.1 ((h a).1 List.mem_cons_self) with rfl | hm
            · rfl
            · rcases List.mem_cons.1 ((h b).2 List.mem_cons_self) with rfl | hm'
              · rfl
              · exact absurd (Std.lt_trans (ha b hm') (hb a hm)) Std.lt_irrefl
          subst hab
          refine congrArg (a :: ·) (ih hl₁ hl₂ fun c => ?_)
          have hc := h c
          simp only [List.mem_cons] at hc
          refine ⟨fun m => ?_, fun m => ?_⟩
          · rcases hc.1 (.inr m) with rfl | m'
            · exact absurd (ha _ m) Std.lt_irrefl
            · exact m'
          · rcases hc.2 (.inr m) with rfl | m'
            · exact absurd (hb _ m) Std.lt_irrefl
            · exact m'

end Ascending

end Flowgraph

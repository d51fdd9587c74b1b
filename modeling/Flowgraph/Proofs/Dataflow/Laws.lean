import Flowgraph.Dataflow
import Flowgraph.Proofs.Reach
import Mathlib.Data.List.Forall2
import Mathlib.Order.WellFounded

/-!
# The laws of a dataflow problem

What a dataflow problem has to satisfy for its solution to make sense.  The laws are asked of a set
of *valid* values only, so that a type may hold values that no problem ever uses.

* `MeetLaws`: the meet of valid values is their greatest lower bound, and the top is above them.
* `Problem.Lawful`: transfers are monotone on every edge and give each edge a value.
* `MeetLaws.foldr_eq_of_mem_iff`: a meet depends only on which values are met.
* `wellFounded_falls`: if no strict descent of one value goes on for ever, no descent of a list of
  values does.
-/

namespace Flowgraph.Dataflow

variable {α : Type} [MeetLattice α] {valid : α → Prop} {top a b c w : α} {vs ws : List α}

/-- The order of the lattice. -/
def Below (a b : α) : Prop := meet a b = a

/-- On the valid values the meet is associative, commutative and idempotent, with the top as
identity. -/
structure MeetLaws (valid : α → Prop) (top : α) : Prop where
  valid_top : valid top
  valid_meet : ∀ {a b}, valid a → valid b → valid (meet a b)
  assoc : ∀ {a b c}, valid a → valid b → valid c → meet (meet a b) c = meet a (meet b c)
  comm : ∀ {a b}, valid a → valid b → meet a b = meet b a
  idem : ∀ {a}, valid a → meet a a = a
  top_meet : ∀ {a}, valid a → meet top a = a

namespace MeetLaws

variable (h : MeetLaws valid top)

include h

theorem below_refl (ha : valid a) : Below a a := h.idem ha

/-- Being below is transitive, by associativity. -/
theorem below_trans (ha : valid a) (hb : valid b) (hc : valid c) (hab : Below a b)
    (hbc : Below b c) : Below a c :=
  calc meet a c
      _ = meet (meet a b) c := by rw [hab]
      _ = meet a (meet b c) := h.assoc ha hb hc
      _ = a := by rw [hbc, hab]

/-- Values below each other are equal, as the meet is commutative. -/
theorem below_antisymm (ha : valid a) (hb : valid b) (hab : Below a b) (hba : Below b a) :
    a = b :=
  calc a
      _ = meet a b := hab.symm
      _ = meet b a := h.comm ha hb
      _ = b := hba

theorem meet_top (ha : valid a) : meet a top = a := by rw [h.comm ha h.valid_top, h.top_meet ha]

theorem below_top (ha : valid a) : Below a top := h.meet_top ha

/-- A meet lies below both its parts. -/
theorem meet_below_left (ha : valid a) (hb : valid b) : Below (meet a b) a := by
  rw [Below, h.comm (h.valid_meet ha hb) ha, ← h.assoc ha ha hb, h.idem ha]

theorem meet_below_right (ha : valid a) (hb : valid b) : Below (meet a b) b := by
  rw [Below, h.assoc ha hb hb, h.idem hb]

/-- It is the greatest value that does. -/
theorem below_meet (hw : valid w) (ha : valid a) (hb : valid b) (hwa : Below w a)
    (hwb : Below w b) : Below w (meet a b) := by
  rw [Below, ← h.assoc hw ha hb, hwa, hwb]

/-! ### The meet of a list -/

theorem valid_foldr (hvs : ∀ v ∈ vs, valid v) : valid (vs.foldr meet top) := by
  induction vs with
  | nil => exact h.valid_top
  | cons v vs ih =>
      exact h.valid_meet (hvs v List.mem_cons_self)
        (ih fun x hx => hvs x (List.mem_cons_of_mem _ hx))

/-- The meet of a list lies below every element. -/
theorem foldr_below (hvs : ∀ v ∈ vs, valid v) (ha : a ∈ vs) : Below (vs.foldr meet top) a := by
  induction vs with
  | nil => cases ha
  | cons v vs ih =>
      have hv : valid v := hvs v List.mem_cons_self
      have hrest : ∀ x ∈ vs, valid x := fun x hx => hvs x (List.mem_cons_of_mem _ hx)
      have hm := h.valid_foldr hrest
      rcases List.mem_cons.mp ha with rfl | ha
      · exact h.meet_below_left hv hm
      · exact h.below_trans (h.valid_meet hv hm) hm (hrest a ha) (h.meet_below_right hv hm)
          (ih hrest ha)

/-- It is the greatest value below them all and below the top. -/
theorem below_foldr (hvs : ∀ v ∈ vs, valid v) (hw : valid w) (hb : ∀ v ∈ vs, Below w v) :
    Below w (vs.foldr meet top) := by
  induction vs with
  | nil => exact h.below_top hw
  | cons v vs ih =>
      have hrest : ∀ x ∈ vs, valid x := fun x hx => hvs x (List.mem_cons_of_mem _ hx)
      exact h.below_meet hw (hvs v List.mem_cons_self) (h.valid_foldr hrest)
        (hb v List.mem_cons_self) (ih hrest fun x hx => hb x (List.mem_cons_of_mem _ hx))

/-- Meeting from the left is meeting from the right. -/
theorem foldl_eq_foldr (ha : valid a) (hvs : ∀ v ∈ vs, valid v) :
    vs.foldl meet a = meet a (vs.foldr meet top) := by
  induction vs generalizing a with
  | nil => exact (h.meet_top ha).symm
  | cons v vs ih =>
      have hv : valid v := hvs v List.mem_cons_self
      have hrest : ∀ x ∈ vs, valid x := fun x hx => hvs x (List.mem_cons_of_mem _ hx)
      rw [List.foldl_cons, ih (h.valid_meet ha hv) hrest, List.foldr_cons,
        h.assoc ha hv (h.valid_foldr hrest)]

/-- A greater meet has fewer or greater values to meet. -/
theorem foldr_below_foldr (hvs : ∀ v ∈ vs, valid v) (hws : ∀ w ∈ ws, valid w)
    (hvw : ∀ w ∈ ws, ∃ v ∈ vs, Below v w) : Below (vs.foldr meet top) (ws.foldr meet top) := by
  refine h.below_foldr hws (h.valid_foldr hvs) fun w hw => ?_
  obtain ⟨v, hv, hb⟩ := hvw w hw
  exact h.below_trans (h.valid_foldr hvs) (hvs v hv) (hws w hw) (h.foldr_below hvs hv) hb

/-- The meet of a list depends only on its members. -/
theorem foldr_eq_of_mem_iff (hvs : ∀ v ∈ vs, valid v) (hvw : ∀ v, v ∈ vs ↔ v ∈ ws) :
    vs.foldr meet top = ws.foldr meet top := by
  have hws : ∀ w ∈ ws, valid w := fun w hw => hvs w ((hvw w).mpr hw)
  refine h.below_antisymm (h.valid_foldr hvs) (h.valid_foldr hws) ?_ ?_
  · exact h.foldr_below_foldr hvs hws fun w hw => ⟨w, (hvw w).mpr hw, h.below_refl (hws w hw)⟩
  · exact h.foldr_below_foldr hws hvs fun v hv => ⟨v, (hvw v).mp hv, h.below_refl (hvs v hv)⟩

end MeetLaws

/-- The value that outputs give to an edge: the only one, or the one at its position. -/
def valueAt (outputs : List α) (position : Nat) : Option α :=
  match outputs with
  | [v] => some v
  | vs => vs[position]?

omit [MeetLattice α] in
/-- An edge takes the value transferred to its position, and keeps its own if there is none. -/
theorem edgeValue_eq (outputs : List α) (position : Nat) (old : α) :
    edgeValue outputs position old = (valueAt outputs position).getD old := by
  match outputs with
  | [] => rfl
  | [_] => rfl
  | _ :: _ :: _ => rfl

omit [MeetLattice α] in
theorem mem_of_valueAt {outputs : List α} {position : Nat} {v : α}
    (h : valueAt outputs position = some v) : v ∈ outputs := by
  unfold valueAt at h
  split at h
  · simpa using h.symm
  · exact List.mem_of_getElem? h

omit [MeetLattice α] in
/-- One value for all edges, or one for each, gives every edge a value. -/
theorem exists_valueAt {outputs : List α} {edges position : Nat} (hp : position < edges)
    (h : outputs.length = 1 ∨ outputs.length = edges) : ∃ v, valueAt outputs position = some v := by
  unfold valueAt
  split
  · next v => exact ⟨v, rfl⟩
  · next hne =>
      rcases h with h | h
      · obtain ⟨v, rfl⟩ := List.length_eq_one_iff.mp h
        exact absurd rfl (hne v)
      · exact ⟨_, List.getElem?_eq_getElem (h ▸ hp)⟩

namespace Problem

variable (p : Problem α) (g : Graph)

/-- The laws of a problem on a graph, for some set of values that contains all that arise. -/
structure Lawful (valid : α → Prop) : Prop extends MeetLaws valid p.top where
  valid_boundary : ∀ {v}, p.boundary = some v → valid v
  valid_transfer : ∀ {n a v}, n ∈ g.reachable → valid a → v ∈ p.transfer n a → valid v
  arity : ∀ {n a}, n ∈ g.reachable → valid a →
    (p.transfer n a).length = 1 ∨ (p.transfer n a).length = (p.direction.targets g n).length
  monotone : ∀ {n a b i v w}, n ∈ g.reachable → valid a → valid b → Below a b →
    i < (p.direction.targets g n).length → valueAt (p.transfer n a) i = some v →
    valueAt (p.transfer n b) i = some w → Below v w

end Problem

/-- A measure of the valid values that falls with every strict descent. -/
def Ranks (valid : α → Prop) (rank : α → Nat) : Prop :=
  ∀ {a b}, valid a → valid b → Below a b → a ≠ b → rank a < rank b

/-- No strict descent through valid values goes on for ever. -/
def NoDescent (valid : α → Prop) : Prop :=
  ¬∃ f : Nat → α, ∀ i, valid (f i) ∧ Below (f (i + 1)) (f i) ∧ f (i + 1) ≠ f i

/-- Ranks leave no room for infinite descents. -/
theorem noDescent_of_ranks {rank : α → Nat} (h : Ranks valid rank) : NoDescent valid := by
  rintro ⟨f, hf⟩
  have hsum : ∀ i, rank (f i) + i ≤ rank (f 0) := by
    intro i
    induction i with
    | zero => exact Nat.le_refl _
    | succ i ih =>
        have := h (hf (i + 1)).1 (hf i).1 (hf i).2.1 (hf i).2.2
        omega
  have := hsum (rank (f 0) + 1)
  omega

/-- Some of the values of a list have fallen, and none has risen. -/
def Falls (valid : α → Prop) (new old : List α) : Prop :=
  List.Forall₂ (fun v w => valid v ∧ valid w ∧ Below v w) new old ∧ new ≠ old

/-- The values of a list cannot fall for ever. -/
theorem wellFounded_falls (h : NoDescent valid) : WellFounded (Falls valid) := by
  have hwf : WellFounded fun a b : α => (valid a ∧ valid b ∧ Below a b) ∧ a ≠ b := by
    rw [wellFounded_iff_isEmpty_descending_chain]
    exact ⟨fun ⟨f, hf⟩ => h ⟨f, fun i => ⟨(hf i).1.2.1, (hf i).1.2.2, (hf i).2⟩⟩⟩
  -- lists that are related have the same length, so that the induction can be on it
  suffices hlen : ∀ k, ∀ l : List α, l.length = k → Acc (Falls valid) l from
    ⟨fun l => hlen l.length l rfl⟩
  intro k
  induction k with
  | zero =>
      intro l hl
      refine .intro l fun new hnew => ?_
      obtain rfl := List.eq_nil_of_length_eq_zero hl
      exact absurd (List.forall₂_nil_right_iff.mp hnew.1) hnew.2
  | succ k ih =>
      -- the first value falls, or it stays and the others fall
      have hcons : ∀ a, ∀ l : List α, l.length = k → Acc (Falls valid) (a :: l) := by
        intro a
        induction a using hwf.induction with
        | _ a iha =>
            intro l hl
            induction ih l hl with
            | intro l _ ihl =>
                refine .intro _ fun new ⟨hle, hne⟩ => ?_
                obtain ⟨b, m, hba, hml, rfl⟩ := List.forall₂_cons_right_iff.mp hle
                have hm : m.length = k := hml.length_eq.trans hl
                by_cases hab : b = a
                · subst hab
                  exact ihl m ⟨hml, fun e => hne (by rw [e])⟩ hm
                · exact iha b ⟨hba, hab⟩ m hm
      rintro (_ | ⟨a, l⟩) hl
      · cases hl
      · exact hcons a l (Nat.succ.inj hl)

end Flowgraph.Dataflow

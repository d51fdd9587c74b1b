import Flowgraph.Proofs.BitSets
import Mathlib.Algebra.Order.Floor.Div
import Mathlib.Data.Finset.Card
import Mathlib.Data.Finset.Range
import Mathlib.Data.Finset.SDiff
import Mathlib.Data.List.Range

/-!
# Bit sets are finite sets

A set that operations have made stands for the finite set of its members: every operation does to
the members what it is called after, what it answers says whether they have changed, and it is
refused only where there is nothing to do it to.

* `Made`: what operations make; `Made.fits`: it has the words its capacity calls for, and no bit
  beyond it.
* `members`, and `members_insert`, `members_union` and the like: the members after an operation.
* `Answers`, `answers_insert?`, `answers_union?`: refusals, results and the answer whether anything
  has changed.
* `length_toList`, `count_eq_length_toList`: the count of the ones is the number of members.
* `and_sub_one`: how a walk clears the bit it gives out; `yields_toList`: what it gives out.
* `members_faithful`: all of this for the sets that operations make.
-/

namespace Flowgraph.BitSet

variable {s t u : BitSet} {capacity i j : Nat} {bits : List Nat}

/-! ### What operations make -/

/-- What a sequence of operations makes.  An operation that is refused makes nothing. -/
inductive Made : BitSet → Prop
  | empty (capacity : Nat) : Made (.empty capacity)
  | full (capacity : Nat) : Made (.full capacity)
  | ofList {capacity : Nat} {bits : List Nat} {s : BitSet} :
      ofList? capacity bits = some s → Made s
  | insert {s t : BitSet} {i : Nat} {new : Bool} : Made s → s.insert? i = some (t, new) → Made t
  | remove {s : BitSet} (i : Nat) : Made s → Made (s.remove i).1
  | clear {s : BitSet} : Made s → Made s.clear
  | fill {s : BitSet} : Made s → Made s.fill
  | union {s t u : BitSet} {changed : Bool} :
      Made s → Made t → s.union? t = some (u, changed) → Made u
  | inter {s t u : BitSet} {changed : Bool} :
      Made s → Made t → s.inter? t = some (u, changed) → Made u
  | diff {s t u : BitSet} {changed : Bool} :
      Made s → Made t → s.diff? t = some (u, changed) → Made u

/-- The members, as a finite set. -/
def members (s : BitSet) : Finset Nat :=
  (Finset.range s.capacity).filter fun i => s.contains i = true

/-- The finite set has the members that the bit set answers for. -/
theorem mem_members : i ∈ s.members ↔ s.contains i = true := by
  rw [members, Finset.mem_filter, Finset.mem_range, and_iff_right_iff_imp, contains,
    Bool.and_eq_true, decide_eq_true_eq]
  exact And.left

theorem Fits.mem_members (hs : s.Fits capacity) : i ∈ s.members ↔ s.bit i = true := by
  rw [BitSet.mem_members, hs.contains_eq]

/-- Two sets of one capacity with the same members are the same set. -/
theorem Fits.members_ext (hs : s.Fits capacity) (ht : t.Fits capacity) :
    s = t ↔ s.members = t.members := by
  refine ⟨fun h => h ▸ rfl, fun h => hs.ext ht fun i => Bool.eq_iff_iff.mpr ?_⟩
  rw [← hs.mem_members, h, ht.mem_members]

/-- Sets that fit one capacity differ in their words exactly if they differ in their members. -/
theorem Fits.words_ne_iff (hs : s.Fits capacity) (ht : t.Fits capacity) :
    s.words ≠ t.words ↔ s.members ≠ t.members := by
  rw [← not_iff_not, not_not, not_not, ← hs.members_ext ht]
  refine ⟨fun h => ?_, fun h => h ▸ rfl⟩
  obtain ⟨c, ws⟩ := s
  obtain ⟨c', ws'⟩ := t
  obtain rfl : c = c' := hs.capacity_eq.trans ht.capacity_eq.symm
  exact congrArg (BitSet.mk c) h

/-! ### The members after an operation -/

theorem members_empty (capacity : Nat) : (empty capacity).members = ∅ :=
  Finset.eq_empty_of_forall_notMem fun i hi =>
    Bool.false_ne_true ((bit_empty capacity i).symm.trans ((fits_empty capacity).mem_members.mp hi))

theorem members_full (capacity : Nat) : (full capacity).members = Finset.range capacity := by
  ext i
  rw [(fits_full capacity).mem_members, bit_full, decide_eq_true_eq, Finset.mem_range]

/-- Insertion below the capacity adds one member. -/
theorem members_insert (hs : s.Fits capacity) (hi : i < capacity) :
    (s.insert i).members = Insert.insert i s.members := by
  ext j
  rw [(hs.insert i).mem_members, bit_insert hs hi, Finset.mem_insert, hs.mem_members,
    Bool.or_eq_true, decide_eq_true_eq, or_comm, @eq_comm _ i]

/-- Taking an element out removes it and nothing else, wherever it lies. -/
theorem members_erase (hs : s.Fits capacity) (i : Nat) :
    (s.erase i).members = s.members.erase i := by
  ext j
  rw [(hs.erase i).mem_members, bit_erase hs, Finset.mem_erase, hs.mem_members, Bool.and_eq_true,
    decide_eq_true_eq, and_comm, @ne_comm _ i]

theorem members_union (hs : s.Fits capacity) (ht : t.Fits capacity) :
    (s.union t).members = s.members ∪ t.members := by
  ext i
  rw [(hs.union ht).mem_members, bit_union hs ht, Finset.mem_union, hs.mem_members, ht.mem_members,
    Bool.or_eq_true]

theorem members_inter (hs : s.Fits capacity) (ht : t.Fits capacity) :
    (s.inter t).members = s.members ∩ t.members := by
  ext i
  rw [(hs.inter ht).mem_members, bit_inter hs ht, Finset.mem_inter, hs.mem_members, ht.mem_members,
    Bool.and_eq_true]

theorem members_diff (hs : s.Fits capacity) (ht : t.Fits capacity) :
    (s.diff t).members = s.members \ t.members := by
  ext i
  rw [(hs.diff ht).mem_members, bit_diff hs ht, Finset.mem_sdiff, hs.mem_members, ht.mem_members,
    Bool.and_eq_true, Bool.not_eq_true', Bool.not_eq_true]

/-! ### Answers -/

/-- A set of the same capacity with these members, and the answer whether they differ from the
members of `s`. -/
structure Changed (s : BitSet) (ms : Finset Nat) (answer : BitSet × Bool) : Prop where
  capacity_eq : answer.1.capacity = s.capacity
  members_eq : answer.1.members = ms
  changed_iff : answer.2 = true ↔ ms ≠ s.members

/-- The operation is refused unless `p` holds, and otherwise leaves these members. -/
def Answers (s : BitSet) (p : Prop) (ms : Finset Nat) (answer : Option (BitSet × Bool)) : Prop :=
  (answer = none ↔ ¬p) ∧ ∀ a, answer = some a → Changed s ms a

/-- What is answered by comparing the words. -/
theorem Changed.of_fits {ms : Finset Nat} (hs : s.Fits capacity) (ht : t.Fits capacity)
    (hms : t.members = ms) : Changed s ms (t, decide (t.words ≠ s.words)) where
  capacity_eq := ht.capacity_eq.trans hs.capacity_eq.symm
  members_eq := hms
  changed_iff := by rw [decide_eq_true_eq, ht.words_ne_iff hs, hms]

/-- Insertion is refused beyond the capacity, and otherwise says whether the element is new. -/
theorem answers_insert? (hs : s.Fits capacity) (i : Nat) :
    Answers s (i < capacity) (Insert.insert i s.members) (s.insert? i) := by
  rw [Answers, insert?, hs.capacity_eq]
  split
  · next hi =>
      refine ⟨iff_of_false nofun (not_not.mpr hi), fun a ha => ?_⟩
      obtain rfl := Option.some.inj ha
      exact .of_fits hs (hs.insert i) (members_insert hs hi)
  · next hi => exact ⟨iff_of_true rfl hi, nofun⟩

/-- Removal says whether the element was a member. -/
theorem changed_remove (hs : s.Fits capacity) (i : Nat) :
    Changed s (s.members.erase i) (s.remove i) :=
  .of_fits hs (hs.erase i) (members_erase hs i)

section Combining

variable {op : BitSet → BitSet → BitSet} {ms : Finset Nat}

/-- Two sets can be combined if they have one capacity. -/
theorem answers_combine? (hs : s.Fits s.capacity)
    (hop : t.capacity = s.capacity → (op s t).Fits s.capacity ∧ (op s t).members = ms) :
    Answers s (s.capacity = t.capacity) ms (combine? op s t) := by
  rw [Answers, combine?]
  split
  · next hc =>
      refine ⟨iff_of_false nofun (not_not.mpr hc), fun a ha => ?_⟩
      obtain rfl := Option.some.inj ha
      exact .of_fits hs (hop hc.symm).1 (hop hc.symm).2
  · next hc => exact ⟨iff_of_true rfl hc, nofun⟩

variable (hs : s.Fits s.capacity) (ht : t.Fits t.capacity)

include hs ht

/-- A union is refused for sets of different capacities, and says whether members have come in. -/
theorem answers_union? :
    Answers s (s.capacity = t.capacity) (s.members ∪ t.members) (s.union? t) :=
  answers_combine? hs fun hc => ⟨hs.union (hc ▸ ht), members_union hs (hc ▸ ht)⟩

/-- An intersection likewise says whether members have gone. -/
theorem answers_inter? :
    Answers s (s.capacity = t.capacity) (s.members ∩ t.members) (s.inter? t) :=
  answers_combine? hs fun hc => ⟨hs.inter (hc ▸ ht), members_inter hs (hc ▸ ht)⟩

/-- So does a difference. -/
theorem answers_diff? :
    Answers s (s.capacity = t.capacity) (s.members \ t.members) (s.diff? t) :=
  answers_combine? hs fun hc => ⟨hs.diff (hc ▸ ht), members_diff hs (hc ▸ ht)⟩

end Combining

/-- A list is refused if it has an element that does not fit, and otherwise its elements become the
members. -/
theorem ofList?_spec (capacity : Nat) (bits : List Nat) :
    (ofList? capacity bits = none ↔ ∃ b ∈ bits, capacity ≤ b) ∧
      ∀ s, ofList? capacity bits = some s →
        s.Fits capacity ∧ s.members = bits.toFinset := by
  -- the elements are put into any set that fits, so that the induction goes through
  suffices h : ∀ t : BitSet, t.Fits capacity →
      ((bits.foldlM (fun s i => (s.insert? i).map Prod.fst) t = none ↔ ∃ b ∈ bits, capacity ≤ b) ∧
        ∀ s, bits.foldlM (fun s i => (s.insert? i).map Prod.fst) t = some s →
          s.Fits capacity ∧ s.members = t.members ∪ bits.toFinset) by
    obtain ⟨hnone, hsome⟩ := h _ (fits_empty capacity)
    refine ⟨hnone, fun s hs => ?_⟩
    rw [← Finset.empty_union bits.toFinset, ← members_empty capacity]
    exact hsome s hs
  induction bits with
  | nil =>
      refine fun t ht => ⟨by simp, fun s hs => ?_⟩
      obtain rfl := Option.some.inj hs
      exact ⟨ht, by simp⟩
  | cons b bits ih =>
      intro t ht
      rw [List.foldlM_cons, insert?, ht.capacity_eq]
      split
      · next hb =>
          obtain ⟨hnone, hsome⟩ := ih (t.insert b) (ht.insert b)
          refine ⟨hnone.trans ?_, fun s hs => ?_⟩
          · rw [List.exists_mem_cons_iff, or_iff_right (Nat.not_le.mpr hb)]
          · obtain ⟨hfits, hmembers⟩ := hsome s hs
            refine ⟨hfits, hmembers.trans ?_⟩
            rw [members_insert ht hb, List.toFinset_cons, Finset.insert_union, Finset.union_insert]
      · next hb =>
          exact ⟨iff_of_true rfl ⟨b, List.mem_cons_self, Nat.not_lt.mp hb⟩, nofun⟩

/-- What operations make has the words that its capacity calls for, and no bit beyond it. -/
theorem Made.fits (hs : Made s) : s.Fits s.capacity := by
  have hself {c : Nat} {s : BitSet} (h : s.Fits c) : s.Fits s.capacity := h.capacity_eq.symm ▸ h
  have hcombine {op : BitSet → BitSet → BitSet} {s t : BitSet} {a : BitSet × Bool}
      (h : combine? op s t = some a) : s.capacity = t.capacity ∧ a.1 = op s t := by
    rw [combine?] at h
    split at h
    · next hc => exact ⟨hc, congrArg Prod.fst (Option.some.inj h).symm⟩
    · cases h
  induction hs with
  | empty c => exact fits_empty c
  | full c => exact hself (fits_full c)
  | ofList h => exact hself ((ofList?_spec _ _).2 _ h).1
  | @insert s t i new _ h ih =>
      rw [insert?] at h
      split at h
      · obtain rfl : s.insert i = t := congrArg Prod.fst (Option.some.inj h)
        exact hself (ih.insert i)
      · cases h
  | remove i _ ih => exact hself (ih.erase i)
  | clear _ ih => exact hself (clear_eq_empty ih ▸ fits_empty _)
  | fill _ ih => exact hself (fill_eq_full ih ▸ fits_full _)
  | union _ _ h ih ih' =>
      obtain ⟨hc, rfl⟩ := hcombine h
      exact hself (ih.union (hc ▸ ih'))
  | inter _ _ h ih ih' =>
      obtain ⟨hc, rfl⟩ := hcombine h
      exact hself (ih.inter (hc ▸ ih'))
  | diff _ _ h ih ih' =>
      obtain ⟨hc, rfl⟩ := hcombine h
      exact hself (ih.diff (hc ▸ ih'))

/-! ### Queries -/

/-- All words are zero exactly if no bit is set. -/
theorem all_words_eq_zero_iff :
    (s.words.all fun w => decide (w = 0)) = true ↔ ∀ i, s.bit i = false := by
  simp only [List.all_eq_true, decide_eq_true_eq]
  constructor
  · intro h i
    rw [bit]
    cases hw : s.words[i / 64]? with
    | none => exact BitVec.getLsbD_zero
    | some w =>
        rw [Option.getD_some, h w (List.mem_of_getElem? hw)]
        exact BitVec.getLsbD_zero
  · intro h w hw
    obtain ⟨k, hk⟩ := List.getElem?_of_mem hw
    refine BitVec.eq_of_getLsbD_eq fun b hb => ?_
    have hbit := h (64 * k + b)
    rw [bit, show (64 * k + b) / 64 = k by omega, show (64 * k + b) % 64 = b by omega, hk,
      Option.getD_some] at hbit
    rw [hbit]
    exact BitVec.getLsbD_zero.symm

/-- Words that are all zero are those of the set without members. -/
theorem Fits.all_words_eq_zero_iff (hs : s.Fits capacity) :
    (s.words.all fun w => decide (w = 0)) = true ↔ s.members = ∅ := by
  simp only [BitSet.all_words_eq_zero_iff, Finset.eq_empty_iff_forall_notMem, hs.mem_members,
    Bool.not_eq_true]

/-- The test for a subset is that for finite sets, within one capacity. -/
theorem isSubset_iff (hs : s.Fits s.capacity) (ht : t.Fits t.capacity) :
    s.isSubset t = true ↔ s.capacity = t.capacity ∧ s.members ⊆ t.members := by
  rw [isSubset, Bool.and_eq_true, decide_eq_true_eq]
  refine and_congr_right fun hc => ?_
  rw [(hs.diff (hc ▸ ht)).all_words_eq_zero_iff, members_diff hs (hc ▸ ht),
    Finset.sdiff_eq_empty_iff_subset]

/-- Two sets are equal when they have the same capacity and the same members. -/
theorem eq_iff (hs : s.Fits s.capacity) (ht : t.Fits t.capacity) :
    s = t ↔ s.capacity = t.capacity ∧ s.members = t.members :=
  ⟨fun h => h ▸ ⟨rfl, rfl⟩, fun ⟨hc, h⟩ => (hs.members_ext (hc ▸ ht)).mpr h⟩

/-! ### Listing and counting -/

/-- What is listed for words of which the first has the number `k`. -/
def listFrom (k : Nat) (ws : List (BitVec 64)) : List Nat :=
  (ws.zipIdx k).flatMap fun (w, k) => (bitsOf w).map (64 * k + ·)

theorem listFrom_cons (k : Nat) (w : BitVec 64) (ws : List (BitVec 64)) :
    listFrom k (w :: ws) = (bitsOf w).map (64 * k + ·) ++ listFrom (k + 1) ws := rfl

/-- Counting ones from the lowest bit upward counts all the bits that are set. -/
theorem ones_eq_length (width n : Nat) :
    ones width n = ((List.range width).filter fun i => n.testBit i).length := by
  induction width generalizing n with
  | zero => rfl
  | succ width ih =>
      have hrest : ((List.range width).map Nat.succ).filter (fun i => n.testBit i) =
          ((List.range width).filter fun i => (n / 2).testBit i).map Nat.succ := by
        rw [List.filter_map]
        exact congrArg _ (List.filter_congr fun i _ => Nat.testBit_succ n i)
      have hparity := Nat.mod_two_eq_zero_or_one n
      rw [ones, ih, List.range_succ_eq_map, List.filter_cons, hrest, Nat.testBit_zero]
      simp only [decide_eq_true_eq]
      split
      · rw [List.length_cons, List.length_map]
        omega
      · rw [List.length_map]
        omega

/-- The ones are counted word by word, as the members are listed. -/
theorem count_eq_length_toList (s : BitSet) : s.count = s.toList.length := by
  suffices h : ∀ ws k, ws.foldr (fun (w : BitVec 64) total => ones 64 w.toNat + total) 0 =
      (listFrom k ws).length from h s.words 0
  intro ws
  induction ws with
  | nil => exact fun _ => rfl
  | cons w ws ih =>
      intro k
      rw [List.foldr_cons, ih (k + 1), ones_eq_length, listFrom_cons, List.length_append,
        List.length_map]
      rfl

/-- The count is the number of members. -/
theorem Fits.count_eq_card (hs : s.Fits capacity) : s.count = s.members.card := by
  have hmembers : s.toList.toFinset = s.members := by
    ext i
    rw [List.mem_toFinset, mem_toList, hs.mem_members]
  have hnodup : s.toList.Nodup := (ascending_toList s).imp Nat.ne_of_lt
  rw [count_eq_length_toList, ← hmembers, List.toFinset_card_of_nodup hnodup]

/-! ### Walking -/

/-- The lowest bit of a word is the only one that subtracting one clears in it. -/
theorem getLsbD_and_sub_one {w : BitVec 64} (hw : w ≠ 0) (b : Nat) :
    (w &&& (w - 1)).getLsbD b = (w.getLsbD b && decide (w.ctz.toNat ≠ b)) := by
  generalize hk : w.ctz.toNat = k
  have hbit : w.toNat.testBit k = true := hk ▸ BitVec.getLsbD_true_ctz_of_ne_zero hw
  have hlow : ∀ j < k, w.toNat.testBit j = false := fun j hj =>
    BitVec.getLsbD_false_of_lt_ctz (hk ▸ hj)
  -- below and at the lowest bit the word is a power of two
  have hmod : w.toNat % 2 ^ (k + 1) = 2 ^ k := by
    refine Nat.eq_of_testBit_eq fun j => ?_
    rw [Nat.testBit_mod_two_pow, Nat.testBit_two_pow]
    rcases Nat.lt_trichotomy j k with h | rfl | h
    · rw [hlow j h, Bool.and_false, decide_eq_false (Nat.ne_of_gt h)]
    · rw [hbit, Bool.and_true, decide_eq_true (Nat.lt_succ_self _), decide_eq_true rfl]
    · rw [decide_eq_false (show ¬j < k + 1 by omega), Bool.false_and,
        decide_eq_false (Nat.ne_of_lt h)]
  have hpos : 0 < 2 ^ k := Nat.two_pow_pos k
  have hle : 2 ^ k ≤ w.toNat := hmod ▸ Nat.mod_le _ _
  have hsub : (w - 1).toNat = 2 ^ (k + 1) * (w.toNat / 2 ^ (k + 1)) + (2 ^ k - 1) := by
    have hdiv := Nat.div_add_mod w.toNat (2 ^ (k + 1))
    have hone : (1 : BitVec 64).toNat = 1 := rfl
    have hle' : (1 : BitVec 64) ≤ w := by rw [BitVec.le_def, hone]; omega
    rw [BitVec.toNat_sub_of_le hle', hone]
    omega
  have hlt : 2 ^ k - 1 < 2 ^ (k + 1) := by rw [Nat.pow_succ]; omega
  rw [BitVec.getLsbD_and]
  rcases Nat.lt_trichotomy b k with h | rfl | h
  · rw [BitVec.getLsbD, hlow b h, Bool.false_and, Bool.false_and]
  · rw [BitVec.getLsbD, BitVec.getLsbD, hsub, Nat.testBit_two_pow_mul_add _ hlt,
      if_pos (Nat.lt_succ_self _), Nat.testBit_two_pow_sub_one]
    simp
  · rw [BitVec.getLsbD, BitVec.getLsbD, hsub, Nat.testBit_two_pow_mul_add _ hlt,
      if_neg (show ¬b < k + 1 by omega), Nat.testBit_div_two_pow, Nat.sub_add_cancel h,
      Bool.and_self, decide_eq_true (Nat.ne_of_lt h), Bool.and_true]

theorem bitsOf_zero : bitsOf 0 = [] :=
  List.eq_nil_iff_forall_not_mem.mpr fun b hb => by
    rw [mem_bitsOf] at hb
    exact Bool.false_ne_true (BitVec.getLsbD_zero.symm.trans hb)

/-- The bits of a word are its lowest one and those that are left when that one is cleared. -/
theorem bitsOf_of_ne_zero {w : BitVec 64} (hw : w ≠ 0) :
    bitsOf w = w.ctz.toNat :: bitsOf (w &&& (w - 1)) := by
  have hascending (w : BitVec 64) : Ascending (bitsOf w) := List.pairwise_lt_range.filter _
  have hmem {b : Nat} :
      b ∈ bitsOf (w &&& (w - 1)) ↔ w.getLsbD b = true ∧ w.ctz.toNat ≠ b := by
    rw [mem_bitsOf, getLsbD_and_sub_one hw, Bool.and_eq_true, decide_eq_true_eq]
  refine Ascending.eq_of_mem_iff (hascending w)
    (List.pairwise_cons.mpr ⟨fun b hb => ?_, hascending _⟩) fun b => ?_
  · obtain ⟨hbit, hne⟩ := hmem.mp hb
    refine Nat.lt_of_le_of_ne (Nat.not_lt.mp fun hlt => ?_) hne
    exact Bool.false_ne_true ((BitVec.getLsbD_false_of_lt_ctz hlt).symm.trans hbit)
  · rw [List.mem_cons, hmem, mem_bitsOf]
    refine ⟨fun h => or_iff_not_imp_left.mpr fun hne => ⟨h, Ne.symm hne⟩, ?_⟩
    rintro (rfl | h)
    · exact BitVec.getLsbD_true_ctz_of_ne_zero hw
    · exact h.1

namespace Walk

variable {w : Walk} {l : List Nat}

/-- The walk gives out these elements one after the other and is then over. -/
inductive Yields : Walk → List Nat → Prop
  | nil {w : Walk} : w.next? = none → Yields w []
  | cons {w w' : Walk} {i : Nat} {l : List Nat} :
      w.next? = some (i, w') → Yields w' l → Yields w (i :: l)

/-- What a walk has still to give out. -/
def left (w : Walk) : List Nat := listFrom w.word (w.rest :: w.later)

/-- A word with bits left gives out its lowest one next. -/
theorem left_of_ne_zero {word : Nat} {rest : BitVec 64} {later : List (BitVec 64)}
    (h : rest ≠ 0) : left ⟨word, rest, later⟩ =
      (64 * word + rest.ctz.toNat) :: left ⟨word, rest &&& (rest - 1), later⟩ := by
  rw [left, listFrom_cons, bitsOf_of_ne_zero h]
  rfl

/-- A word without any is passed over. -/
theorem left_zero (word : Nat) (later : List (BitVec 64)) :
    left ⟨word, 0, later⟩ = listFrom (word + 1) later := by
  rw [left, listFrom_cons, bitsOf_zero]
  rfl

/-- A walk is over when nothing is left, and otherwise gives out the first of what is left. -/
theorem next?_cases (w : Walk) :
    (w.next? = none ∧ w.left = []) ∨ ∃ i w', w.next? = some (i, w') ∧ w.left = i :: w'.left := by
  obtain ⟨word, rest, later⟩ := w
  simp only [next?]
  induction later generalizing word rest with
  | nil =>
      rw [nextFrom]
      split
      · next hz => exact .inl ⟨rfl, hz ▸ left_zero word []⟩
      · next hz => exact .inr ⟨_, _, rfl, left_of_ne_zero hz⟩
  | cons next later ih =>
      rw [nextFrom]
      split
      · next hz =>
          rw [hz, left_zero]
          exact ih (word + 1) next
      · next hz => exact .inr ⟨_, _, rfl, left_of_ne_zero hz⟩

/-- A walk gives out what is left to it, in this order, and then ends. -/
theorem yields_of_left (h : w.left = l) : w.Yields l := by
  induction l generalizing w with
  | nil =>
      rcases next?_cases w with ⟨hnone, -⟩ | ⟨i, w', -, hleft⟩
      · exact .nil hnone
      · rw [h] at hleft
        cases hleft
  | cons i l ih =>
      rcases next?_cases w with ⟨-, hleft⟩ | ⟨j, w', hsome, hleft⟩
      · rw [h] at hleft
        cases hleft
      · rw [h] at hleft
        cases hleft
        exact .cons hsome (ih rfl)

end Walk

/-- A walk gives out the members in the order of the listing. -/
theorem yields_toList (s : BitSet) : s.walk.Yields s.toList := by
  refine Walk.yields_of_left ?_
  rw [Walk.left, walk, toList]
  cases s.words with
  | nil => rw [List.headD_nil, listFrom_cons, bitsOf_zero]; rfl
  | cons w ws => rfl

/-- A set that operations have made has as many words as its capacity calls for and no bit at or
beyond it, and stands for the finite set of the numbers that it contains.  New sets, full sets and
sets of listed numbers have the members they are asked for; inserting, removing, clearing, filling
and combining do to the members what they do to finite sets, and answer whether the members have
changed.  Inserting is refused exactly beyond the capacity, and combining exactly for different
capacities.  The count is the number of members, sets are equal exactly if their capacities and
members are, and a walk gives out the members in strictly ascending order and is then over. -/
theorem members_faithful (hs : Made s) (ht : Made t) :
    (s.words.length = s.capacity ⌈/⌉ 64 ∧ (∀ i, s.capacity ≤ i → s.bit i = false) ∧
      s.members ⊆ Finset.range s.capacity ∧ ∀ i, s.contains i = true ↔ i ∈ s.members) ∧
    (∀ c, (empty c).capacity = c ∧ (empty c).members = ∅) ∧
    (∀ c, (full c).capacity = c ∧ (full c).members = Finset.range c) ∧
    (∀ c bits, (ofList? c bits = none ↔ ∃ b ∈ bits, c ≤ b) ∧
      ∀ u, ofList? c bits = some u → u.capacity = c ∧ u.members = bits.toFinset) ∧
    (∀ i, Answers s (i < s.capacity) (Insert.insert i s.members) (s.insert? i)) ∧
    (∀ i, Changed s (s.members.erase i) (s.remove i)) ∧
    (s.clear.capacity = s.capacity ∧ s.clear.members = ∅) ∧
    (s.fill.capacity = s.capacity ∧ s.fill.members = Finset.range s.capacity) ∧
    Answers s (s.capacity = t.capacity) (s.members ∪ t.members) (s.union? t) ∧
    Answers s (s.capacity = t.capacity) (s.members ∩ t.members) (s.inter? t) ∧
    Answers s (s.capacity = t.capacity) (s.members \ t.members) (s.diff? t) ∧
    (s.isSubset t = true ↔ s.capacity = t.capacity ∧ s.members ⊆ t.members) ∧
    (s = t ↔ s.capacity = t.capacity ∧ s.members = t.members) ∧
    (s.isEmpty = true ↔ s.members = ∅) ∧
    s.count = s.members.card ∧
    s.walk.Yields s.toList ∧ Ascending s.toList ∧ ∀ i, i ∈ s.toList ↔ i ∈ s.members := by
  have hs := hs.fits
  have ht := ht.fits
  refine ⟨⟨?_, fun i hi => ?_, Finset.filter_subset _ _, fun i => mem_members.symm⟩,
    fun c => ⟨rfl, members_empty c⟩, fun c => ⟨(fits_full c).capacity_eq, members_full c⟩,
    fun c bits => ⟨(ofList?_spec c bits).1, fun u hu => ?_⟩, answers_insert? hs, changed_remove hs,
    ⟨rfl, ?_⟩, ?_, answers_union? hs ht, answers_inter? hs ht, answers_diff? hs ht,
    isSubset_iff hs ht, eq_iff hs ht, hs.all_words_eq_zero_iff, hs.count_eq_card, yields_toList s,
    ascending_toList s, fun i => ?_⟩
  · rw [hs.length_words, wordCount, Nat.ceilDiv_eq_add_pred_div]
    rfl
  · exact Bool.eq_false_iff.mpr fun hbit => Nat.not_lt.mpr hi (hs.lt_capacity hbit)
  · obtain ⟨hfits, hmembers⟩ := (ofList?_spec c bits).2 u hu
    exact ⟨hfits.capacity_eq, hmembers⟩
  · rw [clear_eq_empty hs, members_empty]
  · rw [fill_eq_full hs]
    exact ⟨(fits_full _).capacity_eq, members_full _⟩
  · rw [mem_toList, hs.mem_members]

/-- Two words hold seventy numbers.  Without one of those in the second word, all but that one are
taken from the full set. -/
theorem members_faithful_seventy :
    Made (full 70) ∧ Made ((full 70).remove 64).1 ∧ (full 70).count = 70 ∧
      ∃ u, (full 70).diff? ((full 70).remove 64).1 = some (u, true) ∧ u.members = {64} := by
  have hfull := Made.full 70
  have hfewer := hfull.remove 64
  obtain ⟨-, -, hrange, -, -, hremove, -, -, -, -, ⟨hrefused, hchanged⟩, -, -, -, hcount, -⟩ :=
    members_faithful hfull hfewer
  have hmembers : (full 70).members \ ((full 70).remove 64).1.members = {64} := by
    rw [(hremove 64).members_eq, (hrange 70).2]
    decide
  refine ⟨hfull, hfewer, by rw [hcount, (hrange 70).2, Finset.card_range], ?_⟩
  cases ha : (full 70).diff? ((full 70).remove 64).1 with
  | none => exact absurd (hremove 64).capacity_eq.symm (hrefused.mp ha)
  | some a =>
      obtain ⟨-, hms, hiff⟩ := hchanged a ha
      have hnew : a.2 = true := by
        rw [hiff, hmembers, (hrange 70).2]
        decide
      exact ⟨a.1, congrArg some (Prod.ext rfl hnew), hms.trans hmembers⟩

end Flowgraph.BitSet

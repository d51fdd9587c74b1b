import Flowgraph.Ascending
import Flowgraph.Lattice

/-!
# Bit sets as sets

The bits of the sets that operations build, and the sets of one capacity that have no bit set
beyond it, which are determined by their bits.

* `bit_union`, `bit_inter`, `bit_diff`, `bit_insert`, `bit_ofList`: the bits after an operation.
* `Fits`: a set that has the words its capacity calls for and no bit beyond it.
* `Fits.ext`: such sets are equal when their bits are.
* `setOf`: the set of the numbers with a property.
* `mem_toList`, `ascending_toList`: what a listing contains, and its order.
-/

namespace Flowgraph.BitSet

variable {s t : BitSet} {capacity i j : Nat} {bits : List Nat}

/-- The set has this capacity, the words for it, and no bit beyond it. -/
structure Fits (capacity : Nat) (s : BitSet) : Prop where
  capacity_eq : s.capacity = capacity
  length_words : s.words.length = wordCount capacity
  lt_capacity : ∀ {i}, s.bit i = true → i < capacity

/-- Every element below the capacity has a word for its bit. -/
theorem div_lt_wordCount (h : i < capacity) : i / 64 < wordCount capacity := by
  rw [wordCount]; omega

/-- A set that fits has no bit beyond its capacity, so that its bits are its members. -/
theorem Fits.contains_eq (h : s.Fits capacity) (i : Nat) : s.contains i = s.bit i := by
  rw [contains, h.capacity_eq]
  cases hb : s.bit i with
  | false => simp
  | true => simp [h.lt_capacity hb]

/-- Two sets that fit one capacity are equal when their bits are. -/
theorem Fits.ext (hs : s.Fits capacity) (ht : t.Fits capacity) (h : ∀ i, s.bit i = t.bit i) :
    s = t := by
  obtain ⟨cs, ws⟩ := s
  obtain ⟨ct, wt⟩ := t
  have hc : cs = ct := hs.capacity_eq.trans ht.capacity_eq.symm
  have hlen : ws.length = wt.length := hs.length_words.trans ht.length_words.symm
  have hw : ws = wt := by
    refine List.ext_getElem hlen fun k hk hk' => BitVec.eq_of_getLsbD_eq fun b hb => ?_
    have := h (64 * k + b)
    simp only [bit] at this
    rwa [show (64 * k + b) / 64 = k by omega, show (64 * k + b) % 64 = b by omega,
      List.getElem?_eq_getElem hk, List.getElem?_eq_getElem hk'] at this
  rw [hc, hw]

/-! ### The empty set and insertion -/

theorem bit_empty (capacity i : Nat) : (empty capacity).bit i = false := by
  simp only [bit, empty, List.getElem?_replicate]
  split <;> simp

theorem fits_empty (capacity : Nat) : (empty capacity).Fits capacity where
  capacity_eq := rfl
  length_words := List.length_replicate ..
  lt_capacity h := by rw [bit_empty] at h; cases h

/-- Where the word of bit `i` is written at that bit only, so is the set. -/
theorem bit_modify (hi : i / 64 < s.words.length) {f : BitVec 64 → BitVec 64} {b : Bool}
    (hf : ∀ w k, k < 64 → (f w).getLsbD k = if k = i % 64 then b else w.getLsbD k) (j : Nat) :
    ({ s with words := s.words.modify (i / 64) f } : BitSet).bit j =
      if i = j then b else s.bit j := by
  simp only [bit, List.getElem?_modify]
  by_cases h : i / 64 = j / 64
  · have hij : j % 64 = i % 64 ↔ i = j := by omega
    rw [← h, List.getElem?_eq_getElem hi]
    simpa [hij] using hf s.words[i / 64] (j % 64) (Nat.mod_lt j (by decide))
  · have hij : i ≠ j := fun e => h (by rw [e])
    simp [h, hij]

/-- Insertion sets one bit and leaves all others alone. -/
theorem bit_insert (hs : s.Fits capacity) (hi : i < capacity) (j : Nat) :
    (s.insert i).bit j = (s.bit j || decide (i = j)) := by
  have hword : i / 64 < s.words.length := hs.length_words ▸ div_lt_wordCount hi
  rw [insert, if_pos (hs.capacity_eq.symm ▸ hi), bit_modify (b := true) hword fun w k hk => ?_]
  · by_cases hij : i = j <;> simp [hij]
  · by_cases hki : i % 64 = k <;> simp [hki, hk, Ne.symm]

theorem Fits.insert (hs : s.Fits capacity) (i : Nat) : (s.insert i).Fits capacity := by
  by_cases hi : i < capacity
  · refine ⟨?_, ?_, fun {j} hj => ?_⟩
    · rw [BitSet.insert]; split <;> exact hs.capacity_eq
    · rw [BitSet.insert]
      split
      · rw [List.length_modify]; exact hs.length_words
      · exact hs.length_words
    · rw [bit_insert hs hi, Bool.or_eq_true, decide_eq_true_eq] at hj
      rcases hj with hj | rfl
      · exact hs.lt_capacity hj
      · exact hi
  · rwa [BitSet.insert, hs.capacity_eq, if_neg hi]

/-- Taking an element out clears one bit and leaves all others alone. -/
theorem bit_erase (hs : s.Fits capacity) (i j : Nat) :
    (s.erase i).bit j = (s.bit j && decide (i ≠ j)) := by
  rw [erase]
  split
  · next hi =>
      have hword : i / 64 < s.words.length :=
        hs.length_words ▸ div_lt_wordCount (hs.capacity_eq ▸ hi)
      rw [bit_modify (b := false) hword fun w k hk => ?_]
      · by_cases hij : i = j <;> simp [hij]
      · by_cases hki : i % 64 = k <;> simp [hki, hk, Ne.symm]
  · next hi =>
      rw [hs.capacity_eq] at hi
      -- beyond the capacity there is no bit to take out
      cases hj : s.bit j with
      | false => rfl
      | true =>
          have hij : i ≠ j := fun e => hi (e ▸ hs.lt_capacity hj)
          rw [decide_eq_true hij, Bool.and_self]

theorem Fits.erase (hs : s.Fits capacity) (i : Nat) : (s.erase i).Fits capacity where
  capacity_eq := by rw [BitSet.erase]; split <;> exact hs.capacity_eq
  length_words := by
    rw [BitSet.erase]
    split
    · rw [List.length_modify]; exact hs.length_words
    · exact hs.length_words
  lt_capacity {j} hj := by
    rw [bit_erase hs, Bool.and_eq_true] at hj
    exact hs.lt_capacity hj.1

/-- A set that has been cleared is the empty set of its capacity. -/
theorem clear_eq_empty (hs : s.Fits capacity) : s.clear = empty capacity := by
  rw [clear, empty, List.map_const', hs.length_words, hs.capacity_eq]

theorem fits_ofList (capacity : Nat) (bits : List Nat) : (ofList capacity bits).Fits capacity := by
  rw [ofList]
  generalize he : empty capacity = s
  have hs : s.Fits capacity := he ▸ fits_empty capacity
  clear he
  induction bits generalizing s with
  | nil => exact hs
  | cons b bits ih => exact ih (s.insert b) (hs.insert b)

/-- The set of a list has the bits that it lists below the capacity. -/
theorem bit_ofList (capacity : Nat) (bits : List Nat) (i : Nat) :
    (ofList capacity bits).bit i = true ↔ i < capacity ∧ i ∈ bits := by
  have hall : ∀ {s : BitSet}, s.Fits capacity →
      ((bits.foldl BitSet.insert s).bit i = true ↔ s.bit i = true ∨ i < capacity ∧ i ∈ bits) := by
    induction bits with
    | nil => simp
    | cons b bits ih =>
        intro s hs
        rw [List.foldl_cons, ih (hs.insert b), List.mem_cons]
        by_cases hb : b < capacity
        · rw [bit_insert hs hb, Bool.or_eq_true, decide_eq_true_eq]
          grind
        · rw [BitSet.insert, hs.capacity_eq, if_neg hb]
          grind
  rw [ofList, hall (fits_empty capacity), bit_empty]
  simp

/-! ### Combining sets -/

/-- A combination word by word is one bit by bit. -/
theorem bit_combine {op : BitVec 64 → BitVec 64 → BitVec 64} (hop : op 0 0 = 0)
    (hlen : s.words.length = t.words.length) (i : Nat) :
    (combine op s t).bit i =
      (op (s.words[i / 64]?.getD 0) (t.words[i / 64]?.getD 0)).getLsbD (i % 64) := by
  simp only [bit, combine, List.getElem?_zipWith]
  rcases Nat.lt_or_ge (i / 64) s.words.length with h | h
  · rw [List.getElem?_eq_getElem h, List.getElem?_eq_getElem (hlen ▸ h)]
    rfl
  · rw [List.getElem?_eq_none h, List.getElem?_eq_none (hlen ▸ h)]
    change BitVec.getLsbD 0 (i % 64) = (op 0 0).getLsbD (i % 64)
    rw [hop]

theorem bit_union (hs : s.Fits capacity) (ht : t.Fits capacity) (i : Nat) :
    (s.union t).bit i = (s.bit i || t.bit i) := by
  rw [union, bit_combine (by decide) (hs.length_words.trans ht.length_words.symm),
    BitVec.getLsbD_or, bit, bit]

theorem bit_diff (hs : s.Fits capacity) (ht : t.Fits capacity) (i : Nat) :
    (s.diff t).bit i = (s.bit i && !t.bit i) := by
  rw [diff, bit_combine (by decide) (hs.length_words.trans ht.length_words.symm),
    BitVec.getLsbD_and, BitVec.getLsbD_not, bit, bit]
  simp [Nat.mod_lt]

theorem bit_inter (hs : s.Fits capacity) (ht : t.Fits capacity) (i : Nat) :
    (s.inter t).bit i = (s.bit i && t.bit i) := by
  rw [inter, bit_combine (by decide) (hs.length_words.trans ht.length_words.symm),
    BitVec.getLsbD_and, bit, bit]

theorem length_combine {op : BitVec 64 → BitVec 64 → BitVec 64} (hs : s.Fits capacity)
    (ht : t.Fits capacity) : (combine op s t).words.length = wordCount capacity := by
  rw [combine, List.length_zipWith, hs.length_words, ht.length_words, Nat.min_self]

theorem Fits.union (hs : s.Fits capacity) (ht : t.Fits capacity) :
    (s.union t).Fits capacity where
  capacity_eq := hs.capacity_eq
  length_words := length_combine hs ht
  lt_capacity {i} h := by
    rw [bit_union hs ht, Bool.or_eq_true] at h
    exact h.elim hs.lt_capacity ht.lt_capacity

theorem Fits.diff (hs : s.Fits capacity) (ht : t.Fits capacity) : (s.diff t).Fits capacity where
  capacity_eq := hs.capacity_eq
  length_words := length_combine hs ht
  lt_capacity {i} h := by
    rw [bit_diff hs ht, Bool.and_eq_true] at h
    exact hs.lt_capacity h.1

theorem Fits.inter (hs : s.Fits capacity) (ht : t.Fits capacity) : (s.inter t).Fits capacity where
  capacity_eq := hs.capacity_eq
  length_words := length_combine hs ht
  lt_capacity {i} h := by
    rw [bit_inter hs ht, Bool.and_eq_true] at h
    exact hs.lt_capacity h.1

/-! ### Unions -/

theorem union_assoc {u : BitSet} (hs : s.Fits capacity) (ht : t.Fits capacity)
    (hu : u.Fits capacity) : (s.union t).union u = s.union (t.union u) :=
  ((hs.union ht).union hu).ext (hs.union (ht.union hu)) fun i => by
    rw [bit_union (hs.union ht) hu, bit_union hs ht, bit_union hs (ht.union hu), bit_union ht hu,
      Bool.or_assoc]

theorem union_comm (hs : s.Fits capacity) (ht : t.Fits capacity) : s.union t = t.union s :=
  (hs.union ht).ext (ht.union hs) fun i => by
    rw [bit_union hs ht, bit_union ht hs, Bool.or_comm]

theorem union_self (hs : s.Fits capacity) : s.union s = s :=
  (hs.union hs).ext hs fun i => by rw [bit_union hs hs, Bool.or_self]

theorem empty_union (hs : s.Fits capacity) : (empty capacity).union s = s :=
  ((fits_empty capacity).union hs).ext hs fun i => by
    rw [bit_union (fits_empty capacity) hs, bit_empty, Bool.false_or]

/-- A set takes in another one exactly if it has all of its bits. -/
theorem union_eq_left_iff (hs : s.Fits capacity) (ht : t.Fits capacity) :
    s.union t = s ↔ ∀ i, t.bit i = true → s.bit i = true := by
  constructor
  · intro h i hi
    rw [← h, bit_union hs ht, hi, Bool.or_true]
  · intro h
    refine (hs.union ht).ext hs fun i => ?_
    rw [bit_union hs ht]
    cases hi : t.bit i with
    | false => rw [Bool.or_false]
    | true => rw [h i hi, Bool.or_true]

/-! ### The full set -/

/-- The bits of a word of which the lowest ones are set. -/
theorem getLsbD_twoPow_sub_one {k b : Nat} (hk : k < 64) :
    (BitVec.twoPow 64 k - 1).getLsbD b = decide (b < k) := by
  have hpos : 0 < 2 ^ k := Nat.two_pow_pos k
  have hlt : 2 ^ k < 2 ^ 64 := Nat.pow_lt_pow_right (by decide) hk
  have hval : (BitVec.twoPow 64 k - 1).toNat = 2 ^ k - 1 := by
    rw [BitVec.toNat_sub, BitVec.toNat_twoPow, Nat.mod_eq_of_lt hlt]
    simp only [BitVec.ofNat_eq_ofNat, BitVec.toNat_ofNat]
    omega
  rw [BitVec.getLsbD, hval, Nat.testBit_two_pow_sub_one]

/-- The words of the full set: all ones, except in the last one beyond the capacity. -/
theorem words_full (capacity : Nat) :
    (full capacity).words =
      if capacity % 64 = 0 then List.replicate (wordCount capacity) (BitVec.allOnes 64)
      else (List.replicate (wordCount capacity) (BitVec.allOnes 64)).modify
        (wordCount capacity - 1) fun _ => BitVec.twoPow 64 (capacity % 64) - 1 := by
  rw [full, fill, empty]
  simp only [List.map_replicate, List.length_replicate]
  split <;> rfl

theorem length_words_full (capacity : Nat) : (full capacity).words.length = wordCount capacity := by
  rw [words_full]
  split <;> simp

/-- Every word has the bits that lie below the capacity. -/
theorem getLsbD_words_full {k b : Nat} (hk : k < (full capacity).words.length) (hb : b < 64) :
    (full capacity).words[k].getLsbD b = decide (64 * k + b < capacity) := by
  have hlt := hk
  rw [length_words_full, wordCount] at hlt
  have hall : (BitVec.allOnes 64).getLsbD b = true := by
    rw [BitVec.getLsbD_allOnes, decide_eq_true hb]
  simp only [words_full, wordCount]
  split
  · next hc => rw [List.getElem_replicate, hall, eq_comm, decide_eq_true_eq]; omega
  · next hc =>
      rw [List.getElem_modify]
      split
      · next hlast =>
          rw [getLsbD_twoPow_sub_one (Nat.mod_lt _ (by decide)), decide_eq_decide]
          omega
      · next hlast => rw [List.getElem_replicate, hall, eq_comm, decide_eq_true_eq]; omega

/-- The full set has the bits below its capacity and no others. -/
theorem bit_full (capacity i : Nat) : (full capacity).bit i = decide (i < capacity) := by
  rw [bit]
  rcases Nat.lt_or_ge (i / 64) (full capacity).words.length with h | h
  · rw [List.getElem?_eq_getElem h, Option.getD_some,
      getLsbD_words_full h (Nat.mod_lt _ (by decide)), Nat.div_add_mod]
  · have hge : ¬i < capacity := fun hlt =>
      Nat.not_lt.mpr h (length_words_full capacity ▸ div_lt_wordCount hlt)
    rw [List.getElem?_eq_none h, decide_eq_false hge]
    exact BitVec.getLsbD_zero

theorem fits_full (capacity : Nat) : (full capacity).Fits capacity where
  capacity_eq := by rw [full, fill]; split <;> rfl
  length_words := length_words_full capacity
  lt_capacity h := by rwa [bit_full, decide_eq_true_eq] at h

/-- A set that has been filled is the full set of its capacity. -/
theorem fill_eq_full (hs : s.Fits capacity) : s.fill = full capacity := by
  have hmap : (s.words.map fun _ => BitVec.allOnes 64) =
      (empty capacity).words.map fun _ => BitVec.allOnes 64 := by
    rw [List.map_const', List.map_const', hs.length_words, (fits_empty capacity).length_words]
  rw [full, fill, fill, hmap, hs.capacity_eq]
  rfl

/-! ### Intersections -/

theorem inter_assoc {u : BitSet} (hs : s.Fits capacity) (ht : t.Fits capacity)
    (hu : u.Fits capacity) : (s.inter t).inter u = s.inter (t.inter u) :=
  ((hs.inter ht).inter hu).ext (hs.inter (ht.inter hu)) fun i => by
    rw [bit_inter (hs.inter ht) hu, bit_inter hs ht, bit_inter hs (ht.inter hu), bit_inter ht hu,
      Bool.and_assoc]

theorem inter_comm (hs : s.Fits capacity) (ht : t.Fits capacity) : s.inter t = t.inter s :=
  (hs.inter ht).ext (ht.inter hs) fun i => by
    rw [bit_inter hs ht, bit_inter ht hs, Bool.and_comm]

theorem inter_self (hs : s.Fits capacity) : s.inter s = s :=
  (hs.inter hs).ext hs fun i => by rw [bit_inter hs hs, Bool.and_self]

theorem full_inter (hs : s.Fits capacity) : (full capacity).inter s = s :=
  ((fits_full capacity).inter hs).ext hs fun i => by
    rw [bit_inter (fits_full capacity) hs, bit_full]
    cases hi : s.bit i with
    | false => rw [Bool.and_false]
    | true => simp [hs.lt_capacity hi]

/-- Another set leaves all of a set exactly if it has all of its bits. -/
theorem inter_eq_left_iff (hs : s.Fits capacity) (ht : t.Fits capacity) :
    s.inter t = s ↔ ∀ i, s.bit i = true → t.bit i = true := by
  constructor
  · intro h i hi
    rw [← h, bit_inter hs ht, Bool.and_eq_true] at hi
    exact hi.2
  · intro h
    refine (hs.inter ht).ext hs fun i => ?_
    rw [bit_inter hs ht]
    cases hi : s.bit i with
    | false => rw [Bool.false_and]
    | true => rw [h i hi, Bool.and_true]

/-! ### Sets given by a property -/

open Classical in
/-- The set of the numbers below the capacity that have a property. -/
noncomputable def setOf (capacity : Nat) (p : Nat → Prop) : BitSet :=
  ofList capacity ((List.range capacity).filter fun i => decide (p i))

theorem fits_setOf (capacity : Nat) (p : Nat → Prop) : (setOf capacity p).Fits capacity :=
  fits_ofList ..

/-- The set of a property has the elements with the property that lie below the capacity. -/
theorem bit_setOf {p : Nat → Prop} : (setOf capacity p).bit i = true ↔ i < capacity ∧ p i := by
  classical
  rw [setOf, bit_ofList, List.mem_filter, List.mem_range, decide_eq_true_eq]
  exact ⟨fun h => h.2, fun h => ⟨h.1, h⟩⟩

/-! ### Listing -/

theorem mem_bitsOf {w : BitVec 64} {b : Nat} : b ∈ bitsOf w ↔ w.getLsbD b = true := by
  simp only [bitsOf, List.mem_filter, List.mem_range, and_iff_right_iff_imp]
  exact BitVec.lt_of_getLsbD

/-- The elements that are listed are those whose bits are set. -/
theorem mem_toList : i ∈ s.toList ↔ s.bit i = true := by
  simp only [toList, List.mem_flatMap, List.mem_map, mem_bitsOf, Prod.exists,
    List.mem_zipIdx_iff_getElem?, bit]
  constructor
  · rintro ⟨w, k, hk, b, hb, rfl⟩
    have hlt : b < 64 := BitVec.lt_of_getLsbD hb
    rw [show (64 * k + b) / 64 = k by omega, show (64 * k + b) % 64 = b by omega, hk]
    exact hb
  · intro h
    cases hw : s.words[i / 64]? with
    | none => simp [hw] at h
    | some w =>
        rw [hw] at h
        exact ⟨w, i / 64, hw, i % 64, h, Nat.div_add_mod i 64⟩

/-- They are listed in ascending order, as words and bits are. -/
theorem ascending_toList (s : BitSet) : Ascending s.toList := by
  rw [toList, Ascending, List.pairwise_flatMap]
  refine ⟨fun p _ => ?_, ?_⟩
  · rw [List.pairwise_map]
    exact (List.pairwise_lt_range.filter _).imp fun h => Nat.add_lt_add_left h _
  · refine List.pairwise_iff_getElem.mpr fun j k hj hk hjk x hx y hy => ?_
    simp only [List.getElem_zipIdx, List.mem_map, mem_bitsOf, Nat.zero_add] at hx hy
    obtain ⟨b, hb, rfl⟩ := hx
    obtain ⟨c, -, rfl⟩ := hy
    have := BitVec.lt_of_getLsbD hb
    omega

end Flowgraph.BitSet

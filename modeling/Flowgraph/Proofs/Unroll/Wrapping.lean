import Flowgraph.Proofs.Built
import Flowgraph.Proofs.Unroll.Behaviour

/-!
# The lookahead on words

The lookahead adds all strides of a chain at once.  On 64-bit words the sum wraps around when the
variable is close to the end of its range, and then the test says nothing about the strides before.

* `strides`, `Fits`: the variable after so many strides, on words and without bounds.
* `onWord_of_nearer`, `exists_bound_between`: what comparisons with one bound say of each other.
* `lookahead_in_words`: where the sum fits the test is exact, and where it wraps around once there
  are bounds for which it is wrong.
* `lastValue_goes_on`: a loop whose chain is entered when no iteration is left.
-/

namespace Flowgraph

open Flowgraph.Graph Machine Guard

variable {g h : Graph} {body : List NodeId} {header newHeader n : NodeId} {guard : Guard}
  {v : InductionVar} {config : UnrollConfig} {factor : Nat} {x c a b : Int64} {op : BinOp}
  {j k : Nat}

/-! ### Strides -/

/-- The variable after so many strides, as a word. -/
def strides (x stride : Int64) (k : Nat) : Int64 := x + stride * .ofNat k

/-- The variable after so many strides, calculated without bounds, is a word. -/
def Fits (x stride : Int64) (k : Nat) : Prop :=
  Int64.minValue.toInt ≤ x.toInt + stride.toInt * k ∧
    x.toInt + stride.toInt * k ≤ Int64.maxValue.toInt

/-- Whether strides fit is a comparison of integers. -/
instance : Decidable (Fits x c k) := inferInstanceAs (Decidable (_ ∧ _))

/-- The bounds of words, written out. -/
theorem fits_iff : Fits x c k ↔
    -9223372036854775808 ≤ x.toInt + c.toInt * k ∧ x.toInt + c.toInt * k ≤ 9223372036854775807 :=
  Iff.rfl

/-- Strides on words are strides without bounds, taken as a word. -/
theorem strides_eq_ofInt (x stride : Int64) (k : Nat) :
    strides x stride k = .ofInt (x.toInt + stride.toInt * k) := by
  rw [Int64.ofInt_add, Int64.ofInt_mul, Int64.ofInt_toInt, Int64.ofInt_toInt, Int64.ofInt_eq_ofNat,
    strides]

/-- They do not wrap if the result is a word. -/
theorem Fits.toInt_strides (hf : Fits x c k) : (strides x c k).toInt = x.toInt + c.toInt * k := by
  rw [strides_eq_ofInt]
  exact Int64.toInt_ofInt_of_le hf.1 (Int.lt_add_one_of_le hf.2)

/-- The strides before lie between the variable and the last one. -/
theorem Fits.mono (hf : Fits x c k) (hjk : j ≤ k) : Fits x c j := by
  have hcast : (j : Int) ≤ k := Int.ofNat_le.mpr hjk
  have hlow := x.le_toInt
  have hhigh := x.toInt_lt
  rw [fits_iff] at hf ⊢
  rcases Int.le_total 0 c.toInt with hc | hc
  · have hfirst := Int.mul_nonneg hc (Int.natCast_nonneg j)
    have hlast := Int.mul_le_mul_of_nonneg_left hcast hc
    exact ⟨by omega, by omega⟩
  · have hfirst := Int.mul_nonpos_of_nonpos_of_nonneg hc (Int.natCast_nonneg j)
    have hlast := Int.mul_le_mul_of_nonpos_left hc hcast
    exact ⟨by omega, by omega⟩

/-- A sum that wraps around once lies behind the variable. -/
theorem strides_behind (hspan : c.toInt.natAbs * k < Int64.size) (hf : ¬Fits x c k) :
    (0 < c → strides x c k < x) ∧ (c < 0 → x < strides x c k) := by
  have hlow := x.le_toInt
  have hhigh := x.toInt_lt
  have hsize : (c.toInt * k).natAbs < Int64.size := by rwa [Int.natAbs_mul, Int.natAbs_natCast]
  rw [Int64.size] at hsize
  rw [fits_iff] at hf
  rw [Int64.lt_iff_toInt_lt, Int64.lt_iff_toInt_lt, Int64.lt_iff_toInt_lt, Int64.lt_iff_toInt_lt,
    Int64.toInt_zero, strides_eq_ofInt, Int64.toInt_ofInt, Int.bmod, Int64.size]
  constructor
  · intro hc
    have hnonneg := Int.mul_nonneg (Int.le_of_lt hc) (Int.natCast_nonneg k)
    split <;> omega
  · intro hc
    have hnonpos := Int.mul_nonpos_of_nonpos_of_nonneg (Int.le_of_lt hc) (Int.natCast_nonneg k)
    split <;> omega

/-! ### Comparisons -/

theorem compare_ne_zero {p : Prop} [Decidable p] : (if p then (1 : Int64) else 0) ≠ 0 ↔ p := by
  split
  · next hp => exact iff_of_true (by decide) hp
  · next hp => exact iff_of_false (fun hne => hne rfl) hp

/-- A comparison that holds for a word holds for every word on the way to it. -/
theorem onWord_of_nearer (hc : isConsistent c op = true) (ha : op.onWord a b ≠ 0)
    (hup : 0 < c → x ≤ a) (hdown : c < 0 → a ≤ x) : op.onWord x b ≠ 0 := by
  rcases isConsistent_cases hc with ⟨hpos, rfl | rfl⟩ | ⟨hneg, rfl | rfl⟩
  · exact compare_ne_zero.mpr (Int64.lt_of_le_of_lt (hup hpos) (compare_ne_zero.mp ha))
  · exact compare_ne_zero.mpr (Int64.le_trans (hup hpos) (compare_ne_zero.mp ha))
  · exact compare_ne_zero.mpr (Int64.lt_of_lt_of_le (compare_ne_zero.mp ha) (hdown hneg))
  · exact compare_ne_zero.mpr (Int64.le_trans (compare_ne_zero.mp ha) (hdown hneg))

/-- Some bound lies between a word and one behind it. -/
theorem exists_bound_between (hc : isConsistent c op = true) (hup : 0 < c → a < x)
    (hdown : c < 0 → x < a) : ∃ b, op.onWord a b ≠ 0 ∧ op.onWord x b = 0 := by
  rcases isConsistent_cases hc with ⟨hpos, rfl | rfl⟩ | ⟨hneg, rfl | rfl⟩
  · exact ⟨x, compare_ne_zero.mpr (hup hpos), if_neg Int64.lt_irrefl⟩
  · exact ⟨a, compare_ne_zero.mpr (Int64.le_refl a), if_neg (Int64.not_le.mpr (hup hpos))⟩
  · exact ⟨x, compare_ne_zero.mpr (hdown hneg), if_neg Int64.lt_irrefl⟩
  · exact ⟨a, compare_ne_zero.mpr (Int64.le_refl a), if_neg (Int64.not_le.mpr (hdown hneg))⟩

/-- Where the last of some strides fits, a comparison holds there exactly if it holds at every
stride up to it. -/
theorem Fits.onWord_iff (hf : Fits x c k) (hc : isConsistent c op = true) :
    op.onWord (strides x c k) b ≠ 0 ↔ ∀ j < k + 1, op.onWord (strides x c j) b ≠ 0 := by
  refine ⟨fun hlast j hj => ?_, fun hall => hall k (Nat.lt_succ_self k)⟩
  have hjk := Nat.le_of_lt_succ hj
  have hcast : (j : Int) ≤ k := Int.ofNat_le.mpr hjk
  refine onWord_of_nearer hc hlast (fun hup => ?_) fun hdown => ?_
  · rw [Int64.le_iff_toInt_le, hf.toInt_strides, (hf.mono hjk).toInt_strides]
    have hle := Int.mul_le_mul_of_nonneg_left hcast (Int.le_of_lt (Int64.lt_iff_toInt_lt.mp hup))
    exact Int.add_le_add_left hle _
  · rw [Int64.le_iff_toInt_le, hf.toInt_strides, (hf.mono hjk).toInt_strides]
    have hle := Int.mul_le_mul_of_nonpos_left (Int.le_of_lt (Int64.lt_iff_toInt_lt.mp hdown)) hcast
    exact Int.add_le_add_left hle _

/-! ### The test of the new header -/

/-- The bound does not read the variable of the guard. -/
theorem Guard.Analyzed.eval_bound_assign {V : Type} {M : Machine V}
    (ha : Analyzed g header body guard v) (s : Snapshot V) (w : V) :
    M.eval (s.assign guard.iv w) guard.bound = M.eval s guard.bound := by
  obtain ⟨hupdate, ⟨value, hk, -⟩, -⟩ := mem_inductionVars ha.var_mem
  refine eval_of_isInvariant ha.invariant fun y hy => if_neg fun e => hy ?_
  rw [e, ← ha.name_eq]
  refine Ascending.mem_unions.mpr ⟨g.defs v.update, List.mem_map.mpr ⟨_, hupdate, rfl⟩, ?_⟩
  rw [Graph.defs, hk]
  exact List.mem_singleton_self _

/-- The new header makes the test ahead. -/
theorem replaceLoop_kind_new (hg : g.WellFormed)
    (hok : replaceLoop header body guard factor g = .ok newHeader h) :
    h.kind? newHeader = some (.branch (guard.lookahead (.ofNat (factor - 1)))) := by
  obtain ⟨epilogue, g₁, chain, g₂, g₃, -, -, hchain, rfl, hbranch, hresolve, hg₃, hmove⟩ :=
    replaceLoop_ok hg hok
  have hle := ((proper_addChain header body guard.entry _ factor).changes_of_ok hchain).bound_le
  have hne : g₁.bound ≠ g₂.bound := Nat.ne_of_lt (Nat.lt_of_lt_of_le (lt_bound_attach ..) hle)
  rw [(moveEntries_spec hg₃ hmove).kind_eq,
    (Edit.resolveStub_ok hbranch.toLinked hresolve).kind?_of_ne hne, kind?_attach, if_pos rfl]

/-- On the machine of words the test of the new header holds exactly if the old header would pass at
each stride of the chain, as long as the last stride, calculated without bounds, ends on a word.  If
it does not, and the strides do not go once around all words, there is a bound for which the new
header enters the chain although the old one would leave the loop at once. -/
theorem lookahead_in_words (result : List (Effect Int64) → Nat → Int64) (hg : Built g)
    (hok : unrollLoop header body config g = .ok (.unrolled newHeader) h) :
    ∃ guard : Guard, Guard.analyze g header body config = .ok guard ∧
      g.kind? header = some (.branch (.binop guard.op (.temp guard.iv) guard.bound)) ∧
      h.kind? newHeader = some (.branch (guard.lookahead (.ofNat (config.factor - 1)))) ∧
      (∀ s : Snapshot Int64, Fits (s.temps guard.iv) guard.stride (config.factor - 1) →
        ((words result).eval s (guard.lookahead (.ofNat (config.factor - 1))) ≠ 0 ↔
          ∀ k < config.factor, (words result).eval
            (s.assign guard.iv (strides (s.temps guard.iv) guard.stride k))
            (.binop guard.op (.temp guard.iv) guard.bound) ≠ 0)) ∧
      ∀ x, guard.stride.toInt.natAbs * (config.factor - 1) < Int64.size →
        ¬Fits x guard.stride (config.factor - 1) →
        ∃ b, guard.op.onWord (strides x guard.stride (config.factor - 1)) b ≠ 0 ∧
          guard.op.onWord x b = 0 := by
  obtain ⟨guard, ha, -, hreplace⟩ := unrollLoop_ok hok
  obtain ⟨hfactor, v, hanalyzed⟩ := analyze_ok ha
  refine ⟨guard, ha, hanalyzed.kind_header, replaceLoop_kind_new hg.wellFormed hreplace,
    fun s hf => ?_, fun x hspan hf => ?_⟩
  · have htest (k : Nat) : (words result).eval
        (s.assign guard.iv (strides (s.temps guard.iv) guard.stride k))
        (.binop guard.op (.temp guard.iv) guard.bound) =
        guard.op.onWord (strides (s.temps guard.iv) guard.stride k)
          ((words result).eval s guard.bound) := by
      rw [eval, eval, hanalyzed.eval_bound_assign]
      exact congrArg (guard.op.onWord · _) (if_pos rfl)
    have hlast := hf.onWord_iff (b := (words result).eval s guard.bound) hanalyzed.consistent
    rw [Nat.sub_add_cancel (Nat.one_le_iff_ne_zero.mpr hfactor)] at hlast
    simp only [htest]
    exact hlast
  · obtain ⟨hup, hdown⟩ := strides_behind hspan hf
    exact exists_bound_between hanalyzed.consistent hup hdown

/-- `i` is at the end of its range when the loop begins, and above the bound. -/
def lastValue : Graph :=
  after (Edit.addStart 4) (after (Edit.addAssign "i" (.const Int64.maxValue) 3)
    (after (Edit.substituteStub 1 3)
      (after (Edit.addBranch (.binop .lt (.temp "i") (.const (Int64.minValue + 2))) 2 0)
        (after (Edit.addAssign "i" (.binop .add (.temp "i") (.const 1)) 1)
          (after Edit.addStub (after Edit.addReturn .empty))))))

theorem built_lastValue : Built lastValue :=
  .tail (.tail (.tail (.tail (.tail (.tail (.single (.addReturn _)) (.addStub _))
    (.addAssign _ _ _ _)) (.addBranch _ _ _ _)) (.substituteStub _ _ _)) (.addAssign _ _ _ _))
    (.addStart _ _)

theorem analyze_lastValue : Guard.analyze lastValue 3 [2, 3] (.withFactor 2 10) =
    .ok ⟨"i", 1, .lt, .const (Int64.minValue + 2), 2, 0⟩ := by decide +kernel

/-- Nothing has happened, and all temporaries are zero. -/
def allZero : Snapshot Int64 := ⟨fun _ => 0, fun _ => 0, []⟩

/-- The loop is unrolled, and its run ends far from where it ended before. -/
theorem unrollLoop_lastValue :
    ∃ newHeader h, unrollLoop 3 [2, 3] (.withFactor 2 10) lastValue =
        .ok (.unrolled newHeader) h ∧ h.start = some 5 ∧
      h.kind? ((words fun _ _ => 0).run h 20 ⟨5, allZero⟩).node = some .ret ∧
      ((words fun _ _ => 0).run h 20 ⟨5, allZero⟩).state.temps "i" = Int64.minValue + 2 := by
  have hunrolled : (match unrollLoop 3 [2, 3] (.withFactor 2 10) lastValue with
      | .ok (.unrolled _) h => decide (h.start = some 5 ∧
          h.kind? ((words fun _ _ => 0).run h 20 ⟨5, allZero⟩).node = some .ret ∧
          ((words fun _ _ => 0).run h 20 ⟨5, allZero⟩).state.temps "i" = Int64.minValue + 2)
      | .ok (.skipped _) _ => false
      | .error _ _ => false) = true := by decide +kernel
  split at hunrolled
  case h_1 newHeader h hok => exact ⟨newHeader, h, hok, of_decide_eq_true hunrolled⟩
  case h_2 | h_3 => cases hunrolled

/-- Its lookahead is exact where `i` is zero, and wrong for some bound where `i` is at the end. -/
theorem lookahead_in_words_lastValue :
    Built lastValue ∧ ∃ newHeader h,
      unrollLoop 3 [2, 3] (.withFactor 2 10) lastValue = .ok (.unrolled newHeader) h ∧
      Fits 0 1 1 ∧ ¬Fits Int64.maxValue 1 1 ∧
      (∀ s : Snapshot Int64, s.temps "i" = 0 → ((words fun _ _ => 0).eval s
          (.binop .lt (.binop .add (.temp "i") (.binop .mul (.const 1) (.const 1)))
            (.const (Int64.minValue + 2))) ≠ 0 ↔
        ∀ k < 2, (words fun _ _ => 0).eval (s.assign "i" (strides 0 1 k))
          (.binop .lt (.temp "i") (.const (Int64.minValue + 2))) ≠ 0)) ∧
      ∃ b, BinOp.lt.onWord (strides Int64.maxValue 1 1) b ≠ 0 ∧
        BinOp.lt.onWord Int64.maxValue b = 0 := by
  obtain ⟨newHeader, h, hok, -⟩ := unrollLoop_lastValue
  obtain ⟨guard, ha, -, -, hexact, hwrong⟩ :=
    lookahead_in_words (fun _ _ => 0) built_lastValue hok
  obtain rfl := Except.ok.inj (ha.symm.trans analyze_lastValue)
  have hzero : Fits 0 1 1 := by decide
  have hend : ¬Fits Int64.maxValue 1 1 := by decide
  refine ⟨built_lastValue, newHeader, h, hok, hzero, hend, fun s hs => ?_,
    hwrong _ (by decide) hend⟩
  have hiff := hexact s (hs ▸ hzero)
  rwa [hs] at hiff

/-- The new header looks ahead past the last word: it enters the chain although the old header
leaves the loop at once, and where the loop ends with the greatest word in `i`, the unrolled one
ends with a word near the least one. -/
theorem lastValue_goes_on :
    Built lastValue ∧ lastValue.verify = .ok () ∧
      ∃ newHeader h, unrollLoop 3 [2, 3] (.withFactor 2 10) lastValue =
          .ok (.unrolled newHeader) h ∧
        Guard.analyze lastValue 3 [2, 3] (.withFactor 2 10) =
          .ok ⟨"i", 1, .lt, .const (Int64.minValue + 2), 2, 0⟩ ∧
        BinOp.lt.onWord (strides Int64.maxValue 1 (2 - 1)) (Int64.minValue + 2) ≠ 0 ∧
        BinOp.lt.onWord (strides Int64.maxValue 1 0) (Int64.minValue + 2) = 0 ∧
        ∃ r r', (words fun _ _ => 0).Returns lastValue allZero r ∧
          r.temps "i" = Int64.maxValue ∧ (words fun _ _ => 0).Returns h allZero r' ∧
          r'.temps "i" = Int64.minValue + 2 := by
  obtain ⟨newHeader, h, hok, hstart, hret, hi⟩ := unrollLoop_lastValue
  have hreturn : lastValue.kind? ((words fun _ _ => 0).run lastValue 20 ⟨5, allZero⟩).node =
      some .ret := by decide +kernel
  have hmax : ((words fun _ _ => 0).run lastValue 20 ⟨5, allZero⟩).state.temps "i" =
      Int64.maxValue := by decide +kernel
  exact ⟨built_lastValue, by decide +kernel, newHeader, h, hok, analyze_lastValue, by decide,
    by decide, _, _, ⟨5, 20, _, by decide, rfl, hreturn⟩, hmax, ⟨5, 20, _, hstart, rfl, hret⟩, hi⟩

end Flowgraph

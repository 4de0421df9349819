import JzHdl.Sim.Targets
import JzHdl.Sim.Bits
import JzHdl.Sim.Exec

/-! # Words as values

A bit vector as a simulation value, and what the operations of the Gray code do
to such values.
-/

namespace JzHdl

open BitWords

variable {w : ℕ}

/-- A known value. Only the bits below 256 are stored. -/
def wordVal (b : BitVec w) : SimValue :=
  ⟨Words.ofFn fun i => (b >>> (64 * i)).setWidth 64, .zero, .zero, w⟩

theorem bit_wordVal (hw : w ≤ 256) (b : BitVec w) (k : ℕ) :
    (wordVal b).val.bit k = b.getLsbD k := by
  rw [wordVal, Words.bit_ofFn]
  by_cases hk : k / 64 < 4
  · simp only [hk, decide_true, Bool.true_and, BitVec.getLsbD_setWidth, BitVec.getLsbD_ushiftRight]
    rw [show 64 * (k / 64) + k % 64 = k by omega]
    simp [Nat.mod_lt]
  · have hlow : b.getLsbD k = false := BitVec.getLsbD_of_ge _ _ (by omega)
    simp [hk, hlow]

/-- A value is a word when its bits are those of the word and nothing is unknown. -/
theorem eq_wordVal (hw : w ≤ 256) {v : SimValue} {b : BitVec w} (hwidth : v.width = w)
    (hbits : ∀ k, v.val.bit k = b.getLsbD k)
    (hknown : ∀ k, v.xmask.bit k = false ∧ v.zmask.bit k = false) : v = wordVal b := by
  refine SimValue.ext_part fun p => ?_
  cases p with
  | width => exact congrArg Sum.inr hwidth
  | bit k =>
    have hx : (wordVal b).xmask.bit k = false := Words.bit_zero k
    have hz : (wordVal b).zmask.bit k = false := Words.bit_zero k
    simp only [SimValue.part, hbits k, (hknown k).1, (hknown k).2, bit_wordVal hw, hx, hz]

theorem masked_wordVal (hw : w ≤ 256) (b : BitVec w) : (wordVal b).Masked := by
  refine eq_wordVal hw rfl (fun k => ?_) fun k => ⟨?_, ?_⟩
  · rw [simValMask, bit_maskWords, bit_wordVal hw]
    by_cases hk : k < w
    · simp [wordVal, hk]
    · simp [wordVal, hk, BitVec.getLsbD_of_ge _ _ (Nat.le_of_not_lt hk)]
  · rw [simValMask, bit_maskWords]
    simp [wordVal]
  · rw [simValMask, bit_maskWords]
    simp [wordVal]

theorem known_wordVal (b : BitVec w) : simValHasXz (wordVal b) = false := by
  rw [Bool.eq_false_iff, ne_eq, simValHasXz_iff]
  simp [wordVal]

theorem zero_wordVal (hw : w ≤ 256) : simValZero w = wordVal (0 : BitVec w) :=
  eq_wordVal hw rfl (fun k => by simp [simValZero]) fun k => by simp [simValZero]

/-! ## Operations -/

theorem bit_one (k : ℕ) : (Words.set .zero 0 (BitVec.ofNat 64 1) : SimWords).bit k =
    decide (k = 0) := by
  rw [Words.bit, Words.get_set, Words.get_zero]
  by_cases hk : k / 64 = 0 ∧ k / 64 < 4
  · rw [if_pos hk, BitVec.getLsbD_one]
    have hmod : k % 64 = 0 ↔ k = 0 := by omega
    simp [hmod]
  · have h0 : k ≠ 0 := by rintro rfl; simp at hk
    rw [if_neg hk]
    simp [h0]

/-- The literal 1 of any width is the shift amount 1. -/
theorem one_smallUint (hpos : 0 < w) :
    simValToSmallUint (evalLiteral ⟨Words.set .zero 0 (BitVec.ofNat 64 1), w, false⟩ w) =
      some 1 := by
  have hmask : maskWords w (Words.set .zero 0 (BitVec.ofNat 64 1)) =
      Words.set .zero 0 (BitVec.ofNat 64 1) := Words.ext_bit fun k => by
    rw [bit_maskWords, bit_one]
    by_cases hk : k < w
    · simp [hk]
    · have h0 : k ≠ 0 := by omega
      simp [h0]
  have hlit : evalLiteral ⟨Words.set .zero 0 (BitVec.ofNat 64 1), w, false⟩ w =
      ⟨Words.set .zero 0 (BitVec.ofNat 64 1), maskWords w .zero, maskWords w .zero, w⟩ := by
    have hw0 : w ≠ 0 := by omega
    simp [evalLiteral, simValFromWords, simValMask, hw0, hmask]
  have hknown : simValHasXz (⟨Words.set .zero 0 (BitVec.ofNat 64 1), maskWords w .zero,
      maskWords w .zero, w⟩ : SimValue) = false := by
    rw [Bool.eq_false_iff, ne_eq, simValHasXz_iff]
    simp [bit_maskWords]
  rw [hlit, simValToSmallUint, hknown]
  simp only [Bool.false_eq_true, if_false]
  rw [if_neg]
  · rfl
  · simp only [List.any_eq_true, List.mem_range'_1, bne_iff_ne, not_exists, not_and, not_not]
    intro i hi
    rw [Words.get_set, if_neg (by omega), Words.get_zero]

theorem shr_wordVal (hpos : 0 < w) (hw : w ≤ 256) (b : BitVec w) :
    evalBinary .shr w (wordVal b)
      (evalLiteral ⟨Words.set .zero 0 (BitVec.ofNat 64 1), w, false⟩ w) = wordVal (b >>> 1) := by
  have hone := @one_smallUint w hpos
  generalize evalLiteral ⟨Words.set .zero 0 (BitVec.ofNat 64 1), w, false⟩ w = one at *
  have hxz : simValHasXz one = false := by
    by_contra h
    rw [simValToSmallUint, if_pos (by simpa using h)] at hone
    cases hone
  have hbits := simValShr_known (known_wordVal b) hxz hone hw
  have hwidth : widthOr w (simValShr (wordVal b) one).width = w := if_pos hpos
  refine eq_wordVal hw ?_ (fun k => ?_) fun k => ⟨?_, ?_⟩
  · exact hwidth
  · rw [evalBinary, fitWidth, simValMask, bit_maskWords, (hbits k).1, hwidth, bit_wordVal hw,
      BitVec.getLsbD_ushiftRight, Nat.add_comm 1 k]
    by_cases hk : k + 1 < w
    · have hk' : k < w := by omega
      simp [wordVal, hk, hk']
    · have hlow : b.getLsbD (k + 1) = false := BitVec.getLsbD_of_ge _ _ (by omega)
      simp [hlow]
  · rw [evalBinary, fitWidth, simValMask, bit_maskWords, (hbits k).2.1, Bool.and_false]
  · rw [evalBinary, fitWidth, simValMask, bit_maskWords, (hbits k).2.2, Bool.and_false]

theorem xor_wordVal (hpos : 0 < w) (hw : w ≤ 256) (a b : BitVec w) :
    evalBinary .xor w (wordVal a) (wordVal b) = wordVal (a ^^^ b) := by
  have hmax : max (wordVal a).width (wordVal b).width = w := Nat.max_self w
  have hnone : ∀ i, ((wordVal a).xmask.get i ||| (wordVal a).zmask.get i |||
      (wordVal b).xmask.get i ||| (wordVal b).zmask.get i) = 0 := fun i => by simp [wordVal]
  have hkeep : ∀ (x : Word) (i : ℕ), x &&& ~~~((0 : Word) &&& wordMask w i) = x := fun x i => by
    rw [show (0 : Word) = 0#64 from rfl, BitVec.zero_and, BitVec.not_zero, BitVec.and_allOnes]
  refine eq_wordVal hw ?_ (fun k => ?_) fun k => ⟨?_, ?_⟩
  · rw [evalBinary, setWidth, widthOr, if_pos hpos]
  · rw [evalBinary, setWidth, simValXor]
    simp only [hmax, hnone, hkeep]
    rw [Words.bit_ofFn, BitVec.getLsbD_xor, ← bit_wordVal hw a, ← bit_wordVal hw b]
    by_cases hk : k < w
    · have h4 : k / 64 < 4 := by omega
      rw [if_pos (lt_numWords hk), BitVec.getLsbD_and, getLsbD_wordMask, BitVec.getLsbD_xor]
      simp only [h4, hk, Words.bit, decide_true, Bool.true_and, Bool.and_true]
    · rw [bit_wordVal hw, bit_wordVal hw, BitVec.getLsbD_of_ge _ _ (Nat.le_of_not_lt hk),
        BitVec.getLsbD_of_ge _ _ (Nat.le_of_not_lt hk)]
      split
      · rw [BitVec.getLsbD_and, getLsbD_wordMask]
        simp [hk]
      · simp
  · rw [evalBinary, setWidth, simValXor]
    simp only [hmax, hnone, show (0 : Word) = 0#64 from rfl, BitVec.zero_and, ite_self]
    rw [Words.bit_ofFn]
    simp
  · exact Words.bit_zero k

theorem bit_cmpResult (x : Bool) (k : ℕ) : (cmpResult x).val.bit k = (decide (k = 0) && x) := by
  cases x with
  | true =>
    rw [Bool.and_true]
    exact bit_one k
  | false =>
    rw [Bool.and_false]
    refine (congrArg (fun ws : SimWords => ws.bit k) ?_).trans (Words.bit_zero k)
    decide +kernel

theorem slice_wordVal (hw : w ≤ 256) (b : BitVec w) (k : ℕ) :
    simValSlice (wordVal b) k k = cmpResult (b.getLsbD k) := by
  have hone : k + 1 - k = 1 := by omega
  have hzero : ∀ j, (maskWords 1 (sliceWords 1 k .zero)).bit j = false := fun j => by
    rw [bit_maskWords, sliceWords, Words.bit_ofFn]
    simp
  refine SimValue.ext_part fun p => ?_
  cases p with
  | width => rw [simValSlice, hone]; rfl
  | bit j =>
    have hx : (cmpResult (b.getLsbD k)).xmask.bit j = false := Words.bit_zero j
    have hz : (cmpResult (b.getLsbD k)).zmask.bit j = false := Words.bit_zero j
    have hval : (maskWords 1 (sliceWords 1 k (wordVal b).val)).bit j =
        (cmpResult (b.getLsbD k)).val.bit j := by
      rw [bit_maskWords, bit_cmpResult]
      by_cases hj : j = 0
      · subst hj
        have hword : ((wordVal b).val.get (k / 64)).getLsbD (k % 64) = b.getLsbD k :=
          bit_wordVal hw b k
        rw [sliceWords, Words.bit_ofFn]
        simp only [Nat.zero_div, Nat.zero_mod, Nat.zero_mul, Nat.add_zero]
        split
        · split
          · rw [Words.getLsbD_funnel _ _ (Nat.mod_lt _ (by decide)) (by decide),
              Nat.add_zero, if_pos (Nat.mod_lt _ (by decide)), hword]
            rfl
          · rw [BitVec.getLsbD_ushiftRight, Nat.add_zero, hword]
            rfl
        · rename_i h
          exact absurd (by decide) h
      · have hj1 : ¬ j < 1 := by omega
        simp [hj, hj1]
    rw [simValSlice, hone, if_neg (by decide)]
    simp only [SimValue.part, simValMask, hx, hz, hval]
    rw [show (wordVal b).xmask = .zero from rfl, show (wordVal b).zmask = .zero from rfl, hzero]

/-- The word with one bit replaced. -/
def setBitOf (b : BitVec w) (i : ℕ) (x : Bool) : BitVec w :=
  (b &&& ~~~BitVec.twoPow w i) ||| if x then BitVec.twoPow w i else 0

theorem getLsbD_setBitOf (b : BitVec w) {i : ℕ} (hi : i < w) (x : Bool) (k : ℕ) :
    (setBitOf b i x).getLsbD k = if k = i then x else b.getLsbD k := by
  rw [setBitOf, BitVec.getLsbD_or, BitVec.getLsbD_and, BitVec.getLsbD_not, BitVec.getLsbD_twoPow]
  by_cases hk : k = i
  · subst hk
    cases x <;> simp [hi]
  · have hik : ¬ i = k := fun h => hk h.symm
    by_cases hkw : k < w
    · cases x <;> simp [hk, hik, hkw]
    · have hlow : b.getLsbD k = false := BitVec.getLsbD_of_ge _ _ (by omega)
      cases x <;> simp [hk, hik, hlow, BitVec.getLsbD_twoPow]

theorem writeSlice_wordVal (hw : w ≤ 256) (b : BitVec w) {i : ℕ} (hi : i < w) {r : SimValue}
    {x : Bool} (hr : r.part (.bit 0) = .inl (x, false, false)) :
    writeSlice (wordVal b) r i i = wordVal (setBitOf b i x) := by
  refine SimValue.ext_part fun p => ?_
  rw [writeSlice_part]
  cases p with
  | width => rfl
  | bit k =>
    have hx : (wordVal (setBitOf b i x)).xmask.bit k = false := Words.bit_zero k
    have hz : (wordVal (setBitOf b i x)).zmask.bit k = false := Words.bit_zero k
    dsimp only
    by_cases hk : k = i
    · subst hk
      rw [if_pos ⟨le_rfl, le_rfl, by omega⟩, Nat.sub_self, hr]
      simp only [SimValue.part, bit_wordVal hw, hx, hz, getLsbD_setBitOf b hi, if_true]
    · simp only [SimValue.part, bit_wordVal hw, hx, hz, getLsbD_setBitOf b hi, hk, if_false]
      rw [if_neg (by omega)]
      simp [wordVal]

/-- A bit that is assigned to a wider signal keeps its value. -/
theorem extend_bit (hpos : 0 < w) (x : Bool) :
    (extendRhs .drive (cmpResult x) w).part (.bit 0) = .inl (x, false, false) := by
  have hx : (cmpResult x).xmask.bit 0 = false := Words.bit_zero 0
  have hz : (cmpResult x).zmask.bit 0 = false := Words.bit_zero 0
  rw [extendRhs]
  simp only [IRAssignmentKind.isZext, IRAssignmentKind.isSext, Bool.false_eq_true, if_false]
  split
  · simp only [SimValue.part, bit_cmpResult, hx, hz, decide_true, Bool.true_and]
  · simp only [SimValue.part, simValMask, bit_maskWords, bit_cmpResult, hx, hz, hpos, decide_true,
      Bool.true_and]

/-! ## Gray code -/

def grayOf (b : BitVec w) : BitVec w := (b >>> 1) ^^^ b

theorem getLsbD_grayOf (b : BitVec w) (k : ℕ) :
    (grayOf b).getLsbD k = (b.getLsbD (k + 1) ^^ b.getLsbD k) := by
  rw [grayOf, BitVec.getLsbD_xor, BitVec.getLsbD_ushiftRight, Nat.add_comm 1 k]

theorem grayOf_zero : grayOf (0 : BitVec w) = 0 := by
  refine BitVec.eq_of_getLsbD_eq fun k _ => ?_
  rw [getLsbD_grayOf]
  simp

end JzHdl

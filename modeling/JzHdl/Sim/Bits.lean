import JzHdl.Sim.Value

/-! # Values bit by bit

Each word-level operation is characterised by what it does to the bit at one
position. The state of a bit is `0`, `1`, `x` or `z`.
-/

namespace JzHdl

open BitWords

theorem getLsbD_low_ones {b j : ℕ} (hb : b < 64) :
    ((1 : Word) <<< b - 1).getLsbD j = decide (j < b) := by
  have hlt : 2 ^ b < 2 ^ 64 := Nat.pow_lt_pow_right (by decide) hb
  have hpos : 0 < 2 ^ b := Nat.two_pow_pos b
  have hnat : ((1 : Word) <<< b - 1).toNat = 2 ^ b - 1 := by
    have hone : (1 : Word).toNat = 1 := rfl
    rw [BitVec.toNat_sub, BitVec.toNat_shiftLeft, hone, Nat.shiftLeft_eq, Nat.one_mul]
    omega
  rw [BitVec.getLsbD, hnat, Nat.testBit_two_pow_sub_one]

theorem getLsbD_topWordMask {w j : ℕ} (hw : 0 < w) (hj : j < 64) :
    (topWordMask w).getLsbD j = decide (j < (w - 1) % 64 + 1) := by
  rw [topWordMask, if_neg (by omega)]
  by_cases h : (w - 1) % 64 + 1 = 64
  · simp only [if_pos h, BitVec.getLsbD_allOnes]
    congr 1; simp only [eq_iff_iff]; omega
  · simp only [if_neg h]
    exact getLsbD_low_ones (by omega)

theorem getLsbD_wordMask (w k : ℕ) :
    (wordMask w (k / 64)).getLsbD (k % 64) = decide (k < w) := by
  have hk : k % 64 < 64 := Nat.mod_lt _ (by decide)
  rcases Nat.eq_zero_or_pos w with rfl | hw
  · simp [wordMask, numWords, topWordMask]
  · have hn : numWords w = (w + 63) / 64 := if_neg (by omega)
    rw [wordMask, hn]
    by_cases h1 : (w + 63) / 64 ≤ k / 64
    · rw [if_pos h1]
      simp only [BitVec.ofNat_eq_ofNat, BitVec.getLsbD_zero]
      symm; simp only [decide_eq_false_iff_not]; omega
    · rw [if_neg h1]
      by_cases h2 : k / 64 < (w + 63) / 64 - 1
      · rw [if_pos h2, BitVec.getLsbD_allOnes]
        congr 1; simp only [eq_iff_iff]; omega
      · rw [if_neg h2, getLsbD_topWordMask hw hk]
        congr 1; simp only [eq_iff_iff]; omega

theorem lt_numWords {w k : ℕ} (h : k < w) : k / 64 < numWords w := by
  rw [numWords]; split <;> omega

theorem bit_widthOnes {w k : ℕ} (hk : k < 256) : (widthOnes w).bit k = decide (k < w) := by
  have : k / 64 < 4 := by omega
  rw [widthOnes, Words.bit_ofFn, getLsbD_wordMask]
  simp [this]

theorem bit_maskWords (w k : ℕ) (ws : SimWords) :
    (maskWords w ws).bit k = (decide (k < w) && ws.bit k) := by
  have hk : k % 64 < 64 := Nat.mod_lt _ (by decide)
  rw [maskWords, Words.bit_ofFn]
  by_cases h4 : k / 64 < 4
  · simp only [h4, decide_true, Bool.true_and]
    rcases Nat.eq_zero_or_pos w with rfl | hw
    · by_cases h0 : k / 64 = 0 <;> simp [numWords, topWordMask, h0]
    · have hn : numWords w = (w + 63) / 64 := if_neg (by omega)
      rw [hn]
      by_cases h1 : k / 64 < (w + 63) / 64 - 1
      · have : k < w := by omega
        rw [if_pos h1]; simp [this, Words.bit]
      · rw [if_neg h1]
        by_cases h2 : k / 64 = (w + 63) / 64 - 1
        · rw [if_pos h2, BitVec.getLsbD_and, getLsbD_topWordMask hw hk, Words.bit, Bool.and_comm]
          congr 2; simp only [eq_iff_iff]; omega
        · have : ¬ k < w := by omega
          rw [if_neg h2]; simp [this]
  · rw [Words.bit_of_le ws (by omega)]; simp [h4]

theorem numWords_le {w : ℕ} (h : w ≤ 256) : numWords w ≤ 4 := by
  rw [numWords]; split <;> omega

/-- A masked word vector is read back unchanged below the width. -/
theorem masked_and_ne_zero_iff (w i : ℕ) (x : Word) :
    (x &&& wordMask w i != 0) = true ↔ ∃ j < 64, 64 * i + j < w ∧ x.getLsbD j = true := by
  have hmask : ∀ j < 64, (wordMask w i).getLsbD j = decide (64 * i + j < w) := fun j hj => by
    have := getLsbD_wordMask w (64 * i + j)
    rwa [show (64 * i + j) / 64 = i by omega, show (64 * i + j) % 64 = j by omega] at this
  rw [bne_iff_ne, ne_eq, BitVec.eq_of_getLsbD_eq_iff]
  push Not
  constructor
  · rintro ⟨j, hj, h⟩
    rw [BitVec.getLsbD_and, hmask j hj] at h
    simp at h
    exact ⟨j, hj, h.2, by simpa using h.1⟩
  · rintro ⟨j, hj, hlt, hx⟩
    refine ⟨j, hj, ?_⟩
    rw [BitVec.getLsbD_and, hmask j hj, hx]
    simp [hlt]

theorem simValHasXz_iff (v : SimValue) :
    simValHasXz v = true ↔ ∃ k < v.width, v.xmask.bit k = true ∨ v.zmask.bit k = true := by
  simp only [simValHasXz, List.any_eq_true, List.mem_range, masked_and_ne_zero_iff,
    BitVec.getLsbD_or, Bool.or_eq_true]
  constructor
  · rintro ⟨i, _, j, hj, hlt, h⟩
    refine ⟨64 * i + j, hlt, ?_⟩
    rwa [Words.getLsbD_get _ _ hj, Words.getLsbD_get _ _ hj] at h
  · rintro ⟨k, hk, h⟩
    refine ⟨k / 64, lt_numWords hk, k % 64, Nat.mod_lt _ (by decide), by omega, ?_⟩
    exact h

theorem simValHasXz_eq_false {v : SimValue} (h : simValHasXz v = false) {k : ℕ} (hk : k < v.width) :
    v.xmask.bit k = false ∧ v.zmask.bit k = false := by
  have := mt (simValHasXz_iff v).mpr (by simp [h])
  push Not at this
  simpa using this k hk

/-! ## Right shift -/

theorem getLsbD_guarded_get (ws : SimWords) (nw i j : ℕ) (hj : j < 64) :
    (if i < nw then ws.get i else 0 : Word).getLsbD j =
      (decide (i < nw) && ws.bit (64 * i + j)) := by
  by_cases h : i < nw
  · rw [if_pos h, Words.getLsbD_get _ _ hj]; simp [h]
  · simp [h]

theorem getLsbD_shrWord (ws : SimWords) (nw s i j : ℕ) (hj : j < 64) :
    (shrWord ws nw s i).getLsbD j =
      (decide ((64 * i + j + s) / 64 < nw) && ws.bit (64 * i + j + s)) := by
  rw [shrWord]
  by_cases h0 : s % 64 = 0
  · simp only [if_pos h0]
    rw [getLsbD_guarded_get _ _ _ _ hj]
    congr 2
    · simp only [eq_iff_iff]; omega
    · omega
  · simp only [if_neg h0]
    rw [Words.getLsbD_funnel _ _ (Nat.mod_lt _ (by decide)) hj]
    by_cases hc : s % 64 + j < 64
    · rw [if_pos hc, getLsbD_guarded_get _ _ _ _ hc]
      congr 2
      · simp only [eq_iff_iff]; omega
      · omega
    · rw [if_neg hc, getLsbD_guarded_get _ _ _ _ (by omega)]
      congr 2
      · simp only [eq_iff_iff]; omega
      · omega

section

variable {a b : SimValue}

@[simp] theorem width_simValMask (v : SimValue) : (simValMask v).width = v.width := rfl

@[simp] theorem width_simValShr : (simValShr a b).width = a.width := by
  rw [simValShr]
  split
  · rfl
  · split
    · rfl
    · split <;> rfl

theorem simValShr_known {s : Word} (h : simValHasXz a = false) (hb : simValHasXz b = false)
    (hs : simValToSmallUint b = some s) (hw : a.width ≤ 256) (k : ℕ) :
    (simValShr a b).val.bit k =
        (decide (k + s.toNat < a.width) && a.val.bit (k + s.toNat)) ∧
      (simValShr a b).xmask.bit k = false ∧ (simValShr a b).zmask.bit k = false := by
  rw [simValShr]
  simp only [h, hb, hs, Bool.or_self, Bool.false_eq_true, if_false]
  by_cases hlt : a.width ≤ s.toNat
  · have : ¬ k + s.toNat < a.width := by omega
    simp [hlt, this, simValZero]
  · simp only [if_neg hlt, simValMask, bit_maskWords, Words.bit_zero, Bool.and_false, and_self,
      and_true]
    rw [Words.bit_ofFn]
    have hnw := numWords_le hw
    by_cases hka : k + s.toNat < a.width
    · have h1 : k / 64 < numWords a.width := lt_numWords (by omega)
      have h2 : (k + s.toNat) / 64 < numWords a.width := lt_numWords hka
      have hk : k < a.width := by omega
      have h4 : k / 64 < 4 := by omega
      simp only [h1, if_true, h4, decide_true, Bool.true_and, hk, hka]
      rw [getLsbD_shrWord _ _ _ _ _ (Nat.mod_lt _ (by decide)),
        show 64 * (k / 64) + k % 64 + s.toNat = k + s.toNat by omega, bit_maskWords]
      simp [h2, hka]
    · simp only [hka, decide_false, Bool.false_and, Bool.and_eq_false_imp, decide_eq_true_eq]
      intro _ _
      split
      · rw [getLsbD_shrWord _ _ _ _ _ (Nat.mod_lt _ (by decide)),
          show 64 * (k / 64) + k % 64 + s.toNat = k + s.toNat by omega, bit_maskWords]
        simp [hka]
      · simp

theorem simValShr_unknown (h : simValHasXz a = true) :
    simValShr a b = simValAllX a.width := by
  rw [simValShr]; simp [h]

end

/-! ## Bitwise and -/

theorem getLsbD_get_div (ws : SimWords) (k : ℕ) :
    (ws.get (k / 64)).getLsbD (k % 64) = ws.bit k := rfl

theorem simValAnd_bit (a b : SimValue) {k : ℕ} (hk : k < max a.width b.width) (h256 : k < 256) :
    let axz := a.xmask.bit k || a.zmask.bit k
    let bxz := b.xmask.bit k || b.zmask.bit k
    let rx := (axz || bxz) && !((!a.val.bit k && !axz) || (!b.val.bit k && !bxz))
    (simValAnd a b).val.bit k = (a.val.bit k && b.val.bit k && !rx) ∧
      (simValAnd a b).xmask.bit k = rx ∧ (simValAnd a b).zmask.bit k = false := by
  have hj : k % 64 < 64 := Nat.mod_lt _ (by decide)
  have h4 : k / 64 < 4 := by omega
  have hn := lt_numWords hk
  have hm := getLsbD_wordMask (max a.width b.width) k
  simp only [hk, decide_true] at hm
  intro axz bxz rx
  refine ⟨?_, ?_, Words.bit_zero k⟩
  · rw [simValAnd, Words.bit_ofFn]
    simp only [h4, hn, if_true, decide_true, Bool.true_and, BitVec.getLsbD_and, BitVec.getLsbD_or,
      BitVec.getLsbD_not, hj, hm, Bool.and_true, getLsbD_get_div]
    rfl
  · rw [simValAnd, Words.bit_ofFn]
    simp only [h4, hn, if_true, decide_true, Bool.true_and, BitVec.getLsbD_and, BitVec.getLsbD_or,
      BitVec.getLsbD_not, hj, hm, Bool.and_true, getLsbD_get_div]
    rfl

/-! ## Four-state bits -/

inductive Bit4 | zero | one | x | z
  deriving DecidableEq, Repr

/-- The state of one bit. An `x` mask wins over a `z` mask, and either over the known bit. -/
def SimValue.bit4 (v : SimValue) (k : ℕ) : Bit4 :=
  if v.xmask.bit k then .x else if v.zmask.bit k then .z else if v.val.bit k then .one else .zero

/-- Nothing is stored above the width. -/
def SimValue.Masked (v : SimValue) : Prop := simValMask v = v

instance (v : SimValue) : Decidable v.Masked := inferInstanceAs (Decidable (simValMask v = v))

theorem SimValue.Masked.bits {v : SimValue} (h : v.Masked) {k : ℕ} (hk : v.width ≤ k) :
    v.val.bit k = false ∧ v.xmask.bit k = false ∧ v.zmask.bit k = false := by
  have hval : maskWords v.width v.val = v.val := congrArg SimValue.val h
  have hx : maskWords v.width v.xmask = v.xmask := congrArg SimValue.xmask h
  have hz : maskWords v.width v.zmask = v.zmask := congrArg SimValue.zmask h
  have hlt : ¬ k < v.width := by omega
  rw [← hval, ← hx, ← hz, bit_maskWords, bit_maskWords, bit_maskWords]
  simp [hlt]

theorem SimValue.Masked.bit4 {v : SimValue} (h : v.Masked) {k : ℕ} (hk : v.width ≤ k) :
    v.bit4 k = .zero := by
  obtain ⟨h1, h2, h3⟩ := h.bits hk
  simp [SimValue.bit4, h1, h2, h3]

theorem bit_fillBits (ws : SimWords) (lo len k : ℕ) :
    (fillBits ws lo len).bit k = (ws.bit k || decide (lo ≤ k ∧ k < lo + len ∧ k < 256)) := by
  rw [fillBits]
  induction len generalizing ws lo with
  | zero => simp; intros; omega
  | succ n ih =>
    rw [List.range'_succ, List.foldl_cons, ih, Words.bit_setBit]
    by_cases hk : k = lo ∧ k < 64 * 4
    · rw [if_pos hk]
      have : lo ≤ k ∧ k < lo + (n + 1) ∧ k < 256 := by omega
      simp [this]
    · rw [if_neg hk]
      congr 2; simp only [eq_iff_iff]; omega

/-- Sign extension copies a known or `x` sign bit, but never a `z`. -/
theorem bit4_simValSext {v : SimValue} {w : ℕ} (hm : v.Masked) (hv : v.width < w) (hw : w ≤ 256)
    {k : ℕ} (hk : k < w) : (simValSext v w).bit4 k =
      if k < v.width then v.bit4 k
      else if v.xmask.bit (v.width - 1) then .x
      else if v.val.bit (v.width - 1) then .one else .zero := by
  have hsign : simValGetBit v (v.width - 1) = v.val.bit (v.width - 1) := by
    rw [simValGetBit]
    split
    · rfl
    · exact ((hm.bits (by omega)).1).symm
  have hx : (decide (0 < v.width) && v.xmask.bit (v.width - 1)) = v.xmask.bit (v.width - 1) := by
    rcases Nat.eq_zero_or_pos v.width with h | h
    · rw [(hm.bits (k := v.width - 1) (by omega)).2.1, Bool.and_false]
    · simp [h]
  rw [simValSext, if_neg (by omega), hsign]
  simp only [hx]
  have hfill : ∀ (ws : SimWords) (c : Bool),
      (if c then fillBits ws v.width (w - v.width) else ws).bit k =
        (ws.bit k || (c && decide (v.width ≤ k))) := by
    intro ws c
    cases c
    · simp
    · rw [if_pos rfl, bit_fillBits, Bool.true_and]
      congr 2; simp only [eq_iff_iff]; omega
  simp only [SimValue.bit4, hfill]
  by_cases hlt : k < v.width
  · have : ¬ v.width ≤ k := by omega
    simp [hlt, this]
  · obtain ⟨h1, h2, h3⟩ := hm.bits (k := k) (by omega)
    have : v.width ≤ k := by omega
    simp [hlt, this, h1, h2, h3]

/-! ## Equality -/

theorem wordsAgree_iff {a b : SimValue} {w : ℕ} :
    wordsAgree a b w = true ↔ ∀ k < w, a.val.bit k = b.val.bit k := by
  simp only [wordsAgree, List.all_eq_true, List.mem_range, beq_iff_eq]
  constructor
  · intro h k hk
    have hword := congrArg (·.getLsbD (k % 64)) (h (k / 64) (lt_numWords hk))
    have hmask : (wordMask w (k / 64)).getLsbD (k % 64) = true := by
      rw [getLsbD_wordMask]; simpa using hk
    simpa [BitVec.getLsbD_and, hmask, Words.bit] using hword
  · intro h i _
    refine BitVec.eq_of_getLsbD_eq fun j hj => ?_
    have hmask := getLsbD_wordMask w (64 * i + j)
    rw [show (64 * i + j) / 64 = i by omega, show (64 * i + j) % 64 = j by omega] at hmask
    rw [BitVec.getLsbD_and, BitVec.getLsbD_and, hmask, Words.getLsbD_get _ _ hj,
      Words.getLsbD_get _ _ hj]
    by_cases hk : 64 * i + j < w
    · rw [h _ hk]
    · simp [hk]

theorem simValIsTrue_cmpResult (b : Bool) : simValIsTrue (cmpResult b) = some b := by
  cases b <;> decide +kernel

theorem simValIsTrue_cmpX : simValIsTrue cmpX = none := by decide +kernel

/-- The test of an equality: both sides are known and agree on the wider width. -/
theorem simValEq_isTrue_iff {a b : SimValue} : simValIsTrue (simValEq a b) = some true ↔
    simValHasXz a = false ∧ simValHasXz b = false ∧
      ∀ k < max a.width b.width, a.val.bit k = b.val.bit k := by
  rw [simValEq]
  by_cases hx : (simValHasXz a || simValHasXz b) = true
  · rw [if_pos hx, simValIsTrue_cmpX]
    simp only [Bool.or_eq_true] at hx
    constructor
    · intro h; cases h
    · rintro ⟨h1, h2, -⟩
      rw [h1, h2] at hx
      simp at hx
  · rw [if_neg hx, simValIsTrue_cmpResult, Option.some.injEq, wordsAgree_iff]
    simp only [Bool.or_eq_true, not_or, Bool.not_eq_true] at hx
    exact ⟨fun h => ⟨hx.1, hx.2, h⟩, fun h => h.2.2⟩

end JzHdl

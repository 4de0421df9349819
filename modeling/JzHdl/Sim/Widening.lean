import JzHdl.Sim.Eval
import JzHdl.Sim.Numbers
import Mathlib.Data.Int.ModEq
import Mathlib.Tactic.Linarith
import Mathlib.Tactic.Ring

/-! # Widening arithmetic

Addition, subtraction and multiplication of simulation values as numbers, and
what the widening intrinsics lose by computing in the width of the wider operand.
-/

namespace JzHdl

open BitWords

/-! ## Carry and borrow chains -/

section

variable (a b : SimWords) (w : ℕ)

/-- The words written so far and the carry make up the sum of the words read so far. -/
theorem addChain_spec : ∀ k ≤ 4,
    let r := (List.range k).foldl (addStep a b w) (.zero, 0)
    r.2.toNat ≤ 1 ∧ r.1.lowNat k + r.2.toNat * 2 ^ (64 * k) =
      (a.toNat % 2 ^ w) % 2 ^ (64 * k) + (b.toNat % 2 ^ w) % 2 ^ (64 * k)
  | 0, _ => by simp [Words.lowNat, Nat.mod_one]
  | k + 1, hk => by
      obtain ⟨hc, ih⟩ := addChain_spec k (by omega)
      rw [List.range_succ, List.foldl_append, List.foldl_cons, List.foldl_nil,
        ← lowNat_masked_succ a w, ← lowNat_masked_succ b w]
      generalize (List.range k).foldl (addStep a b w) (.zero, 0) = r at hc ih ⊢
      have hcarry := carry_spec (a.get k &&& wordMask w k) (b.get k &&& wordMask w k) r.2 hc
      have hbit : ∀ (P : Prop) [Decidable P], (if P then 1 else 0 : Word).toNat =
          if P then 1 else 0 := fun P _ => by split <;> rfl
      simp only [addStep, hbit]
      refine ⟨by split <;> simp, ?_⟩
      rw [Words.lowNat_set_succ _ (by omega), Nat.mul_add 64, Nat.pow_add]
      generalize 2 ^ (64 * k) = X at ih ⊢
      calc _ = X * ((a.get k &&& wordMask w k) + (b.get k &&& wordMask w k) + r.2).toNat +
            X * ((if (a.get k &&& wordMask w k) + (b.get k &&& wordMask w k) <
              a.get k &&& wordMask w k ∨ (a.get k &&& wordMask w k) + (b.get k &&& wordMask w k) +
              r.2 < (a.get k &&& wordMask w k) + (b.get k &&& wordMask w k) then 1 else 0) *
              2 ^ 64) + r.1.lowNat k := by ring
        _ = X * ((a.get k &&& wordMask w k).toNat + (b.get k &&& wordMask w k).toNat +
            r.2.toNat) + r.1.lowNat k := by rw [← Nat.mul_add, hcarry]
        _ = X * (a.get k &&& wordMask w k).toNat + X * (b.get k &&& wordMask w k).toNat +
            (r.1.lowNat k + r.2.toNat * X) := by ring
        _ = _ := by rw [ih]; ring

/-- The words written so far and what was read of the subtrahend make up the minuend and the
borrow. -/
theorem subChain_spec : ∀ k ≤ 4,
    let r := (List.range k).foldl (subStep a b w) (.zero, 0)
    r.2.toNat ≤ 1 ∧ r.1.lowNat k + (b.toNat % 2 ^ w) % 2 ^ (64 * k) =
      (a.toNat % 2 ^ w) % 2 ^ (64 * k) + r.2.toNat * 2 ^ (64 * k)
  | 0, _ => by simp [Words.lowNat, Nat.mod_one]
  | k + 1, hk => by
      obtain ⟨hc, ih⟩ := subChain_spec k (by omega)
      rw [List.range_succ, List.foldl_append, List.foldl_cons, List.foldl_nil,
        ← lowNat_masked_succ a w, ← lowNat_masked_succ b w]
      generalize (List.range k).foldl (subStep a b w) (.zero, 0) = r at hc ih ⊢
      have hborrow := borrow_spec (a.get k &&& wordMask w k) (b.get k &&& wordMask w k) r.2 hc
      have hbit : ∀ (P : Prop) [Decidable P], (if P then 1 else 0 : Word).toNat =
          if P then 1 else 0 := fun P _ => by split <;> rfl
      simp only [subStep, hbit]
      refine ⟨by split <;> simp, ?_⟩
      rw [Words.lowNat_set_succ _ (by omega), Nat.mul_add 64, Nat.pow_add]
      generalize 2 ^ (64 * k) = X at ih ⊢
      generalize (if (b.get k &&& wordMask w k) + r.2 < b.get k &&& wordMask w k ∨
        a.get k &&& wordMask w k < (b.get k &&& wordMask w k) + r.2 then 1 else 0) = c at hborrow ⊢
      generalize (a.get k &&& wordMask w k) = x at hborrow ⊢
      generalize (b.get k &&& wordMask w k) = y at hborrow ⊢
      have hmul := congrArg (X * ·) hborrow
      simp only [Nat.mul_add] at hmul
      calc _ = X * (x - (y + r.2)).toNat + X * y.toNat +
            (r.1.lowNat k + (b.toNat % 2 ^ w) % X) := by ring
        _ = (X * (x - (y + r.2)).toNat + X * y.toNat + X * r.2.toNat) +
            (a.toNat % 2 ^ w) % X := by rw [ih]; ring
        _ = _ := by rw [hmul]; ring

end

/-! ## Sums, differences and products of known values -/

/-- A known value that encodes an integer modulo its width. -/
def SimValue.Encodes (v : SimValue) (w : ℕ) (z : ℤ) : Prop :=
  v.Known w ∧ (v.val.toNat : ℤ) = z % 2 ^ w

theorem simValMask_encodes (ws : SimWords) (w : ℕ) {z : ℤ}
    (h : (ws.toNat : ℤ) ≡ z [ZMOD 2 ^ w]) : (simValMask ⟨ws, .zero, .zero, w⟩).Encodes w z := by
  have hzero : maskWords w .zero = .zero := Words.ext_bit fun k => by
    rw [bit_maskWords]; simp
  refine ⟨⟨rfl, hzero, hzero, ?_⟩, ?_⟩
  · rw [simValMask, toNat_maskWords]
    exact Nat.mod_lt _ (Nat.two_pow_pos w)
  · rw [simValMask, toNat_maskWords, ← h]
    push_cast
    rfl

/-- What a word chain of width `w` adds beyond its last word does not reach the result. -/
theorem chain_modEq (ws : SimWords) (w : ℕ) {z y : ℤ}
    (h : (ws.lowNat (numWords w) : ℤ) = z + y * 2 ^ (64 * numWords w)) :
    (ws.toNat : ℤ) ≡ z [ZMOD 2 ^ w] := by
  have hlow : (ws.toNat : ℤ) ≡ ws.lowNat (numWords w) [ZMOD 2 ^ w] := by
    have := congrArg (Nat.cast : ℕ → ℤ) (toNat_mod_eq ws w)
    push_cast at this
    exact this
  refine hlow.trans (Int.modEq_iff_dvd.mpr ?_)
  have hdvd : (2 : ℤ) ^ w ∣ 2 ^ (64 * numWords w) := by
    exact_mod_cast pow_le_pow_numWords w
  rw [h, sub_add_cancel_left]
  exact Int.dvd_neg.mpr (hdvd.mul_left y)

theorem mod_cast_modEq (x w : ℕ) : ((x % 2 ^ w : ℕ) : ℤ) ≡ x [ZMOD 2 ^ w] := by
  push_cast
  exact Int.mod_modEq _ _

section

variable {a b : SimValue}

theorem simValAdd_encodes (ha : simValHasXz a = false) (hb : simValHasXz b = false)
    (hw : max a.width b.width ≤ 256) :
    (simValAdd a b).Encodes (max a.width b.width) (a.val.toNat + b.val.toNat) := by
  have hchain := (addChain_spec a.val b.val (max a.width b.width) _ (numWords_le hw)).2
  rw [mod_mod_numWords, mod_mod_numWords] at hchain
  rw [simValAdd]
  simp only [ha, hb, Bool.or_self, Bool.false_eq_true, if_false]
  generalize (List.range (numWords (max a.width b.width))).foldl _ _ = r at hchain ⊢
  refine simValMask_encodes _ _ ((chain_modEq (z := (a.val.toNat % 2 ^ max a.width b.width : ℕ) +
    (b.val.toNat % 2 ^ max a.width b.width : ℕ)) (y := -r.2.toNat) _ _ ?_).trans
    ((mod_cast_modEq _ _).add (mod_cast_modEq _ _)))
  have := congrArg (Nat.cast : ℕ → ℤ) hchain
  push_cast at this ⊢
  linarith

theorem simValSub_encodes (ha : simValHasXz a = false) (hb : simValHasXz b = false)
    (hw : max a.width b.width ≤ 256) :
    (simValSub a b).Encodes (max a.width b.width) (a.val.toNat - b.val.toNat) := by
  have hchain := (subChain_spec a.val b.val (max a.width b.width) _ (numWords_le hw)).2
  rw [mod_mod_numWords, mod_mod_numWords] at hchain
  rw [simValSub]
  simp only [ha, hb, Bool.or_self, Bool.false_eq_true, if_false]
  generalize (List.range (numWords (max a.width b.width))).foldl _ _ = r at hchain ⊢
  refine simValMask_encodes _ _ ((chain_modEq (z := (a.val.toNat % 2 ^ max a.width b.width : ℕ) -
    (b.val.toNat % 2 ^ max a.width b.width : ℕ)) (y := r.2.toNat) _ _ ?_).trans
    ((mod_cast_modEq _ _).sub (mod_cast_modEq _ _)))
  have := congrArg (Nat.cast : ℕ → ℤ) hchain
  push_cast at this ⊢
  linarith

end

/-! ## Left shifts -/

theorem getLsbD_shlWord (ws : SimWords) (nw s i j : ℕ) (hj : j < 64) :
    (shlWord ws nw s i).getLsbD j =
      (decide (s ≤ 64 * i + j ∧ (64 * i + j - s) / 64 < nw) && ws.bit (64 * i + j - s)) := by
  have hguard : ∀ q t, t < 64 → (if s / 64 + q ≤ i ∧ i - (s / 64 + q) < nw then
      ws.get (i - (s / 64 + q)) else 0 : Word).getLsbD t =
        (decide (s / 64 + q ≤ i ∧ i - (s / 64 + q) < nw) &&
          ws.bit (64 * (i - (s / 64 + q)) + t)) := by
    intro q t ht
    by_cases h : s / 64 + q ≤ i ∧ i - (s / 64 + q) < nw
    · rw [if_pos h, Words.getLsbD_get _ _ ht]; simp [h]
    · rw [if_neg h]; simp only [h, decide_false, Bool.false_and]; simp
  rw [shlWord]
  by_cases h0 : s % 64 = 0
  · simp only [if_pos h0]
    rw [hguard 0 j hj]
    by_cases hs : s ≤ 64 * i + j
    · congr 2
      · simp only [eq_iff_iff]; omega
      · omega
    · have h1 : ¬ s / 64 ≤ i := by omega
      simp [hs, h1]
  · simp only [if_neg h0]
    rw [BitVec.or_comm]
    have hfun := fun lo hi : Word => Words.getLsbD_funnel lo hi (s := 64 - s % 64) (j := j)
      (by omega) hj
    rw [show 64 - (64 - s % 64) = s % 64 by omega] at hfun
    rw [hfun]
    by_cases hc : 64 - s % 64 + j < 64
    · rw [if_pos hc, hguard 1 _ hc]
      by_cases hs : s ≤ 64 * i + j
      · congr 2
        · simp only [eq_iff_iff]; omega
        · omega
      · have h1 : ¬ s / 64 + 1 ≤ i := by omega
        simp [hs, h1]
    · rw [if_neg hc, hguard 0 _ (by omega)]
      by_cases hs : s ≤ 64 * i + j
      · congr 2
        · simp only [eq_iff_iff]; omega
        · omega
      · have h1 : ¬ s / 64 ≤ i := by omega
        simp [hs, h1]

theorem toNat_shlWords (ws : SimWords) {w : ℕ} (hw : w ≤ 256) (s : ℕ) :
    (Words.ofFn fun i => if i < numWords w then shlWord ws (numWords w) s i else 0 :
      SimWords).toNat % 2 ^ w = ws.toNat * 2 ^ s % 2 ^ w := by
  refine Nat.eq_of_testBit_eq fun k => ?_
  rw [Nat.testBit_mod_two_pow, Nat.testBit_mod_two_pow, Words.testBit_toNat, Words.bit_ofFn,
    Nat.testBit_mul_two_pow, Words.testBit_toNat]
  by_cases hk : k < w
  · have h4 : k / 64 < 4 := by omega
    have hn := lt_numWords hk
    simp only [h4, if_pos hn, hk, decide_true, Bool.true_and]
    rw [getLsbD_shlWord _ _ _ _ _ (Nat.mod_lt _ (by decide)),
      show 64 * (k / 64) + k % 64 = k by omega]
    have : (k - s) / 64 < numWords w := lt_numWords (by omega)
    simp [this]
  · simp [hk]

theorem simValFromUint_small {s : ℕ} (hs : s < 256) :
    simValHasXz (simValFromUint (BitVec.ofNat 64 s) 32) = false ∧
      simValToSmallUint (simValFromUint (BitVec.ofNat 64 s) 32) = some (BitVec.ofNat 64 s) := by
  have hxz : simValHasXz (simValFromUint (BitVec.ofNat 64 s) 32) = false := by
    rw [Bool.eq_false_iff, ne_eq, simValHasXz_iff]
    simp [simValFromUint]
  refine ⟨hxz, ?_⟩
  have hmask : BitVec.ofNat 64 s &&& 4294967295#64 = BitVec.ofNat 64 s := by
    refine BitVec.eq_of_toNat_eq ?_
    rw [BitVec.toNat_and, BitVec.toNat_ofNat, BitVec.toNat_ofNat, Nat.mod_eq_of_lt (by omega),
      show 4294967295 % 2 ^ 64 = 2 ^ 32 - 1 by decide, Nat.and_two_pow_sub_one_eq_mod,
      Nat.mod_eq_of_lt (by omega)]
  rw [simValToSmallUint, hxz]
  simp only [Bool.false_eq_true, if_false, simValFromUint, Words.get_set]
  simp [numWords, hmask]

theorem simValShiftLeftBits_encodes {v : SimValue} {w s : ℕ} (hx : v.xmask = .zero)
    (hz : v.zmask = .zero) (hw : w ≤ 256) (hs : s < w) :
    (simValShiftLeftBits v s w).Encodes w (v.val.toNat * 2 ^ s) := by
  obtain ⟨hxz, hsmall⟩ := simValFromUint_small (s := s) (by omega)
  have hv : simValHasXz { v with width := w } = false := by
    rw [Bool.eq_false_iff, ne_eq, simValHasXz_iff]
    simp [hx, hz]
  have hto : (BitVec.ofNat 64 s).toNat = s := by
    rw [BitVec.toNat_ofNat]; exact Nat.mod_eq_of_lt (by omega)
  rw [simValShiftLeftBits, simValShl]
  simp only [hv, hxz, hsmall, Bool.or_self, Bool.false_eq_true, if_false, hto, if_neg (show ¬ w ≤ s by omega)]
  refine simValMask_encodes _ _ ?_
  have := congrArg (Nat.cast : ℕ → ℤ) (toNat_shlWords v.val hw s)
  push_cast at this
  exact this

/-! ## Multiplication -/

/-- The partial product of the bits read so far. -/
theorem mulFold_encodes {a b : SimValue} {w : ℕ} (hx : a.xmask = .zero) (hz : a.zmask = .zero)
    (hb : b.Known b.width) (hw : w ≤ 256) : ∀ k ≤ w,
    ((List.range k).foldl (fun r bit =>
      if simValGetBit b bit then simValAdd r (simValShiftLeftBits a bit w) else r)
      (simValZero w)).Encodes w (a.val.toNat * (b.val.toNat % 2 ^ k : ℕ))
  | 0, _ => by
      refine ⟨⟨rfl, rfl, rfl, ?_⟩, ?_⟩
      · simp [simValZero]
      · simp [simValZero, Nat.mod_one]
  | k + 1, hk => by
      have ih := mulFold_encodes hx hz hb hw k (by omega)
      rw [List.range_succ, List.foldl_append, List.foldl_cons, List.foldl_nil]
      generalize (List.range k).foldl _ _ = r at ih ⊢
      have hbit : simValGetBit b k = b.val.toNat.testBit k := by
        rw [simValGetBit, Words.testBit_toNat]
        split
        · rfl
        · rw [← Words.testBit_toNat, Nat.testBit_lt_two_pow]
          exact lt_of_lt_of_le hb.lt (Nat.pow_le_pow_right (by decide) (by omega))
      have hmod : b.val.toNat % 2 ^ (k + 1) =
          b.val.toNat % 2 ^ k + 2 ^ k * (b.val.toNat.testBit k).toNat := by
        rw [Nat.toNat_testBit, Nat.mod_pow_succ]
      rw [hbit]
      cases htest : b.val.toNat.testBit k with
      | false =>
        rw [hmod, htest]
        simpa using ih
      | true =>
        have hshift := simValShiftLeftBits_encodes (s := k) hx hz hw (by omega)
        have hsum := simValAdd_encodes ih.1.hasXz hshift.1.hasXz
        rw [ih.1.width, hshift.1.width, max_self] at hsum
        rw [if_pos rfl, hmod, htest, Bool.toNat_true, Nat.mul_one]
        refine ⟨(hsum hw).1, (hsum hw).2.trans ?_⟩
        rw [ih.2, hshift.2, ← Int.add_emod]
        congr 1
        push_cast
        ring

theorem simValMul_encodes {a b : SimValue} (ha : a.Known a.width) (hb : b.Known b.width)
    (hw : max a.width b.width ≤ 256) :
    (simValMul a b).Encodes (max a.width b.width) (a.val.toNat * b.val.toNat) := by
  have hfold := mulFold_encodes ha.xmask ha.zmask hb hw _ le_rfl
  rw [Nat.mod_eq_of_lt (lt_of_lt_of_le hb.lt
    (Nat.pow_le_pow_right (by decide) (le_max_right _ _)))] at hfold
  rw [simValMul]
  simp only [ha.hasXz, hb.hasXz, Bool.or_self, Bool.false_eq_true, if_false]
  generalize (List.range (max a.width b.width)).foldl _ _ = r at hfold ⊢
  obtain ⟨⟨-, hx, hz, -⟩, hval⟩ := hfold
  rw [hx, hz]
  exact simValMask_encodes _ _ (by rw [hval]; exact Int.mod_modEq _ _)

/-! ## The widening intrinsics -/

/-- The intrinsics whose documented result is wider than both operands. -/
inductive WideningOp | uadd | sadd | umul | smul | usub | ssub
  deriving DecidableEq, Repr

namespace WideningOp

/-- The expression the source builds for an intrinsic. -/
def expr (op : WideningOp) (l r : IRExpr) (width : ℕ) : IRExpr :=
  match op with
  | .uadd => .intrinsic .uadd l r .null 0 width
  | .sadd => .intrinsic .sadd l r .null 0 width
  | .umul => .intrinsic .umul l r .null 0 width
  | .smul => .intrinsic .smul l r .null 0 width
  | .usub => .binary .usub l r width
  | .ssub => .binary .ssub l r width

/-- The documented result width. -/
def resultWidth (op : WideningOp) (m n : ℕ) : ℕ :=
  match op with
  | .uadd | .sadd | .usub | .ssub => max m n + 1
  | .umul | .smul => 2 * max m n

end WideningOp

/-- The sign bit of a value of width `w`. -/
def SimValue.negative (v : SimValue) : Bool := v.val.bit (v.width - 1)

/-- The two's complement reading of a value. -/
def SimValue.signed (v : SimValue) : ℤ :=
  if v.negative then (v.val.toNat : ℤ) - 2 ^ v.width else v.val.toNat

namespace WideningOp

/-- The integer an intrinsic is documented to compute. -/
def exact (op : WideningOp) (a b : SimValue) : ℤ :=
  match op with
  | .uadd => a.val.toNat + b.val.toNat
  | .usub => a.val.toNat - b.val.toNat
  | .umul => a.val.toNat * b.val.toNat
  | .sadd => a.signed + b.signed
  | .ssub => a.signed - b.signed
  | .smul => a.signed * b.signed

/-- An operand narrower than the other one is not negative. -/
def SignKept (a b : SimValue) : Prop := a.width < b.width → a.negative = false

/-- A negative narrower factor loses nothing against a multiple of the missing sign bits. -/
def FactorKept (a b : SimValue) : Prop :=
  a.width < b.width → a.negative = true → (2 : ℤ) ^ (b.width - a.width) ∣ b.signed

/-- When the width of the wider operand holds the whole result. -/
def Fits (op : WideningOp) (a b : SimValue) : Prop :=
  match op with
  | .uadd => a.val.toNat + b.val.toNat < 2 ^ max a.width b.width
  | .usub => b.val.toNat ≤ a.val.toNat
  | .umul => a.val.toNat * b.val.toNat < 2 ^ max a.width b.width
  | .sadd => 0 ≤ a.signed + b.signed ∧ SignKept a b ∧ SignKept b a
  | .ssub => b.signed ≤ a.signed ∧ SignKept a b ∧ SignKept b a
  | .smul => 0 ≤ a.signed * b.signed ∧ a.signed * b.signed < 2 ^ max a.width b.width ∧
      FactorKept a b ∧ FactorKept b a

instance (a b : SimValue) : Decidable (SignKept a b) :=
  inferInstanceAs (Decidable (a.width < b.width → a.negative = false))

instance (a b : SimValue) : Decidable (FactorKept a b) :=
  inferInstanceAs (Decidable (a.width < b.width → a.negative = true → _))

instance (op : WideningOp) (a b : SimValue) : Decidable (op.Fits a b) :=
  match op with
  | .uadd => inferInstanceAs (Decidable (_ < _))
  | .usub => inferInstanceAs (Decidable (_ ≤ _))
  | .umul => inferInstanceAs (Decidable (_ < _))
  | .sadd => inferInstanceAs (Decidable (_ ∧ _))
  | .ssub => inferInstanceAs (Decidable (_ ∧ _))
  | .smul => inferInstanceAs (Decidable (_ ∧ _))

end WideningOp

/-! ## Integers of two widths -/

/-- A residue of a narrow width encodes an integer at a wide width only if the narrow width
holds it. -/
theorem emod_eq_emod_iff {P Q c z : ℤ} (hP : 0 < P) (hlo : P ≤ z + Q) (hhi : z < Q) :
    c % P = z % Q ↔ 0 ≤ z ∧ z < P ∧ P ∣ c - z := by
  have hc0 := Int.emod_nonneg c hP.ne'
  have hcP := Int.emod_lt_of_pos c hP
  rcases lt_or_ge z 0 with hz | hz
  · have hzQ : z % Q = z + Q := by
      rw [← Int.add_emod_right, Int.emod_eq_of_lt (by omega) (by omega)]
    constructor
    · intro h; omega
    · rintro ⟨h, -, -⟩; omega
  · rw [Int.emod_eq_of_lt hz hhi]
    constructor
    · intro h
      refine ⟨hz, by omega, ?_⟩
      rw [← h]
      exact Int.dvd_self_sub_emod
    · rintro ⟨-, hzP, hdvd⟩
      rw [Int.emod_eq_emod_iff_emod_sub_eq_zero.mpr (Int.emod_eq_zero_of_dvd hdvd),
        Int.emod_eq_of_lt hz hzP]

theorem two_pow_dvd_sign_iff {m n : ℕ} (h : m < n) {e : ℤ} (he : e = 0 ∨ e = 1 ∨ e = -1) :
    (2 : ℤ) ^ n ∣ e * 2 ^ m ↔ e = 0 := by
  have hlt : (2 : ℤ) ^ m < 2 ^ n := pow_lt_pow_right₀ (by decide) h
  have hnot : ¬ (2 : ℤ) ^ n ∣ 2 ^ m := fun hd => absurd (Int.le_of_dvd (by positivity) hd) (by omega)
  rcases he with rfl | rfl | rfl
  · simp
  · simpa using hnot
  · simpa using hnot

/-- Two sign terms cancel modulo the wider width only if the narrower one is absent. -/
theorem two_pow_dvd_signs_iff (m n : ℕ) {d e : ℤ} (hd : d = 0 ∨ d = 1 ∨ d = -1)
    (he : e = 0 ∨ e = 1 ∨ e = -1) :
    (2 : ℤ) ^ max m n ∣ d * 2 ^ m + e * 2 ^ n ↔ (m < n → d = 0) ∧ (n < m → e = 0) := by
  rcases lt_trichotomy m n with h | rfl | h
  · rw [max_eq_right h.le, Int.dvd_add_left (Int.dvd_mul_left _ _), two_pow_dvd_sign_iff h hd]
    exact ⟨fun h1 => ⟨fun _ => h1, fun h2 => absurd h2 (by omega)⟩, fun h1 => h1.1 h⟩
  · rw [max_self, ← add_mul]
    simp
  · rw [max_eq_left h.le, Int.dvd_add_right (Int.dvd_mul_left _ _), two_pow_dvd_sign_iff h he]
    exact ⟨fun h1 => ⟨fun h2 => absurd h2 (by omega), fun _ => h1⟩, fun h1 => h1.2 h⟩

theorem two_pow_dvd_factor_iff {m n : ℕ} (h : m < n) (y : ℤ) :
    (2 : ℤ) ^ n ∣ 2 ^ m * y ↔ 2 ^ (n - m) ∣ y := by
  rw [show (2 : ℤ) ^ n = 2 ^ m * 2 ^ (n - m) by rw [← pow_add]; congr 1; omega]
  exact mul_dvd_mul_iff_left (by positivity)

/-! ## Signed readings -/

namespace SimValue

variable {v : SimValue}

theorem negative_iff (h : v.Known v.width) (hw : 0 < v.width) :
    v.negative = true ↔ 2 ^ (v.width - 1) ≤ v.val.toNat := by
  obtain ⟨k, hk⟩ : ∃ k, v.width = k + 1 := ⟨v.width - 1, by omega⟩
  have hlt := h.lt
  rw [negative, hk, Nat.add_sub_cancel, ← Words.testBit_toNat]
  rw [hk] at hlt
  constructor
  · exact Nat.ge_two_pow_of_testBit
  · intro hle
    rw [Nat.testBit_eq_decide_div_mod_eq, decide_eq_true_eq]
    have h1 : v.val.toNat / 2 ^ k < 2 := (Nat.div_lt_iff_lt_mul (Nat.two_pow_pos k)).mpr (by
      rw [Nat.mul_comm, ← Nat.pow_succ]; exact hlt)
    have h2 : 1 ≤ v.val.toNat / 2 ^ k := (Nat.le_div_iff_mul_le (Nat.two_pow_pos k)).mpr (by omega)
    omega

theorem signed_eq (v : SimValue) :
    v.signed = v.val.toNat - (v.negative.toNat : ℤ) * 2 ^ v.width := by
  rw [signed]
  cases v.negative <;> simp

theorem signed_bounds (h : v.Known v.width) (hw : 0 < v.width) :
    -2 ^ (v.width - 1) ≤ v.signed ∧ v.signed < 2 ^ (v.width - 1) := by
  have hneg := negative_iff h hw
  have hlt := h.lt
  obtain ⟨k, hk⟩ : ∃ k, v.width = k + 1 := ⟨v.width - 1, by omega⟩
  rw [hk, Nat.add_sub_cancel] at hneg
  rw [hk] at hlt
  rw [signed, hk, Nat.add_sub_cancel]
  have hpos := Nat.two_pow_pos k
  rw [Nat.pow_succ] at hlt
  rw [pow_succ]
  by_cases hn : v.negative = true
  · rw [if_pos hn]
    have hle := hneg.mp hn
    zify at hle hlt hpos
    constructor <;> omega
  · rw [if_neg hn]
    have hle := mt hneg.mpr hn
    push Not at hle
    zify at hle hlt hpos
    constructor <;> omega

end SimValue

/-! ## What the evaluator computes -/

namespace WideningOp

/-- The unsigned operation that the signed intrinsics share. -/
def unsigned (op : WideningOp) (a b : SimValue) : ℤ :=
  match op with
  | .uadd | .sadd => a.val.toNat + b.val.toNat
  | .usub | .ssub => a.val.toNat - b.val.toNat
  | .umul | .smul => a.val.toNat * b.val.toNat

theorem le_resultWidth (op : WideningOp) {m n : ℕ} :
    max m n ≤ op.resultWidth m n := by
  cases op <;> simp only [resultWidth] <;> omega

theorem fitWidth_encodes {r : SimValue} {w W : ℕ} {z : ℤ} (h : r.Encodes w z) (hw : w ≤ W)
    (hpos : 0 < W) : (fitWidth W r).Known W ∧ ((fitWidth W r).val.toNat : ℤ) = z % 2 ^ w := by
  obtain ⟨⟨-, hx, hz, hlt⟩, hval⟩ := h
  rw [fitWidth, hx, hz, widthOr, if_pos hpos]
  obtain ⟨hknown, hnat⟩ := simValMask_encodes r.val W (Int.ModEq.refl _)
  refine ⟨hknown, hnat.trans ?_⟩
  rw [← hval, Int.emod_eq_of_lt (by positivity)]
  exact_mod_cast lt_of_lt_of_le hlt (Nat.pow_le_pow_right (by decide) hw)

variable (m : IRModule) (s : CtxState) {l r : IRExpr} {a b : SimValue}

/-- Whatever the intrinsic, the result is the unsigned operation at the wider operand's width. -/
theorem eval_encodes (op : WideningOp) {W : ℕ} (hl : simEvalExpr m s l = a)
    (hr : simEvalExpr m s r = b) (ha : a.Known a.width) (hb : b.Known b.width)
    (hW : max a.width b.width ≤ W) (hpos : 0 < W) (hfit : W ≤ 256) :
    (simEvalExpr m s (op.expr l r W)).Known W ∧
      ((simEvalExpr m s (op.expr l r W)).val.toNat : ℤ) =
        op.unsigned a b % 2 ^ max a.width b.width := by
  have hle : max a.width b.width ≤ 256 := by omega
  have hadd := fitWidth_encodes (simValAdd_encodes ha.hasXz hb.hasXz hle) hW hpos
  have hsub := fitWidth_encodes (simValSub_encodes ha.hasXz hb.hasXz hle) hW hpos
  have hmul := fitWidth_encodes (simValMul_encodes ha hb hle) hW hpos
  cases op <;>
    simp only [expr, simEvalExpr, evalIntrinsic, evalBinary, hl, hr, unsigned] <;> assumption

theorem cast_lt_of_known {w : ℕ} (ha : a.Known a.width) (hw : a.width ≤ w) :
    (a.val.toNat : ℤ) < 2 ^ w := by
  exact_mod_cast lt_of_lt_of_le ha.lt (Nat.pow_le_pow_right (by decide) hw)

theorem signed_bounds_of_le {k : ℕ} (ha : a.Known a.width) (hpa : 0 < a.width)
    (hk : a.width ≤ k + 1) : -2 ^ k ≤ a.signed ∧ a.signed < 2 ^ k := by
  obtain ⟨hlo, hhi⟩ := SimValue.signed_bounds ha hpa
  have hmono : (2 : ℤ) ^ (a.width - 1) ≤ 2 ^ k := pow_le_pow_right₀ (by decide) (by omega)
  constructor <;> linarith

/-- The exact result stays within the range of the result width. -/
theorem exact_range (op : WideningOp) (ha : a.Known a.width) (hb : b.Known b.width)
    (hpa : 0 < a.width) (hpb : 0 < b.width) :
    2 ^ max a.width b.width ≤ op.exact a b + 2 ^ op.resultWidth a.width b.width ∧
      op.exact a b < 2 ^ op.resultWidth a.width b.width := by
  obtain ⟨k, hk⟩ : ∃ k, max a.width b.width = k + 1 := ⟨max a.width b.width - 1, by omega⟩
  have hA := cast_lt_of_known (w := k + 1) ha (by omega)
  have hB := cast_lt_of_known (w := k + 1) hb (by omega)
  have hsA := signed_bounds_of_le (k := k) ha hpa (by omega)
  have hsB := signed_bounds_of_le (k := k) hb hpb (by omega)
  have hH : (1 : ℤ) ≤ 2 ^ k := one_le_pow₀ (by decide)
  have hdouble : (2 : ℤ) ^ (k + 1 + 1) = 2 * 2 ^ (k + 1) := by ring
  have hsquare : (2 : ℤ) ^ (2 * (k + 1)) = 4 * (2 ^ k * 2 ^ k) := by ring
  have hP : (2 : ℤ) ^ (k + 1) = 2 * 2 ^ k := by ring
  rw [hP] at hA hB
  generalize (2 : ℤ) ^ k = H at *
  cases op <;> simp only [exact, resultWidth, hk, hdouble, hsquare, hP]
  case umul => constructor <;> nlinarith [Int.natCast_nonneg a.val.toNat, Int.natCast_nonneg b.val.toNat]
  case smul => constructor <;> nlinarith
  all_goals constructor <;> omega

theorem factorKept_iff (a b : SimValue) : FactorKept a b ↔
    (a.width < b.width → (2 : ℤ) ^ b.width ∣ a.negative.toNat * 2 ^ a.width * b.signed) := by
  rw [FactorKept]
  refine forall_congr' fun h => ?_
  cases a.negative with
  | false => simp
  | true => simpa using (two_pow_dvd_factor_iff h b.signed).symm

theorem factors_dvd_iff (a b : SimValue) :
    (2 : ℤ) ^ max a.width b.width ∣ a.val.toNat * b.val.toNat - a.signed * b.signed ↔
      FactorKept a b ∧ FactorKept b a := by
  have hsplit : (a.val.toNat * b.val.toNat - a.signed * b.signed : ℤ) =
      a.negative.toNat * 2 ^ a.width * b.signed + b.negative.toNat * 2 ^ b.width * a.signed +
        a.negative.toNat * b.negative.toNat * 2 ^ a.width * 2 ^ b.width := by
    rw [SimValue.signed_eq a, SimValue.signed_eq b]; ring
  rw [hsplit, factorKept_iff, factorKept_iff]
  rcases lt_trichotomy a.width b.width with h | h | h
  · have hb : ¬ b.width < a.width := by omega
    rw [max_eq_right h.le, Int.dvd_add_left (Int.dvd_mul_left _ _),
      Int.dvd_add_left ((Int.dvd_mul_left _ _).mul_right _)]
    simp [h, hb]
  · rw [h, max_self]
    simp only [lt_irrefl, false_imp_iff, and_self, iff_true]
    exact Int.dvd_add (Int.dvd_add ((Int.dvd_mul_left _ _).mul_right _)
      ((Int.dvd_mul_left _ _).mul_right _)) (Int.dvd_mul_left _ _)
  · have ha : ¬ a.width < b.width := by omega
    rw [max_eq_left h.le, Int.dvd_add_left ((Int.dvd_mul_left _ _).mul_right _),
      Int.dvd_add_right ((Int.dvd_mul_left _ _).mul_right _)]
    simp [h, ha]

/-- The unsigned operation differs from the exact one by the sign terms of the operands. -/
theorem unsigned_sub_exact_dvd_iff (op : WideningOp) (a b : SimValue) :
    2 ^ max a.width b.width ∣ op.unsigned a b - op.exact a b ↔
      match op with
      | .uadd | .usub | .umul => True
      | .sadd | .ssub => SignKept a b ∧ SignKept b a
      | .smul => FactorKept a b ∧ FactorKept b a := by
  have hsign : ∀ v : SimValue, (v.negative.toNat : ℤ) = 0 ∨ (v.negative.toNat : ℤ) = 1 ∨
      (v.negative.toNat : ℤ) = -1 := fun v => by cases v.negative <;> simp
  have hkept : ∀ v : SimValue, (v.negative.toNat : ℤ) = 0 ↔ v.negative = false :=
    fun v => by cases v.negative <;> simp
  cases op with
  | uadd | usub | umul => simp [unsigned, exact]
  | sadd =>
    have := two_pow_dvd_signs_iff a.width b.width (hsign a) (hsign b)
    rw [hkept, hkept] at this
    rw [← SignKept.eq_def, ← SignKept.eq_def] at this
    rw [← this, unsigned, exact, SimValue.signed_eq a, SimValue.signed_eq b]
    ring_nf
  | ssub =>
    have := two_pow_dvd_signs_iff a.width b.width (hsign a)
      (e := -(b.negative.toNat : ℤ)) (by cases b.negative <;> simp)
    rw [neg_eq_zero, hkept, hkept] at this
    rw [← SignKept.eq_def, ← SignKept.eq_def] at this
    rw [← this, unsigned, exact, SimValue.signed_eq a, SimValue.signed_eq b]
    ring_nf
  | smul => exact factors_dvd_iff a b

theorem exact_small_dvd_iff (op : WideningOp) (ha : a.Known a.width) (hb : b.Known b.width)
    (hpa : 0 < a.width) (hpb : 0 < b.width) :
    (0 ≤ op.exact a b ∧ op.exact a b < 2 ^ max a.width b.width ∧
      2 ^ max a.width b.width ∣ op.unsigned a b - op.exact a b) ↔ op.Fits a b := by
  rw [unsigned_sub_exact_dvd_iff]
  obtain ⟨k, hk⟩ : ∃ k, max a.width b.width = k + 1 := ⟨max a.width b.width - 1, by omega⟩
  have hA := cast_lt_of_known (w := max a.width b.width) ha (by omega)
  have hB := cast_lt_of_known (w := max a.width b.width) hb (by omega)
  have hsA := signed_bounds_of_le (k := k) ha hpa (by omega)
  have hsB := signed_bounds_of_le (k := k) hb hpb (by omega)
  have hP : (2 : ℤ) ^ max a.width b.width = 2 * 2 ^ k := by rw [hk]; ring
  have hcast : ((2 ^ max a.width b.width : ℕ) : ℤ) = 2 ^ max a.width b.width := by push_cast; rfl
  cases op <;> simp only [Fits, exact, and_true]
  case uadd | umul =>
    zify
    exact ⟨fun h => h.2, fun h => ⟨by positivity, h⟩⟩
  case usub =>
    zify
    exact ⟨fun h => by omega, fun h => ⟨by omega, by omega⟩⟩
  case sadd => exact ⟨fun h => ⟨h.1, h.2.2⟩, fun h => ⟨h.1, by omega, h.2⟩⟩
  case ssub => exact ⟨fun h => ⟨by omega, h.2.2⟩, fun h => ⟨by omega, by omega, h.2⟩⟩

/-- A widening intrinsic yields its exact result just when the wider operand's width holds it. -/
theorem eval_exact_iff (op : WideningOp) (hl : simEvalExpr m s l = a)
    (hr : simEvalExpr m s r = b) (ha : a.Known a.width) (hb : b.Known b.width)
    (hpa : 0 < a.width) (hpb : 0 < b.width) (hfit : op.resultWidth a.width b.width ≤ 256) :
    (simEvalExpr m s (op.expr l r (op.resultWidth a.width b.width))).Encodes
      (op.resultWidth a.width b.width) (op.exact a b) ↔ op.Fits a b := by
  have hW := op.le_resultWidth (m := a.width) (n := b.width)
  obtain ⟨hknown, hval⟩ := eval_encodes m s op hl hr ha hb hW (by omega) hfit
  obtain ⟨hlo, hhi⟩ := op.exact_range ha hb hpa hpb
  rw [SimValue.Encodes, and_iff_right hknown, hval, emod_eq_emod_iff (by positivity) hlo hhi]
  exact op.exact_small_dvd_iff ha hb hpa hpb

end WideningOp

namespace WideningExample

def design : IRModule := ⟨[], [], [], .null⟩

def state : CtxState := ⟨fun _ => ⟨simValZero 1, simValZero 1, false⟩, fun _ _ => simValZero 1,
  false, false, fun _ => false⟩

def number (value : Word) (width : ℕ) : SimValue := simValFromUint value width

def literal (value : Word) (width : ℕ) : IRExpr :=
  .literal ⟨Words.set .zero 0 value, width, false⟩ width

end WideningExample

open WideningExample in
/-- A negative factor of one bit against a multiple of the bits it lacks. -/
theorem WideningOp.eval_exact_iff_smul :
    (simEvalExpr design state (smul.expr (literal 1 1) (literal 8 4) 8)).Encodes 8 8 := by
  have h := eval_exact_iff design state smul (l := literal 1 1) (r := literal 8 4)
    (a := number 1 1) (b := number 8 4) (by decide +kernel) (by decide +kernel)
    ⟨rfl, by decide +kernel, by decide +kernel, by decide +kernel⟩
    ⟨rfl, by decide +kernel, by decide +kernel, by decide +kernel⟩
    (by decide) (by decide) (by decide)
  exact h.mpr (by decide +kernel)

open WideningExample in
/-- The sum of two ones at one bit: the carry does not reach the second bit. -/
theorem WideningOp.eval_uadd_carryLost :
    (number 1 1).Known 1 ∧ uadd.exact (number 1 1) (number 1 1) = 2 ∧
      ¬ (simEvalExpr design state (uadd.expr (literal 1 1) (literal 1 1) 2)).Encodes 2
        (uadd.exact (number 1 1) (number 1 1)) := by
  refine ⟨⟨rfl, by decide +kernel, by decide +kernel, by decide +kernel⟩, by decide +kernel, ?_⟩
  rintro ⟨-, hval⟩
  revert hval
  decide +kernel

end JzHdl

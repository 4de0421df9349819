import JzHdl.Lib.WordsNat
import JzHdl.Sim.Bits

/-! # Simulation values as numbers

The unsigned number of a masked word vector and of a known value, and the
comparison of two values as the comparison of their numbers.
-/

namespace JzHdl

open BitWords

theorem toNat_maskWords (w : ℕ) (ws : SimWords) : (maskWords w ws).toNat = ws.toNat % 2 ^ w := by
  refine Nat.eq_of_testBit_eq fun k => ?_
  rw [Words.testBit_toNat, bit_maskWords, Nat.testBit_mod_two_pow, Words.testBit_toNat]

/-- The words that both operands of an operation of width `w` contribute. -/
theorem lowNat_masked (ws : SimWords) (w k : ℕ) :
    (Words.ofFn fun i => ws.get i &&& wordMask w i : SimWords).lowNat k =
      (ws.toNat % 2 ^ w) % 2 ^ (64 * k) := by
  rw [Words.lowNat_eq_mod]
  congr 1
  refine Nat.eq_of_testBit_eq fun j => ?_
  rw [Words.testBit_toNat, Words.bit_ofFn, BitVec.getLsbD_and, getLsbD_wordMask,
    Nat.testBit_mod_two_pow, Words.testBit_toNat, Bool.and_comm _ (decide _)]
  by_cases h : j / 64 < 4
  · simp [h, Words.bit]
  · rw [Words.bit_of_le ws (by omega)]; simp [h]

theorem lowNat_masked_succ (ws : SimWords) (w k : ℕ) :
    2 ^ (64 * k) * (ws.get k &&& wordMask w k).toNat + (ws.toNat % 2 ^ w) % 2 ^ (64 * k) =
      (ws.toNat % 2 ^ w) % 2 ^ (64 * (k + 1)) := by
  by_cases hk : k < 4
  · have h := lowNat_masked ws w (k + 1)
    rw [Words.lowNat, lowNat_masked ws w k, Words.get_ofFn, if_pos hk] at h
    exact h
  · have hlt : ∀ j, 4 ≤ j → ws.toNat % 2 ^ w < 2 ^ (64 * j) := fun j hj =>
      lt_of_le_of_lt (Nat.mod_le _ _) (lt_of_lt_of_le ws.toNat_lt
        (Nat.pow_le_pow_right (by decide) (by omega)))
    rw [Words.get_of_le ws (by omega), Nat.mod_eq_of_lt (hlt k (by omega)),
      Nat.mod_eq_of_lt (hlt (k + 1) (by omega))]
    simp

/-! ## Known values -/

theorem pow_le_pow_numWords (w : ℕ) : 2 ^ w ∣ 2 ^ (64 * numWords w) :=
  Nat.pow_dvd_pow 2 (by rw [numWords]; split <;> omega)

theorem mod_mod_numWords (x w : ℕ) : x % 2 ^ w % 2 ^ (64 * numWords w) = x % 2 ^ w :=
  Nat.mod_eq_of_lt (lt_of_lt_of_le (Nat.mod_lt _ (Nat.two_pow_pos w))
    (Nat.le_of_dvd (Nat.two_pow_pos _) (pow_le_pow_numWords w)))

/-- The low words of a vector decide its masked number. -/
theorem toNat_mod_eq (ws : SimWords) (w : ℕ) :
    ws.toNat % 2 ^ w = ws.lowNat (numWords w) % 2 ^ w := by
  rw [Words.lowNat_eq_mod, Nat.mod_mod_of_dvd _ (pow_le_pow_numWords w)]

/-- A value of a given width all of whose bits are known and none lies above the width. -/
structure SimValue.Known (v : SimValue) (w : ℕ) : Prop where

  width : v.width = w

  xmask : v.xmask = .zero

  zmask : v.zmask = .zero

  lt : v.val.toNat < 2 ^ w

namespace SimValue.Known

variable {v : SimValue} {w : ℕ}

theorem hasXz (h : v.Known w) : simValHasXz v = false := by
  rw [Bool.eq_false_iff, ne_eq, simValHasXz_iff, h.xmask, h.zmask]
  simp

end SimValue.Known

/-! ## Comparison -/

theorem foldl_then (f : ℕ → Ordering) (l : List ℕ) (acc : Ordering) :
    l.foldl (fun acc i => acc.then (f i)) acc = acc.then (l.foldl (fun acc i => acc.then (f i)) .eq) := by
  induction l generalizing acc with
  | nil => cases acc <;> rfl
  | cons i rest ih =>
    rw [List.foldl_cons, List.foldl_cons, ih, ih (Ordering.eq.then (f i)), Ordering.then_assoc]
    rfl

theorem compare_digits {X x y a b : ℕ} (ha : a < X) (hb : b < X) :
    compare (X * x + a) (X * y + b) = (compare x y).then (compare a b) := by
  rcases Nat.lt_trichotomy x y with h | rfl | h
  · have : X * (x + 1) ≤ X * y := Nat.mul_le_mul_left _ h
    rw [Nat.compare_eq_lt.mpr h, Nat.compare_eq_lt.mpr (by rw [Nat.mul_succ] at this; omega)]
    rfl
  · rw [Nat.compare_eq_eq.mpr rfl]
    rcases Nat.lt_trichotomy a b with h | rfl | h
    · rw [Nat.compare_eq_lt.mpr h, Nat.compare_eq_lt.mpr (by omega)]; rfl
    · rw [Nat.compare_eq_eq.mpr rfl, Nat.compare_eq_eq.mpr rfl]; rfl
    · rw [Nat.compare_eq_gt.mpr h, Nat.compare_eq_gt.mpr (by omega)]; rfl
  · have : X * (y + 1) ≤ X * x := Nat.mul_le_mul_left _ h
    rw [Nat.compare_eq_gt.mpr h, Nat.compare_eq_gt.mpr (by rw [Nat.mul_succ] at this; omega)]
    rfl

theorem simValUcmp_eq (a b : SimValue) (w : ℕ) :
    simValUcmp a b w = compare (a.val.toNat % 2 ^ w) (b.val.toNat % 2 ^ w) := by
  rw [← mod_mod_numWords a.val.toNat, ← mod_mod_numWords b.val.toNat, simValUcmp]
  generalize numWords w = n
  induction n with
  | zero => simp [Nat.mod_one]
  | succ k ih =>
    rw [List.range_succ, List.reverse_append, List.reverse_singleton, List.singleton_append,
      List.foldl_cons, foldl_then, ih, ← lowNat_masked_succ a.val w,
      ← lowNat_masked_succ b.val w,
      compare_digits (Nat.mod_lt _ (Nat.two_pow_pos _)) (Nat.mod_lt _ (Nat.two_pow_pos _))]
    rfl

section

variable {a b : SimValue} {w : ℕ}

/-- The bits of two values agree up to a width just when their numbers are congruent. -/
theorem wordsAgree_iff_mod : wordsAgree a b w = true ↔
    a.val.toNat % 2 ^ w = b.val.toNat % 2 ^ w := by
  rw [wordsAgree_iff]
  constructor
  · intro h
    refine Nat.eq_of_testBit_eq fun k => ?_
    rw [Nat.testBit_mod_two_pow, Nat.testBit_mod_two_pow, Words.testBit_toNat, Words.testBit_toNat]
    by_cases hk : k < w
    · rw [h k hk]
    · simp [hk]
  · intro h k hk
    have := congrArg (Nat.testBit · k) h
    simpa [Nat.testBit_mod_two_pow, Words.testBit_toNat, hk] using this

theorem SimValue.Known.mod_of_le {v : SimValue} (h : v.Known v.width) (hw : v.width ≤ w) :
    v.val.toNat % 2 ^ w = v.val.toNat :=
  Nat.mod_eq_of_lt (lt_of_lt_of_le h.lt (Nat.pow_le_pow_right (by decide) hw))

end

/-! ## Truth and comparison of known values -/

section

variable {a b : SimValue}

theorem simValIsTrue_known (h : a.Known a.width) :
    simValIsTrue a = some (decide (a.val.toNat ≠ 0)) := by
  rw [simValIsTrue, h.hasXz, if_neg (by simp), Option.some.injEq, Bool.eq_iff_iff, List.any_eq_true,
    decide_eq_true_eq]
  simp only [masked_and_ne_zero_iff, List.mem_range]
  constructor
  · rintro ⟨i, -, j, hj, -, hbit⟩ hzero
    rw [Words.getLsbD_get _ _ hj, ← Words.testBit_toNat, hzero, Nat.zero_testBit] at hbit
    cases hbit
  · intro hne
    obtain ⟨k, hk⟩ := Nat.exists_testBit_of_ne_zero hne
    have hkw : k < a.width := by
      by_contra hge
      rw [Nat.testBit_lt_two_pow (lt_of_lt_of_le h.lt
        (Nat.pow_le_pow_right (by decide) (by omega)))] at hk
      cases hk
    refine ⟨k / 64, lt_numWords hkw, k % 64, Nat.mod_lt _ (by decide), by omega, ?_⟩
    rw [Words.testBit_toNat] at hk
    exact hk

theorem simValIsTrue_simValEq (ha : a.Known a.width) (hb : b.Known b.width) :
    simValIsTrue (simValEq a b) = some (decide (a.val.toNat = b.val.toNat)) := by
  rw [simValEq, ha.hasXz, hb.hasXz]
  simp only [Bool.or_self, Bool.false_eq_true, if_false, simValIsTrue_cmpResult, Option.some.injEq]
  rw [Bool.eq_iff_iff, wordsAgree_iff_mod, ha.mod_of_le (le_max_left _ _),
    hb.mod_of_le (le_max_right _ _), decide_eq_true_eq]

theorem simValIsTrue_simValNeq (ha : a.Known a.width) (hb : b.Known b.width) :
    simValIsTrue (simValNeq a b) = some (decide (a.val.toNat ≠ b.val.toNat)) := by
  rw [simValNeq, ha.hasXz, hb.hasXz]
  simp only [Bool.or_self, Bool.false_eq_true, if_false, simValIsTrue_cmpResult, Option.some.injEq]
  rw [Bool.eq_iff_iff, Bool.not_eq_true', ← Bool.not_eq_true, wordsAgree_iff_mod,
    ha.mod_of_le (le_max_left _ _), hb.mod_of_le (le_max_right _ _), decide_eq_true_eq]

theorem simValIsTrue_simValLt (ha : a.Known a.width) (hb : b.Known b.width) :
    simValIsTrue (simValLt a b) = some (decide (a.val.toNat < b.val.toNat)) := by
  rw [simValLt, ha.hasXz, hb.hasXz]
  simp only [Bool.or_self, Bool.false_eq_true, if_false, simValIsTrue_cmpResult, Option.some.injEq]
  rw [Bool.eq_iff_iff, simValUcmp_eq, ha.mod_of_le (le_max_left _ _),
    hb.mod_of_le (le_max_right _ _), beq_iff_eq, Nat.compare_eq_lt, decide_eq_true_eq]

theorem simValIsTrue_simValLte (ha : a.Known a.width) (hb : b.Known b.width) :
    simValIsTrue (simValLte a b) = some (decide (a.val.toNat ≤ b.val.toNat)) := by
  rw [simValLte, ha.hasXz, hb.hasXz]
  simp only [Bool.or_self, Bool.false_eq_true, if_false, simValIsTrue_cmpResult, Option.some.injEq]
  rw [Bool.eq_iff_iff, simValUcmp_eq, ha.mod_of_le (le_max_left _ _),
    hb.mod_of_le (le_max_right _ _), bne_iff_ne, ne_eq, Nat.compare_eq_gt, decide_eq_true_eq]
  omega

end

end JzHdl

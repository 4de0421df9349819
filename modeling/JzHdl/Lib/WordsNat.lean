import JzHdl.Lib.Words
import Mathlib.Data.Nat.Bitwise

/-! # Word vectors as numbers

The number that a vector of words denotes, read off its bits, and the ripple
of carries and borrows from word to word.
-/

namespace BitWords

namespace Words

variable {n : ℕ}

/-- The number in the lowest `k` words. -/
def lowNat (ws : Words n) : ℕ → ℕ
  | 0 => 0
  | k + 1 => 2 ^ (64 * k) * (ws.get k).toNat + lowNat ws k

def toNat (ws : Words n) : ℕ := ws.lowNat n

theorem lowNat_lt (ws : Words n) : ∀ k, ws.lowNat k < 2 ^ (64 * k)
  | 0 => by simp [lowNat]
  | k + 1 => by
      have hlow := lowNat_lt ws k
      have hword : (ws.get k).toNat < 2 ^ 64 := (ws.get k).isLt
      rw [lowNat, Nat.mul_add, Nat.pow_add]
      calc 2 ^ (64 * k) * (ws.get k).toNat + lowNat ws k
          < 2 ^ (64 * k) * (ws.get k).toNat + 2 ^ (64 * k) := Nat.add_lt_add_left hlow _
        _ = 2 ^ (64 * k) * ((ws.get k).toNat + 1) := (Nat.mul_succ _ _).symm
        _ ≤ 2 ^ (64 * k) * 2 ^ (64 * 1) := Nat.mul_le_mul_left _ hword

theorem toNat_lt (ws : Words n) : ws.toNat < 2 ^ (64 * n) := lowNat_lt ws n

theorem testBit_lowNat (ws : Words n) : ∀ k j,
    (ws.lowNat k).testBit j = (decide (j < 64 * k) && ws.bit j)
  | 0, j => by simp [lowNat]
  | k + 1, j => by
      rw [lowNat, Nat.testBit_two_pow_mul_add _ (lowNat_lt ws k), testBit_lowNat ws k]
      by_cases h : j < 64 * k
      · have : j < 64 * (k + 1) := by omega
        simp [h, this]
      · rw [if_neg h]
        by_cases h' : j < 64 * (k + 1)
        · have hj : j - 64 * k < 64 := by omega
          have hget := getLsbD_get ws k hj
          rw [show 64 * k + (j - 64 * k) = j by omega] at hget
          simp only [h', decide_true, Bool.true_and]
          exact hget
        · simp only [h', decide_false, Bool.false_and]
          refine Nat.testBit_lt_two_pow (lt_of_lt_of_le (ws.get k).isLt ?_)
          exact Nat.pow_le_pow_right (by decide) (by omega)

theorem testBit_toNat (ws : Words n) (j : ℕ) : ws.toNat.testBit j = ws.bit j := by
  rw [toNat, testBit_lowNat]
  by_cases h : j < 64 * n
  · simp [h]
  · rw [bit_of_le ws (by omega)]; simp [h]

theorem lowNat_eq_mod (ws : Words n) (k : ℕ) : ws.lowNat k = ws.toNat % 2 ^ (64 * k) := by
  refine Nat.eq_of_testBit_eq fun j => ?_
  rw [testBit_lowNat, Nat.testBit_mod_two_pow, testBit_toNat]

@[simp] theorem toNat_zero : (zero : Words n).toNat = 0 :=
  Nat.eq_of_testBit_eq fun j => by rw [testBit_toNat, bit_zero, Nat.zero_testBit]

theorem lowNat_congr {a b : Words n} : ∀ {k : ℕ}, (∀ i < k, a.get i = b.get i) →
    a.lowNat k = b.lowNat k
  | 0, _ => rfl
  | k + 1, h => by
      rw [lowNat, lowNat, h k (by omega), lowNat_congr fun i hi => h i (by omega)]

theorem lowNat_set_of_le (ws : Words n) {i k : ℕ} (h : k ≤ i) (w : Word) :
    (ws.set i w).lowNat k = ws.lowNat k := by
  refine lowNat_congr fun j hj => ?_
  rw [get_set, if_neg (by omega)]

theorem lowNat_set_succ (ws : Words n) {k : ℕ} (h : k < n) (w : Word) :
    (ws.set k w).lowNat (k + 1) = 2 ^ (64 * k) * w.toNat + ws.lowNat k := by
  rw [lowNat, lowNat_set_of_le ws le_rfl, get_set, if_pos ⟨rfl, h⟩]

end Words

/-! ## Carries and borrows -/

/-- The carry out of a word as the comparisons of the wrapped sums find it. -/
theorem carry_spec (a b c : Word) (hc : c.toNat ≤ 1) :
    (a + b + c).toNat + (if a + b < a ∨ a + b + c < a + b then 1 else 0) * 2 ^ 64 =
      a.toNat + b.toNat + c.toNat := by
  have ha := a.isLt
  have hb := b.isLt
  have h1 : (a + b).toNat = (a.toNat + b.toNat) % 2 ^ 64 := BitVec.toNat_add a b
  have h2 : (a + b + c).toNat = ((a + b).toNat + c.toNat) % 2 ^ 64 := BitVec.toNat_add _ c
  simp only [BitVec.lt_def]
  rw [h2, h1]
  split <;> omega

/-- The borrow out of a word; the subtrahend with the borrow in may itself wrap to 0. -/
theorem borrow_spec (a b c : Word) (hc : c.toNat ≤ 1) :
    (a - (b + c)).toNat + b.toNat + c.toNat =
      a.toNat + (if b + c < b ∨ a < b + c then 1 else 0) * 2 ^ 64 := by
  have ha := a.isLt
  have hb := b.isLt
  have h1 : (b + c).toNat = (b.toNat + c.toNat) % 2 ^ 64 := BitVec.toNat_add b c
  have h2 : (a - (b + c)).toNat = (2 ^ 64 - (b + c).toNat + a.toNat) % 2 ^ 64 :=
    BitVec.toNat_sub a _
  simp only [BitVec.lt_def]
  rw [h2, h1]
  split <;> omega

end BitWords

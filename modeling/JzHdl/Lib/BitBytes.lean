import JzHdl.Lib.ByteCodec
import Mathlib.Data.Nat.Bitwise
import Mathlib.Tactic.Ring

/-! # Bits of byte lists

The bits of a list of bytes, the highest bit of the first byte first. A number
in big-endian order has its bits at the end of its bytes.
-/

namespace ByteCodec

def bitAt (bs : Bytes) (i : ℕ) : Bool := (bs.getD (i / 8) 0).toNat.testBit (7 - i % 8)

/-- Sets a bit of one byte, counted from the lowest. -/
def orBit (bs : Bytes) (byte bit : ℕ) : Bytes :=
  bs.modify byte fun b => b ||| UInt8.ofNat (2 ^ bit)

def zeros (n : ℕ) : Bytes := List.replicate n 0

theorem testBit_byte (b : UInt8) {k : ℕ} (hk : 8 ≤ k) : b.toNat.testBit k = false :=
  Nat.testBit_lt_two_pow (lt_of_lt_of_le b.toNat_lt (Nat.pow_le_pow_right (by decide) hk))

theorem bytes_ext {bs cs : Bytes} (hlen : bs.length = cs.length)
    (h : ∀ i < 8 * bs.length, bitAt bs i = bitAt cs i) : bs = cs := by
  refine List.ext_getElem hlen fun n hn hn' => UInt8.toNat_inj.mp (Nat.eq_of_testBit_eq fun k => ?_)
  by_cases hk : k < 8
  · have hbit := h (8 * n + (7 - k)) (by omega)
    have hdiv : (8 * n + (7 - k)) / 8 = n := by omega
    have hmod : 7 - (8 * n + (7 - k)) % 8 = k := by omega
    rwa [bitAt, bitAt, hdiv, hmod, List.getD_eq_getElem _ _ hn, List.getD_eq_getElem _ _ hn'] at hbit
  · rw [testBit_byte _ (by omega), testBit_byte _ (by omega)]

@[simp] theorem length_orBit (bs : Bytes) (byte bit : ℕ) :
    (orBit bs byte bit).length = bs.length := List.length_modify _ _ _

theorem bitAt_orBit {bs : Bytes} {byte bit : ℕ} (hbyte : byte < bs.length) (hbit : bit < 8)
    (i : ℕ) : bitAt (orBit bs byte bit) i = (bitAt bs i || decide (i = 8 * byte + (7 - bit))) := by
  have hpow : (UInt8.ofNat (2 ^ bit)).toNat = 2 ^ bit :=
    toNat_ofNat (lt_of_lt_of_le (Nat.pow_lt_pow_right (by decide) hbit) (by decide))
  rw [bitAt, bitAt, orBit, List.getD_eq_getElem?_getD, List.getD_eq_getElem?_getD,
    List.getElem?_modify]
  by_cases hb : byte = i / 8
  · subst hb
    have hiff : bit = 7 - i % 8 ↔ i = 8 * (i / 8) + (7 - bit) := by omega
    simp [List.getElem?_eq_getElem hbyte, Nat.testBit_or, hpow, Nat.testBit_two_pow, hiff]
  · have hi : i ≠ 8 * byte + (7 - bit) := by omega
    simp [hb, hi]

theorem bitAt_zeros (n i : ℕ) : bitAt (zeros n) i = false := by
  rw [bitAt, zeros, List.getD_eq_getElem?_getD, List.getElem?_replicate]
  split <;> exact Nat.zero_testBit _

theorem bitAt_of_length_le {bs : Bytes} {i : ℕ} (h : 8 * bs.length ≤ i) : bitAt bs i = false := by
  rw [bitAt, List.getD_eq_default _ _ (by omega)]
  exact Nat.zero_testBit _

theorem bitAt_append_left {bs cs : Bytes} {i : ℕ} (h : i < 8 * bs.length) :
    bitAt (bs ++ cs) i = bitAt bs i := by
  rw [bitAt, bitAt, List.getD_append _ _ _ _ (by omega)]

theorem bitAt_append_right (bs cs : Bytes) (i : ℕ) :
    bitAt (bs ++ cs) (8 * bs.length + i) = bitAt cs i := by
  have hdiv : (8 * bs.length + i) / 8 = bs.length + i / 8 := by omega
  have hmod : (8 * bs.length + i) % 8 = i % 8 := by omega
  rw [bitAt, bitAt, hdiv, hmod, List.getD_append_right _ _ _ _ (by omega), Nat.add_sub_cancel_left]

theorem bitAt_bigEndian : ∀ {k : ℕ} (n : ℕ) {i : ℕ}, i < 8 * k →
    bitAt (bigEndian k n) i = n.testBit (8 * k - 1 - i)
  | k + 1, n, i, h => by
      rw [bigEndian]
      by_cases hi : i < 8 * k
      · rw [bitAt_append_left (by rwa [length_bigEndian]), bitAt_bigEndian _ hi,
          show 256 = 2 ^ 8 from rfl, Nat.testBit_div_two_pow]
        congr 1
        omega
      · obtain ⟨r, rfl⟩ := Nat.exists_eq_add_of_le (Nat.not_lt.mp hi)
        have hright := bitAt_append_right (bigEndian k (n / 256)) [UInt8.ofNat (n % 256)] r
        rw [length_bigEndian] at hright
        have hr : r < 8 := by omega
        rw [hright, bitAt, Nat.div_eq_of_lt hr, Nat.mod_eq_of_lt hr,
          List.getD_cons_zero, toNat_ofNat (Nat.mod_lt _ (by decide)), show 256 = 2 ^ 8 from rfl,
          Nat.testBit_mod_two_pow, decide_eq_true (by omega), Bool.true_and]
        congr 1
        omega

/-- A bit inside one of several blocks of the same length. -/
theorem bitAt_blocks {α : Type*} {f : α → Bytes} {k : ℕ} (hf : ∀ x, (f x).length = k) :
    ∀ {xs : List α} {a r : ℕ} {x : α}, xs[a]? = some x → r < 8 * k →
      bitAt (xs.flatMap f) (8 * k * a + r) = bitAt (f x) r
  | y :: ys, 0, r, x, h, hr => by
      obtain rfl : y = x := by simpa using h
      rw [List.flatMap_cons, Nat.mul_zero, Nat.zero_add, bitAt_append_left (by rwa [hf])]
  | y :: ys, a + 1, r, x, h, hr => by
      have hpos : 8 * k * (a + 1) + r = 8 * (f y).length + (8 * k * a + r) := by
        rw [hf]
        ring
      rw [List.flatMap_cons, hpos, bitAt_append_right]
      exact bitAt_blocks hf (by simpa using h) hr

end ByteCodec

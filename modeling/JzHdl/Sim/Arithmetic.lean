import JzHdl.Sim.OpBits
import JzHdl.Sim.Widening

/-! # Arithmetic of one width

Operands of one width: sums, differences, products and negations are exact
modulo the width, and the restoring division finds quotient and remainder.
-/

namespace BitWords.Words

variable {n : ℕ}

/-- Writing a bit of a number all of whose bits up to that one are clear. -/
theorem toNat_setBit {ws : Words n} {i x : ℕ} (h : ws.toNat = 2 ^ (i + 1) * x) (hi : i < 64 * n)
    (b : Bool) : (ws.setBit i b).toNat = 2 ^ (i + 1) * x + b.toNat * 2 ^ i := by
  have hlt : b.toNat * 2 ^ i < 2 ^ (i + 1) := by
    have hb := b.toNat_le
    have hpos := Nat.two_pow_pos i
    rw [Nat.pow_succ]
    nlinarith
  refine Nat.eq_of_testBit_eq fun j => ?_
  have hj : ws.bit j = (2 ^ (i + 1) * x).testBit j := by rw [← h, testBit_toNat]
  rw [testBit_toNat, bit_setBit, hj, Nat.testBit_two_pow_mul_add _ hlt, Nat.testBit_two_pow_mul]
  by_cases hji : j = i
  · subst hji
    rw [if_pos ⟨rfl, hi⟩, if_pos (by omega)]
    cases b <;> simp
  · rw [if_neg (by omega)]
    by_cases hlow : j < i + 1
    · have hbit : (b.toNat * 2 ^ i).testBit j = false := by
        cases b
        · simp
        · simp [Nat.testBit_two_pow_of_ne (Ne.symm hji)]
      rw [if_pos hlow, hbit, decide_eq_false (show ¬ j ≥ i + 1 by omega), Bool.false_and]
    · rw [if_neg hlow]
      simp only [ge_iff_le, not_lt.mp hlow, decide_true, Bool.true_and]

end BitWords.Words

namespace JzHdl

open BitWords

namespace SimValue

variable {v : SimValue} {w : ℕ}

theorem Known.self (h : v.Known w) : v.Known v.width := by rwa [h.width]

theorem Known.mask (h : v.Known w) : simValMask { v with width := w } = v := by
  have hval : maskWords w v.val = v.val := Words.ext_bit fun k => by
    rw [bit_maskWords, ← Words.testBit_toNat]
    by_cases hk : k < w
    · simp [hk]
    · rw [Nat.testBit_lt_two_pow (lt_of_lt_of_le h.lt (Nat.pow_le_pow_right (by decide) (by omega)))]
      simp
  have hzero : maskWords w .zero = .zero := Words.ext_bit fun k => by rw [bit_maskWords]; simp
  obtain ⟨val, xmask, zmask, width⟩ := v
  obtain ⟨rfl, rfl, rfl, -⟩ := h
  simp only [simValMask, hzero]
  rw [show maskWords width val = val from hval]

/-- A known value that holds a given number. -/
def Holds (v : SimValue) (w x : ℕ) : Prop := v.Known w ∧ v.val.toNat = x

theorem Encodes.holds {z : ℤ} {x : ℕ} (h : v.Encodes w z) (hz : z ≡ x [ZMOD 2 ^ w]) :
    v.Holds w (x % 2 ^ w) := by
  refine ⟨h.1, ?_⟩
  have hval := h.2.trans hz
  exact_mod_cast hval

end SimValue

/-! ## Ring operations -/

section

variable {a b : SimValue} {w : ℕ}

theorem simValAdd_holds (ha : a.Known w) (hb : b.Known w) (hw : w ≤ 256) :
    (simValAdd a b).Holds w ((a.val.toNat + b.val.toNat) % 2 ^ w) := by
  have h := simValAdd_encodes ha.hasXz hb.hasXz (by rw [ha.width, hb.width]; simpa using hw)
  rw [ha.width, hb.width, max_self] at h
  refine h.holds ?_
  push_cast
  rfl

theorem simValSub_holds (ha : a.Known w) (hb : b.Known w) (hw : w ≤ 256) :
    (simValSub a b).Holds w ((a.val.toNat + (2 ^ w - b.val.toNat)) % 2 ^ w) := by
  have h := simValSub_encodes ha.hasXz hb.hasXz (by rw [ha.width, hb.width]; simpa using hw)
  rw [ha.width, hb.width, max_self] at h
  refine h.holds ?_
  push_cast [hb.lt.le]
  refine Int.modEq_iff_dvd.mpr ⟨1, ?_⟩
  ring

theorem simValMul_holds (ha : a.Known w) (hb : b.Known w) (hw : w ≤ 256) :
    (simValMul a b).Holds w ((a.val.toNat * b.val.toNat) % 2 ^ w) := by
  have h := simValMul_encodes ha.self hb.self (by rw [ha.width, hb.width]; simpa using hw)
  rw [ha.width, hb.width, max_self] at h
  refine h.holds ?_
  push_cast
  rfl

theorem simValNot_holds (ha : a.Known w) (hw : w ≤ 256) :
    (simValNot a).Holds w (2 ^ w - (a.val.toNat + 1)) := by
  have hx : (simValNot a).xmask = .zero := by
    rw [simValNot, ha.xmask, ha.zmask]
    exact Words.ext_bit fun k => by rw [Words.bit_ofFn]; split <;> simp
  have hval : (simValNot a).val.toNat = 2 ^ w - (a.val.toNat + 1) := by
    refine Nat.eq_of_testBit_eq fun k => ?_
    rw [Words.testBit_toNat, Nat.testBit_two_pow_sub_succ ha.lt, Words.testBit_toNat]
    by_cases hk : k < w
    · obtain ⟨hbit, -, -⟩ := simValNot_bit a (k := k) (by rw [ha.width]; exact hk) (by omega)
      rw [hbit, ha.xmask, ha.zmask]
      simp [hk]
    · have hout := (masked_simValNot a).bits (k := k)
        (by change a.width ≤ k; rw [ha.width]; omega)
      rw [hout.1]
      simp [hk]
  refine ⟨⟨ha.width, hx, rfl, ?_⟩, hval⟩
  have hpos := Nat.two_pow_pos w
  omega

theorem simValNeg_holds (ha : a.Known w) (hpos : 0 < w) (hw : w ≤ 256) :
    (simValNeg a).Holds w ((2 ^ w - a.val.toNat) % 2 ^ w) := by
  have hnum : (Words.set .zero 0 1 : SimWords).toNat = 1 := by decide
  have hone : (⟨Words.set .zero 0 1, .zero, .zero, a.width⟩ : SimValue).Holds w 1 :=
    ⟨⟨ha.width, rfl, rfl, by rw [hnum]; exact Nat.one_lt_two_pow (by omega)⟩, hnum⟩
  have hnot := simValNot_holds ha hw
  have hsum := simValAdd_holds hnot.1 hone.1 hw
  have hlt := ha.lt
  rw [hnot.2, hone.2, show 2 ^ w - (a.val.toNat + 1) + 1 = 2 ^ w - a.val.toNat by omega] at hsum
  rw [simValNeg, ha.hasXz, if_neg (by simp)]
  exact hsum

end

/-! ## The restoring division -/

section

variable {v a b : SimValue} {w : ℕ}

theorem simValShiftLeftBits_one {x : ℕ} (h : v.Holds w x) (hw : w ≤ 256) (hx : 2 * x < 2 ^ w) :
    (simValShiftLeftBits v 1 w).Holds w (2 * x) := by
  rcases Nat.lt_or_ge 1 w with h1 | h1
  · have hshift := simValShiftLeftBits_encodes (s := 1) h.1.xmask h.1.zmask hw h1
    have hnum : (simValShiftLeftBits v 1 w).Holds w (2 * x % 2 ^ w) := by
      refine hshift.holds ?_
      rw [h.2]
      push_cast
      rw [mul_comm]
    rwa [Nat.mod_eq_of_lt hx] at hnum
  · -- a shift by the whole width clears the value, which held no bit to lose
    have hzero : x = 0 := by
      have : 2 ^ w ≤ 2 ^ 1 := Nat.pow_le_pow_right (by decide) h1
      omega
    subst hzero
    obtain ⟨hxz, hsmall⟩ := simValFromUint_small (s := 1) (by decide)
    have hv : simValHasXz { v with width := w } = false := by
      rw [Bool.eq_false_iff, ne_eq, simValHasXz_iff]
      simp [h.1.xmask, h.1.zmask]
    rw [simValShiftLeftBits, simValShl]
    simp only [hv, hxz, hsmall, Bool.or_self, Bool.false_eq_true, if_false]
    rw [if_pos (by exact h1)]
    exact ⟨⟨rfl, rfl, rfl, by simp [simValZero]⟩, by simp [simValZero]⟩

theorem simValSetBit_holds {i x : ℕ} (h : v.Holds w (2 ^ (i + 1) * x)) (hi : i < w) (hw : w ≤ 256)
    {c : Bool} (hlt : 2 ^ (i + 1) * x + c.toNat * 2 ^ i < 2 ^ w) :
    (simValSetBit v i c).Holds w (2 ^ (i + 1) * x + c.toNat * 2 ^ i) := by
  have hval := Words.toNat_setBit h.2 (by omega : i < 64 * 4) c
  rw [simValSetBit, if_pos (by rw [h.1.width]; exact hi)]
  exact ⟨⟨h.1.width, h.1.xmask, h.1.zmask, by rw [hval]; exact hlt⟩, hval⟩

theorem simValGetBit_known (h : v.Known w) {i : ℕ} (hi : i < w) :
    simValGetBit v i = v.val.toNat.testBit i := by
  rw [simValGetBit, if_pos (by rw [h.width]; exact hi), Words.testBit_toNat]

/-- Quotient and remainder of the dividend's bits from position `i` upwards. -/
def DivmodAt (a b w i : ℕ) (acc : SimValue × SimValue) : Prop :=
  acc.1.Holds w (2 ^ i * (a / 2 ^ i / b)) ∧ acc.2.Holds w (a / 2 ^ i % b)

theorem div_two_pow_succ (a i : ℕ) : a / 2 ^ i = 2 * (a / 2 ^ (i + 1)) + (a.testBit i).toNat := by
  rw [Nat.toNat_testBit, Nat.pow_succ, ← Nat.div_div_eq_div_mul]
  omega

/-- The remainder of fewer bits than the width leaves its top bit clear. -/
theorem remainder_lt {x y i : ℕ} (hx : x < 2 ^ w) (hi : i < w) :
    2 * (x / 2 ^ (i + 1) % y) < 2 ^ w := by
  have hdiv : x / 2 ^ (i + 1) < 2 ^ (w - (i + 1)) := by
    rw [Nat.div_lt_iff_lt_mul (Nat.two_pow_pos _), ← Nat.pow_add]
    rwa [show w - (i + 1) + (i + 1) = w by omega]
  have hle : 2 * 2 ^ (w - (i + 1)) ≤ 2 ^ w := by
    rw [← Nat.pow_succ']
    exact Nat.pow_le_pow_right (by decide) (by omega)
  have := Nat.mod_le (x / 2 ^ (i + 1)) y
  omega

/-- One bit of the division; the remainder it shifts has room for the bit. -/
theorem divmodStep_at (ha : a.Known w) (hb : b.Known w) (hw : w ≤ 256) (hne : b.val.toNat ≠ 0)
    {i : ℕ} (hi : i < w) {acc : SimValue × SimValue}
    (h : DivmodAt a.val.toNat b.val.toNat w (i + 1) acc) :
    DivmodAt a.val.toNat b.val.toNat w i (divmodStep a b w acc i) := by
  obtain ⟨hq, hr⟩ := h
  have hroom := remainder_lt (y := b.val.toNat) ha.lt hi
  have hshift := simValShiftLeftBits_one hr hw hroom
  have hA := div_two_pow_succ a.val.toNat i
  have hpow := Nat.two_pow_pos i
  have hbit : (a.val.toNat.testBit i).toNat ≤ 1 := Bool.toNat_le _
  have hmod := Nat.mod_lt (a.val.toNat / 2 ^ (i + 1)) (Nat.pos_of_ne_zero hne)
  have hdm := Nat.div_add_mod (a.val.toNat / 2 ^ (i + 1)) b.val.toNat
  have heven : 2 ∣ 2 ^ w := dvd_pow_self 2 (by omega)
  rw [divmodStep]
  simp only [simValGetBit_known ha hi]
  generalize a.val.toNat.testBit i = c at hA hbit ⊢
  generalize hrem : a.val.toNat / 2 ^ (i + 1) % b.val.toNat = r at *
  have hset := simValSetBit_holds (i := 0) (x := r) (c := c) (by simpa using hshift) (by omega) hw
    (by simp only [Nat.zero_add, pow_one, pow_zero, Nat.mul_one]; omega)
  simp only [Nat.zero_add, pow_one, pow_zero, Nat.mul_one] at hset
  have hcmp : simValUcmp (simValSetBit (simValShiftLeftBits acc.2 1 w) 0 c) b w = .lt ↔
      2 * r + c.toNat < b.val.toNat := by
    rw [simValUcmp_eq, hset.2, Nat.mod_eq_of_lt hb.lt,
      Nat.mod_eq_of_lt (by rw [← hset.2]; exact hset.1.lt), Nat.compare_eq_lt]
  generalize hquo : a.val.toNat / 2 ^ (i + 1) / b.val.toNat = q at *
  by_cases hlt : 2 * r + c.toNat < b.val.toNat
  · have huniq : a.val.toNat / 2 ^ i / b.val.toNat = 2 * q ∧
        a.val.toNat / 2 ^ i % b.val.toNat = 2 * r + c.toNat := by
      rw [Nat.div_mod_unique (Nat.pos_of_ne_zero hne), hA, ← hdm]
      exact ⟨by ring, hlt⟩
    rw [if_pos (hcmp.mpr hlt), DivmodAt, huniq.1, huniq.2, show 2 ^ i * (2 * q) = 2 ^ (i + 1) * q by ring]
    exact ⟨hq, hset⟩
  · have huniq : a.val.toNat / 2 ^ i / b.val.toNat = 2 * q + 1 ∧
        a.val.toNat / 2 ^ i % b.val.toNat = 2 * r + c.toNat - b.val.toNat := by
      rw [Nat.div_mod_unique (Nat.pos_of_ne_zero hne), hA, ← hdm]
      refine ⟨?_, by omega⟩
      have : 2 * r + c.toNat - b.val.toNat + b.val.toNat = 2 * r + c.toNat := by omega
      linarith
    have hsub := simValSub_holds hset.1 hb hw
    rw [hset.2, show 2 * r + c.toNat + (2 ^ w - b.val.toNat) =
      2 ^ w + (2 * r + c.toNat - b.val.toNat) by have := hb.lt; omega, Nat.add_mod_left,
      Nat.mod_eq_of_lt (by have := hset.1.lt; rw [hset.2] at this; omega)] at hsub
    have hquot : 2 ^ (i + 1) * q + true.toNat * 2 ^ i = 2 ^ i * (2 * q + 1) := by
      rw [Bool.toNat_true]; ring
    have hqlt : 2 ^ i * (2 * q + 1) < 2 ^ w := by
      rw [← huniq.1]
      calc 2 ^ i * (a.val.toNat / 2 ^ i / b.val.toNat)
          ≤ 2 ^ i * (a.val.toNat / 2 ^ i) := Nat.mul_le_mul_left _ (Nat.div_le_self _ _)
        _ ≤ a.val.toNat := Nat.mul_div_le _ _
        _ < 2 ^ w := ha.lt
    have hone := simValSetBit_holds (c := true) hq hi hw (by rw [hquot]; exact hqlt)
    rw [hquot] at hone
    rw [if_neg (mt hcmp.mp hlt), DivmodAt, huniq.1, huniq.2, hsub.1.mask]
    exact ⟨hone, hsub⟩

/-- The loop after its first `j` bits. -/
theorem divmod_run (ha : a.Known w) (hb : b.Known w) (hw : w ≤ 256) (hne : b.val.toNat ≠ 0) :
    ∀ j ≤ w, DivmodAt a.val.toNat b.val.toNat w (w - j)
      (((List.range w).reverse.take j).foldl (divmodStep a b w) (simValZero w, simValZero w))
  | 0, _ => by
      have hzero : a.val.toNat / 2 ^ w = 0 := Nat.div_eq_of_lt ha.lt
      have hold : (simValZero w).Holds w 0 :=
        ⟨⟨rfl, rfl, rfl, by simp [simValZero]⟩, by simp [simValZero]⟩
      simp only [Nat.sub_zero, List.take_zero, List.foldl_nil, DivmodAt, hzero, Nat.zero_div,
        Nat.mul_zero, Nat.zero_mod]
      exact ⟨hold, hold⟩
  | j + 1, hj => by
      have ih := divmod_run ha hb hw hne j (by omega)
      have hget : (List.range w).reverse[j]? = some (w - (j + 1)) := by
        rw [List.getElem?_reverse (by rw [List.length_range]; omega), List.length_range,
          List.getElem?_range (by omega)]
        congr 1
        omega
      rw [List.take_add_one, hget, Option.toList_some, List.foldl_append, List.foldl_cons,
        List.foldl_nil]
      refine divmodStep_at ha hb hw hne (by omega) ?_
      rwa [show w - (j + 1) + 1 = w - j by omega]

theorem simValUnsignedDivmod_holds (ha : a.Known w) (hb : b.Known w) (hw : w ≤ 256)
    (hne : b.val.toNat ≠ 0) (wantRemainder : Bool) :
    (simValUnsignedDivmod a b w wantRemainder).Holds w
      (if wantRemainder then a.val.toNat % b.val.toNat else a.val.toNat / b.val.toNat) := by
  have hrun := divmod_run ha hb hw hne w le_rfl
  rw [List.take_of_length_le (by simp), Nat.sub_self] at hrun
  rw [simValUnsignedDivmod]
  generalize (List.range w).reverse.foldl _ _ = r at hrun ⊢
  obtain ⟨hq, hr⟩ := hrun
  rw [pow_zero, Nat.div_one] at hq hr
  cases wantRemainder with
  | false =>
    rw [Nat.one_mul] at hq
    simp only [Bool.false_eq_true, if_false]
    rwa [hq.1.mask]
  | true =>
    simp only [if_true]
    rwa [hr.1.mask]

theorem simValDivmod_holds (ha : a.Known w) (hb : b.Known w) (hw : w ≤ 256)
    (hne : b.val.toNat ≠ 0) (wantRemainder : Bool) :
    (simValDivmod wantRemainder a b).Holds w
      (if wantRemainder then a.val.toNat % b.val.toNat else a.val.toNat / b.val.toNat) := by
  rw [simValDivmod]
  simp only [ha.width, hb.width, max_self, ha.hasXz, hb.hasXz, Bool.or_self, Bool.false_eq_true,
    if_false, ha.mask, hb.mask]
  have hcmp : simValUcmp b (simValZero w) w ≠ .eq := by
    rw [simValUcmp_eq, ne_eq, Nat.compare_eq_eq, Nat.mod_eq_of_lt hb.lt]
    simpa [simValZero] using hne
  rw [if_neg hcmp]
  exact simValUnsignedDivmod_holds ha hb hw hne wantRemainder

end

/-- Arithmetic on canonical known operands of one width is exact modulo the width, and the
remainder register of the division has room for every bit that is shifted in. -/
theorem arithmetic_exact {a b : SimValue} {w : ℕ} (ha : a.Known w) (hb : b.Known w) (hpos : 0 < w)
    (hw : w ≤ 256) :
    (simValAdd a b).Holds w ((a.val.toNat + b.val.toNat) % 2 ^ w) ∧
      (simValSub a b).Holds w ((a.val.toNat + (2 ^ w - b.val.toNat)) % 2 ^ w) ∧
      (simValMul a b).Holds w ((a.val.toNat * b.val.toNat) % 2 ^ w) ∧
      (simValNeg a).Holds w ((2 ^ w - a.val.toNat) % 2 ^ w) ∧
      (b.val.toNat ≠ 0 → ∃ q r, (simValDiv a b).Holds w q ∧ (simValMod a b).Holds w r ∧
        a.val.toNat = q * b.val.toNat + r ∧ r < b.val.toNat ∧
        ∀ j < w, let rem := (((List.range w).reverse.take j).foldl (divmodStep a b w)
            (simValZero w, simValZero w)).2
          (simValShiftLeftBits rem 1 w).Holds w (2 * rem.val.toNat)) := by
  refine ⟨simValAdd_holds ha hb hw, simValSub_holds ha hb hw, simValMul_holds ha hb hw,
    simValNeg_holds ha hpos hw, fun hne => ⟨_, _, simValDivmod_holds ha hb hw hne false,
      simValDivmod_holds ha hb hw hne true, ?_, ?_, ?_⟩⟩
  · exact (Nat.div_add_mod' _ _).symm
  · exact Nat.mod_lt _ (Nat.pos_of_ne_zero hne)
  · intro j hj
    obtain ⟨-, hr⟩ := divmod_run ha hb hw hne j hj.le
    have hroom := remainder_lt (y := b.val.toNat) ha.lt (i := w - (j + 1)) (by omega)
    rw [show w - (j + 1) + 1 = w - j by omega, ← hr.2] at hroom
    exact simValShiftLeftBits_one ⟨hr.1, rfl⟩ hw hroom

/-- A divisor as wide as the register, whose top bit the remainder never reaches. -/
theorem arithmetic_exact_wide :
    (simValDiv (simValFromUint 200 8) (simValFromUint 150 8)).val.toNat = 1 := by
  have hknown : ∀ x : Word, x = 200 ∨ x = 150 → (simValFromUint x 8).Known 8 := by
    rintro x (rfl | rfl) <;> exact ⟨rfl, rfl, rfl, by decide +kernel⟩
  obtain ⟨-, -, -, -, hdiv⟩ := arithmetic_exact (hknown 200 (.inl rfl)) (hknown 150 (.inr rfl))
    (by decide) (by decide)
  obtain ⟨q, r, hq, -, hqr, hr, -⟩ := hdiv (by decide +kernel)
  rw [hq.2]
  have ha : (simValFromUint 200 8).val.toNat = 200 := by decide +kernel
  have hb : (simValFromUint 150 8).val.toNat = 150 := by decide +kernel
  rw [ha, hb] at hqr
  rw [hb] at hr
  omega

end JzHdl

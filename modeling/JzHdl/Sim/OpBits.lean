import JzHdl.Sim.Bits

/-! # Bits of the remaining operations

What the bitwise operations, the selection, the slice and the concatenation
leave at one position.
-/

namespace JzHdl

open BitWords

/-! ## Masked values -/

theorem SimValue.masked_of_bits {v : SimValue} (h : ∀ k, v.width ≤ k →
    v.val.bit k = false ∧ v.xmask.bit k = false ∧ v.zmask.bit k = false) : v.Masked := by
  have hws : ∀ ws : SimWords, (∀ k, v.width ≤ k → ws.bit k = false) → maskWords v.width ws = ws := by
    intro ws hz
    refine Words.ext_bit fun k => ?_
    rw [bit_maskWords]
    by_cases hk : k < v.width
    · simp [hk]
    · simp [hz k (by omega)]
  rw [Masked, simValMask, hws _ fun k hk => (h k hk).1, hws _ fun k hk => (h k hk).2.1,
    hws _ fun k hk => (h k hk).2.2]

theorem masked_simValMask (v : SimValue) : (simValMask v).Masked := by
  refine SimValue.masked_of_bits fun k hk => ?_
  have hk' : ¬ k < v.width := by
    rw [width_simValMask] at hk
    omega
  simp [simValMask, bit_maskWords, hk']

theorem masked_simValZero (width : ℕ) : (simValZero width).Masked :=
  SimValue.masked_of_bits fun _ _ => ⟨Words.bit_zero _, Words.bit_zero _, Words.bit_zero _⟩

theorem masked_bit (b : Bool) : (cmpResult b).Masked := by cases b <;> decide +kernel

/-- Masked values of one width with the same bits below it are equal. -/
theorem SimValue.Masked.ext {v w : SimValue} (hv : v.Masked) (hw : w.Masked)
    (hwd : v.width = w.width) (h : ∀ k < v.width, v.val.bit k = w.val.bit k ∧
      v.xmask.bit k = w.xmask.bit k ∧ v.zmask.bit k = w.zmask.bit k) : v = w := by
  have hall : ∀ k, v.val.bit k = w.val.bit k ∧ v.xmask.bit k = w.xmask.bit k ∧
      v.zmask.bit k = w.zmask.bit k := by
    intro k
    by_cases hk : k < v.width
    · exact h k hk
    · obtain ⟨h1, h2, h3⟩ := hv.bits (k := k) (by omega)
      obtain ⟨h4, h5, h6⟩ := hw.bits (k := k) (by omega)
      exact ⟨h1.trans h4.symm, h2.trans h5.symm, h3.trans h6.symm⟩
  obtain ⟨val, xmask, zmask, width⟩ := v
  obtain ⟨val', xmask', zmask', width'⟩ := w
  obtain rfl : val = val' := Words.ext_bit fun k => (hall k).1
  obtain rfl : xmask = xmask' := Words.ext_bit fun k => (hall k).2.1
  obtain rfl : zmask = zmask' := Words.ext_bit fun k => (hall k).2.2
  obtain rfl : width = width' := hwd
  rfl

/-! ## Word by word -/

/-- A word vector that is computed word by word below a width and is clear above it. -/
theorem bit_ofFn_numWords {w k : ℕ} (f : ℕ → Word) (hk : k < w) (h256 : k < 256) :
    (Words.ofFn fun i => if i < numWords w then f i else 0 : SimWords).bit k =
      (f (k / 64)).getLsbD (k % 64) := by
  have h4 : k / 64 < 4 := by omega
  rw [Words.bit_ofFn]
  simp only [h4, lt_numWords hk, if_true, decide_true, Bool.true_and]

/-- Words that are masked on the way are clear from the width on. -/
theorem bit_ofFn_of_le {w k : ℕ} (f : ℕ → Word) (hk : w ≤ k)
    (hf : (f (k / 64)).getLsbD (k % 64) = true → (wordMask w (k / 64)).getLsbD (k % 64) = true) :
    (Words.ofFn fun i => if i < numWords w then f i else 0 : SimWords).bit k = false := by
  have hmask := getLsbD_wordMask w k
  rw [decide_eq_false (by omega)] at hmask
  rw [hmask] at hf
  rw [Words.bit_ofFn]
  by_cases hn : k / 64 < numWords w
  · rw [if_pos hn]
    cases hbit : (f (k / 64)).getLsbD (k % 64) with
    | false => simp
    | true => exact absurd (hf hbit) (by simp)
  · rw [if_neg hn]
    simp

section

variable (a b : SimValue) {k : ℕ}

theorem simValOr_bit (hk : k < max a.width b.width) (h256 : k < 256) :
    let axz := a.xmask.bit k || a.zmask.bit k
    let bxz := b.xmask.bit k || b.zmask.bit k
    let force := (a.val.bit k && !axz) || (b.val.bit k && !bxz)
    let rx := (axz || bxz) && !force
    (simValOr a b).val.bit k = ((a.val.bit k || b.val.bit k || force) && !rx) ∧
      (simValOr a b).xmask.bit k = rx ∧ (simValOr a b).zmask.bit k = false := by
  have hj : k % 64 < 64 := Nat.mod_lt _ (by decide)
  have hm := getLsbD_wordMask (max a.width b.width) k
  simp only [hk, decide_true] at hm
  intro axz bxz force rx
  refine ⟨?_, ?_, Words.bit_zero k⟩
  · rw [simValOr, bit_ofFn_numWords _ hk h256]
    simp only [BitVec.getLsbD_and, BitVec.getLsbD_or, BitVec.getLsbD_not, hj, hm, decide_true,
      Bool.true_and, Bool.and_true, getLsbD_get_div]
    rfl
  · rw [simValOr, bit_ofFn_numWords _ hk h256]
    simp only [BitVec.getLsbD_and, BitVec.getLsbD_or, BitVec.getLsbD_not, hj, hm, decide_true,
      Bool.true_and, Bool.and_true, getLsbD_get_div]
    rfl

theorem simValXor_bit (hk : k < max a.width b.width) (h256 : k < 256) :
    let rx := a.xmask.bit k || a.zmask.bit k || b.xmask.bit k || b.zmask.bit k
    (simValXor a b).val.bit k = ((a.val.bit k ^^ b.val.bit k) && !rx) ∧
      (simValXor a b).xmask.bit k = rx ∧ (simValXor a b).zmask.bit k = false := by
  have hj : k % 64 < 64 := Nat.mod_lt _ (by decide)
  have hm := getLsbD_wordMask (max a.width b.width) k
  simp only [hk, decide_true] at hm
  intro rx
  refine ⟨?_, ?_, Words.bit_zero k⟩
  · rw [simValXor, bit_ofFn_numWords _ hk h256]
    simp only [BitVec.getLsbD_and, BitVec.getLsbD_or, BitVec.getLsbD_xor, BitVec.getLsbD_not, hj, hm,
      decide_true, Bool.true_and, Bool.and_true, getLsbD_get_div]
    rfl
  · rw [simValXor, bit_ofFn_numWords _ hk h256]
    simp only [BitVec.getLsbD_and, BitVec.getLsbD_or, hm, Bool.and_true, getLsbD_get_div]
    rfl

theorem simValNot_bit (hk : k < a.width) (h256 : k < 256) :
    let rx := a.xmask.bit k || a.zmask.bit k
    (simValNot a).val.bit k = (!a.val.bit k && !rx) ∧
      (simValNot a).xmask.bit k = rx ∧ (simValNot a).zmask.bit k = false := by
  have hj : k % 64 < 64 := Nat.mod_lt _ (by decide)
  have hm := getLsbD_wordMask a.width k
  simp only [hk, decide_true] at hm
  intro rx
  refine ⟨?_, ?_, Words.bit_zero k⟩
  · rw [simValNot, bit_ofFn_numWords _ hk h256]
    simp only [BitVec.getLsbD_and, BitVec.getLsbD_or, BitVec.getLsbD_not, hj, hm, decide_true,
      Bool.true_and, Bool.and_true, getLsbD_get_div]
    rfl
  · rw [simValNot, bit_ofFn_numWords _ hk h256]
    simp only [BitVec.getLsbD_and, BitVec.getLsbD_or, hm, Bool.and_true, getLsbD_get_div]
    rfl

theorem masked_simValAnd : (simValAnd a b).Masked := by
  refine SimValue.masked_of_bits fun k hk => ⟨?_, ?_, Words.bit_zero k⟩ <;>
    replace hk : max a.width b.width ≤ k := hk
  · rw [simValAnd, bit_ofFn_of_le _ hk]
    intro h
    simp only [BitVec.getLsbD_and, Bool.and_eq_true] at h
    exact h.1.2
  · rw [simValAnd, bit_ofFn_of_le _ hk]
    intro h
    simp only [BitVec.getLsbD_and, Bool.and_eq_true] at h
    exact h.2

theorem masked_simValOr : (simValOr a b).Masked := by
  refine SimValue.masked_of_bits fun k hk => ⟨?_, ?_, Words.bit_zero k⟩ <;>
    replace hk : max a.width b.width ≤ k := hk
  · rw [simValOr, bit_ofFn_of_le _ hk]
    intro h
    simp only [BitVec.getLsbD_and, BitVec.getLsbD_or, Bool.and_eq_true, Bool.or_eq_true] at h
    rcases h.1 with h' | h' | h'
    · exact h'.2
    · exact h'.2
    · exact h'.2
  · rw [simValOr, bit_ofFn_of_le _ hk]
    intro h
    simp only [BitVec.getLsbD_and, Bool.and_eq_true] at h
    exact h.2

theorem masked_simValXor : (simValXor a b).Masked := by
  refine SimValue.masked_of_bits fun k hk => ⟨?_, ?_, Words.bit_zero k⟩ <;>
    replace hk : max a.width b.width ≤ k := hk
  · rw [simValXor, bit_ofFn_of_le _ hk]
    intro h
    simp only [BitVec.getLsbD_and, Bool.and_eq_true] at h
    exact h.1.2
  · rw [simValXor, bit_ofFn_of_le _ hk]
    intro h
    simp only [BitVec.getLsbD_and, Bool.and_eq_true] at h
    exact h.2

theorem masked_simValNot : (simValNot a).Masked := by
  refine SimValue.masked_of_bits fun k hk => ⟨?_, ?_, Words.bit_zero k⟩ <;>
    replace hk : a.width ≤ k := hk
  · rw [simValNot, bit_ofFn_of_le _ hk]
    intro h
    simp only [BitVec.getLsbD_and, Bool.and_eq_true] at h
    exact h.1.2
  · rw [simValNot, bit_ofFn_of_le _ hk]
    intro h
    simp only [BitVec.getLsbD_and, Bool.and_eq_true] at h
    exact h.2

end

/-! ## Slices -/

theorem bit_sliceWords {rw lsb k : ℕ} (ws : SimWords) (hk : k < rw) :
    (sliceWords rw lsb ws).bit k = ws.bit (lsb + k) := by
  have hmod : k % 64 < 64 := Nat.mod_lt _ (by decide)
  have hri : k / 64 < numWords rw := by
    rw [numWords, if_neg (by omega)]
    omega
  rw [sliceWords, Words.bit_ofFn]
  by_cases hhigh : 4 ≤ k / 64
  · rw [decide_eq_false (by omega), Bool.false_and, Words.bit, Words.get, dif_neg (by omega)]
    simp
  rw [decide_eq_true (by omega : k / 64 < 4), Bool.true_and]
  dsimp only
  rw [if_pos hri]
  have hword : (lsb + k / 64 * 64) % 64 = lsb % 64 := by omega
  by_cases hshift : 0 < (lsb + k / 64 * 64) % 64
  · rw [if_pos hshift, BitVec.getLsbD_or, BitVec.getLsbD_ushiftRight, BitVec.getLsbD_shiftLeft]
    by_cases hfit : (lsb + k / 64 * 64) % 64 + k % 64 < 64
    · rw [decide_eq_true (by omega : k % 64 < 64 - (lsb + k / 64 * 64) % 64)]
      rw [Words.bit, show (lsb + k) / 64 = (lsb + k / 64 * 64) / 64 by omega,
        show (lsb + k) % 64 = (lsb + k / 64 * 64) % 64 + k % 64 by omega]
      simp
    · rw [BitVec.getLsbD_of_ge _ _ (by omega), decide_eq_true hmod,
        decide_eq_false (by omega : ¬ k % 64 < 64 - (lsb + k / 64 * 64) % 64)]
      rw [Words.bit, show (lsb + k) / 64 = (lsb + k / 64 * 64) / 64 + 1 by omega,
        show (lsb + k) % 64 = k % 64 - (64 - (lsb + k / 64 * 64) % 64) by omega]
      simp
  · rw [if_neg hshift, BitVec.getLsbD_ushiftRight, Words.bit,
      show (lsb + k) / 64 = (lsb + k / 64 * 64) / 64 by omega,
      show (lsb + k) % 64 = (lsb + k / 64 * 64) % 64 + k % 64 by omega]

theorem bit_sliceWords_part (v : SimValue) (msb lsb k : ℕ) (hk : lsb + k ≤ msb) :
    (simValSlice v msb lsb).val.bit k = v.val.bit (lsb + k) ∧
      (simValSlice v msb lsb).xmask.bit k = v.xmask.bit (lsb + k) ∧
      (simValSlice v msb lsb).zmask.bit k = v.zmask.bit (lsb + k) := by
  have hlt : k < msb + 1 - lsb := by omega
  rw [simValSlice, if_neg (by omega)]
  simp only [simValMask, bit_maskWords, decide_eq_true hlt, Bool.true_and, bit_sliceWords _ hlt,
    and_self]

theorem masked_simValSlice (v : SimValue) (msb lsb : ℕ) : (simValSlice v msb lsb).Masked := by
  rw [simValSlice]
  split
  · exact SimValue.masked_of_bits fun k _ => by simp [simValZero]
  · exact masked_simValMask _

/-! ## Concatenation -/

theorem bit_orWord (ws : SimWords) (i k : ℕ) (w : Word) : (orWord ws i w).bit k =
    (ws.bit k || (decide (k / 64 = i ∧ k / 64 < 4) && w.getLsbD (k % 64))) := by
  rw [orWord, Words.bit, Words.get_set]
  by_cases h : k / 64 = i ∧ k / 64 < 4
  · rw [if_pos h, BitVec.getLsbD_or, decide_eq_true h, Bool.true_and, ← h.1]
    rfl
  · rw [if_neg h, decide_eq_false h, Bool.false_and, Bool.or_false]
    rfl

/-- One word or-ed in at a bit position, split over two words where it straddles them. -/
theorem bit_spliceWord (ws : SimWords) (base k : ℕ) (b : Word) :
    (if 0 < base % 64 then orWord (orWord ws (base / 64) (b <<< (base % 64))) (base / 64 + 1)
        (b >>> (64 - base % 64)) else orWord ws (base / 64) (b <<< (base % 64))).bit k =
      (ws.bit k || (decide (base ≤ k ∧ k < 256) && b.getLsbD (k - base))) := by
  have hj : k % 64 < 64 := Nat.mod_lt _ (by decide)
  have hlow : (orWord ws (base / 64) (b <<< (base % 64))).bit k = (ws.bit k ||
      (decide (base ≤ k ∧ k < 256 ∧ k / 64 = base / 64) && b.getLsbD (k - base))) := by
    rw [bit_orWord, BitVec.getLsbD_shiftLeft]
    congr 1
    by_cases h : k / 64 = base / 64 ∧ k / 64 < 4
    · by_cases hle : base ≤ k
      · rw [decide_eq_true h, decide_eq_true hj, decide_eq_false (by omega),
          decide_eq_true (by omega), show k % 64 - base % 64 = k - base by omega]
        rfl
      · have hlt : k % 64 < base % 64 := by omega
        simp [hlt, hle]
    · have hout : ¬ (base ≤ k ∧ k < 256 ∧ k / 64 = base / 64) := by omega
      simp only [decide_eq_false h, decide_eq_false hout, Bool.false_and]
  by_cases hs : 0 < base % 64
  · rw [if_pos hs, bit_orWord, hlow, BitVec.getLsbD_ushiftRight, Bool.or_assoc]
    congr 1
    by_cases h : k / 64 = base / 64 + 1 ∧ k / 64 < 4
    · rw [decide_eq_true h, decide_eq_false (by omega), decide_eq_true (by omega),
        show 64 - base % 64 + k % 64 = k - base by omega]
      simp
    · rw [decide_eq_false h, Bool.false_and, Bool.or_false]
      by_cases hfar : base ≤ k ∧ k < 256 ∧ k / 64 ≠ base / 64
      · have hge : b.getLsbD (k - base) = false := BitVec.getLsbD_of_ge _ _ (by omega)
        rw [hge]
        simp
      · congr 2
        simp only [eq_iff_iff]
        omega
  · rw [if_neg hs, hlow]
    congr 1
    by_cases hfar : base ≤ k ∧ k < 256 ∧ k / 64 ≠ base / 64
    · have hge : b.getLsbD (k - base) = false := BitVec.getLsbD_of_ge _ _ (by omega)
      rw [hge]
      simp
    · congr 2
      simp only [eq_iff_iff]
      omega

theorem bit_concatWords (width shift : ℕ) (src dst : SimWords) (k : ℕ) :
    (concatWords width shift src dst).bit k = (dst.bit k ||
      (decide (shift ≤ k ∧ k < shift + width ∧ k < 256) && src.bit (k - shift))) := by
  have hrun : ∀ n, ((List.range n).foldl (fun acc si =>
      let b := src.get si &&& wordMask width si
      let bitBase := shift + si * 64
      let low := orWord acc (bitBase / 64) (b <<< (bitBase % 64))
      if 0 < bitBase % 64 then orWord low (bitBase / 64 + 1) (b >>> (64 - bitBase % 64)) else low)
      dst).bit k = (dst.bit k || (decide (shift ≤ k ∧ k < shift + width ∧ k < 256 ∧
        (k - shift) / 64 < n) && src.bit (k - shift))) := by
    intro n
    induction n with
    | zero => simp
    | succ n ih =>
      rw [List.range_succ, List.foldl_append, List.foldl_cons, List.foldl_nil]
      refine (bit_spliceWord _ (shift + n * 64) k _).trans ?_
      rw [ih, Bool.or_assoc]
      congr 1
      by_cases hn : (k - shift) / 64 = n ∧ shift ≤ k
      · have hword := getLsbD_wordMask width (k - shift)
        rw [hn.1, show (k - shift) % 64 = k - (shift + n * 64) by omega] at hword
        rw [BitVec.getLsbD_and, hword, decide_eq_false (by omega), Bool.false_and, Bool.false_or,
          Words.getLsbD_get _ _ (by omega), show 64 * n + (k - (shift + n * 64)) = k - shift by omega]
        by_cases hlt : k < 256 ∧ k - shift < width
        · rw [decide_eq_true (by omega), decide_eq_true (by omega), decide_eq_true (by omega)]
          simp
        · have hout : ¬ (shift ≤ k ∧ k < shift + width ∧ k < 256 ∧ (k - shift) / 64 < n + 1) := by
            omega
          have hclear : (decide (shift + n * 64 ≤ k ∧ k < 256) &&
              (src.bit (k - shift) && decide (k - shift < width))) = false := by
            by_cases h256 : k < 256
            · rw [decide_eq_false (show ¬ k - shift < width by omega), Bool.and_false,
                Bool.and_false]
            · rw [decide_eq_false (fun h => h256 h.2), Bool.false_and]
          rw [decide_eq_false hout, hclear]
          rfl
      · have hge : (decide (shift + n * 64 ≤ k ∧ k < 256) &&
            (src.get n &&& wordMask width n).getLsbD (k - (shift + n * 64))) = false := by
          by_cases hle : shift + n * 64 ≤ k
          · rw [BitVec.getLsbD_of_ge _ _ (by omega), Bool.and_false]
          · rw [decide_eq_false (by omega), Bool.false_and]
        rw [hge, Bool.or_false]
        congr 2
        simp only [eq_iff_iff]
        omega
  rw [concatWords, hrun]
  congr 2
  rw [decide_eq_decide]
  constructor
  · rintro ⟨h1, h2, h3, -⟩
    exact ⟨h1, h2, h3⟩
  · rintro ⟨h1, h2, h3⟩
    exact ⟨h1, h2, h3, lt_numWords (by omega)⟩

/-- The bit that a concatenation without a size limit has at a position of one plane. -/
def concatBit (plane : SimValue → SimWords) : List SimValue → ℕ → Bool
  | [], _ => false
  | v :: rest, k =>
      if k < (rest.map SimValue.width).sum then concatBit plane rest k
      else decide (k < (rest.map SimValue.width).sum + v.width) &&
        (plane v).bit (k - (rest.map SimValue.width).sum)

theorem concatBit_of_le (plane : SimValue → SimWords) : ∀ (vals : List SimValue) {k : ℕ},
    (vals.map SimValue.width).sum ≤ k → concatBit plane vals k = false
  | [], _, _ => rfl
  | v :: rest, k, h => by
      rw [List.map_cons, List.sum_cons] at h
      rw [concatBit, if_neg (by omega), decide_eq_false (by omega), Bool.false_and]

/-- What the concatenation loop leaves in the three planes, from the last operand upwards. -/
theorem concat_run (total : ℕ) : ∀ vals : List SimValue,
    let r := vals.foldr concatStep (simValZero total, 0)
    r.2 = (vals.map SimValue.width).sum ∧ r.1.width = total ∧ ∀ k,
      r.1.val.bit k = (decide (k < 256) && concatBit SimValue.val vals k) ∧
      r.1.xmask.bit k = (decide (k < 256) && concatBit SimValue.xmask vals k) ∧
      r.1.zmask.bit k = (decide (k < 256) && concatBit SimValue.zmask vals k)
  | [] => by simp [simValZero, concatBit]
  | v :: rest => by
      obtain ⟨hoff, hwidth, ih⟩ := concat_run total rest
      rw [List.foldr_cons]
      generalize rest.foldr concatStep (simValZero total, 0) = r at hoff hwidth ih ⊢
      refine ⟨by rw [concatStep, hoff, List.map_cons, List.sum_cons, Nat.add_comm], hwidth,
        fun k => ?_⟩
      -- the new operand starts where the earlier ones end
      have hplane : ∀ (plane : SimValue → SimWords),
          ((decide (k < 256) && concatBit plane rest k) ||
            (decide (r.2 ≤ k ∧ k < r.2 + v.width ∧ k < 256) && (plane v).bit (k - r.2))) =
          (decide (k < 256) && concatBit plane (v :: rest) k) := by
        intro plane
        rw [hoff, concatBit]
        by_cases hlt : k < (rest.map SimValue.width).sum
        · rw [if_pos hlt, decide_eq_false (p := _ ≤ k ∧ _) (by omega)]
          simp
        · rw [if_neg hlt, concatBit_of_le plane rest (by omega), Bool.and_false, Bool.false_or,
            ← Bool.and_assoc, ← Bool.decide_and]
          congr 2
          simp only [eq_iff_iff]
          omega
      simp only [concatStep, bit_concatWords]
      rw [(ih k).1, (ih k).2.1, (ih k).2.2]
      exact ⟨hplane _, hplane _, hplane _⟩

theorem simValConcat_bit (vals : List SimValue) {k : ℕ} (hk : k < 256) :
    (simValConcat vals).val.bit k = concatBit SimValue.val vals k ∧
      (simValConcat vals).xmask.bit k = concatBit SimValue.xmask vals k ∧
      (simValConcat vals).zmask.bit k = concatBit SimValue.zmask vals k := by
  obtain ⟨-, hwidth, hbits⟩ := concat_run (min (vals.map SimValue.width).sum (simValWords * 64)) vals
  rw [simValConcat]
  simp only [simValMask, bit_maskWords, hwidth, (hbits k).1, (hbits k).2.1, (hbits k).2.2]
  have hcap : simValWords * 64 = 256 := rfl
  by_cases hlt : k < (vals.map SimValue.width).sum
  · simp [hk, hlt, hcap]
  · rw [concatBit_of_le _ vals (by omega), concatBit_of_le _ vals (by omega),
      concatBit_of_le _ vals (by omega)]
    simp

theorem masked_simValConcat (vals : List SimValue) : (simValConcat vals).Masked :=
  masked_simValMask _

end JzHdl

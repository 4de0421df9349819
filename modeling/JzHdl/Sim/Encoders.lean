import JzHdl.Ir.ExprWidths
import JzHdl.Sim.MaskedEval
import JzHdl.Sim.PrintedValue
import JzHdl.Sim.Unknowns

/-! # Encoders, counts and selections

The single-operand intrinsics, the binary decoder and the minimum and maximum,
evaluated on known operands and compared with the numbers of the reference.
-/

namespace JzHdl

open BitWords

/-! ## The reference -/

/-- The indices of the set bits of a number below a width, in ascending order. -/
def setIndices (w x : ℕ) : List ℕ := (List.range w).filter x.testBit

def orIndices (w x : ℕ) : ℕ := (setIndices w x).foldr (· ||| ·) 0

/-- The index of the highest set bit, 0 for the number 0. -/
def highestIndex (x : ℕ) : ℕ := x.size - 1

/-- Bit `i` of the result comes from bit `byteSwapped w i` of the operand. -/
def byteSwapped (w i : ℕ) : ℕ := (w / 8 - 1 - i / 8) * 8 + i % 8

/-- The number a single-operand intrinsic denotes on the number of its operand. -/
def singleReference (op : SingleBuiltin) (w x : ℕ) : ℕ :=
  match op with
  | .oh2b => orIndices w x
  | .prienc => highestIndex x
  | .lzc => w - x.size
  | .popcount => (setIndices w x).length
  | .abs =>
    if x.testBit (w - 1) then (if x = 2 ^ (w - 1) then 2 ^ w else 0) + (2 ^ w - x) else x
  | .reverse => Nat.ofBits fun i : Fin w => x.testBit (w - 1 - i)
  | .bswap => Nat.ofBits fun i : Fin w => x.testBit (byteSwapped w i)
  | .reduceAnd => if x = 2 ^ w - 1 then 1 else 0
  | .reduceOr => if x = 0 then 0 else 1
  | .reduceXor => (setIndices w x).length % 2

/-- The operand widths an intrinsic is documented for. -/
def SingleBuiltin.Accepts (op : SingleBuiltin) (w : ℕ) : Prop :=
  match op with
  | .oh2b | .prienc => 2 ≤ w
  | .bswap => 0 < w ∧ 8 ∣ w
  | _ => 0 < w

def b2ohReference (n x : ℕ) : ℕ := if x < n then 2 ^ x else 0

inductive MinMax | umin | umax | smin | smax
  deriving DecidableEq

namespace MinMax

def binaryOp : MinMax → IRBinaryOp
  | umin => .umin
  | umax => .umax
  | smin => .smin
  | smax => .smax

end MinMax

/-- The integer a pattern of a width denotes in two's complement. -/
def signedNumber (w x : ℕ) : ℤ := if x.testBit (w - 1) then x - 2 ^ w else x

/-- The pattern of an integer in a width. -/
def pattern (w : ℕ) (z : ℤ) : ℕ := (z % 2 ^ w).toNat

def minMaxReference (op : MinMax) (wa wb a b : ℕ) : ℕ :=
  match op with
  | .umin => min a b
  | .umax => max a b
  | .smin => pattern (max wa wb) (min (signedNumber wa a) (signedNumber wb b))
  | .smax => pattern (max wa wb) (max (signedNumber wa a) (signedNumber wb b))

/-- A value that fits the four words and holds a number. The operations of the source index past
their arrays at any wider width. -/
def SimValue.Represents (v : SimValue) (w x : ℕ) : Prop := w ≤ 256 ∧ v.Holds w x

/-- Every set bit's index has only binary digits that the highest one has. -/
def TopCovers (w x : ℕ) : Prop := ∀ i ∈ setIndices w x, i ||| highestIndex x = highestIndex x

instance (w x : ℕ) : Decidable (TopCovers w x) :=
  inferInstanceAs (Decidable (∀ i ∈ setIndices w x, i ||| highestIndex x = highestIndex x))

/-- When an intrinsic gives the number of the reference. -/
def SingleBuiltin.Agrees (op : SingleBuiltin) (w x : ℕ) : Prop :=
  match op with
  | .oh2b => TopCovers w x
  | .abs => w < 256
  | _ => True

/-! ## Numbers -/

section

variable {w x : ℕ}

theorem mem_setIndices {i : ℕ} : i ∈ setIndices w x ↔ i < w ∧ x.testBit i = true := by
  rw [setIndices, List.mem_filter, List.mem_range]

theorem setIndices_succ : setIndices (w + 1) x =
    setIndices w x ++ if x.testBit w then [w] else [] := by
  rw [setIndices, List.range_succ, List.filter_append, setIndices]
  cases h : x.testBit w <;> simp [h]

theorem lt_two_pow_of_testBit (hx : x < 2 ^ (w + 1)) (h : x.testBit w = false) : x < 2 ^ w := by
  refine Nat.lt_pow_two_of_testBit x fun i hi => ?_
  rcases Nat.eq_or_lt_of_le hi with rfl | hlt
  · exact h
  · exact Nat.testBit_lt_two_pow (lt_of_lt_of_le hx (Nat.pow_le_pow_right (by decide) hlt))

/-- The last set index is the highest one. -/
theorem getLast?_setIndices : ∀ {w : ℕ}, x < 2 ^ w →
    (setIndices w x).getLast? = if x = 0 then none else some (highestIndex x)
  | 0, hx => by
      have h0 : x = 0 := by simpa using hx
      rw [if_pos h0]
      rfl
  | w + 1, hx => by
      rw [setIndices_succ]
      by_cases hbit : x.testBit w = true
      · have hge := Nat.ge_two_pow_of_testBit hbit
        have hsize : x.size = w + 1 :=
          le_antisymm (Nat.size_le.mpr hx) (Nat.lt_size.mpr hge)
        have hpos := Nat.two_pow_pos w
        rw [if_pos hbit, List.getLast?_append, if_neg (by omega), highestIndex, hsize]
        rfl
      · rw [if_neg hbit, List.append_nil]
        exact getLast?_setIndices (lt_two_pow_of_testBit hx (by simpa using hbit))

theorem getLastD_setIndices (hx : x < 2 ^ w) : (setIndices w x).getLastD 0 = highestIndex x := by
  rw [List.getLastD_eq_getLast?, getLast?_setIndices hx]
  split
  · rename_i h0
    rw [h0]
    rfl
  · rfl

theorem foldl_last (d : ℕ) : ∀ l : List ℕ, l.foldl (fun _ i => i) d = l.getLastD d
  | [] => rfl
  | i :: rest => by
      rw [List.foldl_cons, foldl_last i rest]
      cases rest <;> rfl

theorem length_setIndices_le : (setIndices w x).length ≤ w := by
  refine le_trans (List.length_filter_le _ _) ?_
  rw [List.length_range]

theorem highestIndex_lt (hw : 0 < w) (hx : x < 2 ^ w) : highestIndex x < w := by
  have hsize := Nat.size_le.mpr hx
  rw [highestIndex]
  omega

theorem highestIndex_mem (hx : x < 2 ^ w) (h0 : x ≠ 0) : highestIndex x ∈ setIndices w x := by
  have hlast := getLast?_setIndices hx
  rw [if_neg h0] at hlast
  exact List.mem_of_getLast? hlast

/-! ## The bitwise or of indices -/

theorem foldr_or_eq {t : ℕ} : ∀ {l : List ℕ}, t ∈ l →
    (l.foldr (· ||| ·) 0 = t ↔ ∀ i ∈ l, i ||| t = t) := by
  have hcover : ∀ l : List ℕ, ∀ i ∈ l, i ||| l.foldr (· ||| ·) 0 = l.foldr (· ||| ·) 0 := by
    intro l
    induction l with
    | nil => intro i hi; cases hi
    | cons j rest ih =>
      intro i hi
      rw [List.foldr_cons]
      rcases List.mem_cons.mp hi with rfl | hrest
      · rw [← Nat.or_assoc, Nat.or_self]
      · rw [← Nat.or_assoc, Nat.or_comm i j, Nat.or_assoc, ih i hrest]
  have hbelow : ∀ l : List ℕ, (∀ i ∈ l, i ||| t = t) → l.foldr (· ||| ·) 0 ||| t = t := by
    intro l
    induction l with
    | nil => intro _; simp
    | cons j rest ih =>
      intro h
      have hrest := ih fun i hi => h i (List.mem_cons_of_mem _ hi)
      rw [List.foldr_cons, Nat.or_assoc, hrest, h j (List.mem_cons_self ..)]
  intro l ht
  constructor
  · rintro rfl i hi
    exact hcover l i hi
  · intro h
    have h1 := hcover l t ht
    have h2 := hbelow l h
    rw [Nat.or_comm] at h1
    rw [← h1, h2]

theorem orIndices_eq_iff (hx : x < 2 ^ w) : orIndices w x = highestIndex x ↔ TopCovers w x := by
  by_cases h0 : x = 0
  · subst h0
    have hnil : setIndices w 0 = [] := by simp [setIndices]
    rw [orIndices, TopCovers, hnil]
    simp [highestIndex]
  · exact foldr_or_eq (highestIndex_mem hx h0)

end

/-! ## Values from their bits -/

section

variable {v : SimValue} {w x : ℕ}

theorem SimValue.holds_of_bits (hwidth : v.width = w) (hxm : v.xmask = .zero)
    (hzm : v.zmask = .zero) (hx : x < 2 ^ w) (h : ∀ k, v.val.bit k = x.testBit k) :
    v.Holds w x := by
  have hval : v.val.toNat = x := Nat.eq_of_testBit_eq fun k => by rw [Words.testBit_toNat, h]
  exact ⟨⟨hwidth, hxm, hzm, by rwa [hval]⟩, hval⟩

theorem SimValue.Holds.bit (h : v.Holds w x) (k : ℕ) : v.val.bit k = x.testBit k := by
  rw [← h.2, Words.testBit_toNat]

theorem SimValue.Holds.lt (h : v.Holds w x) : x < 2 ^ w := by
  rw [← h.2]
  exact h.1.lt

theorem simValGetBit_holds (h : v.Holds w x) {i : ℕ} (hi : i < w) :
    simValGetBit v i = x.testBit i := by
  rw [simValGetBit_known h.1 hi, h.2]

theorem bitIndices_holds (h : v.Holds w x) : bitIndices v = setIndices w x := by
  rw [bitIndices, h.1.width]
  refine List.filter_congr fun i hi => ?_
  exact simValGetBit_holds h (List.mem_range.mp hi)

theorem simValZero_holds (w : ℕ) : (simValZero w).Holds w 0 :=
  SimValue.holds_of_bits rfl rfl rfl (Nat.two_pow_pos w) fun k => by
    rw [simValZero, Words.bit_zero, Nat.zero_testBit]

/-- A wider width keeps the number. -/
theorem SimValue.Holds.widen (h : v.Holds w x) {w' : ℕ} (hw : w ≤ w') :
    (simValMask { v with width := w' }).Holds w' x := by
  have hlt := lt_of_lt_of_le h.lt (Nat.pow_le_pow_right (by decide : 0 < 2) hw)
  have hwide : ({ v with width := w' } : SimValue).Known w' :=
    ⟨rfl, h.1.xmask, h.1.zmask, by change v.val.toNat < _; rwa [h.2]⟩
  rw [hwide.mask]
  exact ⟨hwide, h.2⟩

theorem SimValue.Holds.masked (h : v.Holds w x) : (simValMask v).Holds w x := by
  obtain ⟨val, xmask, zmask, width⟩ := v
  obtain rfl : width = w := h.1.width
  exact h.widen le_rfl

/-! ## Setting bits one by one -/

theorem planes_setBits (f : ℕ → ℕ) : ∀ (l : List ℕ) (v : SimValue),
    let r := l.foldl (fun r i => simValSetBit r (f i) true) v
    r.width = v.width ∧ r.xmask = v.xmask ∧ r.zmask = v.zmask
  | [], _ => ⟨rfl, rfl, rfl⟩
  | i :: rest, v => by
      have ih := planes_setBits f rest (simValSetBit v (f i) true)
      have hstep : (simValSetBit v (f i) true).width = v.width ∧
          (simValSetBit v (f i) true).xmask = v.xmask ∧
          (simValSetBit v (f i) true).zmask = v.zmask := by
        rw [simValSetBit]
        split <;> exact ⟨rfl, rfl, rfl⟩
      rw [hstep.1, hstep.2.1, hstep.2.2] at ih
      exact ih

theorem bit_setBits (f : ℕ → ℕ) (k : ℕ) : ∀ (l : List ℕ) (v : SimValue), v.width ≤ 256 →
    (l.foldl (fun r i => simValSetBit r (f i) true) v).val.bit k =
      (v.val.bit k || l.any fun i => f i == k && decide (k < v.width))
  | [], v, _ => by rw [List.foldl_nil, List.any_nil, Bool.or_false]
  | i :: rest, v, hw => by
      have hwidth := width_simValSetBit v (f i) true
      rw [List.foldl_cons, bit_setBits f k rest _ (by rw [hwidth]; exact hw), hwidth,
        List.any_cons, ← Bool.or_assoc]
      congr 1
      rw [simValSetBit]
      by_cases hi : f i < v.width
      · rw [if_pos hi]
        dsimp only
        rw [Words.bit_setBit]
        by_cases hk : k = f i
        · have hlt : k < v.width := by omega
          rw [if_pos ⟨hk, by omega⟩, hk.symm, decide_eq_true hlt]
          simp
        · rw [if_neg (by omega), beq_false_of_ne (Ne.symm hk), Bool.false_and, Bool.or_false]
      · rw [if_neg hi]
        by_cases hk : f i = k
        · have hge : ¬ k < v.width := by omega
          rw [decide_eq_false hge, Bool.and_false, Bool.or_false]
        · rw [beq_false_of_ne hk, Bool.false_and, Bool.or_false]

/-- Setting the images of some indices in an all-zero value. -/
theorem setBits_holds (f : ℕ → ℕ) (l : List ℕ) (hw : w ≤ 256) (hx : x < 2 ^ w)
    (h : ∀ k < w, x.testBit k = true ↔ ∃ i ∈ l, f i = k) :
    (l.foldl (fun r i => simValSetBit r (f i) true) (simValZero w)).Holds w x := by
  obtain ⟨hwidth, hxm, hzm⟩ := planes_setBits f l (simValZero w)
  refine SimValue.holds_of_bits hwidth hxm hzm hx fun k => ?_
  rw [bit_setBits f k l _ hw, simValZero, Words.bit_zero, Bool.false_or]
  by_cases hk : k < w
  · rw [Bool.eq_iff_iff, h k hk, List.any_eq_true]
    simp only [Bool.and_eq_true, beq_iff_eq, decide_eq_true_eq, hk, and_true]
  · rw [Nat.testBit_lt_two_pow (lt_of_lt_of_le hx (Nat.pow_le_pow_right (by decide) (by omega))),
      List.any_eq_false]
    intro i _
    rw [decide_eq_false hk, Bool.and_false]
    exact Bool.false_ne_true

/-- An index or a count that fits its width and a machine integer. -/
theorem simValueFromIndex_holds (hw : w ≤ 256) (hx : x < 2 ^ w) (hint : x < 2 ^ 32) :
    (simValueFromIndex x w).Holds w x := by
  have hfold : ∀ (l : List ℕ) (v : SimValue),
      l.foldl (fun r bit => if (BitVec.ofNat 32 x).getLsbD bit then simValSetBit r bit true else r)
        v = (l.filter (BitVec.ofNat 32 x).getLsbD).foldl
          (fun r i => simValSetBit r (id i) true) v := by
    intro l
    induction l with
    | nil => intro v; rfl
    | cons i rest ih =>
      intro v
      rw [List.foldl_cons, ih]
      by_cases hbit : (BitVec.ofNat 32 x).getLsbD i = true
      · rw [if_pos hbit, List.filter_cons_of_pos hbit, List.foldl_cons]
        rfl
      · rw [if_neg hbit, List.filter_cons_of_neg hbit]
  have hbits : ∀ k, k < w → (x.testBit k = true ↔
      ∃ i ∈ (List.range 32).filter (BitVec.ofNat 32 x).getLsbD, id i = k) := by
    intro k _
    simp only [List.mem_filter, List.mem_range, id, exists_eq_right, BitVec.getLsbD_ofNat,
      Bool.and_eq_true, decide_eq_true_eq]
    constructor
    · intro hk
      have hlt : k < 32 := by
        by_contra hge
        rw [Nat.testBit_lt_two_pow (lt_of_lt_of_le hint
          (Nat.pow_le_pow_right (by decide) (by omega)))] at hk
        cases hk
      exact ⟨hlt, hlt, hk⟩
    · exact fun h => h.2.2
  have hset := setBits_holds id _ hw hx hbits
  rw [simValueFromIndex, hfold]
  exact hset.masked

/-- The index a known value is taken for: a number of at most 31 bits. -/
theorem simValueToIndex_holds (h : v.Holds w x) (hw : w ≤ 256) :
    simValueToIndex v = if x < 2 ^ 31 then some x else none := by
  have hlow : v.val.toNat % 2 ^ 64 = (v.val.get 0).toNat := by
    have hone := Words.lowNat_eq_mod v.val 1
    rw [Nat.mul_one] at hone
    rw [← hone, Words.lowNat, Words.lowNat]
    simp
  by_cases hbig : x < 2 ^ 64
  · have hhigh : (List.range' 1 (numWords v.width - 1)).any (fun i => v.val.get i != 0) = false := by
      rw [List.any_eq_false]
      intro i hi
      obtain ⟨h1, -⟩ := List.mem_range'_1.mp hi
      have hzero : v.val.get i = 0 := BitVec.eq_of_getLsbD_eq fun j hj => by
        rw [Words.getLsbD_get _ _ hj, h.bit, Nat.testBit_lt_two_pow (lt_of_lt_of_le hbig
          (Nat.pow_le_pow_right (by decide) (by omega)))]
        simp
      rw [hzero]
      decide
    rw [h.2, Nat.mod_eq_of_lt hbig] at hlow
    rw [simValueToIndex, simValToSmallUint, h.1.hasXz, if_neg (by decide), hhigh,
      if_neg (by decide)]
    dsimp only
    rw [← hlow, intMax]
    by_cases hs : x < 2 ^ 31
    · rw [if_pos hs, if_neg (by omega)]
    · rw [if_neg hs, if_pos (by omega)]
  · have hhigh : (List.range' 1 (numWords v.width - 1)).any (fun i => v.val.get i != 0) = true := by
      obtain ⟨k, hk, hbit⟩ := Nat.exists_ge_and_testBit_of_ge_two_pow (Nat.not_lt.mp hbig)
      have hkw : k < w := by
        by_contra hge
        rw [Nat.testBit_lt_two_pow (lt_of_lt_of_le h.lt
          (Nat.pow_le_pow_right (by decide) (by omega)))] at hbit
        cases hbit
      rw [List.any_eq_true]
      refine ⟨k / 64, List.mem_range'_1.mpr ⟨by omega, ?_⟩, ?_⟩
      · have := lt_numWords (by rw [h.1.width]; exact hkw : k < v.width)
        omega
      · rw [bne_iff_ne]
        intro hzero
        have hget := h.bit k
        rw [Words.bit, hzero, hbit] at hget
        simp at hget
    rw [simValueToIndex, simValToSmallUint, h.1.hasXz, if_neg (by decide), hhigh, if_pos rfl,
      if_neg (by omega)]

end

/-! ## The single-operand intrinsics -/

section

variable {src : SimValue} {w x : ℕ}

theorem evalKnown_holds (h : src.Holds w x) {width : ℕ} (hpos : 0 < width) (f : ℕ → SimValue) :
    evalKnown src width f = f width := by
  rw [evalKnown, h.1.hasXz, if_neg (by decide), widthOr_of_pos hpos]

theorem clog_pos {n : ℕ} (hn : 2 ≤ n) : 0 < Nat.clog 2 n := Nat.clog_pos (by decide) hn

theorem clog_le (n : ℕ) (hn : n ≤ 257) : Nat.clog 2 n ≤ 256 :=
  Nat.clog_le_of_le_pow (le_trans hn (by norm_num))

theorem lt_two_pow_clog {n i : ℕ} (hi : i < n) : i < 2 ^ Nat.clog 2 n :=
  lt_of_lt_of_le hi (Nat.le_pow_clog (by decide) n)

theorem oh2b_holds (h : src.Holds w x) (hw : 2 ≤ w) (hle : w ≤ 256) (ew : ℕ)
    (idx val : SimValue) :
    (evalIntrinsic .oh2b ew (Nat.clog 2 w) src idx val).Holds (Nat.clog 2 w) (highestIndex x) := by
  have hlt := highestIndex_lt (by omega) h.lt
  rw [evalIntrinsic, evalKnown_holds h (clog_pos hw), bitIndices_holds h, foldl_last,
    getLastD_setIndices h.lt]
  exact simValueFromIndex_holds (clog_le _ (by omega)) (lt_two_pow_clog hlt) (by omega)

theorem prienc_holds (h : src.Holds w x) (hw : 2 ≤ w) (hle : w ≤ 256) (ew : ℕ)
    (idx val : SimValue) :
    (evalIntrinsic .prienc ew (Nat.clog 2 w) src idx val).Holds (Nat.clog 2 w)
      (highestIndex x) := by
  have hlt := highestIndex_lt (by omega) h.lt
  rw [evalIntrinsic, evalKnown_holds h (clog_pos hw), bitIndices_holds h,
    getLastD_setIndices h.lt]
  exact simValueFromIndex_holds (clog_le _ (by omega)) (lt_two_pow_clog hlt) (by omega)

/-- A number below the operand's width, counted over that width and one more. -/
theorem count_holds (h : src.Holds w x) (hw : 0 < w) (hle : w ≤ 256) {count : ℕ}
    (hcount : count ≤ w) :
    (evalKnown src (Nat.clog 2 (w + 1)) (simValueFromIndex count)).Holds (Nat.clog 2 (w + 1))
      count := by
  rw [evalKnown_holds h (clog_pos (by omega))]
  exact simValueFromIndex_holds (clog_le _ (by omega)) (lt_two_pow_clog (by omega)) (by omega)

theorem lzc_holds (h : src.Holds w x) (hw : 0 < w) (hle : w ≤ 256) (ew : ℕ)
    (idx val : SimValue) :
    (evalIntrinsic .lzc ew (Nat.clog 2 (w + 1)) src idx val).Holds (Nat.clog 2 (w + 1))
      (w - x.size) := by
  have hsize := Nat.size_le.mpr h.lt
  rw [evalIntrinsic, bitIndices_holds h, getLast?_setIndices h.lt, h.1.width]
  by_cases h0 : x = 0
  · rw [if_pos h0, h0, Nat.size_zero, Nat.sub_zero]
    exact count_holds h hw hle le_rfl
  · have hpos := Nat.size_pos.mpr (Nat.pos_of_ne_zero h0)
    have hcount : w - 1 - highestIndex x = w - x.size := by
      rw [highestIndex]
      omega
    rw [if_neg h0]
    dsimp only
    rw [hcount]
    exact count_holds h hw hle (Nat.sub_le _ _)

theorem popcount_holds (h : src.Holds w x) (hw : 0 < w) (hle : w ≤ 256) (ew : ℕ)
    (idx val : SimValue) :
    (evalIntrinsic .popcount ew (Nat.clog 2 (w + 1)) src idx val).Holds (Nat.clog 2 (w + 1))
      (setIndices w x).length := by
  rw [evalIntrinsic, bitIndices_holds h]
  exact count_holds h hw hle length_setIndices_le

/-- An involution of the positions below the width moves every bit. -/
theorem permuted_holds (hle : w ≤ 256) {f : ℕ → ℕ} (hf : ∀ i < w, f i < w)
    (hinv : ∀ i < w, f (f i) = i) :
    ((setIndices w x).foldl (fun r i => simValSetBit r (f i) true) (simValZero w)).Holds w
      (Nat.ofBits fun i : Fin w => x.testBit (f i)) := by
  refine setBits_holds f _ hle (Nat.ofBits_lt_two_pow _) fun k hk => ?_
  rw [Nat.testBit_ofBits_lt _ _ hk]
  constructor
  · intro hbit
    exact ⟨f k, mem_setIndices.mpr ⟨hf k hk, hbit⟩, hinv k hk⟩
  · rintro ⟨i, hi, rfl⟩
    obtain ⟨hlt, hbit⟩ := mem_setIndices.mp hi
    change x.testBit (f (f i)) = true
    rw [hinv i hlt]
    exact hbit

theorem reverse_holds (h : src.Holds w x) (hw : 0 < w) (hle : w ≤ 256) (ew : ℕ)
    (idx val : SimValue) : (evalIntrinsic .reverse ew w src idx val).Holds w
      (Nat.ofBits fun i : Fin w => x.testBit (w - 1 - i)) := by
  have hperm := permuted_holds (x := x) (f := fun i => w - 1 - i) hle
    (fun i hi => by omega) (fun i hi => by omega)
  rw [evalIntrinsic, evalKnown_holds h hw]
  dsimp only
  rw [h.1.width, widthOr_of_pos hw, bitIndices_holds h]
  exact hperm

theorem byteSwapped_lt (hdvd : 8 ∣ w) {i : ℕ} (hi : i < w) : byteSwapped w i < w := by
  obtain ⟨n, rfl⟩ := hdvd
  rw [byteSwapped]
  omega

theorem byteSwapped_twice (hdvd : 8 ∣ w) {i : ℕ} (hi : i < w) :
    byteSwapped w (byteSwapped w i) = i := by
  obtain ⟨n, rfl⟩ := hdvd
  rw [byteSwapped, byteSwapped]
  omega

theorem bswap_holds (h : src.Holds w x) (hw : 0 < w) (hdvd : 8 ∣ w) (hle : w ≤ 256) (ew : ℕ)
    (idx val : SimValue) : (evalIntrinsic .bswap ew w src idx val).Holds w
      (Nat.ofBits fun i : Fin w => x.testBit (byteSwapped w i)) := by
  have hguard : ∀ (l : List ℕ) (v : SimValue), (∀ i ∈ l, i < w) →
      l.foldl (fun r i => if i / 8 < w / 8 then
        simValSetBit r ((w / 8 - 1 - i / 8) * 8 + i % 8) true else r) v =
      l.foldl (fun r i => simValSetBit r (byteSwapped w i) true) v := by
    intro l
    induction l with
    | nil => intro v _; rfl
    | cons i rest ih =>
      intro v hl
      have hi := hl i (List.mem_cons_self ..)
      rw [List.foldl_cons, if_pos (by omega), ih _ fun j hj => hl j (List.mem_cons_of_mem _ hj)]
      rfl
  rw [evalIntrinsic, evalKnown_holds h hw]
  dsimp only
  rw [h.1.width, widthOr_of_pos hw, bitIndices_holds h,
    hguard _ _ fun i hi => (mem_setIndices.mp hi).1]
  exact permuted_holds hle (fun i hi => byteSwapped_lt hdvd hi)
    (fun i hi => byteSwapped_twice hdvd hi)

/-! ## Reductions -/

theorem cmpResult_holds (b : Bool) : (cmpResult b).Holds 1 b.toNat := by
  cases b <;> exact ⟨⟨rfl, rfl, rfl, by decide +kernel⟩, by decide +kernel⟩

theorem simValOnes_holds (hle : w ≤ 256) : (simValOnes w).Holds w (2 ^ w - 1) := by
  refine SimValue.holds_of_bits rfl rfl rfl (by have := Nat.two_pow_pos w; omega) fun k => ?_
  rw [Nat.testBit_two_pow_sub_one]
  by_cases hk : k < 256
  · exact bit_widthOnes hk
  · rw [Words.bit_of_le _ (by omega), decide_eq_false (by omega)]

theorem wordsAgree_holds {a b : SimValue} {y : ℕ} (ha : a.Holds w x) (hb : b.Holds w y) :
    wordsAgree a b (max a.width b.width) = decide (x = y) := by
  rw [Bool.eq_iff_iff, wordsAgree_iff_mod, ha.1.width, hb.1.width, max_self, ha.2, hb.2,
    Nat.mod_eq_of_lt ha.lt, Nat.mod_eq_of_lt hb.lt, decide_eq_true_eq]

theorem reduceAnd_holds (h : src.Holds w x) (hle : w ≤ 256) (ew width : ℕ)
    (idx val : SimValue) : (evalIntrinsic .reduceAnd ew width src idx val).Holds 1
      (if x = 2 ^ w - 1 then 1 else 0) := by
  have hones := simValOnes_holds hle
  rw [evalIntrinsic, h.1.hasXz, if_neg (by decide), h.1.width, simValEq, h.1.hasXz,
    hones.1.hasXz, if_neg (by decide), wordsAgree_holds h hones]
  have hcmp := cmpResult_holds (decide (x = 2 ^ w - 1))
  by_cases heq : x = 2 ^ w - 1
  · rw [if_pos heq]
    rwa [decide_eq_true heq] at hcmp ⊢
  · rw [if_neg heq]
    rwa [decide_eq_false heq] at hcmp ⊢

theorem reduceOr_holds (h : src.Holds w x) (ew width : ℕ) (idx val : SimValue) :
    (evalIntrinsic .reduceOr ew width src idx val).Holds 1 (if x = 0 then 0 else 1) := by
  have hzero := simValZero_holds w
  rw [evalIntrinsic, h.1.hasXz, if_neg (by decide), h.1.width, simValNeq, h.1.hasXz,
    hzero.1.hasXz, if_neg (by decide), wordsAgree_holds h hzero]
  have hcmp := cmpResult_holds (!decide (x = 0))
  by_cases heq : x = 0
  · rw [if_pos heq]
    rwa [decide_eq_true heq] at hcmp ⊢
  · rw [if_neg heq]
    rwa [decide_eq_false heq] at hcmp ⊢

theorem reduceXor_holds (h : src.Holds w x) (ew width : ℕ) (idx val : SimValue) :
    (evalIntrinsic .reduceXor ew width src idx val).Holds 1 ((setIndices w x).length % 2) := by
  have hcmp := cmpResult_holds ((setIndices w x).length % 2 == 1)
  rw [evalIntrinsic, h.1.hasXz, if_neg (by decide), bitIndices_holds h]
  rcases Nat.mod_two_eq_zero_or_one (setIndices w x).length with h2 | h2
  · rw [h2] at hcmp ⊢
    exact hcmp
  · rw [h2] at hcmp ⊢
    exact hcmp

/-! ## The binary decoder and the absolute value -/

/-- Setting a bit above all the others. -/
theorem setBit_holds {i : ℕ} (h : src.Holds w x) (hi : i < w) (hle : w ≤ 256) (hx : x < 2 ^ i) :
    (simValSetBit src i true).Holds w (2 ^ i + x) := by
  have hlt : 2 ^ i + x < 2 ^ w := by
    have hpow : 2 ^ (i + 1) ≤ 2 ^ w := Nat.pow_le_pow_right (by decide) hi
    rw [Nat.pow_succ] at hpow
    omega
  rw [simValSetBit, if_pos (by rw [h.1.width]; exact hi)]
  refine SimValue.holds_of_bits h.1.width h.1.xmask h.1.zmask hlt fun k => ?_
  have hbits := Nat.testBit_two_pow_mul_add 1 hx k
  rw [Nat.mul_one] at hbits
  dsimp only
  rw [Words.bit_setBit, hbits, h.bit]
  by_cases hk : k = i
  · subst hk
    rw [if_pos ⟨rfl, by omega⟩, if_neg (by omega), Nat.sub_self]
    rfl
  · rw [if_neg (by omega)]
    by_cases hlow : k < i
    · rw [if_pos hlow]
    · rw [if_neg hlow, Nat.testBit_lt_two_pow (lt_of_lt_of_le hx
        (Nat.pow_le_pow_right (by decide) (by omega))), Nat.testBit_lt_two_pow
        (Nat.one_lt_two_pow (by omega))]

theorem b2oh_holds (h : src.Holds w x) (hw : w ≤ 256) {n : ℕ} (hn : 0 < n) (hle : n ≤ 256)
    (ew : ℕ) (idx val : SimValue) :
    (evalIntrinsic .b2oh ew n src idx val).Holds n (b2ohReference n x) := by
  rw [evalIntrinsic, evalKnown_holds h hn, simValueToIndex_holds h hw, b2ohReference]
  by_cases hx : x < n
  · have hset := setBit_holds (simValZero_holds n) hx hle (Nat.two_pow_pos x)
    rw [if_pos (by omega : x < 2 ^ 31), if_pos hx]
    dsimp only
    rw [if_pos hx]
    exact hset
  · rw [if_neg hx]
    by_cases hint : x < 2 ^ 31
    · rw [if_pos hint]
      dsimp only
      rw [if_neg hx]
      exact simValZero_holds n
    · rw [if_neg hint]
      exact simValZero_holds n

theorem zext_rewidth (v : SimValue) (n k : ℕ) :
    { simValZext v n with width := k } = { v with width := k } := by
  rw [simValZext]
  split <;> rfl

theorem abs_holds (h : src.Holds w x) (hw : 0 < w) (hle : w < 256) (ew : ℕ)
    (idx val : SimValue) : (evalIntrinsic .abs ew (w + 1) src idx val).Holds (w + 1)
      (singleReference .abs w x) := by
  rw [evalIntrinsic, evalKnown_holds h (by omega), simValueAbs, singleReference]
  simp only [h.1.width, if_pos hw, zext_rewidth, simValGetBit_holds h (by omega : w - 1 < w)]
  by_cases hneg : x.testBit (w - 1) = true
  · have hge := Nat.ge_two_pow_of_testBit hneg
    have hlt := h.lt
    have hpos := Nat.two_pow_pos (w - 1)
    have htwo : 2 ^ w = 2 * 2 ^ (w - 1) := by
      rw [← Nat.pow_succ']
      congr 1
      omega
    have hmost := setBit_holds (simValZero_holds w) (by omega : w - 1 < w) (by omega) hpos
    have hflip := simValNeg_holds h.1 hw (by omega)
    rw [h.2, Nat.mod_eq_of_lt (by omega)] at hflip
    have htrim := hflip.widen (Nat.le_succ w)
    have hequal := simValEqual_known h.masked.1 hmost.1
    rw [h.masked.2, hmost.2, Nat.add_zero] at hequal
    simp only [hneg, if_true, Bool.true_and, Nat.zero_lt_succ, decide_true, Bool.and_true]
    by_cases hx : x = 2 ^ (w - 1)
    · rw [if_pos (hequal.mpr ⟨rfl, hx⟩), if_pos hx, Nat.add_sub_cancel]
      exact (setBit_holds htrim (Nat.lt_succ_self w) (by omega) (by omega)).masked
    · rw [if_neg (mt hequal.mp fun hc => hx hc.2), if_neg hx, Nat.zero_add]
      exact htrim.masked
  · simp only [if_neg hneg, Bool.not_eq_true] at hneg ⊢
    simp only [hneg, Bool.false_and, Bool.false_eq_true, if_false]
    exact (h.widen (Nat.le_succ w)).masked

end

/-! ## Minimum and maximum -/

section

variable {a b : SimValue} {wa wb x y : ℕ}

theorem pattern_signedNumber {W : ℕ} (hx : x < 2 ^ wa) (hW : wa ≤ W) :
    pattern W (signedNumber wa x) =
      if x.testBit (wa - 1) then 2 ^ wa * (2 ^ (W - wa) - 1) + x else x := by
  have hpow : 2 ^ wa * 2 ^ (W - wa) = 2 ^ W := by
    rw [← Nat.pow_add]
    congr 1
    omega
  have hle : 2 ^ wa ≤ 2 ^ W := Nat.pow_le_pow_right (by decide) hW
  have hcast : ((2 ^ W : ℕ) : ℤ) = 2 ^ W := by push_cast; rfl
  have hcasta : ((2 ^ wa : ℕ) : ℤ) = 2 ^ wa := by push_cast; rfl
  rw [pattern, signedNumber, Nat.mul_sub, Nat.mul_one, hpow]
  split
  · rw [← hcast, ← hcasta, ← Int.add_emod_right, Int.emod_eq_of_lt (by omega) (by omega)]
    omega
  · rw [← hcast, Int.emod_eq_of_lt (by omega) (by omega)]
    omega

/-- Sign extension keeps the integer. -/
theorem simValSext_holds {W : ℕ} (h : a.Holds wa x) (hpos : 0 < wa) (hW : wa ≤ W)
    (hle : W ≤ 256) : (simValSext a W).Holds W (pattern W (signedNumber wa x)) := by
  rw [pattern_signedNumber h.lt hW]
  rcases Nat.eq_or_lt_of_le hW with rfl | hlt
  · rw [simValSext, if_pos (by rw [h.1.width]), Nat.sub_self, pow_zero, Nat.sub_self,
      Nat.mul_zero, Nat.zero_add, ite_self]
    exact h
  · have hsign := simValGetBit_holds h (by omega : wa - 1 < wa)
    rw [simValSext, if_neg (by rw [h.1.width]; omega)]
    simp only [h.1.width, hsign, h.1.xmask, h.1.zmask, Words.bit_zero, Bool.and_false,
      Bool.false_eq_true, if_false]
    by_cases hneg : x.testBit (wa - 1) = true
    · have hbound : 2 ^ wa * (2 ^ (W - wa) - 1) + x < 2 ^ W := by
        have hpow : 2 ^ wa * 2 ^ (W - wa) = 2 ^ W := by
          rw [← Nat.pow_add]
          congr 1
          omega
        have hx := h.lt
        have hle' : 2 ^ wa ≤ 2 ^ W := Nat.pow_le_pow_right (by decide) hW
        rw [Nat.mul_sub, Nat.mul_one, hpow]
        omega
      rw [if_pos hneg, if_pos hneg]
      refine SimValue.holds_of_bits rfl rfl rfl hbound fun k => ?_
      rw [bit_fillBits, Nat.testBit_two_pow_mul_add _ h.lt, h.bit]
      by_cases hk : k < wa
      · rw [if_pos hk, decide_eq_false (by omega), Bool.or_false]
      · rw [if_neg hk, Nat.testBit_two_pow_sub_one, Nat.testBit_lt_two_pow (lt_of_lt_of_le h.lt
          (Nat.pow_le_pow_right (by decide) (by omega))), Bool.false_or]
        congr 1
        rw [eq_iff_iff]
        omega
    · rw [if_neg hneg, if_neg hneg]
      have hwide := lt_of_lt_of_le h.lt (Nat.pow_le_pow_right (by decide : 0 < 2) hW)
      exact SimValue.holds_of_bits rfl rfl rfl hwide h.bit

/-- Patterns of one width compare as their integers do when the signs agree. -/
theorem pattern_lt_iff {W : ℕ} (hx : x < 2 ^ wa) (hy : y < 2 ^ wb) (ha : wa ≤ W) (hb : wb ≤ W)
    (hsign : x.testBit (wa - 1) = y.testBit (wb - 1)) :
    pattern W (signedNumber wa x) < pattern W (signedNumber wb y) ↔
      signedNumber wa x < signedNumber wb y := by
  have hpow : ∀ {n}, n ≤ W → 2 ^ n * (2 ^ (W - n) - 1) = 2 ^ W - 2 ^ n := fun {n} hn => by
    rw [Nat.mul_sub, Nat.mul_one, ← Nat.pow_add]
    congr 2
    omega
  have hlea : 2 ^ wa ≤ 2 ^ W := Nat.pow_le_pow_right (by decide) ha
  have hleb : 2 ^ wb ≤ 2 ^ W := Nat.pow_le_pow_right (by decide) hb
  have hcasta : ((2 ^ wa : ℕ) : ℤ) = 2 ^ wa := by push_cast; rfl
  have hcastb : ((2 ^ wb : ℕ) : ℤ) = 2 ^ wb := by push_cast; rfl
  rw [pattern_signedNumber hx ha, pattern_signedNumber hy hb, hpow ha, hpow hb, signedNumber,
    signedNumber, ← hsign, ← hcasta, ← hcastb]
  split <;> omega

theorem signedNumber_neg_iff (hx : x < 2 ^ wa) :
    signedNumber wa x < 0 ↔ x.testBit (wa - 1) = true := by
  have hcast : ((2 ^ wa : ℕ) : ℤ) = 2 ^ wa := by push_cast; rfl
  rw [signedNumber, ← hcast]
  split
  · rename_i h
    simp only [h, iff_true]
    omega
  · rename_i h
    simp only [h, Bool.false_eq_true, iff_false]
    omega

/-- Which operand the signed selection takes. -/
theorem simValueSignedChoice_holds (ha : a.Holds wa x) (hb : b.Holds wb y) (hposa : 0 < wa)
    (hposb : 0 < wb) (hlea : wa ≤ 256) (hleb : wb ≤ 256) (pickMin : Bool) :
    (simValueSignedChoice a b pickMin (max wa wb)).Holds (max wa wb)
      (pattern (max wa wb) (if pickMin then min (signedNumber wa x) (signedNumber wb y)
        else max (signedNumber wa x) (signedNumber wb y))) := by
  have hle : max wa wb ≤ 256 := max_le hlea hleb
  have ha' := simValSext_holds ha hposa (le_max_left wa wb) hle
  have hb' := simValSext_holds hb hposb (le_max_right wa wb) hle
  have hlt : (simValIsTrue (simValLt (simValSext a (max wa wb)) (simValSext b (max wa wb))) ==
      some true) = decide (pattern (max wa wb) (signedNumber wa x) <
        pattern (max wa wb) (signedNumber wb y)) := by
    rw [simValIsTrue_simValLt ha'.1.self hb'.1.self, ha'.2, hb'.2]
    rw [beq_eq_decide]
    simp only [Option.some.injEq, Bool.decide_eq_true]
  have hsa := signedNumber_neg_iff ha.lt
  have hsb := signedNumber_neg_iff hb.lt
  rw [simValueSignedChoice]
  simp only [ha.1.width, hb.1.width, hlt, simValGetBit_holds ha (by omega : wa - 1 < wa),
    simValGetBit_holds hb (by omega : wb - 1 < wb)]
  -- one operand's integer is the one asked for; the extended operand is its pattern
  have hpick : ∀ c : Bool, (c = true → (if pickMin then min (signedNumber wa x) (signedNumber wb y)
        else max (signedNumber wa x) (signedNumber wb y)) = signedNumber wa x) →
      (c = false → (if pickMin then min (signedNumber wa x) (signedNumber wb y)
        else max (signedNumber wa x) (signedNumber wb y)) = signedNumber wb y) →
      (simValMask { (if c = true then simValSext a (max wa wb) else simValSext b (max wa wb)) with
        width := max wa wb }).Holds (max wa wb) (pattern (max wa wb)
          (if pickMin then min (signedNumber wa x) (signedNumber wb y)
            else max (signedNumber wa x) (signedNumber wb y))) := by
    intro c htrue hfalse
    cases c with
    | true =>
      rw [htrue rfl]
      exact ha'.widen le_rfl
    | false =>
      rw [hfalse rfl]
      exact hb'.widen le_rfl
  apply hpick
  · by_cases hsign : x.testBit (wa - 1) = y.testBit (wb - 1)
    · have hcmp := pattern_lt_iff ha.lt hb.lt (le_max_left wa wb) (le_max_right wa wb) hsign
      simp only [hsign, bne_self_eq_false, Bool.false_eq_true, if_false]
      cases pickMin with
      | true =>
        intro h
        exact min_eq_left (hcmp.mp (of_decide_eq_true h)).le
      | false =>
        intro h
        rw [if_neg Bool.false_ne_true, Bool.not_eq_true', decide_eq_false_iff_not, hcmp,
          not_lt] at h
        exact max_eq_left h
    · simp only [bne_iff_ne.mpr hsign, if_true]
      cases hx : x.testBit (wa - 1) <;> cases hy : y.testBit (wb - 1) <;>
        simp only [hx, hy] at hsa hsb hsign <;> cases pickMin <;> simp at * <;> omega
  · by_cases hsign : x.testBit (wa - 1) = y.testBit (wb - 1)
    · have hcmp := pattern_lt_iff ha.lt hb.lt (le_max_left wa wb) (le_max_right wa wb) hsign
      simp only [hsign, bne_self_eq_false, Bool.false_eq_true, if_false]
      cases pickMin with
      | true =>
        intro h
        rw [if_pos rfl, decide_eq_false_iff_not, hcmp, not_lt] at h
        exact min_eq_right h
      | false =>
        intro h
        rw [if_neg Bool.false_ne_true, Bool.not_eq_false', decide_eq_true_eq, hcmp] at h
        exact max_eq_right h.le
    · simp only [bne_iff_ne.mpr hsign, if_true]
      cases hx : x.testBit (wa - 1) <;> cases hy : y.testBit (wb - 1) <;>
        simp only [hx, hy] at hsa hsb hsign <;> cases pickMin <;> simp at * <;> omega

theorem evalMinMax_holds (ha : a.Holds wa x) (hb : b.Holds wb y) {w : ℕ} (hw : 0 < w)
    (choose : ℕ → SimValue) : evalMinMax a b w choose = choose w := by
  rw [evalMinMax, ha.1.hasXz, hb.1.hasXz, Bool.or_self, if_neg (by decide), widthOr_of_pos hw]

/-- The unsigned selections widen the operand they take with zeros. -/
theorem evalMinMax_ult_holds (ha : a.Holds wa x) (hb : b.Holds wb y) {z : ℕ}
    (c d : SimValue) (hlt : x < y → (simValMask { c with width := max wa wb }).Holds
      (max wa wb) z) (hge : y ≤ x → (simValMask { d with width := max wa wb }).Holds
      (max wa wb) z) :
    (simValMask { (if simValIsTrue (simValLt a b) == some true then c else d) with
      width := max wa wb }).Holds (max wa wb) z := by
  rw [simValIsTrue_simValLt ha.1.self hb.1.self, ha.2, hb.2]
  by_cases h : x < y
  · rw [decide_eq_true h]
    exact hlt h
  · rw [decide_eq_false h]
    exact hge (Nat.not_lt.mp h)

theorem minMax_holds (op : MinMax) (ha : a.Holds wa x) (hb : b.Holds wb y) (hposa : 0 < wa)
    (hposb : 0 < wb) (hlea : wa ≤ 256) (hleb : wb ≤ 256) :
    (evalBinary op.binaryOp (max wa wb) a b).Holds (max wa wb)
      (minMaxReference op wa wb x y) := by
  have hpos : 0 < max wa wb := lt_of_lt_of_le hposa (le_max_left ..)
  have hwa := ha.widen (le_max_left wa wb)
  have hwb := hb.widen (le_max_right wa wb)
  cases op with
  | umin =>
    rw [MinMax.binaryOp, evalBinary, evalMinMax_holds ha hb hpos]
    apply evalMinMax_ult_holds ha hb
    · intro h
      rwa [minMaxReference, min_eq_left h.le]
    · intro h
      rwa [minMaxReference, min_eq_right h]
  | umax =>
    rw [MinMax.binaryOp, evalBinary, evalMinMax_holds ha hb hpos]
    apply evalMinMax_ult_holds ha hb
    · intro h
      rwa [minMaxReference, max_eq_right h.le]
    · intro h
      rwa [minMaxReference, max_eq_left h]
  | smin =>
    rw [MinMax.binaryOp, evalBinary, evalMinMax_holds ha hb hpos]
    exact simValueSignedChoice_holds ha hb hposa hposb hlea hleb true
  | smax =>
    rw [MinMax.binaryOp, evalBinary, evalMinMax_holds ha hb hpos]
    exact simValueSignedChoice_holds ha hb hposa hposb hlea hleb false

end

/-! ## Evaluating the intrinsics -/

section

variable {m : IRModule} {s : CtxState} {source : IRExpr} {w x : ℕ}

/-- An intrinsic call of the documented result width. -/
def singleCall (op : SingleBuiltin) (source : IRExpr) (ew w : ℕ) : IRExpr :=
  .intrinsic op.intrinsicOp source .null .null ew (singlePrescribed op w)

def b2ohCall (index : IRExpr) (ew n : ℕ) : IRExpr := .intrinsic .b2oh index .null .null ew n

/-- Only the or of several indices differs from the reference, when the result fits. -/
theorem singleCall_holds (op : SingleBuiltin) (ew : ℕ) (hop : op.Accepts w) (hw : w ≤ 256)
    (h : (simEvalExpr m s source).Holds w x) (hfit : op = .abs → w < 256) :
    (simEvalExpr m s (singleCall op source ew w)).Holds (singlePrescribed op w)
      (if op = .oh2b then highestIndex x else singleReference op w x) := by
  rw [singleCall, simEvalExpr]
  cases op with
  | oh2b => exact oh2b_holds h hop hw ew _ _
  | prienc => exact prienc_holds h hop hw ew _ _
  | lzc => exact lzc_holds h hop hw ew _ _
  | popcount => exact popcount_holds h hop hw ew _ _
  | abs => exact abs_holds h hop (hfit rfl) ew _ _
  | reverse => exact reverse_holds h hop hw ew _ _
  | bswap => exact bswap_holds h hop.1 hop.2 hw ew _ _
  | reduceAnd => exact reduceAnd_holds h hw ew _ _ _
  | reduceOr => exact reduceOr_holds h ew _ _ _
  | reduceXor => exact reduceXor_holds h ew _ _ _

theorem singlePrescribed_le {op : SingleBuiltin} (hw : w ≤ 256) (hop : op ≠ .abs) :
    singlePrescribed op w ≤ 256 := by
  cases op with
  | oh2b | prienc => exact clog_le _ (by omega)
  | lzc | popcount => exact clog_le _ (by omega)
  | abs => exact absurd rfl hop
  | reverse | bswap => exact hw
  | reduceAnd | reduceOr | reduceXor => exact (by decide : 1 ≤ 256)

theorem singleCall_represents_iff (op : SingleBuiltin) (ew : ℕ) (hop : op.Accepts w)
    (hw : w ≤ 256) (h : (simEvalExpr m s source).Holds w x) :
    (simEvalExpr m s (singleCall op source ew w)).Represents (singlePrescribed op w)
      (singleReference op w x) ↔ op.Agrees w x := by
  by_cases habs : op = .abs
  · subst habs
    constructor
    · exact fun hrep => Nat.lt_of_succ_le hrep.1
    · intro hlt
      exact ⟨hlt, singleCall_holds .abs ew hop hw h fun _ => hlt⟩
  · have hval := singleCall_holds op ew hop hw h fun hc => absurd hc habs
    have hle := singlePrescribed_le hw habs
    by_cases hoh : op = .oh2b
    · subst hoh
      rw [if_pos rfl] at hval
      refine Iff.trans ?_ (orIndices_eq_iff h.lt)
      constructor
      · intro hrep
        exact hrep.2.2.symm.trans hval.2
      · intro heq
        refine ⟨hle, ?_⟩
        rw [singleReference, heq]
        exact hval
    · rw [if_neg hoh] at hval
      have hagree : op.Agrees w x := by
        cases op with
        | oh2b => exact absurd rfl hoh
        | abs => exact absurd rfl habs
        | _ => trivial
      exact iff_of_true ⟨hle, hval⟩ hagree

end

/-- On known operands of at most 256 bits every encoder, count, permutation and selection gives
the number of the reference, except that `oh2b` gives the highest set index, which is the or of
the indices exactly when it covers the others, and that `abs` of 256 bits and `b2oh` beyond them
do not fit the representation. The encoder inverts the decoder. -/
theorem intrinsics_follow_iff (m : IRModule) (s : CtxState) :
    (∀ (op : SingleBuiltin) (source : IRExpr) (ew w x : ℕ), op.Accepts w → w ≤ 256 →
      (simEvalExpr m s source).Holds w x →
        ((simEvalExpr m s (singleCall op source ew w)).Represents (singlePrescribed op w)
          (singleReference op w x) ↔ op.Agrees w x)) ∧
    (∀ (index : IRExpr) (ew n w x : ℕ), 2 ≤ n → w ≤ 256 → (simEvalExpr m s index).Holds w x →
      ((simEvalExpr m s (b2ohCall index ew n)).Represents n (b2ohReference n x) ↔ n ≤ 256)) ∧
    (∀ (op : MinMax) (left right : IRExpr) (wa wb x y : ℕ), 0 < wa → 0 < wb → wa ≤ 256 →
      wb ≤ 256 → (simEvalExpr m s left).Holds wa x → (simEvalExpr m s right).Holds wb y →
        (simEvalExpr m s (.binary op.binaryOp left right (max wa wb))).Represents (max wa wb)
          (minMaxReference op wa wb x y)) ∧
    (∀ (index : IRExpr) (ew ew' n w i : ℕ), 2 ≤ n → n ≤ 256 → w ≤ 256 → i < n →
      (simEvalExpr m s index).Holds w i →
        (simEvalExpr m s (singleCall .oh2b (b2ohCall index ew n) ew' n)).Represents
          (Nat.clog 2 n) i) := by
  have hdecode : ∀ {index : IRExpr} {n w x : ℕ} (ew : ℕ), 2 ≤ n → n ≤ 256 → w ≤ 256 →
      (simEvalExpr m s index).Holds w x →
      (simEvalExpr m s (b2ohCall index ew n)).Holds n (b2ohReference n x) := by
    intro index n w x ew hn hle hw h
    rw [b2ohCall, simEvalExpr]
    exact b2oh_holds h hw (by omega) hle ew _ _
  refine ⟨fun op source ew w x hop hw h => singleCall_represents_iff op ew hop hw h, ?_, ?_, ?_⟩
  · intro index ew n w x hn hw h
    constructor
    · exact fun hrep => hrep.1
    · exact fun hle => ⟨hle, hdecode ew hn hle hw h⟩
  · intro op left right wa wb x y hposa hposb hlea hleb ha hb
    refine ⟨max_le hlea hleb, ?_⟩
    rw [simEvalExpr]
    exact minMax_holds op ha hb hposa hposb hlea hleb
  · intro index ew ew' n w i hn hle hw hi h
    have hone := hdecode ew hn hle hw h
    rw [b2ohReference, if_pos hi] at hone
    have hval := singleCall_holds .oh2b ew' hn hle hone nofun
    rw [if_pos rfl, highestIndex, Nat.size_pow, Nat.add_sub_cancel] at hval
    exact ⟨clog_le _ (by omega), hval⟩

namespace EncoderExample

def module : IRModule :=
  { signals := [], memories := [], clockDomains := [], asyncBlock := .null }

def state : CtxState :=
  { signals := fun _ => ⟨simValZero 1, simValZero 1, false⟩
    cells := fun _ _ => simValZero 1
    runtimeError := false
    settleDirty := false
    sigDirty := fun _ => false }

def byte (x : Word) : IRExpr := .literal ⟨Words.set .zero 0 x, 8, false⟩ 8

theorem byte_six : (simEvalExpr module state (byte 6)).Holds 8 6 :=
  ⟨⟨by decide +kernel, by decide +kernel, by decide +kernel, by decide +kernel⟩,
    by decide +kernel⟩

theorem byte_mostNegative : (simEvalExpr module state (byte 128)).Holds 8 128 :=
  ⟨⟨by decide +kernel, by decide +kernel, by decide +kernel, by decide +kernel⟩,
    by decide +kernel⟩

end EncoderExample

open EncoderExample in
/-- The most negative byte has the magnitude 128 under the overflow bit, and bit 6 of 8 is decoded
and encoded again. -/
theorem intrinsics_follow_bytes :
    (simEvalExpr module state (singleCall .abs (byte 128) 0 8)).Represents 9 384 ∧
      (simEvalExpr module state (singleCall .oh2b (b2ohCall (byte 6) 8 8) 0 8)).Represents
        (Nat.clog 2 8) 6 := by
  obtain ⟨hsingle, -, -, hinverse⟩ := intrinsics_follow_iff module state
  constructor
  · exact (hsingle .abs (byte 128) 0 8 128 (by decide : 0 < 8) (by decide)
      byte_mostNegative).mpr (by decide : 8 < 256)
  · exact hinverse (byte 6) 8 0 8 8 6 (by decide) (by decide) (by decide) (by decide) byte_six

open EncoderExample in
/-- Of the set bits 1 and 2 the encoder gives the index 2, and the or of the indices is 3. -/
theorem singleIntrinsics_not_reference :
    ¬∀ (m : IRModule) (s : CtxState) (op : SingleBuiltin) (source : IRExpr) (ew w x : ℕ),
      op.Accepts w → w ≤ 256 → (simEvalExpr m s source).Holds w x →
        (simEvalExpr m s (singleCall op source ew w)).Represents (singlePrescribed op w)
          (singleReference op w x) := by
  intro h
  obtain ⟨-, -, hval⟩ := h module state .oh2b (byte 6) 0 8 6 (by decide : 2 ≤ 8) (by decide)
    byte_six
  have hclog : Nat.clog 2 8 = 3 := by decide +kernel
  rw [singleCall, singlePrescribed, hclog] at hval
  revert hval
  decide +kernel

end JzHdl

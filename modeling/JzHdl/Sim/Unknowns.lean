import JzHdl.Sim.EvalWidth
import JzHdl.Sim.OpBits

/-! # Unknown bits

Filling in unknown bits of the operands of a value operation. A result bit that
was known keeps its value, except where a sign extension reads a `z` sign bit.
-/

namespace JzHdl

open BitWords

namespace SimValue

/-- One value is another with some of its unknown bits replaced by known ones. -/
structure Filled (v v' : SimValue) : Prop where

  width : v'.width = v.width

  bits : ∀ k, (v'.val.bit k = v.val.bit k ∧ v'.xmask.bit k = v.xmask.bit k ∧
      v'.zmask.bit k = v.zmask.bit k) ∨
    ((v.xmask.bit k = true ∨ v.zmask.bit k = true) ∧ v'.xmask.bit k = false ∧
      v'.zmask.bit k = false)

def KnownAt (v : SimValue) (k : ℕ) : Prop := v.xmask.bit k = false ∧ v.zmask.bit k = false

/-- Every known bit of one value is known in another and the same there. -/
def Keeps (r r' : SimValue) : Prop :=
  r'.width = r.width ∧ ∀ k < r.width, r.KnownAt k → r'.KnownAt k ∧ r'.val.bit k = r.val.bit k

theorem Keeps.refl (r : SimValue) : r.Keeps r := ⟨rfl, fun _ _ h => ⟨h, rfl⟩⟩

namespace Filled

variable {v v' : SimValue}

theorem known (h : v.Filled v') {k : ℕ} (hk : v.KnownAt k) :
    v'.KnownAt k ∧ v'.val.bit k = v.val.bit k := by
  rcases h.bits k with ⟨hv, hx, hz⟩ | ⟨hx | hz, -⟩
  · exact ⟨⟨hx.trans hk.1, hz.trans hk.2⟩, hv⟩
  · rw [hk.1] at hx
    cases hx
  · rw [hk.2] at hz
    cases hz

theorem keeps (h : v.Filled v') : v.Keeps v' := ⟨h.width, fun _ _ hk => h.known hk⟩

/-- A bit and whether it is unknown, before and after. -/
theorem pair (h : v.Filled v') (k : ℕ) :
    (v'.val.bit k = v.val.bit k ∧
      (v'.xmask.bit k || v'.zmask.bit k) = (v.xmask.bit k || v.zmask.bit k)) ∨
    ((v.xmask.bit k || v.zmask.bit k) = true ∧ (v'.xmask.bit k || v'.zmask.bit k) = false) := by
  rcases h.bits k with ⟨hv, hx, hz⟩ | ⟨hxz, hx, hz⟩
  · exact .inl ⟨hv, by rw [hx, hz]⟩
  · exact .inr ⟨by simpa using hxz, by rw [hx, hz]; rfl⟩

theorem masked (h : v.Filled v') (hm : v.Masked) : v'.Masked := by
  refine masked_of_bits fun k hk => ?_
  obtain ⟨hv, hx, hz⟩ := hm.bits (k := k) (by rw [← h.width]; exact hk)
  obtain ⟨⟨hx', hz'⟩, hv'⟩ := h.known ⟨hx, hz⟩
  exact ⟨hv'.trans hv, hx', hz'⟩

/-- A canonical value without unknown bits has nothing to fill in. -/
theorem eq_of_known (h : v.Filled v') (hm : v.Masked) (hxz : simValHasXz v = false) : v' = v := by
  have hall : ∀ k, v'.val.bit k = v.val.bit k ∧ v'.xmask.bit k = v.xmask.bit k ∧
      v'.zmask.bit k = v.zmask.bit k := by
    intro k
    have hk : v.KnownAt k := by
      by_cases hlt : k < v.width
      · exact simValHasXz_eq_false hxz hlt
      · exact (hm.bits (by omega)).2
    obtain ⟨⟨hx, hz⟩, hv⟩ := h.known hk
    exact ⟨hv, hx.trans hk.1.symm, hz.trans hk.2.symm⟩
  have hwidth := h.width
  obtain ⟨val, xmask, zmask, width⟩ := v
  obtain ⟨val', xmask', zmask', width'⟩ := v'
  obtain rfl : val' = val := Words.ext_bit fun k => (hall k).1
  obtain rfl : xmask' = xmask := Words.ext_bit fun k => (hall k).2.1
  obtain rfl : zmask' = zmask := Words.ext_bit fun k => (hall k).2.2
  obtain rfl : width' = width := hwidth
  rfl

end Filled

/-- A result that is unknown throughout is kept by any result of its width. -/
theorem keeps_allX {w : ℕ} {r' : SimValue} (hw : w ≤ 256) (h : r'.width = w) :
    (simValAllX w).Keeps r' := by
  refine ⟨h, fun k hk hknown => ?_⟩
  replace hk : k < w := hk
  have hx := hknown.1
  rw [simValAllX, bit_widthOnes (by omega), decide_eq_true hk] at hx
  cases hx

end SimValue

/-- Operands that a value operation may have: no bit above the width, at most four words. -/
def SimValue.Canonical (v : SimValue) : Prop := v.Masked ∧ v.width ≤ 256

open SimValue

/-! ## Operations that give up on any unknown bit -/

section

variable {a a' b b' : SimValue}

/-- An operation that is unknown throughout as soon as one operand has an unknown bit. -/
theorem keeps_strict (f : SimValue → SimValue → SimValue) (W : ℕ → ℕ → ℕ)
    (hwidth : ∀ a b, (f a b).width = W a.width b.width)
    (hstrict : ∀ a b, (simValHasXz a || simValHasXz b) = true →
      f a b = simValAllX (W a.width b.width))
    (ha : a.Masked) (hb : b.Masked) (hW : W a.width b.width ≤ 256) (hfa : a.Filled a')
    (hfb : b.Filled b') : (f a b).Keeps (f a' b') := by
  cases hxz : simValHasXz a || simValHasXz b with
  | true =>
    rw [hstrict a b hxz]
    exact keeps_allX hW (by rw [hwidth, hfa.width, hfb.width])
  | false =>
    rw [Bool.or_eq_false_iff] at hxz
    rw [hfa.eq_of_known ha hxz.1, hfb.eq_of_known hb hxz.2]
    exact Keeps.refl _

theorem keeps_neg (ha : a.Masked) (hW : a.width ≤ 256) (hfa : a.Filled a') :
    (simValNeg a).Keeps (simValNeg a') := by
  cases hxz : simValHasXz a with
  | true =>
    have hall : simValNeg a = simValAllX a.width := if_pos hxz
    rw [hall]
    exact keeps_allX hW (by rw [width_simValNeg, hfa.width])
  | false =>
    rw [hfa.eq_of_known ha hxz]
    exact Keeps.refl _

end

/-! ## Operations bit by bit -/

section

variable {a a' b b' : SimValue}

/-- An operation whose result at a bit is a function of the operands' bits there. -/
theorem keeps_bitwise {f : SimValue → SimValue → SimValue} {g x : Bool → Bool → Bool → Bool → Bool}
    (hwidth : ∀ a b, (f a b).width = max a.width b.width)
    (hbit : ∀ a b k, k < max a.width b.width → k < 256 →
      (f a b).val.bit k = g (a.val.bit k) (a.xmask.bit k || a.zmask.bit k) (b.val.bit k)
        (b.xmask.bit k || b.zmask.bit k) ∧
      (f a b).xmask.bit k = x (a.val.bit k) (a.xmask.bit k || a.zmask.bit k) (b.val.bit k)
        (b.xmask.bit k || b.zmask.bit k) ∧ (f a b).zmask.bit k = false)
    (htable : ∀ av au bv bu av' au' bv' bu' : Bool, x av au bv bu = false →
      (av' = av ∧ au' = au ∨ au = true ∧ au' = false) →
      (bv' = bv ∧ bu' = bu ∨ bu = true ∧ bu' = false) →
      x av' au' bv' bu' = false ∧ g av' au' bv' bu' = g av au bv bu)
    (hW : max a.width b.width ≤ 256) (hfa : a.Filled a') (hfb : b.Filled b') :
    (f a b).Keeps (f a' b') := by
  refine ⟨by rw [hwidth, hwidth, hfa.width, hfb.width], fun k hk hknown => ?_⟩
  rw [hwidth] at hk
  obtain ⟨hv, hx, -⟩ := hbit a b k hk (by omega)
  obtain ⟨hv', hx', hz'⟩ := hbit a' b' k (by rw [hfa.width, hfb.width]; exact hk) (by omega)
  obtain ⟨h1, h2⟩ := htable _ _ _ _ _ _ _ _ (hx.symm.trans hknown.1) (hfa.pair k) (hfb.pair k)
  exact ⟨⟨hx'.trans h1, hz'⟩, hv'.trans (h2.trans hv.symm)⟩

theorem keeps_and (hW : max a.width b.width ≤ 256) (hfa : a.Filled a') (hfb : b.Filled b') :
    (simValAnd a b).Keeps (simValAnd a' b') :=
  keeps_bitwise
    (g := fun av au bv bu => av && bv && !((au || bu) && !((!av && !au) || (!bv && !bu))))
    (x := fun av au bv bu => (au || bu) && !((!av && !au) || (!bv && !bu)))
    (fun _ _ => rfl) (fun a b _ hk h256 => simValAnd_bit a b hk h256) (by decide) hW hfa hfb

theorem keeps_or (hW : max a.width b.width ≤ 256) (hfa : a.Filled a') (hfb : b.Filled b') :
    (simValOr a b).Keeps (simValOr a' b') :=
  keeps_bitwise
    (g := fun av au bv bu => (av || bv || ((av && !au) || (bv && !bu))) &&
      !((au || bu) && !((av && !au) || (bv && !bu))))
    (x := fun av au bv bu => (au || bu) && !((av && !au) || (bv && !bu)))
    (fun _ _ => rfl) (fun a b _ hk h256 => simValOr_bit a b hk h256) (by decide) hW hfa hfb

theorem keeps_xor (hW : max a.width b.width ≤ 256) (hfa : a.Filled a') (hfb : b.Filled b') :
    (simValXor a b).Keeps (simValXor a' b') :=
  keeps_bitwise (g := fun av au bv bu => (av ^^ bv) && !(au || bu)) (x := fun _ au _ bu => au || bu)
    (fun _ _ => rfl)
    (fun a b k hk h256 => by
      have h := simValXor_bit a b hk h256
      simpa only [Bool.or_assoc] using h)
    (by decide) hW hfa hfb

theorem keeps_not (hW : a.width ≤ 256) (hfa : a.Filled a') :
    (simValNot a).Keeps (simValNot a') := by
  refine ⟨hfa.width, fun k hk hknown => ?_⟩
  replace hk : k < a.width := hk
  obtain ⟨hv, hx, -⟩ := simValNot_bit a hk (by omega)
  obtain ⟨hv', hx', hz'⟩ := simValNot_bit a' (k := k) (by rw [hfa.width]; exact hk) (by omega)
  have hxz := hx.symm.trans hknown.1
  rw [Bool.or_eq_false_iff] at hxz
  obtain ⟨⟨h1, h2⟩, h3⟩ := hfa.known hxz
  refine ⟨⟨?_, hz'⟩, ?_⟩
  · rw [hx', h1, h2]
    rfl
  · rw [hv', hv, h1, h2, h3, hxz.1, hxz.2]

end

/-! ## Truth -/

section

variable {a a' b b' c c' : SimValue}

/-- A condition that is known is the same after filling in. -/
theorem isTrue_filled {t : Bool} (hm : c.Masked) (h : simValIsTrue c = some t) (hf : c.Filled c') :
    simValIsTrue c' = some t := by
  have hxz : simValHasXz c = false := by
    rw [simValIsTrue] at h
    split at h
    · cases h
    · rename_i hxz
      simpa using hxz
  rw [hf.eq_of_known hm hxz, h]

theorem keeps_cmpX {r' : SimValue} (h : r'.width = 1) : cmpX.Keeps r' :=
  keeps_allX (by decide) h

theorem keeps_logicalAnd (ha : a.Masked) (hb : b.Masked) (hfa : a.Filled a') (hfb : b.Filled b') :
    (simValLogicalAnd a b).Keeps (simValLogicalAnd a' b') := by
  cases hta : simValIsTrue a with
  | none =>
    cases htb : simValIsTrue b with
    | none =>
      rw [simValLogicalAnd, hta, htb]
      exact keeps_cmpX (width_simValLogicalAnd _ _)
    | some y =>
      have hb' := isTrue_filled hb htb hfb
      cases y with
      | false =>
        rw [simValLogicalAnd, simValLogicalAnd, hta, htb, hb']
        cases simValIsTrue a' with
        | none => exact Keeps.refl _
        | some x => cases x <;> exact Keeps.refl _
      | true =>
        rw [simValLogicalAnd, hta, htb]
        exact keeps_cmpX (width_simValLogicalAnd _ _)
  | some x =>
    have ha' := isTrue_filled ha hta hfa
    cases x with
    | false =>
      rw [simValLogicalAnd, simValLogicalAnd, hta, ha']
      exact Keeps.refl _
    | true =>
      cases htb : simValIsTrue b with
      | none =>
        rw [simValLogicalAnd, hta, htb]
        exact keeps_cmpX (width_simValLogicalAnd _ _)
      | some y =>
        rw [simValLogicalAnd, simValLogicalAnd, hta, ha', htb, isTrue_filled hb htb hfb]
        exact Keeps.refl _

theorem keeps_logicalOr (ha : a.Masked) (hb : b.Masked) (hfa : a.Filled a') (hfb : b.Filled b') :
    (simValLogicalOr a b).Keeps (simValLogicalOr a' b') := by
  cases hta : simValIsTrue a with
  | none =>
    cases htb : simValIsTrue b with
    | none =>
      rw [simValLogicalOr, hta, htb]
      exact keeps_cmpX (width_simValLogicalOr _ _)
    | some y =>
      have hb' := isTrue_filled hb htb hfb
      cases y with
      | true =>
        rw [simValLogicalOr, simValLogicalOr, hta, htb, hb']
        cases simValIsTrue a' with
        | none => exact Keeps.refl _
        | some x => cases x <;> exact Keeps.refl _
      | false =>
        rw [simValLogicalOr, hta, htb]
        exact keeps_cmpX (width_simValLogicalOr _ _)
  | some x =>
    have ha' := isTrue_filled ha hta hfa
    cases x with
    | true =>
      rw [simValLogicalOr, simValLogicalOr, hta, ha']
      exact Keeps.refl _
    | false =>
      cases htb : simValIsTrue b with
      | none =>
        rw [simValLogicalOr, hta, htb]
        exact keeps_cmpX (width_simValLogicalOr _ _)
      | some y =>
        rw [simValLogicalOr, simValLogicalOr, hta, ha', htb, isTrue_filled hb htb hfb]
        exact Keeps.refl _

theorem keeps_logicalNot (ha : a.Masked) (hfa : a.Filled a') :
    (simValLogicalNot a).Keeps (simValLogicalNot a') := by
  cases hta : simValIsTrue a with
  | none =>
    rw [simValLogicalNot, hta]
    exact keeps_cmpX (width_simValLogicalNot _)
  | some x =>
    rw [simValLogicalNot, simValLogicalNot, hta, isTrue_filled ha hta hfa]
    exact Keeps.refl _

/-! ## Selection -/

/-- The merge of two arms is known where both arms are and agree. -/
theorem simValTernary_bit {t f : SimValue} (hc : simValIsTrue c = none) {k : ℕ}
    (hk : k < t.width) (h256 : k < 256) :
    let differ := (t.val.bit k ^^ f.val.bit k) || t.xmask.bit k || f.xmask.bit k ||
      t.zmask.bit k || f.zmask.bit k
    (simValTernary c t f).val.bit k = (t.val.bit k && !differ) ∧
      (simValTernary c t f).xmask.bit k = differ ∧ (simValTernary c t f).zmask.bit k = false := by
  have hj : k % 64 < 64 := Nat.mod_lt _ (by decide)
  have hk' : k < max t.width f.width := lt_of_lt_of_le hk (le_max_left _ _)
  have hm := getLsbD_wordMask (max t.width f.width) k
  simp only [hk', decide_true] at hm
  intro differ
  rw [simValTernary, hc]
  refine ⟨?_, ?_, Words.bit_zero k⟩
  · rw [bit_ofFn_numWords _ hk' h256]
    simp only [BitVec.getLsbD_and, BitVec.getLsbD_or, BitVec.getLsbD_xor, BitVec.getLsbD_not, hj, hm,
      decide_true, Bool.true_and, Bool.and_true, getLsbD_get_div]
    rfl
  · rw [bit_ofFn_numWords _ hk' h256]
    simp only [BitVec.getLsbD_and, BitVec.getLsbD_or, BitVec.getLsbD_xor, hm, Bool.and_true,
      getLsbD_get_div]
    rfl

theorem keeps_ternary {t t' f f' : SimValue} (hc : c.Masked) (hw : t.width = f.width)
    (h256 : t.width ≤ 256) (hfc : c.Filled c') (hft : t.Filled t') (hff : f.Filled f') :
    (simValTernary c t f).Keeps (simValTernary c' t' f') := by
  cases htc : simValIsTrue c with
  | some x =>
    rw [simValTernary, simValTernary, htc, isTrue_filled hc htc hfc]
    cases x with
    | true => exact hft.keeps
    | false => exact hff.keeps
  | none =>
    have hwidth := width_simValTernary c (w := t.width) rfl hw.symm
    refine ⟨(width_simValTernary c' hft.width (by rw [hff.width, hw])).trans hwidth.symm,
      fun k hk hknown => ?_⟩
    rw [hwidth] at hk
    obtain ⟨hv, hx, -⟩ := simValTernary_bit (f := f) htc hk (by omega)
    have hsame := hx.symm.trans hknown.1
    simp only [Bool.or_eq_false_iff] at hsame
    obtain ⟨⟨⟨⟨heq, htx⟩, hfx⟩, htz⟩, hfz⟩ := hsame
    obtain ⟨⟨ht1, ht2⟩, ht3⟩ := hft.known ⟨htx, htz⟩
    obtain ⟨⟨hf1, hf2⟩, hf3⟩ := hff.known ⟨hfx, hfz⟩
    have hval : f.val.bit k = t.val.bit k := (by simpa using heq : t.val.bit k = f.val.bit k).symm
    have hr : (simValTernary c t f).val.bit k = t.val.bit k := by
      rw [hv, heq, htx, hfx, htz, hfz]
      simp
    rw [hr]
    cases htc' : simValIsTrue c' with
    | some x =>
      rw [simValTernary, htc']
      cases x with
      | true => exact ⟨⟨ht1, ht2⟩, ht3⟩
      | false => exact ⟨⟨hf1, hf2⟩, hf3.trans hval⟩
    | none =>
      obtain ⟨hv', hx', hz'⟩ := simValTernary_bit (f := f') htc' (k := k)
        (by rw [hft.width]; exact hk) (by omega)
      have hdiffer : ((t'.val.bit k ^^ f'.val.bit k) || t'.xmask.bit k || f'.xmask.bit k ||
          t'.zmask.bit k || f'.zmask.bit k) = false := by
        rw [ht1, ht2, ht3, hf1, hf2, hf3, hval]
        simp
      refine ⟨⟨hx'.trans hdiffer, hz'⟩, ?_⟩
      rw [hv', hdiffer, ht3]
      simp

end

/-! ## Concatenation, slices and extension -/

theorem map_width_filled : ∀ {vals vals' : List SimValue}, List.Forall₂ Filled vals vals' →
    vals'.map SimValue.width = vals.map SimValue.width
  | _, _, .nil => rfl
  | _, _, .cons hv hrest => by rw [List.map_cons, List.map_cons, hv.width, map_width_filled hrest]

/-- What is known of a concatenation bit is kept by the operand that it belongs to. -/
theorem keeps_concatBit {vals vals' : List SimValue} (h : List.Forall₂ Filled vals vals') (k : ℕ) :
    concatBit SimValue.xmask vals k = false → concatBit SimValue.zmask vals k = false →
    concatBit SimValue.xmask vals' k = false ∧ concatBit SimValue.zmask vals' k = false ∧
      concatBit SimValue.val vals' k = concatBit SimValue.val vals k := by
  induction h with
  | nil => exact fun _ _ => ⟨rfl, rfl, rfl⟩
  | @cons v v' rest rest' hv hrest ih =>
    simp only [concatBit, map_width_filled hrest, hv.width]
    by_cases hlt : k < (rest.map SimValue.width).sum
    · simp only [if_pos hlt]
      exact ih
    · simp only [if_neg hlt]
      by_cases hin : k < (rest.map SimValue.width).sum + v.width
      · simp only [hin, decide_true, Bool.true_and]
        intro hx hz
        obtain ⟨⟨hx', hz'⟩, hval⟩ := hv.known ⟨hx, hz⟩
        exact ⟨hx', hz', hval⟩
      · simp [hin]

theorem keeps_concat {vals vals' : List SimValue} (h : List.Forall₂ Filled vals vals') :
    (simValConcat vals).Keeps (simValConcat vals') := by
  have hwidth : ∀ us : List SimValue, (simValConcat us).width =
      min (us.map SimValue.width).sum (simValWords * 64) := fun us => (concat_run _ us).2.1
  refine ⟨by rw [hwidth, hwidth, map_width_filled h], fun k hk ⟨hx, hz⟩ => ?_⟩
  have h256 : k < 256 := lt_of_lt_of_le hk ((hwidth vals).trans_le (min_le_right _ _))
  obtain ⟨h1, h2, h3⟩ := simValConcat_bit vals h256
  obtain ⟨h4, h5, h6⟩ := simValConcat_bit vals' h256
  obtain ⟨hx', hz', hv'⟩ := keeps_concatBit h k (h2.symm.trans hx) (h3.symm.trans hz)
  exact ⟨⟨h5.trans hx', h6.trans hz'⟩, h4.trans (hv'.trans h1.symm)⟩

section

variable {v v' : SimValue}

theorem keeps_slice (msb lsb : ℕ) (h : v.Filled v') :
    (simValSlice v msb lsb).Keeps (simValSlice v' msb lsb) := by
  by_cases hle : lsb ≤ msb
  · refine ⟨by rw [width_simValSlice v' hle, width_simValSlice v hle], fun k hk ⟨hx, hz⟩ => ?_⟩
    rw [width_simValSlice v hle] at hk
    obtain ⟨h1, h2, h3⟩ := bit_sliceWords_part v msb lsb k (by omega)
    obtain ⟨h4, h5, h6⟩ := bit_sliceWords_part v' msb lsb k (by omega)
    obtain ⟨⟨hx', hz'⟩, hv'⟩ := h.known ⟨h2.symm.trans hx, h3.symm.trans hz⟩
    exact ⟨⟨h5.trans hx', h6.trans hz'⟩, h4.trans (hv'.trans h1.symm)⟩
  · rw [simValSlice, simValSlice, if_pos (by omega), if_pos (by omega)]
    exact Keeps.refl _

theorem keeps_zext (w : ℕ) (h : v.Filled v') : (simValZext v w).Keeps (simValZext v' w) := by
  rw [simValZext, simValZext, h.width]
  split
  · exact h.keeps
  · exact ⟨rfl, fun k _ hk => h.known hk⟩

end

/-! ## Sign extension -/

section

variable {v v' : SimValue} {w : ℕ}

/-- The planes of a sign extension: the `z` plane is not extended. -/
theorem simValSext_bit (hm : v.Masked) (hv : v.width < w) (hw : w ≤ 256) {k : ℕ} (hk : k < w) :
    (simValSext v w).val.bit k =
        (if k < v.width then v.val.bit k else v.val.bit (v.width - 1)) ∧
      (simValSext v w).xmask.bit k =
        (if k < v.width then v.xmask.bit k else v.xmask.bit (v.width - 1)) ∧
      (simValSext v w).zmask.bit k = v.zmask.bit k := by
  have hsign : simValGetBit v (v.width - 1) = v.val.bit (v.width - 1) := by
    rw [simValGetBit]
    split
    · rfl
    · exact ((hm.bits (by omega)).1).symm
  have hx : (decide (0 < v.width) && v.xmask.bit (v.width - 1)) = v.xmask.bit (v.width - 1) := by
    rcases Nat.eq_zero_or_pos v.width with h | h
    · rw [(hm.bits (k := v.width - 1) (by omega)).2.1, Bool.and_false]
    · simp [h]
  have hfill : ∀ (ws : SimWords) (c : Bool), (v.width ≤ k → ws.bit k = false) →
      (if c then fillBits ws v.width (w - v.width) else ws).bit k =
        if k < v.width then ws.bit k else c := by
    intro ws c hout
    by_cases hlt : k < v.width
    · have : ¬ v.width ≤ k := by omega
      cases c <;> simp [hlt, bit_fillBits, this]
    · have hge : v.width ≤ k ∧ k < v.width + (w - v.width) ∧ k < 256 := by omega
      cases c
      · simp [hlt, hout (by omega)]
      · simp only [if_true, bit_fillBits, decide_eq_true hge, Bool.or_true, if_neg hlt]
  have hout := fun hle : v.width ≤ k => hm.bits hle
  rw [simValSext, if_neg (by omega), hsign]
  simp only [hx]
  exact ⟨hfill _ _ fun hle => (hout hle).1, hfill _ _ fun hle => (hout hle).2.1, trivial⟩

/-- The sign bit is a `z`, and the extension adds bits above it. -/
def SignDropsZ (v : SimValue) (w : ℕ) : Prop :=
  v.width < w ∧ v.zmask.bit (v.width - 1) = true ∧ v.xmask.bit (v.width - 1) = false

theorem width_simValSext (h : v.width < w) : (simValSext v w).width = w := by
  rw [simValSext, if_neg (by omega)]

theorem keeps_sext (hm : v.Masked) (hw : w ≤ 256) (hz : ¬ SignDropsZ v w) (h : v.Filled v') :
    (simValSext v w).Keeps (simValSext v' w) := by
  by_cases hlt : v.width < w
  · have hlt' : v'.width < w := by rwa [h.width]
    refine ⟨by rw [width_simValSext hlt, width_simValSext hlt'], fun k hk ⟨hx, hz'⟩ => ?_⟩
    rw [width_simValSext hlt] at hk
    obtain ⟨h1, h2, h3⟩ := simValSext_bit hm hlt hw hk
    obtain ⟨h4, h5, h6⟩ := simValSext_bit (h.masked hm) hlt' hw hk
    rw [h2] at hx
    rw [h3] at hz'
    rw [h.width] at h4 h5
    rw [KnownAt, h1, h4, h5, h6]
    by_cases hin : k < v.width
    · rw [if_pos hin] at hx
      simp only [if_pos hin]
      exact h.known ⟨hx, hz'⟩
    · rw [if_neg hin] at hx
      simp only [if_neg hin]
      -- the bit above the width copies the sign bit, which is not a `z`
      have hsign : v.KnownAt (v.width - 1) := ⟨hx, by
        by_contra hzb
        exact hz ⟨hlt, by simpa using hzb, hx⟩⟩
      obtain ⟨⟨hx', -⟩, hv'⟩ := h.known hsign
      have hout := (h.masked hm).bits (k := k) (by rw [h.width]; omega)
      exact ⟨⟨hx', hout.2.2⟩, hv'⟩
  · rw [simValSext, simValSext, if_pos (by omega), if_pos (by rw [h.width]; omega)]
    exact h.keeps

/-- The value with its sign bit replaced by a known bit. -/
def fillSign (v : SimValue) (b : Bool) : SimValue :=
  { v with
    val := v.val.setBit (v.width - 1) b
    xmask := v.xmask.setBit (v.width - 1) false
    zmask := v.zmask.setBit (v.width - 1) false }

theorem fillSign_filled (hxz : v.xmask.bit (v.width - 1) = true ∨ v.zmask.bit (v.width - 1) = true)
    (b : Bool) : v.Filled (fillSign v b) := by
  refine ⟨rfl, fun k => ?_⟩
  simp only [fillSign, Words.bit_setBit]
  by_cases hk : k = v.width - 1 ∧ k < 64 * 4
  · refine .inr ⟨?_, by rw [if_pos hk], by rw [if_pos hk]⟩
    rw [hk.1]
    exact hxz
  · exact .inl ⟨if_neg hk, if_neg hk, if_neg hk⟩

/-- A `z` sign bit is reported as a known bit above the width, and may become the other one. -/
theorem not_keeps_sext (hm : v.Masked) (hw : w ≤ 256) (hz : SignDropsZ v w) :
    ∃ v', v.Filled v' ∧ ¬ (simValSext v w).Keeps (simValSext v' w) := by
  obtain ⟨hlt, hzb, hxb⟩ := hz
  have hfill := fillSign_filled (.inr hzb) (!v.val.bit (v.width - 1))
  refine ⟨_, hfill, fun hkeeps => ?_⟩
  have hpos : 0 < v.width := by
    by_contra h0
    rw [(hm.bits (k := v.width - 1) (by omega)).2.2] at hzb
    cases hzb
  obtain ⟨h1, h2, h3⟩ := simValSext_bit hm hlt hw (k := v.width) hlt
  obtain ⟨h4, -, -⟩ := simValSext_bit (hfill.masked hm) (by rw [hfill.width]; exact hlt) hw
    (k := v.width) hlt
  have hknown : (simValSext v w).KnownAt v.width := by
    refine ⟨h2.trans ?_, h3.trans (hm.bits le_rfl).2.2⟩
    rw [if_neg (by omega), hxb]
  have hval := (hkeeps.2 v.width (by rw [width_simValSext hlt]; exact hlt) hknown).2
  rw [h1, h4, hfill.width, if_neg (by omega), if_neg (by omega), fillSign, Words.bit_setBit,
    if_pos ⟨rfl, by omega⟩] at hval
  revert hval
  cases v.val.bit (v.width - 1) <;> simp

end

/-! ## All operations -/

inductive ValueUnary
  | not | neg | logicalNot
  | slice (msb lsb : ℕ)
  | zext (newWidth : ℕ)
  | sext (newWidth : ℕ)

inductive ValueBinary
  | and | or | xor | add | sub | mul | div | mod
  | eq | neq | lt | gt | lte | gte | logicalAnd | logicalOr | shl | shr | ashr

def ValueUnary.apply : ValueUnary → SimValue → SimValue
  | .not, a => simValNot a
  | .neg, a => simValNeg a
  | .logicalNot, a => simValLogicalNot a
  | .slice msb lsb, a => simValSlice a msb lsb
  | .zext newWidth, a => simValZext a newWidth
  | .sext newWidth, a => simValSext a newWidth

def ValueBinary.apply : ValueBinary → SimValue → SimValue → SimValue
  | .and, a, b => simValAnd a b
  | .or, a, b => simValOr a b
  | .xor, a, b => simValXor a b
  | .add, a, b => simValAdd a b
  | .sub, a, b => simValSub a b
  | .mul, a, b => simValMul a b
  | .div, a, b => simValDiv a b
  | .mod, a, b => simValMod a b
  | .eq, a, b => simValEq a b
  | .neq, a, b => simValNeq a b
  | .lt, a, b => simValLt a b
  | .gt, a, b => simValGt a b
  | .lte, a, b => simValLte a b
  | .gte, a, b => simValGte a b
  | .logicalAnd, a, b => simValLogicalAnd a b
  | .logicalOr, a, b => simValLogicalOr a b
  | .shl, a, b => simValShl a b
  | .shr, a, b => simValShr a b
  | .ashr, a, b => simValAshr a b

/-- An operation of the value library with its operands. -/
inductive ValueCall
  | unary (op : ValueUnary) (a : SimValue)
  | binary (op : ValueBinary) (a b : SimValue)
  | ternary (cond t f : SimValue)
  | concat (vals : List SimValue)

namespace ValueCall

def result : ValueCall → SimValue
  | unary op a => op.apply a
  | binary op a b => op.apply a b
  | ternary cond t f => simValTernary cond t f
  | concat vals => simValConcat vals

/-- Canonical operands, equal arms of a selection and an extension to at most four words. -/
def Canonical : ValueCall → Prop
  | unary (.sext newWidth) a => a.Canonical ∧ newWidth ≤ 256
  | unary _ a => a.Canonical
  | binary _ a b => a.Canonical ∧ b.Canonical
  | ternary cond t f => cond.Canonical ∧ t.Canonical ∧ f.Canonical ∧ t.width = f.width
  | concat vals => ∀ v ∈ vals, v.Canonical

/-- The same operation with unknown bits of its operands filled in. -/
inductive Filled : ValueCall → ValueCall → Prop
  | unary (op : ValueUnary) {a a' : SimValue} : a.Filled a' → Filled (unary op a) (unary op a')
  | binary (op : ValueBinary) {a a' b b' : SimValue} : a.Filled a' → b.Filled b' →
      Filled (binary op a b) (binary op a' b')
  | ternary {c c' t t' f f' : SimValue} : c.Filled c' → t.Filled t' → f.Filled f' →
      Filled (ternary c t f) (ternary c' t' f')
  | concat {vals vals' : List SimValue} : List.Forall₂ SimValue.Filled vals vals' →
      Filled (concat vals) (concat vals')

/-- A sign extension that reads a `z` sign bit. -/
def ExtendsZ : ValueCall → Prop
  | unary (.sext newWidth) a => SignDropsZ a newWidth
  | _ => False

end ValueCall

theorem ValueUnary.keeps (op : ValueUnary) {a a' : SimValue}
    (hc : (ValueCall.unary op a).Canonical) (hz : ¬ (ValueCall.unary op a).ExtendsZ)
    (h : a.Filled a') : (op.apply a).Keeps (op.apply a') := by
  cases op with
  | not => exact keeps_not hc.2 h
  | neg => exact keeps_neg hc.1 hc.2 h
  | logicalNot => exact keeps_logicalNot hc.1 h
  | slice msb lsb => exact keeps_slice msb lsb h
  | zext newWidth => exact keeps_zext newWidth h
  | sext newWidth => exact keeps_sext hc.1.1 hc.2 hz h

theorem ValueBinary.keeps (op : ValueBinary) {a a' b b' : SimValue} (ha : a.Canonical)
    (hb : b.Canonical) (hfa : a.Filled a') (hfb : b.Filled b') :
    (op.apply a b).Keeps (op.apply a' b') := by
  have hW : max a.width b.width ≤ 256 := max_le ha.2 hb.2
  have hW' : max b.width a.width ≤ 256 := max_le hb.2 ha.2
  cases op with
  | and => exact keeps_and hW hfa hfb
  | or => exact keeps_or hW hfa hfb
  | xor => exact keeps_xor hW hfa hfb
  | add =>
    exact keeps_strict simValAdd max width_simValAdd (fun _ _ h => if_pos h) ha.1 hb.1 hW hfa hfb
  | sub =>
    exact keeps_strict simValSub max width_simValSub (fun _ _ h => if_pos h) ha.1 hb.1 hW hfa hfb
  | mul =>
    exact keeps_strict simValMul max width_simValMul (fun _ _ h => if_pos h) ha.1 hb.1 hW hfa hfb
  | div =>
    exact keeps_strict simValDiv max (width_simValDivmod false) (fun _ _ h => if_pos h) ha.1 hb.1 hW
      hfa hfb
  | mod =>
    exact keeps_strict simValMod max (width_simValDivmod true) (fun _ _ h => if_pos h) ha.1 hb.1 hW
      hfa hfb
  | eq =>
    exact keeps_strict simValEq (fun _ _ => 1) (fun _ _ => width_cmp _) (fun _ _ h => if_pos h)
      ha.1 hb.1 (by decide) hfa hfb
  | neq =>
    exact keeps_strict simValNeq (fun _ _ => 1) (fun _ _ => width_cmp _) (fun _ _ h => if_pos h)
      ha.1 hb.1 (by decide) hfa hfb
  | lt =>
    exact keeps_strict simValLt (fun _ _ => 1) (fun _ _ => width_cmp _) (fun _ _ h => if_pos h)
      ha.1 hb.1 (by decide) hfa hfb
  | gt =>
    exact keeps_strict simValLt (fun _ _ => 1) (fun _ _ => width_cmp _) (fun _ _ h => if_pos h)
      hb.1 ha.1 (by decide) hfb hfa
  | lte =>
    exact keeps_strict simValLte (fun _ _ => 1) (fun _ _ => width_cmp _) (fun _ _ h => if_pos h)
      ha.1 hb.1 (by decide) hfa hfb
  | gte =>
    exact keeps_strict simValLte (fun _ _ => 1) (fun _ _ => width_cmp _) (fun _ _ h => if_pos h)
      hb.1 ha.1 (by decide) hfb hfa
  | logicalAnd => exact keeps_logicalAnd ha.1 hb.1 hfa hfb
  | logicalOr => exact keeps_logicalOr ha.1 hb.1 hfa hfb
  | shl =>
    exact keeps_strict simValShl (fun w _ => w) width_simValShl (fun _ _ h => if_pos h) ha.1 hb.1
      ha.2 hfa hfb
  | shr =>
    exact keeps_strict simValShr (fun w _ => w) (fun _ _ => width_simValShr) (fun _ _ h => if_pos h)
      ha.1 hb.1 ha.2 hfa hfb
  | ashr =>
    exact keeps_strict simValAshr (fun w _ => w) width_simValAshr (fun _ _ h => if_pos h) ha.1 hb.1
      ha.2 hfa hfb

/-- Filling in unknown operand bits changes no known result bit, unless the operation is a sign
extension of a value whose sign bit is `z`. -/
theorem unknowns_conservative_iff {c : ValueCall} (hc : c.Canonical) :
    (∀ c', c.Filled c' → c.result.Keeps c'.result) ↔ ¬ c.ExtendsZ := by
  constructor
  · intro h hz
    obtain ⟨op, a⟩ | ⟨op, a, b⟩ | ⟨cond, t, f⟩ | vals := c
    · cases op with
      | sext newWidth =>
        obtain ⟨v', hfill, hnot⟩ := not_keeps_sext hc.1.1 hc.2 hz
        exact hnot (h _ (.unary _ hfill))
      | not | neg | logicalNot | slice | zext => exact hz
    · exact hz
    · exact hz
    · exact hz
  · rintro hz c' (⟨op, ha⟩ | ⟨op, ha, hb⟩ | ⟨hcond, ht, hf⟩ | hvals)
    · exact op.keeps hc hz ha
    · exact op.keeps hc.1 hc.2 ha hb
    · exact keeps_ternary hc.1.1 hc.2.2.2 hc.2.1.2 hcond ht hf
    · exact keeps_concat hvals

namespace UnknownsExample

def highImpedance : SimValue := ⟨.zero, .zero, Words.set .zero 0 1, 1⟩

def pulledUp : SimValue := fillSign highImpedance true

end UnknownsExample

open UnknownsExample in
/-- A floating bit that a sum reads is pulled up. -/
theorem unknowns_conservative_iff_add : highImpedance.Filled pulledUp ∧
    (simValAdd highImpedance pulledUp).Keeps (simValAdd pulledUp pulledUp) := by
  have hfill : highImpedance.Filled pulledUp := fillSign_filled (.inr (by decide +kernel)) true
  have hsame : pulledUp.Filled pulledUp := ⟨rfl, fun _ => .inl ⟨rfl, rfl, rfl⟩⟩
  have hc : (ValueCall.binary .add highImpedance pulledUp).Canonical :=
    ⟨⟨by decide +kernel, by decide⟩, ⟨by decide +kernel, by decide⟩⟩
  exact ⟨hfill, (unknowns_conservative_iff hc).mpr id _ (.binary .add hfill hsame)⟩

open UnknownsExample in
/-- A floating bit extended to two bits has a known upper bit, which a driven 1 changes. -/
theorem sext_drops_z : highImpedance.Canonical ∧ highImpedance.Filled pulledUp ∧
    (simValSext highImpedance 2).KnownAt 1 ∧ (simValSext highImpedance 2).val.bit 1 = false ∧
    (simValSext pulledUp 2).val.bit 1 = true := by
  exact ⟨⟨by decide +kernel, by decide⟩, fillSign_filled (.inr (by decide +kernel)) true,
    ⟨by decide +kernel, by decide +kernel⟩, by decide +kernel, by decide +kernel⟩

end JzHdl

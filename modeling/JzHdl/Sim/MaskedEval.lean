import JzHdl.Sim.EvalWidth
import JzHdl.Sim.OpBits

/-! # Bits above the width

Which operations leave the bits above the width of their result clear. Most mask
their result; the bitwise ones are given a width after the masking, and must
not be given a smaller one.
-/

namespace JzHdl

open BitWords

/-! ## Operations on values -/

theorem masked_simValOnes (w : ℕ) : (simValOnes w).Masked := by
  refine SimValue.masked_of_bits fun k hk => ⟨?_, Words.bit_zero k, Words.bit_zero k⟩
  change (widthOnes w).bit k = false
  have hk' : ¬ k < w := not_lt.mpr hk
  rw [widthOnes, Words.bit_ofFn, getLsbD_wordMask, decide_eq_false hk', Bool.and_false]

theorem masked_simValAllX (w : ℕ) : (simValAllX w).Masked := by
  refine SimValue.masked_of_bits fun k hk => ⟨Words.bit_zero k, ?_, Words.bit_zero k⟩
  exact ((masked_simValOnes w).bits hk).1

theorem masked_simValAllZ (w : ℕ) : (simValAllZ w).Masked := by
  refine SimValue.masked_of_bits fun k hk => ⟨Words.bit_zero k, Words.bit_zero k, ?_⟩
  exact ((masked_simValOnes w).bits hk).1

theorem masked_ite {c : Prop} [Decidable c] {a b : SimValue} (ha : a.Masked) (hb : b.Masked) :
    (if c then a else b).Masked := by
  split
  · exact ha
  · exact hb

theorem masked_foldl {α : Type} (f : SimValue → α → SimValue)
    (hf : ∀ v a, v.Masked → (f v a).Masked) (l : List α) {v : SimValue} (hv : v.Masked) :
    (l.foldl f v).Masked := by
  induction l generalizing v with
  | nil => exact hv
  | cons a rest ih => exact ih (hf v a hv)

section

variable {a b v : SimValue}

theorem masked_simValSetBit (hv : v.Masked) (bit : ℕ) (x : Bool) :
    (simValSetBit v bit x).Masked := by
  rw [simValSetBit]
  split
  · rename_i hlt
    refine SimValue.masked_of_bits fun k hk => ?_
    replace hk : v.width ≤ k := hk
    obtain ⟨h1, h2, h3⟩ := hv.bits hk
    refine ⟨?_, h2, h3⟩
    rw [Words.bit_setBit, if_neg (by omega), h1]
  · exact hv

theorem masked_simValAdd (a b : SimValue) : (simValAdd a b).Masked :=
  masked_ite (masked_simValAllX _) (masked_simValMask _)

theorem masked_simValNeg (a : SimValue) : (simValNeg a).Masked :=
  masked_ite (masked_simValAllX _) (masked_simValAdd _ _)

theorem masked_simValZext (hv : v.Masked) (w : ℕ) : (simValZext v w).Masked := by
  rw [simValZext]
  split
  · exact hv
  · refine SimValue.masked_of_bits fun k hk => ?_
    replace hk : w ≤ k := hk
    exact hv.bits (by omega)

theorem masked_simValSext (hv : v.Masked) (w : ℕ) : (simValSext v w).Masked := by
  rw [simValSext]
  split
  · exact hv
  · refine SimValue.masked_of_bits fun k hk => ?_
    replace hk : w ≤ k := hk
    obtain ⟨h1, h2, h3⟩ := hv.bits (k := k) (by omega)
    have hfill : ∀ (ws : SimWords) (c : Bool), ws.bit k = false →
        (if c then fillBits ws v.width (w - v.width) else ws).bit k = false := by
      intro ws c hws
      have hout : ¬ (v.width ≤ k ∧ k < v.width + (w - v.width) ∧ k < 256) := by omega
      cases c
      · exact hws
      · simp only [if_true, bit_fillBits, hws, decide_eq_false hout, Bool.or_self]
    exact ⟨hfill _ _ h1, hfill _ _ h2, h3⟩

theorem masked_cmpX : cmpX.Masked := masked_simValAllX 1

theorem masked_cmp {c : Prop} [Decidable c] (r : Bool) :
    (if c then cmpX else cmpResult r).Masked := masked_ite masked_cmpX (masked_bit r)

theorem masked_simValLogicalNot (a : SimValue) : (simValLogicalNot a).Masked := by
  rw [simValLogicalNot]
  split
  · exact masked_cmpX
  · exact masked_bit _

theorem masked_simValLogicalAnd (a b : SimValue) : (simValLogicalAnd a b).Masked := by
  rw [simValLogicalAnd]
  split
  · exact masked_bit _
  · exact masked_bit _
  · exact masked_cmpX
  · exact masked_cmpX
  · exact masked_bit _

theorem masked_simValLogicalOr (a b : SimValue) : (simValLogicalOr a b).Masked := by
  rw [simValLogicalOr]
  split
  · exact masked_bit _
  · exact masked_bit _
  · exact masked_cmpX
  · exact masked_cmpX
  · exact masked_bit _

theorem masked_simValTernary (c : SimValue) (ha : a.Masked) (hb : b.Masked) :
    (simValTernary c a b).Masked := by
  rw [simValTernary]
  split
  · exact ha
  · exact hb
  · refine SimValue.masked_of_bits fun k hk => ⟨?_, ?_, Words.bit_zero k⟩ <;>
      replace hk : max a.width b.width ≤ k := hk
    · have hclear := (ha.bits (k := k) (by omega)).1
      rw [bit_ofFn_of_le _ hk]
      intro h
      simp only [BitVec.getLsbD_and, Bool.and_eq_true, getLsbD_get_div, hclear, Bool.false_eq_true,
        false_and] at h
    · rw [bit_ofFn_of_le _ hk]
      intro h
      simp only [BitVec.getLsbD_and, Bool.and_eq_true] at h
      exact h.2

theorem masked_insertBit {src : SimValue} (hsrc : src.Masked) (val : SimValue) {bit : ℕ}
    (hbit : bit < src.width) : (insertBit src val bit).Masked := by
  refine SimValue.masked_of_bits fun k hk => ?_
  replace hk : src.width ≤ k := hk
  obtain ⟨h1, h2, h3⟩ := hsrc.bits hk
  simp only [insertBit, Words.bit_setBit, if_neg (show ¬ (k = bit ∧ k < 64 * 4) by omega), h1, h2, h3,
    and_self]

end

/-! ## Operators -/

/-- A width set after the masking is not smaller than the value. -/
theorem masked_setWidth {w : ℕ} {r : SimValue} (hr : r.Masked) (hw : r.width ≤ widthOr w r.width) :
    (setWidth w r).Masked :=
  SimValue.masked_of_bits fun _ hk => hr.bits (hw.trans hk)

theorem masked_fitWidth (w : ℕ) (r : SimValue) : (fitWidth w r).Masked := masked_simValMask _

theorem masked_evalLiteral (lit : IRLiteral) (w : ℕ) : (evalLiteral lit w).Masked := by
  have hv : (if lit.isZ then simValAllZ lit.width
      else simValFromWords lit.words lit.width).Masked :=
    masked_ite (masked_simValAllZ _) (masked_simValMask _)
  by_cases h : (if lit.isZ then simValAllZ lit.width
      else simValFromWords lit.words lit.width).width = 0
  · rw [evalLiteral, if_pos h]
    exact SimValue.masked_of_bits fun k _ => hv.bits (by omega)
  · rw [evalLiteral, if_neg h]
    exact hv

theorem masked_evalMinMax {l r : SimValue} {w : ℕ} {choose : ℕ → SimValue}
    (h : (choose (widthOr w 1)).Masked) : (evalMinMax l r w choose).Masked :=
  masked_ite (masked_simValAllX _) h

theorem masked_evalKnown {src : SimValue} {w : ℕ} {f : ℕ → SimValue} (h : ∀ w, (f w).Masked) :
    (evalKnown src w f).Masked :=
  masked_ite (masked_simValAllX _) (h _)

/-- The bitwise operators and the negation: their results are not masked again. -/
def IRUnaryOp.SetsWidth : IRUnaryOp → Prop
  | .not | .neg => True
  | .logicalNot => False

def IRBinaryOp.SetsWidth : IRBinaryOp → Prop
  | .and | .or | .xor => True
  | _ => False

theorem masked_evalUnary {op : IRUnaryOp} {w : ℕ} (v : SimValue)
    (hw : op.SetsWidth → v.width ≤ widthOr w v.width) : (evalUnary op w v).Masked := by
  cases op with
  | not => exact masked_setWidth (masked_simValNot v) (hw trivial)
  | neg =>
    refine masked_setWidth (masked_simValNeg v) ?_
    rw [width_simValNeg]
    exact hw trivial
  | logicalNot => exact masked_simValLogicalNot v

theorem masked_evalBinary {op : IRBinaryOp} {w : ℕ} (l r : SimValue)
    (hw : op.SetsWidth → max l.width r.width ≤ widthOr w (max l.width r.width)) :
    (evalBinary op w l r).Masked := by
  cases op with
  | add | sub | usub | ssub | mul | div | mod | shl | shr | ashr => exact masked_fitWidth _ _
  | and => exact masked_setWidth (masked_simValAnd l r) (hw trivial)
  | or => exact masked_setWidth (masked_simValOr l r) (hw trivial)
  | xor => exact masked_setWidth (masked_simValXor l r) (hw trivial)
  | eq | neq | lt | gt | lte | gte => exact masked_cmp _
  | logicalAnd => exact masked_simValLogicalAnd l r
  | logicalOr => exact masked_simValLogicalOr l r
  | umin | umax | smin | smax => exact masked_evalMinMax (masked_simValMask _)

theorem masked_simValueAbs (src : SimValue) (w : ℕ) : (simValueAbs src w).Masked :=
  masked_ite (masked_simValMask _) (masked_simValMask _)

theorem masked_evalIntrinsic (op : IRIntrinsicOp) (ew w : ℕ) {src : SimValue} (hsrc : src.Masked)
    (idx val : SimValue) : (evalIntrinsic op ew w src idx val).Masked := by
  cases op with
  | uadd | sadd | umul | smul => exact masked_fitWidth _ _
  | gbit =>
    simp only [evalIntrinsic]
    refine masked_ite (masked_simValAllX 1) ?_
    split
    · exact masked_simValZero 1
    · exact masked_ite (masked_simValZero 1) (masked_simValSlice _ _ _)
  | sbit =>
    simp only [evalIntrinsic]
    refine masked_ite (masked_simValAllX _) ?_
    split
    · exact hsrc
    · split
      · exact hsrc
      · exact masked_insertBit hsrc val (by omega)
  | gslice =>
    simp only [evalIntrinsic]
    refine masked_ite (masked_simValAllX _) ?_
    split
    · exact masked_simValAllX _
    · exact masked_ite (masked_simValAllX _) (masked_simValSlice _ _ _)
  | sslice =>
    simp only [evalIntrinsic]
    refine masked_ite (masked_simValAllX _) ?_
    split
    · exact hsrc
    · exact masked_ite hsrc (masked_simValOr _ _)
  | oh2b | prienc | lzc | popcount => exact masked_evalKnown fun _ => masked_simValMask _
  | b2oh =>
    refine masked_evalKnown fun w => ?_
    split
    · exact masked_ite (masked_simValSetBit (masked_simValZero w) _ _) (masked_simValZero w)
    · exact masked_simValZero w
  | abs => exact masked_evalKnown fun w => masked_simValueAbs src w
  | reverse =>
    exact masked_evalKnown fun w => masked_foldl _ (fun v i hv => masked_simValSetBit hv _ true) _
      (masked_simValZero _)
  | bswap =>
    exact masked_evalKnown fun w => masked_foldl _
      (fun v i hv => masked_ite (masked_simValSetBit hv _ true) hv) _ (masked_simValZero _)
  | reduceAnd | reduceOr => exact masked_ite (masked_simValAllX 1) (masked_cmp _)
  | reduceXor => exact masked_ite (masked_simValAllX 1) (masked_bit _)

end JzHdl

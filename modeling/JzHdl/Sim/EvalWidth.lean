import JzHdl.Ir.BuildExpr

/-! # Widths of values

The width of the value that each operator returns. An operator that is given a
width returns a value of it, and the others keep the width of an operand.
-/

namespace JzHdl

open BitWords

section

variable {w : ℕ}

theorem widthOr_of_pos (hw : 0 < w) (dflt : ℕ) : widthOr w dflt = w := if_pos hw

/-! ## Results of a given width -/

theorem width_fitWidth (hw : 0 < w) (r : SimValue) : (fitWidth w r).width = w := by
  rw [fitWidth, widthOr_of_pos hw]
  rfl

theorem width_setWidth (hw : 0 < w) (r : SimValue) : (setWidth w r).width = w :=
  widthOr_of_pos hw _

theorem width_ite {c : Prop} [Decidable c] {a b : SimValue} (ha : a.width = w) (hb : b.width = w) :
    (if c then a else b).width = w := by
  split
  · exact ha
  · exact hb

theorem width_simValSetBit (v : SimValue) (bit : ℕ) (b : Bool) :
    (simValSetBit v bit b).width = v.width := by
  rw [simValSetBit]
  exact width_ite rfl rfl

theorem width_foldl {α : Type} (f : SimValue → α → SimValue) (hf : ∀ v a, (f v a).width = v.width)
    (l : List α) (v : SimValue) : (l.foldl f v).width = v.width := by
  induction l generalizing v with
  | nil => rfl
  | cons a rest ih => rw [List.foldl_cons, ih, hf]

theorem width_simValueFromIndex (value : ℕ) : (simValueFromIndex value w).width = w := by
  exact width_foldl _ (fun v bit => width_ite (width_simValSetBit v bit true) rfl) _ _

theorem width_simValueAbs (src : SimValue) : (simValueAbs src w).width = w :=
  width_ite (width_simValSetBit _ _ _) rfl

theorem width_simValueSignedChoice (a b : SimValue) (pickMin : Bool) :
    (simValueSignedChoice a b pickMin w).width = w := rfl

/-! ## Arithmetic -/

/-- A condition that chooses between an unknown result and another of its width. -/
theorem width_ite_allX {c : Prop} [Decidable c] {r : SimValue} {w : ℕ} (h : r.width = w) :
    (if c then simValAllX w else r).width = w := by
  split
  · rfl
  · exact h

theorem width_simValAdd (a b : SimValue) : (simValAdd a b).width = max a.width b.width :=
  width_ite_allX rfl

theorem width_simValNeg (a : SimValue) : (simValNeg a).width = a.width := by
  refine width_ite_allX ?_
  rw [width_simValAdd]
  exact max_self _

theorem width_simValSub (a b : SimValue) : (simValSub a b).width = max a.width b.width :=
  width_ite_allX rfl

theorem width_simValMul (a b : SimValue) : (simValMul a b).width = max a.width b.width :=
  width_ite_allX rfl

theorem width_simValDivmod (wantRemainder : Bool) (a b : SimValue) :
    (simValDivmod wantRemainder a b).width = max a.width b.width := by
  refine width_ite_allX ?_
  exact width_ite_allX rfl

theorem width_simValAshr (a b : SimValue) : (simValAshr a b).width = a.width := by
  refine width_ite_allX ?_
  have hfill : (if simValGetBit a (a.width - 1) then simValOnes a.width
      else simValZero a.width).width = a.width := by
    split <;> rfl
  split
  · exact hfill
  · split
    · exact hfill
    · have hshr : (simValShr a b).width = a.width := width_simValShr
      dsimp only
      split
      · exact hshr
      · exact hshr

/-! ## Bits -/

theorem width_cmp {c : Prop} [Decidable c] (r : Bool) :
    (if c then cmpX else cmpResult r).width = 1 := width_ite rfl rfl

theorem width_simValLogicalNot (a : SimValue) : (simValLogicalNot a).width = 1 := by
  rw [simValLogicalNot]
  split
  · rfl
  · rfl

theorem width_simValLogicalAnd (a b : SimValue) : (simValLogicalAnd a b).width = 1 := by
  rw [simValLogicalAnd]
  split <;> rfl

theorem width_simValLogicalOr (a b : SimValue) : (simValLogicalOr a b).width = 1 := by
  rw [simValLogicalOr]
  split <;> rfl

/-! ## Selection -/

theorem width_simValSlice (v : SimValue) {msb lsb : ℕ} (h : lsb ≤ msb) :
    (simValSlice v msb lsb).width = msb - lsb + 1 := by
  have hne : msb + 1 - lsb ≠ 0 := by omega
  rw [simValSlice, if_neg hne]
  change msb + 1 - lsb = _
  omega

theorem width_simValTernary (c : SimValue) {t f : SimValue} (ht : t.width = w) (hf : f.width = w) :
    (simValTernary c t f).width = w := by
  rw [simValTernary]
  split
  · exact ht
  · exact hf
  · change max t.width f.width = w
    rw [ht, hf, max_self]

theorem width_simValConcat {vals : List SimValue} (h : (vals.map SimValue.width).sum ≤ 256) :
    (simValConcat vals).width = (vals.map SimValue.width).sum := by
  have hfold : ∀ (vals : List SimValue) (acc : SimValue × ℕ),
      (vals.foldr concatStep acc).1.width = acc.1.width := by
    intro vals
    induction vals with
    | nil => exact fun _ => rfl
    | cons v rest ih =>
      intro acc
      rw [List.foldr_cons, concatStep]
      exact ih acc
  have hcap : simValWords * 64 = 256 := by decide
  rw [simValConcat]
  change ((vals.foldr concatStep _).1).width = _
  rw [hfold, hcap]
  exact min_eq_left h

theorem width_evalLiteral {lit : IRLiteral} (h : lit.width = w) (hw : 0 < w) (dflt : ℕ) :
    (evalLiteral lit dflt).width = w := by
  have hv : (if lit.isZ then simValAllZ lit.width
      else simValFromWords lit.words lit.width).width = w := by
    split
    · exact h
    · exact h
  rw [evalLiteral, if_neg (by omega), hv]

/-! ## Operators -/

theorem width_evalUnary {op : IRUnaryOp} (hw : 0 < w) (hlog : op = .logicalNot → w = 1)
    (v : SimValue) : (evalUnary op w v).width = w := by
  cases op with
  | not => exact widthOr_of_pos hw _
  | neg => exact widthOr_of_pos hw _
  | logicalNot => exact (width_simValLogicalNot v).trans (hlog rfl).symm

/-- The operators whose result is one bit. -/
def NodeBinaryOp.isBit : NodeBinaryOp → Bool
  | .logAnd | .logOr | .eq | .neq | .lt | .le | .gt | .ge => true
  | _ => false

theorem width_evalBinary {op : NodeBinaryOp} (hw : 0 < w) (hbit : op.isBit = true → w = 1)
    (l r : SimValue) : (evalBinary (irMapBinaryKind op) w l r).width = w := by
  cases op with
  | add | sub | mul | div | mod | shl | shr | ashr => exact width_fitWidth hw _
  | bitAnd | bitOr | bitXor => exact width_setWidth hw _
  | logAnd => exact (width_simValLogicalAnd l r).trans (hbit rfl).symm
  | logOr => exact (width_simValLogicalOr l r).trans (hbit rfl).symm
  | eq | neq | lt | le | gt | ge => exact (width_cmp _).trans (hbit rfl).symm

theorem width_evalMinMax (hw : 0 < w) {l r : SimValue} {choose : ℕ → SimValue}
    (h : (choose w).width = w) : (evalMinMax l r w choose).width = w := by
  rw [evalMinMax, widthOr_of_pos hw]
  split
  · rfl
  · exact h

theorem width_evalKnown (hw : 0 < w) {src : SimValue} {f : ℕ → SimValue}
    (h : (f w).width = w) : (evalKnown src w f).width = w := by
  rw [evalKnown, widthOr_of_pos hw]
  split
  · rfl
  · exact h

variable (m : IRModule) (s : CtxState)

theorem width_buildPair (op : PairBuiltin) (hw : 0 < w) (l r : IRExpr) :
    (simEvalExpr m s (buildPair op l r w)).width = w := by
  cases op with
  | uadd | sadd | umul | smul | usub | ssub =>
    simp only [buildPair, simEvalExpr, evalIntrinsic, evalBinary]
    exact width_fitWidth hw _
  | umin | umax =>
    simp only [buildPair, simEvalExpr, evalBinary]
    exact width_evalMinMax hw rfl
  | smin | smax =>
    simp only [buildPair, simEvalExpr, evalBinary]
    exact width_evalMinMax hw (width_simValueSignedChoice _ _ _)

variable {m s}

theorem width_single (op : SingleBuiltin) {src : SimValue} (hsrc : 0 < src.width)
    (hop : w = singleWidth op src.width) (hw : 0 < w) (idx val : SimValue) :
    (evalIntrinsic op.intrinsicOp 0 w src idx val).width = w := by
  cases op with
  | oh2b | prienc | lzc | popcount =>
    exact width_evalKnown hw (width_simValueFromIndex _)
  | abs => exact width_evalKnown hw (width_simValueAbs _)
  | reverse =>
    refine width_evalKnown hw ?_
    rw [width_foldl _ fun v i => width_simValSetBit v _ true]
    exact (widthOr_of_pos hsrc _).trans hop.symm
  | bswap =>
    have hsame : src.width = w := by
      rw [hop, singleWidth]
      rw [singleWidth] at hop
      split
      · rename_i h
        rw [if_pos h] at hop
        omega
      · rfl
    refine width_evalKnown hw ?_
    dsimp only
    rw [width_foldl _ fun v i => ?_]
    · exact (widthOr_of_pos hsrc _).trans hsame
    · split
      · exact width_simValSetBit v _ true
      · rfl
  | reduceAnd | reduceOr | reduceXor =>
    have hone : w = 1 := by
      rw [hop, singleWidth, if_neg (by omega)]
    simp only [SingleBuiltin.intrinsicOp, evalIntrinsic]
    rw [hone]
    split
    · rfl
    · first | exact width_cmp _ | rfl

theorem width_gbit (src idx val : SimValue) (ew : ℕ) :
    (evalIntrinsic .gbit ew 1 src idx val).width = 1 := by
  simp only [evalIntrinsic]
  split
  · rfl
  · split
    · rfl
    · split
      · rfl
      · rw [width_simValSlice _ (le_refl _), Nat.sub_self]

theorem width_sbit (src idx val : SimValue) (ew w : ℕ) :
    (evalIntrinsic .sbit ew w src idx val).width = src.width := by
  simp only [evalIntrinsic]
  split
  · rfl
  · split
    · rfl
    · split
      · rfl
      · rfl

theorem width_simValZext {v : SimValue} (hw : v.width ≤ w) : (simValZext v w).width = w := by
  rw [simValZext]
  split
  · omega
  · rfl

theorem width_simValShl (a b : SimValue) : (simValShl a b).width = a.width := by
  rw [simValShl]
  split
  · rfl
  · split
    · rfl
    · split
      · rfl
      · rfl

theorem width_insertSlice {src val : SimValue} {lo ew : ℕ} (hsrc : 0 < src.width)
    (h : lo + ew ≤ src.width) : (insertSlice src val lo ew).width = src.width := by
  have hones : (simValZext (simValOnes ew) src.width).width = src.width :=
    width_simValZext (le_trans (Nat.le_add_left _ _) h)
  have hslice : (simValZext (if ew = 0 then simValZero 1 else simValSlice val (ew - 1) 0)
      src.width).width = src.width := by
    refine width_simValZext ?_
    split
    · exact hsrc
    · rw [width_simValSlice _ (Nat.zero_le _)]
      omega
  change max (max src.width (simValShl (simValZext (simValOnes ew) src.width) _).width)
    (simValShl (simValZext _ src.width) _).width = src.width
  rw [width_simValShl, width_simValShl, hones, hslice, max_self, max_self]

theorem width_sslice {src : SimValue} (hsrc : 0 < src.width) (idx val : SimValue) (ew w : ℕ) :
    (evalIntrinsic .sslice ew w src idx val).width = src.width := by
  simp only [evalIntrinsic]
  split
  · rfl
  · split
    · rfl
    · split
      · rfl
      · exact width_insertSlice hsrc (by omega)

theorem width_b2oh (src idx val : SimValue) (ew : ℕ) (hw : 0 < w) :
    (evalIntrinsic .b2oh ew w src idx val).width = w := by
  refine width_evalKnown hw ?_
  split
  · split
    · exact width_simValSetBit _ _ _
    · rfl
  · rfl

end

end JzHdl

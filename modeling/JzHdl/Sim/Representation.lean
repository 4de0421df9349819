import JzHdl.Sim.ExecRun
import JzHdl.Sim.MaskedEval
import JzHdl.Sim.PortMaps

/-! # The representation of signals

Every value stored for a signal has the declared width and nothing above it. A
statement whose assignments are correct in their widths keeps it so, in both
modes of execution and over the commit, and a slice write touches its bits only.
-/

namespace JzHdl

open BitWords

/-! ## Widths of expressions -/

def binaryOpWidth (op : IRBinaryOp) (width l r : ℕ) : ℕ :=
  match op with
  | .eq | .neq | .lt | .gt | .lte | .gte | .logicalAnd | .logicalOr => 1
  | .shl | .shr | .ashr => widthOr width l
  | .umin | .umax | .smin | .smax => widthOr width 1
  | _ => widthOr width (max l r)

def intrinsicWidth (op : IRIntrinsicOp) (ew width src idx : ℕ) : ℕ :=
  match op with
  | .uadd | .sadd | .umul | .smul => widthOr width (max src idx)
  | .gbit | .reduceAnd | .reduceOr | .reduceXor => 1
  | .sbit => src
  | .sslice => max 1 src
  | .gslice => widthOr ew (widthOr width 1)
  | .bswap => max (widthOr width 1) (max 8 src)
  | .reverse => max (widthOr width 1) (max 1 src)
  | .oh2b | .b2oh | .prienc | .lzc | .abs | .popcount => widthOr width 1

section

variable (m : IRModule)

mutual

/-- The width of an expression, from the declarations of the module. -/
def exprWidth : IRExpr → ℕ
  | .null => 1
  | .literal lit width => if lit.width = 0 then widthOr width 1 else lit.width
  | .signalRef signalId width =>
      match m.signalOf signalId with
      | none => widthOr width 1
      | some sig => sig.width
  | .unary .logicalNot _ _ => 1
  | .unary _ operand width => widthOr width (exprWidth operand)
  | .binary op left right width => binaryOpWidth op width (exprWidth left) (exprWidth right)
  | .ternary _ trueVal falseVal => max (exprWidth trueVal) (exprWidth falseVal)
  | .concat operands => min ((exprWidths operands).take 64).sum 256
  | .slice signalId msb lsb width =>
      match m.signalOf signalId with
      | none => widthOr width 1
      | some _ => max 1 (msb + 1 - lsb)
  | .sliceExpr _ msb lsb => max 1 (msb + 1 - lsb)
  | .intrinsic op source index _ elementWidth width =>
      intrinsicWidth op elementWidth width (exprWidth source) (exprWidth index)
  | .memRead memoryName _ width =>
      match m.memOf memoryName with
      | none => widthOr width 1
      | some (_, mem) => mem.wordWidth

def exprWidths : List IRExpr → List ℕ
  | [] => []
  | e :: rest => exprWidth e :: exprWidths rest

end

/-- A bitwise node whose result is passed on is not narrower than its operands. -/
def Sized : IRExpr → Prop
  | .unary op operand width =>
      op.SetsWidth → exprWidth m operand ≤ widthOr width (exprWidth m operand)
  | .binary op left right width => op.SetsWidth →
      max (exprWidth m left) (exprWidth m right) ≤
        widthOr width (max (exprWidth m left) (exprWidth m right))
  | .ternary _ trueVal falseVal => Sized trueVal ∧ Sized falseVal
  | .intrinsic _ source _ _ _ _ => Sized source
  | _ => True

/-- An assignment whose widths are correct: the extending forms extend, and a slice lies inside
its target. -/
def AssignOk (a : IRAssignment) : Prop :=
  ∀ sig ∈ m.signalOf a.lhsSignalId, Sized m a.rhs ∧
    (a.kind.isZext = true ∨ a.kind.isSext = true → exprWidth m a.rhs ≤ sig.width) ∧
    (a.isSliced = true → a.lhsLsb ≤ a.lhsMsb ∧ a.lhsMsb < sig.width)

/-- A correct assignment, or a write whose word fits the memory. -/
def LeafOk : IRStmt → Prop
  | .assignment assign => AssignOk m assign
  | .memWrite memoryName _ data =>
      Sized m data ∧ ∀ p ∈ m.memOf memoryName, exprWidth m data ≤ p.2.wordWidth
  | _ => True

def StmtSized (stmt : IRStmt) : Prop := ∀ leaf ∈ stmtLeaves stmt, LeafOk m leaf

end

/-- Current values, staged values and memory words within their declared widths. -/
structure CtxState.Represented (m : IRModule) (s : CtxState) : Prop where

  current : ∀ i sig, m.signals[i]? = some sig →
    (s.signals i).current.width = sig.width ∧ (s.signals i).current.Masked

  next : ∀ i sig, m.signals[i]? = some sig → (s.signals i).hasPending = true →
    (s.signals i).next.width = sig.width ∧ (s.signals i).next.Masked

  cells : ∀ name i mem, m.memOf name = some (i, mem) → ∀ a < mem.depth,
    (s.cells i a).width ≤ mem.wordWidth ∧ (s.cells i a).Masked

section

variable {m : IRModule} {s : CtxState}

theorem signalOf_of_sigIndex {id i : ℕ} (h : m.sigIndex id = some i) :
    ∃ sig, m.signals[i]? = some sig ∧ m.signalOf id = some sig := by
  obtain ⟨sig, hsig, -⟩ := IRModule.sigIndex_spec h
  exact ⟨sig, hsig, by rw [IRModule.signalOf, h, Option.bind_some, hsig]⟩

theorem signalOf_eq_none {id : ℕ} (h : m.sigIndex id = none) : m.signalOf id = none := by
  rw [IRModule.signalOf, h, Option.bind_none]

theorem memOf_inj {name name' : String} {i : ℕ} {mem mem' : IRMemory}
    (h : m.memOf name = some (i, mem)) (h' : m.memOf name' = some (i, mem')) : mem = mem' := by
  have hget : ∀ {name mem}, m.memOf name = some (i, mem) → m.memories[i]? = some mem := by
    intro name mem h
    rw [IRModule.memOf, Option.bind_eq_some_iff] at h
    obtain ⟨j, -, hj⟩ := h
    rw [Option.map_eq_some_iff] at hj
    obtain ⟨mem0, hmem, heq⟩ := hj
    cases heq
    exact hmem
  exact Option.some.inj ((hget h).symm.trans (hget h'))

theorem simValueToMemIndex_lt {v : SimValue} {depth a : ℕ} (h : simValueToMemIndex v depth = some a) :
    a < depth := by
  rw [simValueToMemIndex] at h
  split at h
  · cases h
  · split at h
    · cases h
    · obtain rfl := Option.some.inj h
      omega

/-! ## Evaluated values -/

theorem widthOr_le {w d d' : ℕ} (h : d ≤ d') : widthOr w d ≤ widthOr w d' := by
  rw [widthOr, widthOr]
  split
  · exact le_rfl
  · exact h

theorem width_simValZext_eq (v : SimValue) (w : ℕ) : (simValZext v w).width = max v.width w := by
  rw [simValZext]
  split
  · rename_i h
    exact (max_eq_left h).symm
  · rename_i h
    exact (max_eq_right (not_le.mp h).le).symm

theorem width_insertSlice_le {src val : SimValue} {lo ew : ℕ} (h : lo + ew ≤ src.width) :
    (insertSlice src val lo ew).width ≤ max 1 src.width := by
  have hslice : (if ew = 0 then simValZero 1 else simValSlice val (ew - 1) 0).width ≤
      max 1 src.width := by
    split
    · exact le_max_left _ _
    · rw [width_simValSlice _ (Nat.zero_le _)]
      omega
  change max (max src.width (simValShl (simValZext (simValOnes ew) src.width) _).width)
    (simValShl (simValZext _ src.width) _).width ≤ max 1 src.width
  rw [width_simValShl, width_simValShl, width_simValZext_eq, width_simValZext_eq]
  have hones : (simValOnes ew).width = ew := rfl
  omega

theorem width_simValConcat_eq (vals : List SimValue) :
    (simValConcat vals).width = min (vals.map SimValue.width).sum 256 :=
  (concat_run _ vals).2.1

theorem width_simValSlice_le (v : SimValue) (msb lsb : ℕ) :
    (simValSlice v msb lsb).width ≤ max 1 (msb + 1 - lsb) := by
  by_cases h : lsb ≤ msb
  · rw [width_simValSlice v h]
    omega
  · rw [simValSlice, if_pos (by omega)]
    exact le_max_left _ _

theorem width_evalBinary_le (op : IRBinaryOp) (w : ℕ) {l r : SimValue} {lw rw : ℕ}
    (hl : l.width ≤ lw) (hr : r.width ≤ rw) :
    (evalBinary op w l r).width ≤ binaryOpWidth op w lw rw := by
  have hmax : max l.width r.width ≤ max lw rw := max_le_max hl hr
  cases op with
  | add => exact widthOr_le (by rwa [width_simValAdd])
  | sub | usub | ssub => exact widthOr_le (by rwa [width_simValSub])
  | mul => exact widthOr_le (by rwa [width_simValMul])
  | div | mod => exact widthOr_le ((width_simValDivmod _ l r).le.trans hmax)
  | shl => exact widthOr_le (by rwa [width_simValShl])
  | shr => exact widthOr_le (by rwa [width_simValShr])
  | ashr => exact widthOr_le (by rwa [width_simValAshr])
  | and | or | xor => exact widthOr_le hmax
  | eq | neq | lt | gt | lte | gte => exact (width_cmp _).le
  | logicalAnd => exact (width_simValLogicalAnd l r).le
  | logicalOr => exact (width_simValLogicalOr l r).le
  | umin | umax | smin | smax =>
    simp only [evalBinary, evalMinMax, binaryOpWidth]
    exact le_of_eq (width_ite rfl rfl)

theorem widthOr_pos_or (ew w : ℕ) : 0 < widthOr ew (widthOr w 1) := by
  have hone : 0 < widthOr w 1 := by
    rcases Nat.eq_zero_or_pos w with rfl | h
    · exact Nat.one_pos
    · rwa [widthOr_of_pos h]
  rcases Nat.eq_zero_or_pos ew with rfl | h
  · exact hone
  · rwa [widthOr_of_pos h]

/-- A field has the width of its elements, or else the one of its node. -/
theorem width_gslice (ew w : ℕ) (src idx val : SimValue) :
    (evalIntrinsic .gslice ew w src idx val).width = widthOr ew (widthOr w 1) := by
  have hew : (if ew = 0 then widthOr w 1 else ew) = widthOr ew (widthOr w 1) := by
    rcases Nat.eq_zero_or_pos ew with h | h
    · rw [if_pos h, h]
      rfl
    · rw [if_neg h.ne', widthOr_of_pos h]
  have hpos := widthOr_pos_or ew w
  simp only [evalIntrinsic]
  rw [hew]
  refine width_ite rfl ?_
  split
  · rfl
  · refine width_ite rfl ?_
    rw [width_simValSlice _ (by omega)]
    omega

theorem width_evalIntrinsic_le (op : IRIntrinsicOp) (ew w : ℕ) {src idx : SimValue} {sw iw : ℕ}
    (hs : src.width ≤ sw) (hi : idx.width ≤ iw) (val : SimValue) :
    (evalIntrinsic op ew w src idx val).width ≤ intrinsicWidth op ew w sw iw := by
  have hmax : max src.width idx.width ≤ max sw iw := max_le_max hs hi
  cases op with
  | uadd | sadd => exact widthOr_le (by rwa [width_simValAdd])
  | umul | smul => exact widthOr_le (by rwa [width_simValMul])
  | gbit => exact (width_gbit src idx val ew).le
  | sbit => exact (width_sbit src idx val ew w).le.trans hs
  | gslice => exact (width_gslice ew w src idx val).le
  | sslice =>
    simp only [evalIntrinsic, intrinsicWidth]
    have hsrc : src.width ≤ max 1 sw := by omega
    split
    · exact hsrc
    · split
      · exact hsrc
      · split
        · exact hsrc
        · exact (width_insertSlice_le (by omega)).trans (by omega)
  | oh2b | prienc | lzc | popcount =>
    simp only [evalIntrinsic, evalKnown, intrinsicWidth]
    exact le_of_eq (width_ite rfl (width_simValueFromIndex _))
  | b2oh =>
    simp only [evalIntrinsic, evalKnown, intrinsicWidth]
    refine le_of_eq (width_ite rfl ?_)
    split
    · exact width_ite (width_simValSetBit _ _ _) rfl
    · rfl
  | abs =>
    simp only [evalIntrinsic, evalKnown, intrinsicWidth]
    exact le_of_eq (width_ite rfl (width_simValueAbs _))
  | reverse =>
    simp only [evalIntrinsic, intrinsicWidth, evalKnown]
    split
    · exact le_max_left _ _
    · rw [width_foldl _ fun v i => width_simValSetBit v _ true]
      refine le_trans ?_ (le_max_right _ _)
      change widthOr src.width 1 ≤ _
      rw [widthOr]
      split <;> omega
  | bswap =>
    simp only [evalIntrinsic, intrinsicWidth, evalKnown]
    split
    · exact le_max_left _ _
    · rw [width_foldl _ fun v i => width_ite (width_simValSetBit v _ true) rfl]
      refine le_trans ?_ (le_max_right _ _)
      change widthOr src.width 8 ≤ _
      rw [widthOr]
      split <;> omega
  | reduceAnd | reduceOr =>
    simp only [evalIntrinsic, intrinsicWidth]
    exact le_of_eq (width_ite rfl (width_cmp _))
  | reduceXor =>
    simp only [evalIntrinsic, intrinsicWidth]
    exact le_of_eq (width_ite rfl rfl)

mutual

theorem width_simEvalExpr_le (hs : s.Represented m) : ∀ e : IRExpr,
    (simEvalExpr m s e).width ≤ exprWidth m e
  | .null => le_rfl
  | .literal lit w => by
      have hv : (if lit.isZ then simValAllZ lit.width
          else simValFromWords lit.words lit.width).width = lit.width := width_ite rfl rfl
      rw [simEvalExpr, evalLiteral, exprWidth]
      by_cases h : lit.width = 0
      · rw [if_pos (hv.trans h), if_pos h]
      · rw [if_neg (by rwa [hv]), if_neg h, hv]
  | .signalRef id w => by
      rw [simEvalExpr, evalSignal, exprWidth]
      cases hi : m.sigIndex id with
      | none => rw [signalOf_eq_none hi]; rfl
      | some i =>
        obtain ⟨sig, hsig, hof⟩ := signalOf_of_sigIndex hi
        rw [hof]
        exact (hs.current i sig hsig).1.le
  | .unary op e w => by
      have ih := width_simEvalExpr_le hs e
      cases op with
      | not => exact widthOr_le ih
      | neg => exact widthOr_le ((width_simValNeg _).le.trans ih)
      | logicalNot => exact (width_simValLogicalNot _).le
  | .binary op l r w => by
      rw [simEvalExpr, exprWidth]
      exact width_evalBinary_le op w (width_simEvalExpr_le hs l) (width_simEvalExpr_le hs r)
  | .ternary c t f => by
      have ht := width_simEvalExpr_le hs t
      have hf := width_simEvalExpr_le hs f
      rw [simEvalExpr, exprWidth, simValTernary]
      split
      · exact ht.trans (le_max_left _ _)
      · exact hf.trans (le_max_right _ _)
      · exact max_le_max ht hf
  | .concat es => by
      rw [simEvalExpr, exprWidth, width_simValConcat_eq]
      exact min_le_min_right _ (width_simEvalExprs_le hs es 64)
  | .slice id msb lsb w => by
      rw [simEvalExpr, exprWidth]
      cases hi : m.sigIndex id with
      | none => rw [signalOf_eq_none hi]; rfl
      | some i =>
        obtain ⟨sig, -, hof⟩ := signalOf_of_sigIndex hi
        rw [hof]
        exact width_simValSlice_le _ msb lsb
  | .sliceExpr e msb lsb => width_simValSlice_le _ msb lsb
  | .intrinsic op src idx val ew w => by
      rw [simEvalExpr, exprWidth]
      exact width_evalIntrinsic_le op ew w (width_simEvalExpr_le hs src)
        (width_simEvalExpr_le hs idx) _
  | .memRead name addr w => by
      rw [simEvalExpr, evalMemRead, exprWidth]
      cases hm : m.memOf name with
      | none => rfl
      | some p =>
        obtain ⟨i, mem⟩ := p
        simp only
        split
        · rfl
        · cases ha : simValueToMemIndex (simEvalExpr m s addr) mem.depth with
          | none => rfl
          | some a => exact (hs.cells name i mem hm a (simValueToMemIndex_lt ha)).1

theorem width_simEvalExprs_le (hs : s.Represented m) : ∀ (es : List IRExpr) (n : ℕ),
    (((simEvalExprs m s es).take n).map SimValue.width).sum ≤ ((exprWidths m es).take n).sum
  | [], n => by simp [simEvalExprs]
  | e :: rest, 0 => by simp
  | e :: rest, n + 1 => by
      simp only [simEvalExprs, exprWidths, List.take_succ_cons, List.map_cons, List.sum_cons]
      exact Nat.add_le_add (width_simEvalExpr_le hs e) (width_simEvalExprs_le hs rest n)

end

theorem widthOr_of_le {w d d' : ℕ} (hd : d ≤ d') (h : d' ≤ widthOr w d') : d ≤ widthOr w d := by
  rw [widthOr] at h ⊢
  split at h
  · rename_i hw
    rw [if_pos hw]
    omega
  · rename_i hw
    rw [if_neg hw]

/-- What a sized expression evaluates to has nothing above its width. -/
theorem masked_simEvalExpr (hs : s.Represented m) : ∀ e : IRExpr, Sized m e →
    (simEvalExpr m s e).Masked
  | .null, _ => masked_simValAllX 1
  | .literal lit w, _ => masked_evalLiteral lit w
  | .signalRef id w, _ => by
      rw [simEvalExpr, evalSignal]
      cases hi : m.sigIndex id with
      | none => exact masked_simValAllX _
      | some i =>
        obtain ⟨sig, hsig, -⟩ := signalOf_of_sigIndex hi
        exact (hs.current i sig hsig).2
  | .unary op e w, h =>
      masked_evalUnary _ fun hop => widthOr_of_le (width_simEvalExpr_le hs e) (h hop)
  | .binary op l r w, h =>
      masked_evalBinary _ _ fun hop => widthOr_of_le
        (max_le_max (width_simEvalExpr_le hs l) (width_simEvalExpr_le hs r)) (h hop)
  | .ternary c t f, h =>
      masked_simValTernary _ (masked_simEvalExpr hs t h.1) (masked_simEvalExpr hs f h.2)
  | .concat es, _ => masked_simValConcat _
  | .slice id msb lsb w, _ => by
      rw [simEvalExpr]
      cases m.sigIndex id with
      | none => exact masked_simValAllX _
      | some i => exact masked_simValSlice _ msb lsb
  | .sliceExpr e msb lsb, _ => masked_simValSlice _ msb lsb
  | .intrinsic op src idx val ew w, h =>
      masked_evalIntrinsic op ew w (masked_simEvalExpr hs src h) _ _
  | .memRead name addr w, _ => by
      rw [simEvalExpr, evalMemRead]
      cases hm : m.memOf name with
      | none => exact masked_simValAllX _
      | some p =>
        obtain ⟨i, mem⟩ := p
        simp only
        split
        · exact masked_simValAllX _
        · cases ha : simValueToMemIndex (simEvalExpr m s addr) mem.depth with
          | none => exact masked_simValAllX _
          | some a => exact (hs.cells name i mem hm a (simValueToMemIndex_lt ha)).2

/-! ## Writes -/

theorem extendRhs_represented {kind : IRAssignmentKind} {v : SimValue} {w : ℕ} (hv : v.Masked)
    (hw : kind.isZext = true ∨ kind.isSext = true → v.width ≤ w) :
    (extendRhs kind v w).width = w ∧ (extendRhs kind v w).Masked := by
  rw [extendRhs]
  split
  · rename_i hz
    exact ⟨width_simValZext (hw (.inl hz)), masked_simValZext hv w⟩
  · split
    · rename_i hx
      refine ⟨?_, masked_simValSext hv w⟩
      rcases (hw (.inr hx)).lt_or_eq with hlt | rfl
      · rw [simValSext, if_neg (by omega)]
      · rw [simValSext, if_pos le_rfl]
    · split
      · exact ⟨by assumption, hv⟩
      · exact ⟨rfl, masked_simValMask _⟩

theorem masked_writeSlice {t r : SimValue} {msb lsb : ℕ} (ht : t.Masked) (hmsb : msb < t.width) :
    (writeSlice t r msb lsb).Masked := by
  refine SimValue.masked_of_bits fun k hk => ?_
  rw [writeSlice_width] at hk
  obtain ⟨h1, h2, h3⟩ := ht.bits hk
  have hpart := writeSlice_part t r msb lsb (.bit k)
  simp only at hpart
  rw [if_neg (by omega)] at hpart
  simp only [SimValue.part, Sum.inl.injEq, Prod.mk.injEq] at hpart
  exact ⟨hpart.1.trans h1, hpart.2.1.trans h2, hpart.2.2.trans h3⟩

namespace CtxState.Represented

theorem raiseError (h : s.Represented m) (b : Bool) : (s.raiseError b).Represented m :=
  ⟨h.current, h.next, h.cells⟩

theorem markDirty (h : s.Represented m) (i : ℕ) : (s.markDirty i).Represented m :=
  ⟨h.current, h.next, h.cells⟩

theorem setEntry (h : s.Represented m) {i : ℕ} {e : SimSignalEntry}
    (hcur : ∀ sig, m.signals[i]? = some sig → e.current.width = sig.width ∧ e.current.Masked)
    (hnext : ∀ sig, m.signals[i]? = some sig → e.hasPending = true →
      e.next.width = sig.width ∧ e.next.Masked) : (s.setEntry i e).Represented m where
  current j sig hj := by
    rw [CtxState.setEntry]
    dsimp only
    split
    · rename_i hji
      exact hcur sig (hji ▸ hj)
    · exact h.current j sig hj
  next j sig hj := by
    rw [CtxState.setEntry]
    dsimp only
    split
    · rename_i hji
      exact hnext sig (hji ▸ hj)
    · exact h.next j sig hj
  cells := h.cells

theorem setCurrent (h : s.Represented m) {i : ℕ} {v : SimValue}
    (hv : ∀ sig, m.signals[i]? = some sig → v.width = sig.width ∧ v.Masked) :
    (s.setCurrent i v).Represented m :=
  h.setEntry hv (h.next i)

theorem setCell (h : s.Represented m) {name : String} {i a : ℕ} {mem : IRMemory} {v : SimValue}
    (hname : m.memOf name = some (i, mem)) (hw : v.width ≤ mem.wordWidth) (hv : v.Masked) :
    (s.setCell i a v).Represented m where
  current := h.current
  next := h.next
  cells name' j mem' hname' b hb := by
    rw [CtxState.setCell]
    dsimp only
    split
    · rename_i heq
      have hmem : mem = mem' := memOf_inj hname (heq.1 ▸ hname')
      exact ⟨hmem ▸ hw, hv⟩
    · exact h.cells name' j mem' hname' b hb

/-- The staged value of a signal, or the current one where nothing is staged. -/
theorem pending (h : s.Represented m) {i : ℕ} {sig : IRSignal} (hsig : m.signals[i]? = some sig) :
    (if (s.signals i).hasPending then (s.signals i).next else (s.signals i).current).width =
        sig.width ∧
      (if (s.signals i).hasPending then (s.signals i).next else (s.signals i).current).Masked := by
  split
  · rename_i hp
    exact h.next i sig hsig hp
  · exact h.current i sig hsig

end CtxState.Represented

/-! ## Executions -/

/-- The value that an assignment gives its target. -/
def assignedValue (m : IRModule) (s : CtxState) (a : IRAssignment) (i : ℕ) : SimValue :=
  extendRhs a.kind (simEvalExpr m s a.rhs) (s.signals i).current.width

theorem AssignOk.assignedValue {a : IRAssignment} {i : ℕ} {sig : IRSignal} (hok : AssignOk m a)
    (hs : s.Represented m) (hi : m.sigIndex a.lhsSignalId = some i)
    (hsig : m.signals[i]? = some sig) :
    (assignedValue m s a i).width = sig.width ∧ (assignedValue m s a i).Masked := by
  have hof : sig ∈ m.signalOf a.lhsSignalId := by
    rw [IRModule.signalOf, hi, Option.bind_some, hsig]
    exact rfl
  obtain ⟨hsized, hext, -⟩ := hok sig hof
  rw [JzHdl.assignedValue, (hs.current i sig hsig).1]
  exact extendRhs_represented (masked_simEvalExpr hs _ hsized) fun hk =>
    (width_simEvalExpr_le hs _).trans (hext hk)

theorem AssignOk.slice {a : IRAssignment} {i : ℕ} {sig : IRSignal} (hok : AssignOk m a)
    (hi : m.sigIndex a.lhsSignalId = some i) (hsig : m.signals[i]? = some sig)
    (hsl : a.isSliced = true) : a.lhsLsb ≤ a.lhsMsb ∧ a.lhsMsb < sig.width := by
  have hof : sig ∈ m.signalOf a.lhsSignalId := by
    rw [IRModule.signalOf, hi, Option.bind_some, hsig]
    exact rfl
  exact (hok sig hof).2.2 hsl

/-- A slice write keeps the representation of the value that it starts from. -/
theorem writeSlice_represented {t r : SimValue} {msb lsb w : ℕ} (ht : t.width = w ∧ t.Masked)
    (hmsb : msb < w) : (writeSlice t r msb lsb).width = w ∧ (writeSlice t r msb lsb).Masked :=
  ⟨(writeSlice_width t r msb lsb).trans ht.1, masked_writeSlice ht.2 (ht.1 ▸ hmsb)⟩

theorem applyAssign_represented {a : IRAssignment} (hok : AssignOk m a) (isNba : Bool)
    (hs : s.Represented m) : (applyAssign m isNba s a).Represented m := by
  rw [applyAssign]
  cases hi : m.sigIndex a.lhsSignalId with
  | none => exact hs
  | some i =>
    have hv := fun sig (hsig : m.signals[i]? = some sig) => hok.assignedValue hs hi hsig
    have hsl := fun sig (hsig : m.signals[i]? = some sig) => hok.slice hi hsig
    have hs' := hs.raiseError (simEvalRaises m s a.rhs)
    cases isNba with
    | true =>
      refine hs'.setEntry (hs.current i) fun sig hsig _ => ?_
      simp only [stageWrite]
      split
      · rename_i hslice
        exact writeSlice_represented (hs.pending hsig) (hsl sig hsig hslice).2
      · exact hv sig hsig
    | false =>
      simp only [Bool.false_eq_true, if_false, writeNow]
      split
      · rename_i hslice
        have hnew := hs'.setCurrent fun sig hsig => @writeSlice_represented
          _ (assignedValue m s a i) _ a.lhsLsb _ (hs.current i sig hsig) (hsl sig hsig hslice).2
        split
        · exact hnew
        · exact hnew.markDirty i
      · split
        · exact hs'
        · exact (hs'.setCurrent hv).markDirty i

theorem execMemWrite_represented {name : String} {address data : IRExpr}
    (hok : LeafOk m (.memWrite name address data)) (hs : s.Represented m) :
    (execMemWrite m s name address data).Represented m := by
  rw [execMemWrite]
  cases hm : m.memOf name with
  | none => exact hs
  | some p =>
    obtain ⟨i, mem⟩ := p
    have hs' := (hs.raiseError (simEvalRaises m s address)).raiseError
      (simEvalRaises m (afterEval m s address) data)
    simp only
    split
    · exact hs'
    · exact hs'.setCell hm ((width_simEvalExpr_le hs data).trans (hok.2 _ hm))
        (masked_simEvalExpr hs data hok.1)

theorem represented_runRelation (m : IRModule) :
    RunRelation fun s t => s.Represented m → t.Represented m where
  refl _ := id
  trans h h' hs := h' (h hs)
  raiseError _ b hs := hs.raiseError b

theorem simExecStmt_represented {stmt : IRStmt} (hok : StmtSized m stmt) (isNba : Bool)
    (hs : s.Represented m) : (simExecStmt m isNba stmt s).Represented m := by
  refine exec_run (represented_runRelation m) stmt s (fun leaf hleaf => ?_) hs
  have hl := hok leaf hleaf
  cases leaf with
  | assignment a => exact fun _ => applyAssign_represented hl isNba
  | memWrite name address data => exact fun _ => execMemWrite_represented hl
  | null | ifStmt | select | block => trivial

theorem simCtxApplyNba_represented (hs : s.Represented m) : (simCtxApplyNba m s).Represented m where
  current i sig hsig := by
    rw [simCtxApplyNba_signals, if_pos (List.getElem?_eq_some_iff.mp hsig).1, SimSignalEntry.commit]
    split
    · rename_i hp
      exact hs.next i sig hsig hp
    · exact hs.current i sig hsig
  next i sig hsig hp := by
    rw [simCtxApplyNba_signals, if_pos (List.getElem?_eq_some_iff.mp hsig).1,
      SimSignalEntry.commit] at hp
    split at hp
    · cases hp
    · rename_i hnp
      exact absurd hp hnp
  cells := by
    rw [simCtxApplyNba_cells]
    exact hs.cells

/-- Statements executed one after another, each in its mode and followed by the commit. -/
def runEdges (m : IRModule) (edges : List (Bool × IRStmt)) (s : CtxState) : CtxState :=
  edges.foldl (fun t edge => simCtxApplyNba m (simExecStmt m edge.1 edge.2 t)) s

theorem runEdges_represented : ∀ (edges : List (Bool × IRStmt)) {s : CtxState},
    (∀ edge ∈ edges, StmtSized m edge.2) → s.Represented m → (runEdges m edges s).Represented m
  | [], _, _, hs => hs
  | edge :: rest, _, hok, hs => by
      obtain ⟨hedge, hrest⟩ := List.forall_mem_cons.mp hok
      exact runEdges_represented rest hrest
        (simCtxApplyNba_represented (simExecStmt_represented hedge edge.1 hs))

/-! ## Slices -/

/-- The value that the next commit makes current. -/
def pendingValue (e : SimSignalEntry) : SimValue := if e.hasPending then e.next else e.current

theorem commit_current (e : SimSignalEntry) : e.commit.current = pendingValue e := by
  rw [SimSignalEntry.commit, pendingValue]
  split <;> rfl

/-- `v` replaces the bits `lsb` to `msb` of `old`, and nothing else is changed. -/
def SliceReplaced (v old new : SimValue) (msb lsb : ℕ) : Prop :=
  new.width = old.width ∧ ∀ k, new.part (.bit k) =
    if lsb ≤ k ∧ k ≤ msb then v.part (.bit (k - lsb)) else old.part (.bit k)

theorem writeSlice_replaces {t r : SimValue} {msb lsb : ℕ} (hmsb : msb < 256) :
    SliceReplaced r t (writeSlice t r msb lsb) msb lsb := by
  refine ⟨writeSlice_width t r msb lsb, fun k => ?_⟩
  rw [writeSlice_part]
  dsimp only
  congr 1
  simp only [eq_iff_iff]
  omega

/-- A slice write in either mode: the bits of the slice, in the current or in the staged value. -/
def SliceWritten (m : IRModule) (s : CtxState) (a : IRAssignment) (i : ℕ) : Prop :=
  let v := assignedValue m s a i
  SliceReplaced v (s.signals i).current ((applyAssign m false s a).signals i).current
      a.lhsMsb a.lhsLsb ∧
    ((applyAssign m true s a).signals i).hasPending = true ∧
    SliceReplaced v (pendingValue (s.signals i)) ((applyAssign m true s a).signals i).next
      a.lhsMsb a.lhsLsb ∧
    ((applyAssign m true s a).signals i).current = (s.signals i).current

theorem writeNow_slice {a : IRAssignment} (hsl : a.isSliced = true) (s : CtxState) (i : ℕ)
    (v : SimValue) : ((writeNow a s i v).signals i).current =
      writeSlice (s.signals i).current v a.lhsMsb a.lhsLsb := by
  simp only [writeNow, hsl, if_true]
  split
  · rw [setCurrent_current, if_pos rfl]
  · change ((s.setCurrent i _).signals i).current = _
    rw [setCurrent_current, if_pos rfl]

theorem sliceWritten {a : IRAssignment} {i : ℕ} (hmsb : a.lhsMsb < 256)
    (hi : m.sigIndex a.lhsSignalId = some i) (hsl : a.isSliced = true) (s : CtxState) :
    SliceWritten m s a i := by
  have hnow : applyAssign m false s a =
      writeNow a (s.raiseError (simEvalRaises m s a.rhs)) i (assignedValue m s a i) := by
    rw [applyAssign, hi]
    rfl
  have hstage : (applyAssign m true s a).signals i =
      stageWrite a (s.signals i) (assignedValue m s a i) := by
    rw [applyAssign, hi]
    simp only [if_true, CtxState.setEntry]
    rfl
  refine ⟨?_, ?_, ?_, ?_⟩
  · rw [hnow, writeNow_slice hsl]
    exact writeSlice_replaces hmsb
  · rw [hstage]
    rfl
  · rw [hstage]
    simp only [stageWrite, hsl, if_true]
    exact writeSlice_replaces hmsb
  · rw [hstage]
    rfl

/-- Staged execution changes the pending bits of its targets only. -/
def StagesInside (m : IRModule) (as : List IRAssignment) (s t : CtxState) : Prop :=
  ∀ i p, (∀ a ∈ as, ∀ τ ∈ assignTargets m a, ¬ τ.Covers i p) →
    (pendingValue (t.signals i)).part p = (pendingValue (s.signals i)).part p

theorem stagesInside_runRelation (m : IRModule) (as : List IRAssignment) :
    RunRelation (StagesInside m as) where
  refl _ _ _ _ := rfl
  trans h h' i p hp := (h' i p hp).trans (h i p hp)
  raiseError _ _ _ _ _ := rfl

theorem applyAssign_stagesInside {as : List IRAssignment} {a : IRAssignment} (ha : a ∈ as)
    (s : CtxState) : StagesInside m as s (applyAssign m true s a) := by
  intro j p hp
  have hout := hp a ha
  rw [assignTargets] at hout
  rw [applyAssign]
  cases hi : m.sigIndex a.lhsSignalId with
  | none => rfl
  | some i =>
    rw [hi] at hout
    replace hout := hout _ (List.mem_singleton.mpr rfl)
    simp only [if_true, CtxState.setEntry]
    split
    · rename_i hji
      subst hji
      rw [pendingValue, if_pos (show (stageWrite a (s.signals j) _).hasPending = true from rfl)]
      simp only [stageWrite]
      split
      · rename_i hsl
        simp only [Target.Covers, hsl, if_true, true_and] at hout
        rw [writeSlice_part]
        cases p with
        | width => rfl
        | bit k =>
          simp only at hout ⊢
          rw [if_neg (by omega)]
          rfl
      · rename_i hsl
        simp only [Target.Covers, hsl, Bool.false_eq_true, if_false, and_self,
          not_true_eq_false] at hout
    · rfl

/-- The assignments of a list of leaves. -/
def leafAssigns (leaves : List IRStmt) : List IRAssignment :=
  leaves.filterMap fun
    | .assignment a => some a
    | _ => none

theorem execStmts_stagesInside (stmts : List IRStmt) (s : CtxState) :
    StagesInside m (leafAssigns (stmtsLeaves stmts)) s (execStmts m true stmts s) := by
  refine execStmts_run (stagesInside_runRelation m _) stmts s fun leaf hleaf => ?_
  cases leaf with
  | assignment a => exact applyAssign_stagesInside (List.mem_filterMap.mpr ⟨_, hleaf, rfl⟩)
  | memWrite name address data =>
    intro t i p _
    have hsig : (execMemWrite m t name address data).signals = t.signals := by
      rw [execMemWrite]
      split
      · rfl
      · dsimp only
        split <;> rfl
    rw [hsig]
  | null | ifStmt | select | block => trivial

/-- A staged slice survives every later statement that does not write its bits. -/
theorem staged_slice_kept {a : IRAssignment} {i : ℕ} (hmsb : a.lhsMsb < 256)
    (hi : m.sigIndex a.lhsSignalId = some i) (hsl : a.isSliced = true)
    {before after : List IRStmt} (hapart : ∀ b ∈ leafAssigns (stmtsLeaves after),
      TargetsApart (assignTargets m b) (assignTargets m a)) (s : CtxState) {k : ℕ}
    (hlo : a.lhsLsb ≤ k) (hhi : k ≤ a.lhsMsb) :
    ((simCtxApplyNba m (execStmts m true (before ++ .assignment a :: after) s)).signals
        i).current.part (.bit k) =
      (assignedValue m (execStmts m true before s) a i).part (.bit (k - a.lhsLsb)) := by
  have htarget : assignTargets m a = [⟨i, some (a.lhsMsb, a.lhsLsb)⟩] := by
    rw [assignTargets, hi]
    simp only [hsl, if_true]
  have hout : ∀ b ∈ leafAssigns (stmtsLeaves after), ∀ τ ∈ assignTargets m b,
      ¬ τ.Covers i (.bit k) := by
    intro b hb τ hτ hcov
    have hap := hapart b hb τ hτ _ (by rw [htarget]; exact List.mem_singleton.mpr rfl)
    rcases hap with hne | ⟨m₁, l₁, m₂, l₂, hs1, hs2, hd⟩
    · exact hne hcov.1
    · have hc := hcov.2
      rw [hs1] at hc
      cases hs2
      simp only at hc
      omega
  obtain ⟨-, hpending, ⟨-, hbits⟩, -⟩ :=
    @sliceWritten m a i hmsb hi hsl (execStmts m true before s)
  rw [simCtxApplyNba_signals, if_pos (IRModule.sigIndex_lt hi), commit_current, execStmts_append,
    execStmts, execStmts_stagesInside after _ i (.bit k) hout, simExecStmt, pendingValue,
    if_pos hpending, hbits k, if_pos ⟨hlo, hhi⟩]

/-! ## The invariant -/

theorem representation_invariant (m : IRModule) (hwidth : ∀ sig ∈ m.signals, sig.width ≤ 256)
    (s : CtxState) (hs : s.Represented m) :
    (∀ stmt, StmtSized m stmt → ∀ isNba, (simExecStmt m isNba stmt s).Represented m ∧
      (simCtxApplyNba m (simExecStmt m isNba stmt s)).Represented m) ∧
    ∀ a i, AssignOk m a → m.sigIndex a.lhsSignalId = some i → a.isSliced = true →
      SliceWritten m s a i ∧
      ∀ before after : List IRStmt, (∀ b ∈ leafAssigns (stmtsLeaves after),
          TargetsApart (assignTargets m b) (assignTargets m a)) →
        ∀ k, a.lhsLsb ≤ k → k ≤ a.lhsMsb →
          ((simCtxApplyNba m (execStmts m true (before ++ .assignment a :: after) s)).signals
              i).current.part (.bit k) =
            (assignedValue m (execStmts m true before s) a i).part (.bit (k - a.lhsLsb)) := by
  constructor
  · intro stmt hok isNba
    have h := simExecStmt_represented hok isNba hs
    exact ⟨h, simCtxApplyNba_represented h⟩
  · intro a i hok hi hsl
    obtain ⟨sig, hsig, -⟩ := signalOf_of_sigIndex hi
    have hmsb : a.lhsMsb < 256 :=
      lt_of_lt_of_le (hok.slice hi hsig hsl).2 (hwidth sig (List.mem_of_getElem? hsig))
    exact ⟨sliceWritten hmsb hi hsl s, fun before after hapart k hlo hhi =>
      staged_slice_kept hmsb hi hsl hapart s hlo hhi⟩

end

namespace RepresentationExample

def design : IRModule := ⟨[⟨0, .latch, 8⟩], [], [], .null⟩

def state : CtxState := ⟨fun _ => ⟨simValZero 8, simValZero 8, false⟩, fun _ _ => simValZero 1,
  false, false, fun _ => false⟩

/-- A four-bit literal, extended and written to a half of the signal. -/
def half (value : Word) (msb lsb : ℕ) : IRStmt :=
  .assignment ⟨0, .literal ⟨Words.set .zero 0 value, 4, false⟩ 4, .receiveSext, true, msb, lsb⟩

theorem half_ok (value : Word) {msb lsb : ℕ} (hle : lsb ≤ msb) (hmsb : msb < 8) :
    LeafOk design (half value msb lsb) := by
  rintro sig hsig
  obtain rfl : (⟨0, .latch, 8⟩ : IRSignal) = sig := Option.some.inj hsig
  refine ⟨trivial, fun _ => ?_, fun _ => ⟨hle, hmsb⟩⟩
  change (4 : ℕ) ≤ 8
  omega

theorem state_represented : state.Represented design where
  current i sig hsig := by
    obtain rfl := List.mem_singleton.mp (List.mem_of_getElem? hsig)
    exact ⟨rfl, masked_simValZero 8⟩
  next _ _ _ hp := by cases hp
  cells name i mem hname := by cases hname

end RepresentationExample

open RepresentationExample in
/-- Both halves of a byte, staged in one edge. -/
theorem representation_invariant_halves :
    (simCtxApplyNba design (simExecStmt design true (.block [half 9 7 4, half 5 3 0])
      state)).Represented design := by
  refine ((representation_invariant design ?_ state state_represented).1 _ ?_ true).2
  · intro sig hsig
    obtain rfl := List.mem_singleton.mp hsig
    change (8 : ℕ) ≤ 256
    omega
  · intro leaf hleaf
    rcases List.mem_cons.mp hleaf with rfl | hleaf
    · exact half_ok 9 (by omega) (by omega)
    · obtain rfl := List.mem_singleton.mp hleaf
      exact half_ok 5 (by omega) (by omega)

end JzHdl

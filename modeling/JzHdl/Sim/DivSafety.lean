import JzHdl.Ir.DivGuard
import JzHdl.Sim.Eval
import JzHdl.Sim.Numbers

/-! # Soundness of the division guard analysis

The expressions that execution evaluates under a fixed valuation, and why a
silent analysis keeps their divisors away from zero.
-/

namespace JzHdl

open BitWords

/-! ## The stack after a statement -/

theorem guardPush_cases (gs : GuardStack) (sig : ℕ) (b : Bool) :
    guardPush gs sig b = ⟨sig, b⟩ :: gs ∨ guardPush gs sig b = gs := by
  rw [guardPush]
  split
  · exact Or.inl rfl
  · exact Or.inr rfl

/-- Popping after a branch leaves at most the facts from before the push. -/
theorem guardPop_suffix {gs r : GuardStack} {sig : ℕ} {b : Bool}
    (h : r <:+ guardPush gs sig b) : guardPop r <:+ gs := by
  rcases guardPush_cases gs sig b with heq | heq
  · rw [heq, List.suffix_cons_iff] at h
    rcases h with rfl | h
    · exact List.suffix_refl gs
    · exact (List.tail_suffix r).trans h
  · rw [heq] at h
    exact (List.tail_suffix r).trans h

theorem withGuard_suffix {fact : Option ℕ} {gs : GuardStack}
    {body : GuardStack → GuardStack × List DivDiag} (h : ∀ gs, (body gs).1 <:+ gs) :
    (withGuard fact gs body).1 <:+ gs := by
  cases fact with
  | none => exact h gs
  | some sig => exact guardPop_suffix (h _)

section

variable (read : IRLiteral → ℕ)

mutual

theorem checkStmtForDiv_suffix (depth : ℕ) : ∀ (stmt : IRStmt) (gs : GuardStack),
    (checkStmtForDiv read depth stmt gs).1 <:+ gs
  | .null, gs => List.suffix_refl gs
  | .assignment _, gs => by
      rw [checkStmtForDiv]; split <;> exact List.suffix_refl gs
  | .memWrite _ _ _, gs => by
      rw [checkStmtForDiv]; split <;> exact List.suffix_refl gs
  | .block stmts, gs => by
      rw [checkStmtForDiv]
      split
      · exact List.suffix_refl gs
      · exact checkStmtsForDiv_suffix (depth + 1) stmts gs
  | .ifStmt condition thenBlock elifChain elseBlock, gs => by
      rw [checkStmtForDiv]
      split
      · exact List.suffix_refl gs
      · exact (withGuard_suffix fun gs => checkStmtForDiv_suffix (depth + 1) elseBlock gs).trans
          ((checkStmtForDiv_suffix (depth + 1) elifChain _).trans
            (withGuard_suffix fun gs => checkStmtForDiv_suffix (depth + 1) thenBlock gs))
  | .select _ cases, gs => by
      rw [checkStmtForDiv]
      split
      · exact List.suffix_refl gs
      · exact checkCasesForDiv_suffix (depth + 1) cases gs

theorem checkCasesForDiv_suffix (depth : ℕ) : ∀ (cases : List (IRExpr × IRStmt)) (gs : GuardStack),
    (checkCasesForDiv read depth cases gs).1 <:+ gs
  | [], gs => List.suffix_refl gs
  | (_, body) :: rest, gs => (checkCasesForDiv_suffix depth rest _).trans
      (checkStmtForDiv_suffix depth body gs)

theorem checkStmtsForDiv_suffix (depth : ℕ) : ∀ (stmts : List IRStmt) (gs : GuardStack),
    (checkStmtsForDiv read depth stmts gs).1 <:+ gs
  | [], gs => List.suffix_refl gs
  | stmt :: rest, gs => (checkStmtsForDiv_suffix depth rest _).trans
      (checkStmtForDiv_suffix depth stmt gs)

end

end

/-! ## The depth limit -/

/-- Where the depth limit is met depends neither on the facts nor on how literals are read. -/
def DepthExceeded (diags : List DivDiag) : Prop := .irDivGuardDepthLimitExceeded ∈ diags

theorem depthExceeded_append {a b : List DivDiag} :
    DepthExceeded (a ++ b) ↔ DepthExceeded a ∨ DepthExceeded b := List.mem_append

theorem not_depthExceeded_checkDivisor (gs : GuardStack) (d : IRExpr) :
    ¬ DepthExceeded (checkDivisor gs d) := by
  rw [checkDivisor, DepthExceeded]
  split
  · simp
  · split
    · simp
    · split <;> simp

mutual

theorem depthExceeded_checkExpr (gs gs' : GuardStack) (depth : ℕ) : ∀ e : IRExpr,
    DepthExceeded (checkExprForDiv gs depth e) ↔ DepthExceeded (checkExprForDiv gs' depth e)
  | .null => Iff.rfl
  | .literal _ _ => Iff.rfl
  | .signalRef _ _ => Iff.rfl
  | .slice _ _ _ _ => Iff.rfl
  | .unary _ operand _ => by
      simp only [checkExprForDiv]
      split
      · rfl
      · exact depthExceeded_checkExpr gs gs' (depth + 1) operand
  | .binary op left right _ => by
      simp only [checkExprForDiv]
      split
      · rfl
      · have hdiv : ∀ gs, ¬ DepthExceeded (if op.isDivMod then checkDivisor gs right else []) := by
          intro gs
          split
          · exact not_depthExceeded_checkDivisor gs right
          · simp [DepthExceeded]
        simp only [depthExceeded_append, hdiv, false_or,
          depthExceeded_checkExpr gs gs' (depth + 1) left,
          depthExceeded_checkExpr gs gs' (depth + 1) right]
  | .ternary condition trueVal falseVal => by
      simp only [checkExprForDiv]
      split
      · rfl
      · simp only [depthExceeded_append, depthExceeded_checkExpr gs gs' (depth + 1) condition,
          depthExceeded_checkExpr gs gs' (depth + 1) trueVal,
          depthExceeded_checkExpr gs gs' (depth + 1) falseVal]
  | .concat operands => by
      simp only [checkExprForDiv]
      split
      · rfl
      · exact depthExceeded_checkExprs gs gs' (depth + 1) operands
  | .sliceExpr baseExpr _ _ => by
      simp only [checkExprForDiv]
      split
      · rfl
      · exact depthExceeded_checkExpr gs gs' (depth + 1) baseExpr
  | .intrinsic _ source index value _ _ => by
      simp only [checkExprForDiv]
      split
      · rfl
      · simp only [depthExceeded_append, depthExceeded_checkExpr gs gs' (depth + 1) source,
          depthExceeded_checkExpr gs gs' (depth + 1) index,
          depthExceeded_checkExpr gs gs' (depth + 1) value]
  | .memRead _ address _ => by
      simp only [checkExprForDiv]
      split
      · rfl
      · exact depthExceeded_checkExpr gs gs' (depth + 1) address

theorem depthExceeded_checkExprs (gs gs' : GuardStack) (depth : ℕ) : ∀ es : List IRExpr,
    DepthExceeded (checkExprsForDiv gs depth es) ↔ DepthExceeded (checkExprsForDiv gs' depth es)
  | [] => Iff.rfl
  | e :: rest => by
      simp only [checkExprsForDiv, depthExceeded_append, depthExceeded_checkExpr gs gs' depth e,
        depthExceeded_checkExprs gs gs' depth rest]

end

section

variable (read read' : IRLiteral → ℕ)

theorem depthExceeded_withGuard {fact fact' : Option ℕ} {gs gs' : GuardStack}
    {body body' : GuardStack → GuardStack × List DivDiag}
    (h : ∀ gs gs', DepthExceeded (body gs).2 ↔ DepthExceeded (body' gs').2) :
    DepthExceeded (withGuard fact gs body).2 ↔ DepthExceeded (withGuard fact' gs' body').2 := by
  cases fact <;> cases fact' <;> exact h _ _

mutual

theorem depthExceeded_checkStmt (depth : ℕ) : ∀ (stmt : IRStmt) (gs gs' : GuardStack),
    DepthExceeded (checkStmtForDiv read depth stmt gs).2 ↔
      DepthExceeded (checkStmtForDiv read' depth stmt gs').2
  | .null, _, _ => Iff.rfl
  | .assignment assign, gs, gs' => by
      rw [checkStmtForDiv, checkStmtForDiv]
      split
      · rfl
      · exact depthExceeded_checkExpr gs gs' (depth + 1) assign.rhs
  | .memWrite _ address data, gs, gs' => by
      rw [checkStmtForDiv, checkStmtForDiv]
      split
      · rfl
      · simp only [depthExceeded_append, depthExceeded_checkExpr gs gs' (depth + 1) address,
          depthExceeded_checkExpr gs gs' (depth + 1) data]
  | .block stmts, gs, gs' => by
      rw [checkStmtForDiv, checkStmtForDiv]
      split
      · rfl
      · exact depthExceeded_checkStmts (depth + 1) stmts gs gs'
  | .ifStmt condition thenBlock elifChain elseBlock, gs, gs' => by
      rw [checkStmtForDiv, checkStmtForDiv]
      split
      · rfl
      · simp only [depthExceeded_append]
        refine or_congr (or_congr (or_congr ?_ ?_) ?_) ?_
        · exact depthExceeded_checkExpr gs gs' (depth + 1) condition
        · exact depthExceeded_withGuard fun gs gs' =>
            depthExceeded_checkStmt (depth + 1) thenBlock gs gs'
        · exact depthExceeded_checkStmt (depth + 1) elifChain _ _
        · exact depthExceeded_withGuard fun gs gs' =>
            depthExceeded_checkStmt (depth + 1) elseBlock gs gs'
  | .select selector cases, gs, gs' => by
      rw [checkStmtForDiv, checkStmtForDiv]
      split
      · rfl
      · simp only [depthExceeded_append]
        exact or_congr (depthExceeded_checkExpr gs gs' (depth + 1) selector)
          (depthExceeded_checkCases (depth + 1) cases gs gs')

theorem depthExceeded_checkCases (depth : ℕ) :
    ∀ (cases : List (IRExpr × IRStmt)) (gs gs' : GuardStack),
    DepthExceeded (checkCasesForDiv read depth cases gs).2 ↔
      DepthExceeded (checkCasesForDiv read' depth cases gs').2
  | [], _, _ => Iff.rfl
  | (caseValue, body) :: rest, gs, gs' => by
      simp only [checkCasesForDiv, depthExceeded_append]
      exact or_congr (or_congr (depthExceeded_checkExpr gs gs' depth caseValue)
        (depthExceeded_checkStmt depth body gs gs')) (depthExceeded_checkCases depth rest _ _)

theorem depthExceeded_checkStmts (depth : ℕ) : ∀ (stmts : List IRStmt) (gs gs' : GuardStack),
    DepthExceeded (checkStmtsForDiv read depth stmts gs).2 ↔
      DepthExceeded (checkStmtsForDiv read' depth stmts gs').2
  | [], _, _ => Iff.rfl
  | stmt :: rest, gs, gs' => by
      simp only [checkStmtsForDiv, depthExceeded_append]
      exact or_congr (depthExceeded_checkStmt depth stmt gs gs')
        (depthExceeded_checkStmts depth rest _ _)

end

end

/-! ## Evaluated expressions -/

mutual

/-- The divisors of all DIV and MOD operations in an expression; evaluation meets every one. -/
def divisors : IRExpr → List IRExpr
  | .null | .literal .. | .signalRef .. | .slice .. => []
  | .unary _ operand _ => divisors operand
  | .binary op left right _ =>
    (if op.isDivMod then [right] else []) ++ divisors left ++ divisors right
  | .ternary condition trueVal falseVal =>
    divisors condition ++ divisors trueVal ++ divisors falseVal
  | .concat operands => divisorsOfEach operands
  | .sliceExpr baseExpr _ _ => divisors baseExpr
  | .intrinsic _ source index value _ _ => divisors source ++ divisors index ++ divisors value
  | .memRead _ address _ => divisors address

def divisorsOfEach : List IRExpr → List IRExpr
  | [] => []
  | e :: rest => divisors e ++ divisorsOfEach rest

end

section

variable (m : IRModule) (s : CtxState)

mutual

/-- The expressions evaluated when a statement runs under a fixed valuation. -/
def pathExprs : IRStmt → List IRExpr
  | .null => []
  | .assignment assign => [assign.rhs]
  | .memWrite _ address data => [address, data]
  | .block stmts => pathStmts stmts
  | .ifStmt condition thenBlock elifChain elseBlock =>
    condition :: match simValIsTrue (simEvalExpr m s condition) with
      | none => []
      | some true => pathExprs thenBlock
      | some false =>
        match pathElifChain elifChain with
        | (true, es) => es
        | (false, es) => es ++ pathExprs elseBlock
  | .select selector cases =>
    selector :: if simValHasXz (simEvalExpr m s selector) then []
      else pathCases (simEvalExpr m s selector) cases

/-- The flag tells whether some branch of the chain ended the statement. -/
def pathElifChain : IRStmt → Bool × List IRExpr
  | .ifStmt condition thenBlock elifChain _ =>
    match simValIsTrue (simEvalExpr m s condition) with
    | none => (true, [condition])
    | some true => (true, condition :: pathExprs thenBlock)
    | some false => ((pathElifChain elifChain).1, condition :: (pathElifChain elifChain).2)
  | _ => (false, [])

def pathCases (selector : SimValue) : List (IRExpr × IRStmt) → List IRExpr
  | [] => []
  | (caseValue, body) :: rest =>
    if caseValue.isNull then pathExprs body
    else caseValue ::
      if simValIsTrue (simValEq selector (simEvalExpr m s caseValue)) = some true then
        pathExprs body
      else pathCases selector rest

def pathStmts : List IRStmt → List IRExpr
  | [] => []
  | stmt :: rest => pathExprs stmt ++ pathStmts rest

end

/-- Every signal holds an unsigned value that fits its width. -/
def KnownSignals : Prop := ∀ i, (s.signals i).current.Known (s.signals i).current.width

/-- A literal that stands for zero. -/
def IsLiteralZero : IRExpr → Prop
  | .literal lit _ => lit.isZ = false ∧ literalValue lit = 0
  | _ => False

/-- A divisor that does not evaluate to zero. -/
def DivisorOk (d : IRExpr) : Prop := simValIsTrue (simEvalExpr m s d) ≠ some false

def NonzeroSignal (signalId : ℕ) : Prop :=
  ∀ width, simValIsTrue (evalSignal m s signalId width) ≠ some false

/-- The facts on a stack are true of the valuation. -/
def FactsHold (gs : GuardStack) : Prop := ∀ e ∈ gs, e.isNonzero = true → NonzeroSignal m s e.signalId

end

/-! ## Divisors -/

section

variable {m : IRModule} {s : CtxState}

theorem FactsHold.suffix {gs gs' : GuardStack} (h : FactsHold m s gs) (hs : gs' <:+ gs) :
    FactsHold m s gs' := fun e he => h e (hs.mem he)

theorem FactsHold.push {gs : GuardStack} {sig : ℕ} (h : FactsHold m s gs)
    (hsig : NonzeroSignal m s sig) : FactsHold m s (guardPush gs sig true) := by
  rcases guardPush_cases gs sig true with heq | heq
  · rw [heq]
    intro e he hn
    rcases List.mem_cons.mp he with rfl | he
    · exact hsig
    · exact h e he hn
  · rw [heq]
    exact h

/-- The evaluated literal is known and stands for its value. -/
theorem evalLiteral_known {lit : IRLiteral} (hz : lit.isZ = false) (width : ℕ) :
    (evalLiteral lit width).Known (evalLiteral lit width).width ∧
      (evalLiteral lit width).val.toNat = literalValue lit := by
  have hzero : maskWords lit.width .zero = .zero := Words.ext_bit fun k => by
    rw [bit_maskWords]; simp
  have hval : (evalLiteral lit width).val = maskWords lit.width lit.words := by
    rw [evalLiteral, hz]
    simp only [Bool.false_eq_true, if_false, simValFromWords, simValMask]
    split <;> rfl
  have hnat : (evalLiteral lit width).val.toNat = literalValue lit := by
    rw [hval, toNat_maskWords, literalValue]
  have hwidth : lit.width ≤ (evalLiteral lit width).width := by
    rw [evalLiteral, hz]
    simp only [Bool.false_eq_true, if_false, simValFromWords, simValMask]
    split <;> simp_all
  refine ⟨⟨rfl, ?_, ?_, ?_⟩, hnat⟩
  · rw [evalLiteral, hz]
    simp only [Bool.false_eq_true, if_false, simValFromWords, simValMask, hzero]
    split <;> rfl
  · rw [evalLiteral, hz]
    simp only [Bool.false_eq_true, if_false, simValFromWords, simValMask, hzero]
    split <;> rfl
  · rw [hnat, literalValue]
    exact lt_of_lt_of_le (Nat.mod_lt _ (Nat.two_pow_pos _))
      (Nat.pow_le_pow_right (by decide) hwidth)

theorem divisorOk_of_check {gs : GuardStack} {d : IRExpr} (hg : FactsHold m s gs)
    (hlit : ¬ IsLiteralZero d) (hc : .divUnguardedRuntimeZero ∉ checkDivisor gs d) :
    DivisorOk m s d := by
  rw [checkDivisor] at hc
  cases d with
  | null => rw [DivisorOk, simEvalExpr]; decide +kernel
  | literal lit width =>
    rw [DivisorOk, simEvalExpr]
    cases hz : lit.isZ with
    | true => simp [IRExpr.isNull, exprIsNonzeroLiteral, exprIsZeroLiteral, exprSignalId, hz] at hc
    | false =>
      obtain ⟨hknown, hnat⟩ := evalLiteral_known hz width
      rw [simValIsTrue_known hknown, hnat]
      intro h
      exact hlit ⟨hz, by simpa using h⟩
  | signalRef signalId width =>
    rw [DivisorOk, simEvalExpr]
    simp only [IRExpr.isNull, exprIsNonzeroLiteral, exprIsZeroLiteral, exprSignalId, Bool.or_self,
      Bool.false_eq_true, if_false] at hc
    split at hc
    · rename_i hgs
      simp only [guardIsNonzero, List.any_eq_true, Bool.and_eq_true, beq_iff_eq] at hgs
      obtain ⟨e, he, rfl, hn⟩ := hgs
      exact hg e he hn width
    · simp at hc
  | _ => simp [IRExpr.isNull, exprIsNonzeroLiteral, exprIsZeroLiteral, exprSignalId] at hc

/-- Divisors that pass the analysis or are excluded by the absence of literal zeros. -/
def Silent (diags : List DivDiag) : Prop :=
  .divUnguardedRuntimeZero ∉ diags ∧ ¬ DepthExceeded diags

theorem silent_append {a b : List DivDiag} : Silent (a ++ b) ↔ Silent a ∧ Silent b := by
  simp only [Silent, DepthExceeded, List.mem_append]
  tauto

theorem not_silent_depth : ¬ Silent [.irDivGuardDepthLimitExceeded] := fun h => h.2 (by simp [DepthExceeded])

mutual

theorem divisorsOk_of_check {gs : GuardStack} (hg : FactsHold m s gs) (depth : ℕ) :
    ∀ e : IRExpr, (∀ d ∈ divisors e, ¬ IsLiteralZero d) → Silent (checkExprForDiv gs depth e) →
      ∀ d ∈ divisors e, DivisorOk m s d
  | .null, _, _ => by simp [divisors]
  | .literal _ _, _, _ => by simp [divisors]
  | .signalRef _ _, _, _ => by simp [divisors]
  | .slice _ _ _ _, _, _ => by simp [divisors]
  | .unary _ operand _, hlit, hc => by
      rw [checkExprForDiv] at hc
      split at hc
      · exact absurd hc not_silent_depth
      · exact divisorsOk_of_check hg (depth + 1) operand hlit hc
  | .binary op left right _, hlit, hc => by
      rw [checkExprForDiv] at hc
      split at hc
      · exact absurd hc not_silent_depth
      · simp only [divisors, List.forall_mem_append] at hlit ⊢
        rw [silent_append, silent_append] at hc
        refine ⟨⟨?_, divisorsOk_of_check hg (depth + 1) left hlit.1.2 hc.1.2⟩,
          divisorsOk_of_check hg (depth + 1) right hlit.2 hc.2⟩
        intro d hd
        split at hd
        · rename_i hop
          obtain rfl := List.mem_singleton.mp hd
          rw [if_pos hop] at hc
          exact divisorOk_of_check hg (hlit.1.1 d (by rw [if_pos hop]; exact hd)) hc.1.1.1
        · cases hd
  | .ternary condition trueVal falseVal, hlit, hc => by
      rw [checkExprForDiv] at hc
      split at hc
      · exact absurd hc not_silent_depth
      · simp only [divisors, List.forall_mem_append] at hlit ⊢
        rw [silent_append, silent_append] at hc
        exact ⟨⟨divisorsOk_of_check hg (depth + 1) condition hlit.1.1 hc.1.1,
          divisorsOk_of_check hg (depth + 1) trueVal hlit.1.2 hc.1.2⟩,
          divisorsOk_of_check hg (depth + 1) falseVal hlit.2 hc.2⟩
  | .concat operands, hlit, hc => by
      rw [checkExprForDiv] at hc
      split at hc
      · exact absurd hc not_silent_depth
      · exact divisorsOfEachOk_of_check hg (depth + 1) operands hlit hc
  | .sliceExpr baseExpr _ _, hlit, hc => by
      rw [checkExprForDiv] at hc
      split at hc
      · exact absurd hc not_silent_depth
      · exact divisorsOk_of_check hg (depth + 1) baseExpr hlit hc
  | .intrinsic _ source index value _ _, hlit, hc => by
      rw [checkExprForDiv] at hc
      split at hc
      · exact absurd hc not_silent_depth
      · simp only [divisors, List.forall_mem_append] at hlit ⊢
        rw [silent_append, silent_append] at hc
        exact ⟨⟨divisorsOk_of_check hg (depth + 1) source hlit.1.1 hc.1.1,
          divisorsOk_of_check hg (depth + 1) index hlit.1.2 hc.1.2⟩,
          divisorsOk_of_check hg (depth + 1) value hlit.2 hc.2⟩
  | .memRead _ address _, hlit, hc => by
      rw [checkExprForDiv] at hc
      split at hc
      · exact absurd hc not_silent_depth
      · exact divisorsOk_of_check hg (depth + 1) address hlit hc

theorem divisorsOfEachOk_of_check {gs : GuardStack} (hg : FactsHold m s gs) (depth : ℕ) :
    ∀ es : List IRExpr, (∀ d ∈ divisorsOfEach es, ¬ IsLiteralZero d) →
      Silent (checkExprsForDiv gs depth es) → ∀ d ∈ divisorsOfEach es, DivisorOk m s d
  | [], _, _ => by simp [divisorsOfEach]
  | e :: rest, hlit, hc => by
      simp only [divisorsOfEach, List.forall_mem_append] at hlit ⊢
      rw [checkExprsForDiv, silent_append] at hc
      exact ⟨divisorsOk_of_check hg depth e hlit.1 hc.1,
        divisorsOfEachOk_of_check hg depth rest hlit.2 hc.2⟩

end

/-! ## Guards -/

namespace NormCmpOp

/-- The comparison of a signal with a number. -/
def holds (op : NormCmpOp) (x n : ℕ) : Bool :=
  match op with
  | .eq => decide (x = n)
  | .neq => decide (x ≠ n)
  | .gt => decide (n < x)
  | .gte => decide (n ≤ x)
  | .lt => decide (x < n)
  | .lte => decide (x ≤ n)

theorem holds_flip (op : NormCmpOp) (x n : ℕ) : (flipCmp op).holds x n = op.holds n x := by
  cases op <;> simp only [holds, flipCmp] <;> congr 1 <;> simp only [eq_iff_iff, ne_eq] <;> omega

end NormCmpOp

/-- Each branch proves what the analysis takes from it. -/
theorem branchFacts_sound (op : NormCmpOp) (x n : ℕ) :
    ((branchFacts op n).1 = true → op.holds x n = true → x ≠ 0) ∧
      ((branchFacts op n).2 = true → op.holds x n = false → x ≠ 0) := by
  cases op <;> simp only [branchFacts, NormCmpOp.holds] <;> (try split) <;> simp <;> omega

theorem simValIsTrue_normCmp {op : IRBinaryOp} {cmp : NormCmpOp} (h : op.normCmp = some cmp)
    {a b : SimValue} (ha : a.Known a.width) (hb : b.Known b.width) (width : ℕ) :
    simValIsTrue (evalBinary op width a b) = some (cmp.holds a.val.toNat b.val.toNat) := by
  cases op <;> simp only [IRBinaryOp.normCmp, reduceCtorEq, Option.some.injEq] at h <;> subst h <;>
    simp only [evalBinary, simValGt, simValGte, simValIsTrue_simValEq ha hb,
      simValIsTrue_simValNeq ha hb, simValIsTrue_simValLt ha hb, simValIsTrue_simValLt hb ha,
      simValIsTrue_simValLte ha hb, simValIsTrue_simValLte hb ha] <;> rfl

theorem simValIsTrue_normCmp_unknown {op : IRBinaryOp} {cmp : NormCmpOp}
    (h : op.normCmp = some cmp) {a b : SimValue} (hx : simValHasXz a = true ∨ simValHasXz b = true)
    (width : ℕ) : simValIsTrue (evalBinary op width a b) = none := by
  have hab : (simValHasXz a || simValHasXz b) = true := by simpa using hx
  have hba : (simValHasXz b || simValHasXz a) = true := by rw [Bool.or_comm]; exact hab
  cases op <;> simp only [IRBinaryOp.normCmp, reduceCtorEq] at h <;>
    simp only [evalBinary, simValEq, simValNeq, simValLt, simValGt, simValLte, simValGte, hab, hba,
      if_true, simValIsTrue_cmpX]

theorem simValHasXz_allX {w : ℕ} (hw : 0 < w) : simValHasXz (simValAllX w) = true := by
  rw [simValHasXz_iff]
  refine ⟨0, hw, Or.inl ?_⟩
  rw [simValAllX, bit_widthOnes (by decide)]
  simpa using hw

theorem widthOr_pos (width : ℕ) : 0 < widthOr width 1 := by
  rw [widthOr]; split <;> omega

/-- A signal is either missing and unknown, or known with one number for all references. -/
theorem evalSignal_cases (hs : KnownSignals s) (signalId : ℕ) :
    (∀ width, simValHasXz (evalSignal m s signalId width) = true) ∨
      ∃ v, v.Known v.width ∧ ∀ width, evalSignal m s signalId width = v := by
  cases hi : m.sigIndex signalId with
  | none =>
    refine Or.inl fun width => ?_
    rw [evalSignal, hi]
    exact simValHasXz_allX (widthOr_pos width)
  | some i =>
    refine Or.inr ⟨(s.signals i).current, hs i, fun width => ?_⟩
    rw [evalSignal, hi]

theorem nonzeroSignal_of_known {signalId : ℕ} {v : SimValue} (hv : v.Known v.width)
    (h : ∀ width, evalSignal m s signalId width = v) (hne : v.val.toNat ≠ 0) :
    NonzeroSignal m s signalId := by
  intro width
  rw [h width, simValIsTrue_known hv]
  simpa using hne

/-- An operand that names a signal is unknown or carries the signal's number. -/
theorem exprSignalId_eval (hs : KnownSignals s) {e : IRExpr} {sig : ℕ}
    (h : exprSignalId e = some sig) : simValHasXz (simEvalExpr m s e) = true ∨
      (simEvalExpr m s e).Known (simEvalExpr m s e).width ∧
        ((simEvalExpr m s e).val.toNat ≠ 0 → NonzeroSignal m s sig) := by
  cases e with
  | signalRef signalId width =>
    simp only [exprSignalId, Option.some.injEq] at h
    subst h
    simp only [simEvalExpr]
    rcases evalSignal_cases (m := m) hs signalId with hx | ⟨v, hv, heq⟩
    · exact Or.inl (hx width)
    · rw [heq width]
      exact Or.inr ⟨hv, nonzeroSignal_of_known hv heq⟩
  | _ => simp [exprSignalId] at h

theorem exprLiteralValue_eval {e : IRExpr} {val : ℕ}
    (h : exprLiteralValue literalValue e = some val) :
    (simEvalExpr m s e).Known (simEvalExpr m s e).width ∧
      (simEvalExpr m s e).val.toNat = val := by
  cases e with
  | literal lit width =>
    simp only [exprLiteralValue] at h
    split at h
    · cases h
    · rename_i hz
      simp only [Option.some.injEq] at h
      subst h
      simp only [simEvalExpr]
      exact evalLiteral_known (by simpa using hz) width
  | _ => simp [exprLiteralValue] at h

/-- A normalised comparison is unknown or compares the signal's number with the literal's. -/
theorem normalizeCmp_eval (hs : KnownSignals s) {cond : IRExpr} {sig val : ℕ} {cmp : NormCmpOp}
    (h : normalizeCmp literalValue cond = some (sig, cmp, val)) :
    simValIsTrue (simEvalExpr m s cond) = none ∨
      ∃ x, simValIsTrue (simEvalExpr m s cond) = some (cmp.holds x val) ∧
        (x ≠ 0 → NonzeroSignal m s sig) := by
  cases cond with
  | binary op left right width =>
    simp only [simEvalExpr]
    cases hop : op.normCmp with
    | none => simp [normalizeCmp, hop] at h
    | some cmp' =>
      simp only [normalizeCmp, hop] at h
      split at h
      · rename_i hsig hval
        simp only [Option.some.injEq, Prod.mk.injEq] at h
        obtain ⟨rfl, rfl, rfl⟩ := h
        rcases exprSignalId_eval (m := m) hs hsig with hx | ⟨hknown, hne⟩
        · exact Or.inl (simValIsTrue_normCmp_unknown hop (Or.inl hx) width)
        · obtain ⟨hlit, hnat⟩ := exprLiteralValue_eval (m := m) (s := s) hval
          refine Or.inr ⟨_, ?_, hne⟩
          rw [simValIsTrue_normCmp hop hknown hlit, hnat]
      · split at h
        · rename_i hsig hval
          simp only [Option.some.injEq, Prod.mk.injEq] at h
          obtain ⟨rfl, rfl, rfl⟩ := h
          rcases exprSignalId_eval (m := m) hs hsig with hx | ⟨hknown, hne⟩
          · exact Or.inl (simValIsTrue_normCmp_unknown hop (Or.inr hx) width)
          · obtain ⟨hlit, hnat⟩ := exprLiteralValue_eval (m := m) (s := s) hval
            refine Or.inr ⟨_, ?_, hne⟩
            rw [NormCmpOp.holds_flip, simValIsTrue_normCmp hop hlit hknown, hnat]
        · cases h
  | _ => simp [normalizeCmp] at h

theorem thenFact_sound (hs : KnownSignals s) {cond : IRExpr} {sig : ℕ}
    (h : thenFact literalValue cond = some sig)
    (ht : simValIsTrue (simEvalExpr m s cond) = some true) : NonzeroSignal m s sig := by
  simp only [thenFact, extractNonzeroGuard] at h
  cases hn : normalizeCmp literalValue cond with
  | none => simp [hn] at h
  | some r =>
    obtain ⟨sig', cmp, val⟩ := r
    rcases normalizeCmp_eval (m := m) hs hn with hnone | ⟨x, hx, hne⟩
    · rw [hnone] at ht; cases ht
    · rw [hn] at h
      rw [hx, Option.some.injEq] at ht
      simp only at h
      split at h
      · rename_i g hg
        split at hg <;> simp only [Option.some.injEq, reduceCtorEq] at hg
        subst hg
        split at h <;> simp only [Option.some.injEq, reduceCtorEq] at h
        rename_i hthen
        rw [← h]
        exact hne ((branchFacts_sound cmp x val).1 hthen ht)
      · cases h

theorem elseFact_sound (hs : KnownSignals s) {cond : IRExpr} {sig : ℕ}
    (h : elseFact literalValue cond = some sig)
    (hf : simValIsTrue (simEvalExpr m s cond) = some false) : NonzeroSignal m s sig := by
  simp only [elseFact, extractNonzeroGuard] at h
  cases hn : normalizeCmp literalValue cond with
  | none => simp [hn] at h
  | some r =>
    obtain ⟨sig', cmp, val⟩ := r
    rcases normalizeCmp_eval (m := m) hs hn with hnone | ⟨x, hx, hne⟩
    · rw [hnone] at hf; cases hf
    · rw [hn] at h
      rw [hx, Option.some.injEq] at hf
      simp only at h
      split at h
      · rename_i g hg
        split at hg <;> simp only [Option.some.injEq, reduceCtorEq] at hg
        subst hg
        split at h <;> simp only [Option.some.injEq, reduceCtorEq] at h
        rename_i helse
        rw [← h]
        exact hne ((branchFacts_sound cmp x val).2 helse hf)
      · cases h

/-! ## Statements -/

/-- What the analysis says about a branch holds when the branch is taken. -/
theorem withGuard_sound {fact : Option ℕ} {gs : GuardStack} {P : Prop}
    {body : GuardStack → GuardStack × List DivDiag} (hg : FactsHold m s gs)
    (hfact : ∀ sig, fact = some sig → NonzeroSignal m s sig)
    (hc : Silent (withGuard fact gs body).2)
    (hbody : ∀ gs, FactsHold m s gs → Silent (body gs).2 → P) : P := by
  cases fact with
  | none => exact hbody gs hg hc
  | some sig => exact hbody _ (hg.push (hfact sig rfl)) hc

/-- The divisors of the expressions on a path. -/
def PathOk (m : IRModule) (s : CtxState) (es : List IRExpr) : Prop :=
  ∀ e ∈ es, ∀ d ∈ divisors e, DivisorOk m s d

def NoLiteralZero (es : List IRExpr) : Prop := ∀ e ∈ es, ∀ d ∈ divisors e, ¬ IsLiteralZero d

theorem pathOk_nil : PathOk m s [] := by simp [PathOk]

theorem pathOk_append {a b : List IRExpr} : PathOk m s (a ++ b) ↔ PathOk m s a ∧ PathOk m s b :=
  List.forall_mem_append

theorem pathOk_cons {e : IRExpr} {es : List IRExpr} :
    PathOk m s (e :: es) ↔ (∀ d ∈ divisors e, DivisorOk m s d) ∧ PathOk m s es :=
  List.forall_mem_cons

theorem noLiteralZero_append {a b : List IRExpr} :
    NoLiteralZero (a ++ b) ↔ NoLiteralZero a ∧ NoLiteralZero b := List.forall_mem_append

theorem noLiteralZero_cons {e : IRExpr} {es : List IRExpr} :
    NoLiteralZero (e :: es) ↔ (∀ d ∈ divisors e, ¬ IsLiteralZero d) ∧ NoLiteralZero es :=
  List.forall_mem_cons

end

section

variable (m : IRModule) (s : CtxState)

mutual

theorem checkStmt_sound (hs : KnownSignals s) (depth : ℕ) : ∀ (stmt : IRStmt) (gs : GuardStack), FactsHold m s gs →
    Silent (checkStmtForDiv literalValue depth stmt gs).2 →
      (NoLiteralZero (pathExprs m s stmt) → PathOk m s (pathExprs m s stmt)) ∧
        (NoLiteralZero (pathElifChain m s stmt).2 → PathOk m s (pathElifChain m s stmt).2)
  | .null, _, _, _ => by simp [pathExprs, pathElifChain, PathOk]
  | .assignment assign, gs, hg, hc => by
      rw [checkStmtForDiv] at hc
      split at hc
      · exact absurd hc not_silent_depth
      · simp only [pathExprs, pathElifChain, noLiteralZero_cons, pathOk_cons, pathOk_nil, and_true]
        exact ⟨fun hl => divisorsOk_of_check hg (depth + 1) assign.rhs hl.1 hc, fun _ => trivial⟩
  | .memWrite _ address data, gs, hg, hc => by
      rw [checkStmtForDiv] at hc
      split at hc
      · exact absurd hc not_silent_depth
      · rw [silent_append] at hc
        simp only [pathExprs, pathElifChain, noLiteralZero_cons, pathOk_cons, pathOk_nil, and_true]
        exact ⟨fun hl => ⟨divisorsOk_of_check hg (depth + 1) address hl.1 hc.1,
          divisorsOk_of_check hg (depth + 1) data hl.2.1 hc.2⟩, fun _ => trivial⟩
  | .block stmts, gs, hg, hc => by
      rw [checkStmtForDiv] at hc
      split at hc
      · exact absurd hc not_silent_depth
      · simp only [pathExprs, pathElifChain, pathOk_nil]
        exact ⟨checkStmts_sound hs (depth + 1) stmts gs hg hc, fun _ => trivial⟩
  | .ifStmt condition thenBlock elifChain elseBlock, gs, hg, hc => by
      rw [checkStmtForDiv] at hc
      split at hc
      · exact absurd hc not_silent_depth
      · simp only [silent_append] at hc
        obtain ⟨⟨⟨hcond, hthen⟩, helif⟩, helse⟩ := hc
        have hg1 : FactsHold m s (withGuard (thenFact literalValue condition) gs fun gs =>
            checkStmtForDiv literalValue (depth + 1) thenBlock gs).1 :=
          hg.suffix (withGuard_suffix fun gs =>
            checkStmtForDiv_suffix literalValue (depth + 1) thenBlock gs)
        have hg2 := hg1.suffix (checkStmtForDiv_suffix literalValue (depth + 1) elifChain _)
        have hcondOk := divisorsOk_of_check hg (depth + 1) condition
        have hElif := (checkStmt_sound hs (depth + 1) elifChain _ hg1 helif).2
        simp only [pathExprs, pathElifChain]
        cases ht : simValIsTrue (simEvalExpr m s condition) with
        | none =>
          simp only [noLiteralZero_cons, pathOk_cons, pathOk_nil, and_true]
          exact ⟨fun hl => hcondOk hl.1 hcond, fun hl => hcondOk hl.1 hcond⟩
        | some b =>
          cases b with
          | true =>
            have hThen := withGuard_sound hg
              (fun sig h => thenFact_sound (m := m) hs h ht) hthen
              (fun gs hg hc => (checkStmt_sound hs (depth + 1) thenBlock gs hg hc).1)
            simp only [noLiteralZero_cons, pathOk_cons]
            exact ⟨fun hl => ⟨hcondOk hl.1 hcond, hThen hl.2⟩,
              fun hl => ⟨hcondOk hl.1 hcond, hThen hl.2⟩⟩
          | false =>
            have hElse := withGuard_sound hg2
              (fun sig h => elseFact_sound (m := m) hs h ht) helse
              (fun gs hg hc => (checkStmt_sound hs (depth + 1) elseBlock gs hg hc).1)
            refine ⟨?_, ?_⟩
            · cases hchain : pathElifChain m s elifChain with
              | mk ended es =>
                rw [hchain] at hElif
                cases ended with
                | true =>
                  simp only [noLiteralZero_cons, pathOk_cons]
                  exact fun hl => ⟨hcondOk hl.1 hcond, hElif hl.2⟩
                | false =>
                  simp only [noLiteralZero_cons, pathOk_cons, noLiteralZero_append, pathOk_append]
                  exact fun hl => ⟨hcondOk hl.1 hcond, hElif hl.2.1, hElse hl.2.2⟩
            · simp only [noLiteralZero_cons, pathOk_cons]
              exact fun hl => ⟨hcondOk hl.1 hcond, hElif hl.2⟩
  | .select selector cases, gs, hg, hc => by
      rw [checkStmtForDiv] at hc
      split at hc
      · exact absurd hc not_silent_depth
      · rw [silent_append] at hc
        simp only [pathExprs, pathElifChain, noLiteralZero_cons, pathOk_cons, pathOk_nil]
        refine ⟨fun hl => ⟨divisorsOk_of_check hg (depth + 1) selector hl.1 hc.1, ?_⟩,
          fun _ => trivial⟩
        have hl2 := hl.2
        split at hl2 <;> rename_i hx
        · rw [if_pos hx]; exact pathOk_nil
        · rw [if_neg hx]
          exact checkCases_sound hs (depth + 1) _ cases gs hg hc.2 hl2

theorem checkCases_sound (hs : KnownSignals s) (depth : ℕ) (selector : SimValue) :
    ∀ (cases : List (IRExpr × IRStmt)) (gs : GuardStack), FactsHold m s gs →
    Silent (checkCasesForDiv literalValue depth cases gs).2 →
      NoLiteralZero (pathCases m s selector cases) → PathOk m s (pathCases m s selector cases)
  | [], _, _, _ => by simp [pathCases, PathOk]
  | (caseValue, body) :: rest, gs, hg, hc => by
      simp only [checkCasesForDiv, silent_append] at hc
      obtain ⟨⟨hvalue, hbody⟩, hrest⟩ := hc
      have hBody := (checkStmt_sound hs depth body gs hg hbody).1
      have hRest := checkCases_sound hs depth selector rest _
        (hg.suffix (checkStmtForDiv_suffix literalValue depth body gs)) hrest
      simp only [pathCases]
      split
      · exact hBody
      · simp only [noLiteralZero_cons, pathOk_cons]
        split
        · exact fun hl => ⟨divisorsOk_of_check hg depth caseValue hl.1 hvalue, hBody hl.2⟩
        · exact fun hl => ⟨divisorsOk_of_check hg depth caseValue hl.1 hvalue, hRest hl.2⟩

theorem checkStmts_sound (hs : KnownSignals s) (depth : ℕ) : ∀ (stmts : List IRStmt) (gs : GuardStack),
    FactsHold m s gs → Silent (checkStmtsForDiv literalValue depth stmts gs).2 →
      NoLiteralZero (pathStmts m s stmts) → PathOk m s (pathStmts m s stmts)
  | [], _, _, _ => by simp [pathStmts, PathOk]
  | stmt :: rest, gs, hg, hc => by
      simp only [checkStmtsForDiv, silent_append] at hc
      simp only [pathStmts, noLiteralZero_append, pathOk_append]
      exact fun hl => ⟨(checkStmt_sound hs depth stmt gs hg hc.1).1 hl.1,
        checkStmts_sound hs depth rest _ (hg.suffix (checkStmtForDiv_suffix literalValue depth stmt gs))
          hc.2 hl.2⟩

end

end

/-! ## The analysis of a tree -/

theorem depthExceeded_of_reported {diags : List DivDiag} (h : reportedDiags false diags = []) :
    ¬ DepthExceeded diags := by
  cases diags with
  | nil => simp [DepthExceeded]
  | cons d rest => cases d <;> simp [reportedDiags] at h

/-- A silent analysis keeps every evaluated divisor away from zero, provided that it is as silent
when it reads its literals as a whole and that it reports the depth limit if it meets it. -/
theorem divGuardDiags_sound (m : IRModule) (s : CtxState) (stmt : IRStmt) (depthReported : Bool)
    (hs : KnownSignals s) (hlit : NoLiteralZero (pathExprs m s stmt))
    (hclean : divGuardDiags depthReported stmt = [])
    (hwhole : .divUnguardedRuntimeZero ∉ (checkStmtForDiv literalValue 0 stmt []).2)
    (hdepth : depthReported = true → ¬ DepthExceeded (checkStmtForDiv lowWord 0 stmt []).2) :
    ∀ e ∈ pathExprs m s stmt, ∀ d ∈ divisors e,
      simValIsTrue (simEvalExpr m s d) ≠ some false := by
  have hnot : ¬ DepthExceeded (checkStmtForDiv lowWord 0 stmt []).2 := by
    cases depthReported with
    | true => exact hdepth rfl
    | false => exact depthExceeded_of_reported hclean
  refine (checkStmt_sound m s hs 0 stmt [] (by simp [FactsHold]) ⟨hwhole, ?_⟩).1 hlit
  exact mt (depthExceeded_checkStmt literalValue lowWord 0 stmt [] []).mp hnot

namespace DivExample

/-- One signal, identifier 0. -/
def design : IRModule := ⟨[⟨0, .net, 128⟩], [], [], .null⟩

def state (v : SimValue) : CtxState :=
  ⟨fun _ => ⟨v, v, false⟩, fun _ _ => simValZero 1, false, false, fun _ => false⟩

def number (words : SimWords) : IRExpr := .literal ⟨words, 128, false⟩ 128

def quotient : IRStmt :=
  .assignment ⟨1, .binary .div (number (Words.set .zero 0 1)) (.signalRef 0 128) 128, .receive,
    false, 0, 0⟩

/-- IF (x != words) { y <= 1 / x; } -/
def guarded (words : SimWords) : IRStmt :=
  .ifStmt (.binary .neq (.signalRef 0 128) (number words) 1) quotient .null .null

theorem knownSignals {v : SimValue} (h : v.Known v.width) : KnownSignals (state v) := fun _ => h

end DivExample

open DivExample in
theorem divGuardDiags_sound_guarded :
    .signalRef 0 128 ∈ divisors (.binary .div (number (Words.set .zero 0 1)) (.signalRef 0 128) 128) ∧
      simValIsTrue (simEvalExpr design (state (simValFromUint 2 128)) (.signalRef 0 128)) ≠
        some false := by
  have hpath : pathExprs design (state (simValFromUint 2 128)) (guarded .zero) =
      [.binary .neq (.signalRef 0 128) (number .zero) 1,
        .binary .div (number (Words.set .zero 0 1)) (.signalRef 0 128) 128] := by
    have htrue : simValIsTrue (simEvalExpr design (state (simValFromUint 2 128))
        (.binary .neq (.signalRef 0 128) (number .zero) 1)) = some true := by decide +kernel
    rw [guarded, pathExprs, htrue]
    rfl
  have hdiv : .signalRef 0 128 ∈
      divisors (.binary .div (number (Words.set .zero 0 1)) (.signalRef 0 128) 128) := by
    simp [divisors, IRBinaryOp.isDivMod, number]
  refine ⟨hdiv, divGuardDiags_sound design (state (simValFromUint 2 128)) (guarded .zero) false
    (knownSignals ⟨rfl, by decide +kernel, by decide +kernel, by decide +kernel⟩) ?_
    (by decide +kernel) (by decide +kernel) (fun h => Bool.noConfusion h) _ ?_ _ hdiv⟩
  · rw [hpath]
    simp [NoLiteralZero, divisors, IRBinaryOp.isDivMod, IsLiteralZero, number]
  · rw [hpath]
    exact List.mem_cons_of_mem _ (List.mem_singleton_self _)

open DivExample in
/-- A guard against 2^64 passes for a guard against 0. -/
theorem divGuardDiags_wideLiteral :
    KnownSignals (state (simValZero 128)) ∧
      divGuardDiags false (guarded (Words.set .zero 1 1)) = [] ∧
      NoLiteralZero (pathExprs design (state (simValZero 128)) (guarded (Words.set .zero 1 1))) ∧
      ∃ e ∈ pathExprs design (state (simValZero 128)) (guarded (Words.set .zero 1 1)),
        ∃ d ∈ divisors e,
          simValIsTrue (simEvalExpr design (state (simValZero 128)) d) = some false := by
  have hpath : pathExprs design (state (simValZero 128)) (guarded (Words.set .zero 1 1)) =
      [.binary .neq (.signalRef 0 128) (number (Words.set .zero 1 1)) 1,
        .binary .div (number (Words.set .zero 0 1)) (.signalRef 0 128) 128] := by
    have htrue : simValIsTrue (simEvalExpr design (state (simValZero 128))
        (.binary .neq (.signalRef 0 128) (number (Words.set .zero 1 1)) 1)) = some true := by
      decide +kernel
    rw [guarded, pathExprs, htrue]
    rfl
  refine ⟨knownSignals ⟨rfl, by decide +kernel, by decide +kernel, by decide +kernel⟩,
    by decide +kernel, ?_, ?_⟩
  · rw [hpath]
    simp [NoLiteralZero, divisors, IRBinaryOp.isDivMod, IsLiteralZero, number]
  · rw [hpath]
    exact ⟨_, List.mem_cons_of_mem _ (List.mem_singleton_self _), .signalRef 0 128,
      by simp [divisors, IRBinaryOp.isDivMod, number], by decide +kernel⟩

end JzHdl

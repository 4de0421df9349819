import JzHdl.Ir.Syntax
import JzHdl.Lib.WordsNat

/-! # The division guard analysis

Every DIV and MOD must have a divisor that is a literal or a signal that an
enclosing IF proves nonzero. Facts are kept on a stack of bounded depth.
-/

namespace JzHdl

open BitWords

structure GuardEntry where

  signalId : ℕ

  isNonzero : Bool
  deriving DecidableEq

def maxGuardDepth : ℕ := 64

/-- The depth limit shared by statements and expressions. -/
def maxIrStmtDepth : ℕ := 512

/-- Active facts, innermost first. -/
abbrev GuardStack := List GuardEntry

/-- A full stack drops the new fact silently. -/
def guardPush (gs : GuardStack) (signalId : ℕ) (isNonzero : Bool) : GuardStack :=
  if gs.length < maxGuardDepth then ⟨signalId, isNonzero⟩ :: gs else gs

def guardPop (gs : GuardStack) : GuardStack := gs.tail

def guardIsNonzero (gs : GuardStack) (signalId : ℕ) : Bool :=
  gs.any fun e => e.signalId == signalId && e.isNonzero

inductive DivDiag | divUnguardedRuntimeZero | irDivGuardDepthLimitExceeded
  deriving DecidableEq, Repr

/-! ## Guard extraction -/

def wordsAllZero (lit : IRLiteral) : Bool :=
  (List.range simValWords).all fun i => lit.words.get i == 0

def exprIsZeroLiteral : IRExpr → Bool
  | .literal lit _ => !lit.isZ && wordsAllZero lit
  | _ => false

def exprIsNonzeroLiteral : IRExpr → Bool
  | .literal lit _ => !lit.isZ && !wordsAllZero lit
  | _ => false

def exprSignalId : IRExpr → Option ℕ
  | .signalRef signalId _ => some signalId
  | _ => none

inductive NormCmpOp | eq | neq | gt | gte | lt | lte
  deriving DecidableEq, Repr

def flipCmp : NormCmpOp → NormCmpOp
  | .eq => .eq
  | .neq => .neq
  | .gt => .lt
  | .gte => .lte
  | .lt => .gt
  | .lte => .gte

def IRBinaryOp.normCmp : IRBinaryOp → Option NormCmpOp
  | .eq => some .eq
  | .neq => some .neq
  | .gt => some .gt
  | .gte => some .gte
  | .lt => some .lt
  | .lte => some .lte
  | _ => none

/-- The number the source takes from a literal: its lowest word. -/
def lowWord (lit : IRLiteral) : ℕ := (lit.words.get 0).toNat

/-- The number a literal stands for. -/
def literalValue (lit : IRLiteral) : ℕ := Words.toNat lit.words % 2 ^ lit.width

/-- What the branches of a comparison prove about its signal. -/
structure NonzeroGuard where

  signalId : ℕ

  thenNonzero : Bool

  elseNonzero : Bool

def branchFacts (op : NormCmpOp) (val : ℕ) : Bool × Bool :=
  match op with
  | .neq => if val = 0 then (true, false) else (false, true)
  | .eq => if val ≠ 0 then (true, false) else (false, true)
  | .gt => (true, false)
  | .gte => (decide (1 ≤ val), false)
  | .lt => (false, decide (1 ≤ val))
  | .lte => (false, true)

section

variable (read : IRLiteral → ℕ)

def exprLiteralValue : IRExpr → Option ℕ
  | .literal lit _ => if lit.isZ then none else some (read lit)
  | _ => none

def normalizeCmp : IRExpr → Option (ℕ × NormCmpOp × ℕ)
  | .binary op left right _ =>
    match op.normCmp with
    | none => none
    | some op =>
      match exprSignalId left, exprLiteralValue read right with
      | some sig, some val => some (sig, op, val)
      | _, _ =>
        match exprSignalId right, exprLiteralValue read left with
        | some sig, some val => some (sig, flipCmp op, val)
        | _, _ => none
  | _ => none

/-- The facts of a condition; `none` when it proves nothing about either branch. -/
def extractNonzeroGuard (cond : IRExpr) : Option NonzeroGuard :=
  match normalizeCmp read cond with
  | none => none
  | some (sig, op, val) =>
    let facts := branchFacts op val
    if facts.1 || facts.2 then some ⟨sig, facts.1, facts.2⟩ else none

/-! ## Expressions and statements -/

/-- The diagnostic of one division. -/
def checkDivisor (guards : GuardStack) (divisor : IRExpr) : List DivDiag :=
  if divisor.isNull || exprIsNonzeroLiteral divisor || exprIsZeroLiteral divisor then []
  else match exprSignalId divisor with
    | none => [.divUnguardedRuntimeZero]
    | some sig => if guardIsNonzero guards sig then [] else [.divUnguardedRuntimeZero]

def IRBinaryOp.isDivMod : IRBinaryOp → Bool
  | .div | .mod => true
  | _ => false

mutual

/-- `depth` counts the statements and expressions entered so far. -/
def checkExprForDiv (guards : GuardStack) (depth : ℕ) : IRExpr → List DivDiag
  | .null => []
  | .literal .. | .signalRef .. | .slice .. =>
    if maxIrStmtDepth ≤ depth then [.irDivGuardDepthLimitExceeded] else []
  | .unary _ operand _ =>
    if maxIrStmtDepth ≤ depth then [.irDivGuardDepthLimitExceeded]
    else checkExprForDiv guards (depth + 1) operand
  | .binary op left right _ =>
    if maxIrStmtDepth ≤ depth then [.irDivGuardDepthLimitExceeded]
    else (if op.isDivMod then checkDivisor guards right else []) ++
      checkExprForDiv guards (depth + 1) left ++ checkExprForDiv guards (depth + 1) right
  | .ternary condition trueVal falseVal =>
    if maxIrStmtDepth ≤ depth then [.irDivGuardDepthLimitExceeded]
    else checkExprForDiv guards (depth + 1) condition ++
      checkExprForDiv guards (depth + 1) trueVal ++ checkExprForDiv guards (depth + 1) falseVal
  | .concat operands =>
    if maxIrStmtDepth ≤ depth then [.irDivGuardDepthLimitExceeded]
    else checkExprsForDiv guards (depth + 1) operands
  | .sliceExpr baseExpr _ _ =>
    if maxIrStmtDepth ≤ depth then [.irDivGuardDepthLimitExceeded]
    else checkExprForDiv guards (depth + 1) baseExpr
  | .intrinsic _ source index value _ _ =>
    if maxIrStmtDepth ≤ depth then [.irDivGuardDepthLimitExceeded]
    else checkExprForDiv guards (depth + 1) source ++ checkExprForDiv guards (depth + 1) index ++
      checkExprForDiv guards (depth + 1) value
  | .memRead _ address _ =>
    if maxIrStmtDepth ≤ depth then [.irDivGuardDepthLimitExceeded]
    else checkExprForDiv guards (depth + 1) address

def checkExprsForDiv (guards : GuardStack) (depth : ℕ) : List IRExpr → List DivDiag
  | [] => []
  | e :: rest => checkExprForDiv guards depth e ++ checkExprsForDiv guards depth rest

end

/-- Run a branch under the fact a guard proves for it, if it proves one. -/
def withGuard (fact : Option ℕ) (guards : GuardStack)
    (body : GuardStack → GuardStack × List DivDiag) : GuardStack × List DivDiag :=
  match fact with
  | none => body guards
  | some sig =>
    let r := body (guardPush guards sig true)
    (guardPop r.1, r.2)

def thenFact (cond : IRExpr) : Option ℕ :=
  match extractNonzeroGuard read cond with
  | some g => if g.thenNonzero then some g.signalId else none
  | none => none

def elseFact (cond : IRExpr) : Option ℕ :=
  match extractNonzeroGuard read cond with
  | some g => if g.elseNonzero then some g.signalId else none
  | none => none

mutual

/-- The stack that a statement leaves behind and what it reports. -/
def checkStmtForDiv (depth : ℕ) : IRStmt → GuardStack → GuardStack × List DivDiag
  | .null, gs => (gs, [])
  | .assignment assign, gs =>
    if maxIrStmtDepth ≤ depth then (gs, [.irDivGuardDepthLimitExceeded])
    else (gs, checkExprForDiv gs (depth + 1) assign.rhs)
  | .memWrite _ address data, gs =>
    if maxIrStmtDepth ≤ depth then (gs, [.irDivGuardDepthLimitExceeded])
    else (gs, checkExprForDiv gs (depth + 1) address ++ checkExprForDiv gs (depth + 1) data)
  | .block stmts, gs =>
    if maxIrStmtDepth ≤ depth then (gs, [.irDivGuardDepthLimitExceeded])
    else checkStmtsForDiv (depth + 1) stmts gs
  | .ifStmt condition thenBlock elifChain elseBlock, gs =>
    if maxIrStmtDepth ≤ depth then (gs, [.irDivGuardDepthLimitExceeded])
    else
      let onThen := withGuard (thenFact read condition) gs
        (fun gs => checkStmtForDiv (depth + 1) thenBlock gs)
      let onElif := checkStmtForDiv (depth + 1) elifChain onThen.1
      let onElse := withGuard (elseFact read condition) onElif.1
        (fun gs => checkStmtForDiv (depth + 1) elseBlock gs)
      (onElse.1, checkExprForDiv gs (depth + 1) condition ++ onThen.2 ++ onElif.2 ++ onElse.2)
  | .select selector cases, gs =>
    if maxIrStmtDepth ≤ depth then (gs, [.irDivGuardDepthLimitExceeded])
    else
      let onCases := checkCasesForDiv (depth + 1) cases gs
      (onCases.1, checkExprForDiv gs (depth + 1) selector ++ onCases.2)

def checkCasesForDiv (depth : ℕ) : List (IRExpr × IRStmt) → GuardStack → GuardStack × List DivDiag
  | [], gs => (gs, [])
  | (caseValue, body) :: rest, gs =>
    let onBody := checkStmtForDiv depth body gs
    let onRest := checkCasesForDiv depth rest onBody.1
    (onRest.1, checkExprForDiv gs depth caseValue ++ onBody.2 ++ onRest.2)

def checkStmtsForDiv (depth : ℕ) : List IRStmt → GuardStack → GuardStack × List DivDiag
  | [], gs => (gs, [])
  | stmt :: rest, gs =>
    let onStmt := checkStmtForDiv depth stmt gs
    let onRest := checkStmtsForDiv depth rest onStmt.1
    (onRest.1, onStmt.2 ++ onRest.2)

end

end

/-- What reaches the diagnostic list: the depth limit is reported once per module. -/
def reportedDiags (depthReported : Bool) : List DivDiag → List DivDiag
  | [] => []
  | .divUnguardedRuntimeZero :: rest =>
    .divUnguardedRuntimeZero :: reportedDiags depthReported rest
  | .irDivGuardDepthLimitExceeded :: rest =>
    if depthReported then reportedDiags true rest
    else .irDivGuardDepthLimitExceeded :: reportedDiags true rest

/-- The analysis of one statement tree, from an empty stack. -/
def divGuardDiags (depthReported : Bool) (stmt : IRStmt) : List DivDiag :=
  reportedDiags depthReported (checkStmtForDiv lowWord 0 stmt []).2

end JzHdl

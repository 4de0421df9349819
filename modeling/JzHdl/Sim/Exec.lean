import JzHdl.Sim.Eval

/-! # Statement execution

Statements run in one of two modes: immediate writes with dirty tracking, or
staged writes that a later commit makes current.
-/

namespace JzHdl

open BitWords

namespace IRAssignmentKind

def isZext : IRAssignmentKind → Bool
  | .aliasZext | .driveZext | .receiveZext => true
  | _ => false

def isSext : IRAssignmentKind → Bool
  | .aliasSext | .driveSext | .receiveSext => true
  | _ => false

end IRAssignmentKind

/-- Adapt a right-hand side to the target width as the operator asks. -/
def extendRhs (kind : IRAssignmentKind) (v : SimValue) (targetWidth : ℕ) : SimValue :=
  if kind.isZext then simValZext v targetWidth
  else if kind.isSext then simValSext v targetWidth
  else if v.width = targetWidth then v
  else simValMask { v with width := targetWidth }

def writeBit (target rhs : SimValue) (dst src : ℕ) : SimValue :=
  { target with
    val := target.val.setBit dst (rhs.val.bit src)
    xmask := target.xmask.setBit dst (rhs.xmask.bit src)
    zmask := target.zmask.setBit dst (rhs.zmask.bit src) }

/-- Copy the low bits of `rhs` into bits `lsb` to `msb` of the target. -/
def writeSlice (target rhs : SimValue) (msb lsb : ℕ) : SimValue :=
  (List.range (msb + 1 - lsb)).foldl (fun t b => writeBit t rhs (lsb + b) b) target

/-- Word-for-word equality of `len` words from `start`. -/
def sameWords (a b : SimValue) (start len : ℕ) : Bool :=
  (List.range' start len).all fun i =>
    a.val.get i == b.val.get i && a.xmask.get i == b.xmask.get i && a.zmask.get i == b.zmask.get i

def simValSame (a b : SimValue) (nw : ℕ) : Bool := sameWords a b 0 nw

/-- Stage a write in `next`. -/
def stageWrite (a : IRAssignment) (e : SimSignalEntry) (rhs : SimValue) : SimSignalEntry :=
  { e with
    next := if a.isSliced then
        writeSlice (if e.hasPending then e.next else e.current) rhs a.lhsMsb a.lhsLsb
      else rhs
    hasPending := true }

/-- Write to `current` and raise the dirty flags when a compared word changed. -/
def writeNow (a : IRAssignment) (s : CtxState) (i : ℕ) (rhs : SimValue) : CtxState :=
  let old := (s.signals i).current
  if a.isSliced then
    let new := writeSlice old rhs a.lhsMsb a.lhsLsb
    let lo := a.lhsLsb / 64
    if sameWords old new lo (a.lhsMsb / 64 + 1 - lo) then s.setCurrent i new
    else (s.setCurrent i new).markDirty i
  else if simValSame old rhs ((old.width + 63) / 64) then s
  else (s.setCurrent i rhs).markDirty i

section

variable (m : IRModule)

def applyAssign (isNba : Bool) (s : CtxState) (a : IRAssignment) : CtxState :=
  match m.sigIndex a.lhsSignalId with
  | none => s
  | some i =>
    let rhs := extendRhs a.kind (simEvalExpr m s a.rhs) (s.signals i).current.width
    let s' := s.raiseError (simEvalRaises m s a.rhs)
    if isNba then s'.setEntry i (stageWrite a (s.signals i) rhs) else writeNow a s' i rhs

/-- The context after evaluating an expression: only the runtime error can change. -/
def afterEval (s : CtxState) (e : IRExpr) : CtxState := s.raiseError (simEvalRaises m s e)

def execMemWrite (s : CtxState) (memoryName : String) (address data : IRExpr) : CtxState :=
  match m.memOf memoryName with
  | none => s
  | some (i, mem) =>
    let s' := afterEval m (afterEval m s address) data
    match simValueToMemIndex (simEvalExpr m s address) mem.depth with
    | none => s'
    | some a => s'.setCell i a (simEvalExpr m s data)

mutual

def simExecStmt (isNba : Bool) : IRStmt → CtxState → CtxState
  | .null, s => s
  | .assignment assign, s => applyAssign m isNba s assign
  | .ifStmt condition thenBlock elifChain elseBlock, s =>
    match simValIsTrue (simEvalExpr m s condition) with
    | none => (afterEval m s condition).raiseError true
    | some true => simExecStmt isNba thenBlock (afterEval m s condition)
    | some false =>
      match execElifChain isNba elifChain (afterEval m s condition) with
      | (true, s') => s'
      | (false, s') => simExecStmt isNba elseBlock s'
  | .select selector cases, s =>
    let v := simEvalExpr m s selector
    if simValHasXz v then (afterEval m s selector).raiseError true
    else execCases isNba v cases (afterEval m s selector)
  | .block stmts, s => execStmts isNba stmts s
  | .memWrite memoryName address data, s => execMemWrite m s memoryName address data

/-- Walk an elif chain; the flag tells whether some branch ended the statement. -/
def execElifChain (isNba : Bool) : IRStmt → CtxState → Bool × CtxState
  | .ifStmt condition thenBlock elifChain _, s =>
    match simValIsTrue (simEvalExpr m s condition) with
    | none => (true, (afterEval m s condition).raiseError true)
    | some true => (true, simExecStmt isNba thenBlock (afterEval m s condition))
    | some false => execElifChain isNba elifChain (afterEval m s condition)
  | _, s => (false, s)

def execCases (isNba : Bool) (selector : SimValue) :
    List (IRExpr × IRStmt) → CtxState → CtxState
  | [], s => s
  | (caseValue, body) :: rest, s =>
    if caseValue.isNull then simExecStmt isNba body s
    else if simValIsTrue (simValEq selector (simEvalExpr m s caseValue)) = some true then
      simExecStmt isNba body (afterEval m s caseValue)
    else execCases isNba selector rest (afterEval m s caseValue)

def execStmts (isNba : Bool) : List IRStmt → CtxState → CtxState
  | [], s => s
  | stmt :: rest, s => execStmts isNba rest (simExecStmt isNba stmt s)

end

end

end JzHdl

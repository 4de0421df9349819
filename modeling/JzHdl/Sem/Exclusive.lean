import JzHdl.Lib.PathMerge
import Mathlib.Algebra.Order.Ring.Int

/-! # The Exclusive Assignment analysis

The analysis walks the statements of a block once and keeps the records of all
assignments so far. It reports an assignment that meets an earlier record.
-/

namespace JzHdl

open PathMerge

/-! ## Slice bounds -/

inductive BoundOp | add | sub | mul | div | mod | other
  deriving DecidableEq

inductive BoundExpr

  | literal (text : List Char)

  | binary (op : BoundOp) (left right : BoundExpr)

  | other

def isBoundSpace (c : Char) : Bool := c = ' ' || (9 ≤ c.toNat && c.toNat ≤ 13)

def simpleDigits : ℕ → Bool → List Char → Option ℕ
  | value, sawDigit, [] => if sawDigit then some value else none
  | value, sawDigit, c :: rest =>
    if isBoundSpace c then simpleDigits value sawDigit rest
    else if c.toNat < 48 ∨ 57 < c.toNat then none
    else if 429496729 < value ∨ (value = 429496729 ∧ 5 < c.toNat - 48) then none
    else simpleDigits (value * 10 + (c.toNat - 48)) true rest

def parseSimpleNonnegativeInt (text : List Char) : Option ℕ := simpleDigits 0 false text

def boundDigit (c : Char) : ℕ :=
  if 48 ≤ c.toNat ∧ c.toNat ≤ 57 then c.toNat - 48
  else if 97 ≤ c.toNat ∧ c.toNat ≤ 122 then c.toNat - 87
  else if 65 ≤ c.toNat ∧ c.toNat ≤ 90 then c.toNat - 55
  else 36

/-- The value of a text that has digits of the base only. -/
def wholeDigits (base : ℕ) : ℕ → List Char → Option ℕ
  | value, [] => some value
  | value, c :: rest =>
    if boundDigit c < base then wholeDigits base (value * base + boundDigit c) rest else none

/-- `strtol` with base 0 on an unsigned text that it takes as a whole. -/
def strtolDigits : List Char → Option ℕ
  | [] => none
  | '0' :: x :: rest =>
    if x = 'x' ∨ x = 'X' then (if rest = [] then none else wholeDigits 16 0 rest)
    else wholeDigits 8 0 (x :: rest)
  | text => wholeDigits 10 0 text

def clampLong (v : ℤ) : ℤ := max (-(2 ^ 63)) (min (2 ^ 63 - 1) v)

def strtolWhole (text : List Char) : Option ℤ :=
  match text.dropWhile isBoundSpace with
  | '-' :: rest => (strtolDigits rest).map fun n => clampLong (-(n : ℤ))
  | '+' :: rest => (strtolDigits rest).map fun n => clampLong n
  | rest => (strtolDigits rest).map fun n => clampLong n

def wrapLong (v : ℤ) : ℤ := Int.bmod v (2 ^ 64)

def semTryConstEvalAstExpr : BoundExpr → Option ℤ
  | .literal text => strtolWhole text
  | .binary op left right =>
    match semTryConstEvalAstExpr left, semTryConstEvalAstExpr right with
    | some lv, some rv =>
      match op with
      | .add => some (wrapLong (lv + rv))
      | .sub => some (wrapLong (lv - rv))
      | .mul => some (wrapLong (lv * rv))
      | .div => if rv = 0 then none else some (Int.tdiv lv rv)
      | .mod => if rv = 0 then none else some (Int.tmod lv rv)
      | .other => none
    | _, _ => none
  | .other => none

/-- The bounds of a slice of two plain numbers, the lower one first. -/
def simpleRange : BoundExpr → BoundExpr → Option (ℕ × ℕ)
  | .literal msbText, .literal lsbText =>
    match parseSimpleNonnegativeInt msbText, parseSimpleNonnegativeInt lsbText with
    | some msb, some lsb => if lsb ≤ msb then some (lsb, msb) else none
    | _, _ => none
  | _, _ => none

def evalRange (msbExpr lsbExpr : BoundExpr) : Option (ℕ × ℕ) :=
  match semTryConstEvalAstExpr msbExpr, semTryConstEvalAstExpr lsbExpr with
  | some msb, some lsb =>
    if 0 ≤ msb ∧ 0 ≤ lsb ∧ lsb ≤ msb then some (lsb.toNat % 2 ^ 32, msb.toNat % 2 ^ 32) else none
  | _, _ => none

/-- The range of a slice, or nothing when neither evaluator knows its bounds. -/
def sliceRange (msb lsb : BoundExpr) : Option (ℕ × ℕ) :=
  (simpleRange msb lsb).orElse fun _ => evalRange msb lsb

/-! ## Targets -/

inductive FlowSymbolKind | port | wire | register | latch | other
  deriving DecidableEq

/-- The symbols of a module, with the kind and the width of every declaration. -/
structure FlowScope where

  lookup : String → Option ℕ

  kind : ℕ → FlowSymbolKind

  width : ℕ → ℕ

  /-- An assignment somewhere in the module gives the declaration a `z`. -/
  hasZAssignment : ℕ → Bool

/-- The left-hand sides of assignments. -/
inductive FlowTarget

  | ident (name : String)

  | slice (base : FlowTarget) (msb lsb : BoundExpr)

  | concat (parts : List FlowTarget)

  | other

structure AssignTarget where

  decl : ℕ

  isRegister : Bool

  /-- Nothing for the whole declaration. -/
  range : Option (ℕ × ℕ)

  canDriveZ : Bool

section

variable (scope : FlowScope) (isSync : Bool)

def addTargetFromSymbol (name : String) (range : Option (ℕ × ℕ)) : List AssignTarget :=
  match scope.lookup name with
  | none => []
  | some decl =>
    if (if isSync then scope.kind decl = .register else scope.kind decl ≠ .other) then
      [⟨decl, scope.kind decl = .register ∨ scope.kind decl = .latch, range,
        scope.hasZAssignment decl⟩]
    else []

mutual

def collectTargetsFromLhs : FlowTarget → List AssignTarget
  | .concat parts => collectTargetsFromParts parts
  | .slice (.ident name) msb lsb => addTargetFromSymbol scope isSync name (sliceRange msb lsb)
  | .slice .. => []
  | .ident name => addTargetFromSymbol scope isSync name none
  | .other => []

def collectTargetsFromParts : List FlowTarget → List AssignTarget
  | [] => []
  | part :: rest => collectTargetsFromLhs part ++ collectTargetsFromParts rest

end

end

/-- Two records of one declaration overlap unless both have ranges and these are apart. An
ASYNCHRONOUS block leaves out what may be driven to `z`. -/
def rangesOverlap (isSync : Bool) (r e : AssignTarget) : Bool :=
  r.decl == e.decl && r.isRegister == e.isRegister &&
    (isSync || !(r.canDriveZ || e.canDriveZ)) &&
    match r.range, e.range with
    | some (rl, rm), some (el, em) => !(decide (em < rl) || decide (rm < el))
    | _, _ => true

/-! ## Statements -/

inductive FlowOp | alias | drive | receive
  deriving DecidableEq

/-- The sibling nodes of an IF with its ELIFs and its ELSE are one statement here, with a body for
each node. The flag of a SELECT says that some arm is taken: it has a DEFAULT, or its CASE values
are exhaustive. A label without braces belongs to the arm that it falls through to, so that an
empty case here has empty braces. Conditions and selectors assign nothing. -/
inductive FlowStmt

  | assign (op : FlowOp) (lhs rhs : FlowTarget)

  | ifChain (bodies : List (List FlowStmt)) (hasElse : Bool)

  | select (cases : List (List FlowStmt)) (hasDefault : Bool)

  | block (stmts : List FlowStmt)

  | featureGuard (thenBlock elseBlock : List FlowStmt)

  | other

/-- The side that an assignment writes. -/
def assignedTarget : FlowOp → FlowTarget → FlowTarget → FlowTarget
  | .drive, _, rhs => rhs
  | _, lhs, _ => lhs

section

variable (scope : FlowScope) (isSync : Bool) (maxBranches : ℕ)

mutual

/-- A statement, with the recursion depth that is left. Only a walk over a whole block sees the
ELIF and ELSE nodes behind an IF. -/
def analyzeStmt : FlowStmt → Bool → ℕ → Scan AssignTarget → Scan AssignTarget
  | .assign op lhs rhs, _, _, st =>
    if op = .alias then st
    else record (rangesOverlap isSync)
      (collectTargetsFromLhs scope isSync (assignedTarget op lhs rhs)) st
  | .ifChain bodies _, inBlock, depth, st =>
    let branches := analyzeBranches bodies (depth - 1)
    let seen := if inBlock then branches else branches.take 1
    if depth = 0 ∨ maxBranches < seen.length then st else merge seen st
  | .select cases _, _, depth, st =>
    if depth = 0 ∨ maxBranches < (cases.filter fun body => !body.isEmpty).length then st
    else merge (analyzeCases cases (depth - 1)) st
  | .block stmts, _, depth, st => analyzeStmts stmts false depth st
  | .featureGuard .., _, _, st => st
  | .other, _, _, st => st

def analyzeStmts : List FlowStmt → Bool → ℕ → Scan AssignTarget → Scan AssignTarget
  | [], _, _, st => st
  | stmt :: rest, inBlock, depth, st =>
    analyzeStmts rest inBlock depth (analyzeStmt stmt inBlock depth st)

/-- Each body is a block of its own. -/
def analyzeBranches : List (List FlowStmt) → ℕ → List (Scan AssignTarget → Scan AssignTarget)
  | [], _ => []
  | body :: rest, depth =>
    (fun st => if depth = 0 then st else analyzeStmts body true (depth - 1) st) ::
      analyzeBranches rest depth

/-- The statements of a case are walked one at a time. -/
def analyzeCases : List (List FlowStmt) → ℕ → List (Scan AssignTarget → Scan AssignTarget)
  | [], _ => []
  | body :: rest, depth => analyzeStmts body false depth :: analyzeCases rest depth

end

def analyzeBlock (stmts : List FlowStmt) (depth : ℕ) (st : Scan AssignTarget) :
    Scan AssignTarget :=
  if depth = 0 then st else analyzeStmts scope isSync maxBranches stmts true (depth - 1) st

/-- Whether a multiple assignment is reported for a block. -/
def reportsMultiple (depth : ℕ) (stmts : List FlowStmt) : Bool :=
  (analyzeBlock scope isSync maxBranches stmts depth ⟨[], false⟩).reported

end

/-! ## Paths -/

mutual

/-- The targets that are written on every structural path. -/
def stmtFlows : FlowStmt → List (List FlowTarget)
  | .assign op lhs rhs => [[assignedTarget op lhs rhs]]
  | .ifChain bodies hasElse => branchFlows bodies ++ if hasElse then [] else [[]]
  | .select cases hasDefault => branchFlows cases ++ if hasDefault then [] else [[]]
  | .block stmts => blockFlows stmts
  | .featureGuard thenBlock elseBlock => blockFlows thenBlock ++ blockFlows elseBlock
  | .other => [[]]

def blockFlows : List FlowStmt → List (List FlowTarget)
  | [] => [[]]
  | stmt :: rest => (stmtFlows stmt).flatMap fun p => (blockFlows rest).map fun q => p ++ q

def branchFlows : List (List FlowStmt) → List (List FlowTarget)
  | [] => []
  | body :: rest => blockFlows body ++ branchFlows rest

end

section

variable (scope : FlowScope) (value : BoundExpr → Option ℕ)

mutual

/-- The target covers a bit of a declaration, with the value of constant expressions given. -/
def FlowTarget.Writes : FlowTarget → ℕ → ℕ → Prop
  | .ident name, decl, bit => scope.lookup name = some decl ∧ bit < scope.width decl
  | .slice (.ident name) msb lsb, decl, bit => scope.lookup name = some decl ∧
      ∃ m l, value msb = some m ∧ value lsb = some l ∧ l ≤ bit ∧ bit ≤ m
  | .slice .., _, _ => False
  | .concat parts, decl, bit => FlowTarget.WritesPart parts decl bit
  | .other, _, _ => False

def FlowTarget.WritesPart : List FlowTarget → ℕ → ℕ → Prop
  | [], _, _ => False
  | part :: rest, decl, bit => part.Writes decl bit ∨ FlowTarget.WritesPart rest decl bit

end

/-- Two assignments of the path write a common bit. -/
def FlowConflict (p : List FlowTarget) : Prop :=
  ∃ p₁ a p₂, p = p₁ ++ a :: p₂ ∧ ∃ b ∈ p₂, ∃ decl bit,
    a.Writes scope value decl bit ∧ b.Writes scope value decl bit

end

end JzHdl

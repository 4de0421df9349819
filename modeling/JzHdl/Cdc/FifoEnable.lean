import JzHdl.Backend.InoutAssigns
import JzHdl.Cdc.LibraryRuns

/-! # Enables of a FIFO crossing

A FIFO crossing takes its enables from the statements of a clock domain. The
conditions of IF and ELIF branches and the labels of SELECT arms are kept; the
failure of earlier branches, the conditions inside of arms and what leads to a
DEFAULT are dropped.
-/

namespace JzHdl

open BitWords

/-! ## The derived expression -/

section

variable (sigId : ℕ)

mutual

def fifoExprRefs : IRExpr → Bool
  | .null | .literal .. | .sliceExpr .. => false
  | .signalRef id _ | .slice id _ _ _ => id == sigId
  | .unary _ operand _ => fifoExprRefs operand
  | .concat operands => fifoExprsRef operands
  | .ternary condition trueVal falseVal =>
    fifoExprRefs condition || fifoExprRefs trueVal || fifoExprRefs falseVal
  | .memRead _ address _ => fifoExprRefs address
  | .binary _ left right _ => fifoExprRefs left || fifoExprRefs right
  -- The layout of two operands covers the source and the index, not the value.
  | .intrinsic _ source index _ _ _ => fifoExprRefs source || fifoExprRefs index

def fifoExprsRef : List IRExpr → Bool
  | [] => false
  | e :: rest => fifoExprRefs e || fifoExprsRef rest

end

variable (isWrite : Bool)

def fifoAssignTouches (a : IRAssignment) : Bool :=
  if isWrite then a.lhsSignalId == sigId else fifoExprRefs sigId a.rhs

mutual

def fifoStmtTouches : IRStmt → Bool
  | .null => false
  | .assignment a => fifoAssignTouches sigId isWrite a
  | .ifStmt condition thenBlock elifChain elseBlock =>
    (!isWrite && fifoExprRefs sigId condition) || fifoStmtTouches thenBlock ||
      fifoElifTouches elifChain || fifoStmtTouches elseBlock
  | .select selector cases =>
    (!isWrite && fifoExprRefs sigId selector) || fifoCasesTouch cases
  | .block stmts => fifoStmtsTouch stmts
  | .memWrite _ address data =>
    !isWrite && (fifoExprRefs sigId address || fifoExprRefs sigId data)

def fifoElifTouches : IRStmt → Bool
  | .ifStmt condition thenBlock elifChain _ =>
    (!isWrite && fifoExprRefs sigId condition) || fifoStmtTouches thenBlock ||
      fifoElifTouches elifChain
  | _ => false

def fifoCasesTouch : List (IRExpr × IRStmt) → Bool
  | [] => false
  | (_, body) :: rest => fifoStmtTouches body || fifoCasesTouch rest

def fifoStmtsTouch : List IRStmt → Bool
  | [] => false
  | stmt :: rest => fifoStmtTouches stmt || fifoStmtsTouch rest

end

def IRExpr.isLiteral : IRExpr → Bool
  | .literal .. => true
  | _ => false

def enableAlways : IRExpr := makeLiteral 1 1

/-- A further contribution to an enable; without an earlier one it stands alone. -/
def orEnable (result contrib : IRExpr) : IRExpr :=
  if result.isNull then contrib else .binary .logicalOr result contrib 1

/-- The condition of a branch with the enable inside of it, unless that one is a literal. -/
def gateEnable (condition inner : IRExpr) : IRExpr :=
  if inner.isNull || inner.isLiteral then condition else .binary .logicalAnd condition inner 1

mutual

def fifoDeriveEnable : IRStmt → IRExpr
  | .null | .memWrite .. => .null
  | .assignment a => if fifoAssignTouches sigId isWrite a then enableAlways else .null
  | .ifStmt condition thenBlock elifChain elseBlock =>
    let result := fifoDeriveElif elifChain <|
      if fifoStmtTouches sigId isWrite thenBlock then
        gateEnable condition (fifoDeriveEnable thenBlock)
      else .null
    if fifoStmtTouches sigId isWrite elseBlock then
      if (fifoDeriveEnable elseBlock).isNull then result
      else orEnable result (fifoDeriveEnable elseBlock)
    else result
  | .select selector cases => fifoDeriveCases selector cases .null
  | .block stmts => fifoDeriveStmts stmts .null

def fifoDeriveElif : IRStmt → IRExpr → IRExpr
  | .ifStmt condition thenBlock elifChain _, result =>
    fifoDeriveElif elifChain <|
      if fifoStmtTouches sigId isWrite thenBlock then
        orEnable result (gateEnable condition (fifoDeriveEnable thenBlock))
      else result
  | _, result => result

def fifoDeriveCases (selector : IRExpr) : List (IRExpr × IRStmt) → IRExpr → IRExpr
  | [], result => result
  | (caseValue, body) :: rest, result =>
    if !fifoStmtTouches sigId isWrite body then fifoDeriveCases selector rest result
    else if caseValue.isNull then enableAlways
    else fifoDeriveCases selector rest (orEnable result (.binary .eq selector caseValue 1))

def fifoDeriveStmts : List IRStmt → IRExpr → IRExpr
  | [], result => result
  | stmt :: rest, result =>
    fifoDeriveStmts rest <|
      if (fifoDeriveEnable stmt).isNull then result else orEnable result (fifoDeriveEnable stmt)

end

end

/-! ## Execution -/

section

variable (m : IRModule) (f : CtxState) (sigId : ℕ)

/-- The statement executes an assignment to the signal. -/
def WritesSignal (stmt : IRStmt) : Prop :=
  ∃ a ∈ pathAssignments m f stmt, a.lhsSignalId = sigId

mutual

/-- A condition, a selector or a memory write on the path reads the signal. -/
def ControlReads : IRStmt → Prop
  | .null | .assignment _ => False
  | .ifStmt condition thenBlock elifChain elseBlock =>
    sigId ∈ exprReads condition ∨
      match simValIsTrue (simEvalExpr m f condition) with
      | none => False
      | some true => ControlReads thenBlock
      | some false =>
        ControlReadsElif elifChain ∨ (elifDone m f elifChain = false ∧ ControlReads elseBlock)
  | .select selector cases =>
    sigId ∈ exprReads selector ∨
      (simValHasXz (simEvalExpr m f selector) = false ∧
        ControlReadsCases (simEvalExpr m f selector) cases)
  | .block stmts => ControlReadsStmts stmts
  | .memWrite _ address data => sigId ∈ exprReads address ∨ sigId ∈ exprReads data

def ControlReadsElif : IRStmt → Prop
  | .ifStmt condition thenBlock elifChain _ =>
    sigId ∈ exprReads condition ∨
      match simValIsTrue (simEvalExpr m f condition) with
      | none => False
      | some true => ControlReads thenBlock
      | some false => ControlReadsElif elifChain
  | _ => False

def ControlReadsCases (v : SimValue) : List (IRExpr × IRStmt) → Prop
  | [] => False
  | (caseValue, body) :: rest =>
    if caseValue.isNull then ControlReads body
    else if simValIsTrue (simValEq v (simEvalExpr m f caseValue)) = some true then
      ControlReads body
    else ControlReadsCases v rest

def ControlReadsStmts : List IRStmt → Prop
  | [] => False
  | stmt :: rest => ControlReads stmt ∨ ControlReadsStmts rest

end

/-- The statement executes an assignment, a condition, a selector or a memory write that reads the
signal. -/
def ReadsSignal (stmt : IRStmt) : Prop :=
  (∃ a ∈ pathAssignments m f stmt, sigId ∈ exprReads a.rhs) ∨ ControlReads m f sigId stmt

def NonZero (e : IRExpr) : Prop := simValIsTrue (simEvalExpr m f e) = some true

/-- The level of `write_en`: constant without an expression or with the literal one, else a wire of
one bit. -/
def WriteEnabled (e : IRExpr) : Prop :=
  e.isNull = true ∨ simValIsTrue (simValSlice (simEvalExpr m f e) 0 0) = some true

/-- The enables of a signal are exact under a valuation. -/
structure EnablesExact (stmt : IRStmt) : Prop where

  write : NonZero m f (fifoDeriveEnable sigId true stmt) ↔ WritesSignal m f sigId stmt

  read : NonZero m f (fifoDeriveEnable sigId false stmt) ↔ ReadsSignal m f sigId stmt

  writeNull : (fifoDeriveEnable sigId true stmt).isNull = true → ¬ WritesSignal m f sigId stmt

  readNull : (fifoDeriveEnable sigId false stmt).isNull = true → ¬ ReadsSignal m f sigId stmt

  push : WriteEnabled m f (fifoDeriveEnable sigId true stmt) ↔ WritesSignal m f sigId stmt

end

/-! ## KeptGuards guards -/

section

variable (m : IRModule) (f : CtxState) (sigId : ℕ) (isWrite : Bool)

mutual

/-- The guards that are kept hold for some access of the signal. A branch whose own enable is a
literal or missing counts as reached with its condition. -/
def KeptGuards : IRStmt → Prop
  | .null | .memWrite .. => False
  | .assignment a => fifoAssignTouches sigId isWrite a = true
  | .ifStmt condition thenBlock elifChain elseBlock =>
    (fifoStmtTouches sigId isWrite thenBlock = true ∧ NonZero m f condition ∧
      ((fifoDeriveEnable sigId isWrite thenBlock).isNull = true ∨
        (fifoDeriveEnable sigId isWrite thenBlock).isLiteral = true ∨ KeptGuards thenBlock)) ∨
      KeptElif elifChain ∨ (fifoStmtTouches sigId isWrite elseBlock = true ∧ KeptGuards elseBlock)
  | .select selector cases => KeptCases selector cases
  | .block stmts => KeptStmts stmts

def KeptElif : IRStmt → Prop
  | .ifStmt condition thenBlock elifChain _ =>
    (fifoStmtTouches sigId isWrite thenBlock = true ∧ NonZero m f condition ∧
      ((fifoDeriveEnable sigId isWrite thenBlock).isNull = true ∨
        (fifoDeriveEnable sigId isWrite thenBlock).isLiteral = true ∨ KeptGuards thenBlock)) ∨
      KeptElif elifChain
  | _ => False

/-- A label is kept without what its arm contains; a DEFAULT holds always. -/
def KeptCases (selector : IRExpr) : List (IRExpr × IRStmt) → Prop
  | [] => False
  | (caseValue, body) :: rest =>
    (fifoStmtTouches sigId isWrite body = true ∧
      (caseValue.isNull = true ∨ NonZero m f (.binary .eq selector caseValue 1))) ∨
      KeptCases selector rest

def KeptStmts : List IRStmt → Prop
  | [] => False
  | stmt :: rest => KeptGuards stmt ∨ KeptStmts rest

end

variable {m f sigId isWrite}

theorem nonZero_or {a b : IRExpr} :
    NonZero m f (.binary .logicalOr a b 1) ↔ NonZero m f a ∨ NonZero m f b := by
  unfold NonZero
  rw [simEvalExpr, evalBinary, simValLogicalOr]
  rcases simValIsTrue (simEvalExpr m f a) with _ | _ | _ <;>
    rcases simValIsTrue (simEvalExpr m f b) with _ | _ | _ <;>
    simp [simValIsTrue_cmpResult, simValIsTrue_cmpX]

theorem nonZero_and {a b : IRExpr} :
    NonZero m f (.binary .logicalAnd a b 1) ↔ NonZero m f a ∧ NonZero m f b := by
  unfold NonZero
  rw [simEvalExpr, evalBinary, simValLogicalAnd]
  rcases simValIsTrue (simEvalExpr m f a) with _ | _ | _ <;>
    rcases simValIsTrue (simEvalExpr m f b) with _ | _ | _ <;>
    simp [simValIsTrue_cmpResult, simValIsTrue_cmpX]

theorem not_nonZero_of_isNull {e : IRExpr} (h : e.isNull = true) : ¬ NonZero m f e := by
  cases e with
  | null =>
    rw [NonZero, simEvalExpr]
    decide +kernel
  | _ => exact absurd h Bool.false_ne_true

theorem nonZero_enableAlways : NonZero m f enableAlways := by
  rw [NonZero, enableAlways, makeLiteral, simEvalExpr]
  decide +kernel

theorem nonZero_orEnable {result contrib : IRExpr} :
    NonZero m f (orEnable result contrib) ↔ NonZero m f result ∨ NonZero m f contrib := by
  rw [orEnable]
  split
  · rename_i h
    rw [or_iff_right (not_nonZero_of_isNull h)]
  · exact nonZero_or

theorem nonZero_gateEnable {condition inner : IRExpr} :
    NonZero m f (gateEnable condition inner) ↔ NonZero m f condition ∧
      (inner.isNull = true ∨ inner.isLiteral = true ∨ NonZero m f inner) := by
  rw [gateEnable, ← or_assoc, ← Bool.or_eq_true]
  split
  · rename_i h
    rw [and_iff_left (.inl h)]
  · rename_i h
    rw [nonZero_and, or_iff_right h]

theorem nonZero_unlessNull {result inner : IRExpr} :
    NonZero m f (if inner.isNull then result else orEnable result inner) ↔
      NonZero m f result ∨ NonZero m f inner := by
  split
  · rename_i h
    rw [or_iff_left (not_nonZero_of_isNull h)]
  · exact nonZero_orEnable

mutual

/-- The derived expression holds exactly when the guards of some access do, as far as they are
kept. -/
theorem nonZero_derive_iff : ∀ stmt : IRStmt,
    NonZero m f (fifoDeriveEnable sigId isWrite stmt) ↔ KeptGuards m f sigId isWrite stmt
  | .null | .memWrite .. => by
      rw [fifoDeriveEnable, KeptGuards, iff_false]
      exact not_nonZero_of_isNull rfl
  | .assignment a => by
      rw [fifoDeriveEnable, KeptGuards]
      split
      · rename_i h
        exact iff_of_true nonZero_enableAlways h
      · rename_i h
        exact iff_of_false (not_nonZero_of_isNull rfl) h
  | .ifStmt condition thenBlock elifChain elseBlock => by
      have hthen := nonZero_derive_iff thenBlock
      have helse := nonZero_derive_iff elseBlock
      rw [fifoDeriveEnable, KeptGuards, ← hthen, ← helse]
      have hbranches : NonZero m f (fifoDeriveElif sigId isWrite elifChain
          (if fifoStmtTouches sigId isWrite thenBlock then
            gateEnable condition (fifoDeriveEnable sigId isWrite thenBlock) else .null)) ↔
          (fifoStmtTouches sigId isWrite thenBlock = true ∧ NonZero m f condition ∧
            ((fifoDeriveEnable sigId isWrite thenBlock).isNull = true ∨
              (fifoDeriveEnable sigId isWrite thenBlock).isLiteral = true ∨
              NonZero m f (fifoDeriveEnable sigId isWrite thenBlock))) ∨
          KeptElif m f sigId isWrite elifChain := by
        rw [nonZero_deriveElif_iff elifChain]
        refine or_congr_left ?_
        split
        · rename_i h
          rw [and_iff_right h, nonZero_gateEnable]
        · rename_i h
          exact iff_of_false (not_nonZero_of_isNull rfl) fun h' => h h'.1
      rw [← or_assoc, ← hbranches]
      split
      · rename_i h
        rw [and_iff_right h, nonZero_unlessNull]
      · rename_i h
        rw [or_iff_left fun h' => h h'.1]
  | .select selector cases => by
      rw [fifoDeriveEnable, KeptGuards, nonZero_deriveCases_iff selector cases,
        or_iff_right (not_nonZero_of_isNull rfl)]
  | .block stmts => by
      rw [fifoDeriveEnable, KeptGuards, nonZero_deriveStmts_iff stmts,
        or_iff_right (not_nonZero_of_isNull rfl)]

theorem nonZero_deriveElif_iff : ∀ (stmt : IRStmt) {result : IRExpr},
    NonZero m f (fifoDeriveElif sigId isWrite stmt result) ↔
      NonZero m f result ∨ KeptElif m f sigId isWrite stmt
  | .ifStmt condition thenBlock elifChain _, result => by
      rw [fifoDeriveElif, KeptElif, nonZero_deriveElif_iff elifChain, ← or_assoc]
      refine or_congr_left ?_
      split
      · rename_i h
        rw [and_iff_right h, nonZero_orEnable, nonZero_gateEnable, nonZero_derive_iff thenBlock]
      · rename_i h
        rw [or_iff_left fun h' => h h'.1]
  | .null, _ | .assignment _, _ | .select .., _ | .block _, _ | .memWrite .., _ => by
      rw [fifoDeriveElif, KeptElif, or_false]
      all_goals nofun

theorem nonZero_deriveCases_iff (selector : IRExpr) : ∀ (cases : List (IRExpr × IRStmt))
    {result : IRExpr}, NonZero m f (fifoDeriveCases sigId isWrite selector cases result) ↔
      NonZero m f result ∨ KeptCases m f sigId isWrite selector cases
  | [], _ => by rw [fifoDeriveCases, KeptCases, or_false]
  | (caseValue, body) :: rest, result => by
      rw [fifoDeriveCases, KeptCases]
      cases htouch : fifoStmtTouches sigId isWrite body with
      | false =>
        rw [if_pos (by rfl), nonZero_deriveCases_iff selector rest]
        simp
      | true =>
        rw [if_neg (by simp), eq_self_iff_true, true_and]
        split
        · rename_i hnull
          exact iff_of_true nonZero_enableAlways (.inr (.inl (.inl hnull)))
        · rename_i hnull
          rw [nonZero_deriveCases_iff selector rest, nonZero_orEnable, or_iff_right hnull,
            or_assoc]

theorem nonZero_deriveStmts_iff : ∀ (stmts : List IRStmt) {result : IRExpr},
    NonZero m f (fifoDeriveStmts sigId isWrite stmts result) ↔
      NonZero m f result ∨ KeptStmts m f sigId isWrite stmts
  | [], _ => by rw [fifoDeriveStmts, KeptStmts, or_false]
  | stmt :: rest, _ => by
      rw [fifoDeriveStmts, KeptStmts, nonZero_deriveStmts_iff rest, nonZero_unlessNull,
        nonZero_derive_iff stmt, or_assoc]

end

/-! ## Accesses on the path -/

mutual

theorem touches_of_kept : ∀ {stmt : IRStmt}, KeptGuards m f sigId isWrite stmt →
    fifoStmtTouches sigId isWrite stmt = true
  | .null, h | .memWrite .., h => by rw [KeptGuards] at h; exact h.elim
  | .assignment a, h => by rw [KeptGuards] at h; rwa [fifoStmtTouches]
  | .ifStmt condition thenBlock elifChain elseBlock, h => by
      rw [KeptGuards] at h
      rw [fifoStmtTouches]
      rcases h with ⟨hthen, -⟩ | helif | ⟨helse, -⟩
      · simp [hthen]
      · simp [touchesElif_of_kept helif]
      · simp [helse]
  | .select selector cases, h => by
      rw [KeptGuards] at h
      rw [fifoStmtTouches, touchesCases_of_kept h, Bool.or_true]
  | .block stmts, h => by
      rw [KeptGuards] at h
      rw [fifoStmtTouches]
      exact touchesStmts_of_kept h

theorem touchesElif_of_kept : ∀ {stmt : IRStmt}, KeptElif m f sigId isWrite stmt →
    fifoElifTouches sigId isWrite stmt = true
  | .ifStmt condition thenBlock elifChain _, h => by
      rw [KeptElif] at h
      rw [fifoElifTouches]
      rcases h with ⟨hthen, -⟩ | helif
      · simp [hthen]
      · simp [touchesElif_of_kept helif]
  | .null, h | .assignment _, h | .select .., h | .block _, h | .memWrite .., h => by
      rw [KeptElif] at h
      · exact h.elim
      · nofun

theorem touchesCases_of_kept {selector : IRExpr} : ∀ {cases : List (IRExpr × IRStmt)},
    KeptCases m f sigId isWrite selector cases → fifoCasesTouch sigId isWrite cases = true
  | [], h => by rw [KeptCases] at h; exact h.elim
  | (caseValue, body) :: rest, h => by
      rw [KeptCases] at h
      rw [fifoCasesTouch]
      rcases h with ⟨hbody, -⟩ | hrest
      · rw [hbody, Bool.true_or]
      · rw [touchesCases_of_kept hrest, Bool.or_true]

theorem touchesStmts_of_kept : ∀ {stmts : List IRStmt}, KeptStmts m f sigId isWrite stmts →
    fifoStmtsTouch sigId isWrite stmts = true
  | [], h => by rw [KeptStmts] at h; exact h.elim
  | stmt :: rest, h => by
      rw [KeptStmts] at h
      rw [fifoStmtsTouch]
      rcases h with hstmt | hrest
      · rw [touches_of_kept hstmt, Bool.true_or]
      · rw [touchesStmts_of_kept hrest, Bool.or_true]

end

variable {a : IRAssignment}

mutual

/-- An access on the path has all of its guards, so also those that are kept. -/
theorem kept_of_path (ha : fifoAssignTouches sigId isWrite a = true) : ∀ {stmt : IRStmt},
    a ∈ pathAssignments m f stmt → KeptGuards m f sigId isWrite stmt
  | .null, h | .memWrite .., h => by
      rw [pathAssignments] at h
      exact absurd h List.not_mem_nil
  | .assignment b, h => by
      rw [pathAssignments, List.mem_singleton] at h
      rwa [KeptGuards, ← h]
  | .ifStmt condition thenBlock elifChain elseBlock, h => by
      rw [pathAssignments] at h
      rw [KeptGuards]
      split at h
      · exact absurd h List.not_mem_nil
      · rename_i hcond
        have hkept := kept_of_path ha h
        exact .inl ⟨touches_of_kept hkept, hcond, .inr (.inr hkept)⟩
      · rw [List.mem_append] at h
        rcases h with helif | helse
        · exact .inr (.inl (keptElif_of_path ha helif))
        · split at helse
          · exact absurd helse List.not_mem_nil
          · have hkept := kept_of_path ha helse
            exact .inr (.inr ⟨touches_of_kept hkept, hkept⟩)
  | .select selector cases, h => by
      rw [pathAssignments] at h
      rw [KeptGuards]
      split at h
      · exact absurd h List.not_mem_nil
      · exact keptCases_of_path ha h
  | .block stmts, h => by
      rw [pathAssignments] at h
      rw [KeptGuards]
      exact keptStmts_of_path ha h

theorem keptElif_of_path (ha : fifoAssignTouches sigId isWrite a = true) : ∀ {stmt : IRStmt},
    a ∈ pathElifAssignments m f stmt → KeptElif m f sigId isWrite stmt
  | .ifStmt condition thenBlock elifChain _, h => by
      rw [pathElifAssignments] at h
      rw [KeptElif]
      split at h
      · exact absurd h List.not_mem_nil
      · rename_i hcond
        have hkept := kept_of_path ha h
        exact .inl ⟨touches_of_kept hkept, hcond, .inr (.inr hkept)⟩
      · exact .inr (keptElif_of_path ha h)
  | .null, h | .assignment _, h | .select .., h | .block _, h | .memWrite .., h => by
      rw [pathElifAssignments] at h
      · exact absurd h List.not_mem_nil
      · nofun

theorem keptCases_of_path (ha : fifoAssignTouches sigId isWrite a = true) {selector : IRExpr} :
    ∀ {cases : List (IRExpr × IRStmt)},
      a ∈ pathCasesAssignments m f (simEvalExpr m f selector) cases →
        KeptCases m f sigId isWrite selector cases
  | [], h => by
      rw [pathCasesAssignments] at h
      exact absurd h List.not_mem_nil
  | (caseValue, body) :: rest, h => by
      rw [pathCasesAssignments] at h
      rw [KeptCases]
      split at h
      · rename_i hnull
        exact .inl ⟨touches_of_kept (kept_of_path ha h), .inl hnull⟩
      · split at h
        · rename_i hmatch
          refine .inl ⟨touches_of_kept (kept_of_path ha h), .inr ?_⟩
          rw [NonZero, simEvalExpr]
          exact hmatch
        · exact .inr (keptCases_of_path ha h)

theorem keptStmts_of_path (ha : fifoAssignTouches sigId isWrite a = true) :
    ∀ {stmts : List IRStmt}, a ∈ pathStmtsAssignments m f stmts →
      KeptStmts m f sigId isWrite stmts
  | [], h => by
      rw [pathStmtsAssignments] at h
      exact absurd h List.not_mem_nil
  | stmt :: rest, h => by
      rw [pathStmtsAssignments, List.mem_append] at h
      rw [KeptStmts]
      exact h.imp (kept_of_path ha) (keptStmts_of_path ha)

end

theorem kept_of_writes {stmt : IRStmt} (h : WritesSignal m f sigId stmt) :
    KeptGuards m f sigId true stmt := by
  obtain ⟨a, ha, hid⟩ := h
  refine kept_of_path ?_ ha
  rw [fifoAssignTouches, if_pos rfl, hid, beq_self_eq_true]

/-- A read on the path that the derivation of the read enable does not look at. -/
def OverlookedRead (m : IRModule) (f : CtxState) (sigId : ℕ) (stmt : IRStmt) : Prop :=
  (∃ a ∈ pathAssignments m f stmt, sigId ∈ exprReads a.rhs ∧ fifoExprRefs sigId a.rhs = false) ∨
    ControlReads m f sigId stmt

theorem reads_iff {stmt : IRStmt} : ReadsSignal m f sigId stmt ↔
    (∃ a ∈ pathAssignments m f stmt, sigId ∈ exprReads a.rhs ∧ fifoExprRefs sigId a.rhs = true) ∨
      OverlookedRead m f sigId stmt := by
  rw [ReadsSignal, OverlookedRead, ← or_assoc]
  refine or_congr_left ?_
  rw [← exists_or]
  refine exists_congr fun a => ?_
  cases fifoExprRefs sigId a.rhs <;> simp

/-- When the guards that are kept suffice: they hold only on a path that has the access, a read that
is overlooked comes with one whose guards are kept, some write is found at all, and a write enable
that holds has its low bit set. -/
structure GuardsSuffice (m : IRModule) (f : CtxState) (sigId : ℕ) (stmt : IRStmt) : Prop where

  write : KeptGuards m f sigId true stmt → WritesSignal m f sigId stmt

  read : KeptGuards m f sigId false stmt → ReadsSignal m f sigId stmt

  overlooked : OverlookedRead m f sigId stmt → KeptGuards m f sigId false stmt

  found : (fifoDeriveEnable sigId true stmt).isNull = false

  low : KeptGuards m f sigId true stmt ↔
    simValIsTrue (simValSlice (simEvalExpr m f (fifoDeriveEnable sigId true stmt)) 0 0) = some true

theorem kept_of_reads {stmt : IRStmt} (hover : OverlookedRead m f sigId stmt →
    KeptGuards m f sigId false stmt) (h : ReadsSignal m f sigId stmt) :
    KeptGuards m f sigId false stmt := by
  rcases reads_iff.mp h with ⟨a, ha, -, hrefs⟩ | hread
  · refine kept_of_path ?_ ha
    rwa [fifoAssignTouches, if_neg Bool.false_ne_true]
  · exact hover hread

end

/-- The register 1 is assigned only where the signal 0 is low. -/
def writtenWhenLow : IRStmt :=
  .ifStmt (.signalRef 0 1) (.block [makeAliasStmt 2 (makeLiteral 0 1)]) .null
    (.block [makeAliasStmt 1 (makeLiteral 1 1)])

end JzHdl

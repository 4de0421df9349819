import JzHdl.Backend.AsyncBlock
import JzHdl.Backend.EmitExpr
import JzHdl.Backend.Process
import JzHdl.Lib.NetDrivers
import JzHdl.Sim.Representation

/-! # INOUT ports

A port of direction INOUT is driven by continuous assignments, which are printed
from the top level of the ASYNCHRONOUS block alone. The always block leaves out
every assignment to such a port, wherever it stands.
-/

namespace JzHdl

/-! ## The statements of a tree -/

mutual

/-- The assignments of a statement, in the order of the text. -/
def assignments : IRStmt → List IRAssignment
  | .null | .memWrite .. => []
  | .assignment a => [a]
  | .ifStmt _ thenBlock elifChain elseBlock =>
    assignments thenBlock ++ assignments elifChain ++ assignments elseBlock
  | .select _ cases => casesAssignments cases
  | .block stmts => stmtsAssignments stmts

def casesAssignments : List (IRExpr × IRStmt) → List IRAssignment
  | [] => []
  | (_, body) :: rest => assignments body ++ casesAssignments rest

def stmtsAssignments : List IRStmt → List IRAssignment
  | [] => []
  | stmt :: rest => assignments stmt ++ stmtsAssignments rest

end

section

variable (m : IRModule) (f : CtxState)

mutual

/-- The assignments on the path that a statement takes under a valuation. -/
def pathAssignments : IRStmt → List IRAssignment
  | .null | .memWrite .. => []
  | .assignment a => [a]
  | .ifStmt condition thenBlock elifChain elseBlock =>
    match simValIsTrue (simEvalExpr m f condition) with
    | none => []
    | some true => pathAssignments thenBlock
    | some false =>
      pathElifAssignments elifChain ++
        if elifDone m f elifChain then [] else pathAssignments elseBlock
  | .select selector cases =>
    if simValHasXz (simEvalExpr m f selector) then []
    else pathCasesAssignments (simEvalExpr m f selector) cases
  | .block stmts => pathStmtsAssignments stmts

def pathElifAssignments : IRStmt → List IRAssignment
  | .ifStmt condition thenBlock elifChain _ =>
    match simValIsTrue (simEvalExpr m f condition) with
    | none => []
    | some true => pathAssignments thenBlock
    | some false => pathElifAssignments elifChain
  | _ => []

def pathCasesAssignments (v : SimValue) : List (IRExpr × IRStmt) → List IRAssignment
  | [] => []
  | (caseValue, body) :: rest =>
    if caseValue.isNull then pathAssignments body
    else if simValIsTrue (simValEq v (simEvalExpr m f caseValue)) = some true then
      pathAssignments body
    else pathCasesAssignments v rest

def pathStmtsAssignments : List IRStmt → List IRAssignment
  | [] => []
  | stmt :: rest => pathAssignments stmt ++ pathStmtsAssignments rest

end

mutual

theorem pathAssignments_subset : ∀ stmt : IRStmt,
    pathAssignments m f stmt ⊆ assignments stmt
  | .null | .memWrite .. => by rw [pathAssignments]; exact List.nil_subset _
  | .assignment a => by rw [pathAssignments, assignments]; exact List.Subset.refl _
  | .ifStmt condition thenBlock elifChain elseBlock => by
      rw [pathAssignments, assignments]
      split
      · exact List.nil_subset _
      · intro a ha
        simp only [List.mem_append]
        exact .inl (.inl (pathAssignments_subset thenBlock ha))
      · intro a ha
        simp only [List.mem_append] at ha ⊢
        rcases ha with ha | ha
        · exact .inl (.inr (pathElifAssignments_subset elifChain ha))
        · split at ha
          · exact absurd ha List.not_mem_nil
          · exact .inr (pathAssignments_subset elseBlock ha)
  | .select selector cases => by
      rw [pathAssignments, assignments]
      split
      · exact List.nil_subset _
      · exact pathCasesAssignments_subset _ cases
  | .block stmts => by
      rw [pathAssignments, assignments]
      exact pathStmtsAssignments_subset stmts

theorem pathElifAssignments_subset : ∀ stmt : IRStmt,
    pathElifAssignments m f stmt ⊆ assignments stmt
  | .ifStmt condition thenBlock elifChain elseBlock => by
      rw [pathElifAssignments, assignments]
      intro a ha
      simp only [List.mem_append]
      split at ha
      · exact absurd ha List.not_mem_nil
      · exact .inl (.inl (pathAssignments_subset thenBlock ha))
      · exact .inl (.inr (pathElifAssignments_subset elifChain ha))
  | .null | .assignment _ | .select .. | .block _ | .memWrite .. => by
      rw [pathElifAssignments]
      · exact List.nil_subset _
      · nofun

theorem pathCasesAssignments_subset (v : SimValue) : ∀ cases : List (IRExpr × IRStmt),
    pathCasesAssignments m f v cases ⊆ casesAssignments cases
  | [] => by rw [pathCasesAssignments]; exact List.nil_subset _
  | (caseValue, body) :: rest => by
      rw [pathCasesAssignments, casesAssignments]
      intro a ha
      rw [List.mem_append]
      split at ha
      · exact .inl (pathAssignments_subset body ha)
      · split at ha
        · exact .inl (pathAssignments_subset body ha)
        · exact .inr (pathCasesAssignments_subset v rest ha)

theorem pathStmtsAssignments_subset : ∀ stmts : List IRStmt,
    pathStmtsAssignments m f stmts ⊆ stmtsAssignments stmts
  | [] => by rw [pathStmtsAssignments]; exact List.nil_subset _
  | stmt :: rest => by
      rw [pathStmtsAssignments, stmtsAssignments]
      intro a ha
      rw [List.mem_append] at ha ⊢
      exact ha.imp (fun h => pathAssignments_subset stmt h)
        fun h => pathStmtsAssignments_subset rest h

end

end

/-! ## What is printed -/

/-- The statements of the outermost block. -/
def topLevel : IRStmt → List IRStmt
  | .block stmts => stmts
  | _ => []

def directAssignment : IRStmt → Option IRAssignment
  | .assignment a => some a
  | _ => none

/-- The assignments of a statement other than the statement itself. -/
def assignmentsBelow : IRStmt → List IRAssignment
  | .assignment _ => []
  | stmt => assignments stmt

namespace IRModule

section

variable (m : IRModule)

def assignmentTargetsInoutPort (a : IRAssignment) : Bool :=
  (m.findSignalIndexByIdRaw a.lhsSignalId).any fun i => (m.kindAt i).isInout

/-- A directional assignment to an INOUT port. -/
def isInoutDrive (a : IRAssignment) : Bool :=
  !assignmentKindIsAlias a.kind && m.assignmentTargetsInoutPort a

def asyncBlockHasNonAliasLogic : Bool :=
  (topLevel m.asyncBlock).any fun stmt =>
    (directAssignment stmt).all fun a => !assignmentKindIsAlias a.kind

/-- A continuous assignment to an INOUT port. The target has the name that aliasing chose. -/
structure InoutAssign where

  source : IRAssignment

  target : m.SignalIndex

  slice : Option (ℕ × ℕ)

  text : List VerilogToken

variable (ctx : EmitContext)

def emitInoutContinuousAssign (a : IRAssignment) : Option m.InoutAssign :=
  if assignmentKindIsAlias a.kind then none
  else if !m.assignmentTargetsInoutPort a then none
  else
    (m.findSignalById a.lhsSignalId).map fun i => {
      source := a
      target := i
      slice := if a.isSliced then some (a.lhsMsb, a.lhsLsb) else none
      text := emitExpr ctx a.rhs }

def emitInoutContinuousAssigns : List m.InoutAssign :=
  ((topLevel m.asyncBlock).filterMap directAssignment).filterMap (m.emitInoutContinuousAssign ctx)

/-- What the block prints before its always block. -/
def continuousAssigns : List m.InoutAssign :=
  if m.asyncBlockHasNonAliasLogic then m.emitInoutContinuousAssigns ctx else []

/-- The assignments to INOUT ports that are printed inside the always block. -/
def proceduralInouts : List IRAssignment :=
  if m.asyncBlockHasNonAliasLogic then
    (assignments m.asyncBlock).filter fun a => m.isInoutDrive a && (blockingTarget m a).isSome
  else []

/-! ## Bits of a port -/

def InoutAssign.width {m : IRModule} (c : m.InoutAssign) : ℕ :=
  match c.slice with
  | none => (m.signals.get c.target).width
  | some (msb, lsb) => msb - lsb + 1

/-- What Verilog reads from a text on the right of a net of some width: the state of each bit. -/
abbrev TextReading : Type := List VerilogToken → ℕ → ℕ → Bit4

def InoutAssign.drive {m : IRModule} (read : TextReading) (p : m.SignalIndex) (k : ℕ)
    (c : m.InoutAssign) : Option Bit4 :=
  if c.target ≠ p then none
  else
    match c.slice with
    | none => some (read c.text c.width k)
    | some (msb, lsb) => if lsb ≤ k ∧ k ≤ msb then some (read c.text c.width (k - lsb)) else none

/-- All drivers of one bit of a port. -/
def bitDrivers (read : TextReading) (p : m.SignalIndex) (k : ℕ) : List Bit4 :=
  (m.continuousAssigns ctx).filterMap (InoutAssign.drive read p k)

def portBit (read : TextReading) (p : m.SignalIndex) (k : ℕ) : Bit4 :=
  NetDrivers.resolve .z .x (m.bitDrivers ctx read p k)

/-! ## What the block says -/

variable (f : CtxState)

/-- The value that one assignment gives to a bit of a port. -/
def drivePort (p : m.SignalIndex) (bits : ℕ → Bit4) (a : IRAssignment) (k : ℕ) : Bit4 :=
  let rhs := extendRhs a.kind (simEvalExpr m f a.rhs) (m.signals.get p).width
  if m.isInoutDrive a && m.findSignalIndexByIdRaw a.lhsSignalId = some p then
    if !a.isSliced then rhs.bit4 k
    else if a.lhsLsb ≤ k ∧ k ≤ a.lhsMsb then rhs.bit4 (k - a.lhsLsb)
    else bits k
  else bits k

/-- The assignments in order, from a port that nothing drives. -/
def drivenBy (drives : List IRAssignment) (p : m.SignalIndex) : ℕ → Bit4 :=
  drives.foldl (m.drivePort f p) fun _ => .z

/-- The value of a port after the path that the block takes. -/
def pathBit (p : m.SignalIndex) : ℕ → Bit4 :=
  m.drivenBy f (pathAssignments m f m.asyncBlock) p

/-- Every assignment to an INOUT port is printed in exactly one place, and the continuous
assignments give every bit of such a port the state that the block gives it. -/
structure DrivesInouts (read : TextReading) : Prop where

  once : ((assignments m.asyncBlock).filter m.isInoutDrive).Perm
    ((m.continuousAssigns ctx).map InoutAssign.source ++ m.proceduralInouts)

  bits : ∀ p : m.SignalIndex, (m.kindAt p).isInout = true → ∀ k < (m.signals.get p).width,
    m.portBit ctx read p k = m.pathBit f p k

/-- The directional assignments of the outermost block. -/
def topAssignments : List IRAssignment := (topLevel m.asyncBlock).filterMap directAssignment

/-- The assignments below the outermost block. -/
def nestedAssignments : List IRAssignment :=
  match m.asyncBlock with
  | .block stmts => stmts.flatMap assignmentsBelow
  | stmt => assignments stmt

/-- The drivers of a bit have the state `v` together. -/
def DriversMeet (drivers : List Bit4) (v : Bit4) : Prop :=
  if v = .x then NetDrivers.Clash .z .x drivers else NetDrivers.Agree .z v drivers

/-- No assignment to an INOUT port is nested, and the drivers of every bit have together the state
that the last assignment of the outermost block gives it. -/
structure InoutsAtTop (read : TextReading) : Prop where

  top : ∀ a ∈ m.nestedAssignments, m.isInoutDrive a = false

  meet : ∀ p : m.SignalIndex, (m.kindAt p).isInout = true → ∀ k < (m.signals.get p).width,
    DriversMeet (m.bitDrivers ctx read p k) (m.drivenBy f m.topAssignments p k)

end

section

variable {m : IRModule} {ctx : EmitContext} {f : CtxState} {read : TextReading}

/-! ## Places -/

theorem proceduralInouts_eq_nil : m.proceduralInouts = [] := by
  rw [proceduralInouts]
  split
  · rw [List.filter_eq_nil_iff]
    intro a _ h
    rw [Bool.and_eq_true, isInoutDrive, Bool.and_eq_true, assignmentTargetsInoutPort] at h
    obtain ⟨⟨-, hport⟩, hblocking⟩ := h
    rw [Option.any_eq_true] at hport
    obtain ⟨i, hi, hk⟩ := hport
    rw [blockingTarget, hi, Option.map_some, hk, if_pos rfl, ite_self] at hblocking
    exact Bool.false_ne_true hblocking
  · rfl

theorem source_emitInoutContinuousAssign (a : IRAssignment) :
    (m.emitInoutContinuousAssign ctx a).map InoutAssign.source =
      if m.isInoutDrive a then some a else none := by
  unfold emitInoutContinuousAssign isInoutDrive
  cases ha : assignmentKindIsAlias a.kind with
  | true => rfl
  | false =>
    cases hport : m.assignmentTargetsInoutPort a with
    | false => rfl
    | true =>
      rw [assignmentTargetsInoutPort] at hport
      cases hraw : m.findSignalIndexByIdRaw a.lhsSignalId with
      | none => rw [hraw] at hport; exact absurd hport Bool.false_ne_true
      | some i => simp [findSignalById, hraw]

theorem source_emitInoutContinuousAssigns :
    (m.emitInoutContinuousAssigns ctx).map InoutAssign.source =
      m.topAssignments.filter m.isInoutDrive := by
  rw [emitInoutContinuousAssigns, ← topAssignments, List.map_filterMap,
    funext source_emitInoutContinuousAssign]
  exact congrFun List.filterMap_eq_filter _

/-- Without logic of its own the block has no assignment to print. -/
theorem continuousAssigns_eq : m.continuousAssigns ctx = m.emitInoutContinuousAssigns ctx := by
  rw [continuousAssigns]
  split
  · rfl
  · rename_i hlogic
    apply Eq.symm
    rw [← List.map_eq_nil_iff, source_emitInoutContinuousAssigns, List.filter_eq_nil_iff]
    intro a ha hdrive
    apply hlogic
    rw [topAssignments, List.mem_filterMap] at ha
    obtain ⟨stmt, hstmt, hdirect⟩ := ha
    rw [asyncBlockHasNonAliasLogic, List.any_eq_true]
    refine ⟨stmt, hstmt, ?_⟩
    rw [isInoutDrive, Bool.and_eq_true] at hdrive
    rw [hdirect]
    exact hdrive.1

theorem stmtsAssignments_eq : ∀ stmts : List IRStmt,
    stmtsAssignments stmts = stmts.flatMap assignments
  | [] => rfl
  | stmt :: rest => by rw [stmtsAssignments, List.flatMap_cons, stmtsAssignments_eq rest]

theorem pathStmtsAssignments_eq : ∀ stmts : List IRStmt,
    pathStmtsAssignments m f stmts = stmts.flatMap (pathAssignments m f)
  | [] => rfl
  | stmt :: rest => by rw [pathStmtsAssignments, List.flatMap_cons, pathStmtsAssignments_eq rest]

theorem assignments_direct (stmt : IRStmt) :
    assignments stmt = (directAssignment stmt).toList ++ assignmentsBelow stmt := by
  cases stmt <;> rfl

theorem assignments_perm :
    (assignments m.asyncBlock).Perm (m.topAssignments ++ m.nestedAssignments) := by
  unfold topAssignments nestedAssignments
  cases m.asyncBlock with
  | block stmts =>
    rw [assignments, stmtsAssignments_eq, topLevel]
    dsimp only
    induction stmts with
    | nil => exact .nil
    | cons stmt rest ih =>
      rw [List.flatMap_cons, assignments_direct]
      have htop : (stmt :: rest).filterMap directAssignment =
          (directAssignment stmt).toList ++ rest.filterMap directAssignment := by
        rw [List.filterMap_cons]
        cases directAssignment stmt <;> rfl
      rw [htop, List.flatMap_cons, List.append_assoc, List.append_assoc]
      refine List.Perm.append_left _ ((List.Perm.append_left _ ih).trans ?_)
      rw [← List.append_assoc, ← List.append_assoc]
      exact List.perm_append_comm.append_right _
  | _ => exact .refl _

/-- Assignments are printed once each when none of them is nested. -/
theorem once_iff : ((assignments m.asyncBlock).filter m.isInoutDrive).Perm
      ((m.continuousAssigns ctx).map InoutAssign.source ++ m.proceduralInouts) ↔
    ∀ a ∈ m.nestedAssignments, m.isInoutDrive a = false := by
  have hperm := (assignments_perm (m := m)).filter m.isInoutDrive
  rw [List.filter_append] at hperm
  have hnested : m.nestedAssignments.filter m.isInoutDrive = [] ↔
      ∀ a ∈ m.nestedAssignments, m.isInoutDrive a = false := by
    simp only [List.filter_eq_nil_iff, Bool.not_eq_true]
  rw [continuousAssigns_eq, source_emitInoutContinuousAssigns, proceduralInouts_eq_nil,
    List.append_nil, ← hnested]
  constructor
  · intro h
    have hlength := (h.symm.trans hperm).length_eq
    rw [List.length_append] at hlength
    exact List.eq_nil_of_length_eq_zero (by omega)
  · intro h
    rwa [h, List.append_nil] at hperm

/-! ## Values -/

/-- An executed assignment gives each bit of the port the value that `drivePort` gives it. -/
theorem bit4_applyAssign {s : CtxState} {a : IRAssignment} {p : m.SignalIndex} {k : ℕ}
    (hdrive : m.isInoutDrive a = true) (hraw : m.findSignalIndexByIdRaw a.lhsSignalId = some p)
    (hi : m.sigIndex a.lhsSignalId = some p.val)
    (hw : (s.signals p).current.width = (m.signals.get p).width) (hk : k < (m.signals.get p).width)
    (hk' : k < 256) : ((applyAssign m false s a).signals p).current.bit4 k =
      m.drivePort s p (s.signals p).current.bit4 a k := by
  have hnow : applyAssign m false s a =
      writeNow a (s.raiseError (simEvalRaises m s a.rhs)) p (assignedValue m s a p) := by
    rw [applyAssign, hi]
    rfl
  have hvalue : assignedValue m s a p =
      extendRhs a.kind (simEvalExpr m s a.rhs) (m.signals.get p).width := by rw [assignedValue, hw]
  simp only [drivePort, hdrive, hraw, ← hvalue, Bool.true_and, decide_true, if_true]
  rw [hnow]
  cases hsliced : a.isSliced with
  | true =>
    rw [writeNow_slice hsliced, Rtlil.bit4_writeSlice _ _ _ _ hk']
    rfl
  | false =>
    rw [if_pos (by rfl)]
    simp only [writeNow, hsliced, Bool.false_eq_true, if_false]
    split
    · rename_i hsame
      refine Rtlil.bit4_of_part (sameWords_bit hsame (Nat.zero_le _) ?_)
      have hwidth : ((s.raiseError (simEvalRaises m s a.rhs)).signals p).current.width =
          (m.signals.get p).width := hw
      rw [hwidth]
      omega
    · change ((((s.raiseError _).setCurrent p _).signals p).current).bit4 k = _
      rw [setCurrent_current, if_pos rfl]

theorem drivenBy_filter (drives : List IRAssignment) (p : m.SignalIndex) :
    m.drivenBy f (drives.filter m.isInoutDrive) p = m.drivenBy f drives p := by
  have hskip : ∀ (bits : ℕ → Bit4) (a : IRAssignment), ¬ m.isInoutDrive a = true →
      m.drivePort f p bits a = bits := by
    intro bits a ha
    funext k
    rw [drivePort, if_neg]
    simp [ha]
  rw [drivenBy, drivenBy]
  generalize (fun _ : ℕ => Bit4.z) = bits
  induction drives generalizing bits with
  | nil => rfl
  | cons a rest ih =>
    by_cases ha : m.isInoutDrive a = true
    · rw [List.filter_cons_of_pos ha, List.foldl_cons, List.foldl_cons, ih]
    · rw [List.filter_cons_of_neg ha, List.foldl_cons, hskip bits a ha, ih]

/-- The conditions of the block never matter when no assignment is nested. -/
theorem pathAssignments_filter (h : ∀ a ∈ m.nestedAssignments, m.isInoutDrive a = false) :
    (pathAssignments m f m.asyncBlock).filter m.isInoutDrive =
      m.topAssignments.filter m.isInoutDrive := by
  have hnone : ∀ stmt, (∀ a ∈ assignments stmt, m.isInoutDrive a = false) →
      (pathAssignments m f stmt).filter m.isInoutDrive = [] := by
    intro stmt hstmt
    rw [List.filter_eq_nil_iff]
    intro a ha
    rw [hstmt a (pathAssignments_subset m f stmt ha)]
    exact Bool.false_ne_true
  revert h
  unfold topAssignments nestedAssignments
  cases m.asyncBlock with
  | block stmts =>
    rw [pathAssignments, pathStmtsAssignments_eq, topLevel]
    dsimp only
    intro h
    induction stmts with
    | nil => rfl
    | cons stmt rest ih =>
      have hrest := ih fun a ha => h a (List.mem_append_right _ ha)
      rw [List.flatMap_cons, List.filter_append, hrest]
      cases hstmt : directAssignment stmt with
      | some a =>
        cases stmt with
        | assignment b =>
          obtain rfl : b = a := Option.some.inj hstmt
          rw [pathAssignments, List.filterMap_cons_some hstmt, ← List.filter_append,
            List.singleton_append]
        | _ => exact absurd hstmt nofun
      | none =>
        rw [List.filterMap_cons_none hstmt, hnone stmt, List.nil_append]
        intro a ha
        refine h a (List.mem_append_left _ ?_)
        rwa [assignments_direct, hstmt] at ha
  | _ => exact hnone _

theorem pathBit_eq (h : ∀ a ∈ m.nestedAssignments, m.isInoutDrive a = false)
    (p : m.SignalIndex) : m.pathBit f p = m.drivenBy f m.topAssignments p := by
  rw [pathBit, ← drivenBy_filter, pathAssignments_filter h, drivenBy_filter]

theorem portBit_eq_iff (p : m.SignalIndex) (k : ℕ) (v : Bit4) :
    m.portBit ctx read p k = v ↔ DriversMeet (m.bitDrivers ctx read p k) v := by
  rw [portBit, DriversMeet]
  split
  · rename_i hv
    rw [hv, NetDrivers.resolve_eq_clash_iff (by decide)]
  · rename_i hv
    exact NetDrivers.resolve_eq_iff_agree (by decide) hv

end

end IRModule

/-- A pad of one bit that is driven while it is enabled. -/
def enabledPad : IRModule where
  signals := [⟨0, .port .portIn, 1⟩, ⟨1, .port .portIn, 1⟩, ⟨2, .port .portInout, 1⟩]
  memories := []
  clockDomains := []
  asyncBlock := .block [.ifStmt (.signalRef 0 1)
    (.block [.assignment ⟨2, .signalRef 1 1, .drive, false, 0, 0⟩]) .null .null]

theorem enabledPad_not_once (f : CtxState) (read : IRModule.TextReading) :
    ¬ enabledPad.DrivesInouts letters f read := by
  rintro ⟨honce, -⟩
  have hnested := IRModule.once_iff.mp honce ⟨2, .signalRef 1 1, .drive, false, 0, 0⟩ (by
    simp [IRModule.nestedAssignments, enabledPad, assignmentsBelow, assignments, stmtsAssignments])
  revert hnested
  decide

def enabledState : CtxState where
  signals _ := ⟨simValOnes 1, simValOnes 1, false⟩
  cells _ _ := simValZero 1
  runtimeError := false
  settleDirty := false
  sigDirty _ := false

end JzHdl

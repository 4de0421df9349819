import JzHdl.Backend.Alias
import JzHdl.Backend.MemWrite
import JzHdl.Ir.ConcatAssign

/-! # RTLIL processes

A statement tree becomes the body of a process: assignments to intermediate
wires and nested switches. The wires start as the signals; every executed
assignment overrides the bits it covers.
-/

namespace JzHdl.Rtlil

open BitWords

/-- The right side of a process assignment. -/
inductive ProcRhs where

  | zeros

  | constant (vcc : Bool)

  | widened (lit : IRLiteral)

  | value (e : IRExpr)

  | extended (e : IRExpr)

inductive ProcSelector where

  | test (condition : IRExpr) (reduce : Bool)

  | value (selector : IRExpr)

inductive ProcLabel where

  | one

  | value (e : IRExpr)

/-- Statements of a process body. A case without labels is the default. -/
inductive ProcStmt where

  | assign (signal : ℕ) (slice : Option (ℕ × ℕ)) (rhs : ProcRhs)

  | switch (selector : ProcSelector) (cases : List (List ProcLabel × List ProcStmt))

/-- What an expression carries besides its tree: its width, and whether it is `GND` or `VCC`. -/
structure ExprInfo where

  exprWidth : IRExpr → ℕ

  polymorphic : IRExpr → Option Bool

/-! ## Emission -/

section

variable (env : ExprInfo) (m : IRModule)

def rhsActualWidth (e : IRExpr) : ℕ :=
  match e with
  | .signalRef id _ =>
    match m.signals.find? (·.id == id) with
    | some sig => if 0 < sig.width then sig.width else env.exprWidth e
    | none => env.exprWidth e
  | _ => env.exprWidth e

def lhsWidth (sig : IRSignal) (a : IRAssignment) : ℕ :=
  if a.isSliced then a.lhsMsb + 1 - a.lhsLsb else max 1 sig.width

/-- A literal is widened in place, any other narrow expression by an unsigned `$pos` cell. -/
def emitRhsSigspec (a : IRAssignment) (width : ℕ) : ProcRhs :=
  if a.rhs.isNull then .zeros
  else
    match env.polymorphic a.rhs with
    | some vcc => .constant vcc
    | none =>
      match a.rhs with
      | .literal lit w =>
        if 0 < lit.width ∧ lit.width < width then .widened lit else .value (.literal lit w)
      | e =>
        if 0 < rhsActualWidth env m e ∧ rhsActualWidth env m e < width then .extended e
        else .value e

def emitProcessAssignment (a : IRAssignment) : List ProcStmt :=
  if assignmentKindIsAlias a.kind then []
  else
    match m.signals.findIdx? (·.id == a.lhsSignalId) with
    | none => []
    | some i =>
      match m.signals[i]? with
      | none => []
      | some sig => [.assign i (assignSlice a) (emitRhsSigspec env m a (lhsWidth sig a))]

def selectCaseIsEmpty : IRStmt → Bool
  | .null => true
  | .block stmts => stmts.isEmpty
  | _ => false

def isIf : IRStmt → Bool
  | .ifStmt .. => true
  | _ => false

mutual

def emitProcessStmt : IRStmt → List ProcStmt
  | .null | .memWrite .. => []
  | .assignment a => emitProcessAssignment env m a
  | .block stmts => emitProcessBlock stmts
  | .ifStmt c t elif e =>
    [.switch (.test c (decide (1 < env.exprWidth c))) [([.one], emitProcessStmt t),
      ([], emitProcessElse elif (if e.isNull then none else some (emitProcessStmt e)))]]
  | .select selector cases => [.switch (.value selector) (emitProcessCases [] cases)]

/-- The default arm of an IF. The ELSE of the root goes to the last link of the chain, unless
that link has one of its own. -/
def emitProcessElse : IRStmt → Option (List ProcStmt) → List ProcStmt
  | .ifStmt c t elif e, rootElse =>
    let own := if e.isNull then none else some (emitProcessStmt e)
    [.switch (.test c (decide (1 < env.exprWidth c))) [([.one], emitProcessStmt t),
      ([], emitProcessElse elif (if isIf elif then rootElse.or own else own.or rootElse))]]
  | _, rootElse => rootElse.getD []

/-- Labels with an empty body are kept back for the next case with a body. -/
def emitProcessCases (pending : List ProcLabel) :
    List (IRExpr × IRStmt) → List (List ProcLabel × List ProcStmt)
  | [] => if pending.isEmpty then [] else [(pending, [])]
  | (v, body) :: rest =>
    if v.isNull then
      (if pending.isEmpty then [] else [(pending, [])]) ++
        ([], emitProcessStmt body) :: emitProcessCases [] rest
    else if selectCaseIsEmpty body then emitProcessCases (pending ++ [.value v]) rest
    else (pending ++ [.value v], emitProcessStmt body) :: emitProcessCases [] rest

def emitProcessBlock : List IRStmt → List ProcStmt
  | [] => []
  | stmt :: rest => emitProcessStmt stmt ++ emitProcessBlock rest

end

end

/-! ## Interpretation -/

/-- An executed assignment: a wire, the bits it covers and their values. -/
structure Action where

  signal : ℕ

  slice : Option (ℕ × ℕ)

  bits : ℕ → Bit4

section

variable (m : IRModule) (s : CtxState)

/-- A wide condition goes through `$reduce_or`. -/
def conditionBit (c : IRExpr) (reduce : Bool) : Bool :=
  let v := simEvalExpr m s c
  if reduce then (List.range v.width).any v.val.bit else v.val.bit 0

def labelHits : ProcSelector → ProcLabel → Bool
  | .test c reduce, .one => conditionBit m s c reduce
  | .value selector, .value e => decide (simValIsTrue (simValEq (simEvalExpr m s selector)
      (simEvalExpr m s e)) = some true)
  | _, _ => false

def rhsBits : ProcRhs → ℕ → Bit4
  | .zeros, _ => .zero
  -- the source shifts a 64-bit mask; there is no bit to shift from 64 on
  | .constant vcc, k => if vcc && decide (k < 64) then .one else .zero
  | .widened lit, k => if lit.words.bit k then .one else .zero
  | .value e, k => (simEvalExpr m s e).bit4 k
  | .extended e, k => extendBit4 false (simEvalExpr m s e) k

mutual

/-- The assignments that a statement executes; in a switch the first matching case wins. -/
def procActions : ProcStmt → List Action
  | .assign i slice rhs => [⟨i, slice, rhsBits m s rhs⟩]
  | .switch selector cases => procCaseActions selector cases

def procCaseActions (selector : ProcSelector) : List (List ProcLabel × List ProcStmt) → List Action
  | [] => []
  | (labels, body) :: rest =>
    if labels.isEmpty || labels.any (labelHits m s selector) then procBlockActions body
    else procCaseActions selector rest

def procBlockActions : List ProcStmt → List Action
  | [] => []
  | stmt :: rest => procActions stmt ++ procBlockActions rest

end

/-- A later assignment overrides the bits it covers. -/
def applyAction (wires : ℕ → ℕ → Bit4) (a : Action) (i k : ℕ) : Bit4 :=
  if i = a.signal then
    match a.slice with
    | none => a.bits k
    | some (msb, lsb) => if lsb ≤ k ∧ k ≤ msb then a.bits (k - lsb) else wires i k
  else wires i k

/-- The wires after a process body; they start as the signals. -/
def runProcess (body : List ProcStmt) : ℕ → ℕ → Bit4 :=
  (procBlockActions m s body).foldl applyAction fun i k => (s.signals i).current.bit4 k

end

/-- The value that an entry will have after the commit. -/
def committed (e : SimSignalEntry) : SimValue := if e.hasPending then e.next else e.current

/-- The process leaves every bit of every signal as the simulator does. -/
def ProcessMeets (env : ExprInfo) (m : IRModule) (s : CtxState) (stmt : IRStmt) : Prop :=
  ∀ i sig, m.signals[i]? = some sig → ∀ k < sig.width,
    runProcess m s (emitProcessStmt env m stmt) i k =
      (committed ((simExecStmt m true stmt s).signals i)).bit4 k

/-! ## Where the two agree -/

section

variable (env : ExprInfo) (m : IRModule) (s : CtxState)

/-- The bits of a target that an assignment covers. -/
def targetWidth (a : IRAssignment) (full : ℕ) : ℕ :=
  if a.isSliced then a.lhsMsb + 1 - a.lhsLsb else full

/-- A right side no wider than its target, whose sign bit is not copied. -/
structure RhsSafe (a : IRAssignment) (full : ℕ) : Prop where

  present : a.rhs.isNull = false

  masked : (simEvalExpr m s a.rhs).Masked

  positive : 0 < (simEvalExpr m s a.rhs).width

  fits : (simEvalExpr m s a.rhs).width ≤ targetWidth a full

  inside : targetWidth a full ≤ full ∧ full ≤ 256

  sign : a.kind.isSext = true → (simEvalExpr m s a.rhs).width < targetWidth a full →
    (simEvalExpr m s a.rhs).bit4 ((simEvalExpr m s a.rhs).width - 1) = .zero

  actual : rhsActualWidth env m a.rhs = (simEvalExpr m s a.rhs).width

  literal : ∀ lit w, a.rhs = .literal lit w →
    lit.isZ = false ∧ 0 < lit.width ∧ ∀ k, lit.width ≤ k → lit.words.bit k = false

  named : ∀ vcc, env.polymorphic a.rhs = some vcc →
    (simEvalExpr m s a.rhs).width = targetWidth a full ∧ (vcc = true → targetWidth a full ≤ 64) ∧
      ∀ k < targetWidth a full, (simEvalExpr m s a.rhs).bit4 k = if vcc then .one else .zero

/-- A directional assignment to a signal whose identifier and width are what both sides take them
to be. -/
structure AssignSafe (a : IRAssignment) : Prop where

  directional : assignmentKindIsAlias a.kind = false

  target : m.sigIndex a.lhsSignalId = m.signals.findIdx? (·.id == a.lhsSignalId)

  width : ∀ i, m.sigIndex a.lhsSignalId = some i → ∃ sig, m.signals[i]? = some sig ∧
    sig.width = (s.signals i).current.width

  rhs : ∀ i, m.sigIndex a.lhsSignalId = some i →
    RhsSafe env m s a (s.signals i).current.width

/-- A known condition whose width is the declared one. -/
structure ConditionSafe (c : IRExpr) : Prop where

  known : simValHasXz (simEvalExpr m s c) = false

  positive : 0 < (simEvalExpr m s c).width

  declared : env.exprWidth c = (simEvalExpr m s c).width

/-- No body follows the labels at the front of a list of cases. -/
def nothingMerged : List (IRExpr × IRStmt) → Bool
  | [] => true
  | (v, body) :: rest => v.isNull || (selectCaseIsEmpty body && nothingMerged rest)

mutual

/-- Along the executed path every assignment and condition is safe, no arm with an empty body is
merged into a body, and no link of an IF chain has an ELSE of its own. -/
def PathSafe : IRStmt → Prop
  | .null | .memWrite .. => True
  | .assignment a => AssignSafe env m s a
  | .block stmts => PathSafeBlock stmts
  | .ifStmt c t elif e => ConditionSafe env m s c ∧
      if holds m s c then PathSafe t
      else PathSafeElif elif ∧ (elifFails m s elif = true → PathSafe e)
  | .select selector cases =>
    simValHasXz (simEvalExpr m s selector) = false ∧ PathSafeCases selector cases

def PathSafeElif : IRStmt → Prop
  | .ifStmt c t elif e => ConditionSafe env m s c ∧ e.isNull = true ∧
      if holds m s c then PathSafe t else PathSafeElif elif
  | _ => True

def PathSafeCases (selector : IRExpr) : List (IRExpr × IRStmt) → Prop
  | [] => True
  | (v, body) :: rest =>
    if v.isNull then PathSafe body
    else if simValIsTrue (simValEq (simEvalExpr m s selector) (simEvalExpr m s v)) = some true then
      if selectCaseIsEmpty body then nothingMerged rest = true else PathSafe body
    else PathSafeCases selector rest

def PathSafeBlock : List IRStmt → Prop
  | [] => True
  | stmt :: rest => PathSafe stmt ∧ PathSafeBlock rest

end

/-- Nothing is staged yet, nothing reads a word that the statement wrote, and the path is safe. -/
structure ProcessSafe (stmt : IRStmt) : Prop where

  narrow : ∀ sig ∈ m.signals, sig.width ≤ 256

  start : ∀ i, (s.signals i).hasPending = false

  clear : TraceClear m s [] [] (stmtTrace m s stmt)

  path : PathSafe env m s stmt

end

/-! ## Values -/

section

variable {env : ExprInfo} {m : IRModule} {s : CtxState} {a : IRAssignment}

/-- The low bits of an extended value: its own, then zeros when the sign bit is not copied. -/
theorem bit4_extendRhs {kind : IRAssignmentKind} {v : SimValue} {w k : ℕ} (hm : v.Masked)
    (hv : v.width ≤ w) (hw : w ≤ 256) (hk : k < w)
    (hsign : kind.isSext = true → v.width ≤ k → v.bit4 (v.width - 1) = .zero) :
    (extendRhs kind v w).bit4 k = extendBit4 false v k := by
  have hself : v.bit4 k = extendBit4 false v k := by
    rw [extendBit4]
    split
    · rfl
    · rename_i hge
      rw [hm.bit4 (Nat.le_of_not_lt hge)]
      rfl
  rcases Nat.lt_or_eq_of_le hv with hlt | heq
  · rw [extendRhs]
    split
    · rw [simValZext, if_neg (by omega)]
      exact hself
    · split
      · rename_i hs
        rw [bit4_simValSext hm hlt hw hk, extendBit4]
        by_cases hkv : k < v.width
        · rw [if_pos hkv, if_pos hkv]
        · have hzero := hsign hs (by omega)
          rw [if_neg hkv, if_neg hkv, if_neg Bool.false_ne_true]
          rw [SimValue.bit4] at hzero
          cases hx : v.xmask.bit (v.width - 1) with
          | true => rw [hx] at hzero; cases hzero
          | false =>
            rw [hx] at hzero
            cases hz : v.zmask.bit (v.width - 1) with
            | true => rw [hz] at hzero; cases hzero
            | false =>
              rw [hz] at hzero
              cases hb : v.val.bit (v.width - 1) with
              | true => rw [hb] at hzero; cases hzero
              | false => rfl
      · rw [if_neg (by omega), ← hself]
        simp only [SimValue.bit4, simValMask, bit_maskWords, hk, decide_true, Bool.true_and]
  · rw [extendRhs_of_width_eq kind heq]
    exact hself

/-- The bits that the process assigns are those of the extended right side. -/
theorem rhsBits_eq {full k : ℕ} (h : RhsSafe env m s a full) (hk : k < targetWidth a full) :
    rhsBits m s (emitRhsSigspec env m a (targetWidth a full)) k =
      (extendRhs a.kind (simEvalExpr m s a.rhs) full).bit4 k := by
  have hin := h.inside
  have hfit := h.fits
  rw [bit4_extendRhs h.masked (by omega) hin.2 (by omega) fun hs hle => h.sign hs (by omega)]
  rw [emitRhsSigspec, if_neg (by simp [h.present])]
  cases hpoly : env.polymorphic a.rhs with
  | some vcc =>
    obtain ⟨hw, h64, hbits⟩ := h.named vcc hpoly
    have hlt : k < (simEvalExpr m s a.rhs).width := by omega
    rw [extendBit4, if_pos hlt, hbits k hk]
    cases vcc with
    | false => rfl
    | true =>
      have hlow : k < 64 := by have := h64 rfl; omega
      simp [rhsBits, hlow]
  | none =>
    have hother : rhsBits m s (if 0 < rhsActualWidth env m a.rhs ∧
        rhsActualWidth env m a.rhs < targetWidth a full then .extended a.rhs else .value a.rhs) k =
        extendBit4 false (simEvalExpr m s a.rhs) k := by
      split
      · rfl
      · rename_i hwide
        rw [h.actual] at hwide
        have hpos := h.positive
        rw [extendBit4, if_pos (by omega)]
        rfl
    cases hrhs : a.rhs with
    | literal lit w =>
      obtain ⟨hz, hpos, hhigh⟩ := h.literal lit w hrhs
      have hval : simEvalExpr m s (.literal lit w) = simValFromWords lit.words lit.width := by
        have hwidth : (simValFromWords lit.words lit.width).width ≠ 0 := by
          change lit.width ≠ 0
          omega
        rw [simEvalExpr, evalLiteral, hz]
        simp only [Bool.false_eq_true, if_false, if_neg hwidth]
      have hbit : ∀ j < lit.width, (simValFromWords lit.words lit.width).bit4 j =
          if lit.words.bit j then .one else .zero := fun j hj => by
        simp [SimValue.bit4, simValFromWords, simValMask, bit_maskWords, hj]
      have hwid : (simValFromWords lit.words lit.width).width = lit.width := rfl
      have hfits : lit.width ≤ targetWidth a full := by
        rw [hrhs, hval] at hfit
        exact hfit
      rw [hval]
      simp only
      split
      · rw [extendBit4, hwid]
        split
        · rename_i hlow
          rw [hbit k hlow]
          rfl
        · rename_i hge
          rw [rhsBits, hhigh k (by omega)]
          rfl
      · rename_i hwide
        rw [rhsBits, hval, extendBit4, hwid, if_pos (by omega)]
    | null => simpa only [hrhs] using hother
    | signalRef id w => simpa only [hrhs] using hother
    | unary op e w => simpa only [hrhs] using hother
    | binary op l r w => simpa only [hrhs] using hother
    | ternary c t f => simpa only [hrhs] using hother
    | concat es => simpa only [hrhs] using hother
    | slice id msb lsb w => simpa only [hrhs] using hother
    | sliceExpr e msb lsb => simpa only [hrhs] using hother
    | intrinsic op x y z ew w => simpa only [hrhs] using hother
    | memRead name addr w => simpa only [hrhs] using hother

/-- The one-bit condition of a switch is the truth of the condition. -/
theorem conditionBit_eq {c : IRExpr} (h : ConditionSafe env m s c) :
    conditionBit m s c (decide (1 < env.exprWidth c)) = holds m s c := by
  rw [conditionBit, h.declared, holds]
  by_cases hwide : 1 < (simEvalExpr m s c).width
  · rw [decide_eq_true hwide, simValIsTrue, h.known]
    simp only [Bool.false_eq_true, if_false, if_true, Option.some.injEq]
    rw [Bool.eq_iff_iff]
    simp only [decide_eq_true_eq, List.any_eq_true, List.mem_range, masked_and_ne_zero_iff]
    constructor
    · rintro ⟨k, hk, hbit⟩
      refine ⟨k / 64, lt_numWords hk, k % 64, by omega, by omega, ?_⟩
      rw [Words.getLsbD_get _ _ (by omega), show 64 * (k / 64) + k % 64 = k by omega]
      exact hbit
    · rintro ⟨i, -, j, hj, hlt, hbit⟩
      rw [Words.getLsbD_get _ _ hj] at hbit
      exact ⟨_, hlt, hbit⟩
  · have hone : (simEvalExpr m s c).width = 1 := by
      have := h.positive
      omega
    have hbit := isTrue_one_bit hone h.known 0
    rw [Nat.zero_mod] at hbit
    rw [decide_eq_false hwide]
    exact hbit

end

/-! ## Executed assignments -/

/-- The register writes of a list of accesses. -/
def traceActions (tr : List Access) : List Action :=
  (traceWrites tr).filterMap fun w =>
    match w with
    | .reg i slice v => some ⟨i, slice, v.bit4⟩
    | .cell .. => none

/-- Two assignments of the same bits; only bits of the target count. -/
structure Agree (m : IRModule) (a b : Action) : Prop where

  signal : a.signal = b.signal

  slice : a.slice = b.slice

  bits : ∀ k < (match a.slice with
    | none => ((m.signals[a.signal]?).map IRSignal.width).getD 0
    | some (msb, lsb) => msb + 1 - lsb), a.bits k = b.bits k

theorem traceActions_append (a b : List Access) :
    traceActions (a ++ b) = traceActions a ++ traceActions b := by
  rw [traceActions, traceWrites_append, List.filterMap_append]
  rfl

@[simp]
theorem traceActions_eval (e : IRExpr) (tr : List Access) :
    traceActions (.eval e :: tr) = traceActions tr := rfl

section

variable {env : ExprInfo} {m : IRModule} {s : CtxState}

theorem procBlockActions_append (a b : List ProcStmt) :
    procBlockActions m s (a ++ b) = procBlockActions m s a ++ procBlockActions m s b := by
  induction a with
  | nil => rfl
  | cons stmt a ih => rw [List.cons_append, procBlockActions, procBlockActions, ih,
      List.append_assoc]

theorem procBlockActions_single (stmt : ProcStmt) :
    procBlockActions m s [stmt] = procActions m s stmt := by
  rw [procBlockActions, procBlockActions, List.append_nil]

/-- The switch of an IF runs the arm that its condition selects. -/
theorem procActions_test {c : IRExpr} (h : ConditionSafe env m s c) (t e : List ProcStmt) :
    procBlockActions m s [.switch (.test c (decide (1 < env.exprWidth c))) [([.one], t), ([], e)]] =
      if holds m s c then procBlockActions m s t else procBlockActions m s e := by
  rw [procBlockActions_single, procActions, procCaseActions, procCaseActions]
  simp only [List.isEmpty_cons, List.any_cons, List.any_nil, labelHits, conditionBit_eq h,
    Bool.false_or, Bool.or_false, List.isEmpty_nil, if_true]

theorem else_getD (e : IRStmt) :
    (if e.isNull then none else some (emitProcessStmt env m e)).getD [] =
      emitProcessStmt env m e := by
  cases e <;> rfl

theorem actions_assignment {a : IRAssignment} (h : AssignSafe env m s a) :
    List.Forall₂ (Agree m) (procBlockActions m s (emitProcessAssignment env m a))
      (traceActions (assignTrace m s a)) := by
  rw [emitProcessAssignment, if_neg (by simp [h.directional]), ← h.target, assignTrace]
  cases hi : m.sigIndex a.lhsSignalId with
  | none => exact .nil
  | some i =>
    obtain ⟨sig, hsig, hwidth⟩ := h.width i hi
    have hrhs := h.rhs i hi
    have hpos := hrhs.positive
    have hfits := hrhs.fits
    have hfull : lhsWidth sig a = targetWidth a (s.signals i).current.width := by
      have hin := hrhs.inside
      rw [lhsWidth, targetWidth]
      split
      · rfl
      · rename_i hwhole
        rw [targetWidth, if_neg hwhole] at hfits
        omega
    simp only [hsig]
    rw [procBlockActions_single, procActions, hfull]
    refine .cons ⟨rfl, rfl, fun k hk => rhsBits_eq hrhs ?_⟩ .nil
    rw [targetWidth]
    rw [assignSlice] at hk
    split at hk <;> split <;> simp_all

/-- A group that is hit and has no body runs nothing. -/
theorem procCaseActions_pending {selector : ProcSelector} : ∀ (cases : List (IRExpr × IRStmt))
    (pending : List ProcLabel), pending.any (labelHits m s selector) = true →
      nothingMerged cases = true →
        procCaseActions m s selector (emitProcessCases env m pending cases) = []
  | [], pending, hhit, _ => by
      have hne : pending.isEmpty = false := by cases pending <;> simp_all
      rw [emitProcessCases, hne, if_neg Bool.false_ne_true, procCaseActions, hhit, Bool.or_true,
        if_pos rfl, procBlockActions]
  | (v, body) :: rest, pending, hhit, hnone => by
      have hne : pending.isEmpty = false := by cases pending <;> simp_all
      rw [emitProcessCases]
      by_cases hv : v.isNull = true
      · rw [if_pos hv, hne, if_neg Bool.false_ne_true, List.singleton_append, procCaseActions, hhit,
          Bool.or_true, if_pos rfl, procBlockActions]
      · rw [nothingMerged] at hnone
        simp only [hv, Bool.false_or, Bool.and_eq_true] at hnone
        rw [if_neg hv, if_pos hnone.1]
        refine procCaseActions_pending rest _ ?_ hnone.2
        rw [List.any_append, hhit, Bool.true_or]

theorem procCaseActions_skip {selector : ProcSelector} {pending : List ProcLabel}
    (h : pending.any (labelHits m s selector) = false)
    (cases : List (List ProcLabel × List ProcStmt)) :
    procCaseActions m s selector ((if pending.isEmpty then [] else [(pending, [])]) ++ cases) =
      procCaseActions m s selector cases := by
  cases hp : pending.isEmpty with
  | true => rfl
  | false => rw [if_neg Bool.false_ne_true, List.singleton_append, procCaseActions, hp, h,
      Bool.or_self, if_neg Bool.false_ne_true]

theorem stmtTrace_empty {body : IRStmt} (h : selectCaseIsEmpty body = true) :
    stmtTrace m s body = [] := by
  cases body with
  | null => rfl
  | block stmts =>
    cases stmts with
    | nil => rfl
    | cons _ _ => cases h
  | assignment a => cases h
  | ifStmt c t elif e => cases h
  | select selector cases => cases h
  | memWrite name address data => cases h

theorem isTrue_of_not_holds {c : IRExpr} (hc : ConditionSafe env m s c) (h : ¬holds m s c = true) :
    simValIsTrue (simEvalExpr m s c) = some false := by
  rw [holds, decide_eq_true_eq, simValIsTrue, hc.known, if_neg Bool.false_ne_true,
    Option.some.injEq, Bool.not_eq_true] at h
  rw [simValIsTrue, hc.known, if_neg Bool.false_ne_true, h]

mutual

/-- The process executes the assignments of the snapshot trace, in order. -/
theorem actions_stmt : ∀ stmt : IRStmt, PathSafe env m s stmt →
    List.Forall₂ (Agree m) (procBlockActions m s (emitProcessStmt env m stmt))
      (traceActions (stmtTrace m s stmt))
  | .null, _ => .nil
  | .memWrite name address data, _ => by
      rw [emitProcessStmt, stmtTrace, memWriteTrace]
      cases m.memOf name with
      | none => exact .nil
      | some p =>
        obtain ⟨i, mem⟩ := p
        simp only
        cases simValueToMemIndex (simEvalExpr m s address) mem.depth <;> exact .nil
  | .assignment a, h => by
      rw [emitProcessStmt, stmtTrace]
      exact actions_assignment h
  | .block stmts, h => by
      rw [emitProcessStmt, stmtTrace]
      exact actions_block stmts h
  | .ifStmt c t elif e, h => by
      obtain ⟨hc, hpath⟩ := h
      rw [emitProcessStmt, procActions_test hc, stmtTrace, traceActions_eval]
      by_cases hh : holds m s c = true
      · rw [if_pos hh] at hpath ⊢
        have htrue : simValIsTrue (simEvalExpr m s c) = some true := of_decide_eq_true hh
        rw [htrue]
        exact actions_stmt t hpath
      · rw [if_neg hh] at hpath ⊢
        rw [isTrue_of_not_holds hc hh]
        have htrace : traceActions (match elifTrace m s elif with
            | (true, tr) => tr
            | (false, tr) => tr ++ stmtTrace m s e) =
            traceActions (elifTrace m s elif).2 ++
              if elifFails m s elif then traceActions (stmtTrace m s e) else [] := by
          have hdone := elifTrace_done (m := m) (s := s) elif
          cases htr : elifTrace m s elif with
          | mk done tr =>
            rw [htr] at hdone
            cases done with
            | true =>
              have hstop : elifFails m s elif = false := by simpa using hdone.symm
              rw [hstop, if_neg Bool.false_ne_true, List.append_nil]
            | false =>
              have hgo : elifFails m s elif = true := by simpa using hdone.symm
              rw [hgo, if_pos rfl]
              exact traceActions_append _ _
        have hchain := actions_elif elif
          (if e.isNull then none else some (emitProcessStmt env m e))
          (if elifFails m s elif then traceActions (stmtTrace m s e) else []) hpath.1 (by
            split
            · rename_i hgo
              rw [else_getD]
              exact actions_stmt e (hpath.2 hgo)
            · exact .nil)
        rw [← htrace] at hchain
        exact hchain
  | .select selector cases, h => by
      obtain ⟨hx, hpath⟩ := h
      rw [emitProcessStmt, procBlockActions_single, procActions, stmtTrace, traceActions_eval, hx,
        if_neg Bool.false_ne_true]
      exact actions_cases selector cases [] rfl hpath

/-- The rest of a chain runs the arm that is taken, or else what stands for the root's ELSE. -/
theorem actions_elif : ∀ (stmt : IRStmt) (rootElse : Option (List ProcStmt)) (tail : List Action),
    PathSafeElif env m s stmt →
    List.Forall₂ (Agree m)
      (if elifFails m s stmt then procBlockActions m s (rootElse.getD []) else []) tail →
    List.Forall₂ (Agree m) (procBlockActions m s (emitProcessElse env m stmt rootElse))
      (traceActions (elifTrace m s stmt).2 ++ tail)
  | .ifStmt c t elif e, rootElse, tail, h, htail => by
      obtain ⟨hc, hnull, hpath⟩ := h
      rw [emitProcessElse, procActions_test hc, elifTrace]
      simp only [hnull, if_true, Option.or_none, Option.none_or, ite_self]
      rw [elifFails] at htail
      by_cases hh : holds m s c = true
      · rw [if_pos hh] at hpath ⊢
        have htrue : simValIsTrue (simEvalExpr m s c) = some true := of_decide_eq_true hh
        have hf : fails m s c = false := by rw [fails, htrue]; rfl
        rw [hf, Bool.false_and, if_neg Bool.false_ne_true] at htail
        cases htail
        rw [htrue, List.append_nil]
        exact actions_stmt t hpath
      · rw [if_neg hh] at hpath ⊢
        have hfalse := isTrue_of_not_holds hc hh
        have hf : fails m s c = true := by rw [fails, hfalse]; rfl
        rw [hf, Bool.true_and] at htail
        rw [hfalse]
        exact actions_elif elif rootElse tail hpath htail
  | .null, rootElse, tail, _, htail => htail
  | .assignment a, rootElse, tail, _, htail => htail
  | .memWrite .., rootElse, tail, _, htail => htail
  | .block stmts, rootElse, tail, _, htail => htail
  | .select .., rootElse, tail, _, htail => htail

theorem actions_cases (selector : IRExpr) : ∀ (cases : List (IRExpr × IRStmt))
    (pending : List ProcLabel), pending.any (labelHits m s (.value selector)) = false →
    PathSafeCases env m s selector cases →
    List.Forall₂ (Agree m)
      (procCaseActions m s (.value selector) (emitProcessCases env m pending cases))
      (traceActions (casesTrace m s (simEvalExpr m s selector) cases))
  | [], pending, hmiss, _ => by
      have hskip := procCaseActions_skip hmiss []
      rw [List.append_nil] at hskip
      rw [emitProcessCases, hskip]
      exact .nil
  | (v, body) :: rest, pending, hmiss, h => by
      rw [PathSafeCases] at h
      rw [emitProcessCases, casesTrace]
      by_cases hv : v.isNull = true
      · rw [if_pos hv] at h
        rw [if_pos hv, if_pos hv, procCaseActions_skip hmiss, procCaseActions]
        simp only [List.isEmpty_nil, Bool.true_or, if_true]
        exact actions_stmt body h
      · rw [if_neg hv] at h
        rw [if_neg hv, if_neg hv, traceActions_eval]
        have hlabel : (pending ++ [ProcLabel.value v]).any (labelHits m s (.value selector)) =
            decide (simValIsTrue (simValEq (simEvalExpr m s selector) (simEvalExpr m s v)) =
              some true) := by
          rw [List.any_append, hmiss, Bool.false_or, List.any_cons, List.any_nil, Bool.or_false]
          rfl
        by_cases heq : simValIsTrue (simValEq (simEvalExpr m s selector) (simEvalExpr m s v)) =
            some true
        · rw [if_pos heq] at h
          rw [if_pos heq]
          rw [decide_eq_true heq] at hlabel
          by_cases hempty : selectCaseIsEmpty body = true
          · rw [if_pos hempty] at h
            rw [if_pos hempty, procCaseActions_pending rest _ hlabel h, stmtTrace_empty hempty]
            exact .nil
          · rw [if_neg hempty] at h
            rw [if_neg hempty, procCaseActions, hlabel, Bool.or_true, if_pos rfl]
            exact actions_stmt body h
        · rw [if_neg heq] at h
          rw [if_neg heq]
          rw [decide_eq_false heq] at hlabel
          by_cases hempty : selectCaseIsEmpty body = true
          · rw [if_pos hempty]
            exact actions_cases selector rest _ hlabel h
          · have hne : (pending ++ [ProcLabel.value v]).isEmpty = false := by simp
            rw [if_neg hempty, procCaseActions, hlabel, hne, Bool.or_self,
              if_neg Bool.false_ne_true]
            exact actions_cases selector rest [] rfl h

theorem actions_block : ∀ stmts : List IRStmt, PathSafeBlock env m s stmts →
    List.Forall₂ (Agree m) (procBlockActions m s (emitProcessBlock env m stmts))
      (traceActions (stmtsTrace m s stmts))
  | [], _ => .nil
  | stmt :: rest, h => by
      rw [emitProcessBlock, procBlockActions_append, stmtsTrace, traceActions_append]
      exact List.rel_append (actions_stmt stmt h.1) (actions_block rest h.2)

end

end

/-! ## Overriding -/

section

variable {env : ExprInfo} {m : IRModule} {s : CtxState} {stmt : IRStmt}

theorem applyAction_congr {W W' : ℕ → ℕ → Bit4} (a : Action) {i k : ℕ} (h : W i k = W' i k) :
    applyAction W a i k = applyAction W' a i k := by
  rw [applyAction, applyAction]
  split
  · split
    · rfl
    · split
      · rfl
      · exact h
  · exact h

/-- Assignments that agree leave the same bit, whatever they started from. -/
theorem foldl_agree {i k : ℕ} {sig : IRSignal} (hsig : m.signals[i]? = some sig)
    (hk : k < sig.width) {as bs : List Action} (h : List.Forall₂ (Agree m) as bs) :
    ∀ {W W' : ℕ → ℕ → Bit4}, W i k = W' i k →
      as.foldl applyAction W i k = bs.foldl applyAction W' i k := by
  induction h with
  | nil => exact id
  | @cons a b as bs hab _ ih =>
    intro W W' hW
    refine ih ?_
    rw [applyAction, applyAction, ← hab.signal, ← hab.slice]
    split
    · rename_i hi
      have hbits := hab.bits
      split
      · rename_i hwhole
        rw [hwhole] at hbits
        refine hbits k ?_
        rw [← hi, hsig]
        exact hk
      · rename_i msb lsb hslice
        rw [hslice] at hbits
        split
        · rename_i hin
          exact hbits (k - lsb) (by simp only; omega)
        · exact hW
    · exact hW

theorem bit4_of_part {v w : SimValue} {k j : ℕ} (h : v.part (.bit k) = w.part (.bit j)) :
    v.bit4 k = w.bit4 j := by
  have hbits : v.val.bit k = w.val.bit j ∧ v.xmask.bit k = w.xmask.bit j ∧
      v.zmask.bit k = w.zmask.bit j := by simpa [SimValue.part] using h
  rw [SimValue.bit4, SimValue.bit4, hbits.1, hbits.2.1, hbits.2.2]

theorem bit4_writeSlice (v r : SimValue) (msb lsb : ℕ) {k : ℕ} (hk : k < 256) :
    (writeSlice v r msb lsb).bit4 k =
      if lsb ≤ k ∧ k ≤ msb then r.bit4 (k - lsb) else v.bit4 k := by
  have hpart := writeSlice_part v r msb lsb (.bit k)
  simp only [hk, and_true] at hpart
  split
  · rename_i hin
    rw [if_pos hin] at hpart
    exact bit4_of_part hpart
  · rename_i hout
    rw [if_neg hout] at hpart
    exact bit4_of_part hpart

/-- A staged write is an assignment to what the commit will make current. -/
theorem committed_stageOne (t : CtxState) (j : ℕ) (slice : Option (ℕ × ℕ)) (v : SimValue) {i k : ℕ}
    (hk : k < 256) :
    (committed ((stageOne t (.reg j slice v)).signals i)).bit4 k =
      applyAction (fun i k => (committed (t.signals i)).bit4 k) ⟨j, slice, v.bit4⟩ i k := by
  rw [applyAction]
  by_cases hi : i = j
  · subst hi
    rw [if_pos rfl]
    cases slice with
    | none => simp [stageOne, CtxState.setEntry, committed]
    | some p =>
      obtain ⟨msb, lsb⟩ := p
      have hentry : committed ((stageOne t (.reg i (some (msb, lsb)) v)).signals i) =
          writeSlice (committed (t.signals i)) v msb lsb := by
        simp [stageOne, CtxState.setEntry, committed]
      rw [hentry, bit4_writeSlice _ _ _ _ hk]
  · rw [if_neg hi]
    simp [stageOne, CtxState.setEntry, hi]

/-- What a list of staged writes leaves to commit. -/
theorem committed_stageAll {i k : ℕ} (hk : k < 256) : ∀ (ws : List Write) (t : CtxState)
    (W : ℕ → ℕ → Bit4), (committed (t.signals i)).bit4 k = W i k →
    (committed ((stageAll t ws).signals i)).bit4 k =
      (ws.filterMap fun w =>
        match w with
        | .reg i slice v => some (⟨i, slice, v.bit4⟩ : Action)
        | .cell .. => none).foldl applyAction W i k
  | [], _, _, h => h
  | .cell mem addr v :: rest, t, W, h => committed_stageAll hk rest _ W h
  | .reg j slice v :: rest, t, W, h => by
      refine committed_stageAll hk rest _ _ ?_
      rw [committed_stageOne t j slice v hk]
      exact applyAction_congr _ h

end

namespace ProcessExample

/-- A one-bit input and a register of two bits. -/
def module : IRModule where
  signals := [⟨0, .port .portIn, 1⟩, ⟨1, .register ⟨.zero, 2, false⟩, 2⟩]
  memories := []
  clockDomains := []
  asyncBlock := .null

/-- The input is one, the register zero. -/
def state : CtxState where
  signals i := ⟨if i = 0 then simValFromUint 1 1 else simValZero 2, simValZero 2, false⟩
  cells _ _ := simValZero 1
  runtimeError := false
  settleDirty := false
  sigDirty _ := false

def info : ExprInfo where
  exprWidth
    | .signalRef _ width => width
    | _ => 1
  polymorphic _ := none

/-- The register receives the input, extended as the operator asks. -/
def receive (kind : IRAssignmentKind) : IRStmt :=
  .assignment ⟨1, .signalRef 0 1, kind, false, 0, 0⟩

end ProcessExample

end JzHdl.Rtlil

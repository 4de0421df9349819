import JzHdl.Backend.MemWrite
import JzHdl.Backend.SelectCase
import JzHdl.Sim.DesignRun

/-! # The combinational always block

The assignments of an ASYNCHRONOUS block are printed in source order as blocking
assignments. One run gives the settled values when every expression on the path
is decided by the inputs and by what the path has assigned before it.
-/

namespace JzHdl

/-! ## The printed block -/

namespace IRSignalKind

def isInout : IRSignalKind → Bool
  | .port .portInout => true
  | _ => false

def isLatch : IRSignalKind → Bool
  | .latch => true
  | _ => false

end IRSignalKind

section

variable (m : IRModule) (names : m.SignalIndex → String)

/-- What a blocking assignment writes. Aliases and INOUT ports are assigned continuously and a
latch without blocking, so they have no target here. -/
def blockingTarget (a : IRAssignment) : Option m.SignalIndex :=
  if assignmentKindIsAlias a.kind then none
  else if ((m.findSignalIndexByIdRaw a.lhsSignalId).map fun i => (m.kindAt i).isInout) = some true
    then none
  else (m.findSignalById a.lhsSignalId).filter fun i => !(m.kindAt i).isLatch

/-- The printed right-hand side; a missing expression prints a zero. -/
def printedRhs (t : CtxState) (a : IRAssignment) : SimValue :=
  if a.rhs.isNull then simValZero 1 else simEvalExpr m t a.rhs

/-- A variable keeps the bits of its width. -/
def blockingValue (t : CtxState) (a : IRAssignment) (old : SimValue) : SimValue :=
  let rhs := extendRhs a.kind (printedRhs m t a) old.width
  if a.isSliced then writeSlice old rhs a.lhsMsb a.lhsLsb
  else simValMask { rhs with width := old.width }

def blockingAssign (t : CtxState) (a : IRAssignment) : CtxState :=
  match blockingTarget m a with
  | none => t
  | some i => t.setCurrent i (blockingValue m t a (t.signals i).current)

mutual

/-- One run of a printed statement. A condition that is not known counts as false. -/
def runBlocking : IRStmt → CtxState → CtxState
  | .null, t => t
  | .assignment a, t => blockingAssign m t a
  | .ifStmt condition thenBlock elifChain elseBlock, t =>
    if Rtlil.holds m t condition then runBlocking thenBlock t
    else
      match runElif elifChain t with
      | some t' => t'
      | none => runBlocking elseBlock t
  | .select selector cases, t =>
    if selector.isNull then t
    else (runArm (selectorEquals m t selector) (allowFallthrough m names selector) cases t).getD
      (runDefault cases t)
  | .block stmts, t => runStmts stmts t
  | .memWrite memoryName address data, t => execMemWrite m t memoryName address data

def runElif : IRStmt → CtxState → Option CtxState
  | .ifStmt condition thenBlock elifChain _, t =>
    if Rtlil.holds m t condition then some (runBlocking thenBlock t) else runElif elifChain t
  | _, _ => none

/-- The first arm with a matching label; a naked label takes a body ahead of it. -/
def runArm (eq : IRExpr → Bool) (allow : Bool) :
    List (IRExpr × IRStmt) → CtxState → Option CtxState
  | [], _ => none
  | (value, body) :: rest, t =>
    if value.isNull || !eq value then runArm eq allow rest t
    else if body.isNull then some (if allow then runAhead rest t else t)
    else some (runBlocking body t)

def runAhead : List (IRExpr × IRStmt) → CtxState → CtxState
  | [], t => t
  | (value, body) :: rest, t =>
    if value.isNull then t else if body.isNull then runAhead rest t else runBlocking body t

def runDefault : List (IRExpr × IRStmt) → CtxState → CtxState
  | [], t => t
  | (value, body) :: rest, t => if value.isNull then runBlocking body t else runDefault rest t

def runStmts : List IRStmt → CtxState → CtxState
  | [], t => t
  | stmt :: rest, t => runStmts rest (runBlocking stmt t)

end

end

/-! ## The printed case -/

section

variable {m : IRModule} {names : m.SignalIndex → String} {t : CtxState}

theorem runStmts_caseStatements : ∀ (body : IRStmt),
    runStmts m names (caseStatements body) t = runBlocking m names body t
  | .null => by rw [caseStatements, runStmts, runBlocking]
  | .block stmts => by rw [caseStatements, runBlocking]
  | .assignment _ | .ifStmt .. | .select .. | .memWrite .. => by
      rw [caseStatements, runStmts, runStmts]
      all_goals nofun

theorem runAhead_eq (cases : List (IRExpr × IRStmt)) : runAhead m names cases t =
    runStmts m names (((bodyAhead 0 cases).map Prod.snd).map caseStatements |>.getD []) t := by
  induction cases with
  | nil => rw [runAhead, bodyAhead, Option.map_none, Option.map_none, Option.getD_none, runStmts]
  | cons c rest ih =>
    obtain ⟨value, body⟩ := c
    rw [runAhead, bodyAhead]
    split
    · rw [Option.map_none, Option.map_none, Option.getD_none, runStmts]
    · split
      · rw [ih, bodyAhead_snd rest (0 + 1) 0]
      · exact (runStmts_caseStatements body).symm

theorem runDefault_eq (cases : List (IRExpr × IRStmt)) :
    runDefault m names cases t = runStmts m names (defaultStatements cases) t := by
  induction cases with
  | nil => rw [runDefault, defaultStatements, List.find?_nil, Option.map_none, Option.getD_none,
      runStmts]
  | cons c rest ih =>
    obtain ⟨value, body⟩ := c
    rw [runDefault, defaultStatements]
    split
    · rename_i hvalue
      rw [List.find?_cons_of_pos (by exact hvalue)]
      exact (runStmts_caseStatements body).symm
    · rename_i hvalue
      rw [List.find?_cons_of_neg (by exact hvalue), ih, defaultStatements]

theorem runArm_eq (eq : IRExpr → Bool) (allow : Bool) (cases : List (IRExpr × IRStmt)) :
    runArm m names eq allow cases t =
      match fromMatch eq cases with
      | [] => none
      | c :: rest => some (runStmts m names (printedBody allow (c :: rest)) t) := by
  induction cases with
  | nil => rw [runArm]; rfl
  | cons c rest ih =>
    obtain ⟨value, body⟩ := c
    rw [runArm]
    by_cases hskip : (value.isNull || !eq value) = true
    · rw [if_pos hskip, ih, fromMatch, fromMatch, List.dropWhile_cons_of_pos (by exact hskip)]
    · rw [if_neg hskip, fromMatch, List.dropWhile_cons_of_neg (by exact hskip)]
      simp only [printedBody]
      by_cases hbody : body.isNull = true
      · cases allow with
        | false => simp only [if_pos hbody, Bool.false_eq_true, if_false, runStmts]
        | true => simp only [if_pos hbody, if_true, runAhead_eq]
      · rw [if_neg hbody, if_neg hbody, runStmts_caseStatements]

/-- Running a printed case runs the statements that its items select. -/
theorem runBlocking_select {selector : IRExpr} {cases : List (IRExpr × IRStmt)}
    (h : selector.isNull = false) :
    runBlocking m names (.select selector cases) t =
      runStmts m names (verilogCase (selectorEquals m t selector)
        (emitCases (allowFallthrough m names selector) 0 0 cases)) t := by
  rw [runBlocking, if_neg (by simp [h]), verilogCase_emitCases, runArm_eq]
  cases fromMatch (selectorEquals m t selector) cases with
  | nil => exact runDefault_eq cases
  | cons c rest => rfl

end

/-! ## Paths -/

section

variable (m : IRModule) (f : CtxState)

mutual

/-- The targets that are assigned on the path of a statement. -/
def pathTargets : IRStmt → List Target
  | .null | .memWrite .. => []
  | .assignment a => assignTargets m a
  | .ifStmt condition thenBlock elifChain elseBlock =>
    match simValIsTrue (simEvalExpr m f condition) with
    | none => []
    | some true => pathTargets thenBlock
    | some false =>
      pathElifTargets elifChain ++ if elifDone m f elifChain then [] else pathTargets elseBlock
  | .select selector cases =>
    if simValHasXz (simEvalExpr m f selector) then []
    else pathCasesTargets (simEvalExpr m f selector) cases
  | .block stmts => pathStmtsTargets stmts

def pathElifTargets : IRStmt → List Target
  | .ifStmt condition thenBlock elifChain _ =>
    match simValIsTrue (simEvalExpr m f condition) with
    | none => []
    | some true => pathTargets thenBlock
    | some false => pathElifTargets elifChain
  | _ => []

def pathCasesTargets (v : SimValue) : List (IRExpr × IRStmt) → List Target
  | [] => []
  | (caseValue, body) :: rest =>
    if caseValue.isNull then pathTargets body
    else if simValIsTrue (simValEq v (simEvalExpr m f caseValue)) = some true then pathTargets body
    else pathCasesTargets v rest

def pathStmtsTargets : List IRStmt → List Target
  | [] => []
  | stmt :: rest => pathTargets stmt ++ pathStmtsTargets rest

end

/-- The body that the simulator executes for a SELECT. -/
def selectedBody (v : SimValue) : List (IRExpr × IRStmt) → IRStmt
  | [] => .null
  | (caseValue, body) :: rest =>
    if caseValue.isNull then body
    else if simValIsTrue (simValEq v (simEvalExpr m f caseValue)) = some true then body
    else selectedBody v rest

end

/-! ## Evaluation in order -/

/-- The parts of the signals that already have their settled values. -/
abbrev KnownParts : Type := ℕ → Part → Prop

def KnownParts.with (known : KnownParts) (targets : List Target) : KnownParts :=
  fun i p => known i p ∨ ∃ τ ∈ targets, τ.Covers i p

structure AgreesOn (known : KnownParts) (t f : CtxState) : Prop where

  parts : ∀ i p, known i p → (t.signals i).current.part p = (f.signals i).current.part p

  cells : t.cells = f.cells

section

variable (m : IRModule) (names : m.SignalIndex → String) (f : CtxState)

/-- The value of an expression is fixed by the known parts. -/
def Decided (known : KnownParts) (e : IRExpr) : Prop :=
  ∀ t, AgreesOn known t f → simEvalExpr m t e = simEvalExpr m f e

mutual

/-- Along the path that the settled state takes, every assignment is a blocking one, every
expression is decided when it is evaluated, and a printed case runs the arm of the simulator. -/
def PathOrdered (known : KnownParts) : IRStmt → Prop
  | .null => True
  | .assignment a => (blockingTarget m a).map Fin.val = m.sigIndex a.lhsSignalId ∧
      a.rhs.isNull = false ∧ Decided m f known a.rhs
  | .ifStmt condition thenBlock elifChain elseBlock => Decided m f known condition ∧
      match simValIsTrue (simEvalExpr m f condition) with
      | none => False
      | some true => PathOrdered known thenBlock
      | some false => ElifOrdered known elifChain ∧
          (elifDone m f elifChain = false → PathOrdered known elseBlock)
  | .select selector cases => selector.isNull = false ∧ Decided m f known selector ∧
      (∀ c ∈ cases, c.1.isNull = false → Decided m f known c.1) ∧
      simValHasXz (simEvalExpr m f selector) = false ∧
      verilogCase (selectorEquals m f selector)
          (emitCases (allowFallthrough m names selector) 0 0 cases) =
        caseStatements (selectedBody m f (simEvalExpr m f selector) cases) ∧
      CasesOrdered known (simEvalExpr m f selector) cases
  | .block stmts => StmtsOrdered known stmts
  | .memWrite .. => False

def ElifOrdered (known : KnownParts) : IRStmt → Prop
  | .ifStmt condition thenBlock elifChain _ => Decided m f known condition ∧
      match simValIsTrue (simEvalExpr m f condition) with
      | none => False
      | some true => PathOrdered known thenBlock
      | some false => ElifOrdered known elifChain
  | _ => True

def CasesOrdered (known : KnownParts) (v : SimValue) : List (IRExpr × IRStmt) → Prop
  | [] => True
  | (caseValue, body) :: rest =>
    if caseValue.isNull then PathOrdered known body
    else if simValIsTrue (simValEq v (simEvalExpr m f caseValue)) = some true then
      PathOrdered known body
    else CasesOrdered known v rest

def StmtsOrdered (known : KnownParts) : List IRStmt → Prop
  | [] => True
  | stmt :: rest =>
    PathOrdered known stmt ∧ StmtsOrdered (known.with (pathTargets m f stmt)) rest

end

end

section

variable {m : IRModule} {names : m.SignalIndex → String} {f t : CtxState} {known : KnownParts}
  {ts us : List Target}

theorem AgreesOn.mono {known' : KnownParts} (h : AgreesOn known t f)
    (hsub : ∀ i p, known' i p → known i p) : AgreesOn known' t f :=
  ⟨fun i p hp => h.parts i p (hsub i p hp), h.cells⟩

theorem KnownParts.with_append {i : ℕ} {p : Part} :
    known.with (ts ++ us) i p ↔ (known.with ts).with us i p := by
  simp only [KnownParts.with, List.mem_append, or_and_right, exists_or, or_assoc]

theorem KnownParts.with_nil {i : ℕ} {p : Part} : known.with [] i p ↔ known i p := by
  simp [KnownParts.with]

/-- An expression is decided once everything that it reads is known. -/
theorem decided_of_reads {e : IRExpr}
    (h : ∀ id ∈ exprReads e, ∀ i, m.sigIndex id = some i → ∀ p, known i p) :
    Decided m f known e := by
  intro t ht
  refine simEvalExpr_congr e (fun id hid i hi => ?_) fun name _ i _ => by rw [ht.cells]
  exact SimValue.ext_part fun p => ht.parts i p (h id hid i hi p)

/-- The widths of all signals are known. -/
def KnowsWidths (known : KnownParts) : Prop := ∀ i, known i .width

theorem KnowsWidths.with (h : KnowsWidths known) (ts : List Target) : KnowsWidths (known.with ts) :=
  fun i => .inl (h i)

theorem holds_of_decided {c : IRExpr} {b : Bool} (hc : Decided m f known c)
    (ht : AgreesOn known t f) (hb : simValIsTrue (simEvalExpr m f c) = some b) :
    Rtlil.holds m t c = b := by
  rw [Rtlil.holds, hc t ht, hb]
  cases b <;> rfl

theorem selectorEquals_congr {selector label : IRExpr} (hs : Decided m f known selector)
    (hl : Decided m f known label) (ht : AgreesOn known t f) :
    selectorEquals m t selector label = selectorEquals m f selector label := by
  rw [selectorEquals, selectorEquals, hs t ht, hl t ht]

theorem fromMatch_congr {eq eq' : IRExpr → Bool} : ∀ {cases : List (IRExpr × IRStmt)},
    (∀ c ∈ cases, c.1.isNull = false → eq c.1 = eq' c.1) →
      fromMatch eq cases = fromMatch eq' cases
  | [], _ => rfl
  | c :: rest, h => by
      have hc : (c.1.isNull || !eq c.1) = (c.1.isNull || !eq' c.1) := by
        cases hn : c.1.isNull with
        | true => rfl
        | false => rw [h c List.mem_cons_self hn]
      have hrest : fromMatch eq rest = fromMatch eq' rest :=
        fromMatch_congr fun d hd => h d (List.mem_cons_of_mem _ hd)
      simp only [fromMatch] at hrest ⊢
      rw [List.dropWhile_cons, List.dropWhile_cons, hc, hrest]

theorem verilogCase_congr {eq eq' : IRExpr → Bool} {allow : Bool} {cases : List (IRExpr × IRStmt)}
    (h : ∀ c ∈ cases, c.1.isNull = false → eq c.1 = eq' c.1) :
    verilogCase eq (emitCases allow 0 0 cases) = verilogCase eq' (emitCases allow 0 0 cases) := by
  rw [verilogCase_emitCases, verilogCase_emitCases, fromMatch_congr h]

/-! ## One run -/

/-- A blocking assignment leaves the settled value of its target. -/
theorem blockingValue_part {a : IRAssignment} {i : m.SignalIndex} {p : Part} (hfit : f.Fits m)
    (hstill : AssignStill m f a) (hi : m.sigIndex a.lhsSignalId = some i.val)
    (hrhs : a.rhs.isNull = false) (hdec : Decided m f known a.rhs)
    (hw : KnowsWidths known) (ht : AgreesOn known t f)
    (hp : known.with (assignTargets m a) i p) :
    (blockingValue m t a (t.signals i).current).part p = (f.signals i).current.part p := by
  obtain ⟨-, hwrite⟩ := hstill i hi
  have hwidth : (t.signals i).current.width = (f.signals i).current.width := by
    simpa [SimValue.part] using ht.parts i .width (hw i)
  have hval : printedRhs m t a = simEvalExpr m f a.rhs := by
    rw [printedRhs, if_neg (by simp [hrhs]), hdec t ht]
  rw [blockingValue, hval, hwidth]
  by_cases hsl : a.isSliced = true
  · simp only [if_pos hsl] at hwrite ⊢
    have hbits := writeSlice_eq_self_iff.mp hwrite
    rw [writeSlice_part]
    cases p with
    | width => exact ht.parts i .width (hw i)
    | bit k =>
      simp only
      split
      · rename_i hk
        exact hbits k hk.1 hk.2.1 hk.2.2
      · rename_i hk
        rcases hp with hknown | ⟨τ, hτ, hcover⟩
        · exact ht.parts i _ hknown
        · simp only [assignTargets, hi, if_pos hsl, List.mem_singleton] at hτ
          subst hτ
          have hrange : a.lhsLsb ≤ k ∧ k ≤ a.lhsMsb := hcover.2
          have hlarge : 64 * 4 ≤ k := by omega
          simp only [SimValue.part, BitWords.Words.bit_of_le _ hlarge]
  · simp only [if_neg hsl] at hwrite ⊢
    obtain ⟨-, hmasked⟩ := hfit i _ (List.getElem?_eq_getElem i.isLt)
    cases p with
    | width => rw [SimValue.part, SimValue.part, width_simValMask]
    | bit k =>
      by_cases hk : k < (f.signals i).current.width
      · rw [sameWords_bit hwrite (k := k) (by omega) (by omega)]
        simp [SimValue.part, simValMask, bit_maskWords, hk]
      · obtain ⟨h1, h2, h3⟩ := hmasked.bits (k := k) (by omega)
        simp [SimValue.part, simValMask, bit_maskWords, hk, h1, h2, h3]

theorem blockingAssign_agrees {a : IRAssignment} (hfit : f.Fits m) (hstill : AssignStill m f a)
    (hto : (blockingTarget m a).map Fin.val = m.sigIndex a.lhsSignalId)
    (hrhs : a.rhs.isNull = false) (hdec : Decided m f known a.rhs) (hw : KnowsWidths known)
    (ht : AgreesOn known t f) :
    AgreesOn (known.with (assignTargets m a)) (blockingAssign m t a) f := by
  cases htarget : blockingTarget m a with
  | none =>
    rw [htarget, Option.map_none] at hto
    rw [blockingAssign, htarget, assignTargets, ← hto]
    exact ht.mono fun i p => KnownParts.with_nil.mp
  | some i =>
    rw [htarget, Option.map_some] at hto
    rw [blockingAssign, htarget]
    refine ⟨fun j p hp => ?_, ht.cells⟩
    rw [setCurrent_current]
    by_cases hij : j = i.val
    · subst hij
      rw [if_pos rfl]
      exact blockingValue_part hfit hstill hto.symm hrhs hdec hw ht hp
    · rw [if_neg hij]
      rcases hp with hknown | ⟨τ, hτ, hcover⟩
      · exact ht.parts j p hknown
      · rw [assignTargets, ← hto, List.mem_singleton] at hτ
        exact absurd (hcover.1.symm.trans (by rw [hτ])) hij

mutual

/-- The settled values are known along the path once the statement has run. -/
theorem run_agrees (hfit : f.Fits m) : ∀ (stmt : IRStmt) {known : KnownParts} {t : CtxState},
    KnowsWidths known → Still m f stmt → PathOrdered m names f known stmt → AgreesOn known t f →
      AgreesOn (known.with (pathTargets m f stmt)) (runBlocking m names stmt t) f
  | .null, _, _, _, _, _, ht => by
      rw [runBlocking, pathTargets]
      exact ht.mono fun i p => KnownParts.with_nil.mp
  | .assignment a, _, _, hw, hs, ho, ht => by
      rw [Still] at hs
      rw [PathOrdered] at ho
      rw [runBlocking, pathTargets]
      exact blockingAssign_agrees hfit hs ho.1 ho.2.1 ho.2.2 hw ht
  | .ifStmt c u elif e, _, t, hw, hs, ho, ht => by
      rw [Still] at hs
      rw [PathOrdered] at ho
      obtain ⟨-, hs⟩ := hs
      obtain ⟨hdec, ho⟩ := ho
      rw [runBlocking, pathTargets]
      cases hc : simValIsTrue (simEvalExpr m f c) with
      | none =>
        rw [hc] at ho
        exact ho.elim
      | some b =>
        rw [hc] at hs ho
        rw [holds_of_decided hdec ht hc]
        cases b with
        | true =>
          rw [if_pos rfl]
          exact run_agrees hfit u hw hs ho ht
        | false =>
          rw [if_neg Bool.false_ne_true]
          obtain ⟨hdone, hgo⟩ := elif_agrees hfit elif hw hs.1 ho.1 ht
          simp only
          cases hd : elifDone m f elif with
          | true =>
            obtain ⟨t', ht', hagree⟩ := hdone hd
            rw [ht', if_pos rfl, List.append_nil]
            exact hagree
          | false =>
            obtain ⟨hnone, hempty⟩ := hgo hd
            rw [hnone, hempty, if_neg Bool.false_ne_true, List.nil_append]
            exact run_agrees hfit e hw (hs.2 hd) (ho.2 hd) ht
  | .select selector cases, _, t, hw, hs, ho, ht => by
      rw [Still] at hs
      rw [PathOrdered] at ho
      obtain ⟨-, hs⟩ := hs
      obtain ⟨hnull, hsel, hlabels, hknown, harm, ho⟩ := ho
      rw [if_neg (by simp [hknown])] at hs
      rw [runBlocking_select hnull, pathTargets, if_neg (by simp [hknown]),
        verilogCase_congr fun c hc hn => selectorEquals_congr hsel (hlabels c hc hn) ht, harm,
        runStmts_caseStatements]
      exact cases_agrees hfit cases hw hs ho ht
  | .block stmts, _, _, hw, hs, ho, ht => by
      rw [Still] at hs
      rw [PathOrdered] at ho
      rw [runBlocking, pathTargets]
      exact stmts_agrees hfit stmts hw hs ho ht
  | .memWrite .., _, _, _, _, ho, _ => by
      rw [PathOrdered] at ho
      exact ho.elim

theorem elif_agrees (hfit : f.Fits m) : ∀ (stmt : IRStmt) {known : KnownParts} {t : CtxState},
    KnowsWidths known → ElifStill m f stmt → ElifOrdered m names f known stmt →
    AgreesOn known t f →
      (elifDone m f stmt = true → ∃ t', runElif m names stmt t = some t' ∧
        AgreesOn (known.with (pathElifTargets m f stmt)) t' f) ∧
      (elifDone m f stmt = false → runElif m names stmt t = none ∧ pathElifTargets m f stmt = [])
  | .ifStmt c u elif e, _, t, hw, hs, ho, ht => by
      rw [ElifStill] at hs
      rw [ElifOrdered] at ho
      obtain ⟨-, hs⟩ := hs
      obtain ⟨hdec, ho⟩ := ho
      rw [runElif, pathElifTargets, elifDone]
      cases hc : simValIsTrue (simEvalExpr m f c) with
      | none =>
        rw [hc] at ho
        exact ho.elim
      | some b =>
        rw [hc] at hs ho
        rw [holds_of_decided hdec ht hc]
        cases b with
        | true => exact ⟨fun _ => ⟨_, if_pos rfl, run_agrees hfit u hw hs ho ht⟩, nofun⟩
        | false => exact elif_agrees hfit elif hw hs ho ht
  | .null, _, _, _, _, _, _ | .assignment _, _, _, _, _, _, _ | .select .., _, _, _, _, _, _
  | .block _, _, _, _, _, _, _ | .memWrite .., _, _, _, _, _, _ => ⟨nofun, fun _ => ⟨rfl, rfl⟩⟩

theorem cases_agrees (hfit : f.Fits m) {v : SimValue} : ∀ (cases : List (IRExpr × IRStmt))
    {known : KnownParts} {t : CtxState}, KnowsWidths known → CasesStill m f v cases →
    CasesOrdered m names f known v cases → AgreesOn known t f →
      AgreesOn (known.with (pathCasesTargets m f v cases))
        (runBlocking m names (selectedBody m f v cases) t) f
  | [], _, _, _, _, _, ht => by
      rw [selectedBody, runBlocking, pathCasesTargets]
      exact ht.mono fun i p => KnownParts.with_nil.mp
  | (caseValue, body) :: rest, _, _, hw, hs, ho, ht => by
      rw [CasesStill] at hs
      rw [CasesOrdered] at ho
      rw [selectedBody, pathCasesTargets]
      by_cases hnull : caseValue.isNull = true
      · rw [if_pos hnull] at hs ho
        rw [if_pos hnull, if_pos hnull]
        exact run_agrees hfit body hw hs ho ht
      · rw [if_neg hnull] at hs ho
        rw [if_neg hnull, if_neg hnull]
        obtain ⟨-, hs⟩ := hs
        by_cases hhit : simValIsTrue (simValEq v (simEvalExpr m f caseValue)) = some true
        · rw [if_pos hhit] at hs ho
          rw [if_pos hhit, if_pos hhit]
          exact run_agrees hfit body hw hs ho ht
        · rw [if_neg hhit] at hs ho
          rw [if_neg hhit, if_neg hhit]
          exact cases_agrees hfit rest hw hs ho ht

theorem stmts_agrees (hfit : f.Fits m) : ∀ (stmts : List IRStmt) {known : KnownParts}
    {t : CtxState}, KnowsWidths known → StmtsStill m f stmts →
    StmtsOrdered m names f known stmts → AgreesOn known t f →
      AgreesOn (known.with (pathStmtsTargets m f stmts)) (runStmts m names stmts t) f
  | [], _, _, _, _, _, ht => by
      rw [runStmts, pathStmtsTargets]
      exact ht.mono fun i p => KnownParts.with_nil.mp
  | stmt :: rest, _, _, hw, hs, ho, ht => by
      rw [StmtsStill] at hs
      rw [StmtsOrdered] at ho
      rw [runStmts, pathStmtsTargets]
      have hfirst := run_agrees hfit stmt hw hs.1 ho.1 ht
      have hrest := stmts_agrees hfit rest (hw.with _) hs.2 ho.2 hfirst
      exact hrest.mono fun i p => KnownParts.with_append.mp

end

end

/-! ## The settled state -/

theorem still_of_pass : ∀ {h : Hierarchy} {ctx : SimContext h}, DesignOk h → Sound h ctx →
    Awake h ctx → (settleHierarchyOnce buildAsyncChunks h ctx).state.settleDirty = false →
      Still h.module (settleHierarchyOnce buildAsyncChunks h ctx).state h.module.asyncBlock
  | .node m children, (s, kids), hd, hs, hw, hq => by
      obtain ⟨hasync, htidy, -, hkids⟩ := hd
      obtain ⟨harm, hfits, hks⟩ := hs
      have hown := (hasync.settleOwn_eq harm).1
      rw [settleOwn_nil] at hown
      have hres := settleChildren_spec m children (simExecStmt m false m.asyncBlock s) kids hkids
        (htidy s hfits) hks hw
      rw [settleHierarchyOnce, hown] at hq ⊢
      exact hasync.still_of_clean hres.evolves hq

theorem state_clearSigDirty : ∀ {h : Hierarchy} {ctx : SimContext h},
    SameData ctx.state (clearSigDirty h ctx).state ∧
      (clearSigDirty h ctx).state.runtimeError = ctx.state.runtimeError
  | .node _ _, (_, _) => ⟨⟨fun _ => rfl, rfl⟩, rfl⟩

/-- Stillness depends on the data of a state and its error flag. -/
theorem Still.of_sameData {m : IRModule} {s t : CtxState} {stmt : IRStmt} (hs : Still m s stmt)
    (h : SameData s t) (herror : t.runtimeError = s.runtimeError) : Still m t stmt :=
  Still.congr stmt hs ⟨fun _ _ i _ => h.signals i, fun _ _ i _ => by rw [h.cells],
    fun τ _ => Target.agree_of_eq (h.signals τ.index), fun hr => by rwa [herror]⟩

theorem asyncBlock_of_idle {h : Hierarchy} (ha : ¬ h.hasAnyAsync = true) :
    h.module.asyncBlock = .null := by
  rw [Hierarchy.hasAnyAsync, Bool.or_eq_true, not_or] at ha
  cases hblock : h.module.asyncBlock with
  | null => rfl
  | _ => exact absurd (by rw [hblock]; rfl) ha.1

/-- A settle that stops leaves the statements of the root still. -/
theorem still_of_settle {h : Hierarchy} {ctx ctx' : SimContext h} {n : ℕ} (hd : DesignOk h)
    (hok : SettleOk h ctx)
    (hsettle : simSettleCombinational buildAsyncChunks h ctx n = (true, ctx')) :
    Still h.module ctx'.state h.module.asyncBlock ∧ ctx'.state.Fits h.module := by
  by_cases ha : h.hasAnyAsync = true
  · obtain ⟨u, hu, hq, rfl⟩ := settle_stops hd hok ha hsettle
    obtain ⟨hsame, herror⟩ := @state_clearSigDirty h (settlePass buildAsyncChunks h u)
    refine ⟨(still_of_pass hd hu.sound.cleared hu.awake hq).of_sameData hsame herror, ?_⟩
    intro i sig hi
    rw [← hsame.signals]
    exact (hu.pass hd).sound.fits i sig hi
  · obtain rfl := settle_idle ha hsettle
    rw [asyncBlock_of_idle ha, Still]
    exact ⟨trivial, hok.sound.fits⟩

/-! ## The block and the settle -/

section

variable (m : IRModule) (names : m.SignalIndex → String) (f : CtxState)

/-- What the block finds in its settled state: the parts that it never assigns, and the widths. -/
def Given : KnownParts := fun i p =>
  (∀ τ ∈ stmtTargets m m.asyncBlock, ¬ τ.Covers i p) ∨
    match p with
    | .bit k => (f.signals i).current.width ≤ k
    | .width => True

/-- One run from any previous values of the assigned nets gives every part that is assigned on
the path its settled value. -/
def PrintedMeets (stmts : List IRStmt) : Prop :=
  ∀ t, AgreesOn (Given m f) t f → ∀ τ ∈ pathStmtsTargets m f stmts, ∀ p, τ.Covers τ.index p →
    ((runStmts m names stmts t).signals τ.index).current.part p =
      (f.signals τ.index).current.part p

variable {m names f}

theorem given_knowsWidths : KnowsWidths (Given m f) := fun _ => .inr trivial

theorem printedMeets_of_ordered {stmts : List IRStmt} (hfit : f.Fits m)
    (hstill : StmtsStill m f stmts) (ho : StmtsOrdered m names f (Given m f) stmts) :
    PrintedMeets m names f stmts := by
  intro t ht τ hτ p hp
  exact (stmts_agrees hfit stmts given_knowsWidths hstill ho ht).parts τ.index p
    (.inr ⟨τ, hτ, hp⟩)

theorem stmtsStill_iff {stmts : List IRStmt} :
    StmtsStill m f stmts ↔ ∀ stmt ∈ stmts, Still m f stmt := by
  induction stmts with
  | nil => simp [StmtsStill]
  | cons stmt rest ih => rw [StmtsStill, ih, List.forall_mem_cons]

theorem stmtsStill_caseStatements : ∀ {body : IRStmt}, Still m f body →
    StmtsStill m f (caseStatements body)
  | .null, _ => by rw [caseStatements, StmtsStill]; trivial
  | .block stmts, h => by rwa [Still] at h
  | .assignment _, h | .ifStmt .., h | .select .., h | .memWrite .., h =>
    stmtsStill_iff.mpr (List.forall_mem_singleton.mpr h)

end

namespace WireExample

/-- The leaf with its input driven, before its first settle. -/
def driven (stmts : List IRStmt) : SimContext (.node (leaf stmts) .nil) :=
  (zeros.setCurrent 0 (simValOnes 1), ())

def settled (stmts : List IRStmt) : SimContext (.node (leaf stmts) .nil) :=
  (simSettleCombinational buildAsyncChunks (.node (leaf stmts) .nil) (driven stmts) 4).2

theorem driven_settleOk : SettleOk (.node (leaf ordered) .nil) (driven ordered) where
  sound := by
    refine ⟨ArmedChunks.of_allDirty fun _ _ => rfl, ?_, trivial⟩
    refine (zeros_fits (leaf ordered) (by simp [leaf])).setCurrent (i := 0) fun sig hsig => ?_
    obtain rfl := Option.some.inj hsig
    decide +kernel
  awake _ := trivial
  idle h := by
    simp [Hierarchy.hasAnyAsync, Hierarchy.module, leaf, IRStmt.isNull] at h

theorem decided_copy {stmts : List IRStmt} {f : CtxState} {known : KnownParts} {src : ℕ}
    (hsrc : src = 0 ∨ src = 2) (h : ∀ p, known src p) :
    Decided (leaf stmts) f known (.signalRef src 1) := by
  refine decided_of_reads fun id hid i hi p => ?_
  rw [exprReads, List.mem_singleton] at hid
  subst hid
  have hindex : (leaf stmts).sigIndex id = some id := by
    rcases hsrc with rfl | rfl <;> rfl
  rw [hindex] at hi
  obtain rfl := Option.some.inj hi
  exact h p

end WireExample

namespace WireExample

def swapped : List IRStmt := [copy 1 2, copy 2 0]

/-- The settled state but for the old value of `b`. -/
def beforeRun : CtxState := (settled swapped).state.setCurrent 2 (simValZero 1)

theorem beforeRun_agrees :
    AgreesOn (Given (leaf swapped) (settled swapped).state) beforeRun (settled swapped).state := by
  refine ⟨fun i p hp => ?_, rfl⟩
  rw [beforeRun, setCurrent_current]
  by_cases hi : i = 2
  · subst hi
    rw [if_pos rfl]
    rcases hp with hout | hwide
    · exact absurd ⟨rfl, trivial⟩ (hout ⟨2, none⟩ (by decide))
    · have hsettled : ((settled swapped).state.signals 2).current = simValOnes 1 := by decide +kernel
      rw [hsettled] at hwide ⊢
      cases p with
      | width => rfl
      | bit k =>
        have hones : (simValOnes 1).Masked := by decide +kernel
        have hzero : (simValZero 1).Masked := by decide +kernel
        simp only [SimValue.part, hones.bits hwide, hzero.bits hwide]
  · rw [if_neg hi]

end WireExample

end JzHdl

import JzHdl.Sim.Targets

/-! # Reading and writing against a snapshot

The accesses a statement makes when every expression is evaluated in one fixed
state. A staged run from another state makes the same accesses as long as it
reads nothing that differs from the snapshot.
-/

namespace JzHdl

/-- A write of an event: a register or some of its bits, or a memory word. -/
inductive Write where

  | reg (i : ℕ) (slice : Option (ℕ × ℕ)) (v : SimValue)

  | cell (mem addr : ℕ) (v : SimValue)
  deriving DecidableEq

/-- What a statement does in order: evaluate, look at the width of a target, write. -/
inductive Access where

  | eval (e : IRExpr)

  | target (i : ℕ)

  | write (w : Write)

section

variable (m : IRModule) (s : CtxState)

mutual

/-- The memory words an expression reads in a state. -/
def exprCells : IRExpr → List (ℕ × ℕ)
  | .null | .literal .. | .signalRef .. | .slice .. => []
  | .unary _ operand _ => exprCells operand
  | .binary _ left right _ => exprCells left ++ exprCells right
  | .ternary condition trueVal falseVal =>
      exprCells condition ++ exprCells trueVal ++ exprCells falseVal
  | .concat operands => exprsCells operands
  | .sliceExpr baseExpr _ _ => exprCells baseExpr
  | .intrinsic _ source index value _ _ => exprCells source ++ exprCells index ++ exprCells value
  | .memRead memoryName address _ => exprCells address ++
      match m.memOf memoryName with
      | none => []
      | some (i, mem) =>
        match simValueToMemIndex (simEvalExpr m s address) mem.depth with
        | none => []
        | some a => [(i, a)]

def exprsCells : List IRExpr → List (ℕ × ℕ)
  | [] => []
  | e :: rest => exprCells e ++ exprsCells rest

end

def assignSlice (a : IRAssignment) : Option (ℕ × ℕ) :=
  if a.isSliced then some (a.lhsMsb, a.lhsLsb) else none

def assignTrace (a : IRAssignment) : List Access :=
  match m.sigIndex a.lhsSignalId with
  | none => []
  | some i => [.eval a.rhs, .target i, .write (.reg i (assignSlice a)
      (extendRhs a.kind (simEvalExpr m s a.rhs) (s.signals i).current.width))]

def memWriteTrace (memoryName : String) (address data : IRExpr) : List Access :=
  match m.memOf memoryName with
  | none => []
  | some (i, mem) => [.eval address, .eval data] ++
      match simValueToMemIndex (simEvalExpr m s address) mem.depth with
      | none => []
      | some a => [.write (.cell i a (simEvalExpr m s data))]

mutual

/-- The accesses of a statement when everything is evaluated in the state `s`. -/
def stmtTrace : IRStmt → List Access
  | .null => []
  | .assignment assign => assignTrace m s assign
  | .ifStmt condition thenBlock elifChain elseBlock => .eval condition ::
      match simValIsTrue (simEvalExpr m s condition) with
      | none => []
      | some true => stmtTrace thenBlock
      | some false =>
        match elifTrace elifChain with
        | (true, tr) => tr
        | (false, tr) => tr ++ stmtTrace elseBlock
  | .select selector cases => .eval selector ::
      if simValHasXz (simEvalExpr m s selector) then []
      else casesTrace (simEvalExpr m s selector) cases
  | .block stmts => stmtsTrace stmts
  | .memWrite memoryName address data => memWriteTrace m s memoryName address data

def elifTrace : IRStmt → Bool × List Access
  | .ifStmt condition thenBlock elifChain _ =>
    match simValIsTrue (simEvalExpr m s condition) with
    | none => (true, [.eval condition])
    | some true => (true, .eval condition :: stmtTrace thenBlock)
    | some false => ((elifTrace elifChain).1, .eval condition :: (elifTrace elifChain).2)
  | _ => (false, [])

def casesTrace (selector : SimValue) : List (IRExpr × IRStmt) → List Access
  | [] => []
  | (caseValue, body) :: rest =>
    if caseValue.isNull then stmtTrace body
    else .eval caseValue ::
      if simValIsTrue (simValEq selector (simEvalExpr m s caseValue)) = some true then
        stmtTrace body
      else casesTrace selector rest

def stmtsTrace : List IRStmt → List Access
  | [] => []
  | stmt :: rest => stmtTrace stmt ++ stmtsTrace rest

end

end

def traceWrites : List Access → List Write
  | [] => []
  | .write w :: rest => w :: traceWrites rest
  | .eval _ :: rest | .target _ :: rest => traceWrites rest

def writesCells : List Write → List (ℕ × ℕ)
  | [] => []
  | .cell mem addr _ :: rest => (mem, addr) :: writesCells rest
  | .reg .. :: rest => writesCells rest

def writesRegs : List Write → List ℕ
  | [] => []
  | .reg i _ _ :: rest => i :: writesRegs rest
  | .cell .. :: rest => writesRegs rest

/-- No access reads a signal of `now`, a word of `cells` or a word written earlier. -/
def TraceClear (m : IRModule) (s : CtxState) (now : List ℕ) :
    List (ℕ × ℕ) → List Access → Prop
  | _, [] => True
  | cells, .eval e :: rest =>
    (∀ id ∈ exprReads e, ∀ i ∈ m.sigIndex id, i ∉ now) ∧ (∀ c ∈ exprCells m s e, c ∉ cells) ∧
      TraceClear m s now cells rest
  | cells, .target i :: rest => i ∉ now ∧ TraceClear m s now cells rest
  | cells, .write w :: rest => TraceClear m s now (cells ++ writesCells [w]) rest

def TraceClear.decide (m : IRModule) (s : CtxState) (now : List ℕ) :
    (cells : List (ℕ × ℕ)) → (tr : List Access) → Decidable (TraceClear m s now cells tr)
  | _, [] => .isTrue trivial
  | cells, .eval _ :: rest =>
    have := TraceClear.decide m s now cells rest
    instDecidableAnd
  | cells, .target _ :: rest =>
    have := TraceClear.decide m s now cells rest
    instDecidableAnd
  | cells, .write w :: rest => TraceClear.decide m s now (cells ++ writesCells [w]) rest

instance (m : IRModule) (s : CtxState) (now : List ℕ) (cells : List (ℕ × ℕ)) (tr : List Access) :
    Decidable (TraceClear m s now cells tr) := TraceClear.decide m s now cells tr

/-- Two states that differ at most in some signals and some memory words. -/
structure AgreeOff (s t : CtxState) (now : List ℕ) (cells : List (ℕ × ℕ)) : Prop where

  current : ∀ i, i ∉ now → (t.signals i).current = (s.signals i).current

  cells : ∀ c, c ∉ cells → t.cells c.1 c.2 = s.cells c.1 c.2

/-- One staged write. -/
def stageOne (t : CtxState) : Write → CtxState
  | .reg i slice v =>
    let e := t.signals i
    t.setEntry i { e with
      next := match slice with
        | some (msb, lsb) => writeSlice (if e.hasPending then e.next else e.current) v msb lsb
        | none => v
      hasPending := true }
  | .cell mem addr v => t.setCell mem addr v

def stageAll (t : CtxState) (ws : List Write) : CtxState := ws.foldl stageOne t

/-- The same signal table and memories, whatever the flags. -/
structure Alike (s t : CtxState) : Prop where

  signals : s.signals = t.signals

  cells : s.cells = t.cells

section

variable {m : IRModule} {s t u : CtxState} {now : List ℕ} {cells : List (ℕ × ℕ)}

namespace Alike

theorem refl (s : CtxState) : Alike s s := ⟨rfl, rfl⟩

theorem symm (h : Alike s t) : Alike t s := ⟨h.signals.symm, h.cells.symm⟩

theorem trans (h : Alike s t) (h' : Alike t u) : Alike s u :=
  ⟨h.signals.trans h'.signals, h.cells.trans h'.cells⟩

theorem raiseError (s : CtxState) (b : Bool) : Alike (s.raiseError b) s := ⟨rfl, rfl⟩

theorem sameData (h : Alike s t) : SameData s t := ⟨fun i => by rw [h.signals], h.cells⟩

theorem stageOne (h : Alike s t) (w : Write) : Alike (JzHdl.stageOne s w) (JzHdl.stageOne t w) := by
  cases w with
  | reg i slice v =>
    refine ⟨?_, h.cells⟩
    simp only [JzHdl.stageOne, CtxState.setEntry, h.signals]
  | cell mem addr v =>
    refine ⟨h.signals, ?_⟩
    simp only [JzHdl.stageOne, CtxState.setCell, h.cells]

theorem stageAll : ∀ (ws : List Write) {s t : CtxState}, Alike s t →
    Alike (JzHdl.stageAll s ws) (JzHdl.stageAll t ws)
  | [], _, _, h => h
  | w :: rest, _, _, h => stageAll rest (h.stageOne w)

end Alike

theorem stageAll_append (t : CtxState) (ws ws' : List Write) :
    stageAll t (ws ++ ws') = stageAll (stageAll t ws) ws' := List.foldl_append

theorem traceWrites_append : ∀ (a b : List Access),
    traceWrites (a ++ b) = traceWrites a ++ traceWrites b
  | [], _ => rfl
  | .write w :: rest, b => congrArg (w :: ·) (traceWrites_append rest b)
  | .eval _ :: rest, b => traceWrites_append rest b
  | .target _ :: rest, b => traceWrites_append rest b

theorem writesCells_append : ∀ (a b : List Write),
    writesCells (a ++ b) = writesCells a ++ writesCells b
  | [], _ => rfl
  | .cell mem addr _ :: rest, b => congrArg ((mem, addr) :: ·) (writesCells_append rest b)
  | .reg .. :: rest, b => writesCells_append rest b

theorem writesRegs_append : ∀ (a b : List Write),
    writesRegs (a ++ b) = writesRegs a ++ writesRegs b
  | [], _ => rfl
  | .reg i _ _ :: rest, b => congrArg (i :: ·) (writesRegs_append rest b)
  | .cell .. :: rest, b => writesRegs_append rest b

theorem traceClear_append : ∀ {a b : List Access} {cells : List (ℕ × ℕ)},
    TraceClear m s now cells (a ++ b) ↔ TraceClear m s now cells a ∧
      TraceClear m s now (cells ++ writesCells (traceWrites a)) b
  | [], b, cells => by simp [TraceClear, traceWrites, writesCells]
  | .eval e :: rest, b, cells => by
      rw [List.cons_append, TraceClear, TraceClear, traceClear_append, traceWrites]
      simp only [and_assoc]
  | .target i :: rest, b, cells => by
      rw [List.cons_append, TraceClear, TraceClear, traceClear_append, traceWrites, and_assoc]
  | .write w :: rest, b, cells => by
      rw [List.cons_append, TraceClear, TraceClear, traceClear_append, traceWrites,
        List.append_assoc, ← writesCells_append]
      rfl

/-! ## Evaluation -/

theorem evalMemRead_cells {name : String} {width : ℕ} {v : SimValue}
    (h : ∀ c ∈ (match m.memOf name with
      | none => []
      | some (i, mem) =>
        match simValueToMemIndex v mem.depth with
        | none => []
        | some a => [(i, a)] : List (ℕ × ℕ)), t.cells c.1 c.2 = s.cells c.1 c.2) :
    evalMemRead m t name width v = evalMemRead m s name width v := by
  rw [evalMemRead, evalMemRead]
  cases hm : m.memOf name with
  | none => rfl
  | some p =>
    obtain ⟨i, mem⟩ := p
    simp only [hm] at h ⊢
    split
    · rfl
    · cases ha : simValueToMemIndex v mem.depth with
      | none => rfl
      | some a =>
        rw [ha] at h
        exact h (i, a) (List.mem_singleton.mpr rfl)

mutual

/-- An expression that reads nothing that differs has its snapshot value. -/
theorem simEvalExpr_agree (h : AgreeOff s t now cells) : ∀ (e : IRExpr),
    (∀ id ∈ exprReads e, ∀ i ∈ m.sigIndex id, i ∉ now) → (∀ c ∈ exprCells m s e, c ∉ cells) →
    simEvalExpr m t e = simEvalExpr m s e
  | .null, _, _ | .literal .., _, _ => rfl
  | .signalRef id w, hr, _ => by
      simp only [simEvalExpr, evalSignal]
      cases hi : m.sigIndex id with
      | none => rfl
      | some i => exact h.current i (hr id (List.mem_singleton.mpr rfl) i hi)
  | .slice id msb lsb w, hr, _ => by
      simp only [simEvalExpr]
      cases hi : m.sigIndex id with
      | none => rfl
      | some i => simp only [h.current i (hr id (List.mem_singleton.mpr rfl) i hi)]
  | .unary _ e _, hr, hc => by simp only [simEvalExpr, simEvalExpr_agree h e hr hc]
  | .sliceExpr e _ _, hr, hc => by simp only [simEvalExpr, simEvalExpr_agree h e hr hc]
  | .memRead name e w, hr, hc => by
      rw [exprCells, List.forall_mem_append] at hc
      simp only [simEvalExpr, simEvalExpr_agree h e hr hc.1]
      exact evalMemRead_cells fun c hcell => h.cells c (hc.2 c hcell)
  | .binary _ l r _, hr, hc => by
      rw [exprReads, List.forall_mem_append] at hr
      rw [exprCells, List.forall_mem_append] at hc
      simp only [simEvalExpr, simEvalExpr_agree h l hr.1 hc.1, simEvalExpr_agree h r hr.2 hc.2]
  | .ternary c u v, hr, hc => by
      rw [exprReads, List.forall_mem_append, List.forall_mem_append] at hr
      rw [exprCells, List.forall_mem_append, List.forall_mem_append] at hc
      simp only [simEvalExpr, simEvalExpr_agree h c hr.1.1 hc.1.1,
        simEvalExpr_agree h u hr.1.2 hc.1.2, simEvalExpr_agree h v hr.2 hc.2]
  | .intrinsic _ c u v _ _, hr, hc => by
      rw [exprReads, List.forall_mem_append, List.forall_mem_append] at hr
      rw [exprCells, List.forall_mem_append, List.forall_mem_append] at hc
      simp only [simEvalExpr, simEvalExpr_agree h c hr.1.1 hc.1.1,
        simEvalExpr_agree h u hr.1.2 hc.1.2, simEvalExpr_agree h v hr.2 hc.2]
  | .concat es, hr, hc => by simp only [simEvalExpr, simEvalExprs_agree h es hr hc]

theorem simEvalExprs_agree (h : AgreeOff s t now cells) : ∀ (es : List IRExpr),
    (∀ id ∈ exprsReads es, ∀ i ∈ m.sigIndex id, i ∉ now) →
    (∀ c ∈ exprsCells m s es, c ∉ cells) → simEvalExprs m t es = simEvalExprs m s es
  | [], _, _ => rfl
  | e :: es, hr, hc => by
      rw [exprsReads, List.forall_mem_append] at hr
      rw [exprsCells, List.forall_mem_append] at hc
      simp only [simEvalExprs, simEvalExpr_agree h e hr.1 hc.1, simEvalExprs_agree h es hr.2 hc.2]

end

/-! ## Staged execution -/

theorem stageOne_current (t : CtxState) (w : Write) (i : ℕ) :
    ((stageOne t w).signals i).current = (t.signals i).current := by
  cases w with
  | reg j slice v =>
    simp only [stageOne, CtxState.setEntry]
    split
    · rename_i h; rw [h]
    · rfl
  | cell mem addr v => rfl

theorem stageAll_current : ∀ (ws : List Write) (t : CtxState) (i : ℕ),
    ((stageAll t ws).signals i).current = (t.signals i).current
  | [], _, _ => rfl
  | w :: rest, t, i => (stageAll_current rest (stageOne t w) i).trans (stageOne_current t w i)

theorem stageAll_cells : ∀ (ws : List Write) (t : CtxState) (c : ℕ × ℕ), c ∉ writesCells ws →
    (stageAll t ws).cells c.1 c.2 = t.cells c.1 c.2
  | [], _, _, _ => rfl
  | .reg .. :: rest, _, c, h => stageAll_cells rest _ c h
  | .cell mem addr v :: rest, t, c, h => by
      rw [writesCells, List.mem_cons, not_or] at h
      refine (stageAll_cells rest _ c h.2).trans ?_
      simp only [stageOne, CtxState.setCell]
      exact if_neg fun hc => h.1 (Prod.ext hc.1 hc.2)

theorem AgreeOff.stageAll (h : AgreeOff s t now cells) (ws : List Write)
    (hu : Alike u (stageAll t ws)) : AgreeOff s u now (cells ++ writesCells ws) where
  current i hi := by
    rw [hu.signals, stageAll_current]
    exact h.current i hi
  cells c hc := by
    rw [List.mem_append, not_or] at hc
    rw [hu.cells, stageAll_cells ws t c hc.2]
    exact h.cells c hc.1

theorem AgreeOff.raiseError (h : AgreeOff s t now cells) (b : Bool) :
    AgreeOff s (t.raiseError b) now cells := ⟨h.current, h.cells⟩

theorem applyAssign_trace (h : AgreeOff s t now cells) (a : IRAssignment)
    (hc : TraceClear m s now cells (assignTrace m s a)) :
    Alike (applyAssign m true t a) (stageAll t (traceWrites (assignTrace m s a))) := by
  rw [applyAssign]
  rw [assignTrace] at hc ⊢
  cases hi : m.sigIndex a.lhsSignalId with
  | none => exact .refl t
  | some i =>
    rw [hi] at hc
    obtain ⟨hreads, hcells, htarget, -⟩ := hc
    simp only [if_true, simEvalExpr_agree h a.rhs hreads hcells, h.current i htarget]
    refine ⟨?_, rfl⟩
    simp only [traceWrites, stageAll, List.foldl_cons, List.foldl_nil, stageOne, assignSlice,
      CtxState.setEntry, stageWrite]
    by_cases hsl : a.isSliced = true
    · simp only [hsl, if_true]
      rfl
    · simp only [hsl, if_false, Bool.false_eq_true]
      rfl

theorem execMemWrite_trace (h : AgreeOff s t now cells) (name : String) (address data : IRExpr)
    (hc : TraceClear m s now cells (memWriteTrace m s name address data)) :
    Alike (execMemWrite m t name address data)
      (stageAll t (traceWrites (memWriteTrace m s name address data))) := by
  rw [execMemWrite]
  rw [memWriteTrace] at hc ⊢
  cases hm : m.memOf name with
  | none => exact .refl t
  | some p =>
    obtain ⟨i, mem⟩ := p
    rw [hm] at hc
    obtain ⟨ha1, ha2, hd1, hd2, -⟩ := hc
    simp only [simEvalExpr_agree h address ha1 ha2, simEvalExpr_agree h data hd1 hd2]
    cases simValueToMemIndex (simEvalExpr m s address) mem.depth with
    | none => exact ⟨rfl, rfl⟩
    | some a => exact ⟨rfl, rfl⟩

mutual

/-- A staged run makes the accesses of the snapshot. -/
theorem exec_trace : ∀ (stmt : IRStmt) {t : CtxState} {cells : List (ℕ × ℕ)},
    AgreeOff s t now cells → TraceClear m s now cells (stmtTrace m s stmt) →
    Alike (simExecStmt m true stmt t) (stageAll t (traceWrites (stmtTrace m s stmt)))
  | .null, t, _, _, _ => .refl t
  | .assignment a, _, _, h, hc => applyAssign_trace h a hc
  | .memWrite name address data, _, _, h, hc => execMemWrite_trace h name address data hc
  | .block stmts, _, _, h, hc => by
      rw [simExecStmt]
      exact execStmts_trace stmts h hc
  | .ifStmt c u e f, t, cells, h, hc => by
      rw [stmtTrace] at hc ⊢
      obtain ⟨h1, h2, hrest⟩ := hc
      rw [simExecStmt, simEvalExpr_agree h c h1 h2, traceWrites]
      have h0 : AgreeOff s (afterEval m t c) now cells := h.raiseError _
      have hal : ∀ ws, Alike (stageAll (afterEval m t c) ws) (stageAll t ws) :=
        fun ws => (Alike.raiseError t _).stageAll ws
      cases hb : simValIsTrue (simEvalExpr m s c) with
      | none => exact ⟨rfl, rfl⟩
      | some b =>
        rw [hb] at hrest
        cases b with
        | true => exact (exec_trace u h0 hrest).trans (hal _)
        | false =>
          simp only at hrest ⊢
          cases hx : elifTrace m s e with
          | mk done tr =>
            rw [hx] at hrest
            cases done with
            | true =>
              have he := execElif_trace e h0 (by rw [hx]; exact hrest)
              rw [hx] at he
              cases hr : execElifChain m true e (afterEval m t c) with
              | mk done' t' =>
                rw [hr] at he
                obtain rfl : done' = true := he.1
                exact he.2.trans (hal _)
            | false =>
              simp only [traceClear_append] at hrest
              have he := execElif_trace e h0 (by rw [hx]; exact hrest.1)
              rw [hx] at he
              cases hr : execElifChain m true e (afterEval m t c) with
              | mk done' t' =>
                rw [hr] at he
                obtain rfl : done' = false := he.1
                have hf := exec_trace f (h0.stageAll _ he.2) hrest.2
                rw [traceWrites_append, stageAll_append]
                exact hf.trans ((he.2.trans (hal _)).stageAll _)
  | .select sel cases, t, cells, h, hc => by
      rw [stmtTrace] at hc ⊢
      obtain ⟨h1, h2, hrest⟩ := hc
      rw [simExecStmt, simEvalExpr_agree h sel h1 h2, traceWrites]
      have h0 : AgreeOff s (afterEval m t sel) now cells := h.raiseError _
      have hal : ∀ ws, Alike (stageAll (afterEval m t sel) ws) (stageAll t ws) :=
        fun ws => (Alike.raiseError t _).stageAll ws
      by_cases hx : simValHasXz (simEvalExpr m s sel) = true
      · simp only [if_pos hx]
        exact ⟨rfl, rfl⟩
      · simp only [if_neg hx] at hrest ⊢
        exact (execCases_trace _ cases h0 hrest).trans (hal _)

theorem execElif_trace : ∀ (stmt : IRStmt) {t : CtxState} {cells : List (ℕ × ℕ)},
    AgreeOff s t now cells → TraceClear m s now cells (elifTrace m s stmt).2 →
    (execElifChain m true stmt t).1 = (elifTrace m s stmt).1 ∧
      Alike (execElifChain m true stmt t).2 (stageAll t (traceWrites (elifTrace m s stmt).2))
  | .ifStmt c u e f, t, cells, h, hc => by
      rw [elifTrace] at hc ⊢
      rw [execElifChain]
      have h0 : AgreeOff s (afterEval m t c) now cells := h.raiseError _
      have hal : ∀ ws, Alike (stageAll (afterEval m t c) ws) (stageAll t ws) :=
        fun ws => (Alike.raiseError t _).stageAll ws
      cases hb : simValIsTrue (simEvalExpr m s c) with
      | none =>
        rw [hb] at hc
        obtain ⟨h1, h2, -⟩ := hc
        rw [simEvalExpr_agree h c h1 h2, hb]
        exact ⟨rfl, rfl, rfl⟩
      | some b =>
        rw [hb] at hc
        cases b with
        | true =>
          obtain ⟨h1, h2, hrest⟩ := hc
          rw [simEvalExpr_agree h c h1 h2, hb]
          exact ⟨rfl, (exec_trace u h0 hrest).trans (hal _)⟩
        | false =>
          obtain ⟨h1, h2, hrest⟩ := hc
          rw [simEvalExpr_agree h c h1 h2, hb]
          obtain ⟨hd, he⟩ := execElif_trace e h0 hrest
          exact ⟨hd, he.trans (hal _)⟩
  | .null, t, _, _, _ | .assignment _, t, _, _, _ | .select .., t, _, _, _ | .block _, t, _, _, _
  | .memWrite .., t, _, _, _ => ⟨rfl, .refl t⟩

theorem execCases_trace (v : SimValue) : ∀ (cases : List (IRExpr × IRStmt)) {t : CtxState}
    {cells : List (ℕ × ℕ)}, AgreeOff s t now cells →
    TraceClear m s now cells (casesTrace m s v cases) →
    Alike (execCases m true v cases t) (stageAll t (traceWrites (casesTrace m s v cases)))
  | [], t, _, _, _ => .refl t
  | (cv, body) :: rest, t, cells, h, hc => by
      rw [casesTrace] at hc ⊢
      rw [execCases]
      have h0 : AgreeOff s (afterEval m t cv) now cells := h.raiseError _
      have hal : ∀ ws, Alike (stageAll (afterEval m t cv) ws) (stageAll t ws) :=
        fun ws => (Alike.raiseError t _).stageAll ws
      by_cases hn : cv.isNull = true
      · simp only [if_pos hn] at hc ⊢
        exact exec_trace body h hc
      · simp only [if_neg hn] at hc ⊢
        obtain ⟨h1, h2, hrest⟩ := hc
        rw [simEvalExpr_agree h cv h1 h2]
        by_cases heq : simValIsTrue (simValEq v (simEvalExpr m s cv)) = some true
        · simp only [if_pos heq] at hrest ⊢
          exact (exec_trace body h0 hrest).trans (hal _)
        · simp only [if_neg heq] at hrest ⊢
          exact (execCases_trace v rest h0 hrest).trans (hal _)

theorem execStmts_trace : ∀ (stmts : List IRStmt) {t : CtxState} {cells : List (ℕ × ℕ)},
    AgreeOff s t now cells → TraceClear m s now cells (stmtsTrace m s stmts) →
    Alike (execStmts m true stmts t) (stageAll t (traceWrites (stmtsTrace m s stmts)))
  | [], t, _, _, _ => .refl t
  | stmt :: rest, t, cells, h, hc => by
      rw [stmtsTrace, traceClear_append] at hc
      rw [execStmts, stmtsTrace, traceWrites_append, stageAll_append]
      have h1 := exec_trace stmt h hc.1
      exact (execStmts_trace rest (h.stageAll _ h1) hc.2).trans (h1.stageAll _)

end

end

end JzHdl

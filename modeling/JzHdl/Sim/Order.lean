import JzHdl.Sim.Still

/-! # Evaluation order

A statement is in order when no part of it reads what the part itself or a later
part writes. One run of such a statement leaves it still. Execution depends on
the data of a state only, not on its flags.
-/

namespace JzHdl

section

variable {m : IRModule} {s t : CtxState}

/-! ## Execution and flags -/

namespace SameData

theorem refl (s : CtxState) : SameData s s := ⟨fun _ => rfl, rfl⟩

theorem symm (h : SameData s t) : SameData t s := ⟨fun i => (h.signals i).symm, h.cells.symm⟩

theorem trans {u : CtxState} (h : SameData s t) (h' : SameData t u) : SameData s u :=
  ⟨fun i => (h.signals i).trans (h'.signals i), h.cells.trans h'.cells⟩

theorem raiseError (h : SameData s t) (b b' : Bool) : SameData (s.raiseError b) (t.raiseError b') :=
  ⟨h.signals, h.cells⟩

theorem setCurrent (h : SameData s t) (i : ℕ) (v : SimValue) :
    SameData (s.setCurrent i v) (t.setCurrent i v) := by
  refine ⟨fun j => ?_, h.cells⟩
  rw [setCurrent_current, setCurrent_current, h.signals]

theorem markDirty (h : SameData s t) (i : ℕ) : SameData (s.markDirty i) (t.markDirty i) :=
  ⟨h.signals, h.cells⟩

theorem afterEval (h : SameData s t) (e : IRExpr) :
    SameData (JzHdl.afterEval m s e) (JzHdl.afterEval m t e) := h.raiseError _ _

theorem writeNow (h : SameData s t) (a : IRAssignment) (i : ℕ) (rhs : SimValue) :
    SameData (JzHdl.writeNow a s i rhs) (JzHdl.writeNow a t i rhs) := by
  rw [JzHdl.writeNow, JzHdl.writeNow, ← h.signals]
  by_cases hsl : a.isSliced = true
  · simp only [if_pos hsl]
    split
    · exact h.setCurrent i _
    · exact (h.setCurrent i _).markDirty i
  · simp only [if_neg hsl]
    split
    · exact h
    · exact (h.setCurrent i _).markDirty i

theorem applyAssign (h : SameData s t) (a : IRAssignment) :
    SameData (JzHdl.applyAssign m false s a) (JzHdl.applyAssign m false t a) := by
  rw [JzHdl.applyAssign, JzHdl.applyAssign]
  cases m.sigIndex a.lhsSignalId with
  | none => exact h
  | some i =>
    simp only [Bool.false_eq_true, if_false, ← h.eval, ← h.signals]
    exact (h.raiseError _ _).writeNow a i _

theorem memWrite (h : SameData s t) (name : String) (address data : IRExpr) :
    SameData (execMemWrite m s name address data) (execMemWrite m t name address data) := by
  rw [execMemWrite, execMemWrite]
  cases m.memOf name with
  | none => exact h
  | some p =>
    obtain ⟨i, mem⟩ := p
    have he := (h.afterEval (m := m) address).afterEval (m := m) data
    simp only [← h.eval]
    cases simValueToMemIndex (simEvalExpr m s address) mem.depth with
    | none => exact he
    | some a => exact ⟨he.signals, by simp only [CtxState.setCell, he.cells]⟩

mutual

theorem exec : ∀ (stmt : IRStmt) {s t : CtxState}, SameData s t →
    SameData (simExecStmt m false stmt s) (simExecStmt m false stmt t)
  | .null, _, _, h => h
  | .assignment a, _, _, h => h.applyAssign a
  | .ifStmt c u e f, s, t, h => by
      rw [simExecStmt, simExecStmt, ← h.eval]
      have hd := h.afterEval (m := m) c
      cases simValIsTrue (simEvalExpr m s c) with
      | none => exact hd.raiseError _ _
      | some b =>
        cases b with
        | true => exact exec u hd
        | false =>
          obtain ⟨hb, he⟩ := execElif e hd
          simp only
          cases hs : execElifChain m false e (JzHdl.afterEval m s c) with
          | mk done s' =>
            cases ht : execElifChain m false e (JzHdl.afterEval m t c) with
            | mk done' t' =>
              rw [hs, ht] at hb he
              obtain rfl : done = done' := hb
              cases done with
              | true => exact he
              | false => exact exec f he
  | .select sel cases, s, t, h => by
      rw [simExecStmt, simExecStmt, ← h.eval]
      have hd := h.afterEval (m := m) sel
      split
      · exact hd.raiseError _ _
      · exact execCases _ cases hd
  | .block stmts, s, t, h => by
      rw [simExecStmt, simExecStmt]
      exact execStmts stmts h
  | .memWrite name address data, _, _, h => h.memWrite name address data

theorem execElif : ∀ (stmt : IRStmt) {s t : CtxState}, SameData s t →
    (execElifChain m false stmt s).1 = (execElifChain m false stmt t).1 ∧
      SameData (execElifChain m false stmt s).2 (execElifChain m false stmt t).2
  | .ifStmt c u e f, s, t, h => by
      rw [execElifChain, execElifChain, ← h.eval]
      have hd := h.afterEval (m := m) c
      cases simValIsTrue (simEvalExpr m s c) with
      | none => exact ⟨rfl, hd.raiseError _ _⟩
      | some b =>
        cases b with
        | true => exact ⟨rfl, exec u hd⟩
        | false => exact execElif e hd
  | .null, _, _, h | .assignment _, _, _, h | .select .., _, _, h | .block _, _, _, h
  | .memWrite .., _, _, h => ⟨rfl, h⟩

theorem execCases (v : SimValue) : ∀ (cases : List (IRExpr × IRStmt)) {s t : CtxState},
    SameData s t → SameData (JzHdl.execCases m false v cases s) (JzHdl.execCases m false v cases t)
  | [], _, _, h => h
  | (cv, body) :: rest, s, t, h => by
      rw [JzHdl.execCases, JzHdl.execCases, ← h.eval]
      have hd := h.afterEval (m := m) cv
      split
      · exact exec body h
      · split
        · exact exec body hd
        · exact execCases v rest hd

theorem execStmts : ∀ (stmts : List IRStmt) {s t : CtxState}, SameData s t →
    SameData (JzHdl.execStmts m false stmts s) (JzHdl.execStmts m false stmts t)
  | [], _, _, h => h
  | stmt :: rest, _, _, h => by
      rw [JzHdl.execStmts, JzHdl.execStmts]
      exact execStmts rest (exec stmt h)

end

end SameData

/-! ## Statements in order -/

/-- Reading some signals and writing some targets do not interfere. -/
def ReadsApart (m : IRModule) (reads : List ℕ) (ts : List Target) : Prop :=
  ∀ id ∈ reads, ∀ i, m.sigIndex id = some i → ∀ τ ∈ ts, τ.index ≠ i

instance (m : IRModule) (reads : List ℕ) (ts : List Target) : Decidable (ReadsApart m reads ts) :=
  inferInstanceAs (Decidable (∀ id ∈ reads, ∀ i ∈ m.sigIndex id, ∀ τ ∈ ts, τ.index ≠ i))

theorem ReadsApart.mono {reads reads' : List ℕ} {ts ts' : List Target} (h : ReadsApart m reads ts)
    (hr : reads' ⊆ reads) (ht : ts' ⊆ ts) : ReadsApart m reads' ts' :=
  fun id hid i hi τ hτ => h id (hr hid) i hi τ (ht hτ)

theorem Evolves.current_of_ne {ts : List Target} (h : Evolves ts s t) {i : ℕ}
    (hi : ∀ τ ∈ ts, τ.index ≠ i) : (t.signals i).current = (s.signals i).current :=
  SimValue.ext_part fun p => h.keeps i p fun τ hτ hc => hi τ hτ hc.1

theorem Evolves.sameSignals {ts : List Target} {reads : List ℕ} (h : Evolves ts s t)
    (ha : ReadsApart m reads ts) : SameSignals m s t reads :=
  fun id hid i hi => (h.current_of_ne (ha id hid i hi)).symm

theorem Evolves.sameMems {ts : List Target} (h : Evolves ts s t) (mems : List String) :
    SameMems m s t mems := fun _ _ i _ => by rw [h.cells]

/-- Later writes that touch neither the reads nor the targets of a still statement. -/
theorem Still.of_evolves {ts : List Target} {stmt : IRStmt} (hs : Still m s stmt)
    (h : Evolves ts s t) (hr : ReadsApart m (stmtReads stmt) ts)
    (ha : TargetsApart ts (stmtTargets m stmt)) : Still m t stmt :=
  Still.congr stmt hs ⟨h.sameSignals hr, h.sameMems _, fun υ hυ =>
    Target.agree_of_apart rfl (fun τ hτ => ha τ hτ υ hυ) fun p hp => (h.keeps υ.index p hp).symm,
    h.runtimeError⟩

/-- The signals the conditions of an elif chain read. -/
def chainReads : IRStmt → List ℕ
  | .ifStmt condition _ elifChain _ => exprReads condition ++ chainReads elifChain
  | _ => []

mutual

/-- No part of the statement reads what the part or a later one writes. -/
def InOrder (m : IRModule) : IRStmt → Prop
  | .null | .memWrite .. => True
  | .assignment assign => ReadsApart m (exprReads assign.rhs) (assignTargets m assign)
  | .ifStmt condition thenBlock elifChain elseBlock =>
      ReadsApart m (exprReads condition ++ chainReads elifChain)
        (stmtTargets m thenBlock ++ stmtTargets m elifChain ++ stmtTargets m elseBlock) ∧
      InOrder m thenBlock ∧ InOrder m elifChain ∧ InOrder m elseBlock
  | .select selector cases =>
      ReadsApart m (exprReads selector) (casesTargets m cases) ∧ CasesInOrder m cases
  | .block stmts => StmtsInOrder m stmts

def CasesInOrder (m : IRModule) : List (IRExpr × IRStmt) → Prop
  | [] => True
  | (caseValue, body) :: rest =>
      ReadsApart m (exprReads caseValue) (stmtTargets m body ++ casesTargets m rest) ∧
      InOrder m body ∧ CasesInOrder m rest

def StmtsInOrder (m : IRModule) : List IRStmt → Prop
  | [] => True
  | stmt :: rest =>
      ReadsApart m (stmtReads stmt) (stmtsTargets m rest) ∧
      TargetsApart (stmtTargets m stmt) (stmtsTargets m rest) ∧
      InOrder m stmt ∧ StmtsInOrder m rest

end

/-- A condition keeps its value and raises no new error while its reads are left alone. -/
theorem Evolves.cond {ts : List Target} {e : IRExpr} (h : Evolves ts (afterEval m s e) t)
    (ha : ReadsApart m (exprReads e) ts) :
    simEvalExpr m t e = simEvalExpr m s e ∧ EvalStill m t e := by
  have h0 : Evolves ts s t := (Evolves.raiseError s _).trans h
  have hs := h0.sameSignals ha
  refine ⟨(simEvalExpr_congr e hs (h0.sameMems _)).symm, fun hr => ?_⟩
  rw [← simEvalRaises_congr e hs (h0.sameMems _)] at hr
  exact h.runtimeError (afterEval_error hr)

theorem extendRhs_idem (kind : IRAssignmentKind) (v : SimValue) (w : ℕ) :
    extendRhs kind v (extendRhs kind v w).width = extendRhs kind v w := by
  rw [extendRhs, extendRhs]
  by_cases hz : kind.isZext = true
  · simp only [hz, if_true, simValZext]
    by_cases hw : w ≤ v.width
    · simp [hw]
    · simp [hw]
  · by_cases hx : kind.isSext = true
    · simp only [hz, hx, if_true, Bool.false_eq_true, if_false, simValSext]
      by_cases hw : w ≤ v.width
      · simp [hw]
      · simp [hw]
    · simp only [hz, hx, Bool.false_eq_true, if_false]
      by_cases hw : v.width = w
      · simp [hw]
      · simp [hw]

theorem simValSame_self (v : SimValue) (nw : ℕ) : simValSame v v nw = true := sameWords_self v 0 nw

/-- Writing the same value again changes nothing. -/
theorem writeNow_again (a : IRAssignment) (s : CtxState) (i : ℕ) (v : SimValue) :
    let old := ((writeNow a s i (extendRhs a.kind v (s.signals i).current.width)).signals i).current
    let rhs := extendRhs a.kind v old.width
    if a.isSliced then writeSlice old rhs a.lhsMsb a.lhsLsb = old
    else simValSame old rhs ((old.width + 63) / 64) = true := by
  have hset : ∀ w, ((s.setCurrent i w).signals i).current = w :=
    fun w => (setCurrent_current s i i w).trans (if_pos rfl)
  have hmark : ∀ w, (((s.setCurrent i w).markDirty i).signals i).current = w := hset
  by_cases hsl : a.isSliced = true
  · simp only [if_pos hsl, writeNow]
    split
    all_goals
      simp only [hset, hmark, writeSlice_width]
      rw [writeSlice_eq_self_iff]
      intro k h1 h2 h3
      rw [writeSlice_part]
      simp [h1, h2, h3]
  · simp only [if_neg hsl, writeNow]
    split
    · assumption
    · rw [hmark, extendRhs_idem]
      exact simValSame_self _ _

theorem applyAssign_still {a : IRAssignment} (ha : ReadsApart m (exprReads a.rhs) (assignTargets m a))
    (s : CtxState) : AssignStill m (applyAssign m false s a) a := by
  intro i hi
  have happly : applyAssign m false s a = writeNow a (afterEval m s a.rhs) i
      (extendRhs a.kind (simEvalExpr m s a.rhs) (s.signals i).current.width) := by
    rw [applyAssign, hi]
    rfl
  have hev : Evolves (assignTargets m a) (afterEval m s a.rhs) (applyAssign m false s a) := by
    rw [happly, assignTargets, hi]
    exact writeNow_evolves (afterEval m s a.rhs) a i _
  obtain ⟨heval, hstill⟩ := hev.cond ha
  refine ⟨hstill, ?_⟩
  rw [heval, happly]
  exact writeNow_again a (afterEval m s a.rhs) i _

theorem elif_error : ∀ (stmt : IRStmt) {s : CtxState}, s.runtimeError = true →
    (execElifChain m false stmt s).1 = false →
    (execElifChain m false stmt s).2.runtimeError = true
  | .ifStmt c t e f, s, h, hd => by
      rw [execElifChain] at hd ⊢
      cases hb : simValIsTrue (simEvalExpr m s c) with
      | none => rw [hb] at hd; cases hd
      | some b =>
        rw [hb] at hd
        cases b with
        | true => cases hd
        | false => exact elif_error e (by simp [afterEval, CtxState.raiseError, h]) hd
  | .null, _, h, _ | .assignment _, _, h, _ | .select .., _, h, _ | .block _, _, h, _
  | .memWrite .., _, h, _ => h

/-- An elif chain whose conditions are all false stays so. -/
theorem elif_notDone : ∀ (stmt : IRStmt) {s u : CtxState},
    (execElifChain m false stmt s).1 = false → SameSignals m s u (chainReads stmt) →
    s.cells = u.cells → ((execElifChain m false stmt s).2.runtimeError = true → u.runtimeError = true) →
    ElifStill m u stmt ∧ elifDone m u stmt = false
  | .ifStmt c t e f, s, u, hd, hsig, hcells, herr => by
      rw [chainReads, sameSignals_append] at hsig
      have hmems : ∀ mems, SameMems m s u mems := fun _ _ _ _ _ => by rw [hcells]
      rw [execElifChain] at hd herr
      rw [ElifStill, elifDone, ← simEvalExpr_congr c hsig.1 (hmems _)]
      cases hb : simValIsTrue (simEvalExpr m s c) with
      | none => rw [hb] at hd; cases hd
      | some b =>
        rw [hb] at hd herr
        cases b with
        | true => cases hd
        | false =>
          obtain ⟨h1, h2⟩ := elif_notDone e (s := afterEval m s c) hd hsig.2 hcells herr
          refine ⟨⟨fun hr => herr ?_, h1⟩, h2⟩
          rw [← simEvalRaises_congr c hsig.1 (hmems _)] at hr
          exact elif_error e (afterEval_error hr) hd
  | .null, _, _, _, _, _, _ | .assignment _, _, _, _, _, _, _ | .select .., _, _, _, _, _, _
  | .block _, _, _, _, _, _, _ | .memWrite .., _, _, _, _, _, _ => by simp [ElifStill, elifDone]

mutual

/-- One run of a statement in order leaves it still. -/
theorem still_of_inOrder : ∀ (stmt : IRStmt) (s : CtxState), stmtMemWrites stmt = [] →
    InOrder m stmt → Still m (simExecStmt m false stmt s) stmt
  | .null, _, _, _ => by rw [Still]; trivial
  | .assignment a, s, _, h => by
      rw [InOrder] at h
      rw [Still]
      exact applyAssign_still h s
  | .ifStmt c u e f, s, hm, h => by
      simp only [stmtMemWrites, List.append_eq_nil_iff] at hm
      rw [InOrder] at h
      obtain ⟨hreads, hu, he, hf⟩ := h
      rw [simExecStmt, Still]
      have hc := hreads.mono (List.subset_append_left (exprReads c) (chainReads e))
        (List.Subset.refl _)
      cases hb : simValIsTrue (simEvalExpr m s c) with
      | none =>
        obtain ⟨h1, h2⟩ := (@Evolves.raiseError (stmtTargets m u ++ stmtTargets m e ++
          stmtTargets m f) (afterEval m s c) true).cond hc
        rw [h1, hb]
        exact ⟨h2, by simp [CtxState.raiseError]⟩
      | some b =>
        cases b with
        | true =>
          obtain ⟨h1, h2⟩ := ((exec_evolves (m := m) u (afterEval m s c) hm.1.1).mono (by simp)).cond hc
          rw [h1, hb]
          exact ⟨h2, still_of_inOrder u _ hm.1.1 hu⟩
        | false =>
          have hev := (execElif_evolves (m := m) e (afterEval m s c) hm.1.2).mono
            (show _ ⊆ stmtTargets m u ++ stmtTargets m e ++ stmtTargets m f by simp)
          have hchain := hreads.mono (List.subset_append_right (exprReads c) (chainReads e))
            (List.Subset.refl _)
          simp only
          cases hx : execElifChain m false e (afterEval m s c) with
          | mk done s' =>
            rw [hx] at hev
            cases done with
            | true =>
              obtain ⟨h1, h2⟩ := hev.cond hc
              have hes := elifStill_of_inOrder e (afterEval m s c) hm.1.2 he (by rw [hx])
              rw [hx] at hes
              simp only [h1, hb]
              exact ⟨h2, hes.1, fun hd => by rw [hes.2] at hd; cases hd⟩
            | false =>
              have hevf := (exec_evolves (m := m) f s' hm.2).mono
                (show _ ⊆ stmtTargets m u ++ stmtTargets m e ++ stmtTargets m f by simp)
              obtain ⟨h1, h2⟩ := (hev.trans hevf).cond hc
              have hsig := (hev.trans hevf).sameSignals hchain
              obtain ⟨h3, h4⟩ := elif_notDone e (s := afterEval m s c) (by rw [hx]) hsig
                (hev.trans hevf).cells.symm (by rw [hx]; exact hevf.runtimeError)
              simp only [h1, hb]
              exact ⟨h2, h3, fun _ => still_of_inOrder f s' hm.2 hf⟩
  | .select sel cases, s, hm, h => by
      simp only [stmtMemWrites] at hm
      rw [InOrder] at h
      rw [simExecStmt, Still]
      by_cases hx : simValHasXz (simEvalExpr m s sel) = true
      · simp only [if_pos hx]
        obtain ⟨h1, h2⟩ := (@Evolves.raiseError (casesTargets m cases)
          (afterEval m s sel) true).cond h.1
        rw [h1, if_pos hx]
        exact ⟨h2, by simp [CtxState.raiseError]⟩
      · simp only [if_neg hx]
        obtain ⟨h1, h2⟩ := (execCases_evolves (m := m) (simEvalExpr m s sel) cases
          (afterEval m s sel) hm).cond h.1
        rw [h1, if_neg hx]
        exact ⟨h2, casesStill_of_inOrder _ cases _ hm h.2⟩
  | .block stmts, s, hm, h => by
      rw [InOrder] at h
      rw [simExecStmt, Still]
      exact stmtsStill_of_inOrder stmts s hm h
  | .memWrite .., _, hm, _ => by simp [stmtMemWrites] at hm

theorem elifStill_of_inOrder : ∀ (stmt : IRStmt) (s : CtxState), stmtMemWrites stmt = [] →
    InOrder m stmt → (execElifChain m false stmt s).1 = true →
    ElifStill m (execElifChain m false stmt s).2 stmt ∧
      elifDone m (execElifChain m false stmt s).2 stmt = true
  | .ifStmt c u e f, s, hm, h, hd => by
      simp only [stmtMemWrites, List.append_eq_nil_iff] at hm
      rw [InOrder] at h
      obtain ⟨hreads, hu, he, -⟩ := h
      rw [execElifChain] at hd ⊢
      rw [ElifStill, elifDone]
      have hc := hreads.mono (List.subset_append_left (exprReads c) (chainReads e))
        (List.Subset.refl _)
      cases hb : simValIsTrue (simEvalExpr m s c) with
      | none =>
        obtain ⟨h1, h2⟩ := (@Evolves.raiseError (stmtTargets m u ++ stmtTargets m e ++
          stmtTargets m f) (afterEval m s c) true).cond hc
        simp only [h1, hb]
        exact ⟨⟨h2, by simp [CtxState.raiseError]⟩, trivial⟩
      | some b =>
        rw [hb] at hd
        cases b with
        | true =>
          obtain ⟨h1, h2⟩ := ((exec_evolves (m := m) u (afterEval m s c) hm.1.1).mono (by simp)).cond hc
          simp only [h1, hb]
          exact ⟨⟨h2, still_of_inOrder u _ hm.1.1 hu⟩, trivial⟩
        | false =>
          obtain ⟨h1, h2⟩ := ((execElif_evolves (m := m) e (afterEval m s c) hm.1.2).mono
            (by simp)).cond hc
          obtain ⟨h3, h4⟩ := elifStill_of_inOrder e _ hm.1.2 he hd
          simp only [h1, hb]
          exact ⟨⟨h2, h3⟩, h4⟩
  | .null, _, _, _, hd | .assignment _, _, _, _, hd | .select .., _, _, _, hd
  | .block _, _, _, _, hd | .memWrite .., _, _, _, hd => by simp [execElifChain] at hd

theorem casesStill_of_inOrder (v : SimValue) : ∀ (cases : List (IRExpr × IRStmt)) (s : CtxState),
    casesMemWrites cases = [] → CasesInOrder m cases →
    CasesStill m (execCases m false v cases s) v cases
  | [], _, _, _ => by rw [CasesStill]; trivial
  | (cv, body) :: rest, s, hm, h => by
      simp only [casesMemWrites, List.append_eq_nil_iff] at hm
      rw [CasesInOrder] at h
      obtain ⟨hc, hbody, hrest⟩ := h
      rw [execCases, CasesStill]
      by_cases hn : cv.isNull = true
      · simp only [if_pos hn]
        exact still_of_inOrder body s hm.1 hbody
      · simp only [if_neg hn]
        by_cases heq : simValIsTrue (simValEq v (simEvalExpr m s cv)) = some true
        · simp only [if_pos heq]
          obtain ⟨h1, h2⟩ := ((exec_evolves (m := m) body (afterEval m s cv) hm.1).mono
            (by simp)).cond hc
          rw [h1, if_pos heq]
          exact ⟨h2, still_of_inOrder body _ hm.1 hbody⟩
        · simp only [if_neg heq]
          obtain ⟨h1, h2⟩ :=
            ((execCases_evolves (m := m) v rest (afterEval m s cv) hm.2).mono (by simp)).cond hc
          rw [h1, if_neg heq]
          exact ⟨h2, casesStill_of_inOrder v rest _ hm.2 hrest⟩

theorem stmtsStill_of_inOrder : ∀ (stmts : List IRStmt) (s : CtxState), stmtsMemWrites stmts = [] →
    StmtsInOrder m stmts → StmtsStill m (execStmts m false stmts s) stmts
  | [], _, _, _ => by rw [StmtsStill]; trivial
  | stmt :: rest, s, hm, h => by
      simp only [stmtsMemWrites, List.append_eq_nil_iff] at hm
      rw [StmtsInOrder] at h
      obtain ⟨hreads, hts, hstmt, hrest⟩ := h
      rw [execStmts, StmtsStill]
      exact ⟨(still_of_inOrder stmt s hm.1 hstmt).of_evolves (execStmts_evolves rest _ hm.2) hreads
        hts.symm, stmtsStill_of_inOrder rest _ hm.2 hrest⟩

end

end

end JzHdl

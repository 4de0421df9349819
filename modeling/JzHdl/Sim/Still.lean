import JzHdl.Sim.Targets

/-! # Still statements

A statement is still in a state when no write on its path changes anything.
Stillness depends only on what the statement reads and on its targets, and a
statement that ran without raising a flag is still afterwards.
-/

namespace JzHdl

section

variable (m : IRModule) (s : CtxState)

/-- Evaluating an expression raises no new error. -/
def EvalStill (e : IRExpr) : Prop := simEvalRaises m s e = true → s.runtimeError = true

def AssignStill (a : IRAssignment) : Prop :=
  ∀ i, m.sigIndex a.lhsSignalId = some i → EvalStill m s a.rhs ∧
    let old := (s.signals i).current
    let rhs := extendRhs a.kind (simEvalExpr m s a.rhs) old.width
    if a.isSliced then writeSlice old rhs a.lhsMsb a.lhsLsb = old
    else simValSame old rhs ((old.width + 63) / 64) = true

/-- Whether an elif chain ends the statement it belongs to. -/
def elifDone : IRStmt → Bool
  | .ifStmt condition _ elifChain _ =>
    match simValIsTrue (simEvalExpr m s condition) with
    | some false => elifDone elifChain
    | _ => true
  | _ => false

mutual

/-- Along the path the statement takes in this state, no write changes anything. -/
def Still : IRStmt → Prop
  | .null => True
  | .assignment assign => AssignStill m s assign
  | .ifStmt condition thenBlock elifChain elseBlock => EvalStill m s condition ∧
    match simValIsTrue (simEvalExpr m s condition) with
    | none => s.runtimeError = true
    | some true => Still thenBlock
    | some false => ElifStill elifChain ∧ (elifDone m s elifChain = false → Still elseBlock)
  | .select selector cases => EvalStill m s selector ∧
    if simValHasXz (simEvalExpr m s selector) then s.runtimeError = true
    else CasesStill (simEvalExpr m s selector) cases
  | .block stmts => StmtsStill stmts
  | .memWrite .. => False

def ElifStill : IRStmt → Prop
  | .ifStmt condition thenBlock elifChain _ => EvalStill m s condition ∧
    match simValIsTrue (simEvalExpr m s condition) with
    | none => s.runtimeError = true
    | some true => Still thenBlock
    | some false => ElifStill elifChain
  | _ => True

def CasesStill (v : SimValue) : List (IRExpr × IRStmt) → Prop
  | [] => True
  | (caseValue, body) :: rest =>
    if caseValue.isNull then Still body
    else EvalStill m s caseValue ∧
      if simValIsTrue (simValEq v (simEvalExpr m s caseValue)) = some true then Still body
      else CasesStill v rest

def StmtsStill : List IRStmt → Prop
  | [] => True
  | stmt :: rest => Still stmt ∧ StmtsStill rest

end

end

section

variable {m : IRModule} {s t : CtxState}

theorem raiseError_of_error (h : s.runtimeError = true) (b : Bool) : s.raiseError b = s := by
  rw [CtxState.raiseError, h, Bool.true_or, ← h]

@[simp] theorem raiseError_signals (s : CtxState) (b : Bool) :
    (s.raiseError b).signals = s.signals := rfl

@[simp] theorem raiseError_false (s : CtxState) : s.raiseError false = s := by
  simp [CtxState.raiseError]

theorem EvalStill.afterEval {e : IRExpr} (h : EvalStill m s e) : afterEval m s e = s := by
  rw [JzHdl.afterEval]
  cases hr : simEvalRaises m s e with
  | false => exact raiseError_false s
  | true => exact raiseError_of_error (h hr) true

theorem AssignStill.applyAssign {a : IRAssignment} (h : AssignStill m s a) :
    applyAssign m false s a = s := by
  rw [JzHdl.applyAssign]
  cases hi : m.sigIndex a.lhsSignalId with
  | none => rfl
  | some i =>
    obtain ⟨he, hw⟩ := h i hi
    have hs : s.raiseError (simEvalRaises m s a.rhs) = s := he.afterEval
    simp only [Bool.false_eq_true, if_false, hs, writeNow]
    by_cases hsl : a.isSliced = true
    · simp only [if_pos hsl] at hw ⊢
      rw [hw, sameWords_self, if_pos rfl, setCurrent_self]
    · simp only [if_neg hsl] at hw ⊢
      rw [if_pos hw]

mutual

theorem exec_of_still : ∀ (stmt : IRStmt), Still m s stmt → simExecStmt m false stmt s = s
  | .null, _ => rfl
  | .assignment a, h => AssignStill.applyAssign (m := m) (s := s) h
  | .ifStmt c t e f, h => by
      rw [Still] at h
      rw [simExecStmt, h.1.afterEval]
      have h2 := h.2
      cases hc : simValIsTrue (simEvalExpr m s c) with
      | none => rw [hc] at h2; exact raiseError_of_error h2 true
      | some b =>
        rw [hc] at h2
        cases b with
        | true => exact exec_of_still t h2
        | false =>
          simp only [execElif_of_still e h2.1]
          cases hd : elifDone m s e with
          | true => rfl
          | false => exact exec_of_still f (h2.2 hd)
  | .select sel cases, h => by
      rw [Still] at h
      rw [simExecStmt, h.1.afterEval]
      have h2 := h.2
      split at h2
      · rename_i hx
        simp only [if_pos hx]
        exact raiseError_of_error h2 true
      · rename_i hx
        simp only [if_neg hx]
        exact execCases_of_still _ cases h2
  | .block stmts, h => by
      rw [Still] at h
      rw [simExecStmt]
      exact execStmts_of_still stmts h
  | .memWrite .., h => by rw [Still] at h; exact h.elim

theorem execElif_of_still : ∀ (stmt : IRStmt), ElifStill m s stmt →
    execElifChain m false stmt s = (elifDone m s stmt, s)
  | .ifStmt c t e f, h => by
      rw [ElifStill] at h
      rw [execElifChain, elifDone, h.1.afterEval]
      have h2 := h.2
      cases hc : simValIsTrue (simEvalExpr m s c) with
      | none => rw [hc] at h2; simp only [raiseError_of_error h2]
      | some b =>
        rw [hc] at h2
        cases b with
        | true => simp only [exec_of_still t h2]
        | false => exact execElif_of_still e h2
  | .null, _ | .assignment _, _ | .select .., _ | .block _, _ | .memWrite .., _ => rfl

theorem execCases_of_still (v : SimValue) : ∀ (cases : List (IRExpr × IRStmt)),
    CasesStill m s v cases → execCases m false v cases s = s
  | [], _ => rfl
  | (cv, body) :: rest, h => by
      rw [CasesStill] at h
      rw [execCases]
      split at h
      · rename_i hn
        rw [if_pos hn, exec_of_still body h]
      · rename_i hn
        rw [if_neg hn, h.1.afterEval]
        have h2 := h.2
        split at h2
        · rename_i heq
          rw [if_pos heq, exec_of_still body h2]
        · rename_i heq
          rw [if_neg heq, execCases_of_still v rest h2]

theorem execStmts_of_still : ∀ (stmts : List IRStmt), StmtsStill m s stmts →
    execStmts m false stmts s = s
  | [], _ => rfl
  | stmt :: rest, h => by
      rw [StmtsStill] at h
      rw [execStmts, exec_of_still stmt h.1, execStmts_of_still rest h.2]

end

/-- What stillness of a statement depends on. -/
structure StillAgree (m : IRModule) (reads : List ℕ) (mems : List String) (ts : List Target)
    (s t : CtxState) : Prop where

  reads : SameSignals m s t reads

  mems : SameMems m s t mems

  targets : ∀ τ ∈ ts, τ.Agree (s.signals τ.index).current (t.signals τ.index).current

  error : s.runtimeError = true → t.runtimeError = true

theorem StillAgree.parts {reads reads' : List ℕ} {mems mems' : List String} {ts ts' : List Target}
    (h : StillAgree m (reads ++ reads') (mems ++ mems') (ts ++ ts') s t) :
    StillAgree m reads mems ts s t ∧ StillAgree m reads' mems' ts' s t := by
  obtain ⟨h1, h2⟩ := sameSignals_append.mp h.reads
  obtain ⟨h3, h4⟩ := sameMems_append.mp h.mems
  exact ⟨⟨h1, h3, fun τ hτ => h.targets τ (List.mem_append_left _ hτ), h.error⟩,
    ⟨h2, h4, fun τ hτ => h.targets τ (List.mem_append_right _ hτ), h.error⟩⟩

theorem StillAgree.eval {e : IRExpr} {ts : List Target}
    (h : StillAgree m (exprReads e) (exprMems e) ts s t) :
    simEvalExpr m s e = simEvalExpr m t e := simEvalExpr_congr e h.reads h.mems

theorem StillAgree.evalStill {e : IRExpr} {ts : List Target}
    (h : StillAgree m (exprReads e) (exprMems e) ts s t) (hs : EvalStill m s e) :
    EvalStill m t e := by
  intro hr
  rw [← simEvalRaises_congr e h.reads h.mems] at hr
  exact h.error (hs hr)

/-- A slice write changes nothing exactly when the bits are already there. -/
theorem writeSlice_eq_self_iff {v r : SimValue} {msb lsb : ℕ} : writeSlice v r msb lsb = v ↔
    ∀ k, lsb ≤ k → k ≤ msb → k < 256 → r.part (.bit (k - lsb)) = v.part (.bit k) := by
  constructor
  · intro h k h1 h2 h3
    have := writeSlice_part v r msb lsb (.bit k)
    rw [h] at this
    simp only [h1, h2, h3, and_self, if_true] at this
    exact this.symm
  · intro h
    refine SimValue.ext_part fun p => ?_
    rw [writeSlice_part]
    cases p with
    | width => rfl
    | bit k =>
      simp only
      split
      · rename_i hk
        exact h k hk.1 hk.2.1 hk.2.2
      · rfl

theorem AssignStill.congr {a : IRAssignment} (hs : AssignStill m s a)
    (h : StillAgree m (exprReads a.rhs) (exprMems a.rhs) (assignTargets m a) s t) :
    AssignStill m t a := by
  intro i hi
  obtain ⟨he, hw⟩ := hs i hi
  refine ⟨h.evalStill he, ?_⟩
  have hag := h.targets ⟨i, if a.isSliced then some (a.lhsMsb, a.lhsLsb) else none⟩
    (by simp [assignTargets, hi])
  rw [h.eval] at hw
  by_cases hsl : a.isSliced = true
  · simp only [Target.Agree, hsl, if_true] at hag
    simp only [hsl, if_true, writeSlice_eq_self_iff] at hw ⊢
    intro k h1 h2 h3
    rw [← hag.1, hw k h1 h2 h3, hag.2 k h1 h2]
  · simp only [Target.Agree, hsl, if_false, Bool.false_eq_true] at hag
    simp only [hsl, if_false, Bool.false_eq_true] at hw ⊢
    rwa [← hag]

theorem elifDone_congr : ∀ (stmt : IRStmt), SameSignals m s t (stmtReads stmt) →
    SameMems m s t (stmtMems stmt) → elifDone m s stmt = elifDone m t stmt
  | .ifStmt c u e f, h, hm => by
      simp only [stmtReads, stmtMems, sameSignals_append, sameMems_append] at h hm
      rw [elifDone, elifDone, simEvalExpr_congr c h.1.1.1 hm.1.1.1,
        elifDone_congr e h.1.2 hm.1.2]
  | .null, _, _ | .assignment _, _, _ | .select .., _, _ | .block _, _, _
  | .memWrite .., _, _ => rfl

mutual

theorem Still.congr : ∀ (stmt : IRStmt), Still m s stmt →
    StillAgree m (stmtReads stmt) (stmtMems stmt) (stmtTargets m stmt) s t → Still m t stmt
  | .null, _, _ => by rw [Still]; trivial
  | .assignment a, hs, h => by
      rw [Still] at hs ⊢
      exact hs.congr h
  | .ifStmt c u e f, hs, h => by
      simp only [stmtReads, stmtMems, stmtTargets] at h
      obtain ⟨h', hf⟩ := h.parts
      obtain ⟨h', he⟩ := h'.parts
      obtain ⟨hc, hu⟩ := @StillAgree.parts _ _ _ _ _ _ _ [] _ h'
      rw [Still] at hs ⊢
      refine ⟨hc.evalStill hs.1, ?_⟩
      have h2 := hs.2
      rw [hc.eval] at h2
      cases hb : simValIsTrue (simEvalExpr m t c) with
      | none => rw [hb] at h2; exact h.error h2
      | some b =>
        rw [hb] at h2
        cases b with
        | true => exact Still.congr u h2 hu
        | false =>
          refine ⟨ElifStill.congr e h2.1 he, fun hd => Still.congr f (h2.2 ?_) hf⟩
          rwa [elifDone_congr e he.reads he.mems]
  | .select sel cases, hs, h => by
      simp only [stmtReads, stmtMems, stmtTargets] at h
      obtain ⟨hc, hr⟩ := @StillAgree.parts _ _ _ _ _ _ _ [] _ h
      rw [Still] at hs ⊢
      refine ⟨hc.evalStill hs.1, ?_⟩
      have h2 := hs.2
      rw [hc.eval] at h2
      split at h2
      · rename_i hx
        rw [if_pos hx]
        exact h.error h2
      · rename_i hx
        rw [if_neg hx]
        exact CasesStill.congr _ cases h2 hr
  | .block stmts, hs, h => by
      rw [Still] at hs ⊢
      exact StmtsStill.congr stmts hs h
  | .memWrite .., hs, _ => by rw [Still] at hs; exact hs.elim

theorem ElifStill.congr : ∀ (stmt : IRStmt), ElifStill m s stmt →
    StillAgree m (stmtReads stmt) (stmtMems stmt) (stmtTargets m stmt) s t → ElifStill m t stmt
  | .ifStmt c u e f, hs, h => by
      simp only [stmtReads, stmtMems, stmtTargets] at h
      obtain ⟨h', _⟩ := h.parts
      obtain ⟨h', he⟩ := h'.parts
      obtain ⟨hc, hu⟩ := @StillAgree.parts _ _ _ _ _ _ _ [] _ h'
      rw [ElifStill] at hs ⊢
      refine ⟨hc.evalStill hs.1, ?_⟩
      have h2 := hs.2
      rw [hc.eval] at h2
      cases hb : simValIsTrue (simEvalExpr m t c) with
      | none => rw [hb] at h2; exact h.error h2
      | some b =>
        rw [hb] at h2
        cases b with
        | true => exact Still.congr u h2 hu
        | false => exact ElifStill.congr e h2 he
  | .null, _, _ | .assignment _, _, _ | .select .., _, _ | .block _, _, _
  | .memWrite .., _, _ => by simp [ElifStill]

theorem CasesStill.congr (v : SimValue) : ∀ (cases : List (IRExpr × IRStmt)),
    CasesStill m s v cases →
    StillAgree m (casesReads cases) (casesMems cases) (casesTargets m cases) s t →
    CasesStill m t v cases
  | [], _, _ => by rw [CasesStill]; trivial
  | (cv, body) :: rest, hs, h => by
      simp only [casesReads, casesMems, casesTargets] at h
      obtain ⟨h', hr⟩ := h.parts
      obtain ⟨hc, hb⟩ := @StillAgree.parts _ _ _ _ _ _ _ [] _ h'
      rw [CasesStill] at hs ⊢
      split at hs
      · rename_i hn
        rw [if_pos hn]
        exact Still.congr body hs hb
      · rename_i hn
        rw [if_neg hn]
        refine ⟨hc.evalStill hs.1, ?_⟩
        have h2 := hs.2
        rw [hc.eval] at h2
        split at h2
        · rename_i heq
          rw [if_pos heq]
          exact Still.congr body h2 hb
        · rename_i heq
          rw [if_neg heq]
          exact CasesStill.congr v rest h2 hr

theorem StmtsStill.congr : ∀ (stmts : List IRStmt), StmtsStill m s stmts →
    StillAgree m (stmtsReads stmts) (stmtsMems stmts) (stmtsTargets m stmts) s t →
    StmtsStill m t stmts
  | [], _, _ => by rw [StmtsStill]; trivial
  | stmt :: rest, hs, h => by
      simp only [stmtsReads, stmtsMems, stmtsTargets] at h
      rw [StmtsStill] at hs ⊢
      exact ⟨Still.congr stmt hs.1 h.parts.1, StmtsStill.congr rest hs.2 h.parts.2⟩

end

/-- States with the same data are still for the same statements. -/
theorem SameData.stillAgree (h : SameData s t) (he : s.runtimeError = true → t.runtimeError = true)
    (reads : List ℕ) (mems : List String) (ts : List Target) : StillAgree m reads mems ts s t where
  reads _ _ i _ := h.signals i
  mems _ _ i _ := by rw [h.cells]
  targets τ _ := by
    rw [h.signals, Target.Agree]
    split
    · rfl
    · exact ⟨rfl, fun _ _ _ => rfl⟩
  error := he

end

/-! ## Execution without a raised flag -/

section

variable {m : IRModule} {t : CtxState}

/-- The state `t` has the data of `s` and every error that the run from `s` has raised. -/
structure Covers (s s' t : CtxState) : Prop where

  data : SameData s t

  error : s'.runtimeError = true → t.runtimeError = true

theorem Covers.evalStill {s s' : CtxState} {e : IRExpr} (h : Covers s s' t)
    (he : simEvalRaises m s e = true → s'.runtimeError = true) : EvalStill m t e := by
  intro hr
  rw [← h.data.raises] at hr
  exact h.error (he hr)

theorem afterEval_error {s : CtxState} {e : IRExpr} (h : simEvalRaises m s e = true) :
    (afterEval m s e).runtimeError = true := by simp [afterEval, CtxState.raiseError, h]

theorem sameData_afterEval {s : CtxState} (h : SameData s t) (e : IRExpr) :
    SameData (afterEval m s e) t := ⟨h.signals, h.cells⟩

theorem writeNow_quiet {s : CtxState} {a : IRAssignment} {i : ℕ} {rhs : SimValue}
    (hq : (writeNow a s i rhs).settleDirty = false) :
    let old := (s.signals i).current
    if a.isSliced then writeSlice old rhs a.lhsMsb a.lhsLsb = old
    else simValSame old rhs ((old.width + 63) / 64) = true := by
  rw [writeNow] at hq
  by_cases hsl : a.isSliced = true
  · simp only [if_pos hsl] at hq ⊢
    by_contra hne
    rw [if_neg fun hsame => hne ((writeSlice_eq_iff _ _ _ _).mp hsame)] at hq
    cases hq
  · simp only [if_neg hsl] at hq ⊢
    by_contra hne
    rw [if_neg hne] at hq
    cases hq

theorem assignStill_of_apply {s : CtxState} {a : IRAssignment}
    (hq : (applyAssign m false s a).settleDirty = false)
    (h : Covers s (applyAssign m false s a) t) : AssignStill m t a := by
  intro i hi
  rw [applyAssign, hi] at hq h
  simp only [Bool.false_eq_true, if_false] at hq h
  refine ⟨h.evalStill fun hr => ?_, ?_⟩
  · exact (writeNow_evolves _ a i _).runtimeError (afterEval_error (m := m) hr)
  · rw [← h.data.eval, ← h.data.signals]
    have hw := writeNow_quiet hq
    exact hw

mutual

/-- A statement that raised no flag is still in every state with the same data. -/
theorem still_of_exec : ∀ (stmt : IRStmt) (s : CtxState), stmtMemWrites stmt = [] →
    (simExecStmt m false stmt s).settleDirty = false →
    Covers s (simExecStmt m false stmt s) t → Still m t stmt
  | .null, _, _, _, _ => by rw [Still]; trivial
  | .assignment a, s, _, hq, h => by
      rw [Still]
      exact assignStill_of_apply hq h
  | .ifStmt c u e f, s, hm, hq, h => by
      simp only [stmtMemWrites, List.append_eq_nil_iff] at hm
      rw [Still, ← h.data.eval]
      have hd := sameData_afterEval h.data (m := m) c
      rw [simExecStmt] at hq h
      have herr := fun hr => afterEval_error (m := m) (s := s) (e := c) hr
      cases hb : simValIsTrue (simEvalExpr m s c) with
      | none =>
        rw [hb] at h
        exact ⟨h.evalStill fun _ => by simp [CtxState.raiseError], h.error (by simp [CtxState.raiseError])⟩
      | some b =>
        rw [hb] at hq h
        cases b with
        | true =>
          have hev := exec_evolves (m := m) u (afterEval m s c) hm.1.1
          exact ⟨h.evalStill fun hr => hev.runtimeError (herr hr),
            still_of_exec u _ hm.1.1 hq ⟨hd, h.error⟩⟩
        | false =>
          have hev := execElif_evolves (m := m) e (afterEval m s c) hm.1.2
          have hdone := elifDone_of_exec e (afterEval m s c)
          simp only at hq h
          cases hx : execElifChain m false e (afterEval m s c) with
          | mk done s' =>
            rw [hx] at hq h hev hdone
            cases done with
            | true =>
              have hq' : (execElifChain m false e (afterEval m s c)).2.settleDirty = false := by
                rw [hx]; exact hq
              have hs := elifStill_of_exec e _ hm.1.2 hq' ⟨hd, by rw [hx]; exact h.error⟩
              refine ⟨h.evalStill fun hr => hev.runtimeError (herr hr), hs, fun hf => ?_⟩
              rw [hdone hm.1.2 hq hd] at hf
              cases hf
            | false =>
              have hevf := exec_evolves (m := m) f s' hm.2
              have hqs : s'.settleDirty = false := by
                by_contra hne
                rw [hevf.settleDirty (by simpa using hne)] at hq
                cases hq
              have hq' : (execElifChain m false e (afterEval m s c)).2.settleDirty = false := by
                rw [hx]; exact hqs
              have hs := elifStill_of_exec e _ hm.1.2 hq'
                ⟨hd, by rw [hx]; exact fun he => h.error (hevf.runtimeError he)⟩
              refine ⟨h.evalStill fun hr => hevf.runtimeError (hev.runtimeError (herr hr)), hs,
                fun _ => ?_⟩
              have hd' := hev.sameData hqs
              exact still_of_exec f s' hm.2 hq
                ⟨⟨fun i => (hd'.signals i).symm.trans (hd.signals i), hd'.cells.symm.trans hd.cells⟩,
                  h.error⟩
  | .select sel cases, s, hm, hq, h => by
      simp only [stmtMemWrites] at hm
      rw [Still, ← h.data.eval]
      have hd := sameData_afterEval h.data (m := m) sel
      rw [simExecStmt] at hq h
      have herr := fun hr => afterEval_error (m := m) (s := s) (e := sel) hr
      by_cases hx : simValHasXz (simEvalExpr m s sel) = true
      · rw [if_pos hx]
        simp only [if_pos hx] at h
        exact ⟨h.evalStill fun _ => by simp [CtxState.raiseError], h.error (by simp [CtxState.raiseError])⟩
      · rw [if_neg hx]
        simp only [if_neg hx] at hq h
        have hev := execCases_evolves (m := m) (simEvalExpr m s sel) cases (afterEval m s sel) hm
        exact ⟨h.evalStill fun hr => hev.runtimeError (herr hr),
          casesStill_of_exec _ cases _ hm hq ⟨hd, h.error⟩⟩
  | .block stmts, s, hm, hq, h => by
      rw [Still]
      rw [simExecStmt] at hq h
      exact stmtsStill_of_exec stmts s hm hq h
  | .memWrite .., _, hm, _, _ => by simp [stmtMemWrites] at hm

theorem elifDone_of_exec : ∀ (stmt : IRStmt) (s : CtxState), stmtMemWrites stmt = [] →
    (execElifChain m false stmt s).2.settleDirty = false → SameData s t →
    elifDone m t stmt = (execElifChain m false stmt s).1
  | .ifStmt c u e f, s, hm, hq, h => by
      simp only [stmtMemWrites, List.append_eq_nil_iff] at hm
      have hd := sameData_afterEval h (m := m) c
      rw [elifDone, execElifChain, ← h.eval]
      rw [execElifChain] at hq
      cases hb : simValIsTrue (simEvalExpr m s c) with
      | none => rfl
      | some b =>
        cases b with
        | true => rfl
        | false =>
          rw [hb] at hq
          exact elifDone_of_exec e _ hm.1.2 hq hd
  | .null, _, _, _, _ | .assignment _, _, _, _, _ | .select .., _, _, _, _ | .block _, _, _, _, _
  | .memWrite .., _, _, _, _ => rfl

theorem elifStill_of_exec : ∀ (stmt : IRStmt) (s : CtxState), stmtMemWrites stmt = [] →
    (execElifChain m false stmt s).2.settleDirty = false →
    Covers s (execElifChain m false stmt s).2 t → ElifStill m t stmt
  | .ifStmt c u e f, s, hm, hq, h => by
      simp only [stmtMemWrites, List.append_eq_nil_iff] at hm
      rw [ElifStill, ← h.data.eval]
      have hd := sameData_afterEval h.data (m := m) c
      rw [execElifChain] at hq h
      have herr := fun hr => afterEval_error (m := m) (s := s) (e := c) hr
      cases hb : simValIsTrue (simEvalExpr m s c) with
      | none =>
        rw [hb] at h
        exact ⟨h.evalStill fun _ => by simp [CtxState.raiseError], h.error (by simp [CtxState.raiseError])⟩
      | some b =>
        rw [hb] at hq h
        cases b with
        | true =>
          have hev := exec_evolves (m := m) u (afterEval m s c) hm.1.1
          exact ⟨h.evalStill fun hr => hev.runtimeError (herr hr),
            still_of_exec u _ hm.1.1 hq ⟨hd, h.error⟩⟩
        | false =>
          have hev := execElif_evolves (m := m) e (afterEval m s c) hm.1.2
          exact ⟨h.evalStill fun hr => hev.runtimeError (herr hr),
            elifStill_of_exec e _ hm.1.2 hq ⟨hd, h.error⟩⟩
  | .null, _, _, _, _ | .assignment _, _, _, _, _ | .select .., _, _, _, _ | .block _, _, _, _, _
  | .memWrite .., _, _, _, _ => by simp [ElifStill]

theorem casesStill_of_exec (v : SimValue) : ∀ (cases : List (IRExpr × IRStmt)) (s : CtxState),
    casesMemWrites cases = [] → (execCases m false v cases s).settleDirty = false →
    Covers s (execCases m false v cases s) t → CasesStill m t v cases
  | [], _, _, _, _ => by rw [CasesStill]; trivial
  | (cv, body) :: rest, s, hm, hq, h => by
      simp only [casesMemWrites, List.append_eq_nil_iff] at hm
      rw [CasesStill]
      rw [execCases] at hq h
      by_cases hn : cv.isNull = true
      · rw [if_pos hn]
        rw [if_pos hn] at hq h
        exact still_of_exec body s hm.1 hq h
      · rw [if_neg hn, ← h.data.eval]
        rw [if_neg hn] at hq h
        have hd := sameData_afterEval h.data (m := m) cv
        have herr := fun hr => afterEval_error (m := m) (s := s) (e := cv) hr
        split
        · rename_i heq
          rw [if_pos heq] at hq h
          have hev := exec_evolves (m := m) body (afterEval m s cv) hm.1
          exact ⟨h.evalStill fun hr => hev.runtimeError (herr hr),
            still_of_exec body _ hm.1 hq ⟨hd, h.error⟩⟩
        · rename_i heq
          rw [if_neg heq] at hq h
          have hev := execCases_evolves (m := m) v rest (afterEval m s cv) hm.2
          exact ⟨h.evalStill fun hr => hev.runtimeError (herr hr),
            casesStill_of_exec v rest _ hm.2 hq ⟨hd, h.error⟩⟩

theorem stmtsStill_of_exec : ∀ (stmts : List IRStmt) (s : CtxState), stmtsMemWrites stmts = [] →
    (execStmts m false stmts s).settleDirty = false →
    Covers s (execStmts m false stmts s) t → StmtsStill m t stmts
  | [], _, _, _, _ => by rw [StmtsStill]; trivial
  | stmt :: rest, s, hm, hq, h => by
      simp only [stmtsMemWrites, List.append_eq_nil_iff] at hm
      rw [StmtsStill]
      rw [execStmts] at hq h
      have hev := exec_evolves (m := m) stmt s hm.1
      have hev' := execStmts_evolves (m := m) rest (simExecStmt m false stmt s) hm.2
      have hqs : (simExecStmt m false stmt s).settleDirty = false := by
        by_contra hne
        rw [hev'.settleDirty (by simpa using hne)] at hq
        cases hq
      have hd := hev.sameData hqs
      exact ⟨still_of_exec stmt s hm.1 hqs ⟨h.data, fun he => h.error (hev'.runtimeError he)⟩,
        stmtsStill_of_exec rest _ hm.2 hq
          ⟨⟨fun i => (hd.signals i).symm.trans (h.data.signals i), hd.cells.symm.trans h.data.cells⟩,
            h.error⟩⟩

end

end

end JzHdl

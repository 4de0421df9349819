import JzHdl.Sim.Targets

/-! # What staged execution can change

Staged execution leaves current values and dirty flags alone. It fills `next`
values, writes memory cells at once and may raise the runtime error.
-/

namespace JzHdl

variable {m : IRModule}

/-- The effect of a staged run that can write the memories `ms`. -/
structure Stages (m : IRModule) (ms : List String) (s t : CtxState) : Prop where

  current : ∀ i, (t.signals i).current = (s.signals i).current

  sigDirty : t.sigDirty = s.sigDirty

  settleDirty : t.settleDirty = s.settleDirty

  runtimeError : s.runtimeError = true → t.runtimeError = true

  hasPending : ∀ i, (s.signals i).hasPending = true → (t.signals i).hasPending = true

  cells : ∀ i, (∀ name ∈ ms, m.memIndex name ≠ some i) → t.cells i = s.cells i

namespace Stages

variable {ms ns : List String} {s t u : CtxState}

theorem refl (ms : List String) (s : CtxState) : Stages m ms s s :=
  ⟨fun _ => rfl, rfl, rfl, id, fun _ => id, fun _ _ => rfl⟩

theorem trans (h : Stages m ms s t) (h' : Stages m ms t u) : Stages m ms s u where
  current i := (h'.current i).trans (h.current i)
  sigDirty := h'.sigDirty.trans h.sigDirty
  settleDirty := h'.settleDirty.trans h.settleDirty
  runtimeError hs := h'.runtimeError (h.runtimeError hs)
  hasPending i hs := h'.hasPending i (h.hasPending i hs)
  cells i hi := (h'.cells i hi).trans (h.cells i hi)

theorem mono (h : Stages m ms s t) (hsub : ms ⊆ ns) : Stages m ns s t :=
  { h with cells := fun i hi => h.cells i fun name hn => hi name (hsub hn) }

theorem raiseError (ms : List String) (s : CtxState) (b : Bool) : Stages m ms s (s.raiseError b) :=
  ⟨fun _ => rfl, rfl, rfl, fun h => by simp [CtxState.raiseError, h], fun _ => id, fun _ _ => rfl⟩

end Stages

theorem applyAssign_stages (s : CtxState) (a : IRAssignment) :
    Stages m [] s (applyAssign m true s a) := by
  rw [applyAssign]
  cases m.sigIndex a.lhsSignalId with
  | none => exact .refl [] s
  | some i =>
    refine (Stages.raiseError [] s (simEvalRaises m s a.rhs)).trans ?_
    simp only [if_true]
    refine ⟨fun j => ?_, rfl, rfl, id, fun j hj => ?_, fun _ _ => rfl⟩
    · simp only [CtxState.setEntry]
      split
      · rename_i h; rw [h]; rfl
      · rfl
    · simp only [CtxState.setEntry]
      split
      · rfl
      · exact hj

theorem execMemWrite_stages (s : CtxState) (name : String) (address data : IRExpr) :
    Stages m [name] s (execMemWrite m s name address data) := by
  rw [execMemWrite]
  cases hm : m.memOf name with
  | none => exact .refl _ s
  | some p =>
    obtain ⟨i, mem⟩ := p
    have h0 := (Stages.raiseError (m := m) [name] s (simEvalRaises m s address)).trans
      (Stages.raiseError (m := m) [name] _ (simEvalRaises m (afterEval m s address) data))
    simp only
    cases simValueToMemIndex (simEvalExpr m s address) mem.depth with
    | none => exact h0
    | some a =>
      refine h0.trans ⟨fun _ => rfl, rfl, rfl, id, fun _ => id, fun j hj => ?_⟩
      have hne : j ≠ i := fun h => hj name (List.mem_singleton.mpr rfl) (h ▸ memOf_eq_some hm)
      funext k
      simp [CtxState.setCell, afterEval, CtxState.raiseError, hne]

mutual

theorem exec_stages : ∀ (stmt : IRStmt) (s : CtxState),
    Stages m (stmtMemWrites stmt) s (simExecStmt m true stmt s)
  | .null, s => .refl _ s
  | .assignment a, s => applyAssign_stages s a
  | .memWrite name address data, s => execMemWrite_stages s name address data
  | .block stmts, s => by
      rw [simExecStmt, stmtMemWrites]
      exact execStmts_stages stmts s
  | .ifStmt c t e f, s => by
      rw [simExecStmt, stmtMemWrites]
      have h0 := Stages.raiseError (m := m) (stmtMemWrites t ++ stmtMemWrites e ++ stmtMemWrites f)
        s (simEvalRaises m s c)
      cases simValIsTrue (simEvalExpr m s c) with
      | none => exact h0.trans (.raiseError _ _ _)
      | some b =>
        cases b with
        | true => exact h0.trans ((exec_stages t _).mono (by simp))
        | false =>
          have he := (execElif_stages e (afterEval m s c)).mono
            (show _ ⊆ stmtMemWrites t ++ stmtMemWrites e ++ stmtMemWrites f by simp)
          simp only
          cases hx : execElifChain m true e (afterEval m s c) with
          | mk done s' =>
            rw [hx] at he
            cases done with
            | true => exact h0.trans he
            | false => exact (h0.trans he).trans ((exec_stages f s').mono (by simp))
  | .select sel cases, s => by
      rw [simExecStmt, stmtMemWrites]
      have h0 := Stages.raiseError (m := m) (casesMemWrites cases) s (simEvalRaises m s sel)
      split
      · exact h0.trans (.raiseError _ _ _)
      · exact h0.trans (execCases_stages _ cases _)

theorem execElif_stages : ∀ (stmt : IRStmt) (s : CtxState),
    Stages m (stmtMemWrites stmt) s (execElifChain m true stmt s).2
  | .ifStmt c t e f, s => by
      rw [execElifChain, stmtMemWrites]
      have h0 := Stages.raiseError (m := m) (stmtMemWrites t ++ stmtMemWrites e ++ stmtMemWrites f)
        s (simEvalRaises m s c)
      cases simValIsTrue (simEvalExpr m s c) with
      | none => exact h0.trans (.raiseError _ _ _)
      | some b =>
        cases b with
        | true => exact h0.trans ((exec_stages t _).mono (by simp))
        | false => exact h0.trans ((execElif_stages e _).mono (by simp))
  | .null, s | .assignment _, s | .select .., s | .block _, s | .memWrite .., s => .refl _ s

theorem execCases_stages (v : SimValue) : ∀ (cases : List (IRExpr × IRStmt)) (s : CtxState),
    Stages m (casesMemWrites cases) s (execCases m true v cases s)
  | [], s => .refl _ s
  | (cv, body) :: rest, s => by
      rw [execCases, casesMemWrites]
      have h0 := Stages.raiseError (m := m) (stmtMemWrites body ++ casesMemWrites rest) s
        (simEvalRaises m s cv)
      split
      · exact (exec_stages body s).mono (by simp)
      · split
        · exact h0.trans ((exec_stages body _).mono (by simp))
        · exact h0.trans ((execCases_stages v rest _).mono (by simp))

theorem execStmts_stages : ∀ (stmts : List IRStmt) (s : CtxState),
    Stages m (stmtsMemWrites stmts) s (execStmts m true stmts s)
  | [], s => .refl _ s
  | stmt :: rest, s => by
      rw [execStmts, stmtsMemWrites]
      exact ((exec_stages stmt s).mono (by simp)).trans ((execStmts_stages rest _).mono (by simp))

end

end JzHdl

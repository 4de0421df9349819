import JzHdl.Sim.Targets

/-! # Executions as sequences of writes

Executing a statement evaluates conditions, which can only raise the runtime
error, and runs some of its assignments and memory writes. What every one of
them preserves, the whole execution preserves.
-/

namespace JzHdl

mutual

/-- The assignments and memory writes of a statement. -/
def stmtLeaves : IRStmt → List IRStmt
  | .null => []
  | .assignment assign => [.assignment assign]
  | .ifStmt _ thenBlock elifChain elseBlock =>
      stmtLeaves thenBlock ++ stmtLeaves elifChain ++ stmtLeaves elseBlock
  | .select _ cases => casesLeaves cases
  | .block stmts => stmtsLeaves stmts
  | .memWrite memoryName address data => [.memWrite memoryName address data]

def casesLeaves : List (IRExpr × IRStmt) → List IRStmt
  | [] => []
  | (_, body) :: rest => stmtLeaves body ++ casesLeaves rest

def stmtsLeaves : List IRStmt → List IRStmt
  | [] => []
  | stmt :: rest => stmtLeaves stmt ++ stmtsLeaves rest

end

/-- A relation between the states before and after a part of an execution. -/
structure RunRelation (R : CtxState → CtxState → Prop) : Prop where

  refl : ∀ s, R s s

  trans : ∀ {s t u}, R s t → R t u → R s u

  raiseError : ∀ s b, R s (s.raiseError b)

/-- An assignment or a memory write relates the states around it. -/
def LeafStep (m : IRModule) (isNba : Bool) (R : CtxState → CtxState → Prop) : IRStmt → Prop
  | .assignment assign => ∀ s, R s (applyAssign m isNba s assign)
  | .memWrite memoryName address data => ∀ s, R s (execMemWrite m s memoryName address data)
  | _ => True

variable {m : IRModule} {isNba : Bool} {R : CtxState → CtxState → Prop}

mutual

theorem exec_run (hR : RunRelation R) : ∀ (stmt : IRStmt) (s : CtxState),
    (∀ leaf ∈ stmtLeaves stmt, LeafStep m isNba R leaf) →
    R s (simExecStmt m isNba stmt s)
  | .null, s, _ => hR.refl s
  | .assignment a, s, h => h _ (List.mem_singleton.mpr rfl) s
  | .memWrite .., s, h => h _ (List.mem_singleton.mpr rfl) s
  | .block stmts, s, h => by
      rw [simExecStmt]
      exact execStmts_run hR stmts s h
  | .ifStmt c t e f, s, h => by
      simp only [stmtLeaves, List.mem_append, or_imp, forall_and] at h
      obtain ⟨⟨ht, he⟩, hf⟩ := h
      rw [simExecStmt]
      have h0 : R s (afterEval m s c) := hR.raiseError s (simEvalRaises m s c)
      cases simValIsTrue (simEvalExpr m s c) with
      | none => exact hR.trans h0 (hR.raiseError _ _)
      | some b =>
        cases b with
        | true => exact hR.trans h0 (exec_run hR t _ ht)
        | false =>
          have hchain := hR.trans h0 (execElif_run hR e (afterEval m s c) he)
          simp only
          cases hx : execElifChain m isNba e (afterEval m s c) with
          | mk done s' =>
            rw [hx] at hchain
            cases done with
            | true => exact hchain
            | false => exact hR.trans hchain (exec_run hR f s' hf)
  | .select sel cases, s, h => by
      rw [simExecStmt]
      have h0 : R s (afterEval m s sel) := hR.raiseError s (simEvalRaises m s sel)
      split
      · exact hR.trans h0 (hR.raiseError _ _)
      · exact hR.trans h0 (execCases_run hR _ cases _ h)

theorem execElif_run (hR : RunRelation R) : ∀ (stmt : IRStmt) (s : CtxState),
    (∀ leaf ∈ stmtLeaves stmt, LeafStep m isNba R leaf) →
    R s (execElifChain m isNba stmt s).2
  | .ifStmt c t e f, s, h => by
      simp only [stmtLeaves, List.mem_append, or_imp, forall_and] at h
      obtain ⟨⟨ht, he⟩, -⟩ := h
      rw [execElifChain]
      have h0 : R s (afterEval m s c) := hR.raiseError s (simEvalRaises m s c)
      cases simValIsTrue (simEvalExpr m s c) with
      | none => exact hR.trans h0 (hR.raiseError _ _)
      | some b =>
        cases b with
        | true => exact hR.trans h0 (exec_run hR t _ ht)
        | false => exact hR.trans h0 (execElif_run hR e _ he)
  | .null, s, _ | .assignment _, s, _ | .select .., s, _ | .block _, s, _ | .memWrite .., s, _ =>
      hR.refl s

theorem execCases_run (hR : RunRelation R) (v : SimValue) :
    ∀ (cases : List (IRExpr × IRStmt)) (s : CtxState),
    (∀ leaf ∈ casesLeaves cases, LeafStep m isNba R leaf) →
    R s (execCases m isNba v cases s)
  | [], s, _ => hR.refl s
  | (cv, body) :: rest, s, h => by
      simp only [casesLeaves, List.mem_append, or_imp, forall_and] at h
      obtain ⟨hb, hrest⟩ := h
      rw [execCases]
      have h0 : R s (afterEval m s cv) := hR.raiseError s (simEvalRaises m s cv)
      split
      · exact exec_run hR body s hb
      · split
        · exact hR.trans h0 (exec_run hR body _ hb)
        · exact hR.trans h0 (execCases_run hR v rest _ hrest)

theorem execStmts_run (hR : RunRelation R) : ∀ (stmts : List IRStmt) (s : CtxState),
    (∀ leaf ∈ stmtsLeaves stmts, LeafStep m isNba R leaf) →
    R s (execStmts m isNba stmts s)
  | [], s, _ => hR.refl s
  | stmt :: rest, s, h => by
      simp only [stmtsLeaves, List.mem_append, or_imp, forall_and] at h
      rw [execStmts]
      exact hR.trans (exec_run hR stmt s h.1) (execStmts_run hR rest _ h.2)

end

theorem execStmts_append (before after : List IRStmt) (s : CtxState) :
    execStmts m isNba (before ++ after) s =
      execStmts m isNba after (execStmts m isNba before s) := by
  induction before generalizing s with
  | nil => rfl
  | cons stmt rest ih => exact ih _

end JzHdl

import JzHdl.Sim.Exec

/-! # Read sets

The signal reads the simulator collects for an expression or a statement, and
the fact that evaluation depends on nothing else but memory contents.
-/

namespace JzHdl

def sigsetAdd (s : List ℕ) (id : ℕ) : List ℕ := if id ∈ s then s else s ++ [id]

mutual

def collectExprReads : IRExpr → List ℕ → List ℕ
  | .null, reads | .literal .., reads => reads
  | .signalRef signalId _, reads => sigsetAdd reads signalId
  | .unary _ operand _, reads => collectExprReads operand reads
  | .binary _ left right _, reads => collectExprReads right (collectExprReads left reads)
  | .ternary condition trueVal falseVal, reads =>
      collectExprReads falseVal (collectExprReads trueVal (collectExprReads condition reads))
  | .concat operands, reads => collectExprsReads operands reads
  | .slice signalId _ _ _, reads => sigsetAdd reads signalId
  | .sliceExpr baseExpr _ _, reads => collectExprReads baseExpr reads
  | .intrinsic _ source index value _ _, reads =>
      collectExprReads value (collectExprReads index (collectExprReads source reads))
  | .memRead _ address _, reads => collectExprReads address reads

def collectExprsReads : List IRExpr → List ℕ → List ℕ
  | [], reads => reads
  | e :: rest, reads => collectExprsReads rest (collectExprReads e reads)

end

mutual

def collectStmtReads : IRStmt → List ℕ → List ℕ
  | .null, reads => reads
  | .assignment assign, reads => collectExprReads assign.rhs reads
  | .ifStmt condition thenBlock elifChain elseBlock, reads =>
      collectStmtReads elseBlock (collectStmtReads elifChain
        (collectStmtReads thenBlock (collectExprReads condition reads)))
  | .select selector cases, reads => collectCasesReads cases (collectExprReads selector reads)
  | .block stmts, reads => collectStmtsReads stmts reads
  | .memWrite _ address data, reads => collectExprReads data (collectExprReads address reads)

def collectCasesReads : List (IRExpr × IRStmt) → List ℕ → List ℕ
  | [], reads => reads
  | (caseValue, body) :: rest, reads =>
      collectCasesReads rest (collectStmtReads body (collectExprReads caseValue reads))

def collectStmtsReads : List IRStmt → List ℕ → List ℕ
  | [], reads => reads
  | stmt :: rest, reads => collectStmtsReads rest (collectStmtReads stmt reads)

end

/-! ## Read sets without an accumulator -/

mutual

def exprReads : IRExpr → List ℕ
  | .null | .literal .. => []
  | .signalRef signalId _ | .slice signalId _ _ _ => [signalId]
  | .unary _ e _ | .sliceExpr e _ _ | .memRead _ e _ => exprReads e
  | .binary _ left right _ => exprReads left ++ exprReads right
  | .ternary condition trueVal falseVal =>
      exprReads condition ++ exprReads trueVal ++ exprReads falseVal
  | .concat operands => exprsReads operands
  | .intrinsic _ source index value _ _ =>
      exprReads source ++ exprReads index ++ exprReads value

def exprsReads : List IRExpr → List ℕ
  | [] => []
  | e :: rest => exprReads e ++ exprsReads rest

end

mutual

/-- The memories whose contents an expression reads. No dirty flag stands for them. -/
def exprMems : IRExpr → List String
  | .null | .literal .. | .signalRef .. | .slice .. => []
  | .unary _ e _ | .sliceExpr e _ _ => exprMems e
  | .binary _ left right _ => exprMems left ++ exprMems right
  | .ternary condition trueVal falseVal =>
      exprMems condition ++ exprMems trueVal ++ exprMems falseVal
  | .concat operands => exprsMems operands
  | .intrinsic _ source index value _ _ => exprMems source ++ exprMems index ++ exprMems value
  | .memRead memoryName e _ => memoryName :: exprMems e

def exprsMems : List IRExpr → List String
  | [] => []
  | e :: rest => exprMems e ++ exprsMems rest

end

mutual

def stmtReads : IRStmt → List ℕ
  | .null => []
  | .assignment assign => exprReads assign.rhs
  | .ifStmt condition thenBlock elifChain elseBlock =>
      exprReads condition ++ stmtReads thenBlock ++ stmtReads elifChain ++ stmtReads elseBlock
  | .select selector cases => exprReads selector ++ casesReads cases
  | .block stmts => stmtsReads stmts
  | .memWrite _ address data => exprReads address ++ exprReads data

def casesReads : List (IRExpr × IRStmt) → List ℕ
  | [] => []
  | (caseValue, body) :: rest => exprReads caseValue ++ stmtReads body ++ casesReads rest

def stmtsReads : List IRStmt → List ℕ
  | [] => []
  | stmt :: rest => stmtReads stmt ++ stmtsReads rest

end

mutual

def stmtMems : IRStmt → List String
  | .null => []
  | .assignment assign => exprMems assign.rhs
  | .ifStmt condition thenBlock elifChain elseBlock =>
      exprMems condition ++ stmtMems thenBlock ++ stmtMems elifChain ++ stmtMems elseBlock
  | .select selector cases => exprMems selector ++ casesMems cases
  | .block stmts => stmtsMems stmts
  | .memWrite _ address data => exprMems address ++ exprMems data

def casesMems : List (IRExpr × IRStmt) → List String
  | [] => []
  | (caseValue, body) :: rest => exprMems caseValue ++ stmtMems body ++ casesMems rest

def stmtsMems : List IRStmt → List String
  | [] => []
  | stmt :: rest => stmtMems stmt ++ stmtsMems rest

end

theorem mem_sigsetAdd {s : List ℕ} {id x : ℕ} : x ∈ sigsetAdd s id ↔ x ∈ s ∨ x = id := by
  rw [sigsetAdd]
  split
  · rename_i h
    exact ⟨.inl, fun hx => hx.elim (fun hs => hs) fun e => e ▸ h⟩
  · simp

mutual

theorem mem_collectExprReads {x : ℕ} : ∀ (e : IRExpr) (reads : List ℕ),
    x ∈ collectExprReads e reads ↔ x ∈ reads ∨ x ∈ exprReads e
  | .null, _ | .literal .., _ => by simp [collectExprReads, exprReads]
  | .signalRef .., _ | .slice .., _ => by simp [collectExprReads, exprReads, mem_sigsetAdd]
  | .unary _ e _, _ | .sliceExpr e _ _, _ | .memRead _ e _, _ => by
      simp only [collectExprReads, exprReads, mem_collectExprReads e]
  | .binary _ l r _, _ => by
      simp only [collectExprReads, exprReads, mem_collectExprReads l, mem_collectExprReads r,
        List.mem_append, or_assoc]
  | .ternary c t f, _ | .intrinsic _ c t f _ _, _ => by
      simp only [collectExprReads, exprReads, mem_collectExprReads c, mem_collectExprReads t,
        mem_collectExprReads f, List.mem_append, or_assoc]
  | .concat es, _ => by simp only [collectExprReads, exprReads, mem_collectExprsReads es]

theorem mem_collectExprsReads {x : ℕ} : ∀ (es : List IRExpr) (reads : List ℕ),
    x ∈ collectExprsReads es reads ↔ x ∈ reads ∨ x ∈ exprsReads es
  | [], _ => by simp [collectExprsReads, exprsReads]
  | e :: es, _ => by
      simp only [collectExprsReads, exprsReads, mem_collectExprReads e, mem_collectExprsReads es,
        List.mem_append, or_assoc]

end

mutual

theorem mem_collectStmtReads {x : ℕ} : ∀ (stmt : IRStmt) (reads : List ℕ),
    x ∈ collectStmtReads stmt reads ↔ x ∈ reads ∨ x ∈ stmtReads stmt
  | .null, _ => by simp [collectStmtReads, stmtReads]
  | .assignment a, _ => by simp only [collectStmtReads, stmtReads, mem_collectExprReads]
  | .ifStmt c t e f, _ => by
      simp only [collectStmtReads, stmtReads, mem_collectExprReads, mem_collectStmtReads t,
        mem_collectStmtReads e, mem_collectStmtReads f, List.mem_append, or_assoc]
  | .select c cases, _ => by
      simp only [collectStmtReads, stmtReads, mem_collectExprReads, mem_collectCasesReads cases,
        List.mem_append, or_assoc]
  | .block stmts, _ => by simp only [collectStmtReads, stmtReads, mem_collectStmtsReads stmts]
  | .memWrite _ a d, _ => by
      simp only [collectStmtReads, stmtReads, mem_collectExprReads, List.mem_append, or_assoc]

theorem mem_collectCasesReads {x : ℕ} : ∀ (cases : List (IRExpr × IRStmt)) (reads : List ℕ),
    x ∈ collectCasesReads cases reads ↔ x ∈ reads ∨ x ∈ casesReads cases
  | [], _ => by simp [collectCasesReads, casesReads]
  | (v, body) :: rest, _ => by
      simp only [collectCasesReads, casesReads, mem_collectExprReads, mem_collectStmtReads body,
        mem_collectCasesReads rest, List.mem_append, or_assoc]

theorem mem_collectStmtsReads {x : ℕ} : ∀ (stmts : List IRStmt) (reads : List ℕ),
    x ∈ collectStmtsReads stmts reads ↔ x ∈ reads ∨ x ∈ stmtsReads stmts
  | [], _ => by simp [collectStmtsReads, stmtsReads]
  | stmt :: rest, _ => by
      simp only [collectStmtsReads, stmtsReads, mem_collectStmtReads stmt,
        mem_collectStmtsReads rest, List.mem_append, or_assoc]

end

/-! ## Evaluation depends on the read set alone -/

section

variable (m : IRModule) (s t : CtxState)

/-- Two states agree on the current values of some signal identifiers. -/
def SameSignals (ids : List ℕ) : Prop :=
  ∀ id ∈ ids, ∀ i, m.sigIndex id = some i → (s.signals i).current = (t.signals i).current

/-- Two states agree on the contents of some memories. -/
def SameMems (names : List String) : Prop :=
  ∀ name ∈ names, ∀ i, m.memIndex name = some i → s.cells i = t.cells i

variable {m s t}

theorem sameSignals_append {a b : List ℕ} :
    SameSignals m s t (a ++ b) ↔ SameSignals m s t a ∧ SameSignals m s t b := by
  simp only [SameSignals, List.mem_append, or_imp, forall_and]

theorem sameMems_append {a b : List String} :
    SameMems m s t (a ++ b) ↔ SameMems m s t a ∧ SameMems m s t b := by
  simp only [SameMems, List.mem_append, or_imp, forall_and]

theorem memOf_eq_some {name : String} {i : ℕ} {mem : IRMemory} (h : m.memOf name = some (i, mem)) :
    m.memIndex name = some i := by
  rw [IRModule.memOf, Option.bind_eq_some_iff] at h
  obtain ⟨j, hj, h⟩ := h
  rw [Option.map_eq_some_iff] at h
  obtain ⟨_, _, h⟩ := h
  cases h
  exact hj

theorem evalMemRead_congr {name : String} (h : SameMems m s t [name]) (width : ℕ) (v : SimValue) :
    evalMemRead m s name width v = evalMemRead m t name width v := by
  rw [evalMemRead, evalMemRead]
  cases hm : m.memOf name with
  | none => rfl
  | some p =>
    obtain ⟨i, mem⟩ := p
    simp only [h name (List.mem_singleton.mpr rfl) i (memOf_eq_some hm)]

theorem evalSignal_congr {id : ℕ} (h : SameSignals m s t [id]) (width : ℕ) :
    evalSignal m s id width = evalSignal m t id width := by
  rw [evalSignal, evalSignal]
  cases hi : m.sigIndex id with
  | none => rfl
  | some i => exact h id (List.mem_singleton.mpr rfl) i hi

mutual

theorem simEvalExpr_congr : ∀ (e : IRExpr), SameSignals m s t (exprReads e) →
    SameMems m s t (exprMems e) → simEvalExpr m s e = simEvalExpr m t e
  | .null, _, _ | .literal .., _, _ => rfl
  | .signalRef .., h, _ => evalSignal_congr h _
  | .slice id msb lsb w, h, _ => by
      simp only [simEvalExpr]
      cases hi : m.sigIndex id with
      | none => rfl
      | some i => simp only [h id (List.mem_singleton.mpr rfl) i hi]
  | .unary _ e _, h, hm => by simp only [simEvalExpr, simEvalExpr_congr e h hm]
  | .sliceExpr e _ _, h, hm => by simp only [simEvalExpr, simEvalExpr_congr e h hm]
  | .memRead name e w, h, hm => by
      have hm' : SameMems m s t ([name] ++ exprMems e) := hm
      rw [sameMems_append] at hm'
      simp only [simEvalExpr, simEvalExpr_congr e h hm'.2, evalMemRead_congr hm'.1]
  | .binary _ l r _, h, hm => by
      simp only [exprReads, exprMems, sameSignals_append, sameMems_append] at h hm
      simp only [simEvalExpr, simEvalExpr_congr l h.1 hm.1, simEvalExpr_congr r h.2 hm.2]
  | .ternary c u v, h, hm => by
      simp only [exprReads, exprMems, sameSignals_append, sameMems_append] at h hm
      simp only [simEvalExpr, simEvalExpr_congr c h.1.1 hm.1.1, simEvalExpr_congr u h.1.2 hm.1.2,
        simEvalExpr_congr v h.2 hm.2]
  | .intrinsic _ c u v _ _, h, hm => by
      simp only [exprReads, exprMems, sameSignals_append, sameMems_append] at h hm
      simp only [simEvalExpr, simEvalExpr_congr c h.1.1 hm.1.1, simEvalExpr_congr u h.1.2 hm.1.2,
        simEvalExpr_congr v h.2 hm.2]
  | .concat es, h, hm => by simp only [simEvalExpr, simEvalExprs_congr es h hm]

theorem simEvalExprs_congr : ∀ (es : List IRExpr), SameSignals m s t (exprsReads es) →
    SameMems m s t (exprsMems es) → simEvalExprs m s es = simEvalExprs m t es
  | [], _, _ => rfl
  | e :: es, h, hm => by
      simp only [exprsReads, exprsMems, sameSignals_append, sameMems_append] at h hm
      simp only [simEvalExprs, simEvalExpr_congr e h.1 hm.1, simEvalExprs_congr es h.2 hm.2]

end

mutual

theorem simEvalRaises_congr : ∀ (e : IRExpr), SameSignals m s t (exprReads e) →
    SameMems m s t (exprMems e) → simEvalRaises m s e = simEvalRaises m t e
  | .null, _, _ | .literal .., _, _ | .signalRef .., _, _ | .slice .., _, _ => rfl
  | .unary _ e _, h, hm | .sliceExpr e _ _, h, hm => by
      simp only [simEvalRaises, simEvalRaises_congr e h hm]
  | .memRead name e w, h, hm => by
      have hm' : SameMems m s t ([name] ++ exprMems e) := hm
      rw [sameMems_append] at hm'
      simp only [simEvalRaises, simEvalRaises_congr e h hm'.2]
  | .binary _ l r _, h, hm => by
      simp only [exprReads, exprMems, sameSignals_append, sameMems_append] at h hm
      simp only [simEvalRaises, simEvalRaises_congr l h.1 hm.1, simEvalRaises_congr r h.2 hm.2]
  | .ternary c u v, h, hm => by
      simp only [exprReads, exprMems, sameSignals_append, sameMems_append] at h hm
      simp only [simEvalRaises, simEvalRaises_congr c h.1.1 hm.1.1,
        simEvalRaises_congr u h.1.2 hm.1.2, simEvalRaises_congr v h.2 hm.2,
        simEvalExpr_congr c h.1.1 hm.1.1]
  | .intrinsic _ c u v _ _, h, hm => by
      simp only [exprReads, exprMems, sameSignals_append, sameMems_append] at h hm
      simp only [simEvalRaises, simEvalRaises_congr c h.1.1 hm.1.1,
        simEvalRaises_congr u h.1.2 hm.1.2, simEvalRaises_congr v h.2 hm.2]
  | .concat es, h, hm => by simp only [simEvalRaises, simEvalRaisesEach_congr es h hm]

theorem simEvalRaisesEach_congr : ∀ (es : List IRExpr), SameSignals m s t (exprsReads es) →
    SameMems m s t (exprsMems es) → simEvalRaisesEach m s es = simEvalRaisesEach m t es
  | [], _, _ => rfl
  | e :: es, h, hm => by
      simp only [exprsReads, exprsMems, sameSignals_append, sameMems_append] at h hm
      simp only [simEvalRaisesEach, simEvalRaises_congr e h.1 hm.1,
        simEvalRaisesEach_congr es h.2 hm.2]

end

/-- Two states with the same current values and memory contents. -/
structure SameData (s t : CtxState) : Prop where

  signals : ∀ i, (s.signals i).current = (t.signals i).current

  cells : s.cells = t.cells

theorem SameData.eval (h : SameData s t) (e : IRExpr) : simEvalExpr m s e = simEvalExpr m t e :=
  simEvalExpr_congr e (fun _ _ i _ => h.signals i) fun _ _ i _ => by rw [h.cells]

theorem SameData.raises (h : SameData s t) (e : IRExpr) :
    simEvalRaises m s e = simEvalRaises m t e :=
  simEvalRaises_congr e (fun _ _ i _ => h.signals i) fun _ _ i _ => by rw [h.cells]

end

end JzHdl

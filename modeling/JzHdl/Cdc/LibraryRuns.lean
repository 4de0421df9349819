import JzHdl.Cdc.Library
import JzHdl.Cdc.Pulse
import JzHdl.Cdc.Handshake
import JzHdl.Sim.RegisterFrame

/-! # Runs of the library modules

The registers of a library module take the steps of the register machines, so
that what holds of every run of a machine holds of the module.
-/

namespace JzHdl

open BitWords

/-! ## Settling and edges -/

section

variable {m : IRModule} {s t : CtxState}

theorem inputs_other : ∀ (inputs : List (ℕ × SimValue)) (s : CtxState) {i : ℕ},
    (∀ p ∈ inputs, p.1 ≠ i) →
    (inputs.foldl (fun s p => s.setCurrent p.1 p.2) s).signals i = s.signals i
  | [], _, _, _ => rfl
  | p :: rest, s, i, h => by
      rw [List.foldl_cons, inputs_other rest _ fun q hq => h q (List.mem_cons_of_mem _ hq)]
      exact if_neg (h p List.mem_cons_self).symm

/-- Settling leaves the signals alone that are no input and no target of the asynchronous block. -/
theorem libSettle_other {inputs : List (ℕ × SimValue)} {i : ℕ} (hin : ∀ p ∈ inputs, p.1 ≠ i)
    (htarget : ∀ τ ∈ stmtTargets m m.asyncBlock, τ.index ≠ i) :
    (libSettle m s inputs).signals i = s.signals i := by
  rw [libSettle, exec_frame _ _ _ htarget, inputs_other inputs s hin]

theorem libSettle_input {id : ℕ} {v : SimValue}
    (htarget : ∀ τ ∈ stmtTargets m m.asyncBlock, τ.index ≠ id) :
    ((libSettle m s [(id, v)]).signals id).current = v := by
  rw [libSettle, exec_frame _ _ _ htarget]
  exact (setCurrent_current _ _ _ _).trans (if_pos rfl)

theorem edgeWrites_two {first second : IRClockDomain} (hdomains : m.clockDomains = [first, second])
    (hfirst : first.clockSignalId = 0) (hsecond : second.clockSignalId = 1) (a b : Bool) :
    edgeWrites m t (eventClocks a b) =
      (if a then domainWrites m t first else []) ++ if b then domainWrites m t second else [] := by
  rw [edgeWrites, hdomains]
  cases a <;> cases b <;> simp [eventClocks, hfirst, hsecond]

/-- A domain without a reset makes the writes of its statements. -/
theorem domainWrites_plain {clock : ℕ} {regs : List ℕ} {statements : IRStmt} :
    domainWrites m t (risingDomain clock none regs statements) =
      traceWrites (stmtTrace m t statements) := rfl

theorem applyWrites_cons (t : CtxState) (w : Write) (ws : List Write) :
    applyWrites t (w :: ws) = applyWrites (applyWrite t w) ws := rfl

theorem applyWrites_nil (t : CtxState) : applyWrites t [] = t := rfl

theorem applyWrite_whole (t : CtxState) (i j : ℕ) (v : SimValue) :
    ((applyWrite t (.reg i none v)).signals j).current =
      if j = i then v else (t.signals j).current := setCurrent_current _ _ _ _

theorem current_applyWrites_if (t : CtxState) (p : Prop) [Decidable p] (ws : List Write) (j : ℕ) :
    ((applyWrites t (if p then ws else [])).signals j).current =
      if p then ((applyWrites t ws).signals j).current else (t.signals j).current := by
  split <;> rfl

end

/-! ## Bits -/

theorem bit_values : ∀ a b : Bool, simValIsTrue (cmpResult b) = some b ∧
    evalUnary .not 1 (cmpResult b) = cmpResult (!b) ∧
    evalUnary .logicalNot 1 (cmpResult b) = cmpResult (!b) ∧
    evalBinary .xor 1 (cmpResult a) (cmpResult b) = cmpResult (a ^^ b) ∧
    evalBinary .logicalAnd 1 (cmpResult a) (cmpResult b) = cmpResult (a && b) ∧
    evalLiteral ⟨Words.set .zero 0 (BitVec.ofNat 64 b.toNat), 1, false⟩ 1 = cmpResult b ∧
    simValZero 1 = cmpResult false := by
  decide +kernel

theorem isTrue_bit (b : Bool) : simValIsTrue (cmpResult b) = some b := (bit_values b b).1

theorem not_bit (b : Bool) : evalUnary .not 1 (cmpResult b) = cmpResult (!b) :=
  (bit_values b b).2.1

theorem logicalNot_bit (b : Bool) : evalUnary .logicalNot 1 (cmpResult b) = cmpResult (!b) :=
  (bit_values b b).2.2.1

theorem xor_bit (a b : Bool) :
    evalBinary .xor 1 (cmpResult a) (cmpResult b) = cmpResult (a ^^ b) :=
  (bit_values a b).2.2.2.1

theorem and_bit (a b : Bool) :
    evalBinary .logicalAnd 1 (cmpResult a) (cmpResult b) = cmpResult (a && b) :=
  (bit_values a b).2.2.2.2.1

theorem literal_zero : evalLiteral ⟨Words.set .zero 0 (BitVec.ofNat 64 0), 1, false⟩ 1 =
    cmpResult false :=
  (bit_values false false).2.2.2.2.2.1

theorem literal_one : evalLiteral ⟨Words.set .zero 0 (BitVec.ofNat 64 1), 1, false⟩ 1 =
    cmpResult true :=
  (bit_values true true).2.2.2.2.2.1

theorem extend_same {v : SimValue} {w : ℕ} (h : v.width = w) : extendRhs .drive v w = v := by
  simp [extendRhs, IRAssignmentKind.isZext, IRAssignmentKind.isSext, h]

theorem isOne_bit (b : Bool) : (cmpResult b).isOne = b := by
  rw [SimValue.isOne, isTrue_bit]
  cases b <;> rfl

theorem start_bit : simValZero 1 = cmpResult false :=
  (bit_values false false).2.2.2.2.2.2

/-- The value that a whole assignment stages. -/
theorem assignTrace_whole {m : IRModule} {t : CtxState} {id : ℕ} {e : IRExpr} {v : SimValue}
    (hindex : m.sigIndex id = some id) (heval : simEvalExpr m t e = v)
    (hwidth : v.width = (t.signals id).current.width) :
    traceWrites (stmtTrace m t (makeAssignStmt id e)) = [.reg id none v] := by
  rw [makeAssignStmt, stmtTrace, assignTrace, hindex]
  simp only [heval, extend_same hwidth, assignSlice, Bool.false_eq_true, if_false, traceWrites]

/-- The writes of an IF with a known condition. -/
theorem ifTrace_known {m : IRModule} {t : CtxState} {c : IRExpr} {b : Bool}
    {thenStmts : List IRStmt} (hcond : simEvalExpr m t c = cmpResult b) :
    traceWrites (stmtTrace m t (makeIf c thenStmts)) =
      if b then traceWrites (stmtsTrace m t thenStmts) else [] := by
  rw [makeIf, stmtTrace, hcond, isTrue_bit]
  cases b <;> rfl

theorem blockTrace_cons {m : IRModule} {t : CtxState} (stmt : IRStmt) (rest : List IRStmt) :
    traceWrites (stmtsTrace m t (stmt :: rest)) =
      traceWrites (stmtTrace m t stmt) ++ traceWrites (stmtsTrace m t rest) := by
  rw [stmtsTrace, traceWrites_append]

theorem evalSignal_at {m : IRModule} {t : CtxState} {id width : ℕ}
    (hindex : m.sigIndex id = some id) :
    simEvalExpr m t (.signalRef id width) = (t.signals id).current := by
  rw [simEvalExpr, evalSignal, hindex]

theorem eval_notExpr {m : IRModule} {t : CtxState} {id : ℕ} {b : Bool}
    (hindex : m.sigIndex id = some id) (h : (t.signals id).current = cmpResult b) :
    simEvalExpr m t (notExpr id) = cmpResult !b := by
  rw [notExpr, simEvalExpr, evalSignal_at hindex, h, logicalNot_bit]

/-! ## Pulse -/

/-- The inputs and clocks of an event. -/
def PulseEvent.lib (e : PulseEvent) : LibEvent :=
  ⟨[(2, cmpResult e.pulseIn)], eventClocks e.clkSrc e.clkDest⟩

/-- The registers of the module as bits. -/
def pulseRegs (s : CtxState) : PulseRegs :=
  ⟨(s.signals 4).current.isOne, (s.signals 5).current.isOne, (s.signals 6).current.isOne,
    (s.signals 7).current.isOne⟩

/-- The registers of a pulse module hold the given bits. -/
structure HoldsPulse (s : CtxState) (r : PulseRegs) : Prop where

  toggleSrc : (s.signals 4).current = cmpResult r.toggleSrc

  toggleSync1 : (s.signals 5).current = cmpResult r.toggleSync1

  toggleSync2 : (s.signals 6).current = cmpResult r.toggleSync2

  toggleLast : (s.signals 7).current = cmpResult r.toggleLast

theorem HoldsPulse.regs {s : CtxState} {r : PulseRegs} (h : HoldsPulse s r) : pulseRegs s = r := by
  rw [pulseRegs, h.toggleSrc, h.toggleSync1, h.toggleSync2, h.toggleLast, isOne_bit, isOne_bit,
    isOne_bit, isOne_bit]

theorem pulse_index : ∀ i < 8, buildCdcPulseModule.sigIndex i = some i := by decide

theorem pulse_targets : ∀ τ ∈ stmtTargets buildCdcPulseModule buildCdcPulseModule.asyncBlock,
    τ.index = 3 := by
  decide

theorem HoldsPulse.settle {s : CtxState} {r : PulseRegs} (h : HoldsPulse s r) (b : Bool) :
    HoldsPulse (libSettle buildCdcPulseModule s [(2, cmpResult b)]) r := by
  have hkeep : ∀ i, 4 ≤ i → (libSettle buildCdcPulseModule s [(2, cmpResult b)]).signals i =
      s.signals i := fun i hi =>
    libSettle_other (by simp; omega) fun τ hτ => by rw [pulse_targets τ hτ]; omega
  exact ⟨by rw [hkeep 4 (by decide), h.toggleSrc], by rw [hkeep 5 (by decide), h.toggleSync1],
    by rw [hkeep 6 (by decide), h.toggleSync2], by rw [hkeep 7 (by decide), h.toggleLast]⟩

theorem pulse_srcWrites {t : CtxState} {r : PulseRegs} (h : HoldsPulse t r) {p : Bool}
    (hp : (t.signals 2).current = cmpResult p) :
    domainWrites buildCdcPulseModule t pulseSrcDomain =
      if p then [.reg 4 none (cmpResult !r.toggleSrc)] else [] := by
  rw [pulseSrcDomain, domainWrites_plain, stmtTrace, blockTrace_cons,
    ifTrace_known ((evalSignal_at (pulse_index 2 (by decide))).trans hp), blockTrace_cons,
    assignTrace_whole (pulse_index 4 (by decide))
      (by rw [simEvalExpr, evalSignal_at (pulse_index 4 (by decide)), h.toggleSrc, not_bit])
      (by rw [h.toggleSrc]; rfl)]
  cases p <;> rfl

theorem pulse_destWrites {t : CtxState} {r : PulseRegs} (h : HoldsPulse t r) :
    domainWrites buildCdcPulseModule t pulseDestDomain =
      [.reg 5 none (cmpResult r.toggleSrc), .reg 6 none (cmpResult r.toggleSync1),
        .reg 7 none (cmpResult r.toggleSync2)] := by
  rw [pulseDestDomain, domainWrites_plain, stmtTrace, blockTrace_cons, blockTrace_cons,
    blockTrace_cons,
    assignTrace_whole (pulse_index 5 (by decide))
      ((evalSignal_at (pulse_index 4 (by decide))).trans h.toggleSrc) (by rw [h.toggleSync1]; rfl),
    assignTrace_whole (pulse_index 6 (by decide))
      ((evalSignal_at (pulse_index 5 (by decide))).trans h.toggleSync1)
      (by rw [h.toggleSync2]; rfl),
    assignTrace_whole (pulse_index 7 (by decide))
      ((evalSignal_at (pulse_index 6 (by decide))).trans h.toggleSync2) (by rw [h.toggleLast]; rfl)]
  rfl

/-- An event of the module is a step of the registers. -/
theorem HoldsPulse.step {s : CtxState} {r : PulseRegs} (h : HoldsPulse s r) (e : PulseEvent) :
    HoldsPulse (libStep buildCdcPulseModule s e.lib) (r.step e) := by
  have hsettled := h.settle e.pulseIn
  have hinput : ((libSettle buildCdcPulseModule s e.lib.inputs).signals 2).current =
      cmpResult e.pulseIn :=
    libSettle_input fun τ hτ => by rw [pulse_targets τ hτ]; decide
  obtain ⟨h4, h5, h6, h7⟩ := hsettled
  rw [libStep]
  simp only [PulseEvent.lib] at hinput ⊢
  rw [@edgeWrites_two _ _ pulseSrcDomain pulseDestDomain rfl rfl rfl,
    pulse_srcWrites (h.settle e.pulseIn) hinput, pulse_destWrites (h.settle e.pulseIn)]
  obtain ⟨src, dest, p⟩ := e
  constructor <;> cases src <;> cases dest <;> cases p <;>
    simp [applyWrites_cons, applyWrites_nil, applyWrite_whole, PulseRegs.step, h4, h5, h6, h7]

theorem holdsPulse_run (cells : ℕ → ℕ → SimValue) (es : ℕ → PulseEvent) : ∀ n,
    ∃ r, HoldsPulse (libRun buildCdcPulseModule cells (fun k => (es k).lib) n) r
  | 0 => ⟨PulseRegs.zero, start_bit, start_bit, start_bit, start_bit⟩
  | n + 1 => by
      obtain ⟨r, hr⟩ := holdsPulse_run cells es n
      exact ⟨_, hr.step (es n)⟩

/-- The registers of the pulse module, event by event. -/
def pulseRun (cells : ℕ → ℕ → SimValue) (es : ℕ → PulseEvent) (n : ℕ) : PulseRegs :=
  pulseRegs (libRun buildCdcPulseModule cells (fun k => (es k).lib) n)

theorem pulseRun_isRun (cells : ℕ → ℕ → SimValue) (es : ℕ → PulseEvent) :
    PulseRegs.IsRun es (pulseRun cells es) where
  start := HoldsPulse.regs ⟨start_bit, start_bit, start_bit, start_bit⟩
  next n := by
    obtain ⟨r, hr⟩ := holdsPulse_run cells es n
    rw [pulseRun, pulseRun, hr.regs]
    exact (hr.step (es n)).regs

end JzHdl

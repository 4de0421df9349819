import JzHdl.Cdc.LibraryRuns
import JzHdl.Cdc.Handshake
import JzHdl.Sim.PortMaps
import Mathlib.Tactic.IntervalCases

/-! # Runs of the handshake modules

Both modules take the steps of the request and acknowledge registers. The output
is the captured word, whatever the state of the request.
-/

namespace JzHdl

open BitWords

/-- The words of a port: what is above the width is clear. -/
abbrev PortWord (width : ℕ) := {v : SimValue // v.width = width ∧ v.Masked}

/-- An alias shows the value of its expression. -/
theorem exec_alias {m : IRModule} {s : CtxState} {id : ℕ} {e : IRExpr} {v : SimValue}
    (hindex : m.sigIndex id = some id) (heval : simEvalExpr m s e = v) (hv : v.Masked)
    (hold : (s.signals id).current.Masked) (hwidth : v.width = (s.signals id).current.width) :
    ((simExecStmt m false (makeAliasStmt id e) s).signals id).current = v := by
  have hrhs : extendRhs .alias v (s.signals id).current.width = v := by
    simp [extendRhs, IRAssignmentKind.isZext, IRAssignmentKind.isSext, hwidth]
  rw [makeAliasStmt, simExecStmt, applyAssign, hindex]
  simp only [heval, hrhs, Bool.false_eq_true, if_false]
  by_cases hsame : simValSame (s.signals id).current v
      (((s.signals id).current.width + 63) / 64) = true
  · have heq := eq_of_simValSame hold hv hwidth.symm hsame
    simp only [writeNow, CtxState.raiseError, Bool.false_eq_true, if_false, hsame, if_true]
    exact heq
  · simp only [writeNow, CtxState.raiseError, Bool.false_eq_true, if_false, hsame]
    exact (setCurrent_current _ _ _ _).trans (if_pos rfl)

variable {width : ℕ}

/-- The event with its word as a value. -/
def TransferEvent.value (e : TransferEvent (PortWord width)) : TransferEvent SimValue :=
  ⟨e.clkSrc, e.clkDest, e.dataIn.1⟩

def TransferEvent.lib (e : TransferEvent (PortWord width)) : LibEvent :=
  ⟨[(2, e.dataIn.1)], eventClocks e.clkSrc e.clkDest⟩

def reqAckControl (s : CtxState) : ReqAckControl :=
  ⟨(s.signals 5).current.isOne, (s.signals 6).current.isOne, (s.signals 7).current.isOne,
    (s.signals 8).current.isOne, (s.signals 9).current.isOne, (s.signals 10).current.isOne⟩

/-- The registers of a handshake module. -/
def reqAckRegs (s : CtxState) : ReqAckRegs SimValue :=
  ⟨reqAckControl s, (s.signals 4).current⟩

structure HoldsReqAck (width : ℕ) (s : CtxState) (r : ReqAckRegs SimValue) : Prop where

  dataOut : (s.signals 3).current.width = width ∧ (s.signals 3).current.Masked

  word : r.srcData.width = width ∧ r.srcData.Masked

  srcData : (s.signals 4).current = r.srcData

  reqSrc : (s.signals 5).current = cmpResult r.control.reqSrc

  reqSync1 : (s.signals 6).current = cmpResult r.control.reqSync1

  reqSync2 : (s.signals 7).current = cmpResult r.control.reqSync2

  ackDest : (s.signals 8).current = cmpResult r.control.ackDest

  ackSync1 : (s.signals 9).current = cmpResult r.control.ackSync1

  ackSync2 : (s.signals 10).current = cmpResult r.control.ackSync2

theorem reqAck_index (width : ℕ) : ∀ i < 11, (buildReqAckModule width).sigIndex i = some i := by
  intro i hi
  interval_cases i <;> rfl

theorem reqAck_targets (width : ℕ) : ∀ τ ∈ stmtTargets (buildReqAckModule width)
    (buildReqAckModule width).asyncBlock, τ.index = 3 := by
  rintro τ (_ | ⟨_, ⟨⟩⟩)
  rfl

namespace HoldsReqAck

variable {s : CtxState} {r : ReqAckRegs SimValue}

theorem regs (h : HoldsReqAck width s r) : reqAckRegs s = r := by
  rw [reqAckRegs, reqAckControl, h.srcData, h.reqSrc, h.reqSync1, h.reqSync2, h.ackDest,
    h.ackSync1, h.ackSync2]
  simp only [isOne_bit]

theorem settled_out (h : HoldsReqAck width s r) (w : PortWord width) :
    ((libSettle (buildReqAckModule width) s [(2, w.1)]).signals 3).current = r.srcData := by
  refine exec_alias (reqAck_index width 3 (by decide)) ?_ h.word.2 h.dataOut.2 ?_
  · rw [evalSignal_at (reqAck_index width 4 (by decide))]
    exact h.srcData
  · exact h.word.1.trans h.dataOut.1.symm

theorem settle (h : HoldsReqAck width s r) (w : PortWord width) :
    HoldsReqAck width (libSettle (buildReqAckModule width) s [(2, w.1)]) r := by
  have hkeep : ∀ i, 4 ≤ i →
      (libSettle (buildReqAckModule width) s [(2, w.1)]).signals i = s.signals i := fun i hi =>
    libSettle_other (by simp; omega) fun τ hτ => by rw [reqAck_targets width τ hτ]; omega
  refine ⟨?_, h.word, ?_, ?_, ?_, ?_, ?_, ?_, ?_⟩
  · rw [h.settled_out w]; exact h.word
  · rw [hkeep 4 (by decide), h.srcData]
  · rw [hkeep 5 (by decide), h.reqSrc]
  · rw [hkeep 6 (by decide), h.reqSync1]
  · rw [hkeep 7 (by decide), h.reqSync2]
  · rw [hkeep 8 (by decide), h.ackDest]
  · rw [hkeep 9 (by decide), h.ackSync1]
  · rw [hkeep 10 (by decide), h.ackSync2]

theorem srcWrites (h : HoldsReqAck width s r) {w : PortWord width}
    (hw : (s.signals 2).current = w.1) :
    domainWrites (buildReqAckModule width) s (reqAckSrcDomain width) =
      [.reg 9 none (cmpResult r.control.ackDest), .reg 10 none (cmpResult r.control.ackSync1)] ++
        (if r.control.idle then [.reg 4 none w.1, .reg 5 none (cmpResult true)] else []) ++
        if r.control.ackSync2 then [.reg 5 none (cmpResult false)] else [] := by
  have hidle : simEvalExpr (buildReqAckModule width) s (.binary .logicalAnd (notExpr 5)
      (notExpr 10) 1) = cmpResult r.control.idle := by
    rw [simEvalExpr, eval_notExpr (reqAck_index width 5 (by decide)) h.reqSrc,
      eval_notExpr (reqAck_index width 10 (by decide)) h.ackSync2, and_bit]
    rfl
  rw [reqAckSrcDomain, domainWrites_plain, stmtTrace, blockTrace_cons, blockTrace_cons,
    blockTrace_cons, blockTrace_cons,
    assignTrace_whole (reqAck_index width 9 (by decide))
      ((evalSignal_at (reqAck_index width 8 (by decide))).trans h.ackDest)
      (by rw [h.ackSync1]; rfl),
    assignTrace_whole (reqAck_index width 10 (by decide))
      ((evalSignal_at (reqAck_index width 9 (by decide))).trans h.ackSync1)
      (by rw [h.ackSync2]; rfl),
    ifTrace_known hidle,
    ifTrace_known ((evalSignal_at (reqAck_index width 10 (by decide))).trans h.ackSync2),
    blockTrace_cons, blockTrace_cons,
    assignTrace_whole (reqAck_index width 4 (by decide))
      ((evalSignal_at (reqAck_index width 2 (by decide))).trans hw)
      (by rw [h.srcData, h.word.1, w.2.1]),
    assignTrace_whole (reqAck_index width 5 (by decide))
      (by rw [makeLiteral, simEvalExpr, literal_one]) (by rw [h.reqSrc]; rfl),
    blockTrace_cons,
    assignTrace_whole (reqAck_index width 5 (by decide))
      (by rw [makeLiteral, simEvalExpr, literal_zero]) (by rw [h.reqSrc]; rfl)]
  cases r.control.idle <;> cases r.control.ackSync2 <;> rfl

theorem destWrites (h : HoldsReqAck width s r) :
    domainWrites (buildReqAckModule width) s reqAckDestDomain =
      [.reg 6 none (cmpResult r.control.reqSrc), .reg 7 none (cmpResult r.control.reqSync1)] ++
        (if r.control.reqSync2 && !r.control.ackDest then [.reg 8 none (cmpResult true)] else []) ++
        if !r.control.reqSync2 then [.reg 8 none (cmpResult false)] else [] := by
  have hnot : simEvalExpr (buildReqAckModule width) s (notExpr 7) =
      cmpResult !r.control.reqSync2 :=
    eval_notExpr (reqAck_index width 7 (by decide)) h.reqSync2
  have hseen : simEvalExpr (buildReqAckModule width) s (.binary .logicalAnd (.signalRef 7 1)
      (notExpr 8) 1) = cmpResult (r.control.reqSync2 && !r.control.ackDest) := by
    rw [simEvalExpr, evalSignal_at (reqAck_index width 7 (by decide)), h.reqSync2,
      eval_notExpr (reqAck_index width 8 (by decide)) h.ackDest, and_bit]
  rw [reqAckDestDomain, domainWrites_plain, stmtTrace, blockTrace_cons, blockTrace_cons,
    blockTrace_cons, blockTrace_cons,
    assignTrace_whole (reqAck_index width 6 (by decide))
      ((evalSignal_at (reqAck_index width 5 (by decide))).trans h.reqSrc)
      (by rw [h.reqSync1]; rfl),
    assignTrace_whole (reqAck_index width 7 (by decide))
      ((evalSignal_at (reqAck_index width 6 (by decide))).trans h.reqSync1)
      (by rw [h.reqSync2]; rfl),
    ifTrace_known hseen, ifTrace_known hnot, blockTrace_cons, blockTrace_cons,
    assignTrace_whole (reqAck_index width 8 (by decide))
      (by rw [makeLiteral, simEvalExpr, literal_one]) (by rw [h.ackDest]; rfl),
    assignTrace_whole (reqAck_index width 8 (by decide))
      (by rw [makeLiteral, simEvalExpr, literal_zero]) (by rw [h.ackDest]; rfl)]
  cases r.control.reqSync2 <;> cases r.control.ackDest <;> rfl

/-- An event of the module is a step of the registers. -/
theorem step (h : HoldsReqAck width s r) (e : TransferEvent (PortWord width)) :
    HoldsReqAck width (libStep (buildReqAckModule width) s e.lib) (r.step e.value) := by
  have hsettled := h.settle e.dataIn
  have hinput : ((libSettle (buildReqAckModule width) s [(2, e.dataIn.1)]).signals 2).current =
      e.dataIn.1 :=
    libSettle_input fun τ hτ => by rw [reqAck_targets width τ hτ]; decide
  have hsrc := hsettled.srcWrites hinput
  have hdest := hsettled.destWrites
  obtain ⟨h3, hword, h4, h5, h6, h7, h8, h9, h10⟩ := hsettled
  rw [libStep]
  simp only [TransferEvent.lib]
  rw [@edgeWrites_two _ _ (reqAckSrcDomain width) reqAckDestDomain rfl rfl rfl, hsrc, hdest]
  obtain ⟨src, dest, w⟩ := e
  constructor
  case word =>
    cases hcap : src && r.control.idle
    · simpa [ReqAckRegs.step, TransferEvent.value, hcap] using hword
    · simpa [ReqAckRegs.step, TransferEvent.value, hcap] using w.2
  case dataOut =>
    cases src <;> cases dest <;>
      simpa [applyWrites_append, current_applyWrites_if, applyWrites_cons, applyWrites_nil,
        applyWrite_whole] using h3
  case reqSrc =>
    cases src <;> cases dest <;> cases hidle : r.control.idle <;>
      cases hseen : r.control.ackSync2 <;>
      simp [applyWrites_append, current_applyWrites_if, applyWrites_cons, applyWrites_nil,
        applyWrite_whole, ReqAckRegs.step, TransferEvent.value, ReqAckControl.step,
        ReqAckControl.stepSrc, ReqAckControl.stepDest, h5, hidle, hseen]
  case ackDest =>
    cases src <;> cases dest <;> cases hreq : r.control.reqSync2 <;>
      cases hack : r.control.ackDest <;>
      simp [applyWrites_append, current_applyWrites_if, applyWrites_cons, applyWrites_nil,
        applyWrite_whole, ReqAckRegs.step, TransferEvent.value, ReqAckControl.step,
        ReqAckControl.stepSrc, ReqAckControl.stepDest, h8, hreq, hack]
  all_goals
    cases src <;> cases dest <;>
      simp [applyWrites_append, current_applyWrites_if, applyWrites_cons, applyWrites_nil,
        applyWrite_whole, ReqAckRegs.step, TransferEvent.value, ReqAckControl.step,
        ReqAckControl.stepSrc, ReqAckControl.stepDest, h4, h6, h7, h9, h10]

end HoldsReqAck

/-! ## Both modules -/

section

variable (m : IRModule) (cells : ℕ → ℕ → SimValue) (es : ℕ → TransferEvent (PortWord width))

/-- The state of a handshake module before every event. -/
def reqAckState (n : ℕ) : CtxState := libRun m cells (fun k => (es k).lib) n

def reqAckRun (n : ℕ) : ReqAckRegs SimValue := reqAckRegs (reqAckState m cells es n)

/-- What `data_out` shows just before the edges of an event. -/
def reqAckOut (n : ℕ) : SimValue := signalAt m (reqAckState m cells es n) (es n).lib.inputs 3

/-- The output at the edges of the destination changes only when the synchronised request is 1 at
one of the two edges or becomes 1 there. -/
def OutputFollowsRequest : Prop := ∀ k k', SuccessiveEdges es k k' →
  reqAckOut m cells es k' ≠ reqAckOut m cells es k →
    (reqAckRun m cells es k).control.reqSync2 = true ∨
      (reqAckRun m cells es (k + 1)).control.reqSync2 = true ∨
        (reqAckRun m cells es (k' + 1)).control.reqSync2 = true

end

variable (cells : ℕ → ℕ → SimValue) (es : ℕ → TransferEvent (PortWord width))

theorem reqAck_start (width : ℕ) (cells : ℕ → ℕ → SimValue) :
    HoldsReqAck width (libStart (buildReqAckModule width) cells)
      (ReqAckRegs.start (simValZero width)) :=
  ⟨⟨rfl, masked_simValZero width⟩, ⟨rfl, masked_simValZero width⟩, rfl, start_bit, start_bit,
    start_bit, start_bit, start_bit, start_bit⟩

theorem holdsReqAck_run : ∀ n, ∃ r, HoldsReqAck width
    (reqAckState (buildReqAckModule width) cells es n) r
  | 0 => ⟨_, reqAck_start width cells⟩
  | n + 1 => by
      obtain ⟨r, hr⟩ := holdsReqAck_run n
      exact ⟨_, hr.step (es n)⟩

theorem reqAckRun_isRun : ReqAckRegs.IsRun (simValZero width) (fun k => (es k).value)
    (reqAckRun (buildReqAckModule width) cells es) where
  start := (reqAck_start width cells).regs
  next n := by
    obtain ⟨r, hr⟩ := holdsReqAck_run cells es n
    rw [reqAckRun, reqAckRun, hr.regs]
    exact (hr.step (es n)).regs

theorem reqAckOut_eq (n : ℕ) : reqAckOut (buildReqAckModule width) cells es n =
    (reqAckRun (buildReqAckModule width) cells es n).dataOut := by
  obtain ⟨r, hr⟩ := holdsReqAck_run cells es n
  rw [reqAckRun, hr.regs]
  exact hr.settled_out (es n).dataIn

theorem outputFollows_iff : OutputFollowsRequest (buildReqAckModule width) cells es ↔
    CapturesSame (fun k => (es k).value) (reqAckRun (buildReqAckModule width) cells es) := by
  rw [← (reqAckRun_isRun cells es).synced_iff]
  simp only [OutputFollowsRequest, SyncedOutput, reqAckOut_eq]
  exact Iff.rfl

/-- Both modules transfer every captured word exactly once. -/
theorem handshakeModules_transferOnce :
    TransfersOnce (fun k => (es k).value) (reqAckRun (buildCdcHandshakeModule width) cells es) ∧
      TransfersOnce (fun k => (es k).value) (reqAckRun (buildCdcMcpModule width) cells es) :=
  ⟨(reqAckRun_isRun cells es).transfersOnce, (reqAckRun_isRun cells es).transfersOnce⟩

/-- Both modules show a word only with its request exactly when no capture between two edges of the
destination takes another word. -/
theorem handshakeModules_output :
    (OutputFollowsRequest (buildCdcHandshakeModule width) cells es ↔
      CapturesSame (fun k => (es k).value) (reqAckRun (buildCdcHandshakeModule width) cells es)) ∧
    (OutputFollowsRequest (buildCdcMcpModule width) cells es ↔
      CapturesSame (fun k => (es k).value) (reqAckRun (buildCdcMcpModule width) cells es)) :=
  ⟨outputFollows_iff cells es, outputFollows_iff cells es⟩

/-- The source captures a 1 at the first edges, and the destination shows it at once. -/
theorem handshake_output_early : ∃ es : ℕ → TransferEvent (PortWord 1),
    ¬ OutputFollowsRequest (buildCdcHandshakeModule 1) (fun _ _ => simValZero 1) es := by
  refine ⟨fun _ => ⟨true, true, ⟨cmpResult true, rfl, masked_bit true⟩⟩, fun h => ?_⟩
  have hedges := h 0 1 ⟨by decide, rfl, rfl, by omega⟩
  have hchange : reqAckOut (buildCdcHandshakeModule 1) (fun _ _ => simValZero 1)
      (fun _ => ⟨true, true, ⟨cmpResult true, rfl, masked_bit true⟩⟩) 1 ≠
        reqAckOut (buildCdcHandshakeModule 1) (fun _ _ => simValZero 1)
          (fun _ => ⟨true, true, ⟨cmpResult true, rfl, masked_bit true⟩⟩) 0 := by
    decide +kernel
  rcases hedges hchange with hfirst | hsecond | hthird
  · revert hfirst; decide +kernel
  · revert hsecond; decide +kernel
  · revert hthird; decide +kernel

end JzHdl

import JzHdl.Cdc.ReqAckRuns
import JzHdl.Cdc.Fifo

/-! # Runs of the FIFO module

Pointers of five bits are small enough for their arithmetic to be checked value
by value. The flags and the word at the output follow the registers.
-/

namespace JzHdl

open BitWords

/-! ## Pointers as values -/

/-- A pointer in a register of the module. -/
def ptrVal (p : BitVec 5) : SimValue :=
  ⟨Words.set .zero 0 (p.setWidth 64), .zero, .zero, 5⟩

def ptrOf (v : SimValue) : BitVec 5 := (v.val.get 0).setWidth 5

theorem ptr_values : ∀ p : BitVec 5, ptrOf (ptrVal p) = p ∧ simValHasXz (ptrVal p) = false ∧
    evalBinary .add 5 (ptrVal p) (evalLiteral ⟨Words.set .zero 0 (BitVec.ofNat 64 1), 5, false⟩ 5) =
      ptrVal (p + 1) ∧
    evalBinary .xor 5 (evalBinary .shr 5 (ptrVal p)
      (evalLiteral ⟨Words.set .zero 0 (BitVec.ofNat 64 1), 5, false⟩ 5)) (ptrVal p) =
      ptrVal (toGray p) ∧
    simValConcat [evalUnary .not 2 (simValSlice (ptrVal p) 4 3), simValSlice (ptrVal p) 2 0] =
      ptrVal (fullPattern p) ∧
    (∀ k < 5, (ptrVal p).val.bit k = p.getLsbD k) ∧
    simValueToMemIndex (simValSlice (ptrVal p) 3 0) 16 = some (p.extractLsb 3 0).toNat ∧
    simValHasXz (simValSlice (ptrVal p) 3 0) = false ∧ simValZero 5 = ptrVal 0 := by
  decide +kernel

theorem ptrOf_ptrVal (p : BitVec 5) : ptrOf (ptrVal p) = p := (ptr_values p).1

theorem known_ptr (p : BitVec 5) : simValHasXz (ptrVal p) = false := (ptr_values p).2.1

theorem add_ptr (p : BitVec 5) : evalBinary .add 5 (ptrVal p)
    (evalLiteral ⟨Words.set .zero 0 (BitVec.ofNat 64 1), 5, false⟩ 5) = ptrVal (p + 1) :=
  (ptr_values p).2.2.1

theorem gray_ptr (p : BitVec 5) : evalBinary .xor 5 (evalBinary .shr 5 (ptrVal p)
    (evalLiteral ⟨Words.set .zero 0 (BitVec.ofNat 64 1), 5, false⟩ 5)) (ptrVal p) =
      ptrVal (toGray p) :=
  (ptr_values p).2.2.2.1

theorem full_ptr (p : BitVec 5) : simValConcat
    [evalUnary .not 2 (simValSlice (ptrVal p) 4 3), simValSlice (ptrVal p) 2 0] =
      ptrVal (fullPattern p) :=
  (ptr_values p).2.2.2.2.1

theorem bit_ptr (p : BitVec 5) : ∀ k < 5, (ptrVal p).val.bit k = p.getLsbD k :=
  (ptr_values p).2.2.2.2.2.1

theorem address_ptr (p : BitVec 5) : simValueToMemIndex (simValSlice (ptrVal p) 3 0) 16 =
    some (p.extractLsb 3 0).toNat :=
  (ptr_values p).2.2.2.2.2.2.1

theorem address_known (p : BitVec 5) : simValHasXz (simValSlice (ptrVal p) 3 0) = false :=
  (ptr_values p).2.2.2.2.2.2.2.1

theorem start_ptr : simValZero 5 = ptrVal 0 := (ptr_values 0).2.2.2.2.2.2.2.2

theorem eq_ptr (p q : BitVec 5) : evalBinary .eq 1 (ptrVal p) (ptrVal q) = cmpResult (p == q) := by
  have hagree : wordsAgree (ptrVal p) (ptrVal q) 5 = (p == q) := by
    rw [Bool.eq_iff_iff, wordsAgree_iff, beq_iff_eq]
    constructor
    · intro h
      refine BitVec.eq_of_getLsbD_eq fun k hk => ?_
      rw [← bit_ptr p k hk, ← bit_ptr q k hk, h k hk]
    · rintro rfl k -
      rfl
  rw [evalBinary, simValEq, known_ptr, known_ptr, ← hagree]
  rfl

/-! ## Registers -/

variable {width : ℕ}

def FifoEvent.value (e : FifoEvent (PortWord width)) : FifoEvent SimValue :=
  ⟨e.clkWr, e.clkRd, e.dataIn.1, e.writeEn, e.readEn⟩

/-- The inputs and clocks of an event, with both resets inactive. -/
def FifoEvent.lib (e : FifoEvent (PortWord width)) : LibEvent :=
  ⟨[(2, cmpResult false), (3, cmpResult false), (4, e.dataIn.1), (5, cmpResult e.writeEn),
    (6, cmpResult e.readEn)], eventClocks e.clkWr e.clkRd⟩

def fifoRegs (s : CtxState) : FifoRegs SimValue :=
  { wrPtrBin := ptrOf (s.signals 10).current
    wrPtrGray := ptrOf (s.signals 11).current
    rdPtrBin := ptrOf (s.signals 12).current
    rdPtrGray := ptrOf (s.signals 13).current
    wrPtrGraySync1 := ptrOf (s.signals 14).current
    wrPtrGraySync2 := ptrOf (s.signals 15).current
    rdPtrGraySync1 := ptrOf (s.signals 16).current
    rdPtrGraySync2 := ptrOf (s.signals 17).current
    mem := fun a => s.cells 0 a.toNat }

/-- A value that fits into a signal of the given width. -/
def FitsPort (width : ℕ) (v : SimValue) : Prop := v.width = width ∧ v.Masked

theorem fits_bit (b : Bool) : FitsPort 1 (cmpResult b) := ⟨rfl, masked_bit b⟩

structure HoldsFifo (width : ℕ) (s : CtxState) (r : FifoRegs SimValue) : Prop where

  dataOut : FitsPort width (s.signals 7).current

  full : FitsPort 1 (s.signals 8).current

  empty : FitsPort 1 (s.signals 9).current

  wrPtrBin : (s.signals 10).current = ptrVal r.wrPtrBin

  wrPtrGray : (s.signals 11).current = ptrVal r.wrPtrGray

  rdPtrBin : (s.signals 12).current = ptrVal r.rdPtrBin

  rdPtrGray : (s.signals 13).current = ptrVal r.rdPtrGray

  wrPtrGraySync1 : (s.signals 14).current = ptrVal r.wrPtrGraySync1

  wrPtrGraySync2 : (s.signals 15).current = ptrVal r.wrPtrGraySync2

  rdPtrGraySync1 : (s.signals 16).current = ptrVal r.rdPtrGraySync1

  rdPtrGraySync2 : (s.signals 17).current = ptrVal r.rdPtrGraySync2

  mem : ∀ a : BitVec 4, s.cells 0 a.toNat = r.mem a

  words : ∀ a, FitsPort width (r.mem a)

theorem HoldsFifo.regs {s : CtxState} {r : FifoRegs SimValue} (h : HoldsFifo width s r) :
    fifoRegs s = r := by
  obtain ⟨-, -, -, h10, h11, h12, h13, h14, h15, h16, h17, hmem, -⟩ := h
  simp only [fifoRegs, h10, h11, h12, h13, h14, h15, h16, h17, ptrOf_ptrVal, hmem]

theorem fifo_index (width : ℕ) : ∀ i < 18, (buildCdcFifoModule width).sigIndex i = some i := by
  intro i hi
  interval_cases i <;> rfl

theorem fifo_memOf (width : ℕ) : (buildCdcFifoModule width).memOf "mem" = some (0, ⟨"mem", width, 16⟩) :=
  rfl

/-! ## Settling -/

theorem exec_alias_signals {m : IRModule} {s : CtxState} {id j : ℕ} {e : IRExpr}
    (hindex : m.sigIndex id = some id) (hj : j ≠ id) :
    (simExecStmt m false (makeAliasStmt id e) s).signals j = s.signals j := by
  refine exec_frame _ _ s fun τ hτ => ?_
  rw [makeAliasStmt, stmtTargets, assignTargets, hindex] at hτ
  rw [List.mem_singleton.mp hτ]
  exact hj.symm

theorem exec_alias_cells (m : IRModule) (s : CtxState) (id : ℕ) (e : IRExpr) :
    (simExecStmt m false (makeAliasStmt id e) s).cells = s.cells := by
  rw [makeAliasStmt, simExecStmt, applyAssign]
  cases m.sigIndex id with
  | none => rfl
  | some i =>
    simp only [writeNow, Bool.false_eq_true, if_false]
    split <;> rfl

section

variable {s : CtxState} {r : FifoRegs SimValue}

theorem HoldsFifo.of_same (h : HoldsFifo width s r) {s' : CtxState}
    (hregs : ∀ i, 10 ≤ i → s'.signals i = s.signals i) (hcells : s'.cells = s.cells)
    (h7 : FitsPort width (s'.signals 7).current) (h8 : FitsPort 1 (s'.signals 8).current)
    (h9 : FitsPort 1 (s'.signals 9).current) : HoldsFifo width s' r where
  dataOut := h7
  full := h8
  empty := h9
  wrPtrBin := by rw [hregs 10 (by decide), h.wrPtrBin]
  wrPtrGray := by rw [hregs 11 (by decide), h.wrPtrGray]
  rdPtrBin := by rw [hregs 12 (by decide), h.rdPtrBin]
  rdPtrGray := by rw [hregs 13 (by decide), h.rdPtrGray]
  wrPtrGraySync1 := by rw [hregs 14 (by decide), h.wrPtrGraySync1]
  wrPtrGraySync2 := by rw [hregs 15 (by decide), h.wrPtrGraySync2]
  rdPtrGraySync1 := by rw [hregs 16 (by decide), h.rdPtrGraySync1]
  rdPtrGraySync2 := by rw [hregs 17 (by decide), h.rdPtrGraySync2]
  mem := fun a => by rw [hcells, h.mem a]
  words := h.words

theorem eval_ptrSlice {id : ℕ} (hid : id < 18) {p : BitVec 5}
    (hp : (s.signals id).current = ptrVal p) (msb lsb : ℕ) :
    simEvalExpr (buildCdcFifoModule width) s (makeSlice id msb lsb) =
      simValSlice (ptrVal p) msb lsb := by
  rw [makeSlice, simEvalExpr, fifo_index width id hid]
  simp only [hp]

theorem HoldsFifo.eval_dataOut (h : HoldsFifo width s r) :
    simEvalExpr (buildCdcFifoModule width) s (.memRead "mem" (makeSlice 12 3 0) width) =
      r.dataOut := by
  rw [simEvalExpr, eval_ptrSlice (by decide) h.rdPtrBin, evalMemRead, fifo_memOf]
  simp only [address_known, address_ptr, Bool.false_eq_true, if_false]
  exact h.mem _

theorem HoldsFifo.eval_full (h : HoldsFifo width s r) :
    simEvalExpr (buildCdcFifoModule width) s (.binary .eq (.signalRef 11 5)
      (.concat [.unary .not (makeSlice 17 4 3) 2, makeSlice 17 2 0]) 1) = cmpResult r.full := by
  have hconcat : simEvalExpr (buildCdcFifoModule width) s
      (.concat [.unary .not (makeSlice 17 4 3) 2, makeSlice 17 2 0]) =
        ptrVal (fullPattern r.rdPtrGraySync2) := by
    rw [simEvalExpr, simEvalExprs, simEvalExprs, simEvalExprs, simEvalExpr,
      eval_ptrSlice (by decide) h.rdPtrGraySync2, eval_ptrSlice (by decide) h.rdPtrGraySync2]
    exact full_ptr _
  rw [simEvalExpr, hconcat, evalSignal_at (fifo_index width 11 (by decide)), h.wrPtrGray, eq_ptr]
  rfl

theorem HoldsFifo.eval_empty (h : HoldsFifo width s r) :
    simEvalExpr (buildCdcFifoModule width) s (.binary .eq (.signalRef 13 5) (.signalRef 15 5) 1) =
      cmpResult r.empty := by
  rw [simEvalExpr, evalSignal_at (fifo_index width 13 (by decide)),
    evalSignal_at (fifo_index width 15 (by decide)), h.rdPtrGray, h.wrPtrGraySync2, eq_ptr]
  rfl

/-- The outputs show the registers, and the inputs are those of the event. -/
structure FifoSettled (s : CtxState) (r : FifoRegs SimValue) (e : FifoEvent (PortWord width)) :
    Prop where

  holds : HoldsFifo width s r

  rstWr : (s.signals 2).current = cmpResult false

  rstRd : (s.signals 3).current = cmpResult false

  dataIn : (s.signals 4).current = e.dataIn.1

  writeEn : (s.signals 5).current = cmpResult e.writeEn

  readEn : (s.signals 6).current = cmpResult e.readEn

  dataOut : (s.signals 7).current = r.dataOut

  full : (s.signals 8).current = cmpResult r.full

  empty : (s.signals 9).current = cmpResult r.empty

theorem HoldsFifo.settle (h : HoldsFifo width s r) (e : FifoEvent (PortWord width)) :
    FifoSettled (libSettle (buildCdcFifoModule width) s e.lib.inputs) r e := by
  let m := buildCdcFifoModule width
  let s0 := e.lib.inputs.foldl (fun s p => s.setCurrent p.1 p.2) s
  let s1 := simExecStmt m false (makeAliasStmt 7 (.memRead "mem" (makeSlice 12 3 0) width)) s0
  let s2 := simExecStmt m false (makeAliasStmt 8 (.binary .eq (.signalRef 11 5)
    (.concat [.unary .not (makeSlice 17 4 3) 2, makeSlice 17 2 0]) 1)) s1
  let s3 := simExecStmt m false
    (makeAliasStmt 9 (.binary .eq (.signalRef 13 5) (.signalRef 15 5) 1)) s2
  have hs3 : libSettle m s e.lib.inputs = s3 := rfl
  have hi := fifo_index width
  -- the inputs
  have hin : ∀ i, 7 ≤ i → s0.signals i = s.signals i := fun i hi =>
    inputs_other _ s (by simp [FifoEvent.lib]; omega)
  have h0 : HoldsFifo width s0 r := h.of_same (fun i hi => hin i (by omega)) rfl
    (by rw [hin 7 (by decide)]; exact h.dataOut) (by rw [hin 8 (by decide)]; exact h.full)
    (by rw [hin 9 (by decide)]; exact h.empty)
  -- the three outputs
  have k1 : ∀ i, i ≠ 7 → s1.signals i = s0.signals i := fun i hne =>
    exec_alias_signals (hi 7 (by decide)) hne
  have v1 : (s1.signals 7).current = r.dataOut := exec_alias (hi 7 (by decide)) h0.eval_dataOut
    (h0.words _).2 h0.dataOut.2 ((h0.words _).1.trans h0.dataOut.1.symm)
  have h1 : HoldsFifo width s1 r := h0.of_same (fun i hi => k1 i (by omega))
    (exec_alias_cells ..) (by rw [v1]; exact h0.words _)
    (by rw [k1 8 (by decide)]; exact h0.full) (by rw [k1 9 (by decide)]; exact h0.empty)
  have k2 : ∀ i, i ≠ 8 → s2.signals i = s1.signals i := fun i hne =>
    exec_alias_signals (hi 8 (by decide)) hne
  have v2 : (s2.signals 8).current = cmpResult r.full := exec_alias (hi 8 (by decide)) h1.eval_full
    (masked_bit _) h1.full.2 h1.full.1.symm
  have h2 : HoldsFifo width s2 r := h1.of_same (fun i hi => k2 i (by omega))
    (exec_alias_cells ..) (by rw [k2 7 (by decide)]; exact h1.dataOut)
    (by rw [v2]; exact fits_bit _) (by rw [k2 9 (by decide)]; exact h1.empty)
  have k3 : ∀ i, i ≠ 9 → s3.signals i = s2.signals i := fun i hne =>
    exec_alias_signals (hi 9 (by decide)) hne
  have v3 : (s3.signals 9).current = cmpResult r.empty := exec_alias (hi 9 (by decide))
    h2.eval_empty (masked_bit _) h2.empty.2 h2.empty.1.symm
  have hlow : ∀ i, i < 7 → s3.signals i = s0.signals i := fun i hlt => by
    rw [k3 i (by omega), k2 i (by omega), k1 i (by omega)]
  rw [hs3]
  refine ⟨h2.of_same (fun i hi => k3 i (by omega)) (exec_alias_cells ..)
    (by rw [k3 7 (by decide)]; exact h2.dataOut) (by rw [k3 8 (by decide)]; exact h2.full)
    (by rw [v3]; exact fits_bit _), ?_, ?_, ?_, ?_, ?_, ?_, ?_, v3⟩
  · rw [hlow 2 (by decide)]; rfl
  · rw [hlow 3 (by decide)]; rfl
  · rw [hlow 4 (by decide)]; rfl
  · rw [hlow 5 (by decide)]; rfl
  · rw [hlow 6 (by decide)]; rfl
  · rw [k3 7 (by decide), k2 7 (by decide), v1]
  · rw [k3 8 (by decide), v2]

/-! ## Edges -/

/-- The writes of a domain whose reset is inactive. -/
theorem fifoDomain_writes {m : IRModule} {t : CtxState} {clock reset reg₁ reg₂ : ℕ}
    {body : List IRStmt} (hindex : m.sigIndex reset = some reset)
    (h : (t.signals reset).current = cmpResult false) :
    domainWrites m t (fifoDomain clock reset reg₁ reg₂ body) =
      traceWrites (stmtsTrace m t body) := by
  have hinactive : resetActive m (fifoDomain clock reset reg₁ reg₂ body) t = false := by
    simp only [resetActive, fifoDomain, risingDomain, Option.bind_some, hindex, h]
    decide +kernel
  rw [domainWrites, hinactive, if_neg Bool.false_ne_true, fifoDomain, risingDomain, stmtTrace,
    evalSignal_at hindex, h, isTrue_bit]
  rfl

variable {e : FifoEvent (PortWord width)}

theorem eval_pointer {id : ℕ} (hid : id < 18) {p : BitVec 5}
    (hp : (s.signals id).current = ptrVal p) :
    simEvalExpr (buildCdcFifoModule width) s (.binary .add (.signalRef id 5) (makeLiteral 1 5) 5) =
      ptrVal (p + 1) := by
  rw [simEvalExpr, makeLiteral, simEvalExpr, evalSignal_at (fifo_index width id hid), hp, add_ptr]

theorem eval_nextGray {id : ℕ} (hid : id < 18) {p : BitVec 5}
    (hp : (s.signals id).current = ptrVal p) :
    simEvalExpr (buildCdcFifoModule width) s (nextGray id) = ptrVal (toGray (p + 1)) := by
  have hone : simEvalExpr (buildCdcFifoModule width) s (makeLiteral 1 5) =
      evalLiteral ⟨Words.set .zero 0 (BitVec.ofNat 64 1), 5, false⟩ 5 := by
    rw [makeLiteral, simEvalExpr]
  rw [nextGray, simEvalExpr, eval_pointer hid hp, @simEvalExpr.eq_5, eval_pointer hid hp, hone,
    gray_ptr]

theorem FifoSettled.wrWrites (h : FifoSettled s r e) :
    domainWrites (buildCdcFifoModule width) s (fifoWriteDomain width) =
      if e.writeEn && !r.full then
        [.cell 0 (r.wrPtrBin.extractLsb 3 0).toNat e.dataIn.1,
          .reg 10 none (ptrVal (r.wrPtrBin + 1)), .reg 11 none (ptrVal (toGray (r.wrPtrBin + 1)))]
      else [] := by
  have hr := h.holds
  have hi := fifo_index width
  have hcond : simEvalExpr (buildCdcFifoModule width) s (.binary .logicalAnd (.signalRef 5 1)
      (.unary .not (.signalRef 8 1) 1) 1) = cmpResult (e.writeEn && !r.full) := by
    rw [simEvalExpr, evalSignal_at (hi 5 (by decide)), h.writeEn, simEvalExpr,
      evalSignal_at (hi 8 (by decide)), h.full, not_bit, and_bit]
  have hmem : traceWrites (stmtTrace (buildCdcFifoModule width) s
      (.memWrite "mem" (makeSlice 10 3 0) (.signalRef 4 width))) =
        [.cell 0 (r.wrPtrBin.extractLsb 3 0).toNat e.dataIn.1] := by
    rw [stmtTrace, memWriteTrace, fifo_memOf, eval_ptrSlice (by decide) hr.wrPtrBin,
      evalSignal_at (hi 4 (by decide)), h.dataIn]
    simp only [address_ptr]
    rfl
  rw [fifoWriteDomain, fifoDomain_writes (hi 2 (by decide)) h.rstWr, blockTrace_cons,
    ifTrace_known hcond, blockTrace_cons, hmem, blockTrace_cons,
    assignTrace_whole (hi 10 (by decide)) (eval_pointer (by decide) hr.wrPtrBin)
      (by rw [hr.wrPtrBin]; rfl),
    blockTrace_cons,
    assignTrace_whole (hi 11 (by decide)) (eval_nextGray (by decide) hr.wrPtrBin)
      (by rw [hr.wrPtrGray]; rfl)]
  cases e.writeEn && !r.full <;> rfl

theorem FifoSettled.rdWrites (h : FifoSettled s r e) :
    domainWrites (buildCdcFifoModule width) s fifoReadDomain =
      if e.readEn && !r.empty then
        [.reg 12 none (ptrVal (r.rdPtrBin + 1)), .reg 13 none (ptrVal (toGray (r.rdPtrBin + 1)))]
      else [] := by
  have hr := h.holds
  have hi := fifo_index width
  have hcond : simEvalExpr (buildCdcFifoModule width) s (.binary .logicalAnd (.signalRef 6 1)
      (.unary .not (.signalRef 9 1) 1) 1) = cmpResult (e.readEn && !r.empty) := by
    rw [simEvalExpr, evalSignal_at (hi 6 (by decide)), h.readEn, simEvalExpr,
      evalSignal_at (hi 9 (by decide)), h.empty, not_bit, and_bit]
  rw [fifoReadDomain, fifoDomain_writes (hi 3 (by decide)) h.rstRd, blockTrace_cons,
    ifTrace_known hcond, blockTrace_cons,
    assignTrace_whole (hi 12 (by decide)) (eval_pointer (by decide) hr.rdPtrBin)
      (by rw [hr.rdPtrBin]; rfl),
    blockTrace_cons,
    assignTrace_whole (hi 13 (by decide)) (eval_nextGray (by decide) hr.rdPtrBin)
      (by rw [hr.rdPtrGray]; rfl)]
  cases e.readEn && !r.empty <;> rfl

theorem FifoSettled.readSyncWrites (h : FifoSettled s r e) :
    domainWrites (buildCdcFifoModule width) s fifoReadSyncDomain =
      [.reg 16 none (ptrVal r.rdPtrGray), .reg 17 none (ptrVal r.rdPtrGraySync1)] := by
  have hr := h.holds
  have hi := fifo_index width
  rw [fifoReadSyncDomain, fifoDomain_writes (hi 2 (by decide)) h.rstWr, blockTrace_cons,
    assignTrace_whole (hi 16 (by decide)) ((evalSignal_at (hi 13 (by decide))).trans hr.rdPtrGray)
      (by rw [hr.rdPtrGraySync1]; rfl),
    blockTrace_cons,
    assignTrace_whole (hi 17 (by decide))
      ((evalSignal_at (hi 16 (by decide))).trans hr.rdPtrGraySync1)
      (by rw [hr.rdPtrGraySync2]; rfl)]
  rfl

theorem FifoSettled.writeSyncWrites (h : FifoSettled s r e) :
    domainWrites (buildCdcFifoModule width) s fifoWriteSyncDomain =
      [.reg 14 none (ptrVal r.wrPtrGray), .reg 15 none (ptrVal r.wrPtrGraySync1)] := by
  have hr := h.holds
  have hi := fifo_index width
  rw [fifoWriteSyncDomain, fifoDomain_writes (hi 3 (by decide)) h.rstRd, blockTrace_cons,
    assignTrace_whole (hi 14 (by decide)) ((evalSignal_at (hi 11 (by decide))).trans hr.wrPtrGray)
      (by rw [hr.wrPtrGraySync1]; rfl),
    blockTrace_cons,
    assignTrace_whole (hi 15 (by decide))
      ((evalSignal_at (hi 14 (by decide))).trans hr.wrPtrGraySync1)
      (by rw [hr.wrPtrGraySync2]; rfl)]
  rfl

theorem fifo_edgeWrites (t : CtxState) (a b : Bool) :
    edgeWrites (buildCdcFifoModule width) t (eventClocks a b) =
      (if a then domainWrites (buildCdcFifoModule width) t (fifoWriteDomain width) else []) ++
      (if b then domainWrites (buildCdcFifoModule width) t fifoReadDomain else []) ++
      (if a then domainWrites (buildCdcFifoModule width) t fifoReadSyncDomain else []) ++
      if b then domainWrites (buildCdcFifoModule width) t fifoWriteSyncDomain else [] := by
  cases a <;> cases b <;> simp [edgeWrites, buildCdcFifoModule, eventClocks, fifoWriteDomain,
    fifoReadDomain, fifoReadSyncDomain, fifoWriteSyncDomain, fifoDomain, risingDomain]

theorem applyWrite_reg_cells (t : CtxState) (i : ℕ) (v : SimValue) :
    (applyWrite t (.reg i none v)).cells = t.cells := rfl

theorem applyWrite_cell_signals (t : CtxState) (c a : ℕ) (v : SimValue) :
    (applyWrite t (.cell c a v)).signals = t.signals := rfl

theorem applyWrite_cell_cells (t : CtxState) (c a i j : ℕ) (v : SimValue) :
    (applyWrite t (.cell c a v)).cells i j = if i = c ∧ j = a then v else t.cells i j := rfl

/-- An event of the module is a step of the registers. -/
theorem HoldsFifo.step (h : HoldsFifo width s r) (e : FifoEvent (PortWord width)) :
    HoldsFifo width (libStep (buildCdcFifoModule width) s e.lib) (r.step e.value) := by
  have hsettled := h.settle e
  have hwr := hsettled.wrWrites
  have hrd := hsettled.rdWrites
  have hrs := hsettled.readSyncWrites
  have hws := hsettled.writeSyncWrites
  have hr := hsettled.holds
  obtain ⟨h7, h8, h9, h10, h11, h12, h13, h14, h15, h16, h17, hmem, hwords⟩ := hr
  have hwrites : r.writes e.value = (e.clkWr && (e.writeEn && !r.full)) := rfl
  have hreads : r.reads e.value = (e.clkRd && (e.readEn && !r.empty)) := rfl
  have hdata : e.value.dataIn = e.dataIn.1 := rfl
  have hclkWr : e.value.clkWr = e.clkWr := rfl
  have hclkRd : e.value.clkRd = e.clkRd := rfl
  rw [libStep, show e.lib.clocks = eventClocks e.clkWr e.clkRd from rfl]
  simp only [fifo_edgeWrites, hwr, hrd, hrs, hws]
  generalize libSettle (buildCdcFifoModule width) s e.lib.inputs = t at *
  generalize (e.writeEn && !r.full) = w at *
  generalize (e.readEn && !r.empty) = d at *
  generalize e.clkWr = a at *
  generalize e.clkRd = b at *
  constructor
  case words =>
    intro i
    simp only [FifoRegs.step, hwrites]
    cases a && w
    · exact hwords i
    · simp only [if_true]
      split
      · exact e.dataIn.2
      · exact hwords i
  case mem =>
    intro i
    simp only [FifoRegs.step, hwrites, hdata]
    generalize r.wrPtrBin.extractLsb 3 0 = p
    cases a <;> cases b <;> cases w <;> cases d <;>
      simp [applyWrites_cons, applyWrites_nil, applyWrite_reg_cells, applyWrite_cell_cells,
        ← BitVec.toNat_inj, hmem]
  all_goals
    cases a <;> cases b <;> cases w <;> cases d <;>
      simp [applyWrites_cons, applyWrites_nil, applyWrite_whole, applyWrite_cell_signals,
        FifoRegs.step, *]

end

/-! ## Runs -/

/-- The memory before the first event. -/
def fifoCells (mem : BitVec 4 → PortWord width) : ℕ → ℕ → SimValue :=
  fun _ a => (mem (BitVec.ofNat 4 a)).1

section

variable (mem : BitVec 4 → PortWord width) (es : ℕ → FifoEvent (PortWord width))

/-- The state of the FIFO module before every event. -/
def fifoState (n : ℕ) : CtxState :=
  libRun (buildCdcFifoModule width) (fifoCells mem) (fun k => (es k).lib) n

def fifoRun (n : ℕ) : FifoRegs SimValue := fifoRegs (fifoState mem es n)

/-- What an output shows just before the edges of an event. -/
def fifoOut (n id : ℕ) : SimValue :=
  signalAt (buildCdcFifoModule width) (fifoState mem es n) (es n).lib.inputs id

/-- The outputs `data_out`, `full` and `empty` show the registers. -/
structure ShowsRegisters (n : ℕ) : Prop where

  dataOut : fifoOut mem es n 7 = (fifoRun mem es n).dataOut

  full : fifoOut mem es n 8 = cmpResult (fifoRun mem es n).full

  empty : fifoOut mem es n 9 = cmpResult (fifoRun mem es n).empty

theorem fifo_start : HoldsFifo width (libStart (buildCdcFifoModule width) (fifoCells mem))
    (FifoRegs.start fun a => (mem a).1) where
  dataOut := ⟨rfl, masked_simValZero width⟩
  full := ⟨rfl, masked_simValZero 1⟩
  empty := ⟨rfl, masked_simValZero 1⟩
  wrPtrBin := start_ptr
  wrPtrGray := start_ptr
  rdPtrBin := start_ptr
  rdPtrGray := start_ptr
  wrPtrGraySync1 := start_ptr
  wrPtrGraySync2 := start_ptr
  rdPtrGraySync1 := start_ptr
  rdPtrGraySync2 := start_ptr
  mem a := by
    show fifoCells mem 0 a.toNat = (mem a).1
    rw [fifoCells, BitVec.ofNat_toNat, BitVec.setWidth_eq]
  words a := (mem a).2

theorem holdsFifo_run : ∀ n, ∃ r, HoldsFifo width (fifoState mem es n) r
  | 0 => ⟨_, fifo_start mem⟩
  | n + 1 => by
      obtain ⟨r, hr⟩ := holdsFifo_run n
      exact ⟨_, hr.step (es n)⟩

theorem fifoRun_isRun : FifoRegs.IsRun (fun a => (mem a).1) (fun k => (es k).value)
    (fifoRun mem es) where
  start := (fifo_start mem).regs
  next n := by
    obtain ⟨r, hr⟩ := holdsFifo_run mem es n
    rw [fifoRun, fifoRun, hr.regs]
    exact (hr.step (es n)).regs

theorem fifo_shows (n : ℕ) : ShowsRegisters mem es n := by
  obtain ⟨r, hr⟩ := holdsFifo_run mem es n
  have hsettled := hr.settle (es n)
  have hrun : fifoRun mem es n = r := hr.regs
  exact ⟨by rw [hrun]; exact hsettled.dataOut, by rw [hrun]; exact hsettled.full,
    by rw [hrun]; exact hsettled.empty⟩

/-- The FIFO module delivers every accepted word once and in order. -/
theorem fifoModule_delivers : DeliversInOrder (fun k => (es k).value) (fifoRun mem es) ∧
    ∀ n, ShowsRegisters mem es n :=
  ⟨(fifoRun_isRun mem es).delivers, fifo_shows mem es⟩

end

end JzHdl

import JzHdl.Cdc.Synchroniser
import JzHdl.Cdc.FifoRuns
import JzHdl.Sim.ExecRun

/-! # Runs of the synchroniser modules

The registers of the BIT and BUS modules are a chain of two behind the source.
In the BUS module they hold Gray code, which the cascade decodes again.
-/

namespace JzHdl

open BitWords

/-! ## Registers in a row -/

section

variable {α : Type*} (zero : α) (edge : ℕ → Bool) (input : ℕ → α)

def chainFirst : ℕ → α
  | 0 => zero
  | n + 1 => if edge n then input n else chainFirst n

def chainSecond : ℕ → α
  | 0 => zero
  | n + 1 => if edge n then chainFirst zero edge input n else chainSecond n

theorem chain_syncChain : SyncChain zero edge input (chainFirst zero edge input)
    (chainSecond zero edge input) :=
  ⟨rfl, rfl, fun _ => rfl, fun _ => rfl⟩

end

/-! ## One bit -/

theorem bit_index : ∀ i < 5, buildCdcBitModule.sigIndex i = some i := by decide

theorem bit_targets : ∀ τ ∈ stmtTargets buildCdcBitModule buildCdcBitModule.asyncBlock,
    τ.index = 2 := by
  decide

/-- The registers of the BIT module hold the given words. -/
structure HoldsSyncBit (s : CtxState) (first second : BitVec 1) : Prop where

  dataOut : FitsPort 1 (s.signals 2).current

  syncFf1 : (s.signals 3).current = wordVal first

  syncFf2 : (s.signals 4).current = wordVal second

namespace HoldsSyncBit

variable {s : CtxState} {first second : BitVec 1}

theorem settled_out (h : HoldsSyncBit s first second) (v : SimValue) :
    ((libSettle buildCdcBitModule s [(1, v)]).signals 2).current = wordVal second := by
  refine exec_alias (bit_index 2 (by decide)) ?_ (masked_wordVal (by decide) second) h.dataOut.2
    h.dataOut.1.symm
  rw [evalSignal_at (bit_index 4 (by decide))]
  exact h.syncFf2

theorem settle (h : HoldsSyncBit s first second) (v : SimValue) :
    HoldsSyncBit (libSettle buildCdcBitModule s [(1, v)]) first second := by
  have hkeep : ∀ i, 3 ≤ i →
      (libSettle buildCdcBitModule s [(1, v)]).signals i = s.signals i := fun i hi =>
    libSettle_other (by simp; omega) fun τ hτ => by rw [bit_targets τ hτ]; omega
  refine ⟨?_, ?_, ?_⟩
  · rw [h.settled_out v]
    exact ⟨rfl, masked_wordVal (by decide) second⟩
  · rw [hkeep 3 (by decide), h.syncFf1]
  · rw [hkeep 4 (by decide), h.syncFf2]

theorem step (h : HoldsSyncBit s first second) (word : BitVec 1) (clocks : List ℕ) :
    HoldsSyncBit (libStep buildCdcBitModule s ⟨[(1, wordVal word)], clocks⟩)
      (if 0 ∈ clocks then word else first) (if 0 ∈ clocks then first else second) := by
  have hsettled := h.settle (wordVal word)
  have hinput : ((libSettle buildCdcBitModule s [(1, wordVal word)]).signals 1).current =
      wordVal word :=
    libSettle_input fun τ hτ => by rw [bit_targets τ hτ]; decide
  have hwrites : domainWrites buildCdcBitModule
      (libSettle buildCdcBitModule s [(1, wordVal word)]) bitDomain =
        [.reg 3 none (wordVal word), .reg 4 none (wordVal first)] := by
    rw [bitDomain, domainWrites_plain, stmtTrace, blockTrace_cons,
      assignTrace_whole (bit_index 3 (by decide))
        ((evalSignal_at (bit_index 1 (by decide))).trans hinput)
        (by rw [hsettled.syncFf1]; rfl),
      blockTrace_cons,
      assignTrace_whole (bit_index 4 (by decide))
        ((evalSignal_at (bit_index 3 (by decide))).trans hsettled.syncFf1)
        (by rw [hsettled.syncFf2]; rfl)]
    rfl
  have hedge : edgeWrites buildCdcBitModule (libSettle buildCdcBitModule s [(1, wordVal word)])
      clocks = if 0 ∈ clocks then [.reg 3 none (wordVal word), .reg 4 none (wordVal first)]
        else [] := by
    by_cases hclk : 0 ∈ clocks
    · rw [if_pos hclk, ← hwrites]
      simp [edgeWrites, buildCdcBitModule, bitDomain, risingDomain, hclk]
    · simp [edgeWrites, buildCdcBitModule, bitDomain, risingDomain, hclk]
  obtain ⟨h2, h3, h4⟩ := hsettled
  rw [libStep, hedge]
  by_cases hclk : 0 ∈ clocks
  · simp only [if_pos hclk]
    refine ⟨?_, ?_, ?_⟩
    · simpa [applyWrites_cons, applyWrites_nil, applyWrite_whole] using h2
    · simp [applyWrites_cons, applyWrites_nil, applyWrite_whole]
    · simp [applyWrites_cons, applyWrites_nil, applyWrite_whole]
  · simp only [if_neg hclk]
    exact ⟨h2, h3, h4⟩

end HoldsSyncBit

/-! ## The Gray cascade -/

section

variable {m : IRModule} {s : CtxState} {w : ℕ}

theorem exec_bit_signals {id i j : ℕ} {e : IRExpr} (hindex : m.sigIndex id = some id) (hj : j ≠ id) :
    (simExecStmt m false (makeBitStmt id i e) s).signals j = s.signals j := by
  refine exec_frame _ _ s fun τ hτ => ?_
  rw [makeBitStmt, stmtTargets, assignTargets, hindex] at hτ
  rw [List.mem_singleton.mp hτ]
  exact hj.symm

/-- An assignment to one bit of a word. -/
theorem exec_bit (hpos : 0 < w) (hw : w ≤ 256) {id i : ℕ} {e : IRExpr} {b : BitVec w} {x : Bool}
    (hindex : m.sigIndex id = some id) (hi : i < w) (heval : simEvalExpr m s e = cmpResult x)
    (hold : (s.signals id).current = wordVal b) :
    ((simExecStmt m false (makeBitStmt id i e) s).signals id).current =
      wordVal (setBitOf b i x) := by
  have hwrite : writeSlice (wordVal b) (extendRhs .drive (cmpResult x) w) i i =
      wordVal (setBitOf b i x) := writeSlice_wordVal hw b hi (extend_bit hpos x)
  rw [makeBitStmt, simExecStmt, applyAssign, hindex]
  simp only [heval, hold, show (wordVal b).width = w from rfl, Bool.false_eq_true, if_false,
    writeNow, if_true, CtxState.raiseError, hwrite]
  split
  · exact (setCurrent_current _ _ _ _).trans (if_pos rfl)
  · exact (setCurrent_current _ _ _ _).trans (if_pos rfl)

theorem eval_wordSlice (hw : w ≤ 256) {id : ℕ} {b : BitVec w} (hindex : m.sigIndex id = some id)
    (hb : (s.signals id).current = wordVal b) (k : ℕ) :
    simEvalExpr m s (makeSlice id k k) = cmpResult (b.getLsbD k) := by
  rw [makeSlice, simEvalExpr, hindex]
  simp only [hb, slice_wordVal hw]

/-- The cascade completes a word from its upper bits and its Gray code. -/
theorem exec_cascade (hpos : 0 < w) (hw : w ≤ 256) {bin gray : ℕ} (hbin : m.sigIndex bin = some bin)
    (hgray : m.sigIndex gray = some gray) (hne : bin ≠ gray) (c : BitVec w) :
    ∀ (n : ℕ) (s : CtxState) (b : BitVec w), n < w → (s.signals bin).current = wordVal b →
      (s.signals gray).current = wordVal (grayOf c) → (∀ k, n ≤ k → b.getLsbD k = c.getLsbD k) →
      ((execStmts m false (cascadeStmts bin gray n) s).signals bin).current = wordVal c ∧
        ∀ j, j ≠ bin → (execStmts m false (cascadeStmts bin gray n) s).signals j = s.signals j
  | 0, s, b, _, hb, _, hbits => by
      rw [cascadeStmts, execStmts]
      refine ⟨?_, fun j _ => rfl⟩
      rw [hb, BitVec.eq_of_getLsbD_eq fun k _ => hbits k (Nat.zero_le k)]
  | n + 1, s, b, hn, hb, hg, hbits => by
      rw [cascadeStmts, execStmts]
      have heval : simEvalExpr m s (.binary .xor (makeSlice bin (n + 1) (n + 1))
          (makeSlice gray n n) 1) = cmpResult (c.getLsbD n) := by
        rw [simEvalExpr, eval_wordSlice hw hbin hb, eval_wordSlice hw hgray hg, xor_bit,
          getLsbD_grayOf, hbits (n + 1) le_rfl, ← Bool.xor_assoc, Bool.xor_self, Bool.false_xor]
      have hstep := exec_bit hpos hw hbin (show n < w by omega) heval hb
      have hframe : ∀ j, j ≠ bin → (simExecStmt m false (makeBitStmt bin n
          (.binary .xor (makeSlice bin (n + 1) (n + 1)) (makeSlice gray n n) 1)) s).signals j =
            s.signals j := fun j hj => exec_bit_signals hbin hj
      obtain ⟨hout, hrest⟩ := exec_cascade hpos hw hbin hgray hne c n _ _ (by omega) hstep
        (by rw [hframe gray hne.symm, hg]) fun k hk => by
          rw [getLsbD_setBitOf b (by omega)]
          split
          · rename_i h; rw [h]
          · exact hbits k (by omega)
      exact ⟨hout, fun j hj => (hrest j hj).trans (hframe j hj)⟩

end

/-! ## A bus -/

section

variable {w : ℕ}

theorem bus_index (w : ℕ) : ∀ i < 8, (buildCdcBusModule w).sigIndex i = some i := by
  intro i hi
  interval_cases i <;> rfl

/-- The registers of the BUS module hold the Gray code of the given words. -/
structure HoldsSyncBus (s : CtxState) (held first second : BitVec w) : Prop where

  dataOut : FitsPort w (s.signals 3).current

  graySrc : (s.signals 4).current = wordVal (grayOf held)

  graySync1 : (s.signals 5).current = wordVal (grayOf first)

  graySync2 : (s.signals 6).current = wordVal (grayOf second)

  binDest : ∃ b : BitVec w, (s.signals 7).current = wordVal b

namespace HoldsSyncBus

variable {s : CtxState} {held first second : BitVec w}

/-- Settling decodes the second synchroniser register. -/
theorem settled (hpos : 0 < w) (hw : w ≤ 256) (h : HoldsSyncBus s held first second)
    (v : SimValue) :
    HoldsSyncBus (libSettle (buildCdcBusModule w) s [(2, v)]) held first second ∧
      ((libSettle (buildCdcBusModule w) s [(2, v)]).signals 3).current = wordVal second ∧
      ((libSettle (buildCdcBusModule w) s [(2, v)]).signals 2).current = v := by
  let m := buildCdcBusModule w
  let s0 := s.setCurrent 2 v
  let s1 := simExecStmt m false (makeBitStmt 7 (w - 1) (makeSlice 6 (w - 1) (w - 1))) s0
  let s2 := execStmts m false (cascadeStmts 7 6 (w - 1)) s1
  let s3 := simExecStmt m false (makeAliasStmt 3 (.signalRef 7 w)) s2
  have hs3 : libSettle m s [(2, v)] = s3 := by
    show execStmts m false (_ :: (cascadeStmts 7 6 (w - 1) ++ [_])) s0 = s3
    rw [execStmts, execStmts_append, execStmts, execStmts]
  have hi := bus_index w
  obtain ⟨b, hb⟩ := h.binDest
  have h0 : ∀ i, i ≠ 2 → s0.signals i = s.signals i := fun i hne => if_neg hne
  -- the top bit
  have heval : simEvalExpr m s0 (makeSlice 6 (w - 1) (w - 1)) = cmpResult (second.getLsbD (w - 1)) := by
    have hlow : second.getLsbD (w - 1 + 1) = false := BitVec.getLsbD_of_ge _ _ (by omega)
    rw [eval_wordSlice hw (hi 6 (by decide)) (by rw [h0 6 (by decide), h.graySync2]), getLsbD_grayOf,
      hlow, Bool.false_xor]
  have v1 : (s1.signals 7).current = wordVal (setBitOf b (w - 1) (second.getLsbD (w - 1))) :=
    exec_bit hpos hw (hi 7 (by decide)) (by omega) heval (by rw [h0 7 (by decide), hb])
  have k1 : ∀ i, i ≠ 7 → s1.signals i = s0.signals i := fun i hne =>
    exec_bit_signals (hi 7 (by decide)) hne
  -- the bits below
  obtain ⟨v2, k2⟩ := exec_cascade hpos hw (hi 7 (by decide)) (hi 6 (by decide)) (by decide) second
    (w - 1) s1 _ (by omega) v1 (by rw [k1 6 (by decide), h0 6 (by decide), h.graySync2])
    fun k hk => by
      rw [getLsbD_setBitOf b (by omega)]
      split
      · rename_i heq; rw [heq]
      · rw [BitVec.getLsbD_of_ge _ _ (by omega), BitVec.getLsbD_of_ge _ _ (by omega)]
  have k3 : ∀ i, i ≠ 3 → s3.signals i = s2.signals i := fun i hne =>
    exec_alias_signals (hi 3 (by decide)) hne
  have hkeep : ∀ i, i ≠ 3 → i ≠ 7 → s3.signals i = s0.signals i := fun i h3 h7 => by
    rw [k3 i h3, k2 i h7, k1 i h7]
  have hout : (s2.signals 3).current = (s.signals 3).current := by
    rw [k2 3 (by decide), k1 3 (by decide), h0 3 (by decide)]
  have v3 : (s3.signals 3).current = wordVal second :=
    exec_alias (hi 3 (by decide)) ((evalSignal_at (hi 7 (by decide))).trans v2)
      (masked_wordVal hw second) (by rw [hout]; exact h.dataOut.2)
      (by rw [hout]; exact h.dataOut.1.symm)
  rw [hs3]
  refine ⟨⟨?_, ?_, ?_, ?_, second, ?_⟩, v3, ?_⟩
  · rw [v3]; exact ⟨rfl, masked_wordVal hw second⟩
  · rw [hkeep 4 (by decide) (by decide), h0 4 (by decide), h.graySrc]
  · rw [hkeep 5 (by decide) (by decide), h0 5 (by decide), h.graySync1]
  · rw [hkeep 6 (by decide) (by decide), h0 6 (by decide), h.graySync2]
  · rw [k3 7 (by decide)]; exact v2
  · rw [hkeep 2 (by decide) (by decide)]
    exact (setCurrent_current _ _ _ _).trans (if_pos rfl)

theorem srcWrites (hpos : 0 < w) (hw : w ≤ 256) (h : HoldsSyncBus s held first second)
    {word : BitVec w} (hin : (s.signals 2).current = wordVal word) :
    domainWrites (buildCdcBusModule w) s (busSrcDomain w) = [.reg 4 none (wordVal (grayOf word))] := by
  have hi := bus_index w
  have heval : simEvalExpr (buildCdcBusModule w) s (.binary .xor (.binary .shr (.signalRef 2 w)
      (makeLiteral 1 w) w) (.signalRef 2 w) w) = wordVal (grayOf word) := by
    rw [simEvalExpr, @simEvalExpr.eq_5, evalSignal_at (hi 2 (by decide)), hin, makeLiteral,
      @simEvalExpr.eq_2, shr_wordVal hpos hw, xor_wordVal hpos hw]
    rfl
  rw [busSrcDomain, domainWrites_plain, stmtTrace, blockTrace_cons,
    assignTrace_whole (hi 4 (by decide)) heval (by rw [h.graySrc]; rfl)]
  rfl

theorem destWrites (h : HoldsSyncBus s held first second) :
    domainWrites (buildCdcBusModule w) s (busDestDomain w) =
      [.reg 5 none (wordVal (grayOf held)), .reg 6 none (wordVal (grayOf first))] := by
  have hi := bus_index w
  rw [busDestDomain, domainWrites_plain, stmtTrace, blockTrace_cons,
    assignTrace_whole (hi 5 (by decide)) ((evalSignal_at (hi 4 (by decide))).trans h.graySrc)
      (by rw [h.graySync1]; rfl),
    blockTrace_cons,
    assignTrace_whole (hi 6 (by decide)) ((evalSignal_at (hi 5 (by decide))).trans h.graySync1)
      (by rw [h.graySync2]; rfl)]
  rfl

theorem step (hpos : 0 < w) (hw : w ≤ 256) (h : HoldsSyncBus s held first second)
    (word : BitVec w) (clocks : List ℕ) :
    HoldsSyncBus (libStep (buildCdcBusModule w) s ⟨[(2, wordVal word)], clocks⟩)
      (if 0 ∈ clocks then word else held) (if 1 ∈ clocks then held else first)
      (if 1 ∈ clocks then first else second) := by
  obtain ⟨hsettled, -, hin⟩ := h.settled hpos hw (wordVal word)
  have hsrc := hsettled.srcWrites hpos hw hin
  have hdest := hsettled.destWrites
  have hedge : edgeWrites (buildCdcBusModule w)
      (libSettle (buildCdcBusModule w) s [(2, wordVal word)]) clocks =
      (if 0 ∈ clocks then [.reg 4 none (wordVal (grayOf word))] else []) ++
        if 1 ∈ clocks then
          [.reg 5 none (wordVal (grayOf held)), .reg 6 none (wordVal (grayOf first))]
        else [] := by
    rw [← hsrc, ← hdest]
    by_cases h0 : 0 ∈ clocks <;> by_cases h1 : 1 ∈ clocks <;>
      simp [edgeWrites, buildCdcBusModule, busSrcDomain, busDestDomain, risingDomain, h0, h1]
  obtain ⟨h3, h4, h5, h6, b, h7⟩ := hsettled
  rw [libStep, hedge]
  refine ⟨?_, ?_, ?_, ?_, b, ?_⟩ <;> by_cases hs : 0 ∈ clocks <;> by_cases hd : 1 ∈ clocks <;>
    simp [applyWrites_cons, applyWrites_nil, applyWrite_whole, *]

end HoldsSyncBus

end

/-! ## Aliases -/

theorem bit_run (words : ℕ → BitVec 1) (clocks : ℕ → List ℕ) (cells : ℕ → ℕ → SimValue) : ∀ n,
    HoldsSyncBit (libRun buildCdcBitModule cells
      (fun k => ⟨[(1, wordVal (words k))], clocks k⟩) n)
      (chainFirst 0 (fun k => decide (0 ∈ clocks k)) words n)
      (chainSecond 0 (fun k => decide (0 ∈ clocks k)) words n)
  | 0 => ⟨⟨rfl, masked_simValZero 1⟩, zero_wordVal (by decide), zero_wordVal (by decide)⟩
  | n + 1 => by
      have hstep := (bit_run words clocks cells n).step (words n) (clocks n)
      simp only [chainFirst, chainSecond, decide_eq_true_eq]
      exact hstep

theorem bus_run {w : ℕ} (hpos : 0 < w) (hw : w ≤ 256) (words : ℕ → BitVec w)
    (clocks : ℕ → List ℕ) (cells : ℕ → ℕ → SimValue) : ∀ n,
    HoldsSyncBus (libRun (buildCdcBusModule w) cells
      (fun k => ⟨[(2, wordVal (words k))], clocks k⟩) n)
      (chainFirst 0 (fun k => decide (0 ∈ clocks k)) words n)
      (chainFirst 0 (fun k => decide (1 ∈ clocks k))
        (chainFirst 0 (fun k => decide (0 ∈ clocks k)) words) n)
      (chainSecond 0 (fun k => decide (1 ∈ clocks k))
        (chainFirst 0 (fun k => decide (0 ∈ clocks k)) words) n)
  | 0 => by
      have hzero : simValZero w = wordVal (grayOf (0 : BitVec w)) := by
        rw [grayOf_zero]; exact zero_wordVal hw
      exact ⟨⟨rfl, masked_simValZero w⟩, hzero, hzero, hzero, 0, zero_wordVal hw⟩
  | n + 1 => by
      have hstep := (bus_run hpos hw words clocks cells n).step hpos hw (words n) (clocks n)
      simp only [chainFirst, chainSecond, decide_eq_true_eq]
      exact hstep

theorem clockSignalOf_domainOf (domains : List IRClockDomain) (clk : ℕ) :
    clockSignalOf domains (domainOf domains clk) =
      if (domainOf domains clk).isSome then some clk else none := by
  rw [clockSignalOf]
  cases hdom : domainOf domains clk with
  | none => rfl
  | some i =>
    obtain ⟨hi, hclk, -⟩ := List.findIdx?_eq_some_iff_getElem.mp hdom
    have hget : domains[i]? = some domains[i] := List.getElem?_eq_getElem hi
    simp only [Option.bind_some, hget, Option.map_some, Option.isSome_some, if_true]
    exact congrArg some (beq_iff_eq.mp hclk)

/-- A clock port of the instance rises. -/
def clockRises (domains : List IRClockDomain) (clk : ℕ) (rises : ℕ → Bool) : Bool :=
  (domainOf domains clk).isSome && rises clk

theorem elim_clockSignalOf (domains : List IRClockDomain) (clk : ℕ) (rises : ℕ → Bool) :
    (clockSignalOf domains (domainOf domains clk)).elim false rises = clockRises domains clk rises := by
  rw [clockSignalOf_domainOf, clockRises]
  cases (domainOf domains clk).isSome <;> rfl

section

variable (domains : List IRClockDomain) (d : CdcDecl) (run : CrossingRun d.width)

/-- The words that the first register of the destination samples. -/
def sampled : ℕ → BitVec d.width :=
  match d.kind with
  | .bit => run.words
  | .bus => chainFirst 0 (fun k => clockRises domains d.srcClk (run.rises k)) run.words

theorem aliasAt_eq (n : ℕ) : aliasAt domains d run n = wordVal (chainSecond 0
    (fun k => clockRises domains d.destClk (run.rises k)) (sampled domains d run) n) := by
  obtain ⟨kind, stages, sourceReg, srcClk, destAlias, destClk, width, hstages, hpos, hw, hbit⟩ := d
  cases kind with
  | bit =>
    obtain rfl := hbit rfl
    have hports : ∀ k, 0 ∈ risingPorts (lowerCdcBit domains (irBuildCdc domains ⟨.bit, stages,
        sourceReg, srcClk, destAlias, destClk, 1, hstages, hpos, hw, hbit⟩)) (run.rises k) ↔
          clockRises domains destClk (run.rises k) = true := fun k => by
      rw [← elim_clockSignalOf]
      simp [risingPorts, lowerCdcBit, irBuildCdc, makeConn]
    have hrun := bit_run run.words (fun k => risingPorts (lowerCdcBit domains (irBuildCdc domains
      ⟨.bit, stages, sourceReg, srcClk, destAlias, destClk, 1, hstages, hpos, hw, hbit⟩))
        (run.rises k)) (fun _ _ => simValZero 1) n
    simp only [hports, Bool.decide_eq_true] at hrun
    exact hrun.settled_out _
  | bus =>
    have hsrc : ∀ k, 0 ∈ risingPorts (lowerCdcBus domains (irBuildCdc domains ⟨.bus, stages,
        sourceReg, srcClk, destAlias, destClk, width, hstages, hpos, hw, hbit⟩)) (run.rises k) ↔
          clockRises domains srcClk (run.rises k) = true := fun k => by
      rw [← elim_clockSignalOf]
      simp [risingPorts, lowerCdcBus, irBuildCdc, makeConn]
    have hdest : ∀ k, 1 ∈ risingPorts (lowerCdcBus domains (irBuildCdc domains ⟨.bus, stages,
        sourceReg, srcClk, destAlias, destClk, width, hstages, hpos, hw, hbit⟩)) (run.rises k) ↔
          clockRises domains destClk (run.rises k) = true := fun k => by
      rw [← elim_clockSignalOf]
      simp [risingPorts, lowerCdcBus, irBuildCdc, makeConn]
    have hrun := bus_run hpos hw run.words (fun k => risingPorts (lowerCdcBus domains (irBuildCdc
      domains ⟨.bus, stages, sourceReg, srcClk, destAlias, destClk, width, hstages, hpos, hw,
        hbit⟩)) (run.rises k)) (fun _ _ => simValZero 1) n
    simp only [hsrc, hdest, Bool.decide_eq_true] at hrun
    exact (hrun.settled hpos hw _).2.1

end

end JzHdl

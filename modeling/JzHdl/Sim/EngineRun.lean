import JzHdl.Sim.ChunkSkip

/-! # Engine runs on a childless design

A run interleaves input changes, resets, clocked executions, commits and
settles. Skipping clean chunks gives the same settled states as executing the
whole block, as long as no operation changes what a clean chunk reads from a
memory or drives.
-/

namespace JzHdl

open DirtySkip BitWords

/-- The engine operations between two settles. -/
inductive EngineOp where

  | input (portId : ℕ) (value : SimValue)

  | reset (cd : IRClockDomain)

  | exec (cd : IRClockDomain)

  | commit

inductive EngineStep where

  | op (o : EngineOp)

  | settle

section

variable (m : IRModule)

def engineOp : EngineOp → CtxState → CtxState
  | .input portId value, s => simPropagateInput m portId value s
  | .reset cd, s => simApplyDomainReset m cd s
  | .exec cd, s => simExecSyncDomain m cd s
  | .commit, s => simCtxApplyNba m s

/-- A settle of a design without children. -/
def settleChildless (chunksOf : IRModule → List SimAsyncChunk) (s : CtxState) : Bool × CtxState :=
  let r := simSettleCombinational chunksOf (.node m .nil) (s, ()) simSettleMaxIters
  (r.1, r.2.1)

/-- The answers and the states of the settles of a run. -/
def settleTrace (chunksOf : IRModule → List SimAsyncChunk) :
    List EngineStep → CtxState → List (Bool × CtxState)
  | [], _ => []
  | .op o :: rest, s => settleTrace chunksOf rest (engineOp m o s)
  | .settle :: rest, s =>
    let r := settleChildless m chunksOf s
    r :: settleTrace chunksOf rest r.2

/-- The operation changes no memory that a clean chunk reads and no bit that it drives. -/
def OpOk (o : EngineOp) (s : CtxState) : Prop :=
  ∀ c ∈ buildAsyncChunks m, needsExec c (engineOp m o s) = true ∨ Keeps m c s (engineOp m o s)

def RunOk : List EngineStep → CtxState → Prop
  | [], _ => True
  | .op o :: rest, s => OpOk m o s ∧ RunOk rest (engineOp m o s)
  | .settle :: rest, s => RunOk rest (settleChildless m buildAsyncChunks s).2

end

section

variable {m : IRModule} {s : CtxState}

/-! ## Operations raise flags -/

theorem simPropagateInput_flagged (portId : ℕ) (v : SimValue) (s : CtxState) :
    Flagged s (simPropagateInput m portId v s) := by
  rw [simPropagateInput]
  split
  · split
    · exact .setCurrent_markDirty s _ _
    · exact .setCurrent_markDirty s _ _
    · exact .refl s
  · exact .refl s

theorem resetRegister_flagged (s : CtxState) (regId : ℕ) :
    Flagged s (resetRegister m s regId) := by
  rw [resetRegister]
  split
  · split
    · exact .setCurrent_markDirty s _ _
    · exact .refl s
  · exact .refl s

theorem applyNbaAt_flagged (s : CtxState) (i : ℕ) : Flagged s (applyNbaAt s i) where
  sigDirty j hj := by rw [applyNbaAt_sigDirty, hj, Bool.true_or]
  runtimeError h := by rwa [applyNbaAt_runtimeError]
  flagged j hne := by
    rw [applyNbaAt_signals] at hne
    rw [applyNbaAt_sigDirty]
    by_cases hj : j = i
    · subst hj
      rw [if_pos rfl, SimSignalEntry.commit] at hne
      by_cases hp : (s.signals j).hasPending = true
      · simp [hp]
      · rw [if_neg hp] at hne
        exact absurd rfl hne
    · rw [if_neg hj] at hne
      exact absurd rfl hne

theorem engineOp_flagged (o : EngineOp) (s : CtxState) : Flagged s (engineOp m o s) := by
  cases o with
  | input portId value => exact simPropagateInput_flagged portId value s
  | reset cd => exact .foldl resetRegister_flagged cd.registerIds s
  | exec cd => exact (exec_stages cd.statements s).toFlagged
  | commit => exact .foldl applyNbaAt_flagged (List.range m.signals.length) s

/-! ## Settles -/

theorem settlePass_childless (chunksOf : IRModule → List SimAsyncChunk)
    (ctx : SimContext (.node m .nil)) :
    settlePass chunksOf (.node m .nil) ctx =
      (settleOwn (chunksOf m) m ctx.1.clearSettleDirty, ()) := rfl

/-- The two modes settle alike from armed chunks, and leave them armed. -/
theorem AsyncOk.settleChildless_eq (h : AsyncOk m) (hs : ArmedChunks m s) :
    settleChildless m buildAsyncChunks s = settleChildless m (fun _ => []) s ∧
      ArmedChunks m (settleChildless m buildAsyncChunks s).2 := by
  simp only [settleChildless, simSettleCombinational]
  by_cases ha : (Hierarchy.node m .nil).hasAnyAsync = true
  · simp only [if_pos ha]
    let Inv : SimContext (.node m .nil) → Prop := fun ctx => ArmedChunks m ctx.1
    have hpass : ∀ ctx, Inv ctx → settlePass buildAsyncChunks (.node m .nil) ctx =
        settlePass (fun _ => []) (.node m .nil) ctx := fun ctx hc => by
      rw [settlePass_childless, settlePass_childless, (h.settleOwn_eq hc.clearSettleDirty).1]
    have hinv : ∀ ctx, Inv ctx → Inv (settlePass buildAsyncChunks (.node m .nil) ctx) :=
      fun ctx hc => (h.settleOwn_eq hc.clearSettleDirty).2
    have hfin : ∀ ctx, Inv ctx →
        (settlePass buildAsyncChunks (.node m .nil) ctx).state.settleDirty = false →
        Inv (clearSigDirty (.node m .nil) (settlePass buildAsyncChunks (.node m .nil) ctx)) :=
      fun ctx hc hq => h.armed_of_quiet hc.clearSettleDirty hq ⟨⟨fun _ => rfl, rfl⟩, id⟩
    exact ⟨congrArg (fun r : Bool × SimContext (.node m .nil) => (r.1, r.2.1))
        (repeatPass_congr (s := ((s, ()) : SimContext (.node m .nil))) hpass hinv _ hs),
      repeatPass_inv (s := ((s, ()) : SimContext (.node m .nil))) hinv hfin _ hs⟩
  · simp only [if_neg ha]
    exact ⟨trivial, hs⟩

theorem AsyncOk.settleTrace_eq (h : AsyncOk m) : ∀ {steps : List EngineStep} {s : CtxState},
    ArmedChunks m s → RunOk m steps s →
      settleTrace m buildAsyncChunks steps s = settleTrace m (fun _ => []) steps s
  | [], _, _, _ => rfl
  | .op o :: rest, s, hs, hr => by
      rw [settleTrace, settleTrace]
      exact h.settleTrace_eq (hs.step (engineOp_flagged o s) hr.1) hr.2
  | .settle :: rest, s, hs, hr => by
      obtain ⟨heq, harm⟩ := h.settleChildless_eq hs
      have htail := h.settleTrace_eq harm hr
      rw [settleTrace, settleTrace, ← heq]
      exact congrArg _ htail

/-- From a fresh context, a run whose operations spare the clean chunks settles to the same
states with and without skipping. -/
theorem settleTrace_chunks_eq (h : AsyncOk m) (hs : ∀ i < m.signals.length, s.sigDirty i = true)
    {steps : List EngineStep} (hr : RunOk m steps s) :
    settleTrace m buildAsyncChunks steps s = settleTrace m (fun _ => []) steps s :=
  h.settleTrace_eq (ArmedChunks.of_allDirty hs) hr

end

namespace RamExample

def byte (n : Word) : IRLiteral := ⟨.ofFn fun i => if i = 0 then n else 0, 8, false⟩

def clock : IRClockDomain :=
  { clockSignalId := 2
    edge := .rising
    registerIds := []
    resetSignalId := none
    resetActive := .activeHigh
    statements := .memWrite "ram" (.signalRef 0 1) (.literal (byte 7) 8) }

/-- A memory written on the clock and read asynchronously at `addr`. -/
def ram : IRModule :=
  { signals := [⟨0, .port .portIn, 1⟩, ⟨1, .port .portOut, 8⟩, ⟨2, .port .portIn, 1⟩]
    memories := [⟨"ram", 8, 2⟩]
    clockDomains := [clock]
    asyncBlock := .assignment ⟨1, .memRead "ram" (.signalRef 0 1) 8, .receive, false, 0, 0⟩ }

def fresh : CtxState :=
  { signals := fun i => let v := simValZero (if i = 1 then 8 else 1); ⟨v, v, false⟩
    cells := fun _ _ => simValZero 8
    runtimeError := false
    settleDirty := false
    sigDirty := fun i => i < 3 }

def outputs (chunksOf : IRModule → List SimAsyncChunk) (steps : List EngineStep) : List SimValue :=
  (settleTrace ram chunksOf steps fresh).map fun r => (r.2.signals 1).current

end RamExample

open RamExample in
theorem settleTrace_chunks_eq_ram :
    settleTrace ram buildAsyncChunks
        [.settle, .op (.input 0 (simValZero 1)), .op (.exec clock), .op .commit, .settle] fresh =
      settleTrace ram (fun _ => [])
        [.settle, .op (.input 0 (simValZero 1)), .op (.exec clock), .op .commit, .settle] fresh :=
  settleTrace_chunks_eq ⟨rfl, by simp [buildAsyncChunks, ram]⟩ (by decide)
    (by
      simp only [RunOk, OpOk, and_true]
      refine ⟨fun c hc => Or.inl ?_, fun c hc => Or.inl ?_, fun c hc => Or.inl ?_⟩ <;>
      · obtain rfl : c = _ := List.mem_singleton.mp hc
        decide +kernel)

open RamExample in
/-- A memory write flags no signal, so the asynchronous read of a clean address is skipped. -/
theorem settleTrace_chunks_stale :
    outputs buildAsyncChunks [.settle, .op (.exec clock), .op .commit, .settle] ≠
      outputs (fun _ => []) [.settle, .op (.exec clock), .op .commit, .settle] := by
  decide +kernel

end JzHdl

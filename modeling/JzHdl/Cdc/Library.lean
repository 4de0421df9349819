import JzHdl.Sim.Simultaneous

/-! # CDC library modules

The modules that the compiler builds for clock domain crossings, and a run of
one of them: at every event the inputs are set, the asynchronous block runs, and
the clocks with an edge fire together.
-/

namespace JzHdl

open BitWords

/-! ## Construction -/

def portSignal (id width : ℕ) (dir : IRPortDirection) : IRSignal := ⟨id, .port dir, width⟩

def regSignal (id width : ℕ) : IRSignal := ⟨id, .register ⟨.zero, width, false⟩, width⟩

def netSignal (id width : ℕ) : IRSignal := ⟨id, .net, width⟩

def makeAssignStmt (lhsId : ℕ) (rhs : IRExpr) : IRStmt :=
  .assignment ⟨lhsId, rhs, .drive, false, 0, 0⟩

def makeAliasStmt (lhsId : ℕ) (rhs : IRExpr) : IRStmt :=
  .assignment ⟨lhsId, rhs, .alias, false, 0, 0⟩

/-- An assignment to one bit. -/
def makeBitStmt (lhsId bit : ℕ) (rhs : IRExpr) : IRStmt :=
  .assignment ⟨lhsId, rhs, .drive, true, bit, bit⟩

def makeSlice (signalId msb lsb : ℕ) : IRExpr := .slice signalId msb lsb (msb + 1 - lsb)

def makeLiteral (value width : ℕ) : IRExpr :=
  .literal ⟨Words.set .zero 0 (BitVec.ofNat 64 value), width, false⟩ width

/-- An IF without ELIF and ELSE. -/
def makeIf (condition : IRExpr) (thenStmts : List IRStmt) : IRStmt :=
  .ifStmt condition (.block thenStmts) .null .null

/-- A domain clocked by rising edges. -/
def risingDomain (clock : ℕ) (reset : Option ℕ) (regs : List ℕ) (statements : IRStmt) :
    IRClockDomain :=
  ⟨clock, .rising, regs, reset, .activeHigh, statements⟩

def bitDomain : IRClockDomain := risingDomain 0 none [3, 4] (.block
  [makeAssignStmt 3 (.signalRef 1 1), makeAssignStmt 4 (.signalRef 3 1)])

/-- `sync_ff1` and `sync_ff2` are signals 3 and 4. -/
def buildCdcBitModule : IRModule :=
  { signals := [portSignal 0 1 .portIn, portSignal 1 1 .portIn, portSignal 2 1 .portOut,
      regSignal 3 1, regSignal 4 1]
    memories := []
    clockDomains := [bitDomain]
    asyncBlock := .block [makeAliasStmt 2 (.signalRef 4 1)] }

/-- The bits of `bin_dest`, from the one below `msb` down to bit 0. -/
def cascadeStmts (binDest graySync2 : ℕ) : ℕ → List IRStmt
  | 0 => []
  | i + 1 => makeBitStmt binDest i (.binary .xor (makeSlice binDest (i + 1) (i + 1))
      (makeSlice graySync2 i i) 1) :: cascadeStmts binDest graySync2 i

def busSrcDomain (width : ℕ) : IRClockDomain := risingDomain 0 none [4] (.block
  [makeAssignStmt 4 (.binary .xor (.binary .shr (.signalRef 2 width) (makeLiteral 1 width) width)
    (.signalRef 2 width) width)])

def busDestDomain (width : ℕ) : IRClockDomain := risingDomain 1 none [5, 6] (.block
  [makeAssignStmt 5 (.signalRef 4 width), makeAssignStmt 6 (.signalRef 5 width)])

/-- `gray_src`, `gray_sync1`, `gray_sync2` and `bin_dest` are signals 4 to 7. -/
def buildCdcBusModule (width : ℕ) : IRModule :=
  { signals := [portSignal 0 1 .portIn, portSignal 1 1 .portIn, portSignal 2 width .portIn,
      portSignal 3 width .portOut, regSignal 4 width, regSignal 5 width, regSignal 6 width,
      netSignal 7 width]
    memories := []
    clockDomains := [busSrcDomain width, busDestDomain width]
    asyncBlock := .block (makeBitStmt 7 (width - 1) (makeSlice 6 (width - 1) (width - 1)) ::
      cascadeStmts 7 6 (width - 1) ++ [makeAliasStmt 3 (.signalRef 7 width)]) }

/-- The Gray code of the pointer behind the one in a register. -/
def nextGray (ptrBin : ℕ) : IRExpr :=
  .binary .xor (.binary .shr (.binary .add (.signalRef ptrBin 5) (makeLiteral 1 5) 5)
    (makeLiteral 1 5) 5) (.binary .add (.signalRef ptrBin 5) (makeLiteral 1 5) 5) 5

/-- A domain whose statements stand under an explicit reset of its two registers. -/
def fifoDomain (clock reset reg₁ reg₂ : ℕ) (body : List IRStmt) : IRClockDomain :=
  risingDomain clock (some reset) [reg₁, reg₂] (.ifStmt (.signalRef reset 1)
    (.block [makeAssignStmt reg₁ (makeLiteral 0 5), makeAssignStmt reg₂ (makeLiteral 0 5)])
    .null (.block body))

def fifoWriteDomain (width : ℕ) : IRClockDomain := fifoDomain 0 2 10 11
  [makeIf (.binary .logicalAnd (.signalRef 5 1) (.unary .not (.signalRef 8 1) 1) 1)
    [.memWrite "mem" (makeSlice 10 3 0) (.signalRef 4 width),
      makeAssignStmt 10 (.binary .add (.signalRef 10 5) (makeLiteral 1 5) 5),
      makeAssignStmt 11 (nextGray 10)]]

def fifoReadDomain : IRClockDomain := fifoDomain 1 3 12 13
  [makeIf (.binary .logicalAnd (.signalRef 6 1) (.unary .not (.signalRef 9 1) 1) 1)
    [makeAssignStmt 12 (.binary .add (.signalRef 12 5) (makeLiteral 1 5) 5),
      makeAssignStmt 13 (nextGray 12)]]

def fifoReadSyncDomain : IRClockDomain := fifoDomain 0 2 16 17
  [makeAssignStmt 16 (.signalRef 13 5), makeAssignStmt 17 (.signalRef 16 5)]

def fifoWriteSyncDomain : IRClockDomain := fifoDomain 1 3 14 15
  [makeAssignStmt 14 (.signalRef 11 5), makeAssignStmt 15 (.signalRef 14 5)]

/-- The ports are signals 0 to 9: `clk_wr`, `clk_rd`, `rst_wr`, `rst_rd`, `data_in`, `write_en`,
`read_en`, `data_out`, `full`, `empty`. The pointers in binary and Gray code are 10 and 11 for the
writer, 12 and 13 for the reader, and their synchronisers 14, 15 and 16, 17. -/
def buildCdcFifoModule (width : ℕ) : IRModule :=
  { signals := [portSignal 0 1 .portIn, portSignal 1 1 .portIn, portSignal 2 1 .portIn,
      portSignal 3 1 .portIn, portSignal 4 width .portIn, portSignal 5 1 .portIn,
      portSignal 6 1 .portIn, portSignal 7 width .portOut, portSignal 8 1 .portOut,
      portSignal 9 1 .portOut, regSignal 10 5, regSignal 11 5, regSignal 12 5, regSignal 13 5,
      regSignal 14 5, regSignal 15 5, regSignal 16 5, regSignal 17 5]
    memories := [⟨"mem", width, 16⟩]
    clockDomains := [fifoWriteDomain width, fifoReadDomain, fifoReadSyncDomain,
      fifoWriteSyncDomain]
    asyncBlock := .block
      [makeAliasStmt 7 (.memRead "mem" (makeSlice 12 3 0) width),
        makeAliasStmt 8 (.binary .eq (.signalRef 11 5)
          (.concat [.unary .not (makeSlice 17 4 3) 2, makeSlice 17 2 0]) 1),
        makeAliasStmt 9 (.binary .eq (.signalRef 13 5) (.signalRef 15 5) 1)] }

def notExpr (signalId : ℕ) : IRExpr := .unary .logicalNot (.signalRef signalId 1) 1

def reqAckSrcDomain (width : ℕ) : IRClockDomain := risingDomain 0 none [4, 5, 9, 10] (.block
  [makeAssignStmt 9 (.signalRef 8 1), makeAssignStmt 10 (.signalRef 9 1),
    makeIf (.binary .logicalAnd (notExpr 5) (notExpr 10) 1)
      [makeAssignStmt 4 (.signalRef 2 width), makeAssignStmt 5 (makeLiteral 1 1)],
    makeIf (.signalRef 10 1) [makeAssignStmt 5 (makeLiteral 0 1)]])

def reqAckDestDomain : IRClockDomain := risingDomain 1 none [6, 7, 8] (.block
  [makeAssignStmt 6 (.signalRef 5 1), makeAssignStmt 7 (.signalRef 6 1),
    makeIf (.binary .logicalAnd (.signalRef 7 1) (notExpr 8) 1)
      [makeAssignStmt 8 (makeLiteral 1 1)],
    makeIf (notExpr 7) [makeAssignStmt 8 (makeLiteral 0 1)]])

/-- The modules of the HANDSHAKE and MCP crossings, which differ in names only. The ports are
signals 0 to 3: `clk_src`, `clk_dest`, `data_in`, `data_out`. Behind them come `src_data`, `req_src`,
`req_sync1`, `req_sync2`, `ack_dest`, `ack_sync1` and `ack_sync2`. -/
def buildReqAckModule (width : ℕ) : IRModule :=
  { signals := [portSignal 0 1 .portIn, portSignal 1 1 .portIn, portSignal 2 width .portIn,
      portSignal 3 width .portOut, regSignal 4 width, regSignal 5 1, regSignal 6 1, regSignal 7 1,
      regSignal 8 1, regSignal 9 1, regSignal 10 1]
    memories := []
    clockDomains := [reqAckSrcDomain width, reqAckDestDomain]
    asyncBlock := .block [makeAliasStmt 3 (.signalRef 4 width)] }

def buildCdcHandshakeModule (width : ℕ) : IRModule := buildReqAckModule width

def buildCdcMcpModule (width : ℕ) : IRModule := buildReqAckModule width

def pulseSrcDomain : IRClockDomain := risingDomain 0 none [4] (.block
  [makeIf (.signalRef 2 1) [makeAssignStmt 4 (.unary .not (.signalRef 4 1) 1)]])

def pulseDestDomain : IRClockDomain := risingDomain 1 none [5, 6, 7] (.block
  [makeAssignStmt 5 (.signalRef 4 1), makeAssignStmt 6 (.signalRef 5 1),
    makeAssignStmt 7 (.signalRef 6 1)])

/-- `toggle_src`, `toggle_sync1`, `toggle_sync2` and `toggle_last` are signals 4 to 7. -/
def buildCdcPulseModule : IRModule :=
  { signals := [portSignal 0 1 .portIn, portSignal 1 1 .portIn, portSignal 2 1 .portIn,
      portSignal 3 1 .portOut, regSignal 4 1, regSignal 5 1, regSignal 6 1, regSignal 7 1]
    memories := []
    clockDomains := [pulseSrcDomain, pulseDestDomain]
    asyncBlock := .block [makeAliasStmt 3 (.binary .xor (.signalRef 6 1) (.signalRef 7 1) 1)] }

/-! ## Runs -/

/-- The inputs that are set before the edges of an event, and the clocks that rise. -/
structure LibEvent where

  inputs : List (ℕ × SimValue)

  clocks : List ℕ

/-- Set the inputs and let the asynchronous block follow. -/
def libSettle (m : IRModule) (s : CtxState) (inputs : List (ℕ × SimValue)) : CtxState :=
  simExecStmt m false m.asyncBlock (inputs.foldl (fun s p => s.setCurrent p.1 p.2) s)

/-- The writes of all domains with an edge, evaluated before the edge. -/
def edgeWrites (m : IRModule) (s : CtxState) (clocks : List ℕ) : List Write :=
  (m.clockDomains.filter fun cd => cd.clockSignalId ∈ clocks).flatMap fun cd =>
    domainWrites m s cd

def libStep (m : IRModule) (s : CtxState) (e : LibEvent) : CtxState :=
  let settled := libSettle m s e.inputs
  applyWrites settled (edgeWrites m settled e.clocks)

/-- All signals are 0, and the memory words are given. -/
def libStart (m : IRModule) (cells : ℕ → ℕ → SimValue) : CtxState :=
  let value := fun i => simValZero ((m.signals[i]?).elim 1 IRSignal.width)
  { signals := fun i => ⟨value i, value i, false⟩
    cells := cells
    runtimeError := false
    settleDirty := false
    sigDirty := fun _ => false }

def libRun (m : IRModule) (cells : ℕ → ℕ → SimValue) (es : ℕ → LibEvent) : ℕ → CtxState
  | 0 => libStart m cells
  | n + 1 => libStep m (libRun m cells es n) (es n)

/-- The value of a signal when the asynchronous block has followed the inputs of an event. -/
def signalAt (m : IRModule) (s : CtxState) (inputs : List (ℕ × SimValue)) (i : ℕ) : SimValue :=
  ((libSettle m s inputs).signals i).current

/-- The clocks of the two domains with an edge. -/
def eventClocks (first second : Bool) : List ℕ :=
  (if first then [0] else []) ++ if second then [1] else []

/-- The bit of a known one-bit value. -/
def SimValue.isOne (v : SimValue) : Bool := simValIsTrue v == some true

end JzHdl

import JzHdl.Ir.MemBind

/-! # Lowering of memory writes

A pass appends one IF per bound write port to every clock domain that the port
is not known to be foreign to. The IF tests the enable alone, so it stores only
what is stored anyway exactly when the enable implies a complete guard.
-/

namespace JzHdl

/-! ## Modules -/

structure MemPort where

  name : String

  isWrite : Bool

/-- A module of a family, with the clock domain of every register that has one. -/
structure MemModule where

  ir : IRModule

  homeClockDomain : ℕ → Option ℕ

structure SyncReset where

  signal : ℕ

  width : ℕ

  active : IRResetPolarity

  /-- The assignments that load the registers of the domain. -/
  loads : List IRAssignment

structure SyncBlock where

  reset : Option SyncReset

  body : SyncStmts

/-- A base module and its specialisations. They share the blocks and the ports. -/
structure MemFamily where

  modules : List MemModule

  blocks : List SyncBlock

  ports : String → List MemPort

/-! ## Clock domains -/

def resetCondition (r : SyncReset) : IRExpr :=
  match r.active with
  | .activeHigh => .signalRef r.signal r.width
  | .activeLow => .unary .logicalNot (.signalRef r.signal r.width) 1

/-- The statements of a domain, with the reset around them. -/
def domainStatements (block : SyncBlock) : IRStmt :=
  match block.reset with
  | none => irBuildBlock block.body
  | some r => .ifStmt (resetCondition r) (irMakeBlock (r.loads.map .assignment)) .null
      (irBuildBlock block.body)

/-- The writes of a domain with all their conditions. -/
def domainSites (block : SyncBlock) : List WriteSite :=
  match block.reset with
  | none => sitesOfStmts block.body
  | some r => (sitesOfStmts block.body).map (.under (.fails (resetCondition r)))

/-! ## Appended statements -/

/-- A port with all its signals. -/
structure BoundPort where

  memory : String

  addr : ℕ

  dataIn : ℕ

  enable : ℕ

def MemPortBinding.complete (b : MemPortBinding) (memory : String) : Option BoundPort :=
  match b.addr.bound, b.dataIn.bound, b.enable.bound with
  | some addr, some dataIn, some enable => some ⟨memory, addr, dataIn, enable⟩
  | _, _, _ => Option.none

section

variable (fam : MemFamily)

def MemFamily.bindings : MemPortBindings := bindMemWritePorts (fam.blocks.map SyncBlock.body)

/-- The write ports of a module that are bound completely. -/
def MemFamily.boundPorts (mod : MemModule) : List BoundPort :=
  mod.ir.memories.flatMap fun mem => ((fam.ports mem.name).filter MemPort.isWrite).filterMap
    fun port => (fam.bindings mem.name port.name).complete mem.name

end

/-- A port is foreign to a domain when both its signals are registers of other domains. -/
def MemModule.foreign (mod : MemModule) (cd : ℕ) (p : BoundPort) : Bool :=
  (match mod.homeClockDomain p.addr with
    | some d => d != cd
    | none => false) &&
  match mod.homeClockDomain p.dataIn with
    | some d => d != cd
    | none => false

def MemModule.hasSignals (mod : MemModule) (p : BoundPort) : Bool :=
  (mod.ir.signalOf p.enable).isSome && (mod.ir.signalOf p.addr).isSome &&
    (mod.ir.signalOf p.dataIn).isSome

/-- The ports whose writes are appended to a domain. -/
def MemFamily.appended (fam : MemFamily) (mod : MemModule) (cd : ℕ) : List BoundPort :=
  (fam.boundPorts mod).filter fun p => !mod.foreign cd p && mod.hasSignals p

def MemModule.widthOf (mod : MemModule) (id : ℕ) : ℕ := ((mod.ir.signalOf id).elim 0 IRSignal.width)

def portStmt (mod : MemModule) (p : BoundPort) : IRStmt :=
  .ifStmt (.signalRef p.enable 1) (.memWrite p.memory (.signalRef p.addr (mod.widthOf p.addr))
    (.signalRef p.dataIn (mod.widthOf p.dataIn))) .null .null

/-- The appended tree, guarded by the inactive reset. -/
def memTree (mod : MemModule) (reset : Option SyncReset) (ports : List BoundPort) : IRStmt :=
  match reset with
  | none => .block (ports.map (portStmt mod))
  | some r => .ifStmt (match r.active with
      | .activeHigh => .unary .not (.signalRef r.signal 1) 1
      | .activeLow => .signalRef r.signal 1) (.block (ports.map (portStmt mod))) .null .null

def appendStmt (tree : IRStmt) : IRStmt → IRStmt
  | .null => tree
  | .block stmts => .block (stmts ++ [tree])
  | stmt => .block [stmt, tree]

section

variable (fam : MemFamily)

/-- What one module of the family appends to a domain. -/
def MemFamily.lowerIn (cd : ℕ) (block : SyncBlock) (mod : MemModule) (stmt : IRStmt) : IRStmt :=
  if (fam.appended mod cd).isEmpty then stmt
  else appendStmt (memTree mod block.reset (fam.appended mod cd)) stmt

/-- `ir_lower_memory_writes` on one domain. All modules of a family append to the same tree. -/
def MemFamily.lowered (cd : ℕ) (block : SyncBlock) : IRStmt :=
  fam.modules.foldl (fun stmt mod => fam.lowerIn cd block mod stmt) (domainStatements block)

/-! ## Writes -/

/-- A tree makes a memory write. -/
def MakesWrite (m : IRModule) (s : CtxState) (stmt : IRStmt) (w : Write) : Prop :=
  w ∈ traceWrites (stmtTrace m s stmt) ∧ ∃ i a v, w = .cell i a v

/-- The lowered tree of a domain makes the memory writes of the original one. -/
def MemFamily.SameWrites (m : IRModule) (s : CtxState) (cd : ℕ) (block : SyncBlock) : Prop :=
  ∀ w, MakesWrite m s (fam.lowered cd block) w ↔ MakesWrite m s (domainStatements block) w

/-- The reset of a domain does not hold the appended writes back. -/
def ResetReleased (m : IRModule) (s : CtxState) : Option SyncReset → Prop
  | none => True
  | some r => match r.active with
    | .activeHigh =>
        simValIsTrue (evalUnary .not 1 (evalSignal m s r.signal 1)) = some true
    | .activeLow => simValIsTrue (evalSignal m s r.signal 1) = some true

/-- The write statements of a port offer no address, data and enable but those of `p`. -/
structure MemFamily.Offers (port : MemPort) (p : BoundPort) : Prop where

  addr : OnlySignal ((portOffers (fam.blocks.map SyncBlock.body) p.memory port.name).map
    PortOffer.addr) p.addr

  dataIn : OnlySignal ((portOffers (fam.blocks.map SyncBlock.body) p.memory port.name).map
    PortOffer.dataIn) p.dataIn

  enable : OnlySignal ((portOffers (fam.blocks.map SyncBlock.body) p.memory port.name).map
    PortOffer.enable) p.enable

/-- Take a write port whose statements offer one address, one data signal and one enable, not both
of other domains. Whenever the enable is 1 outside the reset, all conditions of some write
statement hold that stores the same word in the same place. -/
def MemFamily.EnableCovered (m : IRModule) (s : CtxState) (cd : ℕ) (block : SyncBlock) : Prop :=
  ResetReleased m s block.reset → ∀ mod ∈ fam.modules, ∀ mem ∈ mod.ir.memories,
    ∀ port ∈ fam.ports mem.name, port.isWrite = true →
    ∀ p : BoundPort, p.memory = mem.name → fam.Offers port p → mod.foreign cd p = false →
    mod.hasSignals p = true → simValIsTrue (evalSignal m s p.enable 1) = some true →
      ∀ w, Stores m s p.memory (.signalRef p.addr (mod.widthOf p.addr))
        (.signalRef p.dataIn (mod.widthOf p.dataIn)) w →
          ∃ site ∈ domainSites block, site.Writes m s w

end

end JzHdl

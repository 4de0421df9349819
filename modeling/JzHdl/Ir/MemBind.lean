import JzHdl.Sim.Snapshot

/-! # Memory writes of a SYNCHRONOUS block

The statements of a block as the parser leaves them, their lowering to IR, and
the walk that guesses the address, data and enable of every write port. The walk
keeps a condition only when it is a plain identifier.
-/

namespace JzHdl

/-! ## Statements -/

/-- An expression node: an identifier that names a port, a wire, a register or a BUS signal, or any
other expression with the IR it is lowered to. -/
inductive AstOperand where

  | identifier (id width : ℕ)

  | other (e : IRExpr)

namespace AstOperand

def irBuildExpr : AstOperand → IRExpr
  | .identifier id width => .signalRef id width
  | .other e => e

def irExtractSignalId : AstOperand → Option ℕ
  | .identifier id _ => some id
  | .other _ => none

end AstOperand

mutual

/-- A statement. An IF stands together with the ELIF and ELSE siblings that follow it, and a feature
guard knows which branch is active. -/
inductive SyncStmt where

  | assign (assigns : List IRAssignment)

  | memWrite (memory port : String) (address data : AstOperand)

  | ifChain (cond : AstOperand) (body : SyncStmts) (elifs : SyncElifs) (elseBody : SyncStmts)

  | select (selector : AstOperand) (arms : SyncArms)

  | feature (active : Bool) (thenBody elseBody : SyncStmts)

inductive SyncStmts where

  | nil

  | cons (stmt : SyncStmt) (rest : SyncStmts)

inductive SyncElifs where

  | nil

  | cons (cond : AstOperand) (body : SyncStmts) (rest : SyncElifs)

/-- The arms of a SELECT. A missing value is the DEFAULT. -/
inductive SyncArms where

  | nil

  | cons (value : Option AstOperand) (body : SyncStmts) (rest : SyncArms)

end

/-! ## Lowering to IR -/

/-- A block without statements is no block. -/
def irMakeBlock : List IRStmt → IRStmt
  | [] => .null
  | stmts => .block stmts

/-- The value of an arm; the DEFAULT has none. -/
def armValue : Option AstOperand → IRExpr
  | none => .null
  | some value => value.irBuildExpr

mutual

def irBuildStmt : SyncStmt → IRStmt
  | .assign assigns => .block (assigns.map .assignment)
  | .memWrite memory _ address data => .memWrite memory address.irBuildExpr data.irBuildExpr
  | .ifChain cond body elifs elseBody =>
      .ifStmt cond.irBuildExpr (irMakeBlock (irBuildStmts body)) (irBuildElifs elifs)
        (irMakeBlock (irBuildStmts elseBody))
  | .select selector arms => .select selector.irBuildExpr (irBuildArms arms)
  | .feature active thenBody elseBody =>
      irMakeBlock (if active then irBuildStmts thenBody else irBuildStmts elseBody)

def irBuildStmts : SyncStmts → List IRStmt
  | .nil => []
  | .cons stmt rest => irBuildStmt stmt :: irBuildStmts rest

/-- The ELIF branches, linked one behind the other. -/
def irBuildElifs : SyncElifs → IRStmt
  | .nil => .null
  | .cons cond body rest =>
      .ifStmt cond.irBuildExpr (irMakeBlock (irBuildStmts body)) (irBuildElifs rest) .null

def irBuildArms : SyncArms → List (IRExpr × IRStmt)
  | .nil => []
  | .cons value body rest => (armValue value, irMakeBlock (irBuildStmts body)) :: irBuildArms rest

end

/-- `ir_build_block_from_node`. -/
def irBuildBlock (body : SyncStmts) : IRStmt := irMakeBlock (irBuildStmts body)

/-! ## Binding -/

/-- What the walk knows of a signal of a port: nothing, one signal, or a conflict. -/
inductive PortSlot | unbound | signal (id : ℕ) | conflict
  deriving DecidableEq

namespace PortSlot

/-- A second signal is a conflict, which stays one. -/
def add : PortSlot → Option ℕ → PortSlot
  | slot, none => slot
  | .unbound, some id => .signal id
  | .signal id', some id => if id' = id then .signal id' else .conflict
  | .conflict, some _ => .conflict

/-- Conflicts count as unbound in the end. -/
def bound : PortSlot → Option ℕ
  | .signal id => some id
  | _ => none

/-- The signal that the enclosing conditions hand down. A condition that is no plain identifier
leaves it as it is, and one below a conflict starts anew. -/
def gate (slot : PortSlot) (cond : AstOperand) : PortSlot :=
  match cond.irExtractSignalId, slot with
  | none, _ => slot
  | some id, .signal id' => if id' = id then slot else .conflict
  | some id, _ => .signal id

end PortSlot

structure MemPortBinding where

  addr : PortSlot

  dataIn : PortSlot

  enable : PortSlot
  deriving DecidableEq

def MemPortBinding.none : MemPortBinding := ⟨.unbound, .unbound, .unbound⟩

/-- `ir_bind_write_port_candidate`. -/
def MemPortBinding.candidate (b : MemPortBinding) (addr dataIn enable : Option ℕ) : MemPortBinding :=
  ⟨b.addr.add addr, b.dataIn.add dataIn, b.enable.add enable⟩

/-- The bindings of all ports, by the names of memory and port. -/
abbrev MemPortBindings := String → String → MemPortBinding

mutual

/-- `ir_bind_mem_writes_in_stmt`. Both branches of a feature guard are walked. -/
def bindStmt (enable : PortSlot) : SyncStmt → MemPortBindings → MemPortBindings
  | .assign _, b => b
  | .memWrite memory port address data, b => fun memory' port' =>
      if memory' = memory ∧ port' = port then
        (b memory port).candidate address.irExtractSignalId data.irExtractSignalId enable.bound
      else b memory' port'
  | .ifChain cond body elifs elseBody, b =>
      bindStmts enable elseBody (bindElifs enable elifs (bindStmts (enable.gate cond) body b))
  | .select _ arms, b => bindArms enable arms b
  | .feature _ thenBody elseBody, b => bindStmts enable elseBody (bindStmts enable thenBody b)

def bindStmts (enable : PortSlot) : SyncStmts → MemPortBindings → MemPortBindings
  | .nil, b => b
  | .cons stmt rest, b => bindStmts enable rest (bindStmt enable stmt b)

def bindElifs (enable : PortSlot) : SyncElifs → MemPortBindings → MemPortBindings
  | .nil, b => b
  | .cons cond body rest, b => bindElifs enable rest (bindStmts (enable.gate cond) body b)

def bindArms (enable : PortSlot) : SyncArms → MemPortBindings → MemPortBindings
  | .nil, b => b
  | .cons _ body rest, b => bindArms enable rest (bindStmts enable body b)

end

/-- `ir_bind_mem_write_ports_for_module`. -/
def bindMemWritePorts (blocks : List SyncStmts) : MemPortBindings :=
  blocks.foldl (fun b body => bindStmts .unbound body b) fun _ _ => .none

/-! ## Write statements -/

/-- What a write statement offers to its port: the plain identifiers at the places of address and
data, and the enable that the enclosing conditions hand down. -/
structure PortOffer where

  memory : String

  port : String

  addr : Option ℕ

  dataIn : Option ℕ

  enable : Option ℕ

mutual

def offersOfStmt (enable : PortSlot) : SyncStmt → List PortOffer
  | .assign _ => []
  | .memWrite memory port address data =>
      [⟨memory, port, address.irExtractSignalId, data.irExtractSignalId, enable.bound⟩]
  | .ifChain cond body elifs elseBody => offersOfStmts (enable.gate cond) body ++
      offersOfElifs enable elifs ++ offersOfStmts enable elseBody
  | .select _ arms => offersOfArms enable arms
  | .feature _ thenBody elseBody => offersOfStmts enable thenBody ++ offersOfStmts enable elseBody

def offersOfStmts (enable : PortSlot) : SyncStmts → List PortOffer
  | .nil => []
  | .cons stmt rest => offersOfStmt enable stmt ++ offersOfStmts enable rest

def offersOfElifs (enable : PortSlot) : SyncElifs → List PortOffer
  | .nil => []
  | .cons cond body rest => offersOfStmts (enable.gate cond) body ++ offersOfElifs enable rest

def offersOfArms (enable : PortSlot) : SyncArms → List PortOffer
  | .nil => []
  | .cons _ body rest => offersOfStmts enable body ++ offersOfArms enable rest

end

/-- The offers of all write statements of a port. -/
def portOffers (blocks : List SyncStmts) (memory port : String) : List PortOffer :=
  (blocks.flatMap (offersOfStmts .unbound)).filter fun o => o.memory = memory ∧ o.port = port

/-- The one signal that is offered, however often. -/
def OnlySignal (offers : List (Option ℕ)) (id : ℕ) : Prop :=
  some id ∈ offers ∧ ∀ id', some id' ∈ offers → id' = id

/-! ## Guarded writes -/

/-- A condition on the way to a statement. -/
inductive Guard where

  | holds (cond : IRExpr)

  | fails (cond : IRExpr)

  | selects (selector : IRExpr) (before : List IRExpr) (value : IRExpr)

/-- A write statement with all conditions on the way to it. -/
structure WriteSite where

  guards : List Guard

  memory : String

  address : IRExpr

  data : IRExpr

def WriteSite.under (g : Guard) (site : WriteSite) : WriteSite :=
  { site with guards := g :: site.guards }

mutual

def sitesOfStmt : SyncStmt → List WriteSite
  | .assign _ => []
  | .memWrite memory _ address data => [⟨[], memory, address.irBuildExpr, data.irBuildExpr⟩]
  | .ifChain cond body elifs elseBody =>
      (sitesOfStmts body).map (.under (.holds cond.irBuildExpr)) ++
        (sitesOfElifs elifs (sitesOfStmts elseBody)).map (.under (.fails cond.irBuildExpr))
  | .select selector arms => sitesOfArms selector.irBuildExpr [] arms
  | .feature active thenBody elseBody =>
      if active then sitesOfStmts thenBody else sitesOfStmts elseBody

def sitesOfStmts : SyncStmts → List WriteSite
  | .nil => []
  | .cons stmt rest => sitesOfStmt stmt ++ sitesOfStmts rest

/-- The writes of the ELIF branches and, behind all of them, of the ELSE. -/
def sitesOfElifs : SyncElifs → List WriteSite → List WriteSite
  | .nil, elseSites => elseSites
  | .cons cond body rest, elseSites =>
      (sitesOfStmts body).map (.under (.holds cond.irBuildExpr)) ++
        (sitesOfElifs rest elseSites).map (.under (.fails cond.irBuildExpr))

def sitesOfArms (selector : IRExpr) (before : List IRExpr) : SyncArms → List WriteSite
  | .nil => []
  | .cons value body rest =>
      (sitesOfStmts body).map (.under (.selects selector before (armValue value))) ++
        sitesOfArms selector (before ++ [armValue value]) rest

end

section

variable (m : IRModule) (s : CtxState)

/-- An arm of a SELECT with a known selector is taken. -/
def armTaken (v : SimValue) (value : IRExpr) : Prop :=
  value.isNull = true ∨ simValIsTrue (simValEq v (simEvalExpr m s value)) = some true

def Guard.Holds : Guard → Prop
  | .holds cond => simValIsTrue (simEvalExpr m s cond) = some true
  | .fails cond => simValIsTrue (simEvalExpr m s cond) = some false
  | .selects selector before value =>
      simValHasXz (simEvalExpr m s selector) = false ∧
        (∀ e ∈ before, ¬ armTaken m s (simEvalExpr m s selector) e) ∧
          armTaken m s (simEvalExpr m s selector) value

/-- A write statement stores a word: the cell, with its memory and address, and the value. -/
def Stores (memory : String) (address data : IRExpr) (w : Write) : Prop :=
  ∃ i mem a, m.memOf memory = some (i, mem) ∧
    simValueToMemIndex (simEvalExpr m s address) mem.depth = some a ∧
      w = .cell i a (simEvalExpr m s data)

/-- All conditions of a site hold, and it stores the word. -/
def WriteSite.Writes (site : WriteSite) (w : Write) : Prop :=
  (∀ g ∈ site.guards, g.Holds m s) ∧ Stores m s site.memory site.address site.data w

end

end JzHdl

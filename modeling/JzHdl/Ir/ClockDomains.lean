import JzHdl.Ir.Literal
import JzHdl.Ir.MemLowering

/-! # Clock domains

The SYNCHRONOUS blocks of a module become clock domains. A walk with an explicit
stack collects the registers of every block, registers that no block writes are
adopted, and the reset is wrapped around the statements at the end.
-/

namespace JzHdl

open BitWords

/-! ## Register initialisers -/

/-- The initialiser of a register. `specialDriver` is GND, or VCC when the flag is set. -/
inductive RegInit where

  | literal (text : List Char)

  | globalConst (name : List Char)

  | specialDriver (vcc : Bool)

  | absent
  deriving DecidableEq

/-- The constants that literals and global names are resolved with. -/
structure InitScope where

  evalConst : List Char → Option ℕ

  globalConst : List Char → Option IRLiteral

/-- What stands in the record before an initialiser fills it. -/
def emptyLiteral : IRLiteral := ⟨.zero, 0, false⟩

namespace RegInit

/-- The stored reset value. GND and VCC are only remembered by name, beside it. -/
def resetValue (env : InitScope) : RegInit → IRLiteral
  | literal text => (irDecodeSizedLiteral env.evalConst text).getD emptyLiteral
  | globalConst name => (env.globalConst name).getD emptyLiteral
  | specialDriver _ => emptyLiteral
  | absent => emptyLiteral

end RegInit

inductive DeclaredKind where

  | register (init : RegInit)

  | other (kind : IRSignalKind)

/-- A declared signal. Signals that the compiler adds have no source line. -/
structure DeclaredSignal where

  id : ℕ

  width : ℕ

  sourceLine : ℕ

  kind : DeclaredKind

def DeclaredSignal.isRegister (sig : DeclaredSignal) : Bool :=
  match sig.kind with
  | .register _ => true
  | .other _ => false

/-- `ir_build_signals_for_module` on one symbol. -/
def irBuildSignal (env : InitScope) (sig : DeclaredSignal) : IRSignal :=
  match sig.kind with
  | .register init => ⟨sig.id, .register (init.resetValue env), sig.width⟩
  | .other kind => ⟨sig.id, kind, sig.width⟩

/-! ## Block headers -/

inductive SyncParamValue where

  | identifier (name : String)

  | qualified (name : String)

  | other

structure SyncParam where

  name : String

  value : SyncParamValue

inductive SymbolKind | port | wire | register | latch | other
  deriving DecidableEq

/-- A symbol. Its identifier is missing when it is negative in the source. -/
structure ClockSymbol where

  kind : SymbolKind

  id : Option ℕ

inductive IRResetType | clocked | immediate
  deriving DecidableEq, Repr

structure SyncHeader where

  clockSignalId : Option ℕ

  edge : IRClockEdge

  resetSignalId : Option ℕ

  resetActive : IRResetPolarity

  resetType : IRResetType

def SyncHeader.initial : SyncHeader := ⟨none, .rising, none, .activeLow, .clocked⟩

/-- The identifier of a name that is a signal. -/
def headerSignal (lookup : String → Option ClockSymbol) (name : String) : Option ℕ :=
  match lookup name with
  | some ⟨.other, _⟩ => none
  | some ⟨_, id⟩ => id
  | none => none

def SyncParamValue.text : SyncParamValue → Option String
  | identifier name => some name
  | qualified name => some name
  | other => none

def edgeNamed (s : String) : Option IRClockEdge :=
  if s = "RISING" ∨ s = "Rising" then some .rising
  else if s = "FALLING" ∨ s = "Falling" then some .falling
  else if s = "BOTH" ∨ s = "Both" then some .both
  else none

def polarityNamed (s : String) : Option IRResetPolarity :=
  if s = "ACTIVE_LOW" ∨ s = "LOW" ∨ s = "Low" then some .activeLow
  else if s = "ACTIVE_HIGH" ∨ s = "HIGH" ∨ s = "High" then some .activeHigh
  else none

def resetTypeNamed (s : String) : Option IRResetType :=
  if s = "CLOCKED" ∨ s = "Clocked" then some .clocked
  else if s = "IMMEDIATE" ∨ s = "Immediate" then some .immediate
  else none

/-- One parameter of a header. What it does not understand it leaves as it was. -/
def parseSyncParam (lookup : String → Option ClockSymbol) (h : SyncHeader) (p : SyncParam) :
    SyncHeader :=
  if p.name = "CLK" then
    match p.value with
    | .identifier name => { h with clockSignalId := (headerSignal lookup name).or h.clockSignalId }
    | _ => h
  else if p.name = "EDGE" then { h with edge := (p.value.text.bind edgeNamed).getD h.edge }
  else if p.name = "RESET" then
    match p.value with
    | .identifier name => { h with resetSignalId := (headerSignal lookup name).or h.resetSignalId }
    | _ => h
  else if p.name = "RESET_ACTIVE" then
    { h with resetActive := (p.value.text.bind polarityNamed).getD h.resetActive }
  else if p.name = "RESET_TYPE" then
    { h with resetType := (p.value.text.bind resetTypeNamed).getD h.resetType }
  else h

def irParseSyncHeader (lookup : String → Option ClockSymbol) (params : List SyncParam) :
    SyncHeader := params.foldl (parseSyncParam lookup) .initial

/-! ## Collecting the registers of a block -/

/-- A null block is not pushed. -/
def pushed (stmt : IRStmt) : List IRStmt := if stmt.isNull then [] else [stmt]

/-- The blocks of an elif chain. A statement that is no IF ends it. -/
def elifPending : IRStmt → List IRStmt
  | .null => []
  | .ifStmt _ thenBlock elifChain elseBlock =>
      pushed thenBlock ++ pushed elseBlock ++ elifPending elifChain
  | stmt => [stmt]

/-- What a statement puts on the stack, top first. -/
def walkPending : IRStmt → List IRStmt
  | .ifStmt _ thenBlock elifChain elseBlock =>
      pushed thenBlock ++ elifPending elifChain ++ pushed elseBlock
  | .select _ cases => cases.flatMap fun c => pushed c.2
  | .block stmts => stmts
  | _ => []

mutual

/-- The number of statements of a tree. -/
def stmtNodes : IRStmt → ℕ
  | .ifStmt _ thenBlock elifChain elseBlock =>
      1 + stmtNodes thenBlock + stmtNodes elifChain + stmtNodes elseBlock
  | .select _ cases => 1 + caseNodes cases
  | .block stmts => 1 + listNodes stmts
  | _ => 1

def caseNodes : List (IRExpr × IRStmt) → ℕ
  | [] => 0
  | (_, body) :: rest => stmtNodes body + caseNodes rest

def listNodes : List IRStmt → ℕ
  | [] => 0
  | stmt :: rest => stmtNodes stmt + listNodes rest

end

/-- The identifiers found so far and the home domains of the registers. -/
structure RegWalk where

  ids : List ℕ

  home : ℕ → Option ℕ

section

variable (isRegister : ℕ → Bool) (cd : ℕ)

/-- Note the target of one assignment. The first domain that writes a register is its home. -/
def RegWalk.note (acc : RegWalk) (id : ℕ) : RegWalk :=
  if isRegister id then
    ⟨if id ∈ acc.ids then acc.ids else acc.ids ++ [id],
      fun j => if j = id then (acc.home j).or (some cd) else acc.home j⟩
  else acc

def RegWalk.visit (acc : RegWalk) : IRStmt → RegWalk
  | .assignment a => acc.note isRegister cd a.lhsSignalId
  | _ => acc

theorem listNodes_append (xs ys : List IRStmt) :
    listNodes (xs ++ ys) = listNodes xs + listNodes ys := by
  induction xs with
  | nil => rw [List.nil_append, listNodes, Nat.zero_add]
  | cons x rest ih => rw [List.cons_append, listNodes, listNodes, ih, Nat.add_assoc]

theorem listNodes_pushed (stmt : IRStmt) : listNodes (pushed stmt) ≤ stmtNodes stmt := by
  rw [pushed]
  split
  · exact Nat.zero_le _
  · rw [listNodes, listNodes, Nat.add_zero]

theorem listNodes_elifPending : ∀ stmt : IRStmt, listNodes (elifPending stmt) ≤ stmtNodes stmt
  | .null => Nat.zero_le _
  | .ifStmt _ thenBlock elifChain elseBlock => by
      have ih := listNodes_elifPending elifChain
      have hthen := listNodes_pushed thenBlock
      have helse := listNodes_pushed elseBlock
      rw [elifPending, listNodes_append, listNodes_append, stmtNodes]
      omega
  | .assignment _ | .select .. | .block _ | .memWrite .. => by
      rw [elifPending, listNodes, listNodes, Nat.add_zero]
      all_goals nofun

theorem listNodes_cases (cases : List (IRExpr × IRStmt)) :
    listNodes (cases.flatMap fun c => pushed c.2) ≤ caseNodes cases := by
  induction cases with
  | nil => exact Nat.zero_le _
  | cons c rest ih =>
    have hbody := listNodes_pushed c.2
    rw [List.flatMap_cons, listNodes_append, caseNodes]
    exact Nat.add_le_add hbody ih

theorem listNodes_walkPending (stmt : IRStmt) : listNodes (walkPending stmt) < stmtNodes stmt := by
  cases stmt with
  | ifStmt condition thenBlock elifChain elseBlock =>
    have hthen := listNodes_pushed thenBlock
    have helif := listNodes_elifPending elifChain
    have helse := listNodes_pushed elseBlock
    rw [walkPending, listNodes_append, listNodes_append, stmtNodes]
    omega
  | select selector cases =>
    have hcases := listNodes_cases cases
    rw [walkPending, stmtNodes]
    omega
  | block stmts =>
    rw [walkPending, stmtNodes]
    omega
  | null | assignment | memWrite =>
    rw [walkPending, stmtNodes] <;> first | exact Nat.one_pos | nofun

/-- The loop of `ir_collect_register_ids_from_stmt`. -/
def collectLoop (stack : List IRStmt) (acc : RegWalk) : RegWalk :=
  match stack with
  | [] => acc
  | cur :: rest => collectLoop (walkPending cur ++ rest) (acc.visit isRegister cd cur)
termination_by listNodes stack
decreasing_by
  rw [listNodes_append, listNodes]
  have := listNodes_walkPending cur
  omega

def irCollectRegisterIds (stmt : IRStmt) (home : ℕ → Option ℕ) : RegWalk :=
  collectLoop isRegister cd (pushed stmt) ⟨[], home⟩

end

/-! ## Building the domains -/

structure SyncBlockNode where

  params : List SyncParam

  body : SyncStmts

structure ClockDomain where

  header : SyncHeader

  registerIds : List ℕ

  statements : IRStmt

/-- A module as the builder finds it, with distinct identifiers and registers of a positive
width. -/
structure ClockModule where

  env : InitScope

  lookup : String → Option ClockSymbol

  signals : List DeclaredSignal

  blocks : List SyncBlockNode

  ids_nodup : (signals.map DeclaredSignal.id).Nodup

  width_pos : ∀ sig ∈ signals, 0 < sig.width

/-- Append a register to the first domain with a reset. -/
def adoptInto : List ClockDomain → ℕ → List ClockDomain
  | [], _ => []
  | cd :: rest, id =>
    if cd.header.resetSignalId.isSome then
      { cd with registerIds := cd.registerIds ++ [id] } :: rest
    else cd :: adoptInto rest id

namespace ClockModule

variable (mod : ClockModule)

def irSignals : List IRSignal := mod.signals.map (irBuildSignal mod.env)

def findSignal (id : ℕ) : Option DeclaredSignal := mod.signals.find? fun sig => sig.id == id

def isRegister (id : ℕ) : Bool := (mod.findSignal id).any DeclaredSignal.isRegister

def header (b : SyncBlockNode) : SyncHeader := irParseSyncHeader mod.lookup b.params

/-- The first pass: the statements of every block and the registers they write. -/
def collectDomains : List SyncBlockNode → ℕ → (ℕ → Option ℕ) → List ClockDomain × (ℕ → Option ℕ)
  | [], _, home => ([], home)
  | b :: rest, d, home =>
    let walk := irCollectRegisterIds mod.isRegister d (irBuildBlock b.body) home
    let tail := collectDomains rest (d + 1) walk.home
    (⟨mod.header b, walk.ids, irBuildBlock b.body⟩ :: tail.1, tail.2)

/-- A register with a reset value that the source declares and no block writes. -/
def orphan (home : ℕ → Option ℕ) (sig : DeclaredSignal) : Bool :=
  match sig.kind with
  | .register init =>
    (home sig.id).isNone && decide (0 < (init.resetValue mod.env).width) &&
      decide (0 < sig.sourceLine)
  | .other _ => false

/-- The second pass over the signals. -/
def adopt (domains : List ClockDomain) (home : ℕ → Option ℕ) : List ClockDomain :=
  mod.signals.foldl (fun ds sig => if mod.orphan home sig then adoptInto ds sig.id else ds) domains

/-- The reset value as an expression of its own width. -/
def resetLiteral (lit : IRLiteral) : IRExpr := .literal lit lit.width

/-- `ir_build_reset_assignments_block` for one register. -/
def resetLoad (id : ℕ) : IRAssignment :=
  { lhsSignalId := id
    rhs := match mod.findSignal id with
      | some ⟨_, _, _, .register init⟩ => resetLiteral (init.resetValue mod.env)
      | _ => .null
    kind := .receive
    isSliced := false
    lhsMsb := 0
    lhsLsb := 0 }

/-- The reset of a header, with the loads of the registers of its domain. -/
def resetOf (h : SyncHeader) (ids : List ℕ) : Option SyncReset :=
  h.resetSignalId.map fun id =>
    ⟨id, widthOr ((mod.findSignal id).elim 0 DeclaredSignal.width) 1, h.resetActive,
      ids.map mod.resetLoad⟩

/-- `ir_wrap_sync_block_with_reset`. -/
def wrap (cd : ClockDomain) (body : SyncStmts) : ClockDomain :=
  { cd with statements := domainStatements ⟨mod.resetOf cd.header cd.registerIds, body⟩ }

/-- `ir_build_clock_domains_for_module`. -/
def buildClockDomains : List ClockDomain :=
  let collected := mod.collectDomains mod.blocks 0 fun _ => none
  List.zipWith mod.wrap (mod.adopt collected.1 collected.2) (mod.blocks.map SyncBlockNode.body)

end ClockModule

end JzHdl

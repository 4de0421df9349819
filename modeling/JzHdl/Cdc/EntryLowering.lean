import JzHdl.Cdc.FifoEnable
import JzHdl.Cdc.Synchroniser

/-! # Lowering of CDC entries

Every CDC entry becomes an instance of a library module, or an assignment where
it is RAW. The enables and the inverted resets of a FIFO are wires behind the
signals of the module, and assignments go to the end of an asynchronous block
that a module may share with its specialisations.
-/

namespace JzHdl

/-! ## Modules and entries -/

inductive CdcType | bit | bus | fifo | handshake | pulse | mcp | raw
  deriving DecidableEq

structure CdcSignal where

  id : ℕ

  name : List Char

  width : ℕ
  deriving DecidableEq

/-- An entry of a module. The clocks are the identifiers of their ports. -/
structure CdcEntry where

  type : CdcType

  sourceReg : ℕ

  sourceSlice : Option (ℕ × ℕ)

  srcClk : ℕ

  destAlias : List Char

  destClk : ℕ
  deriving DecidableEq

structure CdcConnection where

  parentSignalId : Option ℕ

  childPortId : ℕ

  parentSlice : Option (ℕ × ℕ)

  constExpr : Option String
  deriving DecidableEq

structure CdcInstance where

  id : ℕ

  name : List Char

  childModuleId : ℕ

  connections : List CdcConnection
  deriving DecidableEq

/-- A module refers to its asynchronous block, and to an empty one of its own when it has none. -/
structure CdcModule where

  signals : List CdcSignal

  domains : List IRClockDomain

  instances : List CdcInstance

  block : ℕ

  entries : List CdcEntry

/-- The signals and instances of a module that is being lowered, and the assignments for its
asynchronous block. -/
structure LowerState where

  signals : List CdcSignal

  stmts : List IRStmt

  instances : List CdcInstance

/-! ## Lookups -/

/-- `lib_find_signal_by_name`. -/
def aliasSignal (signals : List CdcSignal) (name : List Char) : Option ℕ :=
  (signals.find? fun s => s.name == name).map CdcSignal.id

/-- The number of bits that an entry carries. -/
def entryWidth (signals : List CdcSignal) (e : CdcEntry) : ℕ :=
  match signals.find? fun s => s.id == e.sourceReg with
  | none => 1
  | some s => max 1 (match e.sourceSlice with
    | some (msb, lsb) => msb + 1 - lsb
    | none => s.width)

/-- The domain that a clock port clocks, found when the entry is built. -/
def entryDomain (domains : List IRClockDomain) (clk : ℕ) : Option IRClockDomain :=
  (domainOf domains clk).bind fun i => domains[i]?

def entryClock (domains : List IRClockDomain) (clk : ℕ) : Option ℕ :=
  clockSignalOf domains (domainOf domains clk)

/-! ## Library modules -/

/-- `width_set_add`. -/
def widthSetAdd (widths : List ℕ) (w : ℕ) : List ℕ := if w ∈ widths then widths else widths ++ [w]

def cdcWidths (modules : List CdcModule) (type : CdcType) : List ℕ :=
  (modules.flatMap fun m => (m.entries.filter (·.type == type)).map
    (entryWidth m.signals)).foldl widthSetAdd []

def cdcNeeded (modules : List CdcModule) (type : CdcType) : Bool :=
  modules.any fun m => m.entries.any (·.type == type)

/-- The types and widths of the library modules behind the modules of a design. -/
def cdcLibrary (modules : List CdcModule) : List (CdcType × ℕ) :=
  ([CdcType.bit, .pulse].filter (cdcNeeded modules)).map (·, 1) ++
    [CdcType.bus, .fifo, .handshake, .mcp].flatMap fun t => (cdcWidths modules t).map (t, ·)

/-- The module that is built for a type and a width. RAW has none. -/
def libraryBody : CdcType → ℕ → Option IRModule
  | .bit, _ => some buildCdcBitModule
  | .bus, w => some (buildCdcBusModule w)
  | .fifo, w => some (buildCdcFifoModule w)
  | .handshake, w => some (buildCdcHandshakeModule w)
  | .pulse, _ => some buildCdcPulseModule
  | .mcp, w => some (buildCdcMcpModule w)
  | .raw, _ => none

/-- The library module of an entry. BIT and PULSE have one module each. -/
def libraryKey (signals : List CdcSignal) (e : CdcEntry) : CdcType × ℕ :=
  match e.type with
  | .bit => (.bit, 1)
  | .pulse => (.pulse, 1)
  | t => (t, entryWidth signals e)

/-! ## Instances -/

def parentConn (parent : Option ℕ) (port : ℕ) : CdcConnection := ⟨parent, port, none, none⟩

def sourceConn (e : CdcEntry) (port : ℕ) : CdcConnection :=
  ⟨some e.sourceReg, port, e.sourceSlice, none⟩

/-- A connection to a signal, or to a constant. -/
def parentOrConst (parent : Option ℕ) (port : ℕ) (const : String) : CdcConnection :=
  if parent.isSome then parentConn parent port else ⟨none, port, none, some const⟩

/-- Texts are cut to the buffer of 128 bytes. -/
def cdcName (pre : String) (destAlias : List Char) (suffix : String) : List Char :=
  (pre.toList ++ destAlias ++ suffix.toList).take 127

section

variable (m : CdcModule) (child : ℕ) (e : CdcEntry) (s : LowerState)

def addInstance (pre : String) (connections : List CdcConnection) : LowerState :=
  { s with instances := s.instances ++
      [⟨s.instances.length, cdcName pre e.destAlias "", child, connections⟩] }

def lowerCdcBitEntry : LowerState := addInstance child e s "u_cdc_bit_"
  [parentConn (entryClock m.domains e.destClk) 0, sourceConn e 1,
    parentConn (aliasSignal s.signals e.destAlias) 2]

/-- The instances with two clocks, a data input and a data output. -/
def lowerTwoClocks (pre : String) : LowerState := addInstance child e s pre
  [parentConn (entryClock m.domains e.srcClk) 0, parentConn (entryClock m.domains e.destClk) 1,
    sourceConn e 2, parentConn (aliasSignal s.signals e.destAlias) 3]

def lowerCdcBusEntry : LowerState := lowerTwoClocks m child e s "u_cdc_bus_"

def lowerCdcHandshakeEntry : LowerState := lowerTwoClocks m child e s "u_cdc_handshake_"

def lowerCdcPulseEntry : LowerState := lowerTwoClocks m child e s "u_cdc_pulse_"

def lowerCdcMcpEntry : LowerState := lowerTwoClocks m child e s "u_cdc_mcp_"

/-! ## FIFO entries -/

/-- `fifo_add_wire` and `fifo_add_async_assign`: the identifier of a wire is the number of
signals before it. -/
def fifoAddWire (name : List Char) (rhs : IRExpr) : LowerState :=
  { s with
    signals := s.signals ++ [⟨s.signals.length, name, 1⟩]
    stmts := s.stmts ++ [makeAliasStmt s.signals.length rhs] }

/-- A wire, when there is something to assign to it. -/
def fifoWire (name : List Char) (rhs : Option IRExpr) : LowerState :=
  match rhs with
  | none => s
  | some rhs => fifoAddWire s name rhs

def fifoWireId (rhs : Option IRExpr) : Option ℕ := rhs.map fun _ => s.signals.length

end

/-- The enable from the statements of a domain, unless there is none or it is always one. -/
def enableRhs (domain : Option IRClockDomain) (sigId : ℕ) (isWrite : Bool) : Option IRExpr :=
  domain.bind fun cd =>
    match fifoDeriveEnable sigId isWrite cd.statements with
    | .null => none
    | .literal lit width => if lit.words 0 = 1 then none else some (.literal lit width)
    | rhs => some rhs

/-- The ports of a FIFO are reset by ones. -/
def invertedReset (domain : Option IRClockDomain) : Option IRExpr :=
  domain.bind fun cd => cd.resetSignalId.bind fun r =>
    if cd.resetActive = .activeLow then some (.unary .not (.signalRef r 1) 1) else none

def plainReset (domain : Option IRClockDomain) : Option ℕ :=
  domain.bind fun cd => if cd.resetActive = .activeLow then none else cd.resetSignalId

section

variable (m : CdcModule) (child : ℕ) (e : CdcEntry) (s : LowerState)

def fifoWriteEnable : LowerState :=
  fifoWire s (cdcName "_fifo_" e.destAlias "_wr_en")
    (enableRhs (entryDomain m.domains e.srcClk) e.sourceReg true)

def readRhs (signals : List CdcSignal) : Option IRExpr :=
  (aliasSignal signals e.destAlias).bind fun a =>
    enableRhs (entryDomain m.domains e.destClk) a false

def fifoReadEnable : LowerState :=
  fifoWire s (cdcName "_fifo_" e.destAlias "_rd_en") (readRhs m e s.signals)

def fifoWriteReset : LowerState :=
  fifoWire s (cdcName "_fifo_" e.destAlias "_rst_wr")
    (invertedReset (entryDomain m.domains e.srcClk))

def fifoReadReset : LowerState :=
  fifoWire s (cdcName "_fifo_" e.destAlias "_rst_rd")
    (invertedReset (entryDomain m.domains e.destClk))

def lowerCdcFifoEntry : LowerState :=
  let s₁ := fifoWriteEnable m e s
  let s₂ := fifoReadEnable m e s₁
  let s₃ := fifoWriteReset m e s₂
  let s₄ := fifoReadReset m e s₃
  let src := entryDomain m.domains e.srcClk
  let dst := entryDomain m.domains e.destClk
  addInstance child e s₄ "u_cdc_fifo_"
    [parentConn (entryClock m.domains e.srcClk) 0, parentConn (entryClock m.domains e.destClk) 1,
      parentOrConst ((fifoWireId s₂ (invertedReset src)).or (plainReset src)) 2 "1'b0",
      parentOrConst ((fifoWireId s₃ (invertedReset dst)).or (plainReset dst)) 3 "1'b0",
      sourceConn e 4,
      parentOrConst (fifoWireId s (enableRhs src e.sourceReg true)) 5 "1'b1",
      parentOrConst (fifoWireId s₁ (readRhs m e s₁.signals)) 6 "1'b1",
      parentConn (aliasSignal s₄.signals e.destAlias) 7]

/-! ## Entries of all types -/

def rawRhs (signals : List CdcSignal) : IRExpr :=
  match e.sourceSlice with
  | some (msb, lsb) => makeSlice e.sourceReg msb lsb
  | none => .signalRef e.sourceReg (entryWidth signals e)

def lowerCdcRawEntry : LowerState :=
  match aliasSignal s.signals e.destAlias with
  | none => s
  | some a => { s with stmts := s.stmts ++ [makeAliasStmt a (rawRhs e s.signals)] }

/-- One entry, with the library behind a number of modules. -/
def lowerEntry (old : ℕ) (library : List (CdcType × ℕ)) (s : LowerState) (e : CdcEntry) :
    LowerState :=
  match e.type with
  | .raw => lowerCdcRawEntry e s
  | type =>
    match library.findIdx? fun key => key == libraryKey s.signals e with
    | none => s
    | some k =>
      match type with
      | .bit => lowerCdcBitEntry m (old + k) e s
      | .bus => lowerCdcBusEntry m (old + k) e s
      | .fifo => lowerCdcFifoEntry m (old + k) e s
      | .handshake => lowerCdcHandshakeEntry m (old + k) e s
      | .pulse => lowerCdcPulseEntry m (old + k) e s
      | .mcp => lowerCdcMcpEntry m (old + k) e s
      | .raw => s

def lowerModule (old : ℕ) (library : List (CdcType × ℕ)) : LowerState :=
  m.entries.foldl (lowerEntry m old library) ⟨m.signals, [], m.instances⟩

end

/-! ## Designs -/

/-- A design whose CDC entries have passed the checks. Specialisations share the block, the
entries and the names of the module that they specialise. -/
structure CdcDesign where

  modules : List CdcModule

  blocks : ℕ → List IRStmt

  ids : ∀ m ∈ modules, (m.signals.map CdcSignal.id).Nodup

  sources : ∀ m ∈ modules, ∀ e ∈ m.entries, ∃ s ∈ m.signals, s.id = e.sourceReg

  aliases : ∀ m ∈ modules, ∀ e ∈ m.entries, ∃ s ∈ m.signals, s.name = e.destAlias

  distinct : ∀ m ∈ modules, (m.entries.map CdcEntry.destAlias).Nodup

  narrow : ∀ m ∈ modules, ∀ e ∈ m.entries, e.type = .bit ∨ e.type = .pulse →
    entryWidth m.signals e = 1

  shared : ∀ m ∈ modules, ∀ p ∈ modules, p.block = m.block → p.entries = m.entries ∧
    p.signals.map (fun s => (s.id, s.name)) = m.signals.map fun s => (s.id, s.name)

namespace CdcDesign

variable (d : CdcDesign)

def library : List (CdcType × ℕ) := cdcLibrary d.modules

/-- The signals, assignments and instances of a module after `ir_build_library_modules`. -/
def lowered (m : CdcModule) : LowerState := lowerModule m d.modules.length d.library

/-- The asynchronous blocks after `ir_build_library_modules`. -/
def loweredBlocks : ℕ → List IRStmt :=
  d.modules.foldl (fun blocks m =>
    Function.update blocks m.block (blocks m.block ++ (d.lowered m).stmts)) d.blocks

end CdcDesign

end JzHdl

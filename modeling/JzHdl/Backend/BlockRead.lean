import JzHdl.Backend.BlockMem
import JzHdl.Backend.Process
import JzHdl.Sim.Engine
import JzHdl.Sim.RegisterFrame
import JzHdl.Sim.Snapshot

/-! # Registered reads of block memories

The simulator reads a block memory through the address that a port has
captured. The backend prints one register for each memory instead, which reads
on every edge at the first address that the clock domain captures.
-/

namespace JzHdl

/-! ## What is printed -/

/-- An expression that is perhaps missing, with the depth flag of the search for it. -/
def CaptureRhs : Type := IRExpr × Bool

/-- The next place is searched when nothing is found. -/
def CaptureRhs.orElse (a b : CaptureRhs) : CaptureRhs :=
  if a.1.isNull then (b.1, a.2 || b.2) else a

section

variable (addrReg : ℕ)

mutual

/-- The first right-hand side other than a literal that the register is assigned, and whether the
depth limit was met. -/
def findAddrCaptureRhs : IRStmt → ℕ → CaptureRhs
  | .null, _ => (.null, false)
  | .assignment _, 0 | .ifStmt .., 0 | .select .., 0 | .block _, 0 | .memWrite .., 0 =>
    (.null, true)
  | .assignment a, _ + 1 =>
    match a.rhs with
    | .literal .. => (.null, false)
    | rhs => (if a.lhsSignalId = addrReg then rhs else .null, false)
  | .ifStmt _ thenBlock elifChain elseBlock, room + 1 =>
    ((findAddrCaptureRhs thenBlock room).orElse (findAddrCaptureRhs elifChain room)).orElse
      (findAddrCaptureRhs elseBlock room)
  | .select _ cases, room + 1 => findCasesCaptureRhs cases room
  | .block stmts, room + 1 => findStmtsCaptureRhs stmts room
  | .memWrite .., _ + 1 => (.null, false)

def findCasesCaptureRhs : List (IRExpr × IRStmt) → ℕ → CaptureRhs
  | [], _ => (.null, false)
  | (_, body) :: rest, room =>
    (findAddrCaptureRhs body room).orElse (findCasesCaptureRhs rest room)

def findStmtsCaptureRhs : List IRStmt → ℕ → CaptureRhs
  | [], _ => (.null, false)
  | stmt :: rest, room =>
    (findAddrCaptureRhs stmt room).orElse (findStmtsCaptureRhs rest room)

end

end

/-- A port of a memory, with the register that holds its address. -/
structure IRMemoryPort where

  memoryName : String

  isBlock : Bool

  isReadSync : Bool

  addrRegSignalId : Option ℕ

  syncClockDomainId : Option ℕ

def jzMaxIrStmtDepth : ℕ := 512

/-- The always block of a port in a clock domain: the memory, and the address that is read. -/
def emitBsramRead (d : ℕ) (statements : IRStmt) (port : IRMemoryPort) :
    Option (IRMemoryPort × IRExpr) :=
  if !port.isBlock || !port.isReadSync then none
  else
    match port.addrRegSignalId with
    | none => none
    | some addrReg =>
      if port.syncClockDomainId.any (· ≠ d) then none
      else
        let (rhs, depthHit) := findAddrCaptureRhs addrReg statements jzMaxIrStmtDepth
        if rhs.isNull || depthHit then none else some (port, rhs)

/-- The ports of all memories in the order of their declarations. -/
def emitBsramReadBlocks (ports : List IRMemoryPort) (d : ℕ) (statements : IRStmt) :
    List (IRMemoryPort × IRExpr) := ports.filterMap (emitBsramRead d statements)

/-! ## Runs -/

/-- The simulated state and the read registers, one for each memory. -/
structure ReadState where

  sim : CtxState

  bsramOut : String → SimValue

section

variable (m : IRModule) (ports : List IRMemoryPort)

/-- The read registers after an edge. -/
def bsramStep (d : ℕ) (cd : IRClockDomain) (x : ReadState) (name : String) : SimValue :=
  (emitBsramReadBlocks ports d cd.statements).foldl (fun v block =>
    if block.1.memoryName = name then evalMemRead m x.sim name 0 (simEvalExpr m x.sim block.2)
    else v) (x.bsramOut name)

/-- An edge of a clock domain in or out of reset, or a change of the state by anything else: inputs,
a settle, or domains of other modules. -/
inductive ReadEvent where

  | edge (d : ℕ)

  | reset (d : ℕ)

  | other (s : CtxState)

def readStep (x : ReadState) : ReadEvent → ReadState
  | .edge d =>
    match m.clockDomains[d]? with
    | none => x
    | some cd => ⟨simCtxApplyNba m (simExecSyncDomain m cd x.sim), bsramStep m ports d cd x⟩
  | .reset d =>
    match m.clockDomains[d]? with
    | none => x
    | some cd => ⟨simApplyDomainReset m cd x.sim, bsramStep m ports d cd x⟩
  | .other s => ⟨s, x.bsramOut⟩

def readRun (x : ReadState) (events : List ReadEvent) : ReadState :=
  events.foldl (readStep m ports) x

end

/-! ## A port of its own -/

/-- A port that reads through its own register: no other port of the memory is printed with a
register in any domain. -/
structure SoleReadPort (m : IRModule) (ports : List IRMemoryPort) where

  port : IRMemoryPort

  domain : ℕ

  rhs : IRExpr

  memory : ℕ

  mem : IRMemory

  addrReg : ℕ

  addrIndex : ℕ

  memOf : m.memOf port.memoryName = some (memory, mem)

  addrRegId : port.addrRegSignalId = some addrReg

  sigIndex : m.sigIndex addrReg = some addrIndex

  printed : ∀ d cd, m.clockDomains[d]? = some cd →
    (emitBsramReadBlocks ports d cd.statements).filter
      (fun block => decide (block.1.memoryName = port.memoryName)) =
        if d = domain then [(port, rhs)] else []

namespace SoleReadPort

variable {m : IRModule} {ports : List IRMemoryPort} (P : SoleReadPort m ports)

/-- The word that an address selects. -/
def indexOf (v : SimValue) : Option ℕ :=
  if simValHasXz v then none else simValueToMemIndex v P.mem.depth

def capturedIndex (s : CtxState) : Option ℕ := P.indexOf (s.signals P.addrIndex).current

def foundIndex (s : CtxState) : Option ℕ := P.indexOf (simEvalExpr m s P.rhs)

def wordAt (s : CtxState) (i : Option ℕ) : SimValue :=
  match i with
  | none => simValAllX P.mem.wordWidth
  | some a => s.cells P.memory a

/-- The register holds the word that the simulator reads through the port. -/
def ReadsMeet (x : ReadState) : Prop :=
  ∀ addressWidth wordWidth, simEvalExpr m x.sim
    (.memRead P.port.memoryName (.signalRef P.addrReg addressWidth) wordWidth) =
      x.bsramOut P.port.memoryName

/-! ## When a step keeps the two together -/

/-- What an edge leaves in a register: the whole and partial writes in order. -/
def lastWrite (i : ℕ) : List Write → SimValue → SimValue
  | [], v => v
  | .reg j slice r :: rest, v =>
    lastWrite i rest <| if j = i then
        match slice with
        | none => r
        | some (msb, lsb) => writeSlice v r msb lsb
      else v
  | .cell .. :: rest, v => lastWrite i rest v

/-- On an edge of its domain the port captures the address that the printed block reads, and the
edge does not write the word there. -/
structure CaptureMeets (cd : IRClockDomain) (s : CtxState) : Prop where

  clear : TraceClear m s [] [] (stmtTrace m s cd.statements)

  idle : ∀ i, (s.signals i).hasPending = false

  captured : P.indexOf (lastWrite P.addrIndex (traceWrites (stmtTrace m s cd.statements))
    (s.signals P.addrIndex).current) = P.foundIndex s

  unwritten : ∀ a, P.foundIndex s = some a →
    (P.memory, a) ∉ writesCells (traceWrites (stmtTrace m s cd.statements))

/-- A change that leaves the captured address and the word there. -/
structure Keeps (s s' : CtxState) : Prop where

  address : P.capturedIndex s' = P.capturedIndex s

  word : ∀ a, P.capturedIndex s = some a → s'.cells P.memory a = s.cells P.memory a

def StepMeets (x : ReadState) : ReadEvent → Prop
  | .edge d => ∀ cd, m.clockDomains[d]? = some cd →
    if d = P.domain then P.CaptureMeets cd x.sim
    else P.Keeps x.sim (simCtxApplyNba m (simExecSyncDomain m cd x.sim))
  | .reset d => ∀ cd, m.clockDomains[d]? = some cd →
    if d = P.domain then P.capturedIndex (simApplyDomainReset m cd x.sim) = P.foundIndex x.sim
    else P.Keeps x.sim (simApplyDomainReset m cd x.sim)
  | .other s => P.Keeps x.sim s

/-- Every step of a run meets its condition. -/
def RunMeets : ReadState → List ReadEvent → Prop
  | _, [] => True
  | x, e :: rest => P.StepMeets x e ∧ RunMeets (readStep m ports x e) rest

/-- An edge of the domain that reads through the port. -/
def Fires (e : ReadEvent) : Prop :=
  (e = .edge P.domain ∨ e = .reset P.domain) ∧ P.domain < m.clockDomains.length

variable {P} {x : ReadState} {s s' : CtxState}

theorem evalMemRead_eq (v : SimValue) (w : ℕ) :
    evalMemRead m s P.port.memoryName w v = P.wordAt s (P.indexOf v) := by
  rw [evalMemRead, P.memOf, indexOf]
  dsimp only
  split
  · rfl
  · unfold wordAt
    rfl

theorem readsMeet_iff :
    P.ReadsMeet x ↔ P.wordAt x.sim (P.capturedIndex x.sim) = x.bsramOut P.port.memoryName := by
  have hread : ∀ addressWidth wordWidth, simEvalExpr m x.sim
      (.memRead P.port.memoryName (.signalRef P.addrReg addressWidth) wordWidth) =
        P.wordAt x.sim (P.capturedIndex x.sim) := by
    intro addressWidth wordWidth
    rw [simEvalExpr, simEvalExpr, evalSignal, P.sigIndex]
    exact evalMemRead_eq _ _
  exact ⟨fun h => (hread 0 0).symm.trans (h 0 0), fun h aw ww => (hread aw ww).trans h⟩

theorem wordAt_congr {i : Option ℕ}
    (h : ∀ a, i = some a → s'.cells P.memory a = s.cells P.memory a) :
    P.wordAt s' i = P.wordAt s i := by
  cases i with
  | none => rfl
  | some a => exact h a rfl

/-- Only the block of the port drives its register, on the edges of its domain. -/
theorem bsramStep_eq {d : ℕ} {cd : IRClockDomain} (hd : m.clockDomains[d]? = some cd) :
    bsramStep m ports d cd x P.port.memoryName =
      if d = P.domain then P.wordAt x.sim (P.foundIndex x.sim)
      else x.bsramOut P.port.memoryName := by
  have hskip : ∀ (blocks : List (IRMemoryPort × IRExpr)) (v : SimValue),
      blocks.foldl (fun v block => if block.1.memoryName = P.port.memoryName then
        evalMemRead m x.sim P.port.memoryName 0 (simEvalExpr m x.sim block.2) else v) v =
      (blocks.filter fun block => decide (block.1.memoryName = P.port.memoryName)).foldl
        (fun _ block => evalMemRead m x.sim P.port.memoryName 0 (simEvalExpr m x.sim block.2))
        v := by
    intro blocks
    induction blocks with
    | nil => intro v; rfl
    | cons block rest ih =>
      intro v
      by_cases h : block.1.memoryName = P.port.memoryName
      · rw [List.foldl_cons, if_pos h, List.filter_cons_of_pos (by simpa using h),
          List.foldl_cons, ih]
      · rw [List.foldl_cons, if_neg h, List.filter_cons_of_neg (by simpa using h), ih]
  rw [bsramStep, hskip, P.printed d cd hd]
  split
  · rw [List.foldl_cons, List.foldl_nil]
    exact evalMemRead_eq _ _
  · rfl

theorem lastWrite_stageAll (i : ℕ) : ∀ (ws : List Write) (t : CtxState),
    Rtlil.committed ((stageAll t ws).signals i) =
      lastWrite i ws (Rtlil.committed (t.signals i))
  | [], t => rfl
  | .cell mem a v :: rest, t => lastWrite_stageAll i rest _
  | .reg j slice r :: rest, t => by
      refine (lastWrite_stageAll i rest (stageOne t (.reg j slice r))).trans ?_
      refine congrArg (lastWrite i rest) ?_
      by_cases hj : j = i
      · subst hj
        rw [if_pos rfl]
        cases slice <;> simp [stageOne, CtxState.setEntry, Rtlil.committed]
      · rw [if_neg hj]
        simp [stageOne, CtxState.setEntry, Ne.symm hj]

/-- After an edge the address register holds its last write. -/
theorem capturedIndex_edge {cd : IRClockDomain} (h : P.CaptureMeets cd s) :
    P.capturedIndex (simCtxApplyNba m (simExecSyncDomain m cd s)) = P.foundIndex s := by
  have halike := exec_trace cd.statements ⟨fun _ _ => rfl, fun _ _ => rfl⟩ h.clear
  rw [capturedIndex, ← h.captured, simCtxApplyNba_signals,
    if_pos (IRModule.sigIndex_lt P.sigIndex), simExecSyncDomain, halike.signals]
  have hlast := lastWrite_stageAll P.addrIndex (traceWrites (stmtTrace m s cd.statements)) s
  have hstart : Rtlil.committed (s.signals P.addrIndex) = (s.signals P.addrIndex).current := by
    rw [Rtlil.committed, h.idle, if_neg Bool.false_ne_true]
  rw [← hstart, ← hlast, SimSignalEntry.commit, Rtlil.committed]
  split <;> rfl

theorem cells_edge {cd : IRClockDomain} (h : P.CaptureMeets cd s) {a : ℕ}
    (ha : P.foundIndex s = some a) :
    (simCtxApplyNba m (simExecSyncDomain m cd s)).cells P.memory a = s.cells P.memory a := by
  have halike := exec_trace cd.statements ⟨fun _ _ => rfl, fun _ _ => rfl⟩ h.clear
  rw [simCtxApplyNba_cells, simExecSyncDomain, halike.cells]
  exact stageAll_cells _ s (P.memory, a) (h.unwritten a ha)

theorem cells_resetRegister (s : CtxState) (id : ℕ) :
    (resetRegister m s id).cells = s.cells := by
  unfold resetRegister
  split
  · split <;> rfl
  · rfl

theorem cells_simApplyDomainReset (cd : IRClockDomain) (s : CtxState) :
    (simApplyDomainReset m cd s).cells = s.cells := by
  rw [simApplyDomainReset]
  induction cd.registerIds generalizing s with
  | nil => rfl
  | cons id rest ih => rw [List.foldl_cons, ih, cells_resetRegister]

theorem Keeps.word_eq (h : P.Keeps s s') :
    P.wordAt s' (P.capturedIndex s') = P.wordAt s (P.capturedIndex s) := by
  rw [h.address]
  exact wordAt_congr h.word

/-! ## Steps and runs -/

/-- An edge of its domain makes the register meet the port, whatever it held before. -/
theorem readsMeet_fires {e : ReadEvent} (he : P.Fires e) (h : P.StepMeets x e) :
    P.ReadsMeet (readStep m ports x e) := by
  obtain ⟨hevent, hlt⟩ := he
  have hcd : m.clockDomains[P.domain]? = some m.clockDomains[P.domain] :=
    List.getElem?_eq_getElem hlt
  rw [readsMeet_iff]
  rcases hevent with rfl | rfl
  · have hmeets := h _ hcd
    rw [if_pos rfl] at hmeets
    simp only [readStep, hcd]
    rw [bsramStep_eq hcd, if_pos rfl, capturedIndex_edge hmeets]
    exact wordAt_congr fun a ha => cells_edge hmeets ha
  · have hmeets := h _ hcd
    rw [if_pos rfl] at hmeets
    simp only [readStep, hcd]
    rw [bsramStep_eq hcd, if_pos rfl, hmeets]
    exact wordAt_congr fun a _ => by rw [cells_simApplyDomainReset]

theorem readsMeet_step {e : ReadEvent} (hx : P.ReadsMeet x) (h : P.StepMeets x e) :
    P.ReadsMeet (readStep m ports x e) := by
  by_cases hfires : P.Fires e
  · exact readsMeet_fires hfires h
  rw [readsMeet_iff] at hx ⊢
  cases e with
  | other s => exact (Keeps.word_eq h).trans hx
  | edge d =>
    rw [readStep]
    cases hcd : m.clockDomains[d]? with
    | none => exact hx
    | some cd =>
      have hd : d ≠ P.domain := by
        rintro rfl
        exact hfires ⟨.inl rfl, (List.getElem?_eq_some_iff.mp hcd).1⟩
      have hkeeps := h cd hcd
      rw [if_neg hd] at hkeeps
      dsimp only
      rw [bsramStep_eq hcd, if_neg hd, hkeeps.word_eq, hx]
  | reset d =>
    rw [readStep]
    cases hcd : m.clockDomains[d]? with
    | none => exact hx
    | some cd =>
      have hd : d ≠ P.domain := by
        rintro rfl
        exact hfires ⟨.inr rfl, (List.getElem?_eq_some_iff.mp hcd).1⟩
      have hkeeps := h cd hcd
      rw [if_neg hd] at hkeeps
      dsimp only
      rw [bsramStep_eq hcd, if_neg hd, hkeeps.word_eq, hx]

end SoleReadPort

/-- In every run whose steps meet the condition of a port, its register holds the word that the
simulator reads through the port, from the first edge of its domain on. -/
theorem readRun_meets {m : IRModule} {ports : List IRMemoryPort} (P : SoleReadPort m ports) :
    ∀ (events : List ReadEvent) {x : ReadState}, P.RunMeets x events →
      (P.ReadsMeet x ∨ ∃ e ∈ events, P.Fires e) → P.ReadsMeet (readRun m ports x events)
  | [], x, _, hstart => hstart.resolve_right (by simp)
  | e :: rest, x, hrun, hstart => by
      rw [SoleReadPort.RunMeets] at hrun
      rw [readRun, List.foldl_cons]
      apply readRun_meets P rest hrun.2
      rcases hstart with hx | ⟨e', he', hfires⟩
      · exact .inl (SoleReadPort.readsMeet_step hx hrun.1)
      · rcases List.mem_cons.mp he' with rfl | hrest
        · exact .inl (SoleReadPort.readsMeet_fires hfires hrun.1)
        · exact .inr ⟨e', hrest, hfires⟩

namespace BlockReadExample

/-- A memory of two words with one registered read port, captured by the statements. -/
def ram (statements : IRStmt) : IRModule where
  signals := [⟨0, .port .portIn, 1⟩, ⟨1, .port .portIn, 1⟩, ⟨2, .register ⟨.zero, 1, false⟩, 1⟩]
  memories := [⟨"ram", 1, 2⟩]
  clockDomains := [⟨3, .rising, [2], none, .activeHigh, statements⟩]
  asyncBlock := .null

def port : IRMemoryPort := ⟨"ram", true, true, some 2, some 0⟩

def capture : IRStmt := .assignment ⟨2, .signalRef 1 1, .receive, false, 0, 0⟩

/-- The address is only captured while the signal 0 is high. -/
def guardedCapture : IRStmt := .ifStmt (.signalRef 0 1) capture .null .null

/-- The signal 1 is high, everything else is low; the words are their addresses. -/
def start : ReadState where
  sim := {
    signals := fun i => ⟨if i = 1 then simValOnes 1 else simValZero 1, simValZero 1, false⟩
    cells := fun _ a => if a = 0 then simValZero 1 else simValOnes 1
    runtimeError := false
    settleDirty := false
    sigDirty := fun _ => false }
  bsramOut := fun _ => simValZero 1

def solePort {statements : IRStmt}
    (h : emitBsramReadBlocks [port] 0 statements = [(port, .signalRef 1 1)]) :
    SoleReadPort (ram statements) [port] where
  port := port
  domain := 0
  rhs := .signalRef 1 1
  memory := 0
  mem := ⟨"ram", 1, 2⟩
  addrReg := 2
  addrIndex := 2
  memOf := rfl
  addrRegId := rfl
  sigIndex := rfl
  printed d cd hd := by
    cases d with
    | zero =>
      obtain rfl := Option.some.inj hd
      rw [h]
      rfl
    | succ d => exact absurd hd nofun

theorem printed_capture :
    emitBsramReadBlocks [port] 0 capture = [(port, .signalRef 1 1)] := rfl

theorem printed_guardedCapture :
    emitBsramReadBlocks [port] 0 guardedCapture = [(port, .signalRef 1 1)] := rfl

end BlockReadExample

open BlockReadExample in
theorem readRun_meets_capture :
    (solePort printed_capture).ReadsMeet
      (readRun (ram capture) [port] start [.edge 0]) := by
  refine readRun_meets (solePort printed_capture) [.edge 0] ⟨?_, trivial⟩
    (.inr ⟨.edge 0, List.mem_singleton_self _, .inl rfl, Nat.zero_lt_one⟩)
  intro cd hcd
  obtain rfl := Option.some.inj hcd
  exact (if_pos (by rfl)).mpr
    ⟨by decide +kernel, fun _ => rfl, by decide +kernel, fun a _ => List.not_mem_nil⟩

open BlockReadExample in
/-- Without a capture the port keeps its word and the register takes another. -/
theorem guardedCapture_loses_word :
    (solePort printed_guardedCapture).ReadsMeet start ∧
      ¬ (solePort printed_guardedCapture).ReadsMeet
        (readRun (ram guardedCapture) [port] start [.edge 0]) := by
  constructor
  · rw [SoleReadPort.readsMeet_iff]
    rfl
  · intro h
    have hval := congrArg (fun v : SimValue => v.val.bit 0) (h 1 1)
    revert hval
    decide +kernel

end JzHdl

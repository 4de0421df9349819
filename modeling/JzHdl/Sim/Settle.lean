import JzHdl.Lib.DirtySkip
import JzHdl.Sim.Deps

/-! # Combinational settling

A context tree carries one state per module instance. A settle repeats passes
over the tree, executing asynchronous statements and copying port values, until
a pass leaves the root clean.
-/

namespace JzHdl

mutual

/-- The instance tree below a module. Instances without a context are left out, as every
loop over the children skips them. -/
inductive Hierarchy where

  | node (module : IRModule) (children : Instances)

inductive Instances where

  | nil

  | cons (inst : IRInstance) (child : Hierarchy) (rest : Instances)

end

mutual

/-- One state for every context of the tree. -/
def SimContext : Hierarchy → Type
  | .node _ children => CtxState × SimChildren children

def SimChildren : Instances → Type
  | .nil => Unit
  | .cons _ child rest => SimContext child × SimChildren rest

end

def Hierarchy.module : Hierarchy → IRModule
  | .node m _ => m

def Hierarchy.children : Hierarchy → Instances
  | .node _ c => c

namespace SimContext

def state : {h : Hierarchy} → SimContext h → CtxState
  | .node _ _, ctx => ctx.1

def kids : {h : Hierarchy} → SimContext h → SimChildren h.children
  | .node _ _, ctx => ctx.2

def withState : {h : Hierarchy} → SimContext h → CtxState → SimContext h
  | .node _ _, ctx, s => (s, ctx.2)

@[simp] theorem state_withState : {h : Hierarchy} → (ctx : SimContext h) → (s : CtxState) →
    (ctx.withState s).state = s
  | .node _ _, _, _ => rfl

@[simp] theorem withState_state : {h : Hierarchy} → (ctx : SimContext h) →
    ctx.withState ctx.state = ctx
  | .node _ _, _ => rfl

@[simp] theorem kids_withState : {h : Hierarchy} → (ctx : SimContext h) → (s : CtxState) →
    (ctx.withState s).kids = ctx.kids
  | .node _ _, _, _ => rfl

end SimContext

/-! ## Asynchronous chunks -/

structure SimAsyncChunk where

  stmt : IRStmt

  readIndices : List ℕ

def sigidsToIndices (m : IRModule) (ids : List ℕ) : List ℕ := (ids.filterMap m.sigIndex).dedup

def buildChunk (m : IRModule) (stmt : IRStmt) : SimAsyncChunk :=
  ⟨stmt, sigidsToIndices m (collectStmtReads stmt [])⟩

/-- One chunk for each top-level statement of the asynchronous block. -/
def buildAsyncChunks (m : IRModule) : List SimAsyncChunk :=
  match m.asyncBlock with
  | .null => []
  | .block stmts => stmts.map (buildChunk m)
  | stmt => [buildChunk m stmt]

/-- A chunk runs when it reads nothing or when one of its reads is dirty. -/
def needsExec (chunk : SimAsyncChunk) (s : CtxState) : Bool :=
  chunk.readIndices.isEmpty || chunk.readIndices.any s.sigDirty

def runChunk (m : IRModule) (s : CtxState) (chunk : SimAsyncChunk) : CtxState :=
  if needsExec chunk s then simExecStmt m false chunk.stmt s else s

/-- The asynchronous part of a pass on one context: the chunks, or the whole block without them. -/
def settleOwn (chunks : List SimAsyncChunk) (m : IRModule) (s : CtxState) : CtxState :=
  if chunks.isEmpty then simExecStmt m false m.asyncBlock s else chunks.foldl (runChunk m) s

/-! ## Port maps -/

/-- A port map. Without a parent slice it copies the full width. -/
structure SimPortMapping where

  parentIndex : ℕ

  childIndex : ℕ

  parentSlice : Option (ℕ × ℕ)

  childWidth : ℕ

  isInout : Bool
  deriving DecidableEq

/-- The direction and the map of one connection; constants and unknown signals have none. -/
def portMapping (parent child : IRModule) (conn : IRInstanceConnection) :
    Option (IRPortDirection × SimPortMapping) :=
  if conn.constExpr then none
  else match child.signalOf conn.childPortId, child.sigIndex conn.childPortId,
      conn.parentSignalId.bind parent.sigIndex with
    | some sig, some ce, some pe =>
      match sig.kind with
      | .port dir => some (dir, ⟨pe, ce, conn.parentSlice, sig.width, dir == .portInout⟩)
      | _ => none
    | _, _, _ => none

def inputMaps (parent child : IRModule) (inst : IRInstance) : List SimPortMapping :=
  (inst.connections.filterMap (portMapping parent child)).filterMap fun p =>
    if p.1 = .portOut then none else some p.2

def outputMaps (parent child : IRModule) (inst : IRInstance) : List SimPortMapping :=
  (inst.connections.filterMap (portMapping parent child)).filterMap fun p =>
    if p.1 = .portIn then none else some p.2

/-- The value an input map hands to the child. -/
def inputValue (pm : SimPortMapping) (parent : CtxState) : SimValue :=
  let p := (parent.signals pm.parentIndex).current
  match pm.parentSlice with
  | some (msb, lsb) => simValSlice p msb lsb
  | none => if p.width = pm.childWidth then p else simValMask { p with width := pm.childWidth }

theorem inputValue_congr {pm : SimPortMapping} {s t : CtxState}
    (h : (t.signals pm.parentIndex).current = (s.signals pm.parentIndex).current) :
    inputValue pm t = inputValue pm s := by
  simp only [inputValue, h]

def markSignal (s : CtxState) (i : ℕ) : CtxState :=
  { s with sigDirty := fun j => if j = i then true else s.sigDirty j }

def propagateInput (parent : CtxState) (acc : Bool × CtxState) (pm : SimPortMapping) :
    Bool × CtxState :=
  let old := (acc.2.signals pm.childIndex).current
  let new := inputValue pm parent
  let child := acc.2.setCurrent pm.childIndex new
  if simValSame old new ((pm.childWidth + 63) / 64) then (acc.1, child)
  else (true, markSignal child pm.childIndex)

/-- Copy the mapped parent signals into the child; the flag tells whether an input changed. -/
def propagateToChild (maps : List SimPortMapping) (parent child : CtxState) : Bool × CtxState :=
  maps.foldl (propagateInput parent) (false, child)

def propagateOutput (child parent : CtxState) (pm : SimPortMapping) : CtxState :=
  let c := (child.signals pm.childIndex).current
  let p := (parent.signals pm.parentIndex).current
  if pm.isInout && simValIsAllZ c then parent
  else match pm.parentSlice with
    | some (msb, lsb) =>
      let new := writeSlice p c msb lsb
      let parent' := parent.setCurrent pm.parentIndex new
      if simValSame p new ((new.width + 63) / 64) then parent'
      else parent'.markDirty pm.parentIndex
    | none =>
      if simValSame p c ((c.width + 63) / 64) then parent
      else (parent.setCurrent pm.parentIndex c).markDirty pm.parentIndex

def propagateFromChild (maps : List SimPortMapping) (parent child : CtxState) : CtxState :=
  maps.foldl (propagateOutput child) parent

/-! ## Passes and settling -/

def CtxState.clearSettleDirty (s : CtxState) : CtxState := { s with settleDirty := false }

section

/- `chunksOf` selects the dependency-tracked mode or, when it answers with no chunk, the
execution of the whole block in every pass. -/
variable (chunksOf : IRModule → List SimAsyncChunk)

mutual

def settleHierarchyOnce : (h : Hierarchy) → SimContext h → SimContext h
  | .node m children, (s, kids) =>
    settleChildren m children (settleOwn (chunksOf m) m s) kids

def settleChildren (m : IRModule) : (c : Instances) → CtxState → SimChildren c →
    CtxState × SimChildren c
  | .nil, s, kids => (s, kids)
  | .cons inst child rest, s, (ctx, kids) =>
    let (changed, t) := propagateToChild (inputMaps m child.module inst) s ctx.state
    if !changed && !t.settleDirty then
      let (s', kids') := settleChildren m rest (s.raiseError t.runtimeError) kids
      (s', (ctx.withState t, kids'))
    else
      let ctx' := settleHierarchyOnce child (ctx.withState t.clearSettleDirty)
      let s' := propagateFromChild (outputMaps m child.module inst)
        (s.raiseError ctx'.state.runtimeError) ctx'.state
      let (s'', kids') := settleChildren m rest s' kids
      (s'', (ctx', kids'))

end

end

mutual

def clearSigDirty : (h : Hierarchy) → SimContext h → SimContext h
  | .node _ children, (s, kids) => ({ s with sigDirty := fun _ => false }, clearKidsDirty children kids)

def clearKidsDirty : (c : Instances) → SimChildren c → SimChildren c
  | .nil, kids => kids
  | .cons _ child rest, (ctx, kids) => (clearSigDirty child ctx, clearKidsDirty rest kids)

end

def Instances.anyAsync : Instances → Bool
  | .nil => false
  | .cons _ child rest => !child.module.asyncBlock.isNull || rest.anyAsync

/-- Whether the root or one of its direct children has an asynchronous block. -/
def Hierarchy.hasAnyAsync (h : Hierarchy) : Bool :=
  !h.module.asyncBlock.isNull || h.children.anyAsync

/-- One iteration: clear the root's flag, then pass over the whole tree. -/
def settlePass (chunksOf : IRModule → List SimAsyncChunk) (h : Hierarchy) (ctx : SimContext h) :
    SimContext h :=
  settleHierarchyOnce chunksOf h (ctx.withState ctx.state.clearSettleDirty)

/-- Up to `maxIters` passes; the flag tells whether the last pass left the root clean. -/
def settleLoop (chunksOf : IRModule → List SimAsyncChunk) (h : Hierarchy) :
    ℕ → SimContext h → Bool × SimContext h :=
  DirtySkip.repeatPass (settlePass chunksOf h) (fun ctx => ctx.state.settleDirty) (clearSigDirty h)

/-- `sim_settle_combinational`; the flag is `true` for the return value `0`. -/
def simSettleCombinational (chunksOf : IRModule → List SimAsyncChunk) (h : Hierarchy)
    (ctx : SimContext h) (maxIters : ℕ) : Bool × SimContext h :=
  if h.hasAnyAsync then settleLoop chunksOf h maxIters ctx else (true, ctx)

end JzHdl

import JzHdl.Sim.Settle

/-! # Engine operations

The operations between two settles: testbench inputs, domain resets, clock
edges and the commit of staged writes. Firing a domain also returns a log of
the domains reached in the instance tree.
-/

namespace JzHdl

def simSettleMaxIters : ℕ := 100

/-! ## Testbench inputs -/

def fitPort (v : SimValue) (width : ℕ) : SimValue :=
  if v.width = width then v else simValMask { v with width }

/-- One binding of `sim_propagate_inputs`: drive an input port of the root. -/
def simPropagateInput (m : IRModule) (portId : ℕ) (v : SimValue) (s : CtxState) : CtxState :=
  match m.sigIndex portId, m.signalOf portId with
  | some i, some sig =>
    match sig.kind with
    | .port .portIn | .port .portInout => (s.setCurrent i (fitPort v sig.width)).markDirty i
    | _ => s
  | _, _ => s

/-- One binding of `sim_resolve_inout_z`: give an undriven port its testbench value back. -/
def simResolveInoutZ (m : IRModule) (portId : ℕ) (v : SimValue) (s : CtxState) : CtxState :=
  match m.sigIndex portId, m.signalOf portId with
  | some i, some sig =>
    match sig.kind with
    | .port .portInout =>
      if simValIsAllZ (s.signals i).current then s.setCurrent i (fitPort v sig.width) else s
    | _ => s
  | _, _ => s

/-! ## Resets -/

def resetValueOf (sig : IRSignal) (lit : IRLiteral) : SimValue :=
  let rv := simValFromWords lit.words lit.width
  if rv.width = sig.width then rv else simValZext rv sig.width

/-- Put one register to its reset value; other signal kinds are left alone. -/
def resetRegister (m : IRModule) (s : CtxState) (regId : ℕ) : CtxState :=
  match m.sigIndex regId, m.signalOf regId with
  | some i, some sig =>
    match sig.kind with
    | .register lit => (s.setCurrent i (resetValueOf sig lit)).markDirty i
    | _ => s
  | _, _ => s

def simApplyDomainReset (m : IRModule) (cd : IRClockDomain) (s : CtxState) : CtxState :=
  cd.registerIds.foldl (resetRegister m) s

def resetActive (m : IRModule) (cd : IRClockDomain) (s : CtxState) : Bool :=
  match cd.resetSignalId.bind m.sigIndex with
  | none => false
  | some i =>
    let level := (s.signals i).current.val.bit 0
    match cd.resetActive with
    | .activeHigh => level
    | .activeLow => !level

/-! ## Clock domains -/

/-- `sim_exec_sync_domain`: run the statements of a domain with staged writes. -/
def simExecSyncDomain (m : IRModule) (cd : IRClockDomain) (s : CtxState) : CtxState :=
  simExecStmt m true cd.statements s

/-- A child domain either resets or runs. -/
def fireChildDomain (m : IRModule) (cd : IRClockDomain) (s : CtxState) : CtxState :=
  if resetActive m cd s then simApplyDomainReset m cd s else simExecSyncDomain m cd s

/-- The child port the last matching connection binds to a parent signal. -/
def childClockPort (inst : IRInstance) (parentClock : ℕ) : Option ℕ :=
  inst.connections.foldl (fun port conn =>
    if conn.parentSignalId = some parentClock then some conn.childPortId else port) none

/-- A domain of an instance, addressed by the instance path below the root. -/
abbrev Firing := List ℕ × ℕ

mutual

/-- `propagate_to_all_children`. -/
def propagateToAllChildren : (h : Hierarchy) → SimContext h → SimContext h
  | .node m children, (s, kids) => (s, propagateToKids m children s kids)

def propagateToKids (m : IRModule) : (c : Instances) → CtxState → SimChildren c → SimChildren c
  | .nil, _, kids => kids
  | .cons inst child rest, s, (ctx, kids) =>
    let t := (propagateToChild (inputMaps m child.module inst) s ctx.state).2
    (propagateToAllChildren child (ctx.withState t), propagateToKids m rest s kids)

end

mutual

/-- Fire every domain of a context whose clock is `port`, each followed by the children. The
flag tells whether an error reached the parent. -/
def fireContext : (h : Hierarchy) → ℕ → SimContext h → SimContext h × Bool × List Firing
  | .node m children, port, (s, kids) =>
    m.clockDomains.zipIdx.foldl (fun acc (cd, d) =>
      if cd.clockSignalId = port then
        let s' := fireChildDomain m cd acc.1.1
        let (kids', err, log) := execChildrenSyncForClock children 0 port acc.1.2
        let s'' := s'.raiseError err
        ((s'', kids'), acc.2.1 || s''.runtimeError, acc.2.2 ++ ([], d) :: log)
      else acc) ((s, kids), false, [])

/-- `exec_children_sync_for_clock`; `k` is the position of the first instance of the list. -/
def execChildrenSyncForClock : (c : Instances) → (k : ℕ) → ℕ → SimChildren c →
    SimChildren c × Bool × List Firing
  | .nil, _, _, kids => (kids, false, [])
  | .cons inst child rest, k, parentClock, (ctx, kids) =>
    match childClockPort inst parentClock with
    | none =>
      let (kids', err, log) := execChildrenSyncForClock rest (k + 1) parentClock kids
      ((ctx, kids'), err, log)
    | some port =>
      let (ctx', err, log) := fireContext child port ctx
      let (kids', err', log') := execChildrenSyncForClock rest (k + 1) parentClock kids
      ((ctx', kids'), err || err', log.map (fun f => (k :: f.1, f.2)) ++ log')

end

/-- `sim_exec_sync_domain_with_children` on the root. -/
def simExecSyncDomainWithChildren : (h : Hierarchy) → IRClockDomain → Bool → SimContext h →
    SimContext h × List Firing
  | .node m children, cd, reset, ctx =>
    let ctx' : SimContext (.node m children) := propagateToAllChildren (.node m children) ctx
    let s := if reset then ctx'.1 else simExecStmt m true cd.statements ctx'.1
    let (kids, err, log) := execChildrenSyncForClock children 0 cd.clockSignalId ctx'.2
    ((s.raiseError err, kids), log)

mutual

/-- `sim_ctx_apply_nba` on a whole tree. -/
def simCtxApplyNbaTree : (h : Hierarchy) → SimContext h → SimContext h
  | .node m children, (s, kids) => (simCtxApplyNba m s, simCtxApplyNbaKids children kids)

def simCtxApplyNbaKids : (c : Instances) → SimChildren c → SimChildren c
  | .nil, kids => kids
  | .cons _ child rest, (ctx, kids) => (simCtxApplyNbaTree child ctx, simCtxApplyNbaKids rest kids)

end

/-! ## Clock edges -/

/-- Whether an edge to the new clock level is active for a domain. -/
def IRClockEdge.isActive : IRClockEdge → Bool → Bool
  | .rising, newClk => newClk
  | .falling, newClk => !newClk
  | .both, _ => true

/-- Fire one root domain: reset or run it, then the children, then perhaps commit. -/
def fireRootDomain (h : Hierarchy) (applyNbaPerDomain : Bool) (cd : IRClockDomain) (d : ℕ)
    (ctx : SimContext h) : SimContext h × List Firing :=
  let reset := resetActive h.module cd ctx.state
  let ctx1 := if reset then ctx.withState (simApplyDomainReset h.module cd ctx.state) else ctx
  let (ctx2, log) := simExecSyncDomainWithChildren h cd reset ctx1
  (if applyNbaPerDomain then simCtxApplyNbaTree h ctx2 else ctx2, ([], d) :: log)

/-- `sim_fire_domains_for_clock`. Without a bound port every domain matches. -/
def simFireDomainsForClock (h : Hierarchy) (clockPortId : Option ℕ) (newClk : Bool)
    (applyNbaPerDomain : Bool) (ctx : SimContext h) : SimContext h × List Firing :=
  h.module.clockDomains.zipIdx.foldl (fun acc (cd, d) =>
    if (clockPortId = none ∨ clockPortId = some cd.clockSignalId) ∧ cd.edge.isActive newClk then
      let r := fireRootDomain h applyNbaPerDomain cd d acc.1
      (r.1, acc.2 ++ r.2)
    else acc) (ctx, [])

end JzHdl

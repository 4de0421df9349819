import JzHdl.Sim.FixedPoint

/-! # Engine runs on a design

The engine drives the root, fires clock edges, commits and settles. A settle of
a run that stops has reached a fixed point of the whole instance tree, when it
starts from a state with every change flagged.
-/

namespace JzHdl

/-- The steps of the engine on a design. -/
inductive DesignStep where

  | input (portId : ℕ) (value : SimValue)

  | resolveInout (portId : ℕ) (value : SimValue)

  | clockEdge (clockPortId : Option ℕ) (newClk applyNbaPerDomain : Bool)

  | commit

  | settle

section

variable (h : Hierarchy)

/-- One step; a settle also answers whether it stopped. -/
def designStep : DesignStep → SimContext h → Option Bool × SimContext h
  | .input portId value, ctx =>
    (none, ctx.withState (simPropagateInput h.module portId value ctx.state))
  | .resolveInout portId value, ctx =>
    (none, ctx.withState (simResolveInoutZ h.module portId value ctx.state))
  | .clockEdge clockPortId newClk perDomain, ctx =>
    (none, (simFireDomainsForClock h clockPortId newClk perDomain ctx).1)
  | .commit, ctx => (none, simCtxApplyNbaTree h ctx)
  | .settle, ctx =>
    let r := simSettleCombinational buildAsyncChunks h ctx simSettleMaxIters
    (some r.1, r.2)

/-- The states that the settles of a run leave when they stop. -/
def settledStates : List DesignStep → SimContext h → List (SimContext h)
  | [], _ => []
  | step :: rest, ctx =>
    let r := designStep h step ctx
    if r.1 = some true then r.2 :: settledStates rest r.2 else settledStates rest r.2

/-- Every settle of the run starts from a state that it can settle. -/
def SettlesOk : List DesignStep → SimContext h → Prop
  | [], _ => True
  | step :: rest, ctx =>
    (step = .settle → SettleOk h ctx) ∧ SettlesOk rest (designStep h step ctx).2

end

namespace WireExample

def copy (dst src : ℕ) : IRStmt := .assignment ⟨dst, .signalRef src 1, .receive, false, 0, 0⟩

/-- A leaf that copies `in` to the net `b` and `b` to `out`, in some order. -/
def leaf (stmts : List IRStmt) : IRModule :=
  { signals := [⟨0, .port .portIn, 1⟩, ⟨1, .port .portOut, 1⟩, ⟨2, .net, 1⟩]
    memories := []
    clockDomains := []
    asyncBlock := .block stmts }

def top : IRModule :=
  { signals := [⟨0, .port .portIn, 1⟩, ⟨1, .port .portOut, 1⟩]
    memories := []
    clockDomains := []
    asyncBlock := .null }

def wires : IRInstance := ⟨[⟨some 0, 0, none, false⟩, ⟨some 1, 1, none, false⟩]⟩

def design (stmts : List IRStmt) : Hierarchy :=
  .node top (.cons wires (.node (leaf stmts) .nil) .nil)

def zeros : CtxState :=
  { signals := fun _ => ⟨simValZero 1, simValZero 1, false⟩
    cells := fun _ _ => simValZero 1
    runtimeError := false
    settleDirty := false
    sigDirty := fun _ => true }

def fresh (stmts : List IRStmt) : SimContext (design stmts) := (zeros, ((zeros, ()), ()))

def run : List DesignStep := [.input 0 (simValOnes 1), .settle]

end WireExample

namespace WireExample

def ordered : List IRStmt := [copy 2 0, copy 1 2]

theorem copy_fits {stmts : List IRStmt} {dst src : ℕ} (hsrc : src = 0 ∨ src = 2) {s : CtxState}
    (hs : s.Fits (leaf stmts)) :
    (simExecStmt (leaf stmts) false (copy dst src) s).Fits (leaf stmts) := by
  refine applyAssign_fits hs rfl fun i sig _ hsig => ?_
  have hwidth : sig.width = 1 := by
    have hmem := List.mem_of_getElem? hsig
    simp only [leaf, List.mem_cons, List.not_mem_nil, or_false] at hmem
    rcases hmem with rfl | rfl | rfl <;> rfl
  have hcur : simEvalExpr (leaf stmts) s (.signalRef src 1) = (s.signals src).current ∧
      (s.signals src).current.width = 1 ∧ (s.signals src).current.Masked := by
    rcases hsrc with rfl | rfl
    · exact ⟨rfl, hs 0 _ rfl⟩
    · exact ⟨rfl, hs 2 _ rfl⟩
  obtain ⟨heval, hw, hm⟩ := hcur
  have hext : extendRhs .receive (s.signals src).current 1 = (s.signals src).current := by
    simp [extendRhs, IRAssignmentKind.isZext, IRAssignmentKind.isSext, hw]
  simp only [heval, hwidth, hext]
  exact ⟨hw, hm⟩

theorem maps_eq : inputMaps top (leaf ordered) wires = [⟨0, 0, none, 1, false⟩] ∧
    outputMaps top (leaf ordered) wires = [⟨1, 1, none, 1, false⟩] := by decide

theorem wires_mapsOk : MapsOk top wires (.node (leaf ordered) .nil) where
  inputs pm hpm := by
    rw [Hierarchy.module, maps_eq.1, List.mem_singleton] at hpm
    exact hpm ▸ ⟨_, _, rfl, rfl, rfl, rfl⟩
  outputs pm hpm := by
    rw [Hierarchy.module, maps_eq.2, List.mem_singleton] at hpm
    exact hpm ▸ ⟨_, _, rfl, rfl, rfl, rfl⟩
  ports := by decide
  free := by decide
  apart := by decide

theorem leaf_ok : Orderly (.node (leaf ordered) .nil) ∧ DesignOk (.node (leaf ordered) .nil) := by
  refine ⟨⟨⟨?_, ?_, ?_, ?_, ?_, ?_, trivial⟩, ?_, trivial⟩, ⟨rfl, ?_⟩, fun s hs => ?_, ?_, trivial⟩
  · decide
  · decide
  · rw [copy, InOrder]; decide
  · decide
  · decide
  · rw [copy, InOrder]; decide
  · decide
  · refine List.pairwise_pair.mpr ?_
    rw [ChunksApart]; decide
  · exact copy_fits (Or.inr rfl) (copy_fits (Or.inl rfl) hs)
  · decide

theorem design_ok : DesignOk (design ordered) := by
  refine ⟨⟨rfl, List.Pairwise.nil⟩, fun _ hs => hs, ?_, wires_mapsOk, ?_, leaf_ok.1, leaf_ok.2, trivial⟩
  · decide
  · decide

theorem zeros_fits (m : IRModule) (hm : ∀ sig ∈ m.signals, sig.width = 1) : zeros.Fits m :=
  fun _ sig hsig => ⟨(hm sig (List.mem_of_getElem? hsig)).symm,
    (by decide +kernel : (simValZero 1).Masked)⟩

theorem run_ok : SettlesOk (design ordered) run (fresh ordered) := by
  refine ⟨by simp, fun _ => ⟨⟨?_, ?_, ⟨?_, ?_, trivial⟩, trivial⟩, fun _ => ?_, ?_⟩, trivial⟩
  · exact fun c hc => absurd hc List.not_mem_nil
  · exact (zeros_fits top (by simp [top])).setCurrent (i := 0) (v := simValOnes 1) fun sig hsig => by
      obtain rfl := Option.some.inj hsig
      decide +kernel
  · exact ArmedChunks.of_allDirty fun _ _ => rfl
  · exact zeros_fits (leaf ordered) (by simp [leaf])
  · change KidsAwake top (.cons wires (.node (leaf ordered) .nil) .nil)
      (simPropagateInput top 0 (simValOnes 1) zeros).clearSettleDirty ((zeros, ()), ())
    exact kidsAwake_of_visit (by decide +kernel) ⟨trivial, trivial⟩
  · simp [design, Hierarchy.hasAnyAsync, Hierarchy.module, Hierarchy.children, Instances.anyAsync, leaf,
      IRStmt.isNull]

end WireExample

end JzHdl

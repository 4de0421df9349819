import JzHdl.Sim.ClockEvent

/-! # The testbench around a design

Testbench wires are bound to the ports of the root. A step changes wires or
toggles a clock, propagates the inputs, settles, and copies the outputs back.
-/

namespace JzHdl

open BitWords

structure PortBinding where

  tbWireIndex : ℕ

  portSignalId : ℕ

/-- What a testbench fixes: the bindings in order and the declared widths of its wires. -/
structure Testbench where

  bindings : List PortBinding

  wireWidth : ℕ → ℕ

structure SimTestState (h : Hierarchy) where

  dut : SimContext h

  wires : ℕ → SimValue

  runtimeError : Bool

/-- One assignment of `@setup` or `@update`: a wire and its right-hand side. -/
abbrev WireAssign (h : Hierarchy) := ℕ × (SimTestState h → SimValue)

section

variable {h : Hierarchy} (tb : Testbench)

def simPropagateInputs (ts : SimTestState h) : SimTestState h :=
  { ts with dut := tb.bindings.foldl (fun dut b => dut.withState
      (simPropagateInput h.module b.portSignalId (ts.wires b.tbWireIndex) dut.state)) ts.dut }

/-- A settle that does not stop, or an error in the design, is a runtime error. -/
def simSettleChecked (ts : SimTestState h) : SimTestState h :=
  let r := simSettleCombinational buildAsyncChunks h ts.dut simSettleMaxIters
  { ts with dut := r.2, runtimeError := ts.runtimeError || !r.1 || r.2.state.runtimeError }

def resolveInouts (ts : SimTestState h) : SimTestState h :=
  { ts with dut := tb.bindings.foldl (fun dut b => dut.withState
      (simResolveInoutZ h.module b.portSignalId (ts.wires b.tbWireIndex) dut.state)) ts.dut }

/-- What a port of the root hands to its wire. An inout that drives only `z` hands nothing. -/
def outputValue (m : IRModule) (portId : ℕ) (s : CtxState) : Option SimValue :=
  match m.sigIndex portId, m.signalOf portId with
  | some i, some sig =>
    match sig.kind with
    | .port .portOut => some (s.signals i).current
    | .port .portInout =>
      if simValIsAllZ (s.signals i).current then none else some (s.signals i).current
    | _ => none
  | _, _ => none

def setWire (wires : ℕ → SimValue) (wi : ℕ) (v : SimValue) : ℕ → SimValue :=
  fun i => if i = wi then v else wires i

def simPropagateOutputs (ts : SimTestState h) : SimTestState h :=
  { ts with wires := tb.bindings.foldl (fun wires b =>
      match outputValue h.module b.portSignalId ts.dut.state with
      | some v => setWire wires b.tbWireIndex v
      | none => wires) ts.wires }

def simFullSettle (ts : SimTestState h) : SimTestState h :=
  simPropagateOutputs tb (resolveInouts tb (simSettleChecked (simPropagateInputs tb ts)))

/-- All right-hand sides are evaluated before the first wire changes. -/
def assignWires (assigns : List (WireAssign h)) (ts : SimTestState h) : SimTestState h :=
  let values := (assigns.take 256).map fun a =>
    (a.1, simValMask { (a.2 ts) with width := tb.wireWidth a.1 })
  { ts with wires := values.foldl (fun wires p => setWire wires p.1 p.2) ts.wires }

def processSetupUpdate (assigns : List (WireAssign h)) (ts : SimTestState h) : SimTestState h :=
  simFullSettle tb (assignWires tb assigns ts)

def toggleWire (ts : SimTestState h) (wi : ℕ) : SimTestState h :=
  let v := simValFromUint (if (ts.wires wi).val.bit 0 then 0 else 1) 1
  { ts with wires := setWire ts.wires wi v }

/-- The port of the first binding of a wire. -/
def clockPortId (wi : ℕ) : Option ℕ :=
  (tb.bindings.find? fun b => b.tbWireIndex = wi).map PortBinding.portSignalId

end

end JzHdl

import JzHdl.Backend.Alias
import JzHdl.Sim.DesignRun

/-! # Instances in Verilog

The backend prints what every port of an instance is connected to. A settled
design has the ports wired if they carry the bits of these texts. The simulator
reads the same connections through its port maps.
-/

namespace JzHdl

/-! ## Connections -/

structure InstanceConnection where

  parentSignalId : Option ℕ

  childPortId : ℕ

  parentSlice : Option (ℕ × ℕ)

  constExpr : Option (List Char)

def InstanceConnection.toIR (conn : InstanceConnection) : IRInstanceConnection :=
  ⟨conn.parentSignalId, conn.childPortId, conn.parentSlice, conn.constExpr.isSome⟩

/-- An instance with its name and the texts of its constants. -/
structure InstanceRecord where

  name : List Char

  connections : List InstanceConnection

def InstanceRecord.toIR (record : InstanceRecord) : IRInstance :=
  ⟨record.connections.map InstanceConnection.toIR⟩

mutual

/-- The records of all the instances of a tree. -/
def Records : Hierarchy → Type
  | .node _ children => KidsRecords children

def KidsRecords : Instances → Type
  | .nil => Unit
  | .cons inst child rest =>
    {record : InstanceRecord // record.toIR = inst} × Records child × KidsRecords rest

end

/-! ## Emission -/

/-- What stands between the parentheses of a port. -/
inductive PortText (m : IRModule) where

  | signal (i : m.SignalIndex) (slice : Option (ℕ × ℕ))

  | const (text : List Char)

  | zero

/-- The element of an instance array, read from the brackets in its name. -/
def arrayIndex (name : List Char) : ℕ :=
  (((name.dropWhile (· ≠ '[')).drop 1).takeWhile Char.isDigit).foldl
    (fun n c => 10 * n + (c.toNat - '0'.toNat)) 0

/-- A wide parent signal without a slice is divided over the elements of an array. -/
def signalText (m : IRModule) (name : List Char) (i : m.SignalIndex) (slice : Option (ℕ × ℕ))
    (portWidth : ℕ) : PortText m :=
  match slice with
  | some slice => .signal i (some slice)
  | none =>
    if 0 < (m.signals.get i).width ∧ 0 < portWidth ∧ portWidth < (m.signals.get i).width then
      let lsb := arrayIndex name * portWidth
      .signal i (some (lsb + portWidth - 1, lsb))
    else .signal i none

/-- One line of `emit_instances`. The alias classes are those of the parent. -/
def emitConnection (m child : IRModule) (name : List Char) (conn : InstanceConnection) :
    Option (child.SignalIndex × PortText m) :=
  (child.findSignalIndexByIdRaw conn.childPortId).map fun port =>
    (port, match conn.parentSignalId.bind m.findSignalById with
      | some i => signalText m name i conn.parentSlice (child.signals.get port).width
      | none =>
        match conn.constExpr with
        | some (c :: text) => .const (c :: text)
        | _ => .zero)

/-- What Verilog makes of the text of a constant or a concatenation: its value and, on an output,
the parent bits that it names. -/
structure TextMeaning (m : IRModule) where

  value : List Char → CtxState → SimValue

  place : List Char → ℕ → Option (m.SignalIndex × ℕ)

namespace PortText

variable {m : IRModule} (meaning : TextMeaning m)

/-- The parent bit at a place of the text. -/
def bitAt : PortText m → ℕ → Option (m.SignalIndex × ℕ)
  | .signal i none, k => if k < (m.signals.get i).width then some (i, k) else none
  | .signal i (some (msb, lsb)), k => if lsb + k ≤ msb then some (i, lsb + k) else none
  | .const text, k => meaning.place text k
  | .zero, _ => none

/-- A bit of the value that the text has in the parent. -/
def value (s : CtxState) : PortText m → ℕ → (Bool × Bool × Bool) ⊕ ℕ
  | .signal i slice, k =>
    match (PortText.signal i slice).bitAt meaning k with
    | some (j, b) => (s.signals j).current.part (.bit b)
    | none => .inl (false, false, false)
  | .const text, k => (meaning.value text s).part (.bit k)
  | .zero, _ => .inl (false, false, false)

end PortText

/-! ## Wired designs -/

section

variable (meaning : (m : IRModule) → TextMeaning m)

/-- The printed ports of an instance with a direction. -/
def InstanceRecord.ports (m child : IRModule) (record : InstanceRecord)
    (direction : IRPortDirection) : List (child.SignalIndex × PortText m) :=
  (record.connections.filterMap (emitConnection m child record.name)).filter fun p =>
    match child.kindAt p.1 with
    | .port dir => dir == direction
    | _ => false

/-- An input carries its text, and each parent bit of an output's text carries the output. -/
structure PortsWired (m child : IRModule) (record : InstanceRecord) (s c : CtxState) : Prop where

  inputs : ∀ p ∈ record.ports m child .portIn, ∀ k < (child.signals.get p.1).width,
    (c.signals p.1).current.part (.bit k) = p.2.value (meaning m) s k

  outputs : ∀ p ∈ record.ports m child .portOut, ∀ k < (child.signals.get p.1).width, ∀ i b,
    p.2.bitAt (meaning m) k = some (i, b) →
      (s.signals i).current.part (.bit b) = (c.signals p.1).current.part (.bit k)

  widths : ∀ i : m.SignalIndex, (s.signals i).current.width = (m.signals.get i).width

  /-- Copying the outputs changes no bit outside of the texts and no width. -/
  others : ∀ t : CtxState, t.Fits m → ∀ (i : m.SignalIndex) (q : Part),
    (∀ p ∈ record.ports m child .portOut ++ record.ports m child .portInout,
      ∀ k < (child.signals.get p.1).width, ∀ b,
        p.2.bitAt (meaning m) k = some (m.canonicalIndex i, b) → q ≠ .bit b) →
    ((propagateFromChild (outputMaps m child record.toIR) t c).signals i).current.part q =
      (t.signals i).current.part q

/-- What the inside of an instance drives on its ports. -/
def drivenPorts (child : Hierarchy) (ctx : SimContext child) : CtxState :=
  (settleHierarchyOnce (fun _ => []) child ctx).state

/-- The directions of the ports at a parent bit, with the bits that the instances drive. -/
def Instances.driversAt (m : IRModule) (i : m.SignalIndex) (b : ℕ) : (c : Instances) →
    KidsRecords c → SimChildren c → List (IRSignalKind × ((Bool × Bool × Bool) ⊕ ℕ))
  | .nil, _, _ => []
  | .cons _ child rest, (record, _, records), (ctx, kids) =>
    (record.1.connections.filterMap (emitConnection m child.module record.1.name)).flatMap (fun p =>
      (List.range (child.module.signals.get p.1).width).filterMap fun k =>
        if p.2.bitAt (meaning m) k = some (i, b) then
          some (child.module.kindAt p.1,
            ((drivenPorts child ctx).signals p.1).current.part (.bit k))
        else none) ++ rest.driversAt m i b records kids

def BitIsZ (bit : (Bool × Bool × Bool) ⊕ ℕ) : Prop := ∃ val, bit = .inl (val, false, true)

/-- A bit between bidirectional ports only has the value of an instance that drives it. -/
def NetsResolved (m : IRModule) (c : Instances) (records : KidsRecords c) (s : CtxState)
    (kids : SimChildren c) : Prop :=
  ∀ (i : m.SignalIndex) (b : ℕ), c.driversAt meaning m i b records kids ≠ [] →
    (∀ d ∈ c.driversAt meaning m i b records kids, d.1 = .port .portInout) →
    (∀ d ∈ c.driversAt meaning m i b records kids, ¬ BitIsZ d.2 →
      (s.signals i).current.part (.bit b) = d.2) ∧
      ((∀ d ∈ c.driversAt meaning m i b records kids, BitIsZ d.2) →
        BitIsZ ((s.signals i).current.part (.bit b)))

mutual

/-- Every instance of the tree is wired as it is printed. -/
def Wired : (h : Hierarchy) → Records h → SimContext h → Prop
  | .node m children, records, (s, kids) =>
    NetsResolved meaning m children records s kids ∧ KidsWired m children records s kids

def KidsWired (m : IRModule) : (c : Instances) → KidsRecords c → CtxState → SimChildren c → Prop
  | .nil, _, _, _ => True
  | .cons _ child rest, (record, below, records), s, (ctx, kids) =>
    PortsWired meaning m child.module record.1 s ctx.state ∧ Wired child below ctx ∧
      KidsWired m rest records s kids

end

end

end JzHdl

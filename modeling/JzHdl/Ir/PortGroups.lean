import JzHdl.Ir.ResetCover
import JzHdl.Ir.TristateOe

/-! # Alias groups of ports

The tri-state transform joins the ports that the alias assignments of a module name
together. Of the output ports of one group that an instance connects to one slice of a
parent signal, it keeps the first and redirects the others to new wires.
-/

namespace JzHdl

/-! ## Groups -/

namespace IRModule

variable (m : IRModule)

/-- One reference of an expression, unless it is a register or already collected. -/
def collectSignalRef (refs : List m.SignalIndex) (id : ℕ) : List m.SignalIndex :=
  match m.findSignalIndexByIdRaw id with
  | none => refs
  | some i =>
    if (m.kindAt i).isRegister then refs
    else if i ∈ refs then refs
    else if refs.length < 64 then refs ++ [i] else refs

mutual

def collectSignalRefsFromExpr (refs : List m.SignalIndex) : IRExpr → List m.SignalIndex
  | .signalRef id _ => m.collectSignalRef refs id
  | .slice id _ _ _ => m.collectSignalRef refs id
  | .sliceExpr baseExpr _ _ => collectSignalRefsFromExpr refs baseExpr
  | .unary _ operand _ => collectSignalRefsFromExpr refs operand
  | .binary _ left right _ =>
    collectSignalRefsFromExpr (collectSignalRefsFromExpr refs left) right
  | .ternary condition trueVal falseVal =>
    collectSignalRefsFromExpr
      (collectSignalRefsFromExpr (collectSignalRefsFromExpr refs condition) trueVal) falseVal
  | .concat operands => collectSignalRefsFromExprs refs operands
  | .intrinsic _ source index value _ _ =>
    collectSignalRefsFromExpr
      (collectSignalRefsFromExpr (collectSignalRefsFromExpr refs source) index) value
  | .memRead _ address _ => collectSignalRefsFromExpr refs address
  | .null | .literal .. => refs

def collectSignalRefsFromExprs (refs : List m.SignalIndex) : List IRExpr → List m.SignalIndex
  | [] => refs
  | e :: rest => collectSignalRefsFromExprs (collectSignalRefsFromExpr refs e) rest

end

/-- The signals that an assignment joins. A reference is joined with the target if both have one
width, and any other expression joins the target with the ports in it. -/
def assignmentUnions (a : IRAssignment) : List (m.SignalIndex × m.SignalIndex) :=
  if !assignmentKindIsAlias a.kind || a.isSliced || a.rhs.isNull then []
  else
    match m.findSignalIndexByIdRaw a.lhsSignalId with
    | none => []
    | some lhs =>
      if (m.kindAt lhs).isRegister || (m.signals.get lhs).width = 0 then []
      else
        match a.rhs with
        | .signalRef rhsId _ =>
          match m.findSignalIndexByIdRaw rhsId with
          | none => []
          | some rhs =>
            if (m.kindAt rhs).isRegister then []
            else if (m.signals.get lhs).width ≠ (m.signals.get rhs).width then []
            else [(lhs, rhs)]
        | rhs =>
          ((m.collectSignalRefsFromExpr [] rhs).filter fun i => (m.kindAt i).isPort).map
            fun i => (lhs, i)

mutual

def collectAliasUnions : IRStmt → List (m.SignalIndex × m.SignalIndex)
  | .assignment a => m.assignmentUnions a
  | .block stmts => collectAliasUnionsIn stmts
  | .ifStmt _ thenBlock elifChain elseBlock =>
    collectAliasUnions thenBlock ++ collectAliasUnions elifChain ++ collectAliasUnions elseBlock
  | .select _ cases => collectAliasUnionsCases cases
  | .null | .memWrite .. => []

def collectAliasUnionsIn : List IRStmt → List (m.SignalIndex × m.SignalIndex)
  | [] => []
  | stmt :: rest => collectAliasUnions stmt ++ collectAliasUnionsIn rest

def collectAliasUnionsCases : List (IRExpr × IRStmt) → List (m.SignalIndex × m.SignalIndex)
  | [] => []
  | (_, body) :: rest => collectAliasUnions body ++ collectAliasUnionsCases rest

end

def portForest : UnionFind m.signals.length :=
  (UnionFind.singletons _).unions (m.collectAliasUnions m.asyncBlock)

/-- The ports below a root, in the order of the signals. -/
def portsOfRoot (root : m.SignalIndex) : List m.SignalIndex :=
  (List.finRange m.signals.length).filter fun i =>
    decide (m.portForest.root i = root) && (m.kindAt i).isPort

/-- `ir_build_port_alias_groups`: the identifiers of two or more ports below one root. -/
def buildPortAliasGroups : List (List ℕ) :=
  if m.asyncBlock.isNull then []
  else
    (List.finRange m.signals.length).filterMap fun root =>
      if 2 ≤ (m.portsOfRoot root).length then
        some ((m.portsOfRoot root).map fun i => (m.signals.get i).id)
      else none

end IRModule

/-! ## Designs -/

/-- The slice of the parent that a connection is about. -/
def IRInstanceConnection.slice (c : IRInstanceConnection) : Option ℕ × Option (ℕ × ℕ) :=
  (c.parentSignalId, c.parentSlice)

structure ModuleInstance extends IRInstance where

  childModuleId : Option ℕ

structure LinkedModule extends IRModule where

  instances : List ModuleInstance

  portAliasGroups : List (List ℕ)

namespace LinkedModule

variable (m : LinkedModule)

def findSignal (id : ℕ) : Option IRSignal := m.signals.find? fun sig => sig.id == id

/-- The direction of a port, if the signal is one. -/
def portDirection (id : ℕ) : Option IRPortDirection :=
  (m.findSignal id).bind fun sig =>
    match sig.kind with
    | .port direction => some direction
    | _ => none

/-- The place of the group of a port, which stands for the address of the group. -/
def findAliasGroupForPort (id : ℕ) : Option ℕ := m.portAliasGroups.findIdx? fun ids => id ∈ ids

end LinkedModule

def nextSignalId (signals : List IRSignal) : ℕ := signals.foldl (fun n sig => max n (sig.id + 1)) 0

/-- `add_signal` for a wire. -/
def addWire (signals : List IRSignal) (width : ℕ) : List IRSignal :=
  signals ++ [⟨nextSignalId signals, .net, width⟩]

abbrev LinkedDesign := List LinkedModule

/-- The child module of an instance. -/
def LinkedDesign.child (design : LinkedDesign) (inst : ModuleInstance) : Option LinkedModule :=
  inst.childModuleId.bind fun k => design[k]?

/-! ## Redundant outputs -/

section

variable (child : LinkedModule)

/-- The group of a connection that drives a parent signal from an output. -/
def outputGroup (c : IRInstanceConnection) : Option ℕ :=
  if child.portDirection c.childPortId = some .portOut then
    child.findAliasGroupForPort c.childPortId
  else none

/-- Redirect the later connections of the same slice and group. -/
def redirectLater (slice : Option ℕ × Option (ℕ × ℕ)) (group : ℕ) :
    List IRInstanceConnection → List IRSignal → List IRInstanceConnection × List IRSignal
  | [], signals => ([], signals)
  | c :: rest, signals =>
    if c.slice = slice ∧ outputGroup child c = some group then
      let width := (child.findSignal c.childPortId).elim 0 IRSignal.width
      let result := redirectLater slice group rest (addWire signals width)
      ({ c with parentSignalId := some (nextSignalId signals), parentSlice := none } :: result.1,
        result.2)
    else
      let result := redirectLater slice group rest signals
      (c :: result.1, result.2)

/-- The walk over so many connections, each with the ones behind it. -/
def deduplicateConnections :
    ℕ → List IRInstanceConnection → List IRSignal → List IRInstanceConnection × List IRSignal
  | fuel + 1, c :: rest, signals =>
    let later :=
      match outputGroup child c with
      | some group =>
        if c.parentSignalId = none then (rest, signals)
        else redirectLater child c.slice group rest signals
      | none => (rest, signals)
    let result := deduplicateConnections fuel later.1 later.2
    (c :: result.1, result.2)
  | _, conns, signals => (conns, signals)

end

/-- The instances of a module, in order, with the signals that they add to it. -/
def deduplicateInstances (design : LinkedDesign) :
    List ModuleInstance → List IRSignal → List ModuleInstance × List IRSignal
  | [], signals => ([], signals)
  | inst :: rest, signals =>
    match design.child inst with
    | none =>
      let result := deduplicateInstances design rest signals
      (inst :: result.1, result.2)
    | some child =>
      let conns := deduplicateConnections child inst.connections.length inst.connections signals
      let result := deduplicateInstances design rest conns.2
      ({ inst with connections := conns.1 } :: result.1, result.2)

/-- `deduplicate_alias_group_drivers` for one module of the design. -/
def deduplicateAliasGroupDrivers (design : LinkedDesign) (parent : LinkedModule) : LinkedModule :=
  let result := deduplicateInstances design parent.instances parent.signals
  { parent with instances := result.1, signals := result.2 }

/-- Phase 0, which builds the groups of every module. -/
def withPortAliasGroups (design : LinkedDesign) : LinkedDesign :=
  design.map fun m => { m with portAliasGroups := m.buildPortAliasGroups }

/-- The phase behind it, which goes through the modules. -/
def deduplicateModules (design : LinkedDesign) : LinkedDesign :=
  (List.range design.length).foldl
    (fun design k => design.modify k (deduplicateAliasGroupDrivers design)) design

/-! ## Redirected connections -/

theorem nextSignalId_append (signals : List IRSignal) (sig : IRSignal) :
    nextSignalId (signals ++ [sig]) = max (nextSignalId signals) (sig.id + 1) := by
  rw [nextSignalId, List.foldl_append]
  rfl

theorem nextSignalId_addWire (signals : List IRSignal) (width : ℕ) :
    nextSignalId (addWire signals width) = nextSignalId signals + 1 := by
  rw [addWire, nextSignalId_append]
  exact max_eq_right (Nat.le_succ _)

/-- The second list has only wires behind the first. -/
def AddsWires (signals signals' : List IRSignal) : Prop :=
  ∃ wires : List IRSignal, (∀ w ∈ wires, w.kind = .net) ∧ signals' = signals ++ wires

namespace AddsWires

variable {signals signals' signals'' : List IRSignal}

theorem refl (signals : List IRSignal) : AddsWires signals signals :=
  ⟨[], fun _ h => absurd h List.not_mem_nil, (List.append_nil _).symm⟩

theorem addWire (signals : List IRSignal) (width : ℕ) :
    AddsWires signals (JzHdl.addWire signals width) :=
  ⟨_, fun w hw => by rw [List.mem_singleton.mp hw], rfl⟩

theorem trans (h : AddsWires signals signals') (h' : AddsWires signals' signals'') :
    AddsWires signals signals'' := by
  obtain ⟨wires, hnet, rfl⟩ := h
  obtain ⟨wires', hnet', rfl⟩ := h'
  refine ⟨wires ++ wires', fun w hw => ?_, List.append_assoc ..⟩
  exact (List.mem_append.mp hw).elim (hnet w) (hnet' w)

theorem nextSignalId_le (h : AddsWires signals signals') :
    nextSignalId signals ≤ nextSignalId signals' := by
  obtain ⟨wires, -, rfl⟩ := h
  induction wires using List.reverseRecOn with
  | nil => rw [List.append_nil]
  | append_singleton wires last ih =>
    rw [← List.append_assoc, nextSignalId_append]
    exact ih.trans (le_max_left _ _)

end AddsWires

section

variable {child : LinkedModule}

theorem redirectLater_addsWires {slice : Option ℕ × Option (ℕ × ℕ)} {group : ℕ} :
    ∀ (conns : List IRInstanceConnection) (signals : List IRSignal),
      AddsWires signals (redirectLater child slice group conns signals).2
  | [], signals => AddsWires.refl signals
  | c :: rest, signals => by
      rw [redirectLater]
      split
      · exact (AddsWires.addWire signals _).trans (redirectLater_addsWires rest _)
      · exact redirectLater_addsWires rest signals

theorem redirectLater_childPorts {slice : Option ℕ × Option (ℕ × ℕ)} {group : ℕ} :
    ∀ (conns : List IRInstanceConnection) (signals : List IRSignal),
      (redirectLater child slice group conns signals).1.map IRInstanceConnection.childPortId =
        conns.map IRInstanceConnection.childPortId
  | [], _ => rfl
  | c :: rest, signals => by
      rw [redirectLater]
      split
      · exact congrArg (c.childPortId :: ·) (redirectLater_childPorts rest _)
      · exact congrArg (c.childPortId :: ·) (redirectLater_childPorts rest signals)

/-- What the walk makes of the connections behind one connection. -/
def laterConnections (child : LinkedModule) (c : IRInstanceConnection)
    (rest : List IRInstanceConnection) (signals : List IRSignal) :
    List IRInstanceConnection × List IRSignal :=
  match outputGroup child c with
  | some group =>
    if c.parentSignalId = none then (rest, signals)
    else redirectLater child c.slice group rest signals
  | none => (rest, signals)

theorem laterConnections_addsWires (c : IRInstanceConnection) (rest : List IRInstanceConnection)
    (signals : List IRSignal) : AddsWires signals (laterConnections child c rest signals).2 := by
  rw [laterConnections]
  split
  · split
    · exact AddsWires.refl signals
    · exact redirectLater_addsWires rest signals
  · exact AddsWires.refl signals

theorem laterConnections_childPorts (c : IRInstanceConnection) (rest : List IRInstanceConnection)
    (signals : List IRSignal) :
    (laterConnections child c rest signals).1.map IRInstanceConnection.childPortId =
      rest.map IRInstanceConnection.childPortId := by
  rw [laterConnections]
  split
  · split
    · rfl
    · exact redirectLater_childPorts rest signals
  · rfl

theorem deduplicateConnections_succ (fuel : ℕ) (c : IRInstanceConnection)
    (rest : List IRInstanceConnection) (signals : List IRSignal) :
    deduplicateConnections child (fuel + 1) (c :: rest) signals =
      (c :: (deduplicateConnections child fuel (laterConnections child c rest signals).1
          (laterConnections child c rest signals).2).1,
        (deduplicateConnections child fuel (laterConnections child c rest signals).1
          (laterConnections child c rest signals).2).2) := rfl

theorem deduplicateConnections_addsWires :
    ∀ (fuel : ℕ) (conns : List IRInstanceConnection) (signals : List IRSignal),
      AddsWires signals (deduplicateConnections child fuel conns signals).2
  | 0, _, signals | _ + 1, [], signals => AddsWires.refl signals
  | fuel + 1, c :: rest, signals => by
      rw [deduplicateConnections_succ]
      exact (laterConnections_addsWires c rest signals).trans
        (deduplicateConnections_addsWires fuel _ _)

theorem deduplicateConnections_childPorts :
    ∀ (fuel : ℕ) (conns : List IRInstanceConnection) (signals : List IRSignal),
      (deduplicateConnections child fuel conns signals).1.map IRInstanceConnection.childPortId =
        conns.map IRInstanceConnection.childPortId
  | 0, _, _ | _ + 1, [], _ => rfl
  | fuel + 1, c :: rest, signals => by
      rw [deduplicateConnections_succ, List.map_cons, deduplicateConnections_childPorts fuel,
        laterConnections_childPorts, List.map_cons]

end

/-- Both connections drive one slice from outputs of one group. -/
structure Redundant (child : LinkedModule) (c c' : IRInstanceConnection) : Prop where

  slice : c'.slice = c.slice

  connected : c.parentSignalId ≠ none

  group : ∃ g, outputGroup child c = some g ∧ outputGroup child c' = some g

/-- The connections refer to signals that are there. -/
def Below (signals : List IRSignal) (conns : List IRInstanceConnection) : Prop :=
  ∀ c ∈ conns, ∀ id ∈ c.parentSignalId, id < nextSignalId signals

theorem Below.cons {signals : List IRSignal} {c : IRInstanceConnection}
    {conns : List IRInstanceConnection} : Below signals (c :: conns) ↔
      (∀ id ∈ c.parentSignalId, id < nextSignalId signals) ∧ Below signals conns :=
  List.forall_mem_cons

theorem Below.mono {signals signals' : List IRSignal} {conns : List IRInstanceConnection}
    (h : Below signals conns) (hle : nextSignalId signals ≤ nextSignalId signals') :
    Below signals' conns := fun c hc id hid => (h c hc id hid).trans_le hle

section

variable {child : LinkedModule} {slice : Option ℕ × Option (ℕ × ℕ)} {group : ℕ}

/-- What redirecting leaves at each place: the connection itself, or a redirected one. -/
theorem redirectLater_spec :
    ∀ (conns : List IRInstanceConnection) (signals : List IRSignal),
      let result := redirectLater child slice group conns signals
      (Below signals conns → Below result.2 result.1) ∧
      ∀ (k : ℕ) (c c' : IRInstanceConnection), conns[k]? = some c → result.1[k]? = some c' →
        c' = c ∨ c.slice = slice ∧ outputGroup child c = some group ∧
          ∃ id, c'.parentSignalId = some id ∧ nextSignalId signals ≤ id
  | [], signals => ⟨fun h => h, fun k c c' h => by cases h⟩
  | c :: rest, signals => by
      rw [redirectLater]
      split
      · rename_i hmatch
        set width := (child.findSignal c.childPortId).elim 0 IRSignal.width
        have hnext := nextSignalId_addWire signals width
        have hle : nextSignalId signals <
            nextSignalId (redirectLater child slice group rest (addWire signals width)).2 := by
          rw [← Nat.succ_le_iff, Nat.succ_eq_add_one, ← hnext]
          exact (redirectLater_addsWires rest _).nextSignalId_le
        obtain ⟨hbelow, hplaces⟩ := redirectLater_spec rest (addWire signals width)
        refine ⟨fun h => ?_, fun k d d' hd hd' => ?_⟩
        · obtain ⟨-, hrest⟩ := Below.cons.mp h
          refine Below.cons.mpr ⟨fun id hid => ?_, hbelow (hrest.mono (by omega))⟩
          obtain rfl := Option.some.inj hid
          exact hle
        · cases k with
          | zero =>
            cases hd
            cases hd'
            exact .inr ⟨hmatch.1, hmatch.2, _, rfl, le_rfl⟩
          | succ k =>
            rcases hplaces k d d' hd hd' with h | ⟨h₁, h₂, id, hid, hge⟩
            · exact .inl h
            · exact .inr ⟨h₁, h₂, id, hid, by omega⟩
      · have hle := (@redirectLater_addsWires child slice group rest signals).nextSignalId_le
        obtain ⟨hbelow, hplaces⟩ := redirectLater_spec rest signals
        refine ⟨fun h => ?_, fun k d d' hd hd' => ?_⟩
        · obtain ⟨hc, hrest⟩ := Below.cons.mp h
          exact Below.cons.mpr ⟨fun id hid => (hc id hid).trans_le hle, hbelow hrest⟩
        · cases k with
          | zero =>
            cases hd
            cases hd'
            exact .inl rfl
          | succ k => exact hplaces k d d' hd hd'

theorem laterConnections_spec (c : IRInstanceConnection) {rest : List IRInstanceConnection}
    {signals : List IRSignal} (hrest : Below signals rest) :
    let later := laterConnections child c rest signals
    Below later.2 later.1 ∧
      ∀ (k : ℕ) (d d' : IRInstanceConnection), rest[k]? = some d → later.1[k]? = some d' →
        d' = d ∨ Redundant child c d ∧ ∃ id, d'.parentSignalId = some id ∧
          nextSignalId signals ≤ id := by
  have hsame : ∀ (k : ℕ) (d d' : IRInstanceConnection), rest[k]? = some d → rest[k]? = some d' →
      d' = d ∨ Redundant child c d ∧ ∃ id, d'.parentSignalId = some id ∧
        nextSignalId signals ≤ id :=
    fun k d d' hd hd' => .inl (Option.some.inj (hd'.symm.trans hd))
  rw [laterConnections]
  split
  · rename_i group hgroup
    split
    · exact ⟨hrest, hsame⟩
    · rename_i hconnected
      obtain ⟨hbelow, hplaces⟩ := @redirectLater_spec child c.slice group rest signals
      refine ⟨hbelow hrest, fun k d d' hd hd' => ?_⟩
      rcases hplaces k d d' hd hd' with h | ⟨hslice, hd, hid⟩
      · exact .inl h
      · exact .inr ⟨⟨hslice, hconnected, group, hgroup, hd⟩, hid⟩
  · exact ⟨hrest, hsame⟩

/-- Where a connection is changed, an earlier one of its slice and group is kept. -/
theorem deduplicateConnections_spec :
    ∀ (fuel : ℕ) (conns : List IRInstanceConnection) (signals : List IRSignal),
      Below signals conns →
      let result := (deduplicateConnections child fuel conns signals).1
      ∀ (k : ℕ) (c c' : IRInstanceConnection), conns[k]? = some c → result[k]? = some c' →
        c' = c ∨ ∃ j < k, ∃ d, conns[j]? = some d ∧ result[j]? = some d ∧ Redundant child d c
  | 0, conns, signals, _ | _ + 1, [], signals, _ => by
      intro result k c c' hc hc'
      exact .inl (Option.some.inj (hc'.symm.trans hc))
  | fuel + 1, c :: rest, signals, hbelow => by
      obtain ⟨-, hrest⟩ := Below.cons.mp hbelow
      obtain ⟨hbelow', hplaces⟩ := @laterConnections_spec child c rest signals hrest
      have hlen := congrArg List.length (@laterConnections_childPorts child c rest signals)
      rw [List.length_map, List.length_map] at hlen
      rw [deduplicateConnections_succ]
      set later := laterConnections child c rest signals
      have ih := deduplicateConnections_spec fuel later.1 later.2 hbelow'
      intro result k d d' hd hd'
      cases k with
      | zero =>
        cases hd
        cases hd'
        exact .inl rfl
      | succ k =>
        rw [List.getElem?_cons_succ] at hd hd'
        have hk : k < later.1.length := by
          rw [hlen]
          exact (List.getElem?_eq_some_iff.mp hd).1
        have he : later.1[k]? = some later.1[k] := List.getElem?_eq_getElem hk
        set e := later.1[k]
        rcases hplaces k d e hd he with rfl | ⟨hredundant, -⟩
        · rcases ih k e d' he hd' with h | ⟨j, hj, x, hx, hx', hredundant⟩
          · exact .inl h
          · have hjlen : j < rest.length := by
              rw [← hlen]
              exact (List.getElem?_eq_some_iff.mp hx).1
            have hy : rest[j]? = some rest[j] := List.getElem?_eq_getElem hjlen
            rcases hplaces j _ x hy hx with rfl | ⟨-, id, hid, hge⟩
            · exact .inr ⟨j + 1, by omega, _, hy, hx', hredundant⟩
            · -- A redirected connection has a signal of its own.
              have hsignal : e.parentSignalId = some id :=
                (congrArg Prod.fst hredundant.slice).trans hid
              exact absurd (hrest e (List.mem_of_getElem? hd) id hsignal) (by omega)
        · exact .inr ⟨0, Nat.succ_pos k, c, rfl, rfl, hredundant⟩

end

/-! ## Values of aliases -/

def signalValue (m : IRModule) (f : CtxState) (id : ℕ) : SimValue := evalSignal m f id 0

/-- A valuation in which every signal has its width and every whole alias on the path holds. -/
structure FollowsAliases (m : IRModule) (f : CtxState) : Prop where

  widths : ∀ sig ∈ m.signals, (signalValue m f sig.id).width = sig.width

  aliases : ∀ a ∈ pathAssignments m f m.asyncBlock, assignmentKindIsAlias a.kind = true →
    a.isSliced = false → signalValue m f a.lhsSignalId =
      extendRhs a.kind (simEvalExpr m f a.rhs) (signalValue m f a.lhsSignalId).width

/-- An alias outside of every condition, between two whole signals of one width. -/
structure PlainAlias (m : IRModule) (i j : ℕ) : Prop where

  assigned : ∃ a width, .assignment a ∈ topStmts m.asyncBlock ∧ a.lhsSignalId = i ∧
    a.rhs = .signalRef j width ∧ assignmentKindIsAlias a.kind = true ∧ a.isSliced = false

  sameWidth : ∃ left ∈ m.signals, ∃ right ∈ m.signals,
    left.id = i ∧ right.id = j ∧ left.width = right.width

/-- A chain of plain aliases leads from one signal to the other. -/
def Linked (m : IRModule) : ℕ → ℕ → Prop := Relation.EqvGen (PlainAlias m)

theorem extendRhs_self (kind : IRAssignmentKind) (v : SimValue) : extendRhs kind v v.width = v := by
  rw [extendRhs, simValZext, simValSext, if_pos le_rfl, if_pos le_rfl, if_pos rfl, ite_self,
    ite_self]

theorem evalSignal_eq {m : IRModule} {f : CtxState} {sig : IRSignal} (h : sig ∈ m.signals)
    (width : ℕ) : evalSignal m f sig.id width = signalValue m f sig.id := by
  obtain ⟨i, hi⟩ := Option.isSome_iff_exists.mp (@sigIndexFrom_isSome _ _ 0 h)
  have hindex : m.sigIndex sig.id = some i := hi
  rw [signalValue, evalSignal, evalSignal, hindex]

/-- Linked signals have one value. -/
theorem Linked.value {m : IRModule} {f : CtxState} (hf : FollowsAliases m f) {i j : ℕ}
    (h : Linked m i j) : signalValue m f i = signalValue m f j := by
  induction h with
  | rel i j halias =>
    obtain ⟨⟨a, width, htop, rfl, hrhs, hkind, hwhole⟩, left, hleft, right, hright, hli, rfl, hw⟩ :=
      halias
    have hpath : a ∈ pathAssignments m f m.asyncBlock :=
      (pathAssignments_top _ _).mpr ⟨_, htop, by rw [pathAssignments]; exact List.mem_cons_self⟩
    have hvalue := hf.aliases a hpath hkind hwhole
    have hwidth : (signalValue m f a.lhsSignalId).width = (signalValue m f right.id).width := by
      rw [hf.widths right hright, ← hw, ← hf.widths left hleft, hli]
    rw [hvalue, hrhs, simEvalExpr, evalSignal_eq hright, hwidth, extendRhs_self]
  | refl i => rfl
  | symm i j _ ih => exact ih.symm
  | trans i j k _ _ ih ih' => exact ih.trans ih'

/-! ## Whole designs -/

theorem lt_nextSignalId {signals : List IRSignal} :
    ∀ sig ∈ signals, sig.id < nextSignalId signals := by
  induction signals using List.reverseRecOn with
  | nil => exact fun _ h => absurd h List.not_mem_nil
  | append_singleton signals last ih =>
    intro sig hsig
    rw [nextSignalId_append]
    rcases List.mem_append.mp hsig with h | h
    · exact (ih sig h).trans_le (le_max_left _ _)
    · rw [List.mem_singleton.mp h]
      exact (Nat.lt_succ_self _).trans_le (le_max_right _ _)

/-- Every connection names a signal of its module, if it names one. -/
def LinkedModule.Connected (m : LinkedModule) : Prop :=
  ∀ inst ∈ m.instances, ∀ c ∈ inst.connections, ∀ id ∈ c.parentSignalId,
    ∃ sig ∈ m.signals, sig.id = id

theorem LinkedModule.Connected.below {m : LinkedModule} (h : m.Connected) :
    ∀ inst ∈ m.instances, Below m.signals inst.connections := by
  intro inst hinst c hc id hid
  obtain ⟨sig, hsig, rfl⟩ := h inst hinst c hc id hid
  exact lt_nextSignalId sig hsig

/-- Every connection keeps its port, and it keeps its slice unless an earlier connection of the
slice and group keeps it. -/
def KeepsRepresentatives (design : LinkedDesign) (inst inst' : ModuleInstance) : Prop :=
  ∀ (k : ℕ) (c : IRInstanceConnection), inst.connections[k]? = some c →
    ∃ c', inst'.connections[k]? = some c' ∧ c'.childPortId = c.childPortId ∧
      (c' = c ∨ ∃ child, design.child inst = some child ∧ ∃ j < k, ∃ d,
        inst.connections[j]? = some d ∧ inst'.connections[j]? = some d ∧ Redundant child d c)

theorem KeepsRepresentatives.refl (design : LinkedDesign) (inst : ModuleInstance) :
    KeepsRepresentatives design inst inst := fun _ c hc => ⟨c, hc, rfl, .inl rfl⟩

theorem keepsRepresentatives_deduplicate {design : LinkedDesign} {inst : ModuleInstance}
    {child : LinkedModule} (hchild : design.child inst = some child) {signals : List IRSignal}
    (hbelow : Below signals inst.connections) (fuel : ℕ) :
    KeepsRepresentatives design inst { inst with
      connections := (deduplicateConnections child fuel inst.connections signals).1 } := by
  intro k c hc
  have hports := congrArg (·[k]?) (@deduplicateConnections_childPorts child fuel inst.connections
    signals)
  simp only [List.getElem?_map, hc, Option.map_some] at hports
  obtain ⟨c', hc', hport⟩ := Option.map_eq_some_iff.mp hports
  refine ⟨c', hc', hport, ?_⟩
  rcases deduplicateConnections_spec fuel _ _ hbelow k c c' hc hc' with h | ⟨j, hj, d, h⟩
  · exact .inl h
  · exact .inr ⟨child, hchild, j, hj, d, h⟩

/-- The instances keep their order and their modules. -/
def KeepsInstances (design : LinkedDesign) (insts insts' : List ModuleInstance) : Prop :=
  List.Forall₂ (fun inst inst' => inst'.childModuleId = inst.childModuleId ∧
    KeepsRepresentatives design inst inst') insts insts'

theorem deduplicateInstances_spec {design : LinkedDesign} :
    ∀ (insts : List ModuleInstance) (signals : List IRSignal),
      (∀ inst ∈ insts, Below signals inst.connections) →
      AddsWires signals (deduplicateInstances design insts signals).2 ∧
        KeepsInstances design insts (deduplicateInstances design insts signals).1
  | [], signals, _ => ⟨AddsWires.refl signals, .nil⟩
  | inst :: rest, signals, hbelow => by
      rw [List.forall_mem_cons] at hbelow
      rw [deduplicateInstances]
      split
      · obtain ⟨hwires, hkeeps⟩ := deduplicateInstances_spec rest signals hbelow.2
        exact ⟨hwires, .cons ⟨rfl, KeepsRepresentatives.refl design inst⟩ hkeeps⟩
      · rename_i child hchild
        have hconns := @deduplicateConnections_addsWires child inst.connections.length
          inst.connections signals
        obtain ⟨hwires, hkeeps⟩ := deduplicateInstances_spec rest _
          fun inst hinst => (hbelow.2 inst hinst).mono hconns.nextSignalId_le
        exact ⟨hconns.trans hwires,
          .cons ⟨rfl, keepsRepresentatives_deduplicate hchild hbelow.1 _⟩ hkeeps⟩

/-! ## Drivers -/

/-- The bit is in the slice, which is the whole signal if there is none. -/
def InSlice (slice : Option (ℕ × ℕ)) (bit : ℕ) : Prop :=
  ∀ range ∈ slice, range.2 ≤ bit ∧ bit ≤ range.1

def IRAssignment.Sets (a : IRAssignment) (id bit : ℕ) : Prop :=
  a.lhsSignalId = id ∧ (a.isSliced = true → a.lhsLsb ≤ bit ∧ bit ≤ a.lhsMsb)

/-- The signal gets its value from outside of the module or from a clock. -/
def IRSignalKind.isSource : IRSignalKind → Bool
  | .port .portIn | .port .portInout | .register _ => true
  | _ => false

/-- What gives the bit of a signal its value. The ports that drive the signals of a parent are
given as a predicate on instances and ports. -/
inductive Driver (drives : ModuleInstance → ℕ → Prop) (m : LinkedModule) (id bit : ℕ) : Prop

  | source (sig : IRSignal) (hsig : m.findSignal id = some sig) (h : sig.kind.isSource = true)

  | assigned (a : IRAssignment) (ha : a ∈ assignments m.asyncBlock) (h : a.Sets id bit)

  | connected (inst : ModuleInstance) (hinst : inst ∈ m.instances) (c : IRInstanceConnection)
      (hc : c ∈ inst.connections) (hid : c.parentSignalId = some id)
      (hbit : InSlice c.parentSlice bit) (h : drives inst c.childPortId)

/-- The port of the instance is an output, or it goes both ways. -/
def LinkedDesign.Drives (design : LinkedDesign) (inst : ModuleInstance) (port : ℕ) : Prop :=
  ∃ child, design.child inst = some child ∧ (child.portDirection port = some .portOut ∨
    child.portDirection port = some .portInout)

/-- Every bit that something drives is still driven. -/
def KeepsDrivers (design design' : LinkedDesign) : Prop :=
  ∀ (k : ℕ) (m m' : LinkedModule), design[k]? = some m → design'[k]? = some m' →
    ∀ id bit, Driver design.Drives m id bit → Driver design'.Drives m' id bit

/-! ## The run over the modules -/

theorem AddsWires.find {signals signals' : List IRSignal} (h : AddsWires signals signals')
    {id : ℕ} {sig : IRSignal} (hsig : (signals.find? fun sig => sig.id == id) = some sig) :
    (signals'.find? fun sig => sig.id == id) = some sig := by
  obtain ⟨wires, -, rfl⟩ := h
  rw [List.find?_append, hsig, Option.some_or]

/-- What deduplication leaves of a module. -/
structure DeduplicatedModule (design : LinkedDesign) (m m' : LinkedModule) : Prop where

  groups : m'.portAliasGroups = m.portAliasGroups

  asyncBlock : m'.asyncBlock = m.asyncBlock

  signals : AddsWires m.signals m'.signals

  instances : KeepsInstances design m.instances m'.instances

namespace DeduplicatedModule

variable {design : LinkedDesign} {m m' : LinkedModule}

theorem refl (design : LinkedDesign) (m : LinkedModule) : DeduplicatedModule design m m where
  groups := rfl
  asyncBlock := rfl
  signals := AddsWires.refl _
  instances := List.forall₂_same.mpr fun inst _ => ⟨rfl, KeepsRepresentatives.refl design inst⟩

/-- The new signals are no ports. -/
theorem portDirection (h : DeduplicatedModule design m m') (id : ℕ) :
    m'.portDirection id = m.portDirection id := by
  rw [LinkedModule.portDirection, LinkedModule.portDirection, LinkedModule.findSignal,
    LinkedModule.findSignal]
  cases hfind : m.signals.find? fun sig => sig.id == id with
  | some sig => rw [h.signals.find hfind]
  | none =>
    obtain ⟨wires, hnet, hsignals⟩ := h.signals
    rw [hsignals, List.find?_append, hfind, Option.none_or]
    cases hwire : wires.find? fun sig => sig.id == id with
    | none => rfl
    | some wire =>
      simp only [Option.bind_some, hnet wire (List.mem_of_find?_eq_some hwire), Option.bind_none]

theorem outputGroup (h : DeduplicatedModule design m m') (c : IRInstanceConnection) :
    outputGroup m' c = JzHdl.outputGroup m c := by
  rw [JzHdl.outputGroup, JzHdl.outputGroup, h.portDirection, LinkedModule.findAliasGroupForPort,
    LinkedModule.findAliasGroupForPort, h.groups]

end DeduplicatedModule

/-- The modules keep their places, and the modules from the bound on are untouched. -/
def DeduplicatedTo (bound : ℕ) (design design' : LinkedDesign) : Prop :=
  ∀ k, Option.Rel (fun m m' => DeduplicatedModule design m m' ∧ (bound ≤ k → m' = m))
    design[k]? design'[k]?

theorem DeduplicatedTo.child {bound : ℕ} {design design' : LinkedDesign}
    (h : DeduplicatedTo bound design design') {inst : ModuleInstance} {child' : LinkedModule}
    (hchild : design'.child inst = some child') :
    ∃ child, design.child inst = some child ∧ DeduplicatedModule design child child' := by
  obtain ⟨k, hk, hchild⟩ := Option.bind_eq_some_iff.mp hchild
  have hrel := h k
  rw [hchild] at hrel
  generalize hm : design[k]? = m at hrel
  cases hrel with
  | some hrel => exact ⟨_, Option.bind_eq_some_iff.mpr ⟨k, hk, hm⟩, hrel.1⟩

theorem DeduplicatedTo.keepsInstances {bound : ℕ} {design design' : LinkedDesign}
    (h : DeduplicatedTo bound design design') {insts insts' : List ModuleInstance}
    (hkeeps : KeepsInstances design' insts insts') : KeepsInstances design insts insts' := by
  refine List.Forall₂.imp (fun inst inst' hinst => ⟨hinst.1, fun k c hc => ?_⟩) hkeeps
  obtain ⟨c', hc', hport, hrest⟩ := hinst.2 k c hc
  refine ⟨c', hc', hport, hrest.imp_right ?_⟩
  rintro ⟨child', hchild', j, hj, d, hd, hd', hslice, hconnected, group, hgroup, hgroup'⟩
  obtain ⟨child, hchild, hmodule⟩ := h.child hchild'
  rw [hmodule.outputGroup] at hgroup hgroup'
  exact ⟨child, hchild, j, hj, d, hd, hd', hslice, hconnected, group, hgroup, hgroup'⟩

/-- The step of the run: one more module is deduplicated. -/
theorem DeduplicatedTo.step {bound : ℕ} {design design' : LinkedDesign}
    (hconnected : ∀ m ∈ design, LinkedModule.Connected m)
    (h : DeduplicatedTo bound design design') : DeduplicatedTo (bound + 1) design
      (design'.modify bound (deduplicateAliasGroupDrivers design')) := by
  intro k
  have hrel := h k
  rw [List.getElem?_modify]
  generalize hm' : design'[k]? = m' at hrel
  generalize hm : design[k]? = m at hrel
  cases hrel with
  | none => exact .none
  | some hrel =>
    rename_i m m'
    refine .some ?_
    split_ifs with hk
    · obtain rfl := hrel.2 hk.le
      obtain ⟨hwires, hkeeps⟩ := @deduplicateInstances_spec design' m'.instances m'.signals
        (hconnected m' (List.mem_of_getElem? hm)).below
      exact ⟨⟨rfl, rfl, hwires, h.keepsInstances hkeeps⟩, fun hle => by omega⟩
    · exact ⟨hrel.1, fun hle => hrel.2 (by omega)⟩

/-- The run: every module is deduplicated. -/
theorem deduplicatedTo_foldl {design : LinkedDesign}
    (hconnected : ∀ m ∈ design, LinkedModule.Connected m) : ∀ bound, DeduplicatedTo bound design
      ((List.range bound).foldl
        (fun design k => design.modify k (deduplicateAliasGroupDrivers design)) design)
  | 0 => fun k => by
      rw [List.range_zero, List.foldl_nil]
      cases design[k]? with
      | none => exact .none
      | some m => exact .some ⟨DeduplicatedModule.refl design m, fun _ => rfl⟩
  | bound + 1 => by
      rw [List.range_succ, List.foldl_append]
      exact DeduplicatedTo.step hconnected (deduplicatedTo_foldl hconnected bound)

/-! ## What is redirected repeats a value -/

/-- Every connection keeps its port. A redirected one carries, under every valuation, the value of
an earlier connection to its slice, which is kept. -/
def RepeatsValues (design : LinkedDesign) (inst inst' : ModuleInstance) : Prop :=
  ∀ (k : ℕ) (c : IRInstanceConnection), inst.connections[k]? = some c →
    ∃ c', inst'.connections[k]? = some c' ∧ c'.childPortId = c.childPortId ∧
      (c' = c ∨ ∃ child, design.child inst = some child ∧ ∃ j < k, ∃ d,
        inst.connections[j]? = some d ∧ inst'.connections[j]? = some d ∧ d.slice = c.slice ∧
        ∀ f, FollowsAliases child.toIRModule f →
          signalValue child.toIRModule f c.childPortId =
            signalValue child.toIRModule f d.childPortId)

/-- The connections that one pass redirects were redundant. -/
structure RedirectsRedundant (design design' : LinkedDesign) : Prop where

  instances : ∀ (k : ℕ) (m m' : LinkedModule), design[k]? = some m → design'[k]? = some m' →
    List.Forall₂ (RepeatsValues design) m.instances m'.instances

  drivers : KeepsDrivers design design'

/-- Outputs of one group at one slice are linked. -/
def GroupsLinked (design : LinkedDesign) : Prop :=
  ∀ m ∈ design, ∀ inst ∈ m.instances, ∀ child, design.child inst = some child →
    ∀ c ∈ inst.connections, ∀ d ∈ inst.connections, Redundant child c d →
      Linked child.toIRModule c.childPortId d.childPortId

theorem outputGroup_direction {child : LinkedModule} {c : IRInstanceConnection} {group : ℕ}
    (h : outputGroup child c = some group) :
    child.portDirection c.childPortId = some .portOut := by
  rw [outputGroup] at h
  split_ifs at h with hdirection
  exact hdirection

section

variable {design design' : LinkedDesign} {bound : ℕ}

theorem DeduplicatedTo.drives (h : DeduplicatedTo bound design design')
    {inst inst' : ModuleInstance} (hinst : inst'.childModuleId = inst.childModuleId) {port : ℕ}
    (hdrives : design.Drives inst port) : design'.Drives inst' port := by
  obtain ⟨child, hchild, hdirection⟩ := hdrives
  obtain ⟨k, hk, hm⟩ := Option.bind_eq_some_iff.mp hchild
  have hrel := h k
  rw [hm] at hrel
  generalize hm' : design'[k]? = m' at hrel
  cases hrel with
  | some hrel =>
    refine ⟨_, Option.bind_eq_some_iff.mpr ⟨k, hinst.trans hk, hm'⟩, ?_⟩
    rw [hrel.1.portDirection]
    exact hdirection

/-- A redirected connection leaves the driver that it repeats. -/
theorem DeduplicatedTo.keepsDrivers (h : DeduplicatedTo bound design design') :
    KeepsDrivers design design' := by
  intro k m m' hm hm' id bit hdriver
  have hrel := h k
  rw [hm, hm'] at hrel
  cases hrel with
  | some hrel =>
    obtain ⟨hmodule, -⟩ := hrel
    cases hdriver with
    | source sig hsig hsource => exact .source sig (hmodule.signals.find hsig) hsource
    | assigned a ha hsets =>
      rw [← hmodule.asyncBlock] at ha
      exact .assigned a ha hsets
    | connected inst hinst c hc hid hbit hdrives =>
      obtain ⟨i, hi, rfl⟩ := List.getElem_of_mem hinst
      have hi' : i < m'.instances.length := by
        rw [← List.Forall₂.length_eq hmodule.instances]
        exact hi
      obtain ⟨hchild, hkeeps⟩ := List.Forall₂.get hmodule.instances hi hi'
      obtain ⟨n, hn, rfl⟩ := List.getElem_of_mem hc
      obtain ⟨c', hc', hport, rfl | ⟨child, hchild', j, -, d, hd, hd', hredundant⟩⟩ :=
        hkeeps n _ (List.getElem?_eq_getElem hn)
      · exact .connected _ (List.getElem_mem hi') _ (List.mem_of_getElem? hc') hid hbit
          (h.drives hchild hdrives)
      · obtain ⟨group, hgroup, -⟩ := hredundant.group
        have hslice := hredundant.slice
        refine .connected _ (List.getElem_mem hi') d (List.mem_of_getElem? hd') ?_ ?_
          (h.drives hchild ⟨child, hchild', .inl (outputGroup_direction hgroup)⟩)
        · rw [← hid]
          exact (congrArg Prod.fst hslice).symm
        · rw [← show _ = d.parentSlice from congrArg Prod.snd hslice]
          exact hbit

end

/-- Where the outputs of the groups are linked, deduplication redirects redundant connections
alone. -/
theorem redirectsRedundant_of_groupsLinked {design : LinkedDesign}
    (hconnected : ∀ m ∈ design, LinkedModule.Connected m) (hlinked : GroupsLinked design) :
    RedirectsRedundant design (deduplicateModules design) := by
  have hrun := deduplicatedTo_foldl hconnected design.length
  refine ⟨fun k m m' hm hm' => ?_, hrun.keepsDrivers⟩
  have hrel := hrun k
  rw [deduplicateModules] at hm'
  rw [hm, hm'] at hrel
  cases hrel with
  | some hrel =>
    have hmem : ∀ inst ∈ m.instances, ∀ inst', KeepsRepresentatives design inst inst' →
        RepeatsValues design inst inst' := by
      intro inst hinst inst' hkeeps n c hc
      obtain ⟨c', hc', hport, hrest⟩ := hkeeps n c hc
      refine ⟨c', hc', hport, hrest.imp_right ?_⟩
      rintro ⟨child, hchild, j, hj, d, hd, hd', hredundant⟩
      refine ⟨child, hchild, j, hj, d, hd, hd', hredundant.slice.symm, fun f hf => ?_⟩
      exact ((hlinked m (List.mem_of_getElem? hm) inst hinst child hchild d
        (List.mem_of_getElem? hd) c (List.mem_of_getElem? hc) hredundant).value hf).symm
    have hinstances := hrel.1.instances
    refine List.forall₂_iff_get.mpr ⟨List.Forall₂.length_eq hinstances, fun i hi hi' => ?_⟩
    exact hmem _ (List.get_mem _ _) _ (List.Forall₂.get hinstances hi hi').2

end JzHdl

import JzHdl.Ir.PortGroups

/-! # Passthrough loops

An output that an instance connects to the slice of one of its inputs is taken for an echo of
the input. The port becomes an input, and its assignments go to a wire that nothing reads. The
conversion is right if the output carries the value of the input and something else drives the
slice.
-/

namespace JzHdl

/-! ## The pass -/

section

variable (oldId newId : ℕ)

def retarget (a : IRAssignment) : IRAssignment :=
  if a.lhsSignalId = oldId then { a with lhsSignalId := newId } else a

mutual

def rewriteLhs : IRStmt → IRStmt
  | .assignment a => .assignment (retarget oldId newId a)
  | .block stmts => .block (rewriteLhsIn stmts)
  | .ifStmt condition thenBlock elifChain elseBlock =>
    .ifStmt condition (rewriteLhs thenBlock) (rewriteLhs elifChain) (rewriteLhs elseBlock)
  | .select selector cases => .select selector (rewriteLhsCases cases)
  | .null => .null
  | .memWrite memoryName address data => .memWrite memoryName address data

def rewriteLhsIn : List IRStmt → List IRStmt
  | [] => []
  | stmt :: rest => rewriteLhs stmt :: rewriteLhsIn rest

def rewriteLhsCases : List (IRExpr × IRStmt) → List (IRExpr × IRStmt)
  | [] => []
  | (value, body) :: rest => (value, rewriteLhs body) :: rewriteLhsCases rest

end

end

/-- Make the first signal of the identifier an input. -/
def setPortIn (port : ℕ) : List IRSignal → List IRSignal
  | [] => []
  | sig :: rest =>
    if sig.id == port then { sig with kind := .port .portIn } :: rest
    else sig :: setPortIn port rest

/-- Turn an output into an input and give its assignments a wire of their own. -/
def convertPort (child : LinkedModule) (port : ℕ) : LinkedModule :=
  let width := (child.findSignal port).elim 0 IRSignal.width
  { child with
    signals := setPortIn port (addWire child.signals width)
    asyncBlock := rewriteLhs port (nextSignalId child.signals) child.asyncBlock }

/-- The slices that the inputs of an instance are connected to. -/
def inputSlices (child : LinkedModule) (conns : List IRInstanceConnection) :
    List (Option ℕ × Option (ℕ × ℕ)) :=
  (conns.filter fun c =>
    c.parentSignalId.isSome && decide (child.portDirection c.childPortId = some .portIn)).map
      IRInstanceConnection.slice

def eliminateConnection (inputs : List (Option ℕ × Option (ℕ × ℕ))) (child : LinkedModule)
    (c : IRInstanceConnection) : LinkedModule :=
  if c.parentSignalId.isSome && decide (child.portDirection c.childPortId = some .portOut) &&
      decide (c.slice ∈ inputs) then
    convertPort child c.childPortId
  else child

def eliminateInstance (conns : List IRInstanceConnection) (child : LinkedModule) : LinkedModule :=
  conns.foldl (eliminateConnection (inputSlices child conns)) child

/-- One instance changes the signals of its module. -/
def eliminateChild (design : LinkedDesign) (inst : ModuleInstance) : LinkedDesign :=
  match inst.childModuleId with
  | none => design
  | some k => design.modify k (eliminateInstance inst.connections)

/-- `eliminate_passthrough_loops`, which leaves the instances of the modules as they are. -/
def eliminatePassthroughLoops (design : LinkedDesign) (k : ℕ) : LinkedDesign :=
  match design[k]? with
  | none => design
  | some parent => parent.instances.foldl eliminateChild design

/-- The phase, which goes through the modules. -/
def eliminateModules (design : LinkedDesign) : LinkedDesign :=
  (List.range design.length).foldl eliminatePassthroughLoops design

/-! ## Assignments and signals -/

section

variable {oldId newId : ℕ}

mutual

theorem assignments_rewriteLhs : ∀ stmt : IRStmt,
    assignments (rewriteLhs oldId newId stmt) = (assignments stmt).map (retarget oldId newId)
  | .null | .memWrite .. => by rw [rewriteLhs, assignments, List.map_nil]
  | .assignment a => by
      rw [rewriteLhs, assignments, assignments, List.map_singleton]
  | .ifStmt condition thenBlock elifChain elseBlock => by
      rw [rewriteLhs, assignments, assignments, assignments_rewriteLhs thenBlock,
        assignments_rewriteLhs elifChain, assignments_rewriteLhs elseBlock, List.map_append,
        List.map_append]
  | .select selector cases => by
      rw [rewriteLhs, assignments, assignments, casesAssignments_rewriteLhs cases]
  | .block stmts => by
      rw [rewriteLhs, assignments, assignments, stmtsAssignments_rewriteLhs stmts]

theorem casesAssignments_rewriteLhs : ∀ cases : List (IRExpr × IRStmt),
    casesAssignments (rewriteLhsCases oldId newId cases) =
      (casesAssignments cases).map (retarget oldId newId)
  | [] => rfl
  | (value, body) :: rest => by
      rw [rewriteLhsCases, casesAssignments, casesAssignments, assignments_rewriteLhs body,
        casesAssignments_rewriteLhs rest, List.map_append]

theorem stmtsAssignments_rewriteLhs : ∀ stmts : List IRStmt,
    stmtsAssignments (rewriteLhsIn oldId newId stmts) =
      (stmtsAssignments stmts).map (retarget oldId newId)
  | [] => rfl
  | stmt :: rest => by
      rw [rewriteLhsIn, stmtsAssignments, stmtsAssignments, assignments_rewriteLhs stmt,
        stmtsAssignments_rewriteLhs rest, List.map_append]

end

end

theorem setPortIn_find {port id : ℕ} {signals : List IRSignal} :
    (setPortIn port signals).find? (fun sig => sig.id == id) =
      (signals.find? fun sig => sig.id == id).map fun sig =>
        if id = port then { sig with kind := .port .portIn } else sig := by
  induction signals with
  | nil => rfl
  | cons sig rest ih =>
    rw [setPortIn, List.find?_cons]
    by_cases hport : sig.id = port
    · rw [if_pos (beq_iff_eq.mpr hport), List.find?_cons]
      by_cases hid : sig.id = id
      · rw [beq_iff_eq.mpr hid, Option.map_some, if_pos (hid.symm.trans hport)]
      · have hne : id ≠ port := fun h => hid (hport.trans h.symm)
        simp only [beq_eq_false_iff_ne.mpr hid, if_neg hne, Option.map_id']
    · rw [if_neg fun h => hport (beq_iff_eq.mp h), List.find?_cons]
      by_cases hid : sig.id = id
      · rw [beq_iff_eq.mpr hid, Option.map_some, if_neg fun h => hport (hid.trans h)]
      · rw [beq_eq_false_iff_ne.mpr hid]
        exact ih

/-! ## What a conversion leaves -/

/-- What the pass leaves of a module: outputs that may be converted are inputs at most, and an
assignment is lost by an input alone. -/
structure ConvertedModule (converts : ℕ → Prop) (m m' : LinkedModule) : Prop where

  instances : m'.instances = m.instances

  signals : ∀ id sig, m.findSignal id = some sig → ∃ sig', m'.findSignal id = some sig' ∧
    (sig'.kind = sig.kind ∨
      sig.kind = .port .portOut ∧ converts id ∧ sig'.kind = .port .portIn)

  fresh : ∀ id, m.findSignal id = none → m'.portDirection id = none

  assigned : ∀ a ∈ assignments m.asyncBlock, a ∈ assignments m'.asyncBlock ∨
    m'.portDirection a.lhsSignalId = some .portIn

namespace LinkedModule

variable {m : LinkedModule} {id : ℕ}

theorem portDirection_of_find {sig : IRSignal} (h : m.findSignal id = some sig) :
    ∀ direction, sig.kind = .port direction → m.portDirection id = some direction := by
  intro direction hkind
  rw [portDirection, h, Option.bind_some, hkind]

theorem find_of_portDirection {direction : IRPortDirection}
    (h : m.portDirection id = some direction) :
    ∃ sig, m.findSignal id = some sig ∧ sig.kind = .port direction := by
  obtain ⟨sig, hsig, hkind⟩ := Option.bind_eq_some_iff.mp h
  refine ⟨sig, hsig, ?_⟩
  cases hk : sig.kind with
  | port d =>
    rw [hk] at hkind
    rw [Option.some.inj hkind]
  | net | latch | register _ =>
    rw [hk] at hkind
    cases hkind

theorem portDirection_congr {m' : LinkedModule} {sig sig' : IRSignal}
    (h : m.findSignal id = some sig) (h' : m'.findSignal id = some sig')
    (hkind : sig'.kind = sig.kind) : m'.portDirection id = m.portDirection id := by
  rw [portDirection, portDirection, h, h', Option.bind_some, Option.bind_some, hkind]

end LinkedModule

namespace ConvertedModule

variable {converts : ℕ → Prop} {m m' m'' : LinkedModule}

theorem refl (converts : ℕ → Prop) (m : LinkedModule) : ConvertedModule converts m m where
  instances := rfl
  signals := fun _ sig h => ⟨sig, h, .inl rfl⟩
  fresh := fun id h => by rw [LinkedModule.portDirection, h, Option.bind_none]
  assigned := fun _ ha => .inl ha

/-- A port keeps its direction, or it is a converted output. -/
theorem portDirection (h : ConvertedModule converts m m') (id : ℕ) :
    m'.portDirection id = m.portDirection id ∨
      m.portDirection id = some .portOut ∧ converts id ∧ m'.portDirection id = some .portIn := by
  cases hsig : m.findSignal id with
  | none =>
    left
    rw [h.fresh id hsig, LinkedModule.portDirection, hsig, Option.bind_none]
  | some sig =>
    obtain ⟨sig', hsig', hkind | ⟨hout, hconverts, hin⟩⟩ := h.signals id sig hsig
    · exact .inl (LinkedModule.portDirection_congr hsig hsig' hkind)
    · exact .inr ⟨LinkedModule.portDirection_of_find hsig _ hout, hconverts,
        LinkedModule.portDirection_of_find hsig' _ hin⟩

theorem input (h : ConvertedModule converts m m') {id : ℕ}
    (hid : m.portDirection id = some .portIn) : m'.portDirection id = some .portIn := by
  rcases h.portDirection id with h | ⟨-, -, h⟩
  · exact h.trans hid
  · exact h

end ConvertedModule

/-- Converting one more output. -/
theorem ConvertedModule.convertPort {converts : ℕ → Prop} {m m' : LinkedModule}
    (h : ConvertedModule converts m m') {port : ℕ}
    (hout : m'.portDirection port = some .portOut) (hconverts : converts port) :
    ConvertedModule converts m (convertPort m' port) := by
  obtain ⟨portSig, hportSig, hportKind⟩ := LinkedModule.find_of_portDirection hout
  have hfind : ∀ id, (JzHdl.convertPort m' port).findSignal id =
      ((addWire m'.signals portSig.width).find? fun sig => sig.id == id).map fun sig =>
        if id = port then { sig with kind := .port .portIn } else sig := by
    intro id
    rw [LinkedModule.findSignal, JzHdl.convertPort, hportSig]
    exact setPortIn_find
  have hwire := AddsWires.addWire m'.signals portSig.width
  have hold : ∀ id sig', m'.findSignal id = some sig' →
      (JzHdl.convertPort m' port).findSignal id =
        some (if id = port then { sig' with kind := .port .portIn } else sig') := by
    intro id sig' hsig'
    rw [hfind, hwire.find hsig', Option.map_some]
  have hport : (JzHdl.convertPort m' port).portDirection port = some .portIn := by
    refine LinkedModule.portDirection_of_find (hold port portSig hportSig) _ ?_
    rw [if_pos rfl]
  refine ⟨h.instances, fun id sig hsig => ?_, fun id hid => ?_, fun a ha => ?_⟩
  · obtain ⟨sig', hsig', hkind⟩ := h.signals id sig hsig
    refine ⟨_, hold id sig' hsig', ?_⟩
    by_cases hid : id = port
    · rw [if_pos hid]
      subst hid
      obtain rfl := Option.some.inj (hportSig.symm.trans hsig')
      rcases hkind with hkind | ⟨-, -, hin⟩
      · exact .inr ⟨hkind.symm.trans hportKind, hconverts, rfl⟩
      · rw [hportKind] at hin
        cases hin
    · rw [if_neg hid]
      exact hkind
  · have hne : id ≠ port := by
      rintro rfl
      have hnone := h.fresh id hid
      rw [hout] at hnone
      cases hnone
    have hnone := h.fresh id hid
    cases hsig' : m'.findSignal id with
    | some sig' =>
      rw [← hnone]
      refine LinkedModule.portDirection_congr hsig' (hold id sig' hsig') ?_
      rw [if_neg hne]
    | none =>
      rw [LinkedModule.portDirection, hfind, JzHdl.addWire, List.find?_append]
      rw [LinkedModule.findSignal] at hsig'
      rw [hsig', Option.none_or]
      cases hnew : [(⟨nextSignalId m'.signals, .net, portSig.width⟩ : IRSignal)].find?
          fun sig => sig.id == id with
      | none => rfl
      | some wire =>
        obtain rfl := List.mem_singleton.mp (List.mem_of_find?_eq_some hnew)
        rw [Option.map_some, Option.bind_some, if_neg hne]
  · by_cases hid : a.lhsSignalId = port
    · right
      rw [hid]
      exact hport
    · rcases h.assigned a ha with ha | hin
      · left
        rw [JzHdl.convertPort, assignments_rewriteLhs]
        exact List.mem_map.mpr ⟨a, ha, if_neg hid⟩
      · right
        obtain ⟨sig', hsig', hkind⟩ := LinkedModule.find_of_portDirection hin
        refine LinkedModule.portDirection_of_find (hold _ sig' hsig') _ ?_
        rw [if_neg hid]
        exact hkind

/-! ## Echoes -/

/-- An instance of some module connects an output of the child to the slice of an input. -/
def EchoesInput (design : LinkedDesign) (k : ℕ) (port : ℕ) : Prop :=
  ∃ parent ∈ design, ∃ inst ∈ parent.instances, inst.childModuleId = some k ∧
    ∃ child, design[k]? = some child ∧ ∃ c ∈ inst.connections, c.childPortId = port ∧
      c.parentSignalId ≠ none ∧ ∃ d ∈ inst.connections, d.slice = c.slice ∧
        child.portDirection d.childPortId = some .portIn

/-- Wherever an output is an echo for some instance, every instance connects it as a linked
echo. -/
def EchoesLinked (design : LinkedDesign) : Prop :=
  ∀ k child port, design[k]? = some child → child.portDirection port = some .portOut →
    EchoesInput design k port → ∀ parent ∈ design, ∀ inst ∈ parent.instances,
      inst.childModuleId = some k → ∀ c ∈ inst.connections, c.childPortId = port →
        c.parentSignalId ≠ none → ∃ d ∈ inst.connections, d.slice = c.slice ∧
          child.portDirection d.childPortId = some .portIn ∧
          Linked child.toIRModule port d.childPortId

/-- The ports that drive the signals of a parent and are no echoes. -/
def LinkedDesign.Lasts (design : LinkedDesign) (inst : ModuleInstance) (port : ℕ) : Prop :=
  design.Drives inst port ∧ ∀ k, inst.childModuleId = some k → ∀ child, design[k]? = some child →
    child.portDirection port = some .portOut → ¬EchoesInput design k port

/-- What an echo drives has a driver that is no echo. -/
def EchoesDriven (design : LinkedDesign) : Prop :=
  ∀ k child, design[k]? = some child → ∀ parent ∈ design, ∀ inst ∈ parent.instances,
    inst.childModuleId = some k → ∀ c ∈ inst.connections,
      child.portDirection c.childPortId = some .portOut → EchoesInput design k c.childPortId →
        ∀ id ∈ c.parentSignalId, ∀ bit, InSlice c.parentSlice bit →
          Driver design.Lasts parent id bit

/-- The modules keep their places, and outputs that echo an input may be converted. -/
def ConvertedDesign (design design' : LinkedDesign) : Prop :=
  ∀ k, Option.Rel (ConvertedModule (EchoesInput design k)) design[k]? design'[k]?

section

variable {design design' : LinkedDesign}

theorem mem_inputSlices {child : LinkedModule} {conns : List IRInstanceConnection}
    {slice : Option ℕ × Option (ℕ × ℕ)} (h : slice ∈ inputSlices child conns) :
    ∃ d ∈ conns, d.slice = slice ∧ child.portDirection d.childPortId = some .portIn := by
  obtain ⟨d, hd, rfl⟩ := List.mem_map.mp h
  obtain ⟨hd, hinput⟩ := List.mem_filter.mp hd
  exact ⟨d, hd, rfl, of_decide_eq_true (Bool.and_eq_true_iff.mp hinput).2⟩

/-- One instance converts echoes alone. An input that was converted before it stands for an input
at the same slice. -/
theorem ConvertedModule.eliminateInstance (hlinked : EchoesLinked design) {k : ℕ}
    {m m' : LinkedModule} (hm : design[k]? = some m)
    (h : ConvertedModule (EchoesInput design k) m m') {parent : LinkedModule}
    (hparent : parent ∈ design) {inst : ModuleInstance} (hinst : inst ∈ parent.instances)
    (hk : inst.childModuleId = some k) : ConvertedModule (EchoesInput design k) m
      (eliminateInstance inst.connections m') := by
  have hechoes : ∀ c ∈ inst.connections, c.parentSignalId ≠ none →
      c.slice ∈ inputSlices m' inst.connections → EchoesInput design k c.childPortId := by
    intro c hc hconnected hslice
    obtain ⟨d, hd, hdc, hin⟩ := mem_inputSlices hslice
    suffices hinput : ∃ e ∈ inst.connections, e.slice = c.slice ∧
        m.portDirection e.childPortId = some .portIn from
      ⟨parent, hparent, inst, hinst, hk, m, hm, c, hc, rfl, hconnected, hinput⟩
    rcases h.portDirection d.childPortId with hsame | ⟨hout, hecho, -⟩
    · exact ⟨d, hd, hdc, hsame.symm.trans hin⟩
    · have hdconnected : d.parentSignalId ≠ none := by
        rw [show d.parentSignalId = c.parentSignalId from congrArg Prod.fst hdc]
        exact hconnected
      obtain ⟨e, he, hed, hein, -⟩ := hlinked k m d.childPortId hm hout hecho parent hparent inst
        hinst hk d hd rfl hdconnected
      exact ⟨e, he, hed.trans hdc, hein⟩
  have hstep : ∀ (conns : List IRInstanceConnection), (∀ c ∈ conns, c ∈ inst.connections) →
      ∀ child, ConvertedModule (EchoesInput design k) m child →
        ConvertedModule (EchoesInput design k) m
          (conns.foldl (eliminateConnection (inputSlices m' inst.connections)) child) := by
    intro conns
    induction conns with
    | nil => exact fun _ child hchild => hchild
    | cons c rest ih =>
      intro hsub child hchild
      rw [List.forall_mem_cons] at hsub
      refine ih hsub.2 _ ?_
      rw [eliminateConnection]
      split_ifs with hcond
      · simp only [Bool.and_eq_true, decide_eq_true_eq] at hcond
        obtain ⟨⟨hconnected, hout⟩, hslice⟩ := hcond
        exact hchild.convertPort hout
          (hechoes c hsub.1 (Option.isSome_iff_ne_none.mp hconnected) hslice)
      · exact hchild
  exact hstep inst.connections (fun c hc => hc) m' h

/-- The step of the run: one more instance. -/
theorem ConvertedDesign.eliminateInstances (hlinked : EchoesLinked design)
    {parent : LinkedModule} (hparent : parent ∈ design) :
    ∀ (insts : List ModuleInstance), (∀ inst ∈ insts, inst ∈ parent.instances) →
      ∀ design', ConvertedDesign design design' →
        ConvertedDesign design (insts.foldl eliminateChild design')
  | [], _, _, h => h
  | inst :: rest, hsub, design', h => by
      rw [List.forall_mem_cons] at hsub
      refine ConvertedDesign.eliminateInstances hlinked hparent rest hsub.2 _ ?_
      rw [eliminateChild]
      split
      · exact h
      · rename_i k hk
        intro n
        have hrel := h n
        rw [List.getElem?_modify]
        generalize hm : design[n]? = m at hrel
        generalize design'[n]? = m' at hrel
        cases hrel with
        | none => exact .none
        | some hrel =>
          refine .some ?_
          split_ifs with hkn
          · subst hkn
            exact hrel.eliminateInstance hlinked hm hparent hsub.1 hk
          · exact hrel

theorem convertedDesign_refl (design : LinkedDesign) : ConvertedDesign design design := by
  intro k
  cases design[k]? with
  | none => exact .none
  | some m => exact .some (ConvertedModule.refl _ m)

/-- The run over the modules. -/
theorem convertedDesign_eliminateModules (hlinked : EchoesLinked design) :
    ConvertedDesign design (eliminateModules design) := by
  have hrun : ∀ (ks : List ℕ) (design' : LinkedDesign), ConvertedDesign design design' →
      ConvertedDesign design (ks.foldl eliminatePassthroughLoops design') := by
    intro ks
    induction ks with
    | nil => exact fun _ h => h
    | cons k ks ih =>
      intro design' h
      refine ih _ ?_
      rw [eliminatePassthroughLoops]
      split
      · exact h
      · rename_i parent' hparent'
        have hrel := h k
        rw [hparent'] at hrel
        generalize hparent : design[k]? = parent at hrel
        cases hrel with
        | some hrel =>
          rw [hrel.instances]
          exact ConvertedDesign.eliminateInstances hlinked (List.mem_of_getElem? hparent) _
            (fun _ hinst => hinst) _ h
  exact hrun _ _ (convertedDesign_refl design)

end

/-! ## What is converted repeats a value -/

def sliceValue (m : IRModule) (f : CtxState) (id : ℕ) : Option (ℕ × ℕ) → SimValue
  | none => signalValue m f id
  | some (msb, lsb) => simEvalExpr m f (.slice id msb lsb (msb - lsb + 1))

/-- Valuations of a parent and of a child that fit at one instance: the child follows its
aliases, and its inputs carry the slices that they are connected to. -/
structure Feeds (parent child : LinkedModule) (inst : ModuleInstance) (f g : CtxState) :
    Prop where

  follows : FollowsAliases child.toIRModule g

  inputs : ∀ c ∈ inst.connections, child.portDirection c.childPortId = some .portIn →
    ∀ id ∈ c.parentSignalId, signalValue child.toIRModule g c.childPortId =
      sliceValue parent.toIRModule f id c.parentSlice

/-- The outputs that one pass converts were redundant. In every instance they carried the value
of the slice that they are connected to, and every signal is still driven. -/
structure ConvertsRedundant (design design' : LinkedDesign) : Prop where

  instances : ∀ (k : ℕ) (m m' : LinkedModule), design[k]? = some m → design'[k]? = some m' →
    m'.instances = m.instances

  values : ∀ (k : ℕ) (child child' : LinkedModule), design[k]? = some child →
    design'[k]? = some child' → ∀ port, child.portDirection port = some .portOut →
      child'.portDirection port = some .portIn → ∀ parent ∈ design, ∀ inst ∈ parent.instances,
        inst.childModuleId = some k → ∀ c ∈ inst.connections, c.childPortId = port →
          ∀ id ∈ c.parentSignalId, ∀ f g, Feeds parent child inst f g →
            signalValue child.toIRModule g port =
              sliceValue parent.toIRModule f id c.parentSlice

  drivers : KeepsDrivers design design'

section

variable {design design' : LinkedDesign}

theorem ConvertedDesign.module {k : ℕ} {m m' : LinkedModule} (h : ConvertedDesign design design')
    (hm : design[k]? = some m) (hm' : design'[k]? = some m') :
    ConvertedModule (EchoesInput design k) m m' := by
  have hrel := h k
  rw [hm, hm'] at hrel
  cases hrel with
  | some hrel => exact hrel

theorem ConvertedDesign.drives (h : ConvertedDesign design design') {inst : ModuleInstance}
    {port : ℕ} (hlasts : design.Lasts inst port) : design'.Drives inst port := by
  obtain ⟨⟨child, hchild, hdirection⟩, hecho⟩ := hlasts
  obtain ⟨k, hk, hm⟩ := Option.bind_eq_some_iff.mp hchild
  have hrel := h k
  rw [hm] at hrel
  generalize hm' : design'[k]? = m' at hrel
  cases hrel with
  | some hrel =>
    refine ⟨_, Option.bind_eq_some_iff.mpr ⟨k, hk, hm'⟩, ?_⟩
    rcases hrel.portDirection port with hsame | ⟨hout, hechoes, -⟩
    · rw [hsame]
      exact hdirection
    · exact absurd hechoes (hecho k hk child hm hout)

/-- A driver that is no echo is still there, or its signal has become an input. -/
theorem ConvertedDesign.driver (h : ConvertedDesign design design') {k : ℕ}
    {m m' : LinkedModule} (hm : design[k]? = some m) (hm' : design'[k]? = some m') {id bit : ℕ}
    (hdriver : Driver design.Lasts m id bit) : Driver design'.Drives m' id bit := by
  have hmodule := h.module hm hm'
  cases hdriver with
  | source sig hsig hsource =>
    obtain ⟨sig', hsig', hkind | ⟨hout, -⟩⟩ := hmodule.signals id sig hsig
    · refine .source sig' hsig' ?_
      rw [hkind]
      exact hsource
    · rw [hout] at hsource
      cases hsource
  | assigned a ha hsets =>
    rcases hmodule.assigned a ha with ha | hin
    · exact .assigned a ha hsets
    · rw [hsets.1] at hin
      obtain ⟨sig, hsig, hkind⟩ := LinkedModule.find_of_portDirection hin
      exact .source sig hsig (by rw [hkind]; rfl)
  | connected inst hinst c hc hid hbit hlasts =>
    rw [← hmodule.instances] at hinst
    exact .connected inst hinst c hc hid hbit (h.drives hlasts)

/-- A signal that an echo drives has another driver, and every other driver lasts. -/
theorem driver_lasts (hdriven : EchoesDriven design) {m : LinkedModule} (hm : m ∈ design)
    {id bit : ℕ} (hdriver : Driver design.Drives m id bit) : Driver design.Lasts m id bit := by
  cases hdriver with
  | source sig hsig hsource => exact .source sig hsig hsource
  | assigned a ha hsets => exact .assigned a ha hsets
  | connected inst hinst c hc hid hbit hdrives =>
    by_cases hlasts : design.Lasts inst c.childPortId
    · exact .connected inst hinst c hc hid hbit hlasts
    · have hecho : ¬∀ k, inst.childModuleId = some k → ∀ child, design[k]? = some child →
          child.portDirection c.childPortId = some .portOut →
            ¬EchoesInput design k c.childPortId := fun h => hlasts ⟨hdrives, h⟩
      simp only [not_forall, not_not] at hecho
      obtain ⟨k, hk, child, hchild, hout, hecho⟩ := hecho
      exact hdriven k child hchild m hm inst hinst hk c hc hout hecho id hid bit hbit

end

/-- Where the echoes are linked to inputs and do not drive alone, elimination converts redundant
outputs alone. -/
theorem convertsRedundant_of_echoes {design : LinkedDesign} (hlinked : EchoesLinked design)
    (hdriven : EchoesDriven design) : ConvertsRedundant design (eliminateModules design) := by
  have hrun := convertedDesign_eliminateModules hlinked
  refine ⟨fun k m m' hm hm' => (hrun.module hm hm').instances, ?_, ?_⟩
  · intro k child child' hchild hchild' port hout hin parent hparent inst hinst hk c hc hport id hid
      f g hfeeds
    rcases (hrun.module hchild hchild').portDirection port with hsame | ⟨-, hecho, -⟩
    · rw [hsame, hout] at hin
      cases hin
    · have hconnected : c.parentSignalId ≠ none := by
        rw [show c.parentSignalId = some id from hid]
        nofun
      obtain ⟨d, hd, hslice, hdin, hlink⟩ := hlinked k child port hchild hout hecho parent hparent
        inst hinst hk c hc hport hconnected
      have hdid : d.parentSignalId = some id := (congrArg Prod.fst hslice).trans hid
      rw [hlink.value hfeeds.follows, hfeeds.inputs d hd hdin id hdid,
        show d.parentSlice = c.parentSlice from congrArg Prod.snd hslice]
  · intro k m m' hm hm' id bit hdriver
    exact hrun.driver hm hm' (driver_lasts hdriven (List.mem_of_getElem? hm) hdriver)

/-- A child whose outputs both copy one signal, the input or a register. -/
def echoChild (source : ℕ) : LinkedModule where
  signals := [⟨0, .port .portIn, 1⟩, ⟨1, .port .portOut, 1⟩, ⟨2, .port .portOut, 1⟩,
    ⟨3, .register ⟨.zero, 1, false⟩, 1⟩]
  memories := []
  clockDomains := []
  asyncBlock := .block [.assignment ⟨1, .signalRef source 1, .alias, false, 0, 0⟩,
    .assignment ⟨2, .signalRef source 1, .alias, false, 0, 0⟩]
  instances := []
  portAliasGroups := []

/-- A parent that connects the three ports of the child to one wire. -/
def echoParent (asyncBlock : IRStmt) : LinkedModule where
  signals := [⟨0, .net, 1⟩]
  memories := []
  clockDomains := []
  asyncBlock := asyncBlock
  instances := [⟨⟨[⟨some 0, 0, none, false⟩, ⟨some 0, 1, none, false⟩,
    ⟨some 0, 2, none, false⟩]⟩, some 0⟩]
  portAliasGroups := []

/-- The wire of the parent is driven by a literal. -/
def drivenParent : LinkedModule :=
  echoParent (.assignment ⟨0, .literal ⟨.zero, 1, false⟩ 1, .alias, false, 0, 0⟩)

theorem echoChild_linked {c : IRInstanceConnection}
    (hc : c ∈ [(⟨some 0, 0, none, false⟩ : IRInstanceConnection), ⟨some 0, 1, none, false⟩,
      ⟨some 0, 2, none, false⟩]) : Linked (echoChild 0).toIRModule c.childPortId 0 := by
  simp only [List.mem_cons, List.not_mem_nil, or_false] at hc
  rcases hc with rfl | rfl | rfl
  · exact .refl 0
  · refine .rel _ _ ⟨⟨_, 1, List.mem_cons_self, rfl, rfl, rfl, rfl⟩, ?_⟩
    exact ⟨⟨1, .port .portOut, 1⟩, List.mem_cons_of_mem _ List.mem_cons_self,
      ⟨0, .port .portIn, 1⟩, List.mem_cons_self, rfl, rfl, rfl⟩
  · refine .rel _ _ ⟨⟨_, 1, List.mem_cons_of_mem _ List.mem_cons_self, rfl, rfl, rfl, rfl⟩, ?_⟩
    exact ⟨⟨2, .port .portOut, 1⟩, List.mem_cons_of_mem _ (List.mem_cons_of_mem _
      List.mem_cons_self), ⟨0, .port .portIn, 1⟩, List.mem_cons_self, rfl, rfl, rfl⟩

theorem echoDesign_instance {parent : LinkedModule} (hparent : parent ∈ [echoChild 0, drivenParent])
    {inst : ModuleInstance} (hinst : inst ∈ parent.instances) :
    parent = drivenParent ∧ inst.childModuleId = some 0 ∧
      inst.connections = [⟨some 0, 0, none, false⟩, ⟨some 0, 1, none, false⟩,
        ⟨some 0, 2, none, false⟩] := by
  simp only [List.mem_cons, List.not_mem_nil, or_false] at hparent
  rcases hparent with rfl | rfl
  · exact absurd hinst List.not_mem_nil
  · rw [List.mem_singleton.mp hinst]
    exact ⟨rfl, rfl, rfl⟩

theorem echoDesign_groupsLinked :
    GroupsLinked (withPortAliasGroups [echoChild 0, drivenParent]) := by
  intro grouped hgrouped inst hinst child hchild c hc d hd _
  obtain ⟨m, hm, rfl⟩ := List.mem_map.mp hgrouped
  obtain ⟨rfl, hk, hconns⟩ := echoDesign_instance hm hinst
  rw [LinkedDesign.child, hk] at hchild
  obtain rfl := Option.some.inj hchild
  rw [hconns] at hc hd
  exact (echoChild_linked hc).trans _ _ _ (echoChild_linked hd).symm

theorem echoDesign_echoesLinked : EchoesLinked [echoChild 0, drivenParent] := by
  intro k child port hchild _ _ parent hparent inst hinst hk c hc hport _
  obtain ⟨rfl, hk', hconns⟩ := echoDesign_instance hparent hinst
  obtain rfl := Option.some.inj (hk.symm.trans hk')
  obtain rfl := Option.some.inj hchild
  rw [hconns] at hc ⊢
  refine ⟨_, List.mem_cons_self, ?_, rfl, hport ▸ echoChild_linked hc⟩
  simp only [List.mem_cons, List.not_mem_nil, or_false] at hc
  rcases hc with rfl | rfl | rfl <;> rfl

theorem echoDesign_echoesDriven : EchoesDriven [echoChild 0, drivenParent] := by
  intro k child hchild parent hparent inst hinst hk c hc _ _ id hid bit _
  obtain ⟨rfl, -, hconns⟩ := echoDesign_instance hparent hinst
  rw [hconns] at hc
  have hzero : id = 0 := by
    simp only [List.mem_cons, List.not_mem_nil, or_false] at hc
    rcases hc with rfl | rfl | rfl <;> exact (Option.some.inj hid).symm
  exact .assigned _ List.mem_cons_self ⟨hzero.symm, fun h => by cases h⟩

end JzHdl

import JzHdl.Ir.MemLowering

/-! # Writes of a lowered block

The IR of a SYNCHRONOUS block makes a memory write exactly when all conditions
on the way to some write statement hold. The walk binds a port to the one signal
that its statements offer. Both inductions follow the statements.
-/

namespace JzHdl

/-! ## Traces -/

/-- A trace makes a memory write. -/
def TraceMakes (tr : List Access) (w : Write) : Prop :=
  w ∈ traceWrites tr ∧ ∃ i a v, w = .cell i a v

section

variable {m : IRModule} {s : CtxState} {w : Write}

theorem traceMakes_nil : ¬ TraceMakes [] w := fun h => by
  simp [TraceMakes, traceWrites] at h

theorem traceMakes_eval {e : IRExpr} {tr : List Access} :
    TraceMakes (.eval e :: tr) w ↔ TraceMakes tr w := Iff.rfl

theorem traceMakes_append {tr tr' : List Access} :
    TraceMakes (tr ++ tr') w ↔ TraceMakes tr w ∨ TraceMakes tr' w := by
  simp only [TraceMakes, traceWrites_append, List.mem_append, or_and_right]

theorem makesWrite_iff {stmt : IRStmt} :
    MakesWrite m s stmt w ↔ TraceMakes (stmtTrace m s stmt) w := Iff.rfl

theorem makesWrite_null : ¬ MakesWrite m s .null w := by
  rw [makesWrite_iff, stmtTrace]
  exact traceMakes_nil

theorem traceMakes_stmts (stmts : List IRStmt) :
    TraceMakes (stmtsTrace m s stmts) w ↔ ∃ stmt ∈ stmts, MakesWrite m s stmt w := by
  induction stmts with
  | nil =>
    rw [stmtsTrace]
    constructor
    · exact fun h => (traceMakes_nil h).elim
    · rintro ⟨_, h, _⟩
      exact (List.not_mem_nil h).elim
  | cons stmt rest ih =>
    rw [stmtsTrace, traceMakes_append, ih, List.exists_mem_cons_iff, makesWrite_iff]

theorem makesWrite_block {stmts : List IRStmt} :
    MakesWrite m s (.block stmts) w ↔ ∃ stmt ∈ stmts, MakesWrite m s stmt w := by
  rw [makesWrite_iff, stmtTrace, traceMakes_stmts]

theorem stmtTrace_makeBlock (stmts : List IRStmt) :
    stmtTrace m s (irMakeBlock stmts) = stmtsTrace m s stmts := by
  cases stmts with
  | nil => rw [irMakeBlock, stmtTrace, stmtsTrace]
  | cons stmt rest =>
    rw [irMakeBlock, stmtTrace]
    exact List.cons_ne_nil stmt rest

theorem makesWrite_assignment {a : IRAssignment} : ¬ MakesWrite m s (.assignment a) w := by
  rw [makesWrite_iff, stmtTrace, assignTrace]
  rintro ⟨hmem, i, a', v, rfl⟩
  cases hi : m.sigIndex a.lhsSignalId with
  | none => simp [hi, traceWrites] at hmem
  | some j => simp [hi, traceWrites] at hmem

theorem makesWrite_assignments (assigns : List IRAssignment) :
    ¬ TraceMakes (stmtsTrace m s (assigns.map .assignment)) w := by
  rw [traceMakes_stmts]
  rintro ⟨stmt, hmem, h⟩
  obtain ⟨a, -, rfl⟩ := List.mem_map.mp hmem
  exact makesWrite_assignment h

theorem makesWrite_memWrite {memory : String} {address data : IRExpr} :
    MakesWrite m s (.memWrite memory address data) w ↔ Stores m s memory address data w := by
  rw [makesWrite_iff, stmtTrace, memWriteTrace]
  cases hmem : m.memOf memory with
  | none =>
    simp only [Stores, hmem]
    exact ⟨fun h => (traceMakes_nil h).elim, fun ⟨_, _, _, h, _⟩ => by cases h⟩
  | some p =>
    obtain ⟨i, mem⟩ := p
    cases ha : simValueToMemIndex (simEvalExpr m s address) mem.depth with
    | none =>
      constructor
      · rintro ⟨h, -⟩
        simp [ha, traceWrites] at h
      · rintro ⟨i', mem', a, hmem', ha', -⟩
        cases hmem.symm.trans hmem'
        rw [ha] at ha'
        cases ha'
    | some a =>
      constructor
      · rintro ⟨h, -⟩
        simp only [ha, traceWrites, List.cons_append, List.nil_append, List.mem_singleton] at h
        exact ⟨i, mem, a, hmem, ha, h⟩
      · rintro ⟨i', mem', a', hmem', ha', rfl⟩
        cases hmem.symm.trans hmem'
        cases ha.symm.trans ha'
        refine ⟨?_, i, a, _, rfl⟩
        simp [ha, traceWrites]

/-- Without further branches an IF makes the writes of its body when the condition is true. -/
theorem makesWrite_if {cond : IRExpr} {body : IRStmt} :
    MakesWrite m s (.ifStmt cond body .null .null) w ↔
      simValIsTrue (simEvalExpr m s cond) = some true ∧ MakesWrite m s body w := by
  rw [makesWrite_iff, stmtTrace, traceMakes_eval]
  rcases hc : simValIsTrue (simEvalExpr m s cond) with _ | _ | _
  · simp [traceMakes_nil]
  · simp only [elifTrace, stmtTrace, List.append_nil, Option.some.injEq, Bool.false_eq_true,
      false_and, iff_false]
    exact traceMakes_nil
  · exact (and_iff_right rfl).symm

/-! ## Sites -/

theorem writes_under {g : Guard} {site : WriteSite} :
    (site.under g).Writes m s w ↔ g.Holds m s ∧ site.Writes m s w := by
  simp only [WriteSite.Writes, WriteSite.under, List.forall_mem_cons, and_assoc]

theorem exists_writes_under {g : Guard} {sites : List WriteSite} :
    (∃ site ∈ sites.map (WriteSite.under g), site.Writes m s w) ↔
      g.Holds m s ∧ ∃ site ∈ sites, site.Writes m s w := by
  constructor
  · rintro ⟨_, hmem, h⟩
    obtain ⟨site, hsite, rfl⟩ := List.mem_map.mp hmem
    exact ⟨(writes_under.mp h).1, site, hsite, (writes_under.mp h).2⟩
  · rintro ⟨hg, site, hsite, h⟩
    exact ⟨_, List.mem_map_of_mem hsite, writes_under.mpr ⟨hg, h⟩⟩

theorem exists_writes_append {sites sites' : List WriteSite} :
    (∃ site ∈ sites ++ sites', site.Writes m s w) ↔
      (∃ site ∈ sites, site.Writes m s w) ∨ ∃ site ∈ sites', site.Writes m s w := by
  simp only [List.mem_append, or_and_right, exists_or]

theorem exists_writes_nil : ¬ ∃ site ∈ ([] : List WriteSite), site.Writes m s w :=
  fun ⟨_, h, _⟩ => List.not_mem_nil h

/-! ## Statements -/

/-- Behind the ELIF branches comes the ELSE, unless one of them is taken or unknown. -/
def elifThenElse (r : Bool × List Access) (elseTrace : List Access) : List Access :=
  if r.1 then r.2 else r.2 ++ elseTrace

theorem elifThenElse_eval {b : Bool} {tr elseTrace : List Access} {e : IRExpr} :
    TraceMakes (elifThenElse (b, .eval e :: tr) elseTrace) w ↔
      TraceMakes (elifThenElse (b, tr) elseTrace) w := by
  cases b with
  | false => exact Iff.rfl
  | true => exact Iff.rfl

/-- The writes of an IF, by its condition. -/
theorem makesWrite_ifStmt {cond : IRExpr} {body elifChain elseBlock : IRStmt} :
    MakesWrite m s (.ifStmt cond body elifChain elseBlock) w ↔
      (Guard.holds cond).Holds m s ∧ MakesWrite m s body w ∨
      (Guard.fails cond).Holds m s ∧
        TraceMakes (elifThenElse (elifTrace m s elifChain) (stmtTrace m s elseBlock)) w := by
  rw [makesWrite_iff, stmtTrace, traceMakes_eval, Guard.Holds, Guard.Holds]
  rcases hc : simValIsTrue (simEvalExpr m s cond) with _ | _ | _
  · simp [traceMakes_nil]
  · rcases he : elifTrace m s elifChain with ⟨_ | _, tr⟩
    · simp [elifThenElse]
    · simp [elifThenElse]
  · simp [makesWrite_iff]

/-- A write in an arm needs a known selector and no arm before it that is taken. -/
theorem sitesOfArms_guarded {selector : IRExpr} : ∀ (before : List IRExpr) (arms : SyncArms),
    (∃ site ∈ sitesOfArms selector before arms, site.Writes m s w) →
      simValHasXz (simEvalExpr m s selector) = false ∧
        ∀ e ∈ before, ¬ armTaken m s (simEvalExpr m s selector) e
  | _, .nil, h => by
    rw [sitesOfArms] at h
    exact (exists_writes_nil h).elim
  | before, .cons value body rest, h => by
    rw [sitesOfArms, exists_writes_append, exists_writes_under] at h
    rcases h with ⟨⟨hx, hbefore, -⟩, -⟩ | h
    · exact ⟨hx, hbefore⟩
    · obtain ⟨hx, hbefore⟩ := sitesOfArms_guarded _ rest h
      exact ⟨hx, fun e he => hbefore e (List.mem_append_left _ he)⟩

theorem casesTrace_taken {v : SimValue} {value : IRExpr} {body : IRStmt}
    {rest : List (IRExpr × IRStmt)} (h : armTaken m s v value) :
    TraceMakes (casesTrace m s v ((value, body) :: rest)) w ↔ MakesWrite m s body w := by
  rw [casesTrace]
  by_cases hnull : value.isNull = true
  · rw [if_pos hnull, makesWrite_iff]
  · rw [if_neg hnull, if_pos (h.resolve_left hnull), traceMakes_eval, makesWrite_iff]

theorem casesTrace_skipped {v : SimValue} {value : IRExpr} {body : IRStmt}
    {rest : List (IRExpr × IRStmt)} (h : ¬ armTaken m s v value) :
    TraceMakes (casesTrace m s v ((value, body) :: rest)) w ↔
      TraceMakes (casesTrace m s v rest) w := by
  rw [casesTrace, if_neg fun hnull => h (.inl hnull), if_neg fun heq => h (.inr heq),
    traceMakes_eval]

variable (m s w)

mutual

theorem makesWrite_irBuildStmt : ∀ stmt : SyncStmt,
    MakesWrite m s (irBuildStmt stmt) w ↔ ∃ site ∈ sitesOfStmt stmt, site.Writes m s w
  | .assign assigns => by
    rw [irBuildStmt, sitesOfStmt, makesWrite_iff, stmtTrace]
    exact iff_of_false (makesWrite_assignments assigns) exists_writes_nil
  | .memWrite memory port address data => by
    rw [irBuildStmt, sitesOfStmt, makesWrite_memWrite]
    simp only [List.mem_singleton, exists_eq_left, WriteSite.Writes, List.not_mem_nil,
      false_implies, implies_true, true_and]
  | .ifChain cond body elifs elseBody => by
    rw [irBuildStmt, sitesOfStmt, makesWrite_ifStmt, exists_writes_append, exists_writes_under,
      exists_writes_under, makesWrite_iff, stmtTrace_makeBlock,
      traceMakes_irBuildStmts body, stmtTrace_makeBlock,
      traceMakes_irBuildElifs elifs (traceMakes_irBuildStmts elseBody)]
  | .select selector arms => by
    rw [irBuildStmt, sitesOfStmt, makesWrite_iff, stmtTrace, traceMakes_eval]
    cases hx : simValHasXz (simEvalExpr m s selector.irBuildExpr) with
    | false =>
      exact traceMakes_irBuildArms selector.irBuildExpr hx [] (fun _ h => (List.not_mem_nil h).elim)
        arms
    | true =>
      refine iff_of_false traceMakes_nil fun h => ?_
      exact Bool.false_ne_true ((sitesOfArms_guarded [] arms h).1.symm.trans hx)
  | .feature active thenBody elseBody => by
    rw [irBuildStmt, sitesOfStmt, makesWrite_iff, stmtTrace_makeBlock]
    cases active with
    | false => exact traceMakes_irBuildStmts elseBody
    | true => exact traceMakes_irBuildStmts thenBody

theorem traceMakes_irBuildStmts : ∀ stmts : SyncStmts,
    TraceMakes (stmtsTrace m s (irBuildStmts stmts)) w ↔
      ∃ site ∈ sitesOfStmts stmts, site.Writes m s w
  | .nil => by
    rw [irBuildStmts, sitesOfStmts, stmtsTrace]
    exact iff_of_false traceMakes_nil exists_writes_nil
  | .cons stmt rest => by
    rw [irBuildStmts, sitesOfStmts, stmtsTrace, traceMakes_append, exists_writes_append,
      ← makesWrite_iff, makesWrite_irBuildStmt stmt, traceMakes_irBuildStmts rest]

theorem traceMakes_irBuildElifs : ∀ (elifs : SyncElifs) {elseTrace : List Access}
    {elseSites : List WriteSite},
    (TraceMakes elseTrace w ↔ ∃ site ∈ elseSites, site.Writes m s w) →
    (TraceMakes (elifThenElse (elifTrace m s (irBuildElifs elifs)) elseTrace) w ↔
      ∃ site ∈ sitesOfElifs elifs elseSites, site.Writes m s w)
  | .nil, _, _, helse => by
    rw [irBuildElifs, sitesOfElifs, elifTrace]
    · exact helse
    · exact fun _ _ _ _ h => by cases h
  | .cons cond body rest, _, _, helse => by
    rw [irBuildElifs, sitesOfElifs, elifTrace, exists_writes_append, exists_writes_under,
      exists_writes_under, Guard.Holds, Guard.Holds, ← traceMakes_irBuildStmts body,
      ← traceMakes_irBuildElifs rest helse]
    rcases hc : simValIsTrue (simEvalExpr m s cond.irBuildExpr) with _ | _ | _
    · simp [elifThenElse, traceMakes_eval, traceMakes_nil]
    · simp [elifThenElse_eval]
    · simp [elifThenElse, traceMakes_eval, stmtTrace_makeBlock]

theorem traceMakes_irBuildArms (selector : IRExpr)
    (hx : simValHasXz (simEvalExpr m s selector) = false) : ∀ (before : List IRExpr),
    (∀ e ∈ before, ¬ armTaken m s (simEvalExpr m s selector) e) → ∀ arms : SyncArms,
    (TraceMakes (casesTrace m s (simEvalExpr m s selector) (irBuildArms arms)) w ↔
      ∃ site ∈ sitesOfArms selector before arms, site.Writes m s w)
  | _, _, .nil => by
    rw [irBuildArms, sitesOfArms, casesTrace]
    exact iff_of_false traceMakes_nil exists_writes_nil
  | before, hbefore, .cons value body rest => by
    rw [irBuildArms, sitesOfArms, exists_writes_append, exists_writes_under,
      ← traceMakes_irBuildStmts body]
    by_cases htaken : armTaken m s (simEvalExpr m s selector) (armValue value)
    · rw [casesTrace_taken htaken, makesWrite_iff, stmtTrace_makeBlock]
      have hlate : ¬ ∃ site ∈ sitesOfArms selector (before ++ [armValue value]) rest,
          site.Writes m s w := fun h =>
        (sitesOfArms_guarded _ rest h).2 _ (List.mem_append_right _ (List.mem_singleton_self _))
          htaken
      rw [or_iff_left hlate, and_iff_right ⟨hx, hbefore, htaken⟩]
    · have hlast : ∀ e ∈ before ++ [armValue value],
          ¬ armTaken m s (simEvalExpr m s selector) e := by
        intro e he
        rcases List.mem_append.mp he with he | he
        · exact hbefore e he
        · exact List.mem_singleton.mp he ▸ htaken
      rw [casesTrace_skipped htaken, traceMakes_irBuildArms selector hx _ hlast rest,
        or_iff_right fun h => htaken h.1.2.2]

end

end

/-! ## Lowered domains -/

section

variable {m : IRModule} {s : CtxState} {w : Write}

theorem makesWrite_irBuildBlock (body : SyncStmts) :
    MakesWrite m s (irBuildBlock body) w ↔ ∃ site ∈ sitesOfStmts body, site.Writes m s w := by
  rw [irBuildBlock, makesWrite_iff, stmtTrace_makeBlock, traceMakes_irBuildStmts]

/-- A domain makes the writes of its sites. -/
theorem makesWrite_domainStatements (block : SyncBlock) :
    MakesWrite m s (domainStatements block) w ↔
      ∃ site ∈ domainSites block, site.Writes m s w := by
  rw [domainStatements.eq_def, domainSites.eq_def]
  cases block.reset with
  | none => exact makesWrite_irBuildBlock block.body
  | some r =>
    have hloads : ¬ MakesWrite m s (irMakeBlock (r.loads.map .assignment)) w := by
      rw [makesWrite_iff, stmtTrace_makeBlock]
      exact makesWrite_assignments r.loads
    dsimp only
    rw [makesWrite_ifStmt, or_iff_right fun h => hloads h.2, exists_writes_under,
      ← makesWrite_irBuildBlock, makesWrite_iff]
    simp [elifThenElse, elifTrace]

theorem makesWrite_appendStmt (tree stmt : IRStmt) :
    MakesWrite m s (appendStmt tree stmt) w ↔ MakesWrite m s stmt w ∨ MakesWrite m s tree w := by
  cases stmt with
  | null => rw [appendStmt, or_iff_right makesWrite_null]
  | block stmts =>
    rw [appendStmt, makesWrite_block, makesWrite_block]
    simp only [List.mem_append, List.mem_singleton, or_and_right, exists_or, exists_eq_left]
  | assignment | ifStmt | select | memWrite =>
    rw [appendStmt, makesWrite_block]
    · simp only [List.exists_mem_cons_iff, List.not_mem_nil, false_and, exists_false, or_false]
    all_goals
      intros
      contradiction

/-- The write of an appended port. -/
def PortWrites (m : IRModule) (s : CtxState) (mod : MemModule) (p : BoundPort) (w : Write) :
    Prop :=
  simValIsTrue (evalSignal m s p.enable 1) = some true ∧
    Stores m s p.memory (.signalRef p.addr (mod.widthOf p.addr))
      (.signalRef p.dataIn (mod.widthOf p.dataIn)) w

theorem makesWrite_portStmt {mod : MemModule} {p : BoundPort} :
    MakesWrite m s (portStmt mod p) w ↔ PortWrites m s mod p w := by
  rw [portStmt, makesWrite_if, makesWrite_memWrite, simEvalExpr, PortWrites]

theorem makesWrite_memTree {mod : MemModule} {reset : Option SyncReset} {ports : List BoundPort} :
    MakesWrite m s (memTree mod reset ports) w ↔
      ResetReleased m s reset ∧ ∃ p ∈ ports, PortWrites m s mod p w := by
  have hports : MakesWrite m s (.block (ports.map (portStmt mod))) w ↔
      ∃ p ∈ ports, PortWrites m s mod p w := by
    rw [makesWrite_block]
    simp only [List.mem_map, exists_exists_and_eq_and, makesWrite_portStmt]
  cases reset with
  | none => rw [memTree, hports, ResetReleased, true_and]
  | some r =>
    rw [memTree, makesWrite_if, hports, ResetReleased]
    cases r.active with
    | activeHigh =>
      simp only [simEvalExpr]
    | activeLow =>
      simp only [simEvalExpr]

variable (fam : MemFamily) {cd : ℕ} {block : SyncBlock}

theorem makesWrite_lowerIn {mod : MemModule} {stmt : IRStmt} :
    MakesWrite m s (fam.lowerIn cd block mod stmt) w ↔ MakesWrite m s stmt w ∨
      ResetReleased m s block.reset ∧ ∃ p ∈ fam.appended mod cd, PortWrites m s mod p w := by
  rw [MemFamily.lowerIn]
  by_cases hempty : (fam.appended mod cd).isEmpty = true
  · rw [if_pos hempty, List.isEmpty_iff.mp hempty]
    simp
  · rw [if_neg hempty, makesWrite_appendStmt, makesWrite_memTree]

/-- The lowering adds the writes of the appended ports outside the reset. -/
theorem makesWrite_lowered :
    MakesWrite m s (fam.lowered cd block) w ↔ MakesWrite m s (domainStatements block) w ∨
      ResetReleased m s block.reset ∧
        ∃ mod ∈ fam.modules, ∃ p ∈ fam.appended mod cd, PortWrites m s mod p w := by
  have hfold : ∀ (mods : List MemModule) (stmt : IRStmt),
      MakesWrite m s (mods.foldl (fun stmt mod => fam.lowerIn cd block mod stmt) stmt) w ↔
        MakesWrite m s stmt w ∨ ResetReleased m s block.reset ∧
          ∃ mod ∈ mods, ∃ p ∈ fam.appended mod cd, PortWrites m s mod p w := by
    intro mods
    induction mods with
    | nil => simp
    | cons mod rest ih =>
      intro stmt
      rw [List.foldl_cons, ih, makesWrite_lowerIn, List.exists_mem_cons_iff, and_or_left, or_assoc]
  exact hfold fam.modules _

end

/-! ## Bindings -/

def MemPortBinding.accept (b : MemPortBinding) (o : PortOffer) : MemPortBinding :=
  b.candidate o.addr o.dataIn o.enable

/-- The offers to one port are accepted one by one. -/
def acceptAll (memory port : String) (b : MemPortBinding) (offers : List PortOffer) :
    MemPortBinding :=
  (offers.filter fun o => o.memory = memory ∧ o.port = port).foldl .accept b

section

variable {memory port : String}

theorem acceptAll_append (b : MemPortBinding) (offers offers' : List PortOffer) :
    acceptAll memory port b (offers ++ offers') =
      acceptAll memory port (acceptAll memory port b offers) offers' := by
  rw [acceptAll, List.filter_append, List.foldl_append, ← acceptAll, ← acceptAll]

theorem acceptAll_nil (b : MemPortBinding) : acceptAll memory port b [] = b := rfl

mutual

theorem bindStmt_accepts (enable : PortSlot) : ∀ (stmt : SyncStmt) (b : MemPortBindings),
    bindStmt enable stmt b memory port =
      acceptAll memory port (b memory port) (offersOfStmt enable stmt)
  | .assign _, b => by
    rw [bindStmt, offersOfStmt, acceptAll_nil]
  | .memWrite memory' port' address data, b => by
    rw [bindStmt, offersOfStmt, acceptAll]
    by_cases h : memory' = memory ∧ port' = port
    · obtain ⟨rfl, rfl⟩ := h
      simp [MemPortBinding.accept]
    · have hother : ¬ (memory = memory' ∧ port = port') := fun h' => h ⟨h'.1.symm, h'.2.symm⟩
      dsimp only
      rw [if_neg hother, List.filter_cons_of_neg (by simpa using h)]
      rfl
  | .ifChain cond body elifs elseBody, b => by
    rw [bindStmt, offersOfStmt, acceptAll_append, acceptAll_append, bindStmts_accepts,
      bindElifs_accepts, bindStmts_accepts]
  | .select _ arms, b => by
    rw [bindStmt, offersOfStmt, bindArms_accepts]
  | .feature _ thenBody elseBody, b => by
    rw [bindStmt, offersOfStmt, acceptAll_append, bindStmts_accepts, bindStmts_accepts]

theorem bindStmts_accepts (enable : PortSlot) : ∀ (stmts : SyncStmts) (b : MemPortBindings),
    bindStmts enable stmts b memory port =
      acceptAll memory port (b memory port) (offersOfStmts enable stmts)
  | .nil, b => by
    rw [bindStmts, offersOfStmts, acceptAll_nil]
  | .cons stmt rest, b => by
    rw [bindStmts, offersOfStmts, acceptAll_append, bindStmts_accepts, bindStmt_accepts]

theorem bindElifs_accepts (enable : PortSlot) : ∀ (elifs : SyncElifs) (b : MemPortBindings),
    bindElifs enable elifs b memory port =
      acceptAll memory port (b memory port) (offersOfElifs enable elifs)
  | .nil, b => by
    rw [bindElifs, offersOfElifs, acceptAll_nil]
  | .cons cond body rest, b => by
    rw [bindElifs, offersOfElifs, acceptAll_append, bindElifs_accepts, bindStmts_accepts]

theorem bindArms_accepts (enable : PortSlot) : ∀ (arms : SyncArms) (b : MemPortBindings),
    bindArms enable arms b memory port =
      acceptAll memory port (b memory port) (offersOfArms enable arms)
  | .nil, b => by
    rw [bindArms, offersOfArms, acceptAll_nil]
  | .cons _ body rest, b => by
    rw [bindArms, offersOfArms, acceptAll_append, bindArms_accepts, bindStmts_accepts]

end

/-- The walk accepts the offers of all write statements of a port in order. -/
theorem bindMemWritePorts_accepts (blocks : List SyncStmts) :
    bindMemWritePorts blocks memory port =
      (portOffers blocks memory port).foldl .accept .none := by
  have hfold : ∀ (blocks : List SyncStmts) (b : MemPortBindings),
      blocks.foldl (fun b body => bindStmts .unbound body b) b memory port =
        acceptAll memory port (b memory port) (blocks.flatMap (offersOfStmts .unbound)) := by
    intro blocks
    induction blocks with
    | nil => exact fun b => (acceptAll_nil _).symm
    | cons body rest ih =>
      intro b
      rw [List.foldl_cons, ih, List.flatMap_cons, acceptAll_append, bindStmts_accepts]
  exact hfold blocks _

end

/-! ## Slots -/

namespace PortSlot

/-- What a slot knows of the offers so far. -/
def Knows : PortSlot → List (Option ℕ) → Prop
  | .unbound, offers => ∀ id, some id ∉ offers
  | .signal id, offers => OnlySignal offers id
  | .conflict, offers => ∃ id id', id ≠ id' ∧ some id ∈ offers ∧ some id' ∈ offers

theorem Knows.add {slot : PortSlot} {offers : List (Option ℕ)} (h : slot.Knows offers)
    (o : Option ℕ) : (slot.add o).Knows (offers ++ [o]) := by
  cases o with
  | none =>
    have hmem : ∀ id, some id ∈ offers ++ [none] ↔ some id ∈ offers := by simp
    cases slot with
    | unbound => exact fun id hid => h id ((hmem id).mp hid)
    | signal id => exact ⟨(hmem id).mpr h.1, fun id' hid => h.2 id' ((hmem id').mp hid)⟩
    | conflict =>
      obtain ⟨id, id', hne, hid, hid'⟩ := h
      exact ⟨id, id', hne, (hmem id).mpr hid, (hmem id').mpr hid'⟩
  | some n =>
    have hlast : some n ∈ offers ++ [some n] := by simp
    have hold : ∀ {id}, some id ∈ offers → some id ∈ offers ++ [some n] :=
      fun hid => List.mem_append_left _ hid
    cases slot with
    | unbound =>
      refine ⟨hlast, fun id' hid => ?_⟩
      rcases List.mem_append.mp hid with hid | hid
      · exact (h id' hid).elim
      · simpa using hid
    | signal id =>
      rw [PortSlot.add]
      split
      · rename_i heq
        refine ⟨hold h.1, fun id' hid => ?_⟩
        rcases List.mem_append.mp hid with hid | hid
        · exact h.2 id' hid
        · simpa [heq] using hid
      · rename_i hne
        exact ⟨id, n, hne, hold h.1, hlast⟩
    | conflict =>
      obtain ⟨id, id', hne, hid, hid'⟩ := h
      exact ⟨id, id', hne, hold hid, hold hid'⟩

theorem knows_foldl (offers : List (Option ℕ)) :
    (offers.foldl add unbound).Knows offers := by
  induction offers using List.reverseRecOn with
  | nil => exact fun _ h => List.not_mem_nil h
  | append_singleton offers o ih =>
    rw [List.foldl_append]
    exact ih.add o

/-- A slot is bound by the one signal that is offered. -/
theorem bound_foldl {offers : List (Option ℕ)} {id : ℕ} :
    (offers.foldl add unbound).bound = some id ↔ OnlySignal offers id := by
  have h := knows_foldl offers
  rcases hslot : offers.foldl add unbound with _ | n | _ <;> rw [hslot] at h
  · exact iff_of_false nofun fun honly => h id honly.1
  · constructor
    · intro hid
      cases hid
      exact h
    · exact fun honly => congrArg some (honly.2 n h.1)
  · obtain ⟨n, n', hne, hn, hn'⟩ := h
    exact iff_of_false nofun fun honly =>
      hne ((honly.2 n hn).trans (honly.2 n' hn').symm)

end PortSlot

/-! ## Appended ports -/

section

variable {memory port : String}

theorem complete_iff {b : MemPortBinding} {p : BoundPort} :
    b.complete memory = some p ↔ p.memory = memory ∧ b.addr.bound = some p.addr ∧
      b.dataIn.bound = some p.dataIn ∧ b.enable.bound = some p.enable := by
  rw [MemPortBinding.complete]
  obtain ⟨memory', addr, dataIn, enable⟩ := p
  rcases b.addr.bound with _ | a
  · simp
  rcases b.dataIn.bound with _ | d
  · simp
  rcases b.enable.bound with _ | e
  · simp
  simp only [Option.some.injEq, BoundPort.mk.injEq]
  exact and_congr_left' eq_comm

theorem foldl_accept (offers : List PortOffer) (b : MemPortBinding) :
    offers.foldl .accept b = ⟨(offers.map PortOffer.addr).foldl .add b.addr,
      (offers.map PortOffer.dataIn).foldl .add b.dataIn,
      (offers.map PortOffer.enable).foldl .add b.enable⟩ := by
  induction offers generalizing b with
  | nil => rfl
  | cons o rest ih =>
    rw [List.foldl_cons, ih]
    rfl

variable {fam : MemFamily} {mod : MemModule} {cd : ℕ} {p : BoundPort}

/-- A write port is bound completely when its statements offer one signal for each place. -/
theorem complete_bindings_iff {mport : MemPort} :
    (fam.bindings memory mport.name).complete memory = some p ↔
      p.memory = memory ∧ fam.Offers mport p := by
  rw [complete_iff, MemFamily.bindings, bindMemWritePorts_accepts, foldl_accept]
  constructor
  · rintro ⟨rfl, haddr, hdata, henable⟩
    exact ⟨rfl, PortSlot.bound_foldl.mp haddr, PortSlot.bound_foldl.mp hdata,
      PortSlot.bound_foldl.mp henable⟩
  · rintro ⟨rfl, haddr, hdata, henable⟩
    exact ⟨rfl, PortSlot.bound_foldl.mpr haddr, PortSlot.bound_foldl.mpr hdata,
      PortSlot.bound_foldl.mpr henable⟩

theorem mem_appended :
    p ∈ fam.appended mod cd ↔ (∃ mem ∈ mod.ir.memories, ∃ port ∈ fam.ports mem.name,
      port.isWrite = true ∧ p.memory = mem.name ∧ fam.Offers port p) ∧
      mod.foreign cd p = false ∧ mod.hasSignals p = true := by
  simp only [MemFamily.appended, MemFamily.boundPorts, List.mem_filter, List.mem_flatMap,
    List.mem_filterMap, complete_bindings_iff, Bool.and_eq_true, Bool.not_eq_true', and_assoc]

/-- The lowering keeps the writes of a domain exactly when every enable that it tests alone implies
all conditions of a write that does the same. -/
theorem sameWrites_iff_enableCovered (fam : MemFamily) (m : IRModule) (s : CtxState) (cd : ℕ)
    (block : SyncBlock) : fam.SameWrites m s cd block ↔ fam.EnableCovered m s cd block := by
  constructor
  · intro h hreset mod hmod mem hmem port hport hwrite p hp hoffers hforeign hsignals henable w hw
    rw [← makesWrite_domainStatements, ← h w, makesWrite_lowered]
    refine .inr ⟨hreset, mod, hmod, p, ?_, henable, hw⟩
    exact mem_appended.mpr ⟨⟨mem, hmem, port, hport, hwrite, hp, hoffers⟩, hforeign, hsignals⟩
  · intro h w
    rw [makesWrite_lowered]
    refine or_iff_left_of_imp ?_
    rintro ⟨hreset, mod, hmod, p, hp, henable, hw⟩
    obtain ⟨⟨mem, hmem, port, hport, hwrite, hname, hoffers⟩, hforeign, hsignals⟩ :=
      mem_appended.mp hp
    exact makesWrite_domainStatements block |>.mpr
      (h hreset mod hmod mem hmem port hport hwrite p hname hoffers hforeign hsignals henable w hw)

namespace MemLoweringExample

def bit (b : Bool) : SimValue := if b then simValOnes 1 else simValZero 1

/-- A module with an enable 0, another condition 1, an address 2 and a data signal 3. -/
def module : MemModule where
  ir := { signals := (List.range 4).map fun id => ⟨id, .port .portIn, 1⟩
          memories := [⟨"mem", 1, 2⟩]
          clockDomains := []
          asyncBlock := .null }
  homeClockDomain := fun _ => none

/-- A write behind the enable and the negated other condition. -/
def block : SyncBlock where
  reset := none
  body := .cons (.ifChain (.identifier 0 1) (.cons (.ifChain
    (.other (.unary .logicalNot (.signalRef 1 1) 1))
    (.cons (.memWrite "mem" "w" (.identifier 2 1) (.identifier 3 1)) .nil) .nil .nil) .nil)
    .nil .nil) .nil

def family : MemFamily where
  modules := [module]
  blocks := [block]
  ports := fun _ => [⟨"w", true⟩]

/-- Every signal is 1. -/
def state : CtxState where
  signals := fun _ => ⟨bit true, bit false, false⟩
  cells := fun _ _ => bit false
  runtimeError := false
  settleDirty := false
  sigDirty := fun _ => false

end MemLoweringExample

open MemLoweringExample in
/-- The enable alone makes a write although the inner condition is false. -/
theorem enable_alone_writes : ¬ family.SameWrites module.ir state 0 block := by
  intro h
  have hwrite : traceWrites (stmtTrace module.ir state (family.lowered 0 block)) =
      [.cell 0 1 (bit true)] := by decide +kernel
  have hnone : traceWrites (stmtTrace module.ir state (domainStatements block)) = [] := by
    decide +kernel
  have hmake : MakesWrite module.ir state (family.lowered 0 block) (.cell 0 1 (bit true)) :=
    ⟨hwrite ▸ List.mem_singleton_self _, 0, 1, bit true, rfl⟩
  have hmem := ((h _).mp hmake).1
  rw [hnone] at hmem
  exact List.not_mem_nil hmem

end

end JzHdl

import JzHdl.Sim.ClockEdge
import JzHdl.Sim.Order
import JzHdl.Sim.Snapshot

/-! # Simultaneous updates

A clock event as the operations it makes on one context, and the result of
committing every write at once onto the state before the event. The two agree
while nothing reads what the event has already changed.
-/

namespace JzHdl

/-! ## Committing writes at once -/

/-- Put one write into the current state. -/
def applyWrite (t : CtxState) : Write → CtxState
  | .reg i slice v => t.setCurrent i <| match slice with
      | some (msb, lsb) => writeSlice (t.signals i).current v msb lsb
      | none => v
  | .cell mem addr v => t.setCell mem addr v

def applyWrites (t : CtxState) (ws : List Write) : CtxState := ws.foldl applyWrite t

def Write.target : Write → Option Target
  | .reg i slice _ => some ⟨i, slice⟩
  | .cell .. => none

/-- Two writes that touch no common bit or word, or are the same. -/
def Write.Compatible : Write → Write → Prop
  | .reg i slice v, .reg j slice' w =>
    Write.reg i slice v = .reg j slice' w ∨ Target.Apart ⟨i, slice⟩ ⟨j, slice'⟩
  | .cell mem addr v, .cell mem' addr' w =>
    Write.cell mem addr v = .cell mem' addr' w ∨ (mem, addr) ≠ (mem', addr')
  | .reg .., .cell .. | .cell .., .reg .. => True

instance : DecidableRel Write.Compatible
  | .reg i slice v, .reg j slice' w =>
    inferInstanceAs (Decidable (Write.reg i slice v = .reg j slice' w ∨ Target.Apart _ _))
  | .cell mem addr v, .cell mem' addr' w =>
    inferInstanceAs (Decidable (Write.cell mem addr v = .cell mem' addr' w ∨ _ ≠ _))
  | .reg _ _ _, .cell _ _ _ | .cell _ _ _, .reg _ _ _ => .isTrue trivial

section

variable {m : IRModule} {s t u : CtxState}

instance : Std.Symm Write.Compatible where
  symm a b h := by
    cases a with
    | reg i slice v =>
      cases b with
      | reg j slice' w => exact h.imp Eq.symm Target.Apart.symm
      | cell _ _ _ => trivial
    | cell mem addr v =>
      cases b with
      | reg _ _ _ => trivial
      | cell mem' addr' w => exact h.imp Eq.symm Ne.symm

theorem writeSlice_comm (p v w : SimValue) {a b c d : ℕ} (h : a < d ∨ c < b) :
    writeSlice (writeSlice p v a b) w c d = writeSlice (writeSlice p w c d) v a b := by
  refine SimValue.ext_part fun q => ?_
  cases q with
  | width => simp only [writeSlice_part]
  | bit k =>
    simp only [writeSlice_part]
    by_cases h1 : d ≤ k ∧ k ≤ c ∧ k < 256
    · rw [if_pos h1, if_neg (by omega), if_pos h1]
    · rw [if_neg h1, if_neg h1]

theorem setCurrent_comm {i j : ℕ} (h : i ≠ j) (v w : SimValue) :
    (t.setCurrent i v).setCurrent j w = (t.setCurrent j w).setCurrent i v := by
  have hs : ((t.setCurrent i v).setCurrent j w).signals =
      ((t.setCurrent j w).setCurrent i v).signals := by
    funext k
    simp only [CtxState.setCurrent, CtxState.setEntry]
    by_cases hi : k = i
    · subst hi; simp [h]
    · by_cases hj : k = j
      · subst hj; simp [Ne.symm h]
      · simp [hi, hj]
  simp only [CtxState.setCurrent, CtxState.setEntry] at hs ⊢
  rw [hs]

theorem setCurrent_twice (i : ℕ) (v w : SimValue) :
    (t.setCurrent i v).setCurrent i w = t.setCurrent i w := by
  have hs : ((t.setCurrent i v).setCurrent i w).signals = (t.setCurrent i w).signals := by
    funext k
    simp only [CtxState.setCurrent, CtxState.setEntry]
    split
    · simp
    · rfl
  simp only [CtxState.setCurrent, CtxState.setEntry] at hs ⊢
  rw [hs]

theorem applyWrite_comm {a b : Write} (h : a.Compatible b) (t : CtxState) :
    applyWrite (applyWrite t a) b = applyWrite (applyWrite t b) a := by
  cases a with
  | reg i slice v =>
    cases b with
    | cell mem addr w => rfl
    | reg j slice' w =>
      rcases h with h | h
      · rw [h]
      · rcases h with hne | ⟨a, b, c, d, h1, h2, hd⟩
        · have hij : i ≠ j := hne
          simp only [applyWrite, setCurrent_current, if_neg hij, if_neg (Ne.symm hij)]
          exact setCurrent_comm hij _ _
        · simp only at h1 h2
          subst h1 h2
          by_cases hij : i = j
          · subst hij
            simp only [applyWrite, setCurrent_current, if_true, setCurrent_twice]
            rw [writeSlice_comm _ _ _ hd]
          · simp only [applyWrite, setCurrent_current, if_neg hij, if_neg (Ne.symm hij)]
            exact setCurrent_comm hij _ _
  | cell mem addr v =>
    cases b with
    | reg j slice' w => rfl
    | cell mem' addr' w =>
      rcases h with h | h
      · rw [h]
      · have hs : ((t.setCell mem addr v).setCell mem' addr' w).cells =
            ((t.setCell mem' addr' w).setCell mem addr v).cells := by
          funext i j
          simp only [CtxState.setCell]
          by_cases h1 : i = mem' ∧ j = addr'
          · have h2 : ¬ (i = mem ∧ j = addr) := fun h2 =>
              h (Prod.ext (h2.1.symm.trans h1.1) (h2.2.symm.trans h1.2))
            rw [if_pos h1, if_neg h2, if_pos h1]
          · rw [if_neg h1, if_neg h1]
        simp only [applyWrite, CtxState.setCell] at hs ⊢
        rw [hs]

/-- Compatible writes may be committed in any order. -/
theorem applyWrites_perm {ws ws' : List Write} (hp : ws'.Perm ws)
    (hc : ws.Pairwise Write.Compatible) (s : CtxState) : applyWrites s ws' = applyWrites s ws := by
  refine hp.foldl_eq' (fun a ha b hb t => ?_) s
  by_cases hab : a = b
  · rw [hab]
  · exact applyWrite_comm (hc.forall (hp.mem_iff.mp ha) (hp.mem_iff.mp hb) hab) t

theorem applyWrites_append (t : CtxState) (ws ws' : List Write) :
    applyWrites t (ws ++ ws') = applyWrites (applyWrites t ws) ws' := List.foldl_append

theorem Alike.applyWrite (h : Alike s t) (w : Write) :
    Alike (JzHdl.applyWrite s w) (JzHdl.applyWrite t w) := by
  cases w with
  | reg i slice v =>
    refine ⟨?_, h.cells⟩
    simp only [JzHdl.applyWrite, CtxState.setCurrent, CtxState.setEntry, h.signals]
  | cell mem addr v =>
    refine ⟨h.signals, ?_⟩
    simp only [JzHdl.applyWrite, CtxState.setCell, h.cells]

end

/-! ## The operations of an event on one context -/

/-- Fire a domain, copy inputs to or from the context, or commit the staged writes. -/
inductive LocalOp where

  | fire (d : ℕ)

  | send

  | commit

section

variable (m : IRModule) (s : CtxState)

def resetWrite (id : ℕ) : Option Write :=
  match m.sigIndex id, m.signalOf id with
  | some i, some sig =>
    match sig.kind with
    | .register lit => some (.reg i none (resetValueOf sig lit))
    | _ => none
  | _, _ => none

/-- The registers a reset of a domain writes. -/
def resetWrites (cd : IRClockDomain) : List Write := cd.registerIds.filterMap (resetWrite m)

/-- The writes of a fired domain, evaluated in the snapshot. -/
def domainWrites (cd : IRClockDomain) : List Write :=
  if resetActive m cd s then resetWrites m cd else traceWrites (stmtTrace m s cd.statements)

def fireWrites (d : ℕ) : List Write :=
  match m.clockDomains[d]? with
  | none => []
  | some cd => domainWrites m s cd

def opWrites : LocalOp → List Write
  | .fire d => fireWrites m s d
  | .send | .commit => []

/-- What has become visible during an event, and what is staged. -/
structure Seen where

  now : List ℕ

  staged : List ℕ

  cells : List (ℕ × ℕ)

def Seen.none : Seen := ⟨[], [], []⟩

def Seen.after (v : Seen) : LocalOp → Seen
  | .fire d =>
    match m.clockDomains[d]? with
    | .none => v
    | some cd =>
      if resetActive m cd s then { v with now := v.now ++ writesRegs (resetWrites m cd) }
      else
        let ws := traceWrites (stmtTrace m s cd.statements)
        { v with staged := v.staged ++ writesRegs ws, cells := v.cells ++ writesCells ws }
  | .send => v
  | .commit => { v with now := v.now ++ v.staged, staged := [] }

/-- The operation reads nothing that the event has already changed. -/
def OpClear (ports : List ℕ) (v : Seen) : LocalOp → Prop
  | .fire d => ∀ cd ∈ m.clockDomains[d]?,
    (∀ id ∈ cd.resetSignalId, ∀ i ∈ m.sigIndex id, i ∉ v.now) ∧
      (resetActive m cd s = false → TraceClear m s v.now v.cells (stmtTrace m s cd.statements))
  | .send => ∀ i ∈ ports, i ∉ v.now
  | .commit => True

def OpsClear (ports : List ℕ) : Seen → List LocalOp → Prop
  | _, [] => True
  | v, op :: rest => OpClear m s ports v op ∧ OpsClear ports (v.after m s op) rest

instance (ports : List ℕ) (v : Seen) : (op : LocalOp) → Decidable (OpClear m s ports v op)
  | .fire d => by unfold OpClear; infer_instance
  | .send => inferInstanceAs (Decidable (∀ i ∈ ports, i ∉ v.now))
  | .commit => .isTrue trivial

def OpsClear.decide (ports : List ℕ) :
    (v : Seen) → (ops : List LocalOp) → Decidable (OpsClear m s ports v ops)
  | _, [] => .isTrue trivial
  | v, op :: rest =>
    have := OpsClear.decide ports (v.after m s op) rest
    instDecidableAnd

instance (ports : List ℕ) (v : Seen) (ops : List LocalOp) :
    Decidable (OpsClear m s ports v ops) := OpsClear.decide m s ports v ops

def opsWrites (ops : List LocalOp) : List Write := ops.flatMap (opWrites m s)

def Seen.afterAll (v : Seen) (ops : List LocalOp) : Seen := ops.foldl (Seen.after m s) v

end

section

variable {m : IRModule} {s : CtxState} {ports : List ℕ}

theorem opsClear_append : ∀ {a b : List LocalOp} {v : Seen}, OpsClear m s ports v (a ++ b) ↔
    OpsClear m s ports v a ∧ OpsClear m s ports (v.afterAll m s a) b
  | [], b, v => by simp [OpsClear, Seen.afterAll]
  | op :: rest, b, v => by
      rw [List.cons_append, OpsClear, OpsClear, opsClear_append, and_assoc]
      rfl

theorem opsWrites_append (a b : List LocalOp) :
    opsWrites m s (a ++ b) = opsWrites m s a ++ opsWrites m s b := List.flatMap_append

theorem Seen.afterAll_append (v : Seen) (a b : List LocalOp) :
    v.afterAll m s (a ++ b) = (v.afterAll m s a).afterAll m s b := List.foldl_append

end

/-- The value a signal will have once everything staged is committed. -/
def CtxState.effective (t : CtxState) (i : ℕ) : SimValue :=
  if (t.signals i).hasPending then (t.signals i).next else (t.signals i).current

/-- A state reached from the snapshot `s` by operations with the writes `ws`. -/
structure Follows (m : IRModule) (s : CtxState) (v : Seen) (ws : List Write) (t : CtxState) :
    Prop where

  agree : AgreeOff s t v.now v.cells

  effective : ∀ i, t.effective i = ((applyWrites s ws).signals i).current

  cells : t.cells = (applyWrites s ws).cells

  staged : ∀ i, (t.signals i).hasPending = true → i ∈ v.staged ∧ i ∈ writesRegs ws

  bounded : ∀ i, (t.signals i).hasPending = true → i < m.signals.length

section

variable {m : IRModule} {s t u : CtxState} {v : Seen} {ws : List Write} {ports : List ℕ}

theorem Follows.start (hq : ∀ i, (s.signals i).hasPending = false) :
    Follows m s Seen.none [] s where
  agree := ⟨fun _ _ => rfl, fun _ _ => rfl⟩
  effective i := by
    rw [CtxState.effective, hq i]
    rfl
  cells := rfl
  staged i h := by rw [hq i] at h; cases h
  bounded i h := by rw [hq i] at h; cases h

theorem Follows.alike (h : Follows m s v ws t) (hu : Alike u t) : Follows m s v ws u where
  agree := ⟨fun i hi => by rw [hu.signals]; exact h.agree.current i hi,
    fun c hc => by rw [hu.cells]; exact h.agree.cells c hc⟩
  effective i := by
    rw [CtxState.effective, hu.signals]
    exact h.effective i
  cells := hu.cells.trans h.cells
  staged i hp := h.staged i (by rw [← hu.signals]; exact hp)
  bounded i hp := h.bounded i (by rw [← hu.signals]; exact hp)

/-! ## Staging -/

theorem applyWrite_reg_current (t : CtxState) (i : ℕ) (slice : Option (ℕ × ℕ)) (v : SimValue)
    (j : ℕ) : ((applyWrite t (.reg i slice v)).signals j).current = if j = i then
      (match slice with
        | some (msb, lsb) => writeSlice (t.signals i).current v msb lsb
        | none => v) else (t.signals j).current := setCurrent_current ..

/-- A staged write changes the effective values as a committed one changes the current values. -/
theorem effective_stageOne (h : ∀ i, t.effective i = (u.signals i).current) (w : Write) (i : ℕ) :
    (stageOne t w).effective i = ((applyWrite u w).signals i).current := by
  cases w with
  | cell mem addr v => exact h i
  | reg j slice v =>
    rw [applyWrite_reg_current]
    by_cases hij : i = j
    · subst hij
      cases slice <;> simp only [stageOne, CtxState.effective, CtxState.setEntry, if_true, ← h i]
    · simp only [stageOne, CtxState.effective, CtxState.setEntry, if_neg hij]
      exact h i

theorem stageOne_cells (h : t.cells = u.cells) (w : Write) :
    (stageOne t w).cells = (applyWrite u w).cells := by
  cases w with
  | cell mem addr v => simp only [stageOne, applyWrite, CtxState.setCell, h]
  | reg j slice v => exact h

theorem stageOne_hasPending (t : CtxState) (w : Write) (i : ℕ)
    (h : ((stageOne t w).signals i).hasPending = true) :
    (t.signals i).hasPending = true ∨ i ∈ writesRegs [w] := by
  cases w with
  | cell mem addr v => exact Or.inl h
  | reg j slice v =>
    by_cases hij : i = j
    · exact Or.inr (by simp [writesRegs, hij])
    · simp only [stageOne, CtxState.setEntry, if_neg hij] at h
      exact Or.inl h

theorem stageAll_spec : ∀ (ws : List Write) {t u : CtxState},
    (∀ i, t.effective i = (u.signals i).current) → t.cells = u.cells →
    (∀ i, (stageAll t ws).effective i = ((applyWrites u ws).signals i).current) ∧
      (stageAll t ws).cells = (applyWrites u ws).cells ∧
      ∀ i, ((stageAll t ws).signals i).hasPending = true →
        (t.signals i).hasPending = true ∨ i ∈ writesRegs ws
  | [], _, _, h, hc => ⟨h, hc, fun _ hp => Or.inl hp⟩
  | w :: rest, t, u, h, hc => by
      obtain ⟨h1, h2, h3⟩ := stageAll_spec rest (effective_stageOne h w) (stageOne_cells hc w)
      refine ⟨h1, h2, fun i hp => ?_⟩
      rw [show w :: rest = [w] ++ rest from rfl, writesRegs_append, List.mem_append, ← or_assoc]
      exact (h3 i hp).imp_left (stageOne_hasPending t w i)

mutual

/-- The registers that a statement writes are in the signal table. -/
theorem stmtTrace_lt : ∀ (stmt : IRStmt), ∀ i ∈ writesRegs (traceWrites (stmtTrace m s stmt)),
    i < m.signals.length
  | .null => by simp [stmtTrace, traceWrites, writesRegs]
  | .assignment a => by
      rw [stmtTrace, assignTrace]
      cases hi : m.sigIndex a.lhsSignalId with
      | none => simp [traceWrites, writesRegs]
      | some i => simpa [traceWrites, writesRegs] using IRModule.sigIndex_lt hi
  | .memWrite name address data => by
      rw [stmtTrace, memWriteTrace]
      cases m.memOf name with
      | none => simp [traceWrites, writesRegs]
      | some p =>
        simp only [traceWrites_append, writesRegs_append]
        cases simValueToMemIndex (simEvalExpr m s address) p.2.depth <;>
          simp [traceWrites, writesRegs]
  | .block stmts => by
      rw [stmtTrace]
      exact stmtsTrace_lt stmts
  | .select sel cases => by
      rw [stmtTrace, traceWrites]
      split
      · simp [traceWrites, writesRegs]
      · exact casesTrace_lt _ cases
  | .ifStmt c u e f => by
      rw [stmtTrace, traceWrites]
      cases simValIsTrue (simEvalExpr m s c) with
      | none => simp [traceWrites, writesRegs]
      | some b =>
        cases b with
        | true => exact stmtTrace_lt u
        | false =>
          have he := elifTrace_lt e
          cases hx : elifTrace m s e with
          | mk done tr =>
            rw [hx] at he
            cases done with
            | true => exact he
            | false =>
              simp only [traceWrites_append, writesRegs_append, List.forall_mem_append]
              exact ⟨he, stmtTrace_lt f⟩

theorem elifTrace_lt : ∀ (stmt : IRStmt), ∀ i ∈ writesRegs (traceWrites (elifTrace m s stmt).2),
    i < m.signals.length
  | .ifStmt c u e f => by
      rw [elifTrace]
      cases simValIsTrue (simEvalExpr m s c) with
      | none => simp [traceWrites, writesRegs]
      | some b =>
        cases b with
        | true => exact stmtTrace_lt u
        | false => exact elifTrace_lt e
  | .null | .assignment _ | .select .. | .block _ | .memWrite .. => by
      simp [elifTrace, traceWrites, writesRegs]

theorem casesTrace_lt (x : SimValue) : ∀ (cases : List (IRExpr × IRStmt)),
    ∀ i ∈ writesRegs (traceWrites (casesTrace m s x cases)), i < m.signals.length
  | [] => by simp [casesTrace, traceWrites, writesRegs]
  | (cv, body) :: rest => by
      rw [casesTrace]
      split
      · exact stmtTrace_lt body
      · rw [traceWrites]
        split
        · exact stmtTrace_lt body
        · exact casesTrace_lt x rest

theorem stmtsTrace_lt : ∀ (stmts : List IRStmt),
    ∀ i ∈ writesRegs (traceWrites (stmtsTrace m s stmts)), i < m.signals.length
  | [] => by simp [stmtsTrace, traceWrites, writesRegs]
  | stmt :: rest => by
      rw [stmtsTrace, traceWrites_append, writesRegs_append, List.forall_mem_append]
      exact ⟨stmtTrace_lt stmt, stmtsTrace_lt rest⟩

end

/-- Running the statements of a domain that is not in reset. -/
theorem Follows.exec (h : Follows m s v ws t) (stmt : IRStmt)
    (hc : TraceClear m s v.now v.cells (stmtTrace m s stmt)) :
    Follows m s { v with
        staged := v.staged ++ writesRegs (traceWrites (stmtTrace m s stmt))
        cells := v.cells ++ writesCells (traceWrites (stmtTrace m s stmt)) }
      (ws ++ traceWrites (stmtTrace m s stmt)) (simExecStmt m true stmt t) := by
  have hx := exec_trace stmt h.agree hc
  obtain ⟨h1, h2, h3⟩ := stageAll_spec (traceWrites (stmtTrace m s stmt)) h.effective h.cells
  refine Follows.alike ?_ hx
  refine ⟨h.agree.stageAll _ (.refl _), ?_, ?_, fun i hp => ?_, fun i hp => ?_⟩
  · rw [applyWrites_append]
    exact h1
  · rw [applyWrites_append]
    exact h2
  · rw [writesRegs_append, List.mem_append, List.mem_append]
    rcases h3 i hp with h4 | h4
    · exact ⟨Or.inl (h.staged i h4).1, Or.inl (h.staged i h4).2⟩
    · exact ⟨Or.inr h4, Or.inr h4⟩
  · rcases h3 i hp with h4 | h4
    · exact h.bounded i h4
    · exact stmtTrace_lt stmt i h4

/-! ## Resetting -/

/-- A register that only gets one value has it once it is written. -/
theorem applyWrites_const {i : ℕ} {rv : SimValue} : ∀ (ws : List Write) {s : CtxState},
    (∀ w ∈ ws, w.Compatible (.reg i none rv)) →
    (s.signals i).current = rv ∨ i ∈ writesRegs ws → ((applyWrites s ws).signals i).current = rv
  | [], _, _, h => h.resolve_right (by simp [writesRegs])
  | .cell mem addr x :: rest, s, hc, h =>
      applyWrites_const (s := s.setCell mem addr x) rest (fun w hw => hc w (.tail _ hw)) h
  | .reg j slice x :: rest, s, hc, h => by
      refine applyWrites_const (s := applyWrite s (.reg j slice x)) rest
        (fun w hw => hc w (.tail _ hw)) ?_
      rw [applyWrite_reg_current]
      by_cases hij : i = j
      · left
        subst hij
        rw [if_pos rfl]
        rcases hc _ (.head _) with heq | hne | ⟨a, b, c, d, -, h2, -⟩
        · cases heq; rfl
        · exact absurd rfl hne
        · cases h2
      · rw [if_neg hij]
        simp only [writesRegs, List.mem_cons, hij, false_or] at h
        exact h

theorem Follows.resetOne (h : Follows m s v ws t) {i : ℕ} {rv : SimValue}
    (hc : ∀ w ∈ ws, w.Compatible (.reg i none rv)) :
    Follows m s { v with now := v.now ++ [i] } (ws ++ [.reg i none rv])
      ((t.setCurrent i rv).markDirty i) := by
  have hsig : ∀ j, ((t.setCurrent i rv).markDirty i).signals j =
      if j = i then { t.signals i with current := rv } else t.signals j := fun j => rfl
  have hpend : ∀ j, (((t.setCurrent i rv).markDirty i).signals j).hasPending =
      (t.signals j).hasPending := by
    intro j
    rw [hsig]
    split
    · rename_i hj; rw [hj]
    · rfl
  refine ⟨⟨fun j hj => ?_, fun c hcell => h.agree.cells c hcell⟩, fun j => ?_, ?_,
    fun j hp => ?_, fun j hp => ?_⟩
  · rw [List.mem_append, List.mem_singleton, not_or] at hj
    rw [hsig, if_neg hj.2]
    exact h.agree.current j hj.1
  · rw [applyWrites_append]
    refine Eq.trans ?_ (applyWrite_reg_current (applyWrites s ws) i none rv j).symm
    rw [← h.effective j, CtxState.effective, CtxState.effective, hsig]
    by_cases hij : j = i
    · subst hij
      rw [if_pos rfl, if_pos rfl]
      by_cases hp : (t.signals j).hasPending = true
      · -- a pending register was staged by the same write
        have hval := applyWrites_const (s := s) ws hc (Or.inr (h.staged j hp).2)
        rw [← h.effective j, CtxState.effective, if_pos hp] at hval
        rw [if_pos hp]
        exact hval
      · rw [if_neg hp]
    · rw [if_neg hij, if_neg hij]
  · rw [applyWrites_append]
    exact h.cells
  · rw [hpend] at hp
    rw [writesRegs_append, List.mem_append]
    exact ⟨(h.staged j hp).1, Or.inl (h.staged j hp).2⟩
  · rw [hpend] at hp
    exact h.bounded j hp

theorem resetRegister_eq (m : IRModule) (t : CtxState) (id : ℕ) :
    resetRegister m t id = match resetWrite m id with
      | some (.reg i _ rv) => (t.setCurrent i rv).markDirty i
      | _ => t := by
  rw [resetRegister, resetWrite]
  cases m.sigIndex id with
  | none => rfl
  | some i =>
    cases m.signalOf id with
    | none => rfl
    | some sig => cases hk : sig.kind <;> simp only [hk]

theorem Follows.resetAll : ∀ (ids : List ℕ) {v : Seen} {ws : List Write} {t : CtxState},
    Follows m s v ws t → (ws ++ ids.filterMap (resetWrite m)).Pairwise Write.Compatible →
    Follows m s { v with now := v.now ++ writesRegs (ids.filterMap (resetWrite m)) }
      (ws ++ ids.filterMap (resetWrite m)) (ids.foldl (resetRegister m) t)
  | [], v, ws, t, h, _ => by
      simpa [writesRegs] using h
  | id :: rest, v, ws, t, h, hc => by
      rw [List.foldl_cons, resetRegister_eq]
      cases hw : resetWrite m id with
      | none =>
        rw [List.filterMap_cons_none hw] at hc ⊢
        exact resetAll rest h hc
      | some w =>
        obtain ⟨i, rv, rfl⟩ : ∃ i rv, w = .reg i none rv := by
          rw [resetWrite] at hw
          split at hw
          · split at hw
            · exact ⟨_, _, (Option.some.inj hw).symm⟩
            · cases hw
          · cases hw
        rw [List.filterMap_cons_some hw, List.append_cons] at hc ⊢
        have hone := h.resetOne fun x hx =>
          (List.pairwise_append.mp (List.pairwise_append.mp hc).1).2.2 x hx _ (.head _)
        simpa [writesRegs] using resetAll rest hone hc

/-! ## Committing -/

theorem Follows.commit (h : Follows m s v ws t) :
    Follows m s { v with now := v.now ++ v.staged, staged := [] } ws (simCtxApplyNba m t) := by
  have hsig : ∀ i, (simCtxApplyNba m t).signals i = (t.signals i).commit := by
    intro i
    rw [simCtxApplyNba_signals]
    by_cases hi : i < m.signals.length
    · rw [if_pos hi]
    · rw [if_neg hi, SimSignalEntry.commit, if_neg fun hp => hi (h.bounded i hp)]
  have hpend : ∀ i, ((simCtxApplyNba m t).signals i).hasPending = false := by
    intro i
    rw [hsig, SimSignalEntry.commit]
    split
    · rfl
    · rename_i hp; simpa using hp
  refine ⟨⟨fun i hi => ?_, fun c hc => ?_⟩, fun i => ?_, ?_, fun i hp => ?_, fun i hp => ?_⟩
  · rw [List.mem_append, not_or] at hi
    rw [hsig, SimSignalEntry.commit, if_neg fun hp => hi.2 (h.staged i hp).1]
    exact h.agree.current i hi.1
  · rw [simCtxApplyNba_cells]
    exact h.agree.cells c hc
  · rw [← h.effective i, CtxState.effective, CtxState.effective, hpend, hsig, SimSignalEntry.commit]
    by_cases hp : (t.signals i).hasPending = true
    · rw [if_pos hp, if_pos hp]; rfl
    · rw [if_neg hp, if_neg hp]; rfl
  · rw [simCtxApplyNba_cells]
    exact h.cells
  · rw [hpend] at hp; cases hp
  · rw [hpend] at hp; cases hp

/-- After a commit every write of the operations is in the current state. -/
theorem Follows.committed (h : Follows m s v ws t) (i : ℕ) :
    ((simCtxApplyNba m t).signals i).current = ((applyWrites s ws).signals i).current := by
  rw [← h.effective i, simCtxApplyNba_signals, CtxState.effective, SimSignalEntry.commit]
  by_cases hp : (t.signals i).hasPending = true
  · rw [if_pos (h.bounded i hp), if_pos hp, if_pos hp]
  · rw [if_neg hp, if_neg hp, ite_self]

/-! ## Firing -/

theorem Follows.resetActive (h : Follows m s v ws t) {cd : IRClockDomain}
    (hc : ∀ id ∈ cd.resetSignalId, ∀ i ∈ m.sigIndex id, i ∉ v.now) :
    JzHdl.resetActive m cd t = JzHdl.resetActive m cd s := by
  rw [JzHdl.resetActive, JzHdl.resetActive]
  cases hid : cd.resetSignalId with
  | none => rfl
  | some id =>
    cases hi : m.sigIndex id with
    | none => simp [hi]
    | some i => simp only [Option.bind_some, hi, h.agree.current i (hc id hid i hi)]

/-- Firing a domain that reads nothing the event has changed makes the writes of the snapshot. -/
theorem Follows.fire (h : Follows m s v ws t) {d : ℕ} {cd : IRClockDomain}
    (hd : m.clockDomains[d]? = some cd) (hclear : OpClear m s ports v (.fire d))
    (hcompat : (ws ++ fireWrites m s d).Pairwise Write.Compatible) :
    Follows m s (v.after m s (.fire d)) (ws ++ fireWrites m s d) (fireChildDomain m cd t) := by
  obtain ⟨hreset, htrace⟩ := hclear cd hd
  rw [fireWrites, hd] at hcompat ⊢
  simp only [domainWrites, Seen.after, hd] at hcompat ⊢
  rw [fireChildDomain, h.resetActive hreset]
  by_cases hr : JzHdl.resetActive m cd s = true
  · simp only [if_pos hr] at hcompat ⊢
    exact h.resetAll cd.registerIds hcompat
  · simp only [if_neg hr] at hcompat ⊢
    exact h.exec cd.statements (htrace (by simpa using hr))

end

end JzHdl

import JzHdl.Sim.Testbench

/-! # Registers between firings

A register belongs to one clock domain. Everything a simulation does outside the
firings of that domain leaves the register alone, at every level of the tree.
-/

namespace JzHdl

/-! ## One context -/

/-- The table entry holds a register. -/
def RegisterAt (m : IRModule) (i : ℕ) : Prop :=
  ∃ sig lit, m.signals[i]? = some sig ∧ sig.kind = .register lit

/-- The declared reset value of a register with its table index. -/
def ResetsTo (m : IRModule) (id i : ℕ) (v : SimValue) : Prop :=
  resetWrite m id = some (.reg i none v)

theorem ResetsTo.registerAt {m : IRModule} {id i : ℕ} {v : SimValue} (h : ResetsTo m id i v) :
    m.sigIndex id = some i ∧ RegisterAt m i := by
  unfold ResetsTo resetWrite at h
  split at h
  · rename_i i' sig hi hsig
    split at h
    · rename_i lit hkind
      cases h
      refine ⟨hi, sig, lit, ?_, hkind⟩
      simpa [IRModule.signalOf, hi] using hsig
    · cases h
  · cases h

section

variable {m : IRModule} {i : ℕ} (isNba : Bool)

theorem applyAssign_frame (s : CtxState) (a : IRAssignment)
    (h : ∀ τ ∈ assignTargets m a, τ.index ≠ i) :
    (applyAssign m isNba s a).signals i = s.signals i := by
  unfold applyAssign
  unfold assignTargets at h
  cases hj : m.sigIndex a.lhsSignalId with
  | none => rfl
  | some j =>
    simp only [hj, List.mem_singleton, forall_eq] at h
    have hne : i ≠ j := fun hij => h hij.symm
    cases isNba with
    | true => exact if_neg hne
    | false =>
      simp only [Bool.false_eq_true, if_false, writeNow]
      split <;> split <;> first | rfl | exact if_neg hne

theorem execMemWrite_frame (s : CtxState) (name : String) (address data : IRExpr) :
    (execMemWrite m s name address data).signals = s.signals := by
  unfold execMemWrite
  cases m.memOf name with
  | none => rfl
  | some p =>
    simp only
    cases simValueToMemIndex (simEvalExpr m s address) p.2.depth <;> rfl

mutual

/-- A statement leaves the signals it does not assign alone, in both modes. -/
theorem exec_frame : ∀ (stmt : IRStmt) (s : CtxState), (∀ τ ∈ stmtTargets m stmt, τ.index ≠ i) →
    (simExecStmt m isNba stmt s).signals i = s.signals i
  | .null, _, _ => rfl
  | .assignment a, s, h => applyAssign_frame isNba s a h
  | .ifStmt c t e f, s, h => by
      simp only [stmtTargets, List.mem_append, or_imp, forall_and] at h
      unfold simExecStmt
      cases simValIsTrue (simEvalExpr m s c) with
      | none => rfl
      | some b =>
        cases b with
        | true => exact exec_frame t (afterEval m s c) h.1.1
        | false =>
          have he := execElif_frame e (afterEval m s c) h.1.2
          simp only
          cases hx : execElifChain m isNba e (afterEval m s c) with
          | mk done s' =>
            rw [hx] at he
            cases done with
            | true => exact he
            | false => exact (exec_frame f s' h.2).trans he
  | .select sel cases, s, h => by
      unfold simExecStmt
      simp only
      split
      · rfl
      · exact execCases_frame _ cases (afterEval m s sel) h
  | .block stmts, s, h => execStmts_frame stmts s h
  | .memWrite name address data, s, _ => by
      unfold simExecStmt
      rw [execMemWrite_frame]

theorem execElif_frame : ∀ (stmt : IRStmt) (s : CtxState),
    (∀ τ ∈ stmtTargets m stmt, τ.index ≠ i) →
    (execElifChain m isNba stmt s).2.signals i = s.signals i
  | .ifStmt c t e f, s, h => by
      simp only [stmtTargets, List.mem_append, or_imp, forall_and] at h
      unfold execElifChain
      cases simValIsTrue (simEvalExpr m s c) with
      | none => rfl
      | some b =>
        cases b with
        | true => exact exec_frame t (afterEval m s c) h.1.1
        | false => exact execElif_frame e (afterEval m s c) h.1.2
  | .null, _, _ | .assignment _, _, _ | .select .., _, _ | .block _, _, _ | .memWrite .., _, _ => rfl

theorem execCases_frame (v : SimValue) : ∀ (cases : List (IRExpr × IRStmt)) (s : CtxState),
    (∀ τ ∈ casesTargets m cases, τ.index ≠ i) →
    (execCases m isNba v cases s).signals i = s.signals i
  | [], _, _ => rfl
  | (cv, body) :: rest, s, h => by
      simp only [casesTargets, List.mem_append, or_imp, forall_and] at h
      unfold execCases
      split
      · exact exec_frame body s h.1
      · split
        · exact exec_frame body (afterEval m s cv) h.1
        · exact execCases_frame v rest (afterEval m s cv) h.2

theorem execStmts_frame : ∀ (stmts : List IRStmt) (s : CtxState),
    (∀ τ ∈ stmtsTargets m stmts, τ.index ≠ i) →
    (execStmts m isNba stmts s).signals i = s.signals i
  | [], _, _ => rfl
  | stmt :: rest, s, h => by
      simp only [stmtsTargets, List.mem_append, or_imp, forall_and] at h
      unfold execStmts
      exact (execStmts_frame rest _ h.2).trans (exec_frame stmt s h.1)

end

end

/-- Only the statements and the reset of a domain write its registers. -/
structure RegistersOwned (m : IRModule) : Prop where

  async : ∀ τ ∈ stmtTargets m m.asyncBlock, ¬ RegisterAt m τ.index

  domains : ∀ (d e : ℕ) (cd ce : IRClockDomain), m.clockDomains[d]? = some cd → m.clockDomains[e]? = some ce → d ≠ e →
    ∀ id ∈ cd.registerIds, ∀ i, m.sigIndex id = some i →
      id ∉ ce.registerIds ∧ ∀ τ ∈ stmtTargets m ce.statements, τ.index ≠ i

/-- The reset levels that the firings of each domain of a tree saw, in order. -/
abbrev ResetsSeen := List ℕ → ℕ → List Bool

namespace ResetsSeen

def none : ResetsSeen := fun _ _ => []

def append (a b : ResetsSeen) : ResetsSeen := fun path d => a path d ++ b path d

/-- One firing of a domain of the root. -/
def own (d : ℕ) (level : Bool) : ResetsSeen :=
  fun path e => if path = [] ∧ e = d then [level] else []

/-- The firings inside one instance. -/
def below (k : ℕ) (a : ResetsSeen) : ResetsSeen
  | [], _ => []
  | j :: path, d => if j = k then a path d else []

end ResetsSeen

/-- When every firing of a domain saw its reset, its registers hold their reset values; without a
firing they hold what they held. -/
def RegistersFollow (m : IRModule) (levels : ℕ → List Bool) (s t : CtxState) : Prop :=
  ∀ d cd, m.clockDomains[d]? = some cd → ∀ id ∈ cd.registerIds, ∀ i v, ResetsTo m id i v →
    (s.signals i).hasPending = false → (∀ level ∈ levels d, level = true) →
      (t.signals i).hasPending = false ∧
        (t.signals i).current = if levels d = [] then (s.signals i).current else v

/-- No register of a domain has a staged write. -/
def RegistersIdle (m : IRModule) (s : CtxState) : Prop :=
  ∀ (d : ℕ) (cd : IRClockDomain), m.clockDomains[d]? = some cd → ∀ id ∈ cd.registerIds, ∀ i v, ResetsTo m id i v →
    (s.signals i).hasPending = false

section

variable {m : IRModule} {levels levels' : ℕ → List Bool} {s t u : CtxState}

theorem RegistersFollow.idle (h : RegistersFollow m (fun _ => []) s t) (hs : RegistersIdle m s) :
    RegistersIdle m t := fun d cd hcd id hid i v hr =>
  (h d cd hcd id hid i v hr (hs d cd hcd id hid i v hr) fun _ hl => absurd hl List.not_mem_nil).1

theorem RegistersFollow.of_kept (h : ∀ i, RegisterAt m i →
    (t.signals i).current = (s.signals i).current ∧
      (t.signals i).hasPending = (s.signals i).hasPending) :
    RegistersFollow m (fun _ => []) s t := by
  intro d cd hcd id hid i v hr hp _
  obtain ⟨hcur, hpend⟩ := h i hr.registerAt.2
  exact ⟨hpend.trans hp, hcur⟩

theorem RegistersFollow.of_signals (h : ∀ i, RegisterAt m i → t.signals i = s.signals i) :
    RegistersFollow m (fun _ => []) s t :=
  .of_kept fun i hi => by rw [h i hi]; exact ⟨rfl, rfl⟩

theorem RegistersFollow.append (h : RegistersFollow m levels s t)
    (h' : RegistersFollow m levels' t u) :
    RegistersFollow m (fun d => levels d ++ levels' d) s u := by
  intro d cd hcd id hid i v hr hp hall
  simp only [List.mem_append, or_imp, forall_and] at hall
  obtain ⟨hp', hcur⟩ := h d cd hcd id hid i v hr hp hall.1
  obtain ⟨hp'', hcur'⟩ := h' d cd hcd id hid i v hr hp' hall.2
  refine ⟨hp'', hcur'.trans ?_⟩
  by_cases hl : levels' d = []
  · rw [if_pos hl, hcur]
    simp [hl]
  · rw [if_neg hl, if_neg (by simp [hl])]

theorem resetRegister_frame (id : ℕ) {i : ℕ} (h : ∀ v, ¬ ResetsTo m id i v) (s : CtxState) :
    (resetRegister m s id).signals i = s.signals i := by
  rw [resetRegister_eq]
  cases hw : resetWrite m id with
  | none => rfl
  | some w =>
    cases w with
    | cell => rfl
    | reg j slice rv =>
      simp only
      have hslice : slice = none := by
        unfold resetWrite at hw
        split at hw
        · split at hw
          · cases hw; rfl
          · cases hw
        · cases hw
      subst hslice
      refine if_neg fun hij : i = j => h rv ?_
      rw [hij]
      exact hw

theorem resetRegister_hit {id i : ℕ} {v : SimValue} (h : ResetsTo m id i v) (s : CtxState) :
    ((resetRegister m s id).signals i).current = v ∧
      ((resetRegister m s id).signals i).hasPending = (s.signals i).hasPending := by
  unfold ResetsTo at h
  rw [resetRegister_eq, h]
  exact ⟨(setCurrent_current s i i v).trans (if_pos rfl), setCurrent_hasPending s i i v⟩

/-- Two identifiers of one table entry reset it to the same value. -/
theorem ResetsTo.unique {id id' i : ℕ} {v v' : SimValue} (h : ResetsTo m id i v)
    (h' : ResetsTo m id' i v') : id = id' ∧ v = v' := by
  have hid := IRModule.sigIndex_inj h.registerAt.1 h'.registerAt.1
  subst hid
  unfold ResetsTo at h h'
  rw [h] at h'
  cases h'
  exact ⟨rfl, rfl⟩

theorem simApplyDomainReset_register {i : ℕ} {v : SimValue} {id : ℕ} (hr : ResetsTo m id i v) :
    ∀ (ids : List ℕ) (s : CtxState),
      ((ids.foldl (resetRegister m) s).signals i).hasPending = (s.signals i).hasPending ∧
        ((ids.foldl (resetRegister m) s).signals i).current =
          if id ∈ ids then v else (s.signals i).current
  | [], s => ⟨rfl, rfl⟩
  | j :: rest, s => by
      obtain ⟨hp, hcur⟩ := simApplyDomainReset_register hr rest (resetRegister m s j)
      rw [List.foldl_cons]
      by_cases hj : id = j
      · subst hj
        obtain ⟨hv, hp'⟩ := resetRegister_hit hr s
        refine ⟨hp.trans hp', hcur.trans ?_⟩
        rw [hv, if_pos List.mem_cons_self, ite_self]
      · have hframe : (resetRegister m s j).signals i = s.signals i :=
          resetRegister_frame j (fun v' h' => hj (hr.unique h').1) s
        rw [hframe] at hp hcur
        refine ⟨hp, hcur.trans ?_⟩
        simp only [List.mem_cons, hj, false_or]

/-- A firing of a domain, as the domain itself and the other domains see it. -/
theorem fireChildDomain_follow (hm : RegistersOwned m) {e : ℕ} {ce : IRClockDomain}
    (hce : m.clockDomains[e]? = some ce) (s : CtxState) :
    RegistersFollow m (ResetsSeen.own e (resetActive m ce s) []) s (fireChildDomain m ce s) := by
  intro d cd hcd id hid i v hr hp hall
  unfold fireChildDomain
  by_cases hde : d = e
  · subst hde
    rw [hce] at hcd
    cases hcd
    have hone : ResetsSeen.own d (resetActive m ce s) [] d = [resetActive m ce s] :=
      if_pos ⟨rfl, rfl⟩
    rw [hone] at hall ⊢
    have hactive := hall _ List.mem_cons_self
    obtain ⟨hp', hcur⟩ := simApplyDomainReset_register hr ce.registerIds s
    rw [if_pos hactive, if_neg (List.cons_ne_nil _ _)]
    refine ⟨hp'.trans hp, hcur.trans (if_pos hid)⟩
  · have hnone : ResetsSeen.own e (resetActive m ce s) [] d = [] := if_neg fun h => hde h.2
    rw [hnone, if_pos rfl]
    obtain ⟨hother, htargets⟩ := hm.domains d e cd ce hcd hce hde id hid i hr.registerAt.1
    split
    · obtain ⟨hp', hcur⟩ := simApplyDomainReset_register hr ce.registerIds s
      exact ⟨hp'.trans hp, hcur.trans (if_neg hother)⟩
    · have hframe := exec_frame true ce.statements s htargets
      unfold simExecSyncDomain
      rw [hframe]
      exact ⟨hp, rfl⟩

theorem simCtxApplyNba_follow (s : CtxState) :
    RegistersFollow m (fun _ => []) s (simCtxApplyNba m s) := by
  intro d cd hcd id hid i v hr hp _
  have hsame : (simCtxApplyNba m s).signals i = s.signals i := by
    rw [simCtxApplyNba_signals]
    split
    · simp [SimSignalEntry.commit, hp]
    · rfl
  rw [hsame]
  exact ⟨hp, rfl⟩

theorem simCtxApplyNba_idle (s : CtxState) : RegistersIdle m (simCtxApplyNba m s) := by
  intro d cd hcd id hid i v hr
  rw [simCtxApplyNba_signals, if_pos (IRModule.sigIndex_lt hr.registerAt.1)]
  unfold SimSignalEntry.commit
  split
  · rfl
  · rename_i hp
    simpa using hp

theorem settleOwn_kept (hm : RegistersOwned m) (s : CtxState) {i : ℕ} (hi : RegisterAt m i) :
    (settleOwn (buildAsyncChunks m) m s).signals i = s.signals i := by
  have hasync : ∀ τ ∈ stmtTargets m m.asyncBlock, τ.index ≠ i := by
    rintro τ hτ rfl
    exact hm.async τ hτ hi
  have hchunk : ∀ chunk ∈ buildAsyncChunks m, ∀ τ ∈ stmtTargets m chunk.stmt, τ.index ≠ i := by
    intro chunk hc τ hτ
    unfold buildAsyncChunks at hc
    split at hc
    · cases hc
    · rename_i stmts hblock
      obtain ⟨stmt, hstmt, rfl⟩ := List.mem_map.mp hc
      refine hasync τ ?_
      rw [hblock]
      have hmem : ∀ {l : List IRStmt}, stmt ∈ l → τ ∈ stmtsTargets m l := by
        intro l
        induction l with
        | nil => exact fun h => absurd h List.not_mem_nil
        | cons x rest ih =>
          intro h
          unfold stmtsTargets
          rcases List.mem_cons.mp h with rfl | h
          · exact List.mem_append_left _ hτ
          · exact List.mem_append_right _ (ih h)
      exact hmem hstmt
    · obtain rfl := List.mem_singleton.mp hc
      exact hasync τ hτ
  have hfold : ∀ (l : List SimAsyncChunk) (s : CtxState), l ⊆ buildAsyncChunks m →
      (l.foldl (runChunk m) s).signals i = s.signals i := by
    intro l
    induction l with
    | nil => exact fun _ _ => rfl
    | cons chunk rest ih =>
      intro s hsub
      rw [List.foldl_cons, ih _ fun x hx => hsub (List.mem_cons_of_mem _ hx)]
      unfold runChunk
      split
      · exact exec_frame false chunk.stmt s (hchunk chunk (hsub List.mem_cons_self))
      · rfl
  unfold settleOwn
  split
  · exact exec_frame false m.asyncBlock s hasync
  · exact hfold _ s (List.Subset.refl _)

end

end JzHdl

import JzHdl.Sem.NetMerging

/-! # The exact net graph

The alias walk takes the bodies of IF and ELSE for blocks, so it is compared
with all alias assignments where those bodies have none. The usage walk meets
every statement.
-/

namespace JzHdl

/-! ## The walks -/

def NetStmt.isAlias : NetStmt → Bool
  | .assign _ op _ _ _ => op = .alias
  | _ => false

/-- The body of an IF, an ELIF or an ELSE. -/
def NetStmt.branchBody : NetStmt → Option (List NetStmt)
  | .branch _ _ body | .elseBranch body => some body
  | _ => none

section

variable {a : CombExpr × CombExpr}

/-- An alias assignment among the statements. -/
def AliasIn (a : CombExpr × CombExpr) (nodes : List NetStmt) : Prop :=
  ∃ id guard, .assign id .alias a.1 a.2 guard ∈ nodes

theorem AliasIn.mono {nodes nodes' : List NetStmt} (h : AliasIn a nodes) (hsub : nodes ⊆ nodes') :
    AliasIn a nodes' := by
  obtain ⟨id, guard, hmem⟩ := h
  exact ⟨id, guard, hsub hmem⟩

theorem AliasIn.isAlias {nodes : List NetStmt} (h : AliasIn a nodes)
    (hnone : ∀ n ∈ nodes, n.isAlias = false) : False := by
  obtain ⟨id, guard, hmem⟩ := h
  exact absurd (hnone _ hmem) (by simp [NetStmt.isAlias])

mutual

theorem aliasIn_of_aliasesOf : ∀ {s : NetStmt}, a ∈ aliasesOf s → AliasIn a (nodesOf s)
  | .assign id op lhs rhs guard, h => by
      rw [aliasesOf] at h
      split at h
      · rename_i hop
        obtain rfl := List.mem_singleton.mp h
        rw [nodesOf, hop]
        exact ⟨id, guard, List.mem_singleton_self _⟩
      · exact absurd h List.not_mem_nil
  | .branch _ _ body, h => by
      rw [aliasesOf] at h
      rw [nodesOf]
      exact (aliasIn_of_aliasesUnderAll h).mono (List.subset_cons_self _ _)
  | .elseBranch body, h => by
      rw [aliasesOf] at h
      rw [nodesOf]
      exact (aliasIn_of_aliasesUnderAll h).mono (List.subset_cons_self _ _)
  | .select _ _ arms, h => by
      rw [aliasesOf] at h
      rw [nodesOf]
      exact (aliasIn_of_aliasesOfArms h).mono (List.subset_cons_self _ _)
  | .feature thenBody elseBody, h => by
      rw [aliasesOf, List.mem_append] at h
      rw [nodesOf]
      rcases h with h | h
      · exact (aliasIn_of_aliasesOfAll h).mono
          (List.subset_cons_of_subset _ (List.subset_append_left _ _))
      · exact (aliasIn_of_aliasesOfAll h).mono
          (List.subset_cons_of_subset _ (List.subset_append_right _ _))
  | .syncParam .., h => by
      rw [aliasesOf] at h
      exact absurd h List.not_mem_nil

theorem aliasIn_of_aliasesUnder : ∀ {s : NetStmt}, a ∈ aliasesUnder s → AliasIn a (nodesOf s)
  | .assign .., h | .feature .., h | .syncParam .., h => by
      rw [aliasesUnder] at h
      exact absurd h List.not_mem_nil
  | .branch _ _ body, h => by
      rw [aliasesUnder] at h
      rw [nodesOf]
      exact (aliasIn_of_aliasesOfAll h).mono (List.subset_cons_self _ _)
  | .elseBranch body, h => by
      rw [aliasesUnder] at h
      rw [nodesOf]
      exact (aliasIn_of_aliasesOfAll h).mono (List.subset_cons_self _ _)
  | .select _ _ arms, h => by
      rw [aliasesUnder] at h
      rw [nodesOf]
      exact (aliasIn_of_aliasesUnderArms h).mono (List.subset_cons_self _ _)

theorem aliasIn_of_aliasesOfAll : ∀ {l : List NetStmt}, a ∈ aliasesOfAll l →
    AliasIn a (nodesOfAll l)
  | [], h => by
      rw [aliasesOfAll] at h
      exact absurd h List.not_mem_nil
  | s :: rest, h => by
      rw [aliasesOfAll, List.mem_append] at h
      rw [nodesOfAll]
      rcases h with h | h
      · exact (aliasIn_of_aliasesOf h).mono (List.subset_append_left _ _)
      · exact (aliasIn_of_aliasesOfAll h).mono (List.subset_append_right _ _)

theorem aliasIn_of_aliasesUnderAll : ∀ {l : List NetStmt}, a ∈ aliasesUnderAll l →
    AliasIn a (nodesOfAll l)
  | [], h => by
      rw [aliasesUnderAll] at h
      exact absurd h List.not_mem_nil
  | s :: rest, h => by
      rw [aliasesUnderAll, List.mem_append] at h
      rw [nodesOfAll]
      rcases h with h | h
      · exact (aliasIn_of_aliasesUnder h).mono (List.subset_append_left _ _)
      · exact (aliasIn_of_aliasesUnderAll h).mono (List.subset_append_right _ _)

theorem aliasIn_of_aliasesOfArms : ∀ {arms : List (List NetStmt)}, a ∈ aliasesOfArms arms →
    AliasIn a (nodesOfArms arms)
  | [], h => by
      rw [aliasesOfArms] at h
      exact absurd h List.not_mem_nil
  | arm :: rest, h => by
      rw [aliasesOfArms, List.mem_append] at h
      rw [nodesOfArms]
      rcases h with h | h
      · exact (aliasIn_of_aliasesOfAll h).mono (List.subset_append_left _ _)
      · exact (aliasIn_of_aliasesOfArms h).mono (List.subset_append_right _ _)

theorem aliasIn_of_aliasesUnderArms : ∀ {arms : List (List NetStmt)},
    a ∈ aliasesUnderArms arms → AliasIn a (nodesOfArms arms)
  | [], h => by
      rw [aliasesUnderArms] at h
      exact absurd h List.not_mem_nil
  | arm :: rest, h => by
      rw [aliasesUnderArms, List.mem_append] at h
      rw [nodesOfArms]
      rcases h with h | h
      · exact (aliasIn_of_aliasesUnderAll h).mono (List.subset_append_left _ _)
      · exact (aliasIn_of_aliasesUnderArms h).mono (List.subset_append_right _ _)

end

/-- The bodies of IF and ELSE among the statements have no alias assignment. -/
def BranchesFree (nodes : List NetStmt) : Prop :=
  ∀ n ∈ nodes, ∀ body, n.branchBody = some body → ∀ a ∈ nodesOfAll body, a.isAlias = false

theorem BranchesFree.mono {nodes nodes' : List NetStmt} (h : BranchesFree nodes')
    (hsub : nodes ⊆ nodes') : BranchesFree nodes := fun n hn => h n (hsub hn)

mutual

theorem aliasesOf_of_aliasIn : ∀ {s : NetStmt}, BranchesFree (nodesOf s) →
    AliasIn a (nodesOf s) → a ∈ aliasesOf s
  | .assign id op lhs rhs guard, _, h => by
      obtain ⟨id', guard', hmem⟩ := h
      rw [nodesOf, List.mem_singleton] at hmem
      obtain ⟨-, rfl, rfl, rfl, -⟩ := NetStmt.assign.inj hmem
      rw [aliasesOf, if_pos rfl]
      exact List.mem_singleton_self _
  | .branch id condition body, hfree, h => by
      obtain ⟨id', guard', hmem⟩ := h
      rw [nodesOf] at hmem hfree
      have hbody : AliasIn a (nodesOfAll body) :=
        ⟨id', guard', (List.mem_cons.mp hmem).resolve_left nofun⟩
      exact (hbody.isAlias (hfree _ List.mem_cons_self body rfl)).elim
  | .elseBranch body, hfree, h => by
      obtain ⟨id', guard', hmem⟩ := h
      rw [nodesOf] at hmem hfree
      have hbody : AliasIn a (nodesOfAll body) :=
        ⟨id', guard', (List.mem_cons.mp hmem).resolve_left nofun⟩
      exact (hbody.isAlias (hfree _ List.mem_cons_self body rfl)).elim
  | .select id selector arms, hfree, h => by
      obtain ⟨id', guard', hmem⟩ := h
      rw [nodesOf] at hmem hfree
      rw [aliasesOf]
      exact aliasesOfArms_of_aliasIn (hfree.mono (List.subset_cons_self _ _))
        ⟨id', guard', (List.mem_cons.mp hmem).resolve_left nofun⟩
  | .feature thenBody elseBody, hfree, h => by
      obtain ⟨id', guard', hmem⟩ := h
      rw [nodesOf] at hmem hfree
      rw [aliasesOf, List.mem_append]
      rcases List.mem_append.mp ((List.mem_cons.mp hmem).resolve_left nofun) with hmem | hmem
      · exact .inl (aliasesOfAll_of_aliasIn (hfree.mono
          (List.subset_cons_of_subset _ (List.subset_append_left _ _))) ⟨id', guard', hmem⟩)
      · exact .inr (aliasesOfAll_of_aliasIn (hfree.mono
          (List.subset_cons_of_subset _ (List.subset_append_right _ _))) ⟨id', guard', hmem⟩)
  | .syncParam id exprs, _, h => by
      obtain ⟨id', guard', hmem⟩ := h
      rw [nodesOf, List.mem_singleton] at hmem
      cases hmem

theorem aliasesOfAll_of_aliasIn : ∀ {l : List NetStmt}, BranchesFree (nodesOfAll l) →
    AliasIn a (nodesOfAll l) → a ∈ aliasesOfAll l
  | [], _, h => by
      obtain ⟨id', guard', hmem⟩ := h
      rw [nodesOfAll] at hmem
      exact absurd hmem List.not_mem_nil
  | s :: rest, hfree, h => by
      obtain ⟨id', guard', hmem⟩ := h
      rw [nodesOfAll] at hmem hfree
      rw [aliasesOfAll, List.mem_append]
      rcases List.mem_append.mp hmem with hmem | hmem
      · exact .inl (aliasesOf_of_aliasIn (hfree.mono (List.subset_append_left _ _))
          ⟨id', guard', hmem⟩)
      · exact .inr (aliasesOfAll_of_aliasIn (hfree.mono (List.subset_append_right _ _))
          ⟨id', guard', hmem⟩)

theorem aliasesOfArms_of_aliasIn : ∀ {arms : List (List NetStmt)},
    BranchesFree (nodesOfArms arms) → AliasIn a (nodesOfArms arms) → a ∈ aliasesOfArms arms
  | [], _, h => by
      obtain ⟨id', guard', hmem⟩ := h
      rw [nodesOfArms] at hmem
      exact absurd hmem List.not_mem_nil
  | arm :: rest, hfree, h => by
      obtain ⟨id', guard', hmem⟩ := h
      rw [nodesOfArms] at hmem hfree
      rw [aliasesOfArms, List.mem_append]
      rcases List.mem_append.mp hmem with hmem | hmem
      · exact .inl (aliasesOfAll_of_aliasIn (hfree.mono (List.subset_append_left _ _))
          ⟨id', guard', hmem⟩)
      · exact .inr (aliasesOfArms_of_aliasIn (hfree.mono (List.subset_append_right _ _))
          ⟨id', guard', hmem⟩)

end

end

namespace NetModule

variable (M : NetModule)

/-- The records that a statement makes without those below it. -/
def ownMarks (isSync : Bool) : NetStmt → List NetMark
  | .assign id op lhs rhs guard => M.assignMarks isSync id op lhs rhs guard
  | .branch id condition _ => M.sinkMarks condition id
  | .select id selector _ => M.sinkMarks selector id
  | .syncParam id exprs => exprs.flatMap (M.sinkMarks · id)
  | .elseBranch _ | .feature .. => []

variable {M} {isSync : Bool} {mark : NetMark}

mutual

theorem mem_usageOf : ∀ {s : NetStmt},
    mark ∈ M.usageOf isSync s ↔ ∃ n ∈ nodesOf s, mark ∈ M.ownMarks isSync n
  | .assign .. | .syncParam .. => by
      rw [usageOf, nodesOf]
      simp only [List.mem_singleton, exists_eq_left, ownMarks]
  | .branch id condition body => by
      rw [usageOf, nodesOf, List.mem_append, mem_usageOfAll]
      simp only [List.mem_cons, exists_eq_or_imp, ownMarks]
  | .elseBranch body => by
      rw [usageOf, nodesOf, mem_usageOfAll]
      simp only [List.mem_cons, exists_eq_or_imp, ownMarks, List.not_mem_nil, false_or]
  | .select id selector arms => by
      rw [usageOf, nodesOf, List.mem_append, mem_usageOfArms]
      simp only [List.mem_cons, exists_eq_or_imp, ownMarks]
  | .feature thenBody elseBody => by
      rw [usageOf, nodesOf, List.mem_append, mem_usageOfAll, mem_usageOfAll]
      simp only [List.mem_cons, exists_eq_or_imp]
      rw [ownMarks, or_iff_right List.not_mem_nil]
      simp only [List.mem_append, or_and_right, exists_or]

theorem mem_usageOfAll : ∀ {l : List NetStmt},
    mark ∈ M.usageOfAll isSync l ↔ ∃ n ∈ nodesOfAll l, mark ∈ M.ownMarks isSync n
  | [] => by simp [usageOfAll, nodesOfAll]
  | s :: rest => by
      rw [usageOfAll, nodesOfAll, List.mem_append, mem_usageOf, mem_usageOfAll]
      simp only [List.mem_append, or_and_right, exists_or]

theorem mem_usageOfArms : ∀ {arms : List (List NetStmt)},
    mark ∈ M.usageOfArms isSync arms ↔ ∃ n ∈ nodesOfArms arms, mark ∈ M.ownMarks isSync n
  | [] => by simp [usageOfArms, nodesOfArms]
  | arm :: rest => by
      rw [usageOfArms, nodesOfArms, List.mem_append, mem_usageOfAll, mem_usageOfArms]
      simp only [List.mem_append, or_and_right, exists_or]

end

theorem driver_mem_driverMarks {target : CombExpr} {d stmt id : ℕ} :
    .driver d stmt ∈ M.driverMarks target id ↔ d ∈ M.lvalueDecls target ∧ stmt = id := by
  simp [driverMarks, eq_comm]

theorem sink_not_mem_driverMarks {target : CombExpr} {d stmt id : ℕ} :
    ¬ .sink d stmt ∈ M.driverMarks target id := by
  simp [driverMarks]

theorem sink_mem_sinkMarks {source : CombExpr} {d stmt id : ℕ} :
    .sink d stmt ∈ M.sinkMarks source id ↔ d ∈ M.exprDecls source ∧ stmt = id := by
  simp [sinkMarks, eq_comm]

theorem driver_not_mem_sinkMarks {source : CombExpr} {d stmt id : ℕ} :
    ¬ .driver d stmt ∈ M.sinkMarks source id := by
  simp [sinkMarks]

theorem driver_mem_assignMarks {id : ℕ} {op : NetAssignOp} {lhs rhs : CombExpr}
    {guard : Option CombExpr} {d stmt : ℕ} :
    .driver d stmt ∈ M.assignMarks isSync id op lhs rhs guard ↔
      (op = .alias → isSync = true) ∧ d ∈ M.lvalueDecls (driverTarget op lhs rhs) ∧ stmt = id := by
  have hguard : ¬ .driver d stmt ∈
      (if op = .receiveLatch then guard.elim [] (M.sinkMarks · id) else []) := by
    split
    · cases guard with
      | none => exact List.not_mem_nil
      | some e => exact driver_not_mem_sinkMarks
    · exact List.not_mem_nil
  simp only [assignMarks, List.mem_append, driver_not_mem_sinkMarks, hguard, or_false]
  split
  · rename_i h
    refine iff_of_false List.not_mem_nil fun h' => ?_
    rw [h'.1 h.1] at h
    exact absurd h.2 nofun
  · rename_i h
    rw [driver_mem_driverMarks, and_iff_right fun ha => ?_]
    by_contra hs
    exact h ⟨ha, by simpa using hs⟩

theorem sink_mem_assignMarks {id : ℕ} {op : NetAssignOp} {lhs rhs : CombExpr}
    {guard : Option CombExpr} {d stmt : ℕ} :
    .sink d stmt ∈ M.assignMarks isSync id op lhs rhs guard ↔ stmt = id ∧
      (d ∈ M.exprDecls rhs ∨ (op = .drive ∧ d ∈ M.exprDecls lhs) ∨
        (op = .receiveLatch ∧ ∃ e, guard = some e ∧ d ∈ M.exprDecls e)) := by
  have hdriver : ¬ .sink d stmt ∈ (if op = .alias ∧ isSync = false then []
      else M.driverMarks (driverTarget op lhs rhs) id) := by
    split
    · exact List.not_mem_nil
    · exact sink_not_mem_driverMarks
  simp only [assignMarks, List.mem_append, hdriver, false_or, sink_mem_sinkMarks]
  constructor
  · rintro ((⟨hd, rfl⟩ | ⟨hd, rfl⟩) | hguard)
    · by_cases hop : op = .drive
      · rw [if_pos hop] at hd
        exact ⟨rfl, .inr (.inl ⟨hop, hd⟩)⟩
      · rw [if_neg hop] at hd
        exact ⟨rfl, .inl hd⟩
    · exact ⟨rfl, .inl hd⟩
    · split at hguard
      · rename_i hop
        cases guard with
        | none => exact absurd hguard List.not_mem_nil
        | some e =>
          obtain ⟨hd, rfl⟩ := sink_mem_sinkMarks.mp hguard
          exact ⟨rfl, .inr (.inr ⟨hop, e, rfl, hd⟩)⟩
      · exact absurd hguard List.not_mem_nil
  · rintro ⟨rfl, hd | ⟨rfl, hd⟩ | ⟨rfl, e, rfl, hd⟩⟩
    · exact .inl (.inr ⟨hd, rfl⟩)
    · exact .inl (.inl ⟨hd, rfl⟩)
    · exact .inr (sink_mem_sinkMarks.mpr ⟨hd, rfl⟩)

theorem driver_mem_usage {d stmt : ℕ} : .driver d stmt ∈ M.usage ↔ M.Drives stmt d := by
  simp only [usage, List.mem_append, List.mem_flatMap, driver_not_mem_sinkMarks, and_false,
    exists_false, or_false, mem_usageOfAll]
  constructor
  · rintro (⟨block, hblock, n, hn, hmark⟩ | ⟨inst, hinst, hmark⟩)
    · cases n with
      | assign id op lhs rhs guard =>
        obtain ⟨hsync, hd, rfl⟩ := driver_mem_assignMarks.mp hmark
        exact .assign hblock hn hsync hd
      | branch id condition body => exact absurd hmark driver_not_mem_sinkMarks
      | elseBranch body => exact absurd hmark List.not_mem_nil
      | select id selector arms => exact absurd hmark driver_not_mem_sinkMarks
      | feature thenBody elseBody => exact absurd hmark List.not_mem_nil
      | syncParam id exprs =>
        obtain ⟨e, -, he⟩ := List.mem_flatMap.mp hmark
        exact absurd he driver_not_mem_sinkMarks
    · obtain ⟨port, hport, hmark⟩ := List.mem_flatMap.mp hmark
      rw [List.mem_append] at hmark
      rcases hmark with hmark | hmark
      · split at hmark
        · rename_i hwrites
          obtain ⟨hd, rfl⟩ := driver_mem_driverMarks.mp hmark
          exact .port hinst hport hwrites hd
        · exact absurd hmark List.not_mem_nil
      · split at hmark
        · exact absurd hmark driver_not_mem_sinkMarks
        · exact absurd hmark List.not_mem_nil
  · rintro (⟨hblock, hn, hsync, hd⟩ | ⟨hinst, hport, hwrites, hd⟩)
    · exact .inl ⟨_, hblock, _, hn, driver_mem_assignMarks.mpr ⟨hsync, hd, rfl⟩⟩
    · refine .inr ⟨_, hinst, List.mem_flatMap.mpr ⟨_, hport, List.mem_append_left _ ?_⟩⟩
      rw [if_pos hwrites]
      exact driver_mem_driverMarks.mpr ⟨hd, rfl⟩

theorem sink_mem_usage {d stmt : ℕ} : .sink d stmt ∈ M.usage ↔ M.Reads stmt d := by
  simp only [usage, List.mem_append, List.mem_flatMap, mem_usageOfAll]
  constructor
  · rintro ((⟨block, hblock, n, hn, hmark⟩ | ⟨⟨id, e⟩, hclock, hmark⟩) | ⟨inst, hinst, hmark⟩)
    · cases n with
      | assign id op lhs rhs guard =>
        obtain ⟨rfl, hd | ⟨rfl, hd⟩ | ⟨rfl, e, rfl, hd⟩⟩ := sink_mem_assignMarks.mp hmark
        · exact .right hblock hn hd
        · exact .left hblock hn hd
        · exact .latchGuard hblock hn hd
      | branch id condition body =>
        obtain ⟨hd, rfl⟩ := sink_mem_sinkMarks.mp hmark
        exact .condition hblock hn hd
      | elseBranch body => exact absurd hmark List.not_mem_nil
      | select id selector arms =>
        obtain ⟨hd, rfl⟩ := sink_mem_sinkMarks.mp hmark
        exact .selector hblock hn hd
      | feature thenBody elseBody => exact absurd hmark List.not_mem_nil
      | syncParam id exprs =>
        obtain ⟨e, he, hmark⟩ := List.mem_flatMap.mp hmark
        obtain ⟨hd, rfl⟩ := sink_mem_sinkMarks.mp hmark
        exact .param hblock hn he hd
    · obtain ⟨hd, rfl⟩ := sink_mem_sinkMarks.mp hmark
      exact .clock hclock hd
    · obtain ⟨port, hport, hmark⟩ := List.mem_flatMap.mp hmark
      rw [List.mem_append] at hmark
      rcases hmark with hmark | hmark
      · split at hmark
        · exact absurd hmark sink_not_mem_driverMarks
        · exact absurd hmark List.not_mem_nil
      · split at hmark
        · rename_i hreads
          obtain ⟨hd, rfl⟩ := sink_mem_sinkMarks.mp hmark
          exact .port hinst hport hreads hd
        · exact absurd hmark List.not_mem_nil
  · have here : ∀ {source : CombExpr} {id : ℕ}, d ∈ M.exprDecls source →
        .sink d id ∈ M.sinkMarks source id := fun h => sink_mem_sinkMarks.mpr ⟨h, rfl⟩
    rintro (⟨hblock, hn, hd⟩ | ⟨hblock, hn, hd⟩ | ⟨hblock, hn, hd⟩ | ⟨hblock, hn, hd⟩ |
      ⟨hblock, hn, hd⟩ | ⟨hblock, hn, he, hd⟩ | ⟨hclock, hd⟩ | ⟨hinst, hport, hreads, hd⟩)
    · exact .inl (.inl ⟨_, hblock, _, hn, sink_mem_assignMarks.mpr ⟨rfl, .inl hd⟩⟩)
    · exact .inl (.inl ⟨_, hblock, _, hn,
        sink_mem_assignMarks.mpr ⟨rfl, .inr (.inl ⟨rfl, hd⟩)⟩⟩)
    · exact .inl (.inl ⟨_, hblock, _, hn,
        sink_mem_assignMarks.mpr ⟨rfl, .inr (.inr ⟨rfl, _, rfl, hd⟩)⟩⟩)
    · exact .inl (.inl ⟨_, hblock, _, hn, here hd⟩)
    · exact .inl (.inl ⟨_, hblock, _, hn, here hd⟩)
    · exact .inl (.inl ⟨_, hblock, _, hn, List.mem_flatMap.mpr ⟨_, he, here hd⟩⟩)
    · exact .inl (.inr ⟨_, hclock, here hd⟩)
    · refine .inr ⟨_, hinst, List.mem_flatMap.mpr ⟨_, hport, List.mem_append_right _ ?_⟩⟩
      rw [if_pos hreads]
      exact here hd

/-! ## The graph -/

theorem mem_netDecls {scope : CombScope} {d : ℕ} :
    d ∈ scope.netDecls ↔ CombScope.isNet (scope.kind d) = true := by
  rw [CombScope.netDecls, List.mem_filter, List.mem_range, and_iff_right_iff_imp]
  intro h
  by_contra hlt
  rw [CombScope.kind, List.getElem?_eq_none (by omega)] at h
  exact Bool.false_ne_true h

theorem declOf_netDecls {scope : CombScope} {accepts : FlowSymbolKind → Bool}
    (haccepts : ∀ k, accepts k = true → CombScope.isNet k = true) {name : List Char} {d : ℕ}
    (h : d ∈ scope.declOf accepts name) : d ∈ scope.netDecls := by
  rw [CombScope.declOf] at h
  split at h
  · exact absurd h List.not_mem_nil
  · split at h
    · rename_i hk
      obtain rfl := List.mem_singleton.mp h
      exact mem_netDecls.mpr (haccepts _ hk)
    · exact absurd h List.not_mem_nil

theorem isNet_of_isSource {k : FlowSymbolKind} (h : CombScope.isSource k = true) :
    CombScope.isNet k = true := by
  cases k <;> first | rfl | exact h

mutual

theorem collectTargets_netDecls {scope : CombScope} : ∀ {e : CombExpr} {d : ℕ},
    d ∈ collectTargets scope e → d ∈ scope.netDecls
  | .concat parts, d, h => by
      rw [collectTargets] at h
      exact collectTargetsAll_netDecls h
  | .slice (.identifier name :: rest), d, h => by
      rw [collectTargets] at h
      exact declOf_netDecls (fun _ hk => hk) h
  | .identifier name, d, h => by
      rw [collectTargets] at h
      exact declOf_netDecls (fun _ => isNet_of_isSource) h
  | .slice [], d, h | .slice (.qualified _ :: _), d, h | .slice (.busAccess .. :: _), d, h
  | .slice (.slice _ :: _), d, h | .slice (.concat _ :: _), d, h
  | .slice (.operator _ :: _), d, h | .slice (.leaf :: _), d, h | .slice (.other _ :: _), d, h
  | .qualified _, d, h | .busAccess .., d, h | .operator _, d, h | .leaf, d, h
  | .other _, d, h => by
      rw [collectTargets] at h
      · exact absurd h List.not_mem_nil
      all_goals nofun

theorem collectTargetsAll_netDecls {scope : CombScope} : ∀ {es : List CombExpr} {d : ℕ},
    d ∈ collectTargetsAll scope es → d ∈ scope.netDecls
  | [], d, h => by
      rw [collectTargetsAll] at h
      exact absurd h List.not_mem_nil
  | e :: rest, d, h => by
      rw [collectTargetsAll, List.mem_append] at h
      exact h.elim collectTargets_netDecls collectTargetsAll_netDecls

end

mutual

theorem collectSources_netDecls {scope : CombScope} : ∀ {e : CombExpr} {d : ℕ},
    d ∈ collectSources scope e → d ∈ scope.netDecls
  | .identifier name, d, h | .busAccess name _, d, h => by
      rw [collectSources] at h
      exact declOf_netDecls (fun _ => isNet_of_isSource) h
  | .qualified name, d, h => by
      rw [collectSources] at h
      cases hq : qualifier name with
      | none =>
        rw [hq] at h
        exact absurd h List.not_mem_nil
      | some head =>
        rw [hq] at h
        exact declOf_netDecls (fun _ => isNet_of_isSource) h
  | .slice children, d, h | .concat children, d, h | .operator children, d, h => by
      rw [collectSources] at h
      exact collectSourcesAll_netDecls h
  | .leaf, d, h | .other _, d, h => by
      rw [collectSources] at h
      exact absurd h List.not_mem_nil

theorem collectSourcesAll_netDecls {scope : CombScope} : ∀ {es : List CombExpr} {d : ℕ},
    d ∈ collectSourcesAll scope es → d ∈ scope.netDecls
  | [], d, h => by
      rw [collectSourcesAll] at h
      exact absurd h List.not_mem_nil
  | e :: rest, d, h => by
      rw [collectSourcesAll, List.mem_append] at h
      exact h.elim collectSources_netDecls collectSourcesAll_netDecls

end

theorem mem_collectedPairs {p : ℕ × ℕ} : p ∈ M.collectedPairs ↔
    ∃ block ∈ M.blocks, block.isSync = false ∧ ∃ a ∈ aliasesOfAll block.stmts,
      p.1 ∈ collectTargets M.scope a.1 ∧ p.2 ∈ collectSources M.scope a.2 := by
  have hpairs : ∀ a, p ∈ aliasPairs M.scope a ↔
      p.1 ∈ collectTargets M.scope a.1 ∧ p.2 ∈ collectSources M.scope a.2 := by
    intro a
    simp only [aliasPairs, List.mem_flatMap, List.mem_map]
    constructor
    · rintro ⟨d, hd, e, he, rfl⟩
      exact ⟨hd, he⟩
    · rintro ⟨hd, he⟩
      exact ⟨p.1, hd, p.2, he, rfl⟩
  simp only [collectedPairs, List.mem_flatMap, hpairs]
  constructor
  · rintro ⟨a, ⟨block, hblock, ha⟩, hp⟩
    split at ha
    · exact absurd ha List.not_mem_nil
    · rename_i hsync
      exact ⟨block, hblock, by simpa using hsync, a, ha, hp⟩
  · rintro ⟨block, hblock, hsync, a, ha, hp⟩
    exact ⟨a, ⟨block, hblock, by rwa [hsync, if_neg Bool.false_ne_true]⟩, hp⟩

/-- Where no branch has an alias assignment, the walk meets all of them. -/
theorem aliased_iff (hfree : ∀ block ∈ M.blocks, block.isSync = false →
    BranchesFree (nodesOfAll block.stmts)) {d e : ℕ} :
    M.Aliased d e ↔ (d, e) ∈ M.collectedPairs := by
  rw [mem_collectedPairs]
  constructor
  · rintro ⟨block, hblock, hsync, id, lhs, rhs, guard, hmem, hd, he⟩
    exact ⟨block, hblock, hsync, (lhs, rhs),
      aliasesOfAll_of_aliasIn (hfree block hblock hsync) ⟨id, guard, hmem⟩, hd, he⟩
  · rintro ⟨block, hblock, hsync, a, ha, hd, he⟩
    obtain ⟨id, guard, hmem⟩ := aliasIn_of_aliasesOfAll ha
    exact ⟨block, hblock, hsync, id, a.1, a.2, guard, hmem, hd, he⟩

end NetModule

/-- Without alias assignments in conditional branches the net graph is the partition by aliases
with all users of every net. -/
theorem buildModuleGraph_exact (M : NetModule) (hfree : ∀ block ∈ M.blocks,
    block.isSync = false → BranchesFree (nodesOfAll block.stmts)) :
    M.ExactGraph M.buildModuleGraph := by
  have hdecls : ∀ p ∈ [] ++ M.collectedPairs,
      p.1 ∈ M.scope.netDecls ∧ p.2 ∈ M.scope.netDecls := by
    intro p hp
    rw [List.nil_append, NetModule.mem_collectedPairs] at hp
    obtain ⟨block, -, -, a, -, hd, he⟩ := hp
    exact ⟨NetModule.collectTargets_netDecls hd, NetModule.collectSources_netDecls he⟩
  have hmerged := NetGraph.merged_foldl M.scope (NetGraph.merged_initial M.scope) hdecls
  rw [List.nil_append] at hmerged
  have hrec := NetGraph.recorded_foldl M.usage hmerged.range
  rw [← NetModule.buildModuleGraph] at hrec
  refine ⟨fun d hd => ?_, fun d hd e he => ?_, fun ix stmt => ?_, fun ix stmt => ?_⟩
  · obtain ⟨ix, hix⟩ := Option.isSome_iff_exists.mp ((hmerged.bound d).mpr hd)
    refine ⟨ix, ?_, ?_, ?_, fun j hj => ?_⟩
    · rw [hrec.count]
      exact hmerged.range d ix hix
    · rw [hrec.bind, hix]
    · rw [hrec.atoms]
      exact List.count_eq_one_of_mem (hmerged.nodup ix) ((hmerged.atoms d ix).mpr hix)
    · rw [hrec.atoms, hmerged.atoms, hix] at hj
      exact (Option.some.inj hj).symm
  · rw [hrec.bind, hmerged.same d hd e he]
    have hrel : (fun x y => (x, y) ∈ M.collectedPairs) = M.Aliased := by
      funext x y
      exact propext (NetModule.aliased_iff hfree).symm
    rw [hrel]
  · rw [hrec.drivers, (hmerged.unused ix).1, or_iff_right List.not_mem_nil, hrec.bind]
    simp only [NetModule.driver_mem_usage]
  · rw [hrec.sinks, (hmerged.unused ix).2, or_iff_right List.not_mem_nil, hrec.bind]
    simp only [NetModule.sink_mem_usage]

/-- A directional assignment or an instance. -/
def NetModule.IsUser (M : NetModule) (stmt : ℕ) : Prop :=
  (∃ block ∈ M.blocks, ∃ op lhs rhs guard, .assign stmt op lhs rhs guard ∈
    nodesOfAll block.stmts ∧ (op = .alias → block.isSync = true)) ∨
    ∃ inst ∈ M.instances, inst.id = stmt

namespace NetGraphExample

/-- `w = a; IF (c) { v <= a; }` -/
def statements : List NetStmt :=
  [.assign 0 .alias (.identifier ['w']) (.identifier ['a']) none,
    .branch 1 (.identifier ['c'])
      [.assign 2 .receive (.identifier ['v']) (.identifier ['a']) none]]

def aliased : NetModule where
  scope := ⟨[⟨['a'], .port⟩, ⟨['w'], .wire⟩, ⟨['c'], .port⟩, ⟨['v'], .wire⟩]⟩
  isBus _ := false
  blocks := [⟨false, statements⟩]
  cdcClocks := []
  instances := []

theorem statements_free : BranchesFree (nodesOfAll statements) := by
  intro n hn body hbody a ha
  have hnodes : n = .branch 1 (.identifier ['c'])
      [.assign 2 .receive (.identifier ['v']) (.identifier ['a']) none] := by
    rcases List.mem_cons.mp hn with rfl | hn
    · cases hbody
    rcases List.mem_cons.mp hn with rfl | hn
    · rfl
    obtain rfl := List.mem_singleton.mp hn
    cases hbody
  subst hnodes
  obtain rfl := Option.some.inj hbody
  obtain rfl := List.mem_singleton.mp ha
  rfl

end NetGraphExample

open NetGraphExample in
theorem buildModuleGraph_exact_aliased : aliased.ExactGraph aliased.buildModuleGraph := by
  refine buildModuleGraph_exact aliased fun block hblock _ => ?_
  obtain rfl := List.mem_singleton.mp hblock
  exact statements_free

open NetGraphExample in
/-- The IF itself is a sink of the net of its condition. -/
theorem condition_is_sink : ¬ ∀ ix stmt,
    stmt ∈ (aliased.buildModuleGraph.nets ix).sinkStmts → aliased.IsUser stmt := by
  intro h
  rcases h 2 1 (by decide +kernel) with ⟨block, hblock, op, lhs, rhs, guard, hmem, -⟩ | hinst
  · obtain rfl := List.mem_singleton.mp hblock
    have hids : ∀ n ∈ nodesOfAll statements, ∀ op lhs rhs guard,
        n ≠ .assign 1 op lhs rhs guard := by
      intro n hn op lhs rhs guard
      rcases List.mem_cons.mp hn with rfl | hn
      · exact fun hassign => absurd (NetStmt.assign.inj hassign).1 (by decide)
      rcases List.mem_cons.mp hn with rfl | hn
      · nofun
      obtain rfl := List.mem_singleton.mp hn
      exact fun hassign => absurd (NetStmt.assign.inj hassign).1 (by decide)
    exact hids _ hmem op lhs rhs guard rfl
  · obtain ⟨inst, hinst, -⟩ := hinst
    exact absurd hinst List.not_mem_nil

end JzHdl

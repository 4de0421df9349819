import JzHdl.Ir.ClockDomains
import JzHdl.Sim.MaskedEval

/-! # Reset coverage

Which registers a domain resets, and what its statements do while the reset is
active and while it is not.
-/

namespace JzHdl

open BitWords

/-! ## Assigned signals -/

mutual

/-- The targets of the assignments of a statement, as the source orders them. -/
def assignedStmt : SyncStmt → List ℕ
  | .assign assigns => assigns.map IRAssignment.lhsSignalId
  | .memWrite .. => []
  | .ifChain _ body elifs elseBody =>
      assignedStmts body ++ assignedElifs elifs ++ assignedStmts elseBody
  | .select _ arms => assignedArms arms
  | .feature active thenBody elseBody =>
      if active then assignedStmts thenBody else assignedStmts elseBody

def assignedStmts : SyncStmts → List ℕ
  | .nil => []
  | .cons stmt rest => assignedStmt stmt ++ assignedStmts rest

def assignedElifs : SyncElifs → List ℕ
  | .nil => []
  | .cons _ body rest => assignedStmts body ++ assignedElifs rest

def assignedArms : SyncArms → List ℕ
  | .nil => []
  | .cons _ body rest => assignedStmts body ++ assignedArms rest

end

mutual

/-- The targets of the assignments of a tree, in the order of the walk. -/
def treeTargets : IRStmt → List ℕ
  | .assignment a => [a.lhsSignalId]
  | .ifStmt _ thenBlock elifChain elseBlock =>
      treeTargets thenBlock ++ chainTargets elifChain ++ treeTargets elseBlock
  | .select _ cases => caseTargets cases
  | .block stmts => listTargets stmts
  | .null => []
  | .memWrite .. => []

def chainTargets : IRStmt → List ℕ
  | .assignment a => [a.lhsSignalId]
  | .ifStmt _ thenBlock elifChain elseBlock =>
      treeTargets thenBlock ++ treeTargets elseBlock ++ chainTargets elifChain
  | .select _ cases => caseTargets cases
  | .block stmts => listTargets stmts
  | .null => []
  | .memWrite .. => []

def caseTargets : List (IRExpr × IRStmt) → List ℕ
  | [] => []
  | (_, body) :: rest => treeTargets body ++ caseTargets rest

def listTargets : List IRStmt → List ℕ
  | [] => []
  | stmt :: rest => treeTargets stmt ++ listTargets rest

end

theorem treeTargets_irMakeBlock (stmts : List IRStmt) :
    treeTargets (irMakeBlock stmts) = listTargets stmts := by
  cases stmts with
  | nil => rw [irMakeBlock, treeTargets, listTargets]
  | cons stmt rest =>
    rw [irMakeBlock, treeTargets]
    nofun

theorem listTargets_assignments (assigns : List IRAssignment) :
    listTargets (assigns.map .assignment) = assigns.map IRAssignment.lhsSignalId := by
  induction assigns with
  | nil => rw [List.map_nil, listTargets, List.map_nil]
  | cons a rest ih =>
    rw [List.map_cons, listTargets, ih, treeTargets, List.map_cons]
    rfl

mutual

theorem treeTargets_irBuildStmt : ∀ stmt : SyncStmt,
    treeTargets (irBuildStmt stmt) = assignedStmt stmt
  | .assign assigns => by
      rw [irBuildStmt, treeTargets, listTargets_assignments, assignedStmt]
  | .memWrite .. => by rw [irBuildStmt, treeTargets, assignedStmt]
  | .ifChain _ body elifs elseBody => by
      rw [irBuildStmt, treeTargets, treeTargets_irMakeBlock, treeTargets_irMakeBlock,
        listTargets_irBuildStmts body, chainTargets_irBuildElifs elifs,
        listTargets_irBuildStmts elseBody, assignedStmt]
  | .select _ arms => by
      rw [irBuildStmt, treeTargets, caseTargets_irBuildArms arms, assignedStmt]
  | .feature active thenBody elseBody => by
      have hthen := listTargets_irBuildStmts thenBody
      have helse := listTargets_irBuildStmts elseBody
      rw [irBuildStmt, treeTargets_irMakeBlock, assignedStmt]
      cases active
      · exact helse
      · exact hthen

theorem listTargets_irBuildStmts : ∀ stmts : SyncStmts,
    listTargets (irBuildStmts stmts) = assignedStmts stmts
  | .nil => by rw [irBuildStmts, listTargets, assignedStmts]
  | .cons stmt rest => by
      rw [irBuildStmts, listTargets, treeTargets_irBuildStmt stmt, listTargets_irBuildStmts rest,
        assignedStmts]

theorem chainTargets_irBuildElifs : ∀ elifs : SyncElifs,
    chainTargets (irBuildElifs elifs) = assignedElifs elifs
  | .nil => by rw [irBuildElifs, chainTargets, assignedElifs]
  | .cons _ body rest => by
      rw [irBuildElifs, chainTargets, treeTargets_irMakeBlock, listTargets_irBuildStmts body,
        chainTargets_irBuildElifs rest, assignedElifs, treeTargets, List.append_nil]

theorem caseTargets_irBuildArms : ∀ arms : SyncArms,
    caseTargets (irBuildArms arms) = assignedArms arms
  | .nil => by rw [irBuildArms, caseTargets, assignedArms]
  | .cons _ body rest => by
      rw [irBuildArms, caseTargets, treeTargets_irMakeBlock, listTargets_irBuildStmts body,
        caseTargets_irBuildArms rest, assignedArms]

end

/-! ## The walk -/

theorem listTargets_append (xs ys : List IRStmt) :
    listTargets (xs ++ ys) = listTargets xs ++ listTargets ys := by
  induction xs with
  | nil => rw [List.nil_append, listTargets, List.nil_append]
  | cons x rest ih => rw [List.cons_append, listTargets, listTargets, ih, List.append_assoc]

theorem listTargets_pushed (stmt : IRStmt) : listTargets (pushed stmt) = treeTargets stmt := by
  cases stmt with
  | null =>
    change listTargets [] = _
    rw [listTargets, treeTargets]
  | _ =>
    change listTargets [_] = _
    rw [listTargets, listTargets, List.append_nil]

theorem listTargets_elifPending (stmt : IRStmt) :
    listTargets (elifPending stmt) = chainTargets stmt := by
  cases stmt with
  | null => rw [elifPending, listTargets, chainTargets]
  | ifStmt _ thenBlock elifChain elseBlock =>
    rw [elifPending, listTargets_append, listTargets_append, listTargets_pushed,
      listTargets_pushed, listTargets_elifPending elifChain, chainTargets]
  | assignment | select | block | memWrite =>
    rw [elifPending, listTargets, listTargets, List.append_nil, treeTargets, chainTargets]
    all_goals
      intros
      contradiction

theorem listTargets_cases (cases : List (IRExpr × IRStmt)) :
    listTargets (cases.flatMap fun c => pushed c.2) = caseTargets cases := by
  induction cases with
  | nil => rw [List.flatMap_nil, listTargets, caseTargets]
  | cons c rest ih =>
    rw [List.flatMap_cons, listTargets_append, listTargets_pushed, ih, caseTargets]

section

variable {isRegister : ℕ → Bool} {cd : ℕ}

/-- Visiting a statement and then what it pushes meets all its targets. -/
theorem visit_eq (acc : RegWalk) (stmt : IRStmt) :
    (listTargets (walkPending stmt)).foldl (RegWalk.note isRegister cd)
      (acc.visit isRegister cd stmt) =
    (treeTargets stmt).foldl (RegWalk.note isRegister cd) acc := by
  cases stmt with
  | null =>
    rw [walkPending, listTargets, treeTargets, RegWalk.visit]
    all_goals
      intros
      contradiction
  | assignment a =>
    rw [walkPending, listTargets, treeTargets, RegWalk.visit]
    · rfl
    all_goals
      intros
      contradiction
  | ifStmt condition thenBlock elifChain elseBlock =>
    rw [walkPending, listTargets_append, listTargets_append, listTargets_pushed,
      listTargets_elifPending, listTargets_pushed, treeTargets, RegWalk.visit]
    intros
    contradiction
  | select selector cases =>
    rw [walkPending, listTargets_cases, treeTargets, RegWalk.visit]
    intros
    contradiction
  | block stmts =>
    rw [walkPending, treeTargets, RegWalk.visit]
    intros
    contradiction
  | memWrite =>
    rw [walkPending, listTargets, treeTargets, RegWalk.visit]
    all_goals
      intros
      contradiction

theorem collectLoop_eq (stack : List IRStmt) (acc : RegWalk) :
    collectLoop isRegister cd stack acc =
      (listTargets stack).foldl (RegWalk.note isRegister cd) acc := by
  induction stack, acc using collectLoop.induct isRegister cd with
  | case1 acc => rw [collectLoop, listTargets, List.foldl_nil]
  | case2 acc cur rest ih =>
    rw [collectLoop, ih, listTargets_append, List.foldl_append, visit_eq, listTargets,
      List.foldl_append]

theorem irCollectRegisterIds_eq (body : SyncStmts) (home : ℕ → Option ℕ) :
    irCollectRegisterIds isRegister cd (irBuildBlock body) home =
      (assignedStmts body).foldl (RegWalk.note isRegister cd) ⟨[], home⟩ := by
  rw [irCollectRegisterIds, collectLoop_eq, listTargets_pushed, irBuildBlock,
    treeTargets_irMakeBlock, listTargets_irBuildStmts]

theorem mem_note (acc : RegWalk) (id j : ℕ) :
    j ∈ (acc.note isRegister cd id).ids ↔ j ∈ acc.ids ∨ j = id ∧ isRegister id = true := by
  rw [RegWalk.note]
  by_cases hreg : isRegister id = true
  · rw [if_pos hreg]
    by_cases hmem : id ∈ acc.ids
    · rw [if_pos hmem]
      constructor
      · exact Or.inl
      · rintro (h | ⟨rfl, -⟩)
        · exact h
        · exact hmem
    · rw [if_neg hmem, List.mem_append, List.mem_singleton]
      simp only [hreg, and_true]
  · rw [if_neg hreg]
    simp only [hreg, Bool.false_eq_true, and_false, or_false]

theorem nodup_note {acc : RegWalk} (h : acc.ids.Nodup) (id : ℕ) :
    (acc.note isRegister cd id).ids.Nodup := by
  rw [RegWalk.note]
  split
  · dsimp only
    split
    · exact h
    · rename_i hmem
      rw [List.nodup_append]
      refine ⟨h, List.nodup_singleton id, ?_⟩
      rintro a ha b hb rfl
      rw [List.mem_singleton] at hb
      exact hmem (hb ▸ ha)
  · exact h

/-- The registers found are those among the targets, each once. -/
theorem walk_ids (l : List ℕ) : ∀ acc : RegWalk, acc.ids.Nodup →
    (l.foldl (RegWalk.note isRegister cd) acc).ids.Nodup ∧
      ∀ j, j ∈ (l.foldl (RegWalk.note isRegister cd) acc).ids ↔
        j ∈ acc.ids ∨ j ∈ l ∧ isRegister j = true := by
  induction l with
  | nil =>
    intro acc h
    refine ⟨h, fun j => ?_⟩
    simp only [List.foldl_nil, List.not_mem_nil, false_and, or_false]
  | cons id rest ih =>
    intro acc h
    obtain ⟨hnodup, hmem⟩ := ih (acc.note isRegister cd id) (nodup_note h id)
    refine ⟨hnodup, fun j => ?_⟩
    rw [List.foldl_cons, hmem, mem_note, List.mem_cons]
    constructor
    · rintro ((h1 | ⟨rfl, h2⟩) | ⟨h1, h2⟩)
      · exact .inl h1
      · exact .inr ⟨.inl rfl, h2⟩
      · exact .inr ⟨.inr h1, h2⟩
    · rintro (h1 | ⟨rfl | h1, h2⟩)
      · exact .inl (.inl h1)
      · exact .inl (.inr ⟨rfl, h2⟩)
      · exact .inr ⟨h1, h2⟩

/-- A register has a home as soon as an assignment to it is met. -/
theorem walk_home (l : List ℕ) (j : ℕ) : ∀ acc : RegWalk,
    (l.foldl (RegWalk.note isRegister cd) acc).home j = none ↔
      acc.home j = none ∧ ¬(j ∈ l ∧ isRegister j = true) := by
  induction l with
  | nil =>
    intro acc
    simp only [List.foldl_nil, List.not_mem_nil, false_and, not_false_eq_true, and_true]
  | cons id rest ih =>
    intro acc
    have hstep : (acc.note isRegister cd id).home j = none ↔
        acc.home j = none ∧ ¬(j = id ∧ isRegister j = true) := by
      rw [RegWalk.note]
      by_cases hreg : isRegister id = true
      · rw [if_pos hreg]
        dsimp only
        by_cases hj : j = id
        · subst hj
          rw [if_pos rfl]
          simp only [Option.or_eq_none_iff, reduceCtorEq, and_false, true_and, hreg,
            not_true_eq_false]
        · rw [if_neg hj]
          simp only [hj, false_and, not_false_eq_true, and_true]
      · rw [if_neg hreg]
        constructor
        · rintro h
          refine ⟨h, ?_⟩
          rintro ⟨rfl, h2⟩
          exact hreg h2
        · exact And.left
    rw [List.foldl_cons, ih, hstep, List.mem_cons, and_assoc]
    refine and_congr_right fun _ => ?_
    tauto

end

/-! ## The domains -/

/-- Append registers to the first domain with a reset. -/
def adoptAll : List ClockDomain → List ℕ → List ClockDomain
  | [], _ => []
  | cd :: rest, ids =>
    if cd.header.resetSignalId.isSome then
      { cd with registerIds := cd.registerIds ++ ids } :: rest
    else cd :: adoptAll rest ids

theorem adoptAll_nil : ∀ ds : List ClockDomain, adoptAll ds [] = ds
  | [] => rfl
  | cd :: rest => by
      rw [adoptAll, adoptAll_nil rest, List.append_nil]
      split <;> rfl

theorem length_adoptAll (ids : List ℕ) : ∀ ds : List ClockDomain,
    (adoptAll ds ids).length = ds.length
  | [] => rfl
  | cd :: rest => by
      rw [adoptAll]
      split
      · rfl
      · rw [List.length_cons, length_adoptAll ids rest, List.length_cons]

theorem adoptInto_adoptAll (id : ℕ) : ∀ (ds : List ClockDomain) (ids : List ℕ),
    adoptInto (adoptAll ds ids) id = adoptAll ds (ids ++ [id])
  | [], _ => rfl
  | cd :: rest, ids => by
      rw [adoptAll, adoptAll]
      by_cases h : cd.header.resetSignalId.isSome = true
      · rw [if_pos h, if_pos h, adoptInto, if_pos h, List.append_assoc]
      · rw [if_neg h, if_neg h, adoptInto, if_neg h, adoptInto_adoptAll id rest ids]

/-- The domain at a position is the first one with a reset. -/
def FirstReset (headers : List SyncHeader) (d : ℕ) : Prop :=
  (∃ h, headers[d]? = some h ∧ h.resetSignalId.isSome = true) ∧
    ∀ j < d, ∀ h, headers[j]? = some h → h.resetSignalId = none

theorem firstReset_cons {h : SyncHeader} {rest : List SyncHeader}
    (hnone : h.resetSignalId = none) (d : ℕ) :
    FirstReset (h :: rest) (d + 1) ↔ FirstReset rest d := by
  rw [FirstReset, FirstReset]
  simp only [List.getElem?_cons_succ]
  refine and_congr_right fun _ => ?_
  constructor
  · intro hall j hj h' hget
    exact hall (j + 1) (by omega) h' (by rwa [List.getElem?_cons_succ])
  · intro hall j hj h' hget
    cases j with
    | zero =>
      rw [List.getElem?_cons_zero, Option.some.injEq] at hget
      exact hget ▸ hnone
    | succ j => exact hall j (by omega) h' (by rwa [List.getElem?_cons_succ] at hget)

open Classical in
theorem adoptAll_get (ids : List ℕ) : ∀ (ds : List ClockDomain) (d : ℕ),
    (adoptAll ds ids)[d]? = (ds[d]?).map fun cd =>
      if FirstReset (ds.map ClockDomain.header) d then
        { cd with registerIds := cd.registerIds ++ ids } else cd
  | [], d => by rw [adoptAll, List.getElem?_nil, Option.map_none]
  | cd :: rest, d => by
      rw [adoptAll, List.map_cons]
      by_cases h : cd.header.resetSignalId.isSome = true
      · rw [if_pos h]
        cases d with
        | zero =>
          have hfirst : FirstReset (cd.header :: rest.map ClockDomain.header) 0 :=
            ⟨⟨cd.header, rfl, h⟩, nofun⟩
          rw [List.getElem?_cons_zero, List.getElem?_cons_zero, Option.map_some, if_pos hfirst]
        | succ d =>
          have hlater : ¬FirstReset (cd.header :: rest.map ClockDomain.header) (d + 1) := by
            rintro ⟨-, hall⟩
            rw [hall 0 (Nat.succ_pos d) cd.header rfl] at h
            cases h
          simp only [List.getElem?_cons_succ, if_neg hlater]
          exact Option.map_id'.symm
      · have hnone : cd.header.resetSignalId = none := by simpa using h
        rw [if_neg h]
        cases d with
        | zero =>
          have hnot : ¬FirstReset (cd.header :: rest.map ClockDomain.header) 0 := by
            rintro ⟨⟨h', hget, hsome⟩, -⟩
            rw [List.getElem?_cons_zero, Option.some.injEq] at hget
            rw [← hget, hnone] at hsome
            cases hsome
          rw [List.getElem?_cons_zero, List.getElem?_cons_zero, Option.map_some, if_neg hnot]
        | succ d =>
          rw [List.getElem?_cons_succ, List.getElem?_cons_succ, adoptAll_get ids rest d]
          simp only [firstReset_cons hnone]

namespace ClockModule

variable (mod : ClockModule)

theorem adopt_eq (home : ℕ → Option ℕ) (ds : List ClockDomain) : mod.adopt ds home =
    adoptAll ds ((mod.signals.filter (mod.orphan home)).map DeclaredSignal.id) := by
  have hfold : ∀ (sigs : List DeclaredSignal) (ids : List ℕ),
      sigs.foldl (fun ds sig => if mod.orphan home sig then adoptInto ds sig.id else ds)
        (adoptAll ds ids) =
      adoptAll ds (ids ++ (sigs.filter (mod.orphan home)).map DeclaredSignal.id) := by
    intro sigs
    induction sigs with
    | nil => intro ids; rw [List.foldl_nil, List.filter_nil, List.map_nil, List.append_nil]
    | cons sig rest ih =>
      intro ids
      rw [List.foldl_cons]
      by_cases h : mod.orphan home sig = true
      · rw [if_pos h, adoptInto_adoptAll, ih, List.filter_cons_of_pos h, List.map_cons,
          List.append_assoc, List.singleton_append]
      · rw [if_neg h, ih, List.filter_cons_of_neg h]
  have hall := hfold mod.signals []
  rw [adoptAll_nil, List.nil_append] at hall
  exact hall

/-- A block writes a register. -/
def Writes (b : SyncBlockNode) (id : ℕ) : Prop :=
  id ∈ assignedStmts b.body ∧ mod.isRegister id = true

/-- What the first pass knows of the domain of a block. -/
structure Collected (b : SyncBlockNode) (cd : ClockDomain) : Prop where

  header : cd.header = mod.header b

  nodup : cd.registerIds.Nodup

  mem : ∀ id, id ∈ cd.registerIds ↔ mod.Writes b id

theorem collectDomains_spec : ∀ (bs : List SyncBlockNode) (d : ℕ) (home : ℕ → Option ℕ),
    List.Forall₂ mod.Collected bs (mod.collectDomains bs d home).1 ∧
      ∀ id, (mod.collectDomains bs d home).2 id = none ↔
        home id = none ∧ ∀ b ∈ bs, ¬mod.Writes b id
  | [], d, home => by
      refine ⟨List.Forall₂.nil, fun id => ?_⟩
      simp only [collectDomains, List.not_mem_nil, false_implies, implies_true, and_true]
  | b :: rest, d, home => by
      obtain ⟨hnodup, hmem⟩ := @walk_ids mod.isRegister d (assignedStmts b.body) ⟨[], home⟩
        List.nodup_nil
      have hhome := @walk_home mod.isRegister d (assignedStmts b.body)
      rw [collectDomains, irCollectRegisterIds_eq]
      obtain ⟨hdomains, hnone⟩ := collectDomains_spec rest (d + 1)
        ((assignedStmts b.body).foldl (RegWalk.note mod.isRegister d) ⟨[], home⟩).home
      refine ⟨List.Forall₂.cons ⟨rfl, hnodup, fun id => ?_⟩ hdomains, fun id => ?_⟩
      · rw [hmem]
        simp only [List.not_mem_nil, false_or]
        rfl
      · dsimp only
        rw [hnone, hhome, List.forall_mem_cons, and_assoc]
        rfl

def headers : List SyncHeader := mod.blocks.map mod.header

/-- No block writes a register. -/
def NeverWritten (id : ℕ) : Prop := ∀ b ∈ mod.blocks, ¬mod.Writes b id

/-- The registers that the second pass finds. -/
def orphanIds : List ℕ :=
  (mod.signals.filter (mod.orphan (mod.collectDomains mod.blocks 0 fun _ => none).2)).map
    DeclaredSignal.id

variable {mod}

theorem mem_orphanIds {id : ℕ} : id ∈ mod.orphanIds ↔ ∃ sig ∈ mod.signals, sig.id = id ∧
    ∃ init, sig.kind = .register init ∧ 0 < (init.resetValue mod.env).width ∧
      0 < sig.sourceLine ∧ mod.NeverWritten sig.id := by
  obtain ⟨-, hhome⟩ := mod.collectDomains_spec mod.blocks 0 fun _ => none
  have horphan : ∀ sig : DeclaredSignal,
      mod.orphan (mod.collectDomains mod.blocks 0 fun _ => none).2 sig = true ↔
        ∃ init, sig.kind = .register init ∧ 0 < (init.resetValue mod.env).width ∧
          0 < sig.sourceLine ∧ mod.NeverWritten sig.id := by
    intro sig
    have hnone := hhome sig.id
    simp only [true_and] at hnone
    rw [orphan]
    cases hkind : sig.kind with
    | register init =>
      simp only [Bool.and_eq_true, Option.isNone_iff_eq_none, decide_eq_true_eq, hnone,
        DeclaredKind.register.injEq, exists_eq_left']
      rw [NeverWritten]
      tauto
    | other kind => simp only [Bool.false_eq_true, reduceCtorEq, false_and, exists_false]
  simp only [orphanIds, List.mem_map, List.mem_filter, horphan]
  constructor
  · rintro ⟨sig, ⟨hmem, h⟩, hid⟩
    exact ⟨sig, hmem, hid, h⟩
  · rintro ⟨sig, hmem, hid, h⟩
    exact ⟨sig, ⟨hmem, h⟩, hid⟩

theorem headers_collected {bs : List SyncBlockNode} {ds : List ClockDomain}
    (h : List.Forall₂ mod.Collected bs ds) : ds.map ClockDomain.header = bs.map mod.header := by
  induction h with
  | nil => rfl
  | cons hcd _ ih => rw [List.map_cons, List.map_cons, hcd.header, ih]

theorem collected_get {bs : List SyncBlockNode} {ds : List ClockDomain}
    (h : List.Forall₂ mod.Collected bs ds) {d : ℕ} {b : SyncBlockNode} (hb : bs[d]? = some b) :
    ∃ cd, ds[d]? = some cd ∧ mod.Collected b cd := by
  induction h generalizing d with
  | nil => cases hb
  | cons hcd _ ih =>
    cases d with
    | zero =>
      rw [List.getElem?_cons_zero, Option.some.injEq] at hb
      exact ⟨_, rfl, hb ▸ hcd⟩
    | succ d =>
      rw [List.getElem?_cons_succ] at hb ⊢
      exact ih hb

/-- A finished domain. -/
structure Finished (mod : ClockModule) (d : ℕ) (b : SyncBlockNode) (cd : ClockDomain) : Prop where

  header : cd.header = mod.header b

  nodup : cd.registerIds.Nodup

  mem : ∀ id, id ∈ cd.registerIds ↔
    mod.Writes b id ∨ FirstReset mod.headers d ∧ id ∈ mod.orphanIds

  statements : cd.statements =
    domainStatements ⟨mod.resetOf (mod.header b) cd.registerIds, b.body⟩

theorem buildClockDomains_get {d : ℕ} {b : SyncBlockNode} (hb : mod.blocks[d]? = some b) :
    ∃ cd, mod.buildClockDomains[d]? = some cd ∧ mod.Finished d b cd := by
  obtain ⟨hcollected, -⟩ := mod.collectDomains_spec mod.blocks 0 fun _ => none
  obtain ⟨cd, hget, hcd⟩ := collected_get hcollected hb
  have hadopted := adoptAll_get mod.orphanIds (mod.collectDomains mod.blocks 0 fun _ => none).1 d
  rw [hget, Option.map_some, headers_collected hcollected, ← headers] at hadopted
  have hbody : (mod.blocks.map SyncBlockNode.body)[d]? = some b.body := by
    rw [List.getElem?_map, hb, Option.map_some]
  have horphans : ∀ id ∈ mod.orphanIds, id ∉ cd.registerIds := by
    intro id hid hmem
    obtain ⟨sig, -, rfl, -, -, -, -, hnever⟩ := mem_orphanIds.mp hid
    exact hnever b (List.mem_of_getElem? hb) ((hcd.mem _).mp hmem)
  have hnodup : mod.orphanIds.Nodup :=
    List.Nodup.sublist (List.Sublist.map _ List.filter_sublist) mod.ids_nodup
  have hfound := mod.adopt_eq (mod.collectDomains mod.blocks 0 fun _ => none).2
    (mod.collectDomains mod.blocks 0 fun _ => none).1 ▸ hadopted
  refine ⟨_, List.getElem?_zipWith_eq_some.mpr ⟨_, b.body, hfound, hbody, rfl⟩, ?_⟩
  by_cases hfirst : FirstReset mod.headers d
  · rw [if_pos hfirst]
    refine ⟨hcd.header, ?_, fun id => ?_, ?_⟩
    · refine List.nodup_append.mpr ⟨hcd.nodup, hnodup, ?_⟩
      rintro a ha b' hb' rfl
      exact horphans a hb' ha
    · simp only [wrap, List.mem_append, hcd.mem, hfirst, true_and]
    · simp only [wrap, hcd.header]
  · rw [if_neg hfirst]
    refine ⟨hcd.header, hcd.nodup, fun id => ?_, ?_⟩
    · simp only [wrap, hcd.mem, hfirst, false_and, or_false]
    · simp only [wrap, hcd.header]

theorem length_buildClockDomains : mod.buildClockDomains.length = mod.blocks.length := by
  obtain ⟨hcollected, -⟩ := mod.collectDomains_spec mod.blocks 0 fun _ => none
  rw [buildClockDomains, List.length_zipWith, adopt_eq, length_adoptAll, ← hcollected.length_eq,
    List.length_map, Nat.min_self]

theorem findSignal_of_mem {sig : DeclaredSignal} (h : sig ∈ mod.signals) :
    mod.findSignal sig.id = some sig := by
  have hsome : (mod.signals.find? fun x => x.id == sig.id).isSome :=
    List.find?_isSome.mpr ⟨sig, h, beq_self_eq_true _⟩
  obtain ⟨x, hx⟩ := Option.isSome_iff_exists.mp hsome
  have hid : x.id = sig.id := by simpa using List.find?_some hx
  rw [findSignal, hx, List.inj_on_of_nodup_map mod.ids_nodup (List.mem_of_find?_eq_some hx) h hid]

theorem isRegister_of_mem {sig : DeclaredSignal} {init : RegInit} (h : sig ∈ mod.signals)
    (hkind : sig.kind = .register init) : mod.isRegister sig.id = true := by
  rw [isRegister, findSignal_of_mem h, Option.any_some, DeclaredSignal.isRegister, hkind]

theorem resetLoad_rhs {sig : DeclaredSignal} {init : RegInit} (h : sig ∈ mod.signals)
    (hkind : sig.kind = .register init) :
    (mod.resetLoad sig.id).rhs = resetLiteral (init.resetValue mod.env) := by
  obtain ⟨id, width, sourceLine, kind⟩ := sig
  dsimp only at hkind
  subst hkind
  rw [resetLoad]
  simp only [findSignal_of_mem h]

end ClockModule

/-! ## Declared reset values -/

/-- A literal at the width of its register. -/
def literalAt (w : ℕ) (lit : IRLiteral) : SimValue :=
  simValMask
    { (if lit.isZ then simValAllZ lit.width else simValFromWords lit.words lit.width) with
      width := w }

/-- The value a register of a width is declared to be reset to, if its initialiser has one. -/
def RegInit.declared (env : InitScope) (w : ℕ) : RegInit → Option SimValue
  | .literal text =>
    ((irDecodeSizedLiteral env.evalConst text).filter (0 < ·.width)).map (literalAt w)
  | .globalConst name => ((env.globalConst name).filter (0 < ·.width)).map (literalAt w)
  | .specialDriver vcc => some (if vcc then simValOnes w else simValZero w)
  | .absent => none

/-- The value a reset assignment stores in a register of a width. -/
def loadValue (lit : IRLiteral) (w : ℕ) : SimValue :=
  extendRhs .receive (evalLiteral lit lit.width) w

theorem loadValue_literal {lit : IRLiteral} (h : 0 < lit.width) (w : ℕ) :
    loadValue lit w = literalAt w lit := by
  rw [loadValue, evalLiteral, literalAt]
  generalize hv : (if lit.isZ then simValAllZ lit.width else simValFromWords lit.words lit.width)
    = v
  have hwidth : v.width = lit.width := by
    rw [← hv]
    split <;> rfl
  have hmasked : v.Masked := by
    rw [← hv]
    exact masked_ite (masked_simValAllZ _) (masked_simValMask _)
  dsimp only
  rw [if_neg (by omega), extendRhs]
  by_cases hw : v.width = w
  · subst hw
    exact (if_pos rfl).trans hmasked.symm
  · exact if_neg hw

theorem loadValue_empty (w : ℕ) : loadValue emptyLiteral w = simValZero w := by
  have hzero : ∀ n, maskWords n .zero = .zero := fun n => Words.ext_bit fun k => by
    rw [bit_maskWords, Words.bit_zero, Bool.and_false]
  have heval : evalLiteral emptyLiteral emptyLiteral.width = simValZero 1 := by decide +kernel
  rw [loadValue, heval, extendRhs]
  by_cases hw : (simValZero 1).width = w
  · subst hw
    rfl
  · refine (if_neg hw).trans ?_
    rw [simValMask, simValZero]
    simp only [hzero]
    rfl

theorem simValOnes_ne_zero {w : ℕ} (h : 0 < w) : simValOnes w ≠ simValZero w := by
  intro heq
  have hbit := congrArg (fun v : SimValue => v.val.bit 0) heq
  simp only [simValOnes, simValZero, bit_widthOnes (by decide : 0 < 256), Words.bit_zero,
    decide_eq_false_iff_not] at hbit
  exact hbit h

/-- Every declared value but that of VCC is the one the reset assignment stores. -/
theorem loadValue_declared {env : InitScope} {init : RegInit} {w : ℕ} {v : SimValue}
    (h : init.declared env w = some v) (hvcc : init ≠ .specialDriver true) :
    loadValue (init.resetValue env) w = v := by
  have hfiltered : ∀ {o : Option IRLiteral}, (o.filter (0 < ·.width)).map (literalAt w) = some v →
      loadValue (o.getD emptyLiteral) w = v := by
    intro o ho
    cases o with
    | none => cases ho
    | some lit =>
      by_cases hpos : 0 < lit.width
      · rw [Option.filter_some, if_pos (decide_eq_true hpos), Option.map_some,
          Option.some.injEq] at ho
        rw [Option.getD_some, loadValue_literal hpos, ho]
      · rw [Option.filter_some, if_neg (by simpa using hpos)] at ho
        cases ho
  cases init with
  | literal text => exact hfiltered h
  | globalConst name => exact hfiltered h
  | specialDriver vcc =>
    cases vcc with
    | true => exact absurd rfl hvcc
    | false =>
      rw [RegInit.resetValue, loadValue_empty]
      exact Option.some.inj h
  | absent => cases h

/-- An initialiser stored with a width has a declared value, and GND and VCC are not stored. -/
theorem declared_isSome_iff {env : InitScope} {init : RegInit} {w : ℕ} :
    (init.declared env w).isSome = true ↔
      0 < (init.resetValue env).width ∨ ∃ vcc, init = .specialDriver vcc := by
  have hfiltered : ∀ o : Option IRLiteral,
      ((o.filter (0 < ·.width)).map (literalAt w)).isSome = true ↔
        0 < (o.getD emptyLiteral).width := by
    intro o
    cases o with
    | none => simp [emptyLiteral]
    | some lit => by_cases hpos : 0 < lit.width <;> simp [Option.filter_some, hpos]
  cases init with
  | literal text => exact (hfiltered _).trans (by simp [RegInit.resetValue])
  | globalConst name => exact (hfiltered _).trans (by simp [RegInit.resetValue])
  | specialDriver vcc => simp [RegInit.declared]
  | absent => simp [RegInit.declared, RegInit.resetValue, emptyLiteral]

/-! ## Executing the loads -/

/-- Every entry of the signal table has the width of its signal. -/
def SignalWidths (m : IRModule) (s : CtxState) : Prop :=
  ∀ i sig, m.signals[i]? = some sig → (s.signals i).current.width = sig.width

theorem sigIndexFrom_isSome {sigs : List IRSignal} {sig : IRSignal} :
    ∀ {base : ℕ}, sig ∈ sigs → (sigIndexFrom sigs base sig.id).isSome = true := by
  induction sigs with
  | nil => intro base h; cases h
  | cons x rest ih =>
    intro base h
    rw [sigIndexFrom]
    cases hrec : sigIndexFrom rest (base + 1) sig.id with
    | some i => rfl
    | none =>
      rcases List.mem_cons.mp h with rfl | hmem
      · simp only [if_true, Option.isSome_some]
      · have hrest : (sigIndexFrom rest (base + 1) sig.id).isSome = true := ih hmem
        rw [hrec] at hrest
        cases hrest

section

variable {m : IRModule} {s : CtxState}

/-- An entry with a staged value. -/
def SimSignalEntry.staged (e : SimSignalEntry) (v : SimValue) : SimSignalEntry :=
  { e with next := v, hasPending := true }

theorem CtxState.raiseError_false (s : CtxState) : s.raiseError false = s := by
  rw [CtxState.raiseError, Bool.or_false]

theorem simExecStmt_assignments (isNba : Bool) : ∀ (assigns : List IRAssignment) (s : CtxState),
    simExecStmt m isNba (irMakeBlock (assigns.map .assignment)) s =
      assigns.foldl (applyAssign m isNba) s
  | [], s => by rw [List.map_nil, irMakeBlock, simExecStmt, List.foldl_nil]
  | a :: rest, s => by
      have hlist : ∀ (assigns : List IRAssignment) (s : CtxState),
          execStmts m isNba (assigns.map .assignment) s =
            assigns.foldl (applyAssign m isNba) s := by
        intro assigns
        induction assigns with
        | nil => intro s; rw [List.map_nil, execStmts, List.foldl_nil]
        | cons a rest ih => intro s; rw [List.map_cons, execStmts, simExecStmt, ih, List.foldl_cons]
      exact (simExecStmt.eq_def ..).trans (hlist (a :: rest) s)

/-- The loads of some registers stage one value for each and do nothing else. -/
structure StagesOnly (m : IRModule) (value : ℕ → ℕ → SimValue) (ids : List ℕ) (s t : CtxState) :
    Prop where

  loaded : ∀ id ∈ ids, ∀ i, m.sigIndex id = some i →
    t.signals i = (s.signals i).staged (value id (s.signals i).current.width)

  kept : ∀ i, (∀ id ∈ ids, m.sigIndex id ≠ some i) → t.signals i = s.signals i

  cells : t.cells = s.cells

  runtimeError : t.runtimeError = s.runtimeError

  settleDirty : t.settleDirty = s.settleDirty

  sigDirty : t.sigDirty = s.sigDirty

/-- One load: its literal does not depend on the state. -/
theorem applyAssign_literal {a : IRAssignment} {lit : IRLiteral} (hrhs : a.rhs =
    .literal lit lit.width) (hkind : a.kind = .receive) (hsliced : a.isSliced = false)
    (s : CtxState) : applyAssign m true s a = match m.sigIndex a.lhsSignalId with
      | none => s
      | some i => s.setEntry i ((s.signals i).staged
          (loadValue lit (s.signals i).current.width)) := by
  rw [applyAssign, hrhs, hkind]
  cases m.sigIndex a.lhsSignalId with
  | none => rfl
  | some i =>
    simp only [simEvalRaises, CtxState.raiseError_false, if_true, stageWrite, hsliced,
      Bool.false_eq_true, if_false, simEvalExpr]
    rfl

theorem loads_foldl {load : ℕ → IRAssignment} {lit : ℕ → IRLiteral} :
    ∀ (ids : List ℕ), (∀ id ∈ ids, (load id).lhsSignalId = id ∧
      (load id).rhs = .literal (lit id) (lit id).width ∧ (load id).kind = .receive ∧
      (load id).isSliced = false) → ∀ s : CtxState,
    StagesOnly m (fun id => loadValue (lit id)) ids s ((ids.map load).foldl (applyAssign m true) s)
  | [], _, s => ⟨fun id h => absurd h (List.not_mem_nil), fun _ _ => rfl, rfl, rfl, rfl, rfl⟩
  | id :: rest, h, s => by
      obtain ⟨⟨hid, hrhs, hkind, hsliced⟩, hrest⟩ := List.forall_mem_cons.mp h
      have hstep := applyAssign_literal (m := m) hrhs hkind hsliced s
      rw [hid] at hstep
      rw [List.map_cons, List.foldl_cons, hstep]
      cases hindex : m.sigIndex id with
      | none =>
        obtain ⟨hloaded, hkept, hcells, herror, hsettle, hdirty⟩ := loads_foldl rest hrest s
        refine ⟨?_, ?_, hcells, herror, hsettle, hdirty⟩
        · intro j hj i hi
          rcases List.mem_cons.mp hj with rfl | hmem
          · rw [hindex] at hi
            cases hi
          · exact hloaded j hmem i hi
        · intro i hi
          exact hkept i fun j hj => hi j (List.mem_cons_of_mem _ hj)
      | some k =>
        obtain ⟨hloaded, hkept, hcells, herror, hsettle, hdirty⟩ := loads_foldl rest hrest (s.setEntry k
          ((s.signals k).staged (loadValue (lit id) (s.signals k).current.width)))
        have hentry : ∀ i, (s.setEntry k ((s.signals k).staged
            (loadValue (lit id) (s.signals k).current.width))).signals i =
            if i = k then (s.signals k).staged (loadValue (lit id) (s.signals k).current.width)
            else s.signals i := fun _ => rfl
        refine ⟨?_, ?_, hcells, herror, hsettle, hdirty⟩
        · intro j hj i hi
          by_cases hmem : j ∈ rest
          · rw [hloaded j hmem i hi, hentry]
            by_cases hik : i = k
            · subst hik
              rw [if_pos rfl]
              rfl
            · rw [if_neg hik]
          · obtain rfl : j = id := (List.mem_cons.mp hj).resolve_right hmem
            obtain rfl : k = i := Option.some.inj (hindex.symm.trans hi)
            rw [hkept k fun j' hj' hj'i => hmem (m.sigIndex_inj hi hj'i ▸ hj'), hentry, if_pos rfl]
        · intro i hi
          have hne : i ≠ k := by
            rintro rfl
            exact hi id (List.mem_cons_self ..) hindex
          rw [hkept i fun j hj => hi j (List.mem_cons_of_mem _ hj), hentry, if_neg hne]

end

/-! ## The reset of a header -/

/-- The level at which a reset is active. -/
def IRResetPolarity.level : IRResetPolarity → Bool
  | .activeHigh => true
  | .activeLow => false

/-- The level of a signal, when it is known. -/
def signalLevel (m : IRModule) (s : CtxState) (id : ℕ) : Option Bool :=
  (m.sigIndex id).bind fun i => simValIsTrue (s.signals i).current

/-- The reset of a header is known to be active, or known not to be. -/
def SyncHeader.ResetIs (h : SyncHeader) (m : IRModule) (s : CtxState) (active : Bool) : Prop :=
  ∃ id, h.resetSignalId = some id ∧
    signalLevel m s id = some (if active then h.resetActive.level else !h.resetActive.level)

section

variable {m : IRModule} {s : CtxState} {r : SyncReset} {body : SyncStmts}

theorem resetCondition_isTrue {level : Bool} (h : signalLevel m s r.signal = some level) :
    simValIsTrue (simEvalExpr m s (resetCondition r)) = some (level == r.active.level) := by
  obtain ⟨i, hi, hlevel⟩ := Option.bind_eq_some_iff.mp h
  have hsignal : ∀ w, evalSignal m s r.signal w = (s.signals i).current := by
    intro w
    rw [evalSignal, hi]
  rw [resetCondition]
  cases hactive : r.active with
  | activeHigh =>
    simp only [simEvalExpr, hsignal, hlevel, IRResetPolarity.level, beq_true]
  | activeLow =>
    simp only [simEvalExpr, evalUnary, hsignal, simValLogicalNot, hlevel, simValIsTrue_cmpResult,
      IRResetPolarity.level, beq_false]

theorem afterEval_resetCondition : afterEval m s (resetCondition r) = s := by
  have hraises : simEvalRaises m s (resetCondition r) = false := by
    rw [resetCondition]
    cases r.active with
    | activeHigh => rw [simEvalRaises]
    | activeLow => rw [simEvalRaises, simEvalRaises]
  rw [afterEval, hraises, CtxState.raiseError_false]

/-- While the reset is active a domain only loads its registers. -/
theorem exec_resetActive (h : signalLevel m s r.signal = some r.active.level) :
    simExecStmt m true (domainStatements ⟨some r, body⟩) s =
      r.loads.foldl (applyAssign m true) s := by
  have hcond := resetCondition_isTrue h
  rw [beq_self_eq_true] at hcond
  simp only [domainStatements, simExecStmt, hcond, afterEval_resetCondition]
  exact simExecStmt_assignments true r.loads s

theorem exec_resetInactive (h : signalLevel m s r.signal = some (!r.active.level)) :
    simExecStmt m true (domainStatements ⟨some r, body⟩) s =
      simExecStmt m true (irBuildBlock body) s := by
  have hcond := resetCondition_isTrue h
  have hne : ((!r.active.level) == r.active.level) = false := by cases r.active.level <;> rfl
  rw [hne] at hcond
  simp only [domainStatements, simExecStmt, hcond, afterEval_resetCondition, execElifChain]

end

/-! ## Coverage -/

theorem exists_firstReset : ∀ {headers : List SyncHeader},
    (∃ h ∈ headers, h.resetSignalId.isSome = true) → ∃ d, FirstReset headers d
  | [], hex => by
      obtain ⟨h, hmem, -⟩ := hex
      cases hmem
  | x :: rest, hex => by
      cases hx : x.resetSignalId with
      | some id =>
        refine ⟨0, ⟨x, rfl, ?_⟩, nofun⟩
        rw [hx]
        rfl
      | none =>
        obtain ⟨h, hmem, hsome⟩ := hex
        rcases List.mem_cons.mp hmem with rfl | hrest
        · rw [hx] at hsome
          cases hsome
        · obtain ⟨d, hd⟩ := exists_firstReset ⟨h, hrest, hsome⟩
          exact ⟨d + 1, (firstReset_cons hx d).mpr hd⟩

namespace ClockModule

variable (mod : ClockModule) (m : IRModule) (s : CtxState)

/-- The registers a domain ought to reset: those its block writes and, in the first domain with a
reset, the declared ones with a reset value that no block writes. -/
def Covered (d : ℕ) (b : SyncBlockNode) (id : ℕ) : Prop :=
  mod.Writes b id ∨ FirstReset mod.headers d ∧ ∃ sig ∈ mod.signals, sig.id = id ∧
    ∃ init, sig.kind = .register init ∧ 0 < sig.sourceLine ∧ mod.NeverWritten sig.id ∧
      (init.declared mod.env sig.width).isSome = true

/-- Each of some registers is staged with its declared reset value, and nothing else happens. -/
structure Resets (ids : List ℕ) (t : CtxState) : Prop where

  staged : ∀ sig ∈ mod.signals, sig.id ∈ ids → ∀ init, sig.kind = .register init →
    ∀ v, init.declared mod.env sig.width = some v → ∀ i, m.sigIndex sig.id = some i →
      t.signals i = (s.signals i).staged v

  kept : ∀ i, (∀ id ∈ ids, m.sigIndex id ≠ some i) → t.signals i = s.signals i

  cells : t.cells = s.cells

  runtimeError : t.runtimeError = s.runtimeError

  settleDirty : t.settleDirty = s.settleDirty

  sigDirty : t.sigDirty = s.sigDirty

/-- The domain of a block in a state. -/
structure DomainResets (d : ℕ) (b : SyncBlockNode) (cd : ClockDomain) : Prop where

  nodup : cd.registerIds.Nodup

  covered : ∀ id, id ∈ cd.registerIds ↔ mod.Covered d b id

  noReset : (mod.header b).resetSignalId = none → cd.statements = irBuildBlock b.body

  active : (mod.header b).ResetIs m s true →
    mod.Resets m s cd.registerIds (simExecStmt m true cd.statements s)

  inactive : (mod.header b).ResetIs m s false →
    simExecStmt m true cd.statements s = simExecStmt m true (irBuildBlock b.body) s

/-- There is one domain for each block, and it resets what it ought to. -/
structure ResetCovers : Prop where

  length : mod.buildClockDomains.length = mod.blocks.length

  domain : ∀ d b, mod.blocks[d]? = some b →
    ∃ cd, mod.buildClockDomains[d]? = some cd ∧ mod.DomainResets m s d b cd

/-- No domain with an active reset writes a register reset to VCC, and every declared register
reset to GND or VCC is written when some domain has a reset. -/
structure DriversWritten : Prop where

  vcc : ∀ b ∈ mod.blocks, (mod.header b).ResetIs m s true → ∀ sig ∈ mod.signals,
    sig.kind = .register (.specialDriver true) → ¬mod.Writes b sig.id

  orphan : (∃ b ∈ mod.blocks, (mod.header b).resetSignalId.isSome = true) →
    ∀ sig ∈ mod.signals, ∀ vcc, sig.kind = .register (.specialDriver vcc) → 0 < sig.sourceLine →
      ¬mod.NeverWritten sig.id

variable {mod m s}

theorem sigIndex_of_signal (hm : m.signals = mod.irSignals) {sig : DeclaredSignal}
    (h : sig ∈ mod.signals) : ∃ i, m.sigIndex sig.id = some i ∧
      m.signals[i]? = some (irBuildSignal mod.env sig) := by
  have hid : ∀ x : DeclaredSignal, (irBuildSignal mod.env x).id = x.id := by
    intro x
    rw [irBuildSignal]
    split <;> rfl
  have hmem : irBuildSignal mod.env sig ∈ m.signals := by
    rw [hm]
    exact List.mem_map_of_mem h
  have hsome : (sigIndexFrom m.signals 0 (irBuildSignal mod.env sig).id).isSome = true :=
    sigIndexFrom_isSome hmem
  rw [hid] at hsome
  obtain ⟨i, hi⟩ := Option.isSome_iff_exists.mp hsome
  obtain ⟨x, hget, hx⟩ := IRModule.sigIndex_spec (m := m) hi
  have hxmem : x ∈ mod.irSignals := hm ▸ List.mem_of_getElem? hget
  obtain ⟨y, hy, rfl⟩ := List.mem_map.mp hxmem
  rw [hid] at hx
  rw [List.inj_on_of_nodup_map mod.ids_nodup hy h hx] at hget
  exact ⟨i, hi, hget⟩

theorem width_of_signal (hm : m.signals = mod.irSignals) (hs : SignalWidths m s)
    {sig : DeclaredSignal} (h : sig ∈ mod.signals) {i : ℕ} (hi : m.sigIndex sig.id = some i) :
    (s.signals i).current.width = sig.width := by
  obtain ⟨j, hj, hget⟩ := sigIndex_of_signal hm h
  obtain rfl : j = i := Option.some.inj (hj.symm.trans hi)
  rw [hs j _ hget, irBuildSignal]
  split <;> rfl

/-- The reset value that a register is declared with. -/
def storedReset (mod : ClockModule) (id : ℕ) : IRLiteral :=
  match mod.findSignal id with
  | some ⟨_, _, _, .register init⟩ => init.resetValue mod.env
  | _ => emptyLiteral

theorem storedReset_of_mem {sig : DeclaredSignal} (hsig : sig ∈ mod.signals) {init : RegInit}
    (hkind : sig.kind = .register init) : mod.storedReset sig.id = init.resetValue mod.env := by
  obtain ⟨id, width, sourceLine, kind⟩ := sig
  dsimp only at hkind
  subst hkind
  simp only [storedReset, findSignal_of_mem hsig]

/-- The loads of a domain stage the stored reset values. -/
theorem loads_resetLoad {ids : List ℕ} (hids : ∀ id ∈ ids, mod.isRegister id = true) :
    ∃ lit : ℕ → IRLiteral, (∀ sig ∈ mod.signals, ∀ init, sig.kind = .register init →
        lit sig.id = init.resetValue mod.env) ∧
      StagesOnly m (fun id => loadValue (lit id)) ids s
        ((ids.map mod.resetLoad).foldl (applyAssign m true) s) := by
  refine ⟨mod.storedReset, fun sig hsig init hkind => storedReset_of_mem hsig hkind,
    loads_foldl ids (fun id hid => ⟨rfl, ?_, rfl, rfl⟩) s⟩
  have hreg := hids id hid
  rw [isRegister] at hreg
  cases hfind : mod.findSignal id with
  | none =>
    rw [hfind] at hreg
    cases hreg
  | some sig =>
    rw [hfind, Option.any_some] at hreg
    have hmem := List.mem_of_find?_eq_some hfind
    obtain rfl : sig.id = id := by simpa using List.find?_some hfind
    cases hkind : sig.kind with
    | register init => rw [resetLoad_rhs hmem hkind, resetLiteral, storedReset_of_mem hmem hkind]
    | other kind =>
      rw [DeclaredSignal.isRegister, hkind] at hreg
      cases hreg

theorem Finished.isRegister {d : ℕ} {b : SyncBlockNode} {cd : ClockDomain}
    (h : mod.Finished d b cd) : ∀ id ∈ cd.registerIds, mod.isRegister id = true := by
  intro id hid
  rcases (h.mem id).mp hid with hwrites | ⟨-, horphan⟩
  · exact hwrites.2
  · obtain ⟨sig, hsig, rfl, init, hkind, -⟩ := mem_orphanIds.mp horphan
    exact isRegister_of_mem hsig hkind

/-- The statements of a domain while its reset is active. -/
theorem Finished.exec_active {d : ℕ} {b : SyncBlockNode} {cd : ClockDomain}
    (h : mod.Finished d b cd) (hactive : (mod.header b).ResetIs m s true) :
    simExecStmt m true cd.statements s =
      (cd.registerIds.map mod.resetLoad).foldl (applyAssign m true) s := by
  obtain ⟨id, hid, hlevel⟩ := hactive
  rw [h.statements, resetOf, hid, Option.map_some]
  exact exec_resetActive hlevel

theorem Finished.exec_inactive {d : ℕ} {b : SyncBlockNode} {cd : ClockDomain}
    (h : mod.Finished d b cd) (hinactive : (mod.header b).ResetIs m s false) :
    simExecStmt m true cd.statements s = simExecStmt m true (irBuildBlock b.body) s := by
  obtain ⟨id, hid, hlevel⟩ := hinactive
  rw [h.statements, resetOf, hid, Option.map_some]
  exact exec_resetInactive hlevel

theorem Finished.noReset {d : ℕ} {b : SyncBlockNode} {cd : ClockDomain}
    (h : mod.Finished d b cd) (hnone : (mod.header b).resetSignalId = none) :
    cd.statements = irBuildBlock b.body := by
  rw [h.statements, resetOf, hnone, Option.map_none, domainStatements]

/-- A domain resets its registers as declared unless one of them is reset to VCC. -/
theorem Finished.resets_iff (hm : m.signals = mod.irSignals) (hs : SignalWidths m s) {d : ℕ}
    {b : SyncBlockNode} {cd : ClockDomain} (h : mod.Finished d b cd)
    (hactive : (mod.header b).ResetIs m s true) :
    mod.Resets m s cd.registerIds (simExecStmt m true cd.statements s) ↔
      ∀ sig ∈ mod.signals, sig.kind = .register (.specialDriver true) → sig.id ∉ cd.registerIds := by
  obtain ⟨lit, hlit, hloads⟩ := loads_resetLoad (m := m) (s := s) h.isRegister
  rw [h.exec_active hactive]
  constructor
  · intro hresets sig hsig hkind hid
    obtain ⟨i, hi, -⟩ := sigIndex_of_signal hm hsig
    have hdeclared := hresets.staged sig hsig hid _ hkind _ rfl i hi
    have hloaded := hloads.loaded sig.id hid i hi
    rw [hlit sig hsig _ hkind, RegInit.resetValue, loadValue_empty,
      width_of_signal hm hs hsig hi] at hloaded
    have hnext := congrArg SimSignalEntry.next (hdeclared.symm.trans hloaded)
    exact simValOnes_ne_zero (mod.width_pos sig hsig) hnext
  · intro hvcc
    refine ⟨?_, hloads.kept, hloads.cells, hloads.runtimeError, hloads.settleDirty,
      hloads.sigDirty⟩
    intro sig hsig hid init hkind v hv i hi
    have hne : init ≠ .specialDriver true := by
      rintro rfl
      exact hvcc sig hsig hkind hid
    have hloaded := hloads.loaded sig.id hid i hi
    rw [hlit sig hsig init hkind, width_of_signal hm hs hsig hi,
      loadValue_declared hv hne] at hloaded
    exact hloaded

/-- The adopted registers are the ones that ought to be, unless an initialiser is GND or VCC. -/
theorem covered_iff {d : ℕ} {b : SyncBlockNode} {id : ℕ}
    (hdriver : ∀ sig ∈ mod.signals, ∀ vcc, sig.kind = .register (.specialDriver vcc) →
      0 < sig.sourceLine → FirstReset mod.headers d → ¬mod.NeverWritten sig.id) :
    mod.Covered d b id ↔
      mod.Writes b id ∨ FirstReset mod.headers d ∧ id ∈ mod.orphanIds := by
  rw [Covered, mem_orphanIds]
  refine or_congr_right (and_congr_right fun hfirst => ?_)
  constructor
  · rintro ⟨sig, hsig, hid, init, hkind, hline, hnever, hsome⟩
    refine ⟨sig, hsig, hid, init, hkind, ?_, hline, hnever⟩
    rcases declared_isSome_iff.mp hsome with hwidth | ⟨vcc, rfl⟩
    · exact hwidth
    · exact absurd hnever (hdriver sig hsig vcc hkind hline hfirst)
  · rintro ⟨sig, hsig, hid, init, hkind, hwidth, hline, hnever⟩
    exact ⟨sig, hsig, hid, init, hkind, hline, hnever, declared_isSome_iff.mpr (.inl hwidth)⟩

theorem firstReset_block {d : ℕ} (h : FirstReset mod.headers d) :
    ∃ b, mod.blocks[d]? = some b ∧ (mod.header b).resetSignalId.isSome = true := by
  obtain ⟨⟨x, hx, hsome⟩, -⟩ := h
  rw [headers, List.getElem?_map] at hx
  obtain ⟨b, hb, rfl⟩ := Option.map_eq_some_iff.mp hx
  exact ⟨b, hb, hsome⟩

/-- Every domain covers and resets exactly its registers if and only if no register reset to VCC
is written under an active reset and none reset to GND or VCC is left unwritten. -/
theorem resetCovers_iff (hm : m.signals = mod.irSignals) (hs : SignalWidths m s) :
    mod.ResetCovers m s ↔ mod.DriversWritten m s := by
  constructor
  · intro hcovers
    constructor
    · intro b hb hactive sig hsig hkind hwrites
      obtain ⟨d, hd⟩ := List.mem_iff_getElem?.mp hb
      obtain ⟨cd, hget, hdomain⟩ := hcovers.domain d b hd
      obtain ⟨cd', hget', hfinished⟩ := buildClockDomains_get hd
      obtain rfl : cd' = cd := Option.some.inj (hget'.symm.trans hget)
      exact (hfinished.resets_iff hm hs hactive).mp (hdomain.active hactive) sig hsig hkind
        ((hdomain.covered _).mpr (.inl hwrites))
    · rintro ⟨b₀, hb₀, hsome₀⟩ sig hsig vcc hkind hline hnever
      obtain ⟨d, hfirst⟩ := exists_firstReset
        ⟨mod.header b₀, (List.mem_map_of_mem hb₀ : _ ∈ mod.headers), hsome₀⟩
      obtain ⟨b, hb, -⟩ := firstReset_block hfirst
      obtain ⟨cd, hget, hdomain⟩ := hcovers.domain d b hb
      obtain ⟨cd', hget', hfinished⟩ := buildClockDomains_get hb
      obtain rfl : cd' = cd := Option.some.inj (hget'.symm.trans hget)
      have hcovered : mod.Covered d b sig.id :=
        .inr ⟨hfirst, sig, hsig, rfl, _, hkind, hline, hnever, rfl⟩
      rcases (hfinished.mem _).mp ((hdomain.covered _).mpr hcovered) with hwrites | ⟨-, horphan⟩
      · exact hnever b (List.mem_of_getElem? hb) hwrites
      · obtain ⟨sig', hsig', hid, init, hkind', hwidth, -⟩ := mem_orphanIds.mp horphan
        obtain rfl := List.inj_on_of_nodup_map mod.ids_nodup hsig' hsig hid
        rw [hkind, DeclaredKind.register.injEq] at hkind'
        subst hkind'
        exact absurd hwidth (Nat.lt_irrefl 0)
  · intro hwritten
    refine ⟨length_buildClockDomains, fun d b hb => ?_⟩
    obtain ⟨cd, hget, hfinished⟩ := buildClockDomains_get hb
    refine ⟨cd, hget, hfinished.nodup, fun id => ?_, hfinished.noReset, fun hactive => ?_,
      hfinished.exec_inactive⟩
    · rw [hfinished.mem, covered_iff]
      intro sig hsig vcc hkind hline hfirst
      obtain ⟨b', hb', hsome⟩ := firstReset_block hfirst
      exact hwritten.orphan ⟨b', List.mem_of_getElem? hb', hsome⟩ sig hsig vcc hkind hline
    · rw [hfinished.resets_iff hm hs hactive]
      intro sig hsig hkind hid
      rcases (hfinished.mem _).mp hid with hwrites | ⟨-, horphan⟩
      · exact hwritten.vcc b (List.mem_of_getElem? hb) hactive sig hsig hkind hwrites
      · -- a register that GND or VCC resets is never adopted
        obtain ⟨sig', hsig', hid', init, hkind', hwidth, -⟩ := mem_orphanIds.mp horphan
        obtain rfl := List.inj_on_of_nodup_map mod.ids_nodup hsig' hsig hid'
        rw [hkind, DeclaredKind.register.injEq] at hkind'
        subst hkind'
        exact Nat.lt_irrefl 0 hwidth

end ClockModule

namespace ResetExample

/-- A register of eight bits that a block with an active-high reset assigns. -/
def block : SyncBlockNode :=
  { params := [⟨"CLK", .identifier "clk"⟩, ⟨"RESET", .identifier "rst"⟩,
      ⟨"RESET_ACTIVE", .identifier "High"⟩]
    body := .cons (.assign [⟨1, .signalRef 1 8, .receive, false, 0, 0⟩]) .nil }

def module (init : RegInit) : ClockModule where
  env := ⟨fun _ => none, fun _ => none⟩
  lookup name := if name = "rst" then some ⟨.port, some 0⟩ else none
  signals := [⟨0, 1, 2, .other (.port .portIn)⟩, ⟨1, 8, 3, .register init⟩]
  blocks := [block]
  ids_nodup := (by decide : [0, 1].Nodup)
  width_pos := by
    intro sig hsig
    rcases List.mem_cons.mp hsig with rfl | hsig
    · exact Nat.one_pos
    · obtain rfl := List.mem_singleton.mp hsig
      exact (by decide : 0 < 8)

def irModule (init : RegInit) : IRModule :=
  { signals := (module init).irSignals, memories := [], clockDomains := [], asyncBlock := .null }

/-- The reset is active and the register holds 0. -/
def state : CtxState :=
  { signals := fun i => if i = 0 then ⟨simValOnes 1, simValOnes 1, false⟩
      else ⟨simValZero 8, simValZero 8, false⟩
    cells := fun _ _ => simValZero 1
    runtimeError := false
    settleDirty := false
    sigDirty := fun _ => false }

theorem widths (init : RegInit) : SignalWidths (irModule init) state := by
  intro i sig h
  match i, h with
  | 0, h =>
    obtain rfl := Option.some.inj h
    rfl
  | 1, h =>
    obtain rfl := Option.some.inj h
    rfl

theorem active (init : RegInit) :
    ((module init).header block).ResetIs (irModule init) state true := by
  have hlevel : simValIsTrue (simValOnes 1) = some true := by decide +kernel
  exact ⟨0, rfl, hlevel⟩

theorem writes (init : RegInit) : (module init).Writes block 1 := ⟨by decide, rfl⟩

end ResetExample

open ResetExample in
/-- A register that GND resets. -/
theorem ClockModule.resetCovers_gnd : (module (.specialDriver false)).ResetCovers
    (irModule (.specialDriver false)) state := by
  refine (ClockModule.resetCovers_iff rfl (widths _)).mpr ⟨?_, ?_⟩
  · intro b _ _ sig hsig hkind
    rcases List.mem_cons.mp hsig with rfl | hsig
    · cases hkind
    · obtain rfl := List.mem_singleton.mp hsig
      cases hkind
  · intro _ sig hsig vcc hkind _ hnever
    rcases List.mem_cons.mp hsig with rfl | hsig
    · cases hkind
    · obtain rfl := List.mem_singleton.mp hsig
      exact hnever block (List.mem_cons_self ..) (writes _)

open ResetExample in
/-- A register that VCC ought to reset is loaded with 0. -/
theorem ClockModule.vcc_not_reset : ¬(module (.specialDriver true)).ResetCovers
    (irModule (.specialDriver true)) state := by
  intro hcovers
  obtain ⟨cd, hget, hdomain⟩ := hcovers.domain 0 block rfl
  have hblock : (module (.specialDriver true)).blocks[0]? = some block := rfl
  obtain ⟨cd', hget', hfinished⟩ := buildClockDomains_get hblock
  obtain rfl : cd' = cd := Option.some.inj (hget'.symm.trans hget)
  exact (hfinished.resets_iff rfl (widths _) (active _)).mp (hdomain.active (active _))
    ⟨1, 8, 3, .register (.specialDriver true)⟩ (by simp [module]) rfl
    ((hdomain.covered 1).mpr (.inl (writes _)))

end JzHdl

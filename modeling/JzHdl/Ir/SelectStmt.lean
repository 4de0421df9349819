import JzHdl.Ir.Literal
import JzHdl.Parser.Select
import JzHdl.Sim.Exec

/-! # SELECT from source text to execution

The lowering of a parsed SELECT statement, the arm that the simulator executes
and the arm that the language selects. The two differ on naked labels, on a
DEFAULT that is not last and on `x` digits.
-/

namespace JzHdl

/-- An expression node: a sized literal, in place or as the text of a constant, or another one. -/
inductive AstExpr (α : Type*) where

  | literal (text : List Char)

  | other (e : α)

/-- What the lowering takes from its surroundings. A null statement stands for no block. -/
structure BuildEnv (α σ : Type*) where

  evalConst : List Char → Option ℕ

  inferredWidth : List Char → ℕ

  buildOther : α → Option IRExpr

  buildBlock : List σ → IRStmt

  buildBlock_nil : buildBlock [] = .null

section

variable {α σ τ : Type*} (env : BuildEnv α σ)

/-! ## Lowering -/

def irBuildExpr : AstExpr α → Option IRExpr
  | .literal text => some (irBuildLiteral env.evalConst (env.inferredWidth text) text)
  | .other e => env.buildOther e

/-- The body of an arm. Statements that lower to nothing leave an empty block. -/
def irBuildCaseBody (body : List σ) : IRStmt :=
  if (env.buildBlock body).isNull ∧ body ≠ [] then .block [] else env.buildBlock body

/-- A CASE whose label does not lower is dropped; a DEFAULT has a null value. -/
def irBuildCase : AstArm (AstExpr α) σ → Option (IRExpr × IRStmt)
  | .caseArm value body => (irBuildExpr env value).map fun v => (v, irBuildCaseBody env body)
  | .defaultArm body => some (.null, irBuildCaseBody env body)

def irBuildSelectStmt (ast : AstSelect (AstExpr α) σ) : Option IRStmt :=
  (irBuildExpr env ast.selector).map fun selector =>
    .select selector (ast.arms.filterMap (irBuildCase env))

/-! ## Execution -/

/-- Whether the scan of a SELECT stops at a case. -/
def caseStops (m : IRModule) (s : CtxState) (v : SimValue) (c : IRExpr × IRStmt) : Bool :=
  c.1.isNull || decide (simValIsTrue (simValEq v (simEvalExpr m s c.1)) = some true)

/-- The position of the case whose body a SELECT executes; a null body is no body. -/
def executedArm (m : IRModule) (s : CtxState) : IRStmt → Option ℕ
  | .select selector cases =>
    if simValHasXz (simEvalExpr m s selector) then none
    else (cases.findIdx? (caseStops m s (simEvalExpr m s selector))).filter fun i =>
      !((cases[i]?).map (·.2.isNull)).getD true
  | _ => none

/-! ## The language -/

/-- A SELECT whose labels are sized literals. -/
structure LabelledSelect (α σ : Type*) where

  selector : AstExpr α

  arms : List (SourceArm (List Char) σ × ℕ)

  oneDefault : (arms.filter fun a => a.1.isDefault).length ≤ 1

namespace SourceArm

def mapValue {ε δ : Type*} (f : ε → δ) : SourceArm ε σ → SourceArm δ σ
  | .caseArm value body => .caseArm (f value) body
  | .defaultArm body => .defaultArm body

variable (a : SourceArm (List Char) σ) (v : SimValue)

def statements : SourceArm (List Char) σ → List σ
  | .caseArm _ body => body.getD []
  | .defaultArm body => body

def hasBraces : SourceArm (List Char) σ → Bool
  | .caseArm _ body => body.isSome
  | .defaultArm _ => true

/-- A CASE whose pattern equals the selector on every bit that is not `x`. -/
def matchesSelector : SourceArm (List Char) σ → SimValue → Bool
  | .caseArm text _, v => decide (PatternMatches text v)
  | .defaultArm _, _ => false

/-- A DEFAULT, or a CASE whose literal the simulator finds equal to the selector. -/
def stops : SourceArm (List Char) σ → SimValue → Bool
  | .caseArm text _, v => decide (LiteralEquals env.evalConst (env.inferredWidth text) text v)
  | .defaultArm _, _ => true

end SourceArm

/-- The arm that owns the body of an arm: the first one with braces from there on. -/
def bodyOwner (arms : List (SourceArm (List Char) σ)) (i : ℕ) : Option ℕ :=
  ((arms.drop i).findIdx? SourceArm.hasBraces).map (i + ·)

def armStatements (arms : List (SourceArm (List Char) σ)) (i : ℕ) : List σ :=
  ((arms[i]?).map SourceArm.statements).getD []

/-- The arm whose statements the language executes, if there are any: the owner of the first CASE
that matches, else DEFAULT. -/
def languageArm (arms : List (SourceArm (List Char) σ)) (v : SimValue) : Option ℕ :=
  let owner := match arms.findIdx? (SourceArm.matchesSelector · v) with
    | some i => bodyOwner arms i
    | none => arms.findIdx? SourceArm.isDefault
  owner.filter fun j => !(armStatements arms j).isEmpty

/-- The simulator stops at an arm when its scan gets there. -/
def Stops (arms : List (SourceArm (List Char) σ)) (v : SimValue) (k : ℕ) : Prop :=
  ∃ a, arms[k]? = some a ∧ a.stops env v = true

/-- The arm whose statements the language executes is the first at which the simulator stops. When
the language executes nothing, the simulator stops nowhere or at an arm without statements. -/
def SelectOk (arms : List (SourceArm (List Char) σ)) (v : SimValue) : Prop :=
  match languageArm arms v with
  | some j => Stops env arms v j ∧ ∀ k < j, ¬ Stops env arms v k
  | none => ∀ k, Stops env arms v k → (∀ l < k, ¬ Stops env arms v l) → armStatements arms k = []

namespace LabelledSelect

/-- The statement as the parser reads it. -/
def source (src : LabelledSelect α σ) : SourceSelect (AstExpr α) σ where
  selector := src.selector
  arms := src.arms.map fun a => (a.1.mapValue .literal, a.2)
  oneDefault := by
    have hdef : ∀ a : SourceArm (List Char) σ × ℕ,
        (a.1.mapValue (AstExpr.literal (α := α))).isDefault = a.1.isDefault := by
      rintro ⟨_ | _, _⟩ <;> rfl
    rw [List.filter_map, List.length_map]
    simpa only [Function.comp_def, hdef] using src.oneDefault

def labels (src : LabelledSelect α σ) : List (SourceArm (List Char) σ) := src.arms.map Prod.fst

end LabelledSelect

/-- Parsed, lowered and executed, the statement runs exactly the arm that the language selects:
the state is the one after the statements of that arm, or after none. -/
def SelectExact (parseExpression : TokenParser τ (AstExpr α))
    (parseStatementList : TokenParser τ (List σ)) (expr : AstExpr α → List (SelectToken τ))
    (stmts : List σ → List (SelectToken τ)) (src : LabelledSelect α σ) (m : IRModule)
    (isNba : Bool) (s : CtxState) : Prop :=
  ∃ ast selector stmt, parseSelectStmt parseExpression parseStatementList
      (src.source.render expr stmts) = some (ast, []) ∧
    irBuildExpr env src.selector = some selector ∧ irBuildSelectStmt env ast = some stmt ∧
    let arm := languageArm src.labels (simEvalExpr m s selector)
    executedArm m s stmt = arm ∧
      simExecStmt m isNba stmt s = match arm with
        | some j => simExecStmt m isNba (irBuildCaseBody env (armStatements src.labels j))
            (afterEval m s selector)
        | none => afterEval m s selector

end

section

variable {α σ τ : Type*} {env : BuildEnv α σ} {m : IRModule} {s t : CtxState} {v : SimValue}

/-- The case that an arm with a literal label is lowered to. -/
def caseOf (env : BuildEnv α σ) : SourceArm (List Char) σ → IRExpr × IRStmt
  | .caseArm text body => (irBuildLiteral env.evalConst (env.inferredWidth text) text,
      irBuildCaseBody env (body.getD []))
  | .defaultArm body => (.null, irBuildCaseBody env body)

theorem caseOf_snd (a : SourceArm (List Char) σ) :
    (caseOf env a).2 = irBuildCaseBody env a.statements := by cases a <;> rfl

theorem irBuildCase_source (src : LabelledSelect α σ) :
    src.source.ast.arms.filterMap (irBuildCase env) = src.labels.map (caseOf env) := by
  simp only [SourceSelect.ast, LabelledSelect.source, LabelledSelect.labels, List.map_map,
    List.filterMap_map]
  rw [← List.filterMap_eq_map]
  refine List.filterMap_congr fun a _ => ?_
  rcases a with ⟨_ | _, _⟩ <;> rfl

theorem irBuildCaseBody_isNull (body : List σ) :
    (irBuildCaseBody env body).isNull = true ↔ body = [] := by
  rw [irBuildCaseBody]
  by_cases hb : body = []
  · subst hb
    simp [env.buildBlock_nil, IRStmt.isNull]
  · by_cases hn : (env.buildBlock body).isNull = true
    · rw [if_pos ⟨hn, hb⟩]
      simp [IRStmt.isNull, hb]
    · rw [if_neg fun h => hn h.1]
      simp [hn, hb]

theorem isNull_irBuildLiteral (evalConst : List Char → Option ℕ) (w : ℕ) (text : List Char) :
    (irBuildLiteral evalConst w text).isNull = false := by
  rw [irBuildLiteral]
  split <;> rfl

theorem caseStops_caseOf (a : SourceArm (List Char) σ) :
    caseStops m s v (caseOf env a) = a.stops env v := by
  cases a with
  | defaultArm body => rfl
  | caseArm text body =>
    rw [caseStops, caseOf, SourceArm.stops]
    simp only [isNull_irBuildLiteral, Bool.false_or, simEvalExpr_irBuildLiteral]
    rfl

theorem afterEval_irBuildLiteral (evalConst : List Char → Option ℕ) (w : ℕ) (text : List Char) :
    afterEval m s (irBuildLiteral evalConst w text) = s := by
  have hraise : simEvalRaises m s (irBuildLiteral evalConst w text) = false := by
    rw [irBuildLiteral]
    split <;> rfl
  simp only [afterEval, hraise, CtxState.raiseError, Bool.or_false]

/-- The scan of the lowered cases executes the body of the first arm that stops it. -/
theorem execCases_caseOf (isNba : Bool) : ∀ arms : List (SourceArm (List Char) σ),
    execCases m isNba v (arms.map (caseOf env)) t =
      match arms.findIdx? (SourceArm.stops env · v) with
      | some j => simExecStmt m isNba (irBuildCaseBody env (armStatements arms j)) t
      | none => t
  | [] => rfl
  | .defaultArm body :: rest => by
      rw [List.map_cons, List.findIdx?_cons]
      rfl
  | .caseArm text body :: rest => by
      have ih := execCases_caseOf isNba rest
      rw [List.map_cons, List.findIdx?_cons, caseOf, execCases, isNull_irBuildLiteral,
        if_neg Bool.false_ne_true, simEvalExpr_irBuildLiteral, afterEval_irBuildLiteral]
      by_cases hs : LiteralEquals env.evalConst (env.inferredWidth text) text v
      · have hstop : SourceArm.stops env (.caseArm text body : SourceArm (List Char) σ) v = true :=
          decide_eq_true hs
        rw [LiteralEquals] at hs
        rw [if_pos hs, if_pos hstop]
        rfl
      · have hstop : ¬ SourceArm.stops env (.caseArm text body : SourceArm (List Char) σ) v = true :=
          by simpa [SourceArm.stops] using hs
        rw [LiteralEquals] at hs
        rw [if_neg hs, if_neg hstop, ih]
        cases rest.findIdx? (SourceArm.stops env · v) <;> rfl

theorem armStatements_isEmpty (arms : List (SourceArm (List Char) σ)) (i : ℕ) :
    ((((arms.map (caseOf env))[i]?).map (·.2.isNull)).getD true) = (armStatements arms i).isEmpty := by
  rw [List.getElem?_map, armStatements]
  cases arms[i]? with
  | none => rfl
  | some a =>
    have hnull := @irBuildCaseBody_isNull _ _ env a.statements
    simp only [Option.map_some, Option.getD_some, caseOf_snd]
    cases hb : a.statements with
    | nil => rw [hb] at hnull; simpa using hnull
    | cons st rest => rw [hb] at hnull; simpa using hnull

/-- The arm that the simulator executes. -/
def codeArm (env : BuildEnv α σ) (arms : List (SourceArm (List Char) σ)) (v : SimValue) : Option ℕ :=
  (arms.findIdx? (SourceArm.stops env · v)).filter fun j => !(armStatements arms j).isEmpty

theorem executedArm_lowered {selector : IRExpr} (arms : List (SourceArm (List Char) σ))
    (hx : simValHasXz (simEvalExpr m s selector) = false) :
    executedArm m s (.select selector (arms.map (caseOf env))) =
      codeArm env arms (simEvalExpr m s selector) := by
  rw [executedArm, hx, if_neg Bool.false_ne_true, List.findIdx?_map, codeArm]
  have hstops : (caseStops m s (simEvalExpr m s selector)) ∘ caseOf env =
      fun a => SourceArm.stops env a (simEvalExpr m s selector) := by
    funext a
    exact caseStops_caseOf a
  rw [hstops]
  refine congrArg (Option.filter · _) (funext fun i => ?_)
  rw [armStatements_isEmpty]

/-- The condition says that the simulator's arm is the arm of the language. -/
theorem codeArm_eq_iff (arms : List (SourceArm (List Char) σ)) :
    codeArm env arms v = languageArm arms v ↔ SelectOk env arms v := by
  have hstops : ∀ k, Stops env arms v k ↔
      ∃ h : k < arms.length, SourceArm.stops env arms[k] v = true := by
    intro k
    constructor
    · rintro ⟨a, ha, hs⟩
      obtain ⟨hk, rfl⟩ := List.getElem?_eq_some_iff.mp ha
      exact ⟨hk, hs⟩
    · rintro ⟨hk, hs⟩
      exact ⟨_, List.getElem?_eq_getElem hk, hs⟩
  have hfirst : ∀ k, arms.findIdx? (SourceArm.stops env · v) = some k ↔
      Stops env arms v k ∧ ∀ l < k, ¬ Stops env arms v l := by
    intro k
    rw [List.findIdx?_eq_some_iff_getElem]
    constructor
    · rintro ⟨hk, hs, hbefore⟩
      refine ⟨(hstops k).mpr ⟨hk, hs⟩, fun l hl hstop => ?_⟩
      obtain ⟨hl', hs'⟩ := (hstops l).mp hstop
      exact absurd hs' (by simpa using hbefore l hl)
    · rintro ⟨hs, hbefore⟩
      obtain ⟨hk, hs⟩ := (hstops k).mp hs
      exact ⟨hk, hs, fun l hl hstop => hbefore l hl ((hstops l).mpr ⟨by omega, hstop⟩)⟩
  rw [SelectOk]
  cases hlang : languageArm arms v with
  | some j =>
    have hne : (!(armStatements arms j).isEmpty) = true := by
      rw [languageArm] at hlang
      exact (Option.filter_eq_some_iff.mp hlang).2
    rw [codeArm, Option.filter_eq_some_iff, hfirst]
    exact and_iff_left hne
  | none =>
    rw [codeArm, Option.filter_eq_none_iff]
    constructor
    · intro h k hs hbefore
      have := h k ((hfirst k).mpr ⟨hs, hbefore⟩)
      simpa using this
    · intro h k hk
      obtain ⟨hs, hbefore⟩ := (hfirst k).mp hk
      simp [h k hs hbefore]

/-- Parsed, lowered and executed on a known selector, a SELECT runs exactly the arm that the
language selects when, and only when, the scan stops there. -/
theorem selectExact_iff {parseExpression : TokenParser τ (AstExpr α)}
    {parseStatementList : TokenParser τ (List σ)} {expr : AstExpr α → List (SelectToken τ)}
    {stmts : List σ → List (SelectToken τ)}
    (hparse : ReadsBack expr stmts parseExpression parseStatementList)
    (env : BuildEnv α σ) (src : LabelledSelect α σ) (m : IRModule) (isNba : Bool) (s : CtxState)
    {selector : IRExpr} (hsel : irBuildExpr env src.selector = some selector)
    (hx : simValHasXz (simEvalExpr m s selector) = false) :
    SelectExact env parseExpression parseStatementList expr stmts src m isNba s ↔
      SelectOk env src.labels (simEvalExpr m s selector) := by
  have hast := parseSelectStmt_render hparse src.source []
  rw [List.append_nil] at hast
  have hlower : irBuildSelectStmt env src.source.ast =
      some (.select selector (src.labels.map (caseOf env))) := by
    rw [irBuildSelectStmt, irBuildCase_source]
    have hs : irBuildExpr env src.source.ast.selector = some selector := hsel
    rw [hs]
    rfl
  have hexec : simExecStmt m isNba (.select selector (src.labels.map (caseOf env))) s =
      match src.labels.findIdx? (SourceArm.stops env · (simEvalExpr m s selector)) with
      | some j => simExecStmt m isNba (irBuildCaseBody env (armStatements src.labels j))
          (afterEval m s selector)
      | none => afterEval m s selector := by
    rw [simExecStmt]
    simp only [hx, if_neg Bool.false_ne_true]
    exact execCases_caseOf isNba src.labels
  rw [← codeArm_eq_iff, ← executedArm_lowered (m := m) (s := s) src.labels hx]
  constructor
  · rintro ⟨ast, selector', stmt, h1, h2, h3, h4, -⟩
    rw [hast] at h1
    obtain rfl := (Prod.mk.inj (Option.some.inj h1)).1
    rw [hsel] at h2
    obtain rfl := Option.some.inj h2
    rw [hlower] at h3
    obtain rfl := Option.some.inj h3
    exact h4
  · intro h
    refine ⟨_, selector, _, hast, hsel, hlower, h, ?_⟩
    rw [hexec, ← h, executedArm_lowered _ hx, codeArm]
    cases hidx : src.labels.findIdx? (SourceArm.stops env · (simEvalExpr m s selector)) with
    | none => rfl
    | some j =>
      by_cases hne : (armStatements src.labels j).isEmpty = true
      · have hnil : armStatements src.labels j = [] := by simpa using hne
        have hnull : irBuildCaseBody env ([] : List σ) = .null := by
          simp [irBuildCaseBody, env.buildBlock_nil]
        simp [Option.filter, hnil, hnull, simExecStmt]
      · simp [Option.filter, hne]

end

namespace SelectExample

/-- Expressions and statements that are one token each. -/
abbrev Token := SelectToken (AstExpr ℕ ⊕ IRStmt)

def parseExpression : TokenParser (AstExpr ℕ ⊕ IRStmt) (AstExpr ℕ)
  | .other (.inl e) :: rest => some (e, rest)
  | _ => none

def parseStatementList : TokenParser (AstExpr ℕ ⊕ IRStmt) (List IRStmt)
  | .rbrace :: rest => some ([], rest)
  | .other (.inr stmt) :: rest => (parseStatementList rest).map fun r => (stmt :: r.1, r.2)
  | _ => none

def expr (e : AstExpr ℕ) : List Token := [.other (.inl e)]

def stmts (body : List IRStmt) : List Token := body.map fun stmt => .other (.inr stmt)

theorem readsBack : ReadsBack expr stmts parseExpression parseStatementList where
  expr _ _ _ _ := rfl
  stmts body rest := by
    induction body with
    | nil => rfl
    | cons stmt body ih =>
      have hcons : stmts (stmt :: body) ++ .rbrace :: rest =
        .other (.inr stmt) :: (stmts body ++ .rbrace :: rest) := rfl
      rw [hcons, parseStatementList, ih]
      rfl

def env : BuildEnv ℕ IRStmt where
  evalConst _ := none
  inferredWidth _ := 2
  buildOther id := some (.signalRef id 2)
  buildBlock body := if body.isEmpty then .null else .block body
  buildBlock_nil := rfl

/-- A two-bit literal. -/
def two (hi lo : Char) : List Char := ['2', tick, 'b', hi, lo]

def assign (hi lo : Char) : IRStmt :=
  .assignment ⟨1, irBuildLiteral env.evalConst 2 (two hi lo), .receive, false, 0, 0⟩

def module : IRModule :=
  { signals := [⟨0, .port .portIn, 2⟩, ⟨1, .port .portOut, 2⟩]
    memories := []
    clockDomains := []
    asyncBlock := .null }

def state (selector : SimValue) : CtxState :=
  { signals := fun i => ⟨if i = 0 then selector else simValZero 2, simValZero 2, false⟩
    cells := fun _ _ => simValZero 1
    runtimeError := false
    settleDirty := false
    sigDirty := fun _ => false }

/-- `CASE 2'b00 CASE 2'b01 { .. } CASE 2'b1x { } DEFAULT { .. }` on signal 0. -/
def select : LabelledSelect ℕ IRStmt where
  selector := .other 0
  arms := [(.caseArm (two '0' '0') none, 0), (.caseArm (two '0' '1') (some [assign '1' '0']), 1),
    (.caseArm (two '1' 'x') (some []), 0), (.defaultArm [assign '1' '1'], 0)]
  oneDefault := by decide

end SelectExample

open SelectExample in
theorem selectExact_iff_shared :
    SelectExact env parseExpression parseStatementList expr stmts select module false
        (state (simValFromUint 1 2)) ↔
      SelectOk env select.labels (simEvalExpr module (state (simValFromUint 1 2)) (.signalRef 0 2)) :=
  selectExact_iff readsBack env select module false _ rfl (by decide +kernel)

open SelectExample in
/-- With selector 0 the naked label executes nothing instead of the body that it shares. -/
theorem select_nakedLabel : ¬ SelectExact env parseExpression parseStatementList expr stmts select
    module false (state (simValZero 2)) := by
  rintro ⟨ast, selector, stmt, hparse, hsel, hlower, harm, -⟩
  have hast : parseSelectStmt parseExpression parseStatementList
      (select.source.render expr stmts) = some (select.source.ast, []) := rfl
  rw [hast] at hparse
  obtain rfl := (Prod.mk.inj (Option.some.inj hparse)).1
  obtain rfl := Option.some.inj hsel
  obtain rfl := Option.some.inj hlower
  revert harm
  decide +kernel

end JzHdl

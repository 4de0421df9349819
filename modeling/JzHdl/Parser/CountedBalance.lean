import JzHdl.Parser.Counted

/-! # Balanced nesting

Every parser leaves the counters as they were, except that the counter of targets
keeps one for every failed element of a concatenation.
-/

namespace JzHdl

open Attempt

namespace NestingCounters

/-- The counters after a number of failed elements. -/
def leak (counters : NestingCounters) (n : ℕ) : NestingCounters :=
  ⟨Function.update counters.depth .lvalue (counters.depth .lvalue + n),
    counters.failedElements + n⟩

variable (counters : NestingCounters)

@[simp] theorem leak_zero : counters.leak 0 = counters := by
  ext
  · simp [leak]
  · rfl

theorem leak_leak (m n : ℕ) : (counters.leak m).leak n = counters.leak (m + n) := by
  ext
  · simp [leak, Nat.add_assoc]
  · simp [leak, Nat.add_assoc]

theorem enter_leak (c : DepthCounter) (n : ℕ) :
    (counters.enter c).leak n = (counters.leak n).enter c := by
  ext d
  · cases c <;> cases d <;> simp [leak, enter]
    omega
  · rfl

@[simp] theorem leave_enter (c : DepthCounter) : (counters.enter c).leave c = counters := by
  ext d
  · simp [leave, enter]
  · rfl

/-- A failed element counts for the `jz_depth_leave` that is left out. -/
theorem countFailure_eq : counters.countFailure = (counters.leak 1).leave .lvalue := by
  ext
  · simp [countFailure, leak, leave]
  · rfl

theorem leak_eq_iff {n : ℕ} : (counters.leak n).depth = counters.depth ↔ n = 0 := by
  constructor
  · intro h
    have hlvalue := congrFun h .lvalue
    simpa [leak] using hlvalue
  · rintro rfl
    rw [leak_zero]

end NestingCounters

/-- Only failed elements change the counters. -/
def Leaks (st next : CountedState) : Prop := ∃ n, next.counters = st.counters.leak n

/-- The same, and a counter is left. -/
def Closes (c : DepthCounter) (st next : CountedState) : Prop :=
  ∃ n, next.counters = (st.counters.leak n).leave c

instance : Std.Refl Leaks := ⟨fun st => ⟨0, (st.counters.leak_zero).symm⟩⟩

instance : IsTrans CountedState Leaks where
  trans := by
    rintro st mid next ⟨m, hm⟩ ⟨n, hn⟩
    exact ⟨m + n, by rw [hn, hm, NestingCounters.leak_leak]⟩

theorem Leaks.closes {c : DepthCounter} {st mid next : CountedState} (h : Leaks st mid)
    (hclose : Closes c mid next) : Closes c st next := by
  obtain ⟨m, hm⟩ := h
  obtain ⟨n, hn⟩ := hclose
  exact ⟨m + n, by rw [hn, hm, NestingCounters.leak_leak]⟩

namespace Counted

/-! ## Entering and leaving -/

section

variable {α β : Type} {c : DepthCounter} {p : Counted α} {f : α → Counted β}

theorem frames_of_counters (h : ∀ st, (exec p st).2.counters = st.counters) : Frames Leaks p :=
  fun st => ⟨0, by rw [h st, NestingCounters.leak_zero]⟩

theorem closes_leave (b : β) : Frames (Closes c) (depthLeave c >>= fun _ => pure b) :=
  fun st => ⟨0, by rw [NestingCounters.leak_zero]; rfl⟩

theorem closes_leave_unit : Frames (Closes c) (depthLeave c) :=
  fun st => ⟨0, by rw [NestingCounters.leak_zero]; rfl⟩

/-- A part whose failure leaves the counter, with more behind it. -/
theorem closes_orLeave (hp : Frames Leaks p) (hf : ∀ a, Frames (Closes c) (f a)) :
    Frames (Closes c) (orLeave c p >>= f) := by
  refine Frames.bind_of (fun st a next h => hp.of_exec (exec_onFailure_some h)) ?_ hf
    fun _ _ _ => Leaks.closes
  intro st next h
  obtain ⟨mid, hmid, rfl⟩ := exec_onFailure_none h
  obtain ⟨n, hn⟩ := hp.of_exec hmid
  exact ⟨n, by rw [leaveState, hn]⟩

/-- A failed element does not leave the counter, but it is counted. -/
theorem closes_countFailed (hp : Frames Leaks p) (hf : ∀ a, Frames (Closes .lvalue) (f a)) :
    Frames (Closes .lvalue) (countFailedElement p >>= f) := by
  refine Frames.bind_of (fun st a next h => hp.of_exec (exec_onFailure_some h)) ?_ hf
    fun _ _ _ => Leaks.closes
  intro st next h
  obtain ⟨mid, hmid, rfl⟩ := exec_onFailure_none h
  obtain ⟨n, hn⟩ := hp.of_exec hmid
  exact ⟨n + 1, by rw [hn, NestingCounters.countFailure_eq, NestingCounters.leak_leak]⟩

/-- A part that never fails may stand between entering and leaving. -/
theorem closes_total (htotal : ∀ st, (exec p st).1 ≠ none) (hp : Frames Leaks p)
    (hf : ∀ a, Frames (Closes c) (f a)) : Frames (Closes c) (p >>= f) := by
  refine Frames.bind_of (fun st a next h => hp.of_exec h) ?_ hf fun _ _ _ => Leaks.closes
  intro st next h
  exact absurd (congrArg Prod.fst h) (htotal st)

theorem exec_depthEnterChecked (limit : ℕ) (st : CountedState) :
    exec (depthEnterChecked c limit) st =
      if limit ≤ st.counters.depth c then (none, st)
      else (some (), { st with counters := st.counters.enter c }) := by
  rw [depthEnterChecked, exec_bind, exec_get]
  dsimp only
  split
  · rfl
  · rfl

theorem frames_enter {limit : ℕ} {g : Unit → Counted β} (hg : ∀ u, Frames (Closes c) (g u)) :
    Frames Leaks (depthEnterChecked c limit >>= g) := by
  intro st
  rw [exec_bind, exec_depthEnterChecked]
  by_cases hlimit : limit ≤ st.counters.depth c
  · rw [if_pos hlimit]
    exact refl st
  · rw [if_neg hlimit]
    obtain ⟨n, hn⟩ := hg () { st with counters := st.counters.enter c }
    exact ⟨n, by rw [hn, NestingCounters.enter_leak, NestingCounters.leave_enter]⟩

end

/-! ## Tokens -/

theorem peek_total (st : CountedState) : (exec peek st).1 ≠ none := nofun

theorem rounds_total (st : CountedState) : (exec rounds st).1 ≠ none := nofun

theorem advance_total (st : CountedState) : (exec advance st).1 ≠ none := nofun

theorem matchToken_total (type : JZTokenType) (st : CountedState) :
    (exec (matchToken type) st).1 ≠ none := by
  rw [matchToken, exec_bind]
  change (exec (if _ then _ else _) st).1 ≠ none
  split
  · exact nofun
  · exact nofun

theorem frames_peek : Frames Leaks peek := frames_of_counters fun _ => rfl

theorem frames_rounds : Frames Leaks rounds := frames_of_counters fun _ => rfl

theorem frames_advance : Frames Leaks advance := frames_of_counters fun _ => rfl

theorem frames_tokens (move : List LexToken → List LexToken) :
    Frames Leaks (modify fun st => { st with tokens := move st.tokens } : Counted PUnit) :=
  frames_of_counters fun _ => rfl

theorem frames_matchToken (type : JZTokenType) : Frames Leaks (matchToken type) := by
  unfold matchToken
  refine frames_peek.bind fun t => ?_
  split
  · exact frames_advance.bind fun _ => .of_pure _
  · exact .of_pure _

theorem frames_expect (type : JZTokenType) : Frames Leaks (expect type) := by
  unfold expect
  refine (frames_matchToken type).bind fun found => ?_
  split
  · exact .of_pure _
  · exact .of_failure

/-! ## Names and lists -/

theorem frames_parseQualifiedNameFrom : ∀ (n : ℕ) (buf : List Char),
    Frames Leaks (parseQualifiedNameFrom n buf)
  | 0, _ => .of_pure _
  | n + 1, buf => by
      unfold parseQualifiedNameFrom
      refine frames_peek.bind fun id => ?_
      split
      · exact .of_pure _
      · split
        · refine frames_advance.bind fun _ => (frames_matchToken _).bind fun dot => ?_
          split
          · exact frames_parseQualifiedNameFrom n _
          · exact .of_pure _
        · exact .of_pure _

theorem frames_parseQualifiedName : Frames Leaks parseQualifiedName := by
  unfold parseQualifiedName
  refine frames_rounds.bind fun n => (frames_parseQualifiedNameFrom n []).bind fun buf => ?_
  split
  · exact .of_failure
  · exact .of_pure _

theorem frames_parseElements {α : Type} {elem : Counted α} (h : Frames Leaks elem) :
    ∀ n, Frames Leaks (parseElements elem n)
  | 0 => .of_failure
  | n + 1 => by
      unfold parseElements
      refine h.bind fun _ => (frames_matchToken _).bind fun comma => ?_
      split
      · exact frames_parseElements h n
      · exact .of_pure _

theorem frames_parseElementsUnless {α : Type} {elem : Counted α} (close : JZTokenType)
    (h : Frames Leaks elem) : Frames Leaks (parseElementsUnless close elem) := by
  unfold parseElementsUnless
  refine frames_peek.bind fun t => ?_
  split
  · exact .of_pure _
  · exact frames_rounds.bind fun n => frames_parseElements h n

/-! ## Accesses -/

theorem frames_parseMember (base : JZASTNodeType) : Frames Leaks (parseMember base) := by
  unfold parseMember
  refine frames_peek.bind fun t => ?_
  split
  · split
    · exact frames_advance.bind fun _ => .of_pure _
    · exact .of_failure
  · exact .of_failure

section

variable {index : Counted JZASTNodeType} (h : Frames Leaks index)
include h

theorem frames_parseAccess (base : JZASTNodeType) : Frames Leaks (parseAccess index base) := by
  unfold parseAccess
  refine frames_peek.bind fun t => ?_
  split
  · refine frames_advance.bind fun _ => (frames_expect _).bind fun _ =>
      (frames_matchToken _).bind fun dot => ?_
    split
    · exact frames_parseMember base
    · exact .of_failure
  · refine h.bind fun _ => (frames_matchToken _).bind fun colon => ?_
    split
    · exact h.bind fun _ => (frames_expect _).bind fun _ => .of_pure _
    · refine (frames_expect _).bind fun _ => (frames_matchToken _).bind fun dot => ?_
      split
      · exact frames_parseMember base
      · exact .of_pure _

theorem frames_parseAccesses : ∀ (n : ℕ) (base : JZASTNodeType),
    Frames Leaks (parseAccesses index n base)
  | 0, _ => .of_failure
  | n + 1, base => by
      unfold parseAccesses
      refine (frames_matchToken _).bind fun bracket => ?_
      split
      · exact (frames_parseAccess h base).bind fun base => frames_parseAccesses n base
      · exact .of_pure _

end

/-! ## Expressions -/

section

variable {expr : Counted JZASTNodeType} (h : Frames Leaks expr)
include h

theorem frames_parseSimpleIndexExpr : Frames Leaks (parseSimpleIndexExpr expr) := by
  unfold parseSimpleIndexExpr
  refine frames_peek.bind fun t => ?_
  split
  · exact h
  · exact .of_failure

theorem frames_parsePrimaryExpr : Frames Leaks (parsePrimaryExpr expr) := by
  unfold parsePrimaryExpr
  refine Frames.of_get.bind fun st => frames_peek.bind fun t => ?_
  split
  · exact frames_advance.bind fun _ => .of_pure _
  · split
    · exact frames_advance.bind fun _ => .of_pure _
    · split
      · split
        · exact frames_advance.bind fun _ => frames_advance.bind fun _ =>
            (frames_parseElementsUnless _ h).bind fun _ => (frames_expect _).bind fun _ =>
              .of_pure _
        · exact frames_parseQualifiedName
      · split
        · exact frames_advance.bind fun _ => h.bind fun _ => (frames_expect _).bind fun _ =>
            .of_pure _
        · exact .of_failure

theorem frames_parsePostfixExpr : Frames Leaks (parsePostfixExpr expr) :=
  (frames_parsePrimaryExpr h).bind fun base => frames_rounds.bind fun n =>
    frames_parseAccesses (frames_parseSimpleIndexExpr h) n base

theorem frames_parseConcatOrPrimaryExpr : Frames Leaks (parseConcatOrPrimaryExpr expr) := by
  unfold parseConcatOrPrimaryExpr
  refine (frames_matchToken _).bind fun brace => ?_
  split
  · refine Frames.of_get.bind fun st => ?_
    split
    · exact frames_advance.bind fun _ => frames_advance.bind fun _ => h.bind fun _ =>
        (frames_expect _).bind fun _ => (frames_expect _).bind fun _ => .of_pure _
    · exact (frames_parseElementsUnless _ h).bind fun _ => (frames_expect _).bind fun _ =>
        .of_pure _
  · exact frames_parsePostfixExpr h

theorem frames_parseUnaryFrom : ∀ n, Frames Leaks (parseUnaryFrom expr n)
  | 0 => .of_failure
  | n + 1 => by
      unfold parseUnaryFrom
      refine frames_peek.bind fun t => ?_
      split
      · exact frames_advance.bind fun _ => (frames_parseUnaryFrom n).bind fun _ => .of_pure _
      · exact frames_parseConcatOrPrimaryExpr h

theorem frames_parseUnaryExpr : Frames Leaks (parseUnaryExpr expr) :=
  frames_rounds.bind fun n => frames_parseUnaryFrom h n

theorem frames_parseOperands (ops : List JZTokenType) : ∀ (n : ℕ) (left : JZASTNodeType),
    Frames Leaks (parseOperands ops expr n left)
  | 0, _ => .of_failure
  | n + 1, left => by
      unfold parseOperands
      refine frames_peek.bind fun t => ?_
      split
      · exact frames_advance.bind fun _ => h.bind fun _ => frames_parseOperands ops n _
      · exact .of_pure _

theorem frames_parseBinaryExpr (ops : List JZTokenType) : Frames Leaks (parseBinaryExpr ops expr) :=
  h.bind fun left => frames_rounds.bind fun n => frames_parseOperands h ops n left

theorem frames_parseLogicalOrExpr : Frames Leaks (parseLogicalOrExpr expr) := by
  have hmul := frames_parseBinaryExpr (frames_parseUnaryExpr h)
    [.opStar, .opSlash, .opPercent]
  have hshift := frames_parseBinaryExpr (frames_parseBinaryExpr hmul [.opPlus, .opMinus])
    [.opShl, .opShr, .opAshr]
  have heq := frames_parseBinaryExpr (frames_parseBinaryExpr hshift [.opLt, .opLe, .opGt, .opGe])
    [.opEq, .opNeq]
  have hor := frames_parseBinaryExpr (frames_parseBinaryExpr (frames_parseBinaryExpr heq
    [.opAmp]) [.opCaret]) [.opPipe]
  exact frames_parseBinaryExpr (frames_parseBinaryExpr hor [.opAndAnd]) [.opOrOr]

theorem frames_parseTernaryFrom : ∀ n, Frames Leaks (parseTernaryFrom expr n)
  | 0 => .of_failure
  | n + 1 => by
      unfold parseTernaryFrom
      refine (frames_parseLogicalOrExpr h).bind fun cond => (frames_matchToken _).bind
        fun question => ?_
      split
      · exact h.bind fun _ => (frames_expect _).bind fun _ =>
          (frames_parseTernaryFrom n).bind fun _ => .of_pure _
      · exact .of_pure _

theorem frames_parseTernaryExpr : Frames Leaks (parseTernaryExpr expr) :=
  frames_rounds.bind fun n => frames_parseTernaryFrom h n

end

theorem frames_parseExpressionFrom : ∀ room, Frames Leaks (parseExpressionFrom room)
  | 0 => .of_failure
  | room + 1 => by
      unfold parseExpressionFrom
      refine frames_enter fun _ => closes_orLeave ?_ fun e => closes_leave e
      exact frames_parseTernaryExpr (frames_parseExpressionFrom room)

theorem frames_parseExpression : Frames Leaks parseExpression := frames_parseExpressionFrom _

/-! ## Targets -/

theorem frames_parseLvaluePrimary : Frames Leaks parseLvaluePrimary := by
  unfold parseLvaluePrimary
  refine frames_peek.bind fun t => ?_
  split
  · exact frames_parseQualifiedName
  · exact .of_failure

theorem frames_parseLvalueFrom : ∀ room, Frames Leaks (parseLvalueFrom room)
  | 0 => .of_failure
  | room + 1 => by
      unfold parseLvalueFrom
      refine frames_enter fun _ => closes_total (matchToken_total _) (frames_matchToken _)
        fun brace => ?_
      split
      · have helem := frames_parseElementsUnless .rbrace (frames_parseLvalueFrom room)
        exact closes_countFailed helem fun _ => closes_orLeave (frames_expect _) fun _ =>
          closes_leave _
      · have hindex := frames_parseSimpleIndexExpr frames_parseExpression
        exact closes_orLeave frames_parseLvaluePrimary fun base =>
          closes_total rounds_total frames_rounds fun n =>
            closes_orLeave (frames_parseAccesses hindex n base) fun base => closes_leave base

theorem frames_parseLvalue : Frames Leaks parseLvalue := frames_parseLvalueFrom _

/-! ## Statements -/

theorem frames_parseAssignmentStmt : Frames Leaks parseAssignmentStmt := by
  unfold parseAssignmentStmt
  refine frames_parseLvalue.bind fun _ => frames_peek.bind fun op => ?_
  split
  · refine frames_advance.bind fun _ => frames_parseExpression.bind fun _ =>
      frames_peek.bind fun t => ?_
    split
    · exact frames_advance.bind fun _ => frames_parseExpression.bind fun _ => frames_expect _
    · exact frames_expect _
  · exact .of_failure

theorem frames_applyCall : Frames Leaks parseApplyStmt.applyCall := by
  unfold parseApplyStmt.applyCall
  refine frames_peek.bind fun name => ?_
  split
  · exact frames_advance.bind fun _ => (frames_expect _).bind fun _ =>
      (frames_parseElementsUnless _ frames_parseExpression).bind fun _ =>
        (frames_expect _).bind fun _ => frames_expect _
  · exact .of_failure

theorem frames_parseApplyStmt : Frames Leaks parseApplyStmt := by
  unfold parseApplyStmt
  refine (frames_matchToken _).bind fun bracket => ?_
  split
  · exact (frames_tokens _).bind fun _ => (frames_expect _).bind fun _ => frames_applyCall
  · exact frames_applyCall

theorem frames_skipStatement (terminator : JZTokenType) :
    Frames Leaks (skipStatement terminator) :=
  frames_advance.bind fun _ => (frames_tokens _).bind fun _ => (frames_matchToken _).bind fun _ =>
    .of_pure _

section

variable {stmts : JZTokenType → Counted Unit} (h : ∀ terminator, Frames Leaks (stmts terminator))
include h

theorem frames_parseCondBody : Frames Leaks (parseCondBody stmts) :=
  (frames_expect _).bind fun _ => frames_parseExpression.bind fun _ => (frames_expect _).bind
    fun _ => (frames_expect _).bind fun _ => h _

theorem frames_parseElifs : ∀ n, Frames Leaks (parseElifs stmts n)
  | 0 => .of_failure
  | n + 1 => by
      unfold parseElifs
      refine frames_peek.bind fun t => ?_
      split
      · exact frames_advance.bind fun _ => (frames_parseCondBody h).bind fun _ =>
          frames_parseElifs n
      · split
        · exact frames_advance.bind fun _ => (frames_expect _).bind fun _ => h _
        · exact .of_pure _

theorem frames_parseIfChain : Frames Leaks (parseIfChain stmts) :=
  frames_advance.bind fun _ => (frames_parseCondBody h).bind fun _ => frames_rounds.bind fun n =>
    frames_parseElifs h n

theorem frames_parseSelectArms : ∀ (n : ℕ) (sawDefault : Bool),
    Frames Leaks (parseSelectArms stmts n sawDefault)
  | 0, _ => .of_failure
  | n + 1, sawDefault => by
      unfold parseSelectArms
      refine frames_peek.bind fun t => ?_
      split
      · exact frames_advance
      · split
        · exact .of_failure
        · split
          · exact frames_advance.bind fun _ => frames_parseSelectArms n sawDefault
          · split
            · refine frames_advance.bind fun _ => frames_parseExpression.bind fun _ =>
                (frames_matchToken _).bind fun brace => ?_
              split
              · exact (h _).bind fun _ => frames_parseSelectArms n sawDefault
              · exact (frames_matchToken _).bind fun _ => frames_parseSelectArms n sawDefault
            · split
              · split
                · exact .of_failure
                · exact frames_advance.bind fun _ => (frames_expect _).bind fun _ =>
                    (h _).bind fun _ => frames_parseSelectArms n true
              · exact .of_failure

theorem frames_parseSelectStmt : Frames Leaks (parseSelectStmt stmts) :=
  frames_advance.bind fun _ => (frames_expect _).bind fun _ => frames_parseExpression.bind fun _ =>
    (frames_expect _).bind fun _ => (frames_expect _).bind fun _ => frames_rounds.bind fun n =>
      frames_parseSelectArms h n false

theorem frames_parseFeatureGuardBody : ∀ n, Frames Leaks (parseFeatureGuardBody stmts n)
  | 0 => .of_failure
  | n + 1 => by
      have hnext := frames_parseFeatureGuardBody n
      unfold parseFeatureGuardBody
      refine frames_peek.bind fun t => ?_
      refine .of_ite (.of_pure _) (.of_ite (.of_pure _) (.of_ite .of_failure ?_))
      refine .of_ite (frames_advance.bind fun _ => hnext) ?_
      refine .of_ite (frames_advance.bind fun _ => .of_failure) ?_
      refine .of_ite ((frames_parseIfChain h).bind fun _ => hnext) ?_
      refine .of_ite ((frames_parseSelectStmt h).bind fun _ => hnext) ?_
      refine .of_ite (frames_advance.bind fun _ => .of_failure) ?_
      exact frames_parseAssignmentStmt.bind fun _ => hnext

theorem frames_parseFeatureGuardStmt : Frames Leaks (parseFeatureGuardStmt stmts) := by
  unfold parseFeatureGuardStmt
  refine frames_advance.bind fun _ => frames_parseExpression.bind fun _ => frames_rounds.bind
    fun n => (frames_parseFeatureGuardBody h n).bind fun sawElse => ?_
  split
  · exact frames_advance.bind fun _ => frames_rounds.bind fun n =>
      (frames_parseFeatureGuardBody h n).bind fun _ => frames_expect _
  · exact frames_expect _

theorem frames_statementLoop (terminator : JZTokenType) : ∀ n,
    Frames Leaks (statementLoop stmts terminator n)
  | 0 => .of_failure
  | n + 1 => by
      have hnext := frames_statementLoop terminator n
      unfold statementLoop
      refine frames_peek.bind fun t => .of_ite frames_advance (.of_ite .of_failure ?_)
      refine .of_ite (frames_advance.bind fun _ => hnext) ?_
      refine .of_ite ((frames_parseIfChain h).bind fun _ => hnext) ?_
      refine .of_ite ((frames_parseSelectStmt h).bind fun _ => hnext) ?_
      refine .of_ite (frames_advance.bind fun _ => .of_failure) ?_
      refine .of_ite (frames_advance.bind fun _ => frames_parseApplyStmt.bind fun _ => hnext) ?_
      refine .of_ite ((frames_skipStatement terminator).bind fun _ => hnext) ?_
      refine .of_ite ((frames_parseFeatureGuardStmt h).bind fun _ => hnext) ?_
      refine .of_ite (frames_advance.bind fun _ => .of_failure) ?_
      refine .of_ite ((frames_skipStatement terminator).bind fun _ => hnext) ?_
      refine .of_ite (frames_advance.bind fun _ => (frames_tokens _).bind fun _ => hnext) ?_
      refine .of_ite (frames_advance.bind fun _ => hnext) ?_
      exact frames_parseAssignmentStmt.bind fun _ => hnext

end

theorem frames_parseStatementListFrom : ∀ (room : ℕ) (terminator : JZTokenType),
    Frames Leaks (parseStatementListFrom room terminator)
  | 0, _ => .of_failure
  | room + 1, terminator => by
      unfold parseStatementListFrom
      refine frames_enter fun _ => closes_total rounds_total frames_rounds fun n =>
        closes_orLeave ?_ fun _ => closes_leave_unit
      exact frames_statementLoop (frames_parseStatementListFrom room) terminator n

theorem frames_parseStatementList (terminator : JZTokenType) :
    Frames Leaks (parseStatementList terminator) := frames_parseStatementListFrom _ terminator

theorem frames_parseFeatureGuardInBlock {bodyFn : Counted Unit} (h : Frames Leaks bodyFn) :
    Frames Leaks (parseFeatureGuardInBlock bodyFn) := by
  unfold parseFeatureGuardInBlock
  refine frames_enter fun _ => closes_total advance_total frames_advance fun _ =>
    closes_orLeave frames_parseExpression fun _ => closes_orLeave h fun _ =>
      closes_total peek_total frames_peek fun t => ?_
  split
  · exact closes_total advance_total frames_advance fun _ => closes_orLeave h fun _ =>
      closes_orLeave (frames_expect _) fun _ => closes_leave_unit
  · exact closes_orLeave (frames_expect _) fun _ => closes_leave_unit

end Counted

/-! ## Files -/

open Counted

theorem ForeignParser.frames_run : ∀ parser : ForeignParser, Frames Leaks parser.run
  | .finish true => .of_pure _
  | .finish false => .of_failure
  | .read move next => Frames.of_get.bind fun st => (frames_tokens move).bind fun _ =>
      frames_run (next st.tokens)
  | .expression next => frames_parseExpression.of_tried.bind fun ok => frames_run (next ok)
  | .statementList terminator next =>
      (frames_parseStatementList terminator).of_tried.bind fun ok => frames_run (next ok)
  | .featureGuard body next =>
      (frames_parseFeatureGuardInBlock (frames_run body)).of_tried.bind fun ok =>
        frames_run (next ok)

theorem ParserCall.frames_run : ∀ call : ParserCall, Frames Leaks call.run
  | .lvalue => frames_parseLvalue.bind fun _ => .of_pure _
  | .expression => frames_parseExpression.bind fun _ => .of_pure _
  | .statementList terminator => frames_parseStatementList terminator
  | .featureGuardInBlock bodyFn => frames_parseFeatureGuardInBlock bodyFn.frames_run

theorem ParserFile.parse_leaks (file : ParserFile) (counters : NestingCounters) :
    ∃ n, (file.parse counters).2 = counters.leak n :=
  file.call.frames_run ⟨file.tokens, counters⟩

theorem parseFiles_leaks : ∀ (files : List ParserFile) (counters : NestingCounters),
    ∃ n, (parseFiles files counters).2 = counters.leak n
  | [], counters => ⟨0, (counters.leak_zero).symm⟩
  | file :: files, counters => by
      obtain ⟨m, hm⟩ := file.parse_leaks counters
      obtain ⟨n, hn⟩ := parseFiles_leaks files (file.parse counters).2
      exact ⟨m + n, by rw [parseFiles]; exact hn.trans (by rw [hm, NestingCounters.leak_leak])⟩

theorem NestingCounters.leak_failed_iff {counters : NestingCounters} {n : ℕ} :
    (counters.leak n).failedElements = counters.failedElements ↔ n = 0 := Nat.add_eq_left

/-- Without a failed element every file is read as if it were the only one. -/
theorem parseFiles_alone : ∀ (files : List ParserFile) (counters : NestingCounters),
    (parseFiles files counters).2.failedElements = counters.failedElements →
      (parseFiles files counters).1 = files.map fun file => (file.parse counters).1
  | [], _, _ => rfl
  | file :: files, counters, h => by
      obtain ⟨m, hm⟩ := file.parse_leaks counters
      obtain ⟨n, hn⟩ := parseFiles_leaks files (file.parse counters).2
      have hend : (parseFiles files (file.parse counters).2).2.failedElements =
          counters.failedElements := h
      rw [hn, hm, NestingCounters.leak_leak, NestingCounters.leak_failed_iff] at hend
      have hsame : (file.parse counters).2 = counters := by
        rw [hm, Nat.eq_zero_of_add_eq_zero_right hend, NestingCounters.leak_zero]
      have hrest := parseFiles_alone files counters (by
        rw [hsame, Nat.eq_zero_of_add_eq_zero_left hend, NestingCounters.leak_zero] at hn
        rw [hn])
      change (file.parse counters).1 :: (parseFiles files (file.parse counters).2).1 = _
      rw [hsame, hrest, List.map_cons]

/-- The counters are as before if no element of a concatenation to be assigned has failed, and
then the files do not touch each other. -/
theorem parseFiles_exact (files : List ParserFile) (counters : NestingCounters) :
    ((parseFiles files counters).2.depth = counters.depth ↔
        (parseFiles files counters).2.failedElements = counters.failedElements) ∧
      ((parseFiles files counters).2.failedElements = counters.failedElements →
        (parseFiles files counters).1 = files.map fun file => (file.parse counters).1) := by
  refine ⟨?_, parseFiles_alone files counters⟩
  obtain ⟨n, hn⟩ := parseFiles_leaks files counters
  rw [hn, NestingCounters.leak_eq_iff, NestingCounters.leak_failed_iff]

namespace LeakExample

def token (type : JZTokenType) (lexeme : String) : LexToken :=
  ⟨type, some lexeme.toList, ⟨1, 1⟩, none⟩

/-- The statements `{ 1 } = a; }`. -/
def malformed : ParserFile where

  call := .statementList .rbrace

  tokens := [token .lbrace "\x7b", token .number "1", token .rbrace "\x7d", token .opAssign "=",
    token .identifier "a", token .semicolon ";", token .rbrace "\x7d"]

/-- The statements `a = b; }`. -/
def wellFormed : ParserFile where

  call := .statementList .rbrace

  tokens := [token .identifier "a", token .opAssign "=", token .identifier "b",
    token .semicolon ";", token .rbrace "\x7d"]

/-- The counters after 511 such malformed files. -/
def counters : NestingCounters := ⟨fun c => if c = .lvalue then 511 else 0, 0⟩

end LeakExample

open LeakExample in
/-- The malformed file keeps one, and the well-formed file behind it exceeds the limit. -/
theorem parseFiles_leak :
    (malformed.parse ⟨fun _ => 0, 0⟩).2.depth .lvalue = 1 ∧
      (parseFiles [wellFormed] counters).1 = [true] ∧
      (parseFiles [malformed, wellFormed] counters).1 = [false, false] := by
  decide +kernel

end JzHdl

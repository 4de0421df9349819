import JzHdl.Lib.Attempt
import JzHdl.Parser.Expression
import JzHdl.Parser.Lexer
import Mathlib.Logic.Function.Basic

/-! # Nesting counters

The parsers of statements and expressions count how deep they are nested. The counters
are global and stay from one file to the next. Of a tree only its type is kept here.
-/

namespace JzHdl

open Attempt

inductive DepthCounter | lvalue | expr | stmt
  deriving DecidableEq

/-- The three counters. The parser does not have the number of failed elements. -/
@[ext]
structure NestingCounters where

  depth : DepthCounter → ℕ

  /-- How often an element of a concatenation to be assigned has failed. -/
  failedElements : ℕ

structure CountedState where

  tokens : List LexToken

  counters : NestingCounters

/-- A parser that fails keeps the tokens and the counters it has reached. -/
abbrev Counted := Attempt CountedState

namespace NestingCounters

def enter (counters : NestingCounters) (c : DepthCounter) : NestingCounters :=
  { counters with depth := Function.update counters.depth c (counters.depth c + 1) }

def leave (counters : NestingCounters) (c : DepthCounter) : NestingCounters :=
  { counters with depth := Function.update counters.depth c (counters.depth c - 1) }

def countFailure (counters : NestingCounters) : NestingCounters :=
  { counters with failedElements := counters.failedElements + 1 }

end NestingCounters

/-- `JZ_MAX_PARSER_STATEMENT_DEPTH` -/
def parserStatementDepth : ℕ := 512

/-- The names that are read as identifiers. -/
def declIdentifierNames : List String :=
  ["IF", "ELIF", "ELSE", "SELECT", "CASE", "DEFAULT", "CONST", "PORT", "REGISTER", "LATCH", "WIRE",
    "MEM", "MUX", "CDC", "IN", "OUT", "INOUT", "ASYNCHRONOUS", "SYNCHRONOUS", "OVERRIDE", "CONFIG",
    "CLOCKS", "IN_PINS", "OUT_PINS", "INOUT_PINS", "MAP", "CLOCK_GEN", "BUS", "SOURCE", "TARGET",
    "IDX", "VCC", "GND"]

/-- `is_decl_identifier_token` -/
def LexToken.isDeclIdentifier (t : LexToken) : Bool :=
  match t.lexeme with
  | none => false
  | some lexeme => t.type = .identifier || declIdentifierNames.any (·.toList = lexeme)

namespace Counted

/-! ## Tokens -/

def depthEnterChecked (c : DepthCounter) (limit : ℕ) : Counted Unit := do
  let st ← get
  if limit ≤ st.counters.depth c then failure
  else modify fun st => { st with counters := st.counters.enter c }

def leaveState (c : DepthCounter) (st : CountedState) : CountedState :=
  { st with counters := st.counters.leave c }

def depthLeave (c : DepthCounter) : Counted Unit := modify (leaveState c)

/-- A part whose failure is returned behind `jz_depth_leave`. -/
def orLeave {α : Type} (c : DepthCounter) (p : Counted α) : Counted α := onFailure (leaveState c) p

/-- Behind the last token the end of the file is seen. -/
def peek : Counted LexToken := do
  let st ← get
  return st.tokens.head?.getD ⟨.eof, none, ⟨0, 0⟩, none⟩

def advance : Counted Unit := modify fun st => { st with tokens := st.tokens.tail }

def matchToken (type : JZTokenType) : Counted Bool := do
  let t ← peek
  if t.type = type then do
    advance
    return true
  else return false

def expect (type : JZTokenType) : Counted Unit := do
  let found ← matchToken type
  if found then return () else failure

/-- The number of rounds of a loop that takes a token in each. -/
def rounds : Counted ℕ := do
  let st ← get
  return st.tokens.length + 1

/-! ## Names and lists -/

def parseQualifiedNameFrom : ℕ → List Char → Counted (List Char)
  | 0, buf => return buf
  | n + 1, buf => do
    let id ← peek
    match id.lexeme with
    | none => return buf
    | some lexeme =>
      if id.isDeclIdentifier ∨ id.type = .kwConfig then do
        advance
        let dot ← matchToken .dot
        if dot then parseQualifiedNameFrom n (buf ++ lexeme ++ ['.']) else return buf ++ lexeme
      else return buf

def parseQualifiedName : Counted JZASTNodeType := do
  let n ← rounds
  let buf ← parseQualifiedNameFrom n []
  if buf = [] then failure
  else return if '.' ∈ buf then .qualifiedIdentifier else .identifier

section

variable {α : Type}

/-- One or more elements with commas between them. -/
def parseElements (elem : Counted α) : ℕ → Counted Unit
  | 0 => failure
  | n + 1 => do
    let _ ← elem
    let comma ← matchToken .comma
    if comma then parseElements elem n else return ()

/-- Elements, or none if the closing token follows. -/
def parseElementsUnless (close : JZTokenType) (elem : Counted α) : Counted Unit := do
  let t ← peek
  if t.type = close then return ()
  else do
    let n ← rounds
    parseElements elem n

end

/-! ## Accesses -/

/-- The member after an index and a dot. -/
def parseMember (base : JZASTNodeType) : Counted JZASTNodeType := do
  let t ← peek
  if t.isDeclIdentifier then
    if base = .identifier then do
      advance
      return .indexedMemberAccess
    else failure
  else failure

section

variable (index : Counted JZASTNodeType)

/-- What follows an opening bracket. -/
def parseAccess (base : JZASTNodeType) : Counted JZASTNodeType := do
  let t ← peek
  if t.type = .opStar then do
    advance
    expect .rbracket
    let dot ← matchToken .dot
    if dot then parseMember base else failure
  else do
    let _ ← index
    let colon ← matchToken .opColon
    if colon then do
      let _ ← index
      expect .rbracket
      return .slice
    else do
      expect .rbracket
      let dot ← matchToken .dot
      if dot then parseMember base else return .slice

def parseAccesses : ℕ → JZASTNodeType → Counted JZASTNodeType
  | 0, _ => failure
  | n + 1, base => do
    let bracket ← matchToken .lbracket
    if bracket then do
      let base ← parseAccess index base
      parseAccesses n base
    else return base

end

/-! ## Expressions -/

def indexStarts : List JZTokenType :=
  [.lbrace, .lparen, .opTilde, .opBang, .opPlus, .opMinus, .number, .sizedNumber, .kwGnd, .kwVcc,
    .identifier, .kwConfig]

/-- An identifier with the name of a builtin function and an opening parenthesis. -/
def atBuiltinCall : List LexToken → Bool
  | t :: next :: _ =>
    t.type = .identifier && t.lexeme.any (fun lexeme => builtinNames.any (·.toList = lexeme)) &&
      next.type = .lparen
  | _ => false

/-- The count and the inner brace of a replication. -/
def atReplication : List LexToken → Bool
  | t :: next :: _ => (t.type = .number || t.type = .sizedNumber) && next.type = .lbrace
  | _ => false

section

variable (expr : Counted JZASTNodeType)

def parseSimpleIndexExpr : Counted JZASTNodeType := do
  let t ← peek
  if t.type ∈ indexStarts then expr else failure

def parsePrimaryExpr : Counted JZASTNodeType := do
  let st ← get
  let t ← peek
  if t.type = .number ∨ t.type = .sizedNumber then do
    advance
    return .literal
  else if t.type = .kwGnd ∨ t.type = .kwVcc then do
    advance
    return .specialDriver
  else if t.isDeclIdentifier ∨ t.type = .kwConfig then
    if atBuiltinCall st.tokens then do
      advance
      advance
      parseElementsUnless .rparen expr
      expect .rparen
      return .builtinCall
    else parseQualifiedName
  else if t.type = .lparen then do
    advance
    let inner ← expr
    expect .rparen
    return inner
  else failure

def parsePostfixExpr : Counted JZASTNodeType := do
  let base ← parsePrimaryExpr expr
  let n ← rounds
  parseAccesses (parseSimpleIndexExpr expr) n base

def parseConcatOrPrimaryExpr : Counted JZASTNodeType := do
  let brace ← matchToken .lbrace
  if brace then do
    let st ← get
    if atReplication st.tokens then do
      advance
      advance
      let _ ← expr
      expect .rbrace
      expect .rbrace
      return .concat
    else do
      parseElementsUnless .rbrace expr
      expect .rbrace
      return .concat
  else parsePostfixExpr expr

def parseUnaryFrom : ℕ → Counted JZASTNodeType
  | 0 => failure
  | n + 1 => do
    let t ← peek
    if t.type ∈ [.opTilde, .opBang, .opPlus, .opMinus] then do
      advance
      let _ ← parseUnaryFrom n
      return .unary
    else parseConcatOrPrimaryExpr expr

def parseUnaryExpr : Counted JZASTNodeType := do
  let n ← rounds
  parseUnaryFrom expr n

/-- The operators of one level and their right operands. -/
def parseOperands (ops : List JZTokenType) (operand : Counted JZASTNodeType) :
    ℕ → JZASTNodeType → Counted JZASTNodeType
  | 0, _ => failure
  | n + 1, left => do
    let t ← peek
    if t.type ∈ ops then do
      advance
      let _ ← operand
      parseOperands ops operand n .binary
    else return left

def parseBinaryExpr (ops : List JZTokenType) (operand : Counted JZASTNodeType) :
    Counted JZASTNodeType := do
  let left ← operand
  let n ← rounds
  parseOperands ops operand n left

def parseMultiplicativeExpr : Counted JZASTNodeType :=
  parseBinaryExpr [.opStar, .opSlash, .opPercent] (parseUnaryExpr expr)

def parseAdditiveExpr : Counted JZASTNodeType :=
  parseBinaryExpr [.opPlus, .opMinus] (parseMultiplicativeExpr expr)

def parseShiftExpr : Counted JZASTNodeType :=
  parseBinaryExpr [.opShl, .opShr, .opAshr] (parseAdditiveExpr expr)

def parseRelationalExpr : Counted JZASTNodeType :=
  parseBinaryExpr [.opLt, .opLe, .opGt, .opGe] (parseShiftExpr expr)

def parseEqualityExpr : Counted JZASTNodeType :=
  parseBinaryExpr [.opEq, .opNeq] (parseRelationalExpr expr)

def parseBitwiseAndExpr : Counted JZASTNodeType :=
  parseBinaryExpr [.opAmp] (parseEqualityExpr expr)

def parseBitwiseXorExpr : Counted JZASTNodeType :=
  parseBinaryExpr [.opCaret] (parseBitwiseAndExpr expr)

def parseBitwiseOrExpr : Counted JZASTNodeType :=
  parseBinaryExpr [.opPipe] (parseBitwiseXorExpr expr)

def parseLogicalAndExpr : Counted JZASTNodeType :=
  parseBinaryExpr [.opAndAnd] (parseBitwiseOrExpr expr)

def parseLogicalOrExpr : Counted JZASTNodeType :=
  parseBinaryExpr [.opOrOr] (parseLogicalAndExpr expr)

def parseTernaryFrom : ℕ → Counted JZASTNodeType
  | 0 => failure
  | n + 1 => do
    let cond ← parseLogicalOrExpr expr
    let question ← matchToken .opQuestion
    if question then do
      let _ ← expr
      expect .opColon
      let _ ← parseTernaryFrom n
      return .ternary
    else return cond

def parseTernaryExpr : Counted JZASTNodeType := do
  let n ← rounds
  parseTernaryFrom expr n

end

/-- The argument is the number of calls that may be nested. A further one would not be below the
limit and fails without it, too. -/
def parseExpressionFrom : ℕ → Counted JZASTNodeType
  | 0 => failure
  | room + 1 => do
    depthEnterChecked .expr parserExprDepth
    let e ← orLeave .expr (parseTernaryExpr (parseExpressionFrom room))
    depthLeave .expr
    return e

def parseExpression : Counted JZASTNodeType := parseExpressionFrom parserExprDepth

/-! ## Targets -/

def parseLvaluePrimary : Counted JZASTNodeType := do
  let t ← peek
  if t.isDeclIdentifier ∨ t.type = .kwConfig then parseQualifiedName else failure

/-- The failure of an element is returned without `jz_depth_leave`. -/
def countFailedElement {α : Type} (p : Counted α) : Counted α :=
  onFailure (fun st => { st with counters := st.counters.countFailure }) p

def parseLvalueFrom : ℕ → Counted JZASTNodeType
  | 0 => failure
  | room + 1 => do
    depthEnterChecked .lvalue parserExprDepth
    let brace ← matchToken .lbrace
    if brace then do
      countFailedElement (parseElementsUnless .rbrace (parseLvalueFrom room))
      orLeave .lvalue (expect .rbrace)
      depthLeave .lvalue
      return .concat
    else do
      let base ← orLeave .lvalue parseLvaluePrimary
      let n ← rounds
      let base ← orLeave .lvalue (parseAccesses (parseSimpleIndexExpr parseExpression) n base)
      depthLeave .lvalue
      return base

def parseLvalue : Counted JZASTNodeType := parseLvalueFrom parserExprDepth

/-! ## Statements -/

def assignmentOps : List JZTokenType :=
  [.opAssign, .opAssignZ, .opAssignS, .opDrive, .opDriveZ, .opDriveS, .opLe, .opLeZ, .opLeS]

def parseAssignmentStmt : Counted Unit := do
  let _ ← parseLvalue
  let op ← peek
  if op.type ∈ assignmentOps then do
    advance
    let _ ← parseExpression
    let t ← peek
    if op.type = .opLe ∧ t.type = .opColon then do
      advance
      let _ ← parseExpression
      expect .semicolon
    else expect .semicolon
  else failure

/-- The tokens of a count in brackets, up to the bracket that closes it. -/
def skipCount : ℕ → List LexToken → List LexToken
  | _, [] => []
  | depth, t :: ts =>
    if t.type = .eof then t :: ts
    else if t.type = .lbracket then skipCount (depth + 1) ts
    else if t.type = .rbracket then
      if depth = 1 then t :: ts else skipCount (depth - 1) ts
    else skipCount depth ts

def parseApplyStmt : Counted Unit := do
  let bracket ← matchToken .lbracket
  if bracket then do
    modify fun st => { st with tokens := skipCount 1 st.tokens }
    expect .rbracket
    applyCall
  else applyCall
where
  /-- The name of the template and its arguments. -/
  applyCall : Counted Unit := do
    let name ← peek
    if name.type = .identifier ∧ name.lexeme ≠ none then do
      advance
      expect .lparen
      parseElementsUnless .rparen parseExpression
      expect .rparen
      expect .semicolon
    else failure

/-- The rest of a statement that is not allowed here. -/
def skipStatement (terminator : JZTokenType) : Counted Unit := do
  advance
  modify fun st =>
    { st with
      tokens := st.tokens.dropWhile fun t =>
        t.type ≠ .eof ∧ t.type ≠ .semicolon ∧ t.type ≠ terminator }
  let _ ← matchToken .semicolon
  return ()

/-- The rest of an instance, with its braces. -/
def skipNew (terminator : JZTokenType) : ℤ → List LexToken → List LexToken
  | _, [] => []
  | depth, t :: ts =>
    if t.type = .eof ∨ depth = 0 ∧ t.type = terminator then t :: ts
    else if t.type = .lbrace then skipNew terminator (depth + 1) ts
    else if t.type = .rbrace then skipNew terminator (depth - 1) ts
    else if t.type = .semicolon ∧ depth ≤ 0 then ts
    else skipNew terminator depth ts

def structuralDirectives : List JZTokenType :=
  [.kwNew, .kwProject, .kwEndproj, .kwModule, .kwEndmod, .kwBlackbox, .kwImport, .kwGlobal,
    .kwEndglob]

section

variable (stmts : JZTokenType → Counted Unit)

/-- A condition in parentheses and the statements behind it. -/
def parseCondBody : Counted Unit := do
  expect .lparen
  let _ ← parseExpression
  expect .rparen
  expect .lbrace
  stmts .rbrace

def parseElifs : ℕ → Counted Unit
  | 0 => failure
  | n + 1 => do
    let t ← peek
    if t.type = .kwElif then do
      advance
      parseCondBody stmts
      parseElifs n
    else if t.type = .kwElse then do
      advance
      expect .lbrace
      stmts .rbrace
    else return ()

def parseIfChain : Counted Unit := do
  advance
  parseCondBody stmts
  let n ← rounds
  parseElifs stmts n

def parseSelectArms : ℕ → Bool → Counted Unit
  | 0, _ => failure
  | n + 1, sawDefault => do
    let t ← peek
    if t.type = .rbrace then advance
    else if t.type = .eof then failure
    else if t.type = .semicolon then do
      advance
      parseSelectArms n sawDefault
    else if t.type = .kwCase then do
      advance
      let _ ← parseExpression
      let brace ← matchToken .lbrace
      if brace then do
        stmts .rbrace
        parseSelectArms n sawDefault
      else do
        let _ ← matchToken .semicolon
        parseSelectArms n sawDefault
    else if t.type = .kwDefault then
      if sawDefault then failure
      else do
        advance
        expect .lbrace
        stmts .rbrace
        parseSelectArms n true
    else failure

def parseSelectStmt : Counted Unit := do
  advance
  expect .lparen
  let _ ← parseExpression
  expect .rparen
  expect .lbrace
  let n ← rounds
  parseSelectArms stmts n false

/-- The result says whether `@else` follows. -/
def parseFeatureGuardBody : ℕ → Counted Bool
  | 0 => failure
  | n + 1 => do
    let t ← peek
    if t.type = .kwFeatureElse then return true
    else if t.type = .kwEndfeat then return false
    else if t.type = .eof ∨ t.type = .rbrace then failure
    else if t.type = .semicolon then do
      advance
      parseFeatureGuardBody n
    else if t.type = .kwFeature ∨ t.type = .kwCheck ∨ t.type ∈ structuralDirectives then do
      advance
      failure
    else if t.type = .kwIf then do
      parseIfChain stmts
      parseFeatureGuardBody n
    else if t.type = .kwSelect then do
      parseSelectStmt stmts
      parseFeatureGuardBody n
    else if t.type = .kwCase ∨ t.type = .kwDefault then do
      advance
      failure
    else do
      parseAssignmentStmt
      parseFeatureGuardBody n

def parseFeatureGuardStmt : Counted Unit := do
  advance
  let _ ← parseExpression
  let n ← rounds
  let sawElse ← parseFeatureGuardBody stmts n
  if sawElse then do
    advance
    let n ← rounds
    let _ ← parseFeatureGuardBody stmts n
    expect .kwEndfeat
  else expect .kwEndfeat

def statementLoop (terminator : JZTokenType) : ℕ → Counted Unit
  | 0 => failure
  | n + 1 => do
    let t ← peek
    if t.type = terminator then advance
    else if t.type = .eof then failure
    else if t.type = .semicolon then do
      advance
      statementLoop terminator n
    else if t.type = .kwIf then do
      parseIfChain stmts
      statementLoop terminator n
    else if t.type = .kwSelect then do
      parseSelectStmt stmts
      statementLoop terminator n
    else if t.type = .kwCase ∨ t.type = .kwDefault then do
      advance
      failure
    else if t.type = .kwApply then do
      advance
      parseApplyStmt
      statementLoop terminator n
    else if t.type = .kwScratch then do
      skipStatement terminator
      statementLoop terminator n
    else if t.type = .kwFeature then do
      parseFeatureGuardStmt stmts
      statementLoop terminator n
    else if t.type = .kwFeatureElse ∨ t.type = .kwEndfeat then do
      advance
      failure
    else if t.type = .kwCheck then do
      skipStatement terminator
      statementLoop terminator n
    else if t.type = .kwNew then do
      advance
      modify fun st => { st with tokens := skipNew terminator 0 st.tokens }
      statementLoop terminator n
    else if t.type ∈ structuralDirectives then do
      advance
      statementLoop terminator n
    else do
      parseAssignmentStmt
      statementLoop terminator n

end

/-- The argument is the number of lists that may be nested, as for expressions. -/
def parseStatementListFrom : ℕ → JZTokenType → Counted Unit
  | 0, _ => failure
  | room + 1, terminator => do
    depthEnterChecked .stmt parserStatementDepth
    let n ← rounds
    orLeave .stmt (statementLoop (parseStatementListFrom room) terminator n)
    depthLeave .stmt

def parseStatementList : JZTokenType → Counted Unit := parseStatementListFrom parserStatementDepth

def parseFeatureGuardInBlock (bodyFn : Counted Unit) : Counted Unit := do
  depthEnterChecked .stmt parserStatementDepth
  advance
  let _ ← orLeave .stmt parseExpression
  orLeave .stmt bodyFn
  let t ← peek
  if t.type = .kwFeatureElse then do
    advance
    orLeave .stmt bodyFn
    orLeave .stmt (expect .kwEndfeat)
    depthLeave .stmt
  else do
    orLeave .stmt (expect .kwEndfeat)
    depthLeave .stmt

end Counted

/-! ## Files -/

/-- A parser of another source file. It reads tokens and calls the parsers of this one; the
counters are not visible to it. -/
inductive ForeignParser

  | finish (ok : Bool)

  | read (move : List LexToken → List LexToken) (next : List LexToken → ForeignParser)

  | expression (next : Bool → ForeignParser)

  | statementList (terminator : JZTokenType) (next : Bool → ForeignParser)

  | featureGuard (body : ForeignParser) (next : Bool → ForeignParser)

namespace ForeignParser

def run : ForeignParser → Counted Unit
  | finish ok => if ok then pure () else failure
  | read move next => do
    let st ← get
    modify fun st => { st with tokens := move st.tokens }
    run (next st.tokens)
  | expression next => do
    let ok ← tried Counted.parseExpression
    run (next ok)
  | statementList terminator next => do
    let ok ← tried (Counted.parseStatementList terminator)
    run (next ok)
  | featureGuard body next => do
    let ok ← tried (Counted.parseFeatureGuardInBlock (run body))
    run (next ok)

end ForeignParser

inductive ParserCall

  | lvalue

  | expression

  | statementList (terminator : JZTokenType)

  | featureGuardInBlock (bodyFn : ForeignParser)

def ParserCall.run : ParserCall → Counted Unit
  | lvalue => do
    let _ ← Counted.parseLvalue
    return ()
  | expression => do
    let _ ← Counted.parseExpression
    return ()
  | statementList terminator => Counted.parseStatementList terminator
  | featureGuardInBlock bodyFn => Counted.parseFeatureGuardInBlock bodyFn.run

/-- One call on the tokens of a file. -/
structure ParserFile where

  call : ParserCall

  tokens : List LexToken

/-- Whether the call succeeds, and the counters it leaves. -/
def ParserFile.parse (file : ParserFile) (counters : NestingCounters) : Bool × NestingCounters :=
  let (result, st) := exec file.call.run ⟨file.tokens, counters⟩
  (result.isSome, st.counters)

/-- The calls of one process, each with the counters that the earlier ones have left. -/
def parseFiles : List ParserFile → NestingCounters → List Bool × NestingCounters
  | [], counters => ([], counters)
  | file :: files, counters =>
    let (ok, counters) := file.parse counters
    let (oks, counters) := parseFiles files counters
    (ok :: oks, counters)

end JzHdl

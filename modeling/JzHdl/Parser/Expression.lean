import JzHdl.Lib.LeftChain
import Mathlib.Data.List.Basic

/-! # Expressions

The recursive descent over the tokens of an expression and the tree it builds.
Locations and the texts of error messages are left out.
-/

namespace JzHdl

open LeftChain

/-! ## Tokens and trees -/

/-- The reserved words that are read as names, so that a later pass can report them. -/
inductive DeclKeyword
  | kwIf | kwElif | kwElse | kwSelect | kwCase | kwDefault
  | kwConst | kwPort | kwRegister | kwLatch | kwWire | kwMem | kwMux | kwCdc
  | kwIn | kwOut | kwInout
  | kwAsync | kwSync | kwOverride
  | kwClocks | kwInPins | kwOutPins | kwInoutPins | kwMap | kwClockGen
  deriving DecidableEq, Repr

def DeclKeyword.lexeme : DeclKeyword → String
  | kwIf => "IF" | kwElif => "ELIF" | kwElse => "ELSE"
  | kwSelect => "SELECT" | kwCase => "CASE" | kwDefault => "DEFAULT"
  | kwConst => "CONST" | kwPort => "PORT" | kwRegister => "REGISTER" | kwLatch => "LATCH"
  | kwWire => "WIRE" | kwMem => "MEM" | kwMux => "MUX" | kwCdc => "CDC"
  | kwIn => "IN" | kwOut => "OUT" | kwInout => "INOUT"
  | kwAsync => "ASYNCHRONOUS" | kwSync => "SYNCHRONOUS" | kwOverride => "OVERRIDE"
  | kwClocks => "CLOCKS" | kwInPins => "IN_PINS" | kwOutPins => "OUT_PINS"
  | kwInoutPins => "INOUT_PINS" | kwMap => "MAP" | kwClockGen => "CLOCK_GEN"

/-- The tokens that expressions are made of; all others are `other`. -/
inductive JZToken
  | identifier (lexeme : String)
  | number (lexeme : String)
  | sizedNumber (lexeme : String)
  | keyword (word : DeclKeyword)
  | kwConfig | kwGnd | kwVcc
  | lbrace | rbrace | lparen | rparen | lbracket | rbracket | comma | dot
  | opPlus | opMinus | opStar | opSlash | opPercent
  | opAmp | opPipe | opCaret | opTilde | opBang | opAndAnd | opOrOr
  | opEq | opNeq | opLt | opLe | opGt | opGe
  | opShl | opShr | opAshr
  | opQuestion | opColon
  | other
  deriving DecidableEq, Repr

inductive JZASTNodeType
  | identifier | qualifiedIdentifier | literal | specialDriver | builtinCall
  | unary | binary | ternary | concat | slice | indexedMemberAccess
  deriving DecidableEq, Repr

inductive JZASTNode
  | mk (type : JZASTNodeType) (name text blockKind : Option String) (children : List JZASTNode)

namespace JZASTNode

def type : JZASTNode → JZASTNodeType
  | mk type _ _ _ _ => type

def name : JZASTNode → Option String
  | mk _ name _ _ _ => name

def literalNode (text : String) : JZASTNode := mk .literal none (some text) none []

def specialNode (kind : String) : JZASTNode := mk .specialDriver none none (some kind) []

def callNode (name : String) (args : List JZASTNode) : JZASTNode :=
  mk .builtinCall (some name) none none args

def unaryNode (kind : String) (e : JZASTNode) : JZASTNode := mk .unary none none (some kind) [e]

def binaryNode (op : String) (l r : JZASTNode) : JZASTNode := mk .binary none none (some op) [l, r]

def ternaryNode (c t f : JZASTNode) : JZASTNode := mk .ternary none none none [c, t, f]

def concatNode (es : List JZASTNode) : JZASTNode := mk .concat none none none es

def sliceNode (base msb lsb : JZASTNode) : JZASTNode := mk .slice none none none [base, msb, lsb]

/-- A name with a dot in it is a qualified identifier. -/
def identifierNode (buf : String) : JZASTNode :=
  mk (if '.' ∈ buf.toList then .qualifiedIdentifier else .identifier) (some buf) none none []

mutual

def cloneAstTree : JZASTNode → JZASTNode
  | mk type name text blockKind children =>
    mk type name text blockKind (cloneChildren children)

def cloneChildren : List JZASTNode → List JZASTNode
  | [] => []
  | c :: cs => cloneAstTree c :: cloneChildren cs

end

mutual

theorem cloneAstTree_eq : ∀ e, cloneAstTree e = e
  | mk type name text blockKind children => by
      rw [cloneAstTree, cloneChildren_eq children]

theorem cloneChildren_eq : ∀ es, cloneChildren es = es
  | [] => rfl
  | c :: cs => by rw [cloneChildren, cloneAstTree_eq c, cloneChildren_eq cs]

end

end JZASTNode

open JZASTNode

/-! ## Names and lists -/

abbrev NodeParser := Parser JZToken Unit Unit JZASTNode

/-- The lexeme of a token that may act as an identifier. -/
def declIdentifier : JZToken → Option String
  | .identifier lexeme => some lexeme
  | .keyword word => some word.lexeme
  | .kwConfig => some "CONFIG"
  | .kwGnd => some "GND"
  | .kwVcc => some "VCC"
  | _ => none

/-- The rest of a dotted name. A dot that no name follows stays at its end. -/
def qualifiedNameLoop : String → List JZToken → String × List JZToken
  | buf, [] => (buf, [])
  | buf, t :: ts =>
    match declIdentifier t with
    | none => (buf, t :: ts)
    | some lexeme =>
      match ts with
      | .dot :: ts => qualifiedNameLoop (buf ++ lexeme ++ ".") ts
      | ts => (buf ++ lexeme, ts)

def parseQualifiedName : NodeParser
  | [] => throw ()
  | t :: ts =>
    match declIdentifier t with
    | none => throw ()
    | some _ =>
      let (buf, rest) := qualifiedNameLoop "" (t :: ts)
      pure (identifierNode buf, rest)

/-- One or more elements with commas between them. -/
def parseElements (elem : NodeParser) : ℕ → Parser JZToken Unit Unit (List JZASTNode)
  | 0, _ => throw ()
  | n + 1, ts => do
    let (e, rest) ← elem ts
    match rest with
    | .comma :: rest => do
      let (es, rest) ← parseElements elem n rest
      pure (e :: es, rest)
    | rest => pure ([e], rest)

/-- Elements up to the closing token. -/
def parseList (close : JZToken) (elem : NodeParser) :
    Parser JZToken Unit Unit (List JZASTNode) := fun ts =>
  if ts.head? = some close then pure ([], ts.tail)
  else do
    let (es, rest) ← parseElements elem (ts.length + 1) ts
    if rest.head? = some close then pure (es, rest.tail) else throw ()

/-! ## Accesses -/

/-- The member after an index in brackets. -/
def parseMember (base : JZASTNode) (blockKind : Option String) (index : List JZASTNode) : NodeParser
  | [] => throw ()
  | t :: ts =>
    match declIdentifier t with
    | none => throw ()
    | some member =>
      if base.type = .identifier ∧ base.name ≠ none then
        pure (mk .indexedMemberAccess base.name (some member) blockKind index, ts)
      else throw ()

section

variable (copy : JZASTNode → Run Unit Unit JZASTNode) (index : NodeParser)

/-- What follows the first index. A single index `x[e]` is `x[e:e]` with a second node that `copy`
makes of the first. -/
def parseIndexRest (base msb : JZASTNode) : NodeParser
  | .opColon :: ts => do
    let (lsb, rest) ← index ts
    match rest with
    | .rbracket :: rest => pure (sliceNode base msb lsb, rest)
    | _ => throw ()
  | .rbracket :: .dot :: ts => parseMember base none [msb] ts
  | .rbracket :: ts => do
    let lsb ← copy msb
    pure (sliceNode base msb lsb, ts)
  | _ => throw ()

/-- What follows an opening bracket. -/
def parseAccess (base : JZASTNode) : NodeParser := fun ts =>
  match ts with
  | .opStar :: .rbracket :: .dot :: ts => parseMember base (some "WILDCARD") [] ts
  | .opStar :: _ => throw ()
  | ts => do
    let (msb, rest) ← index ts
    parseIndexRest copy index base msb rest

/-- The loop over the accesses; each one reads a bracket. -/
def parseAccesses : ℕ → JZASTNode → NodeParser
  | 0, _, _ => throw ()
  | n + 1, base, ts =>
    match ts with
    | .lbracket :: ts => do
      let (base, rest) ← parseAccess copy index base ts
      parseAccesses n base rest
    | ts => pure (base, ts)

end

/-! ## Expressions -/

def builtinNames : List String :=
  ["uadd", "sadd", "umul", "smul", "gbit", "sbit", "gslice", "sslice", "oh2b", "b2oh", "prienc",
    "lzc", "usub", "ssub", "abs", "umin", "umax", "smin", "smax", "popcount", "reverse", "bswap",
    "reduce_and", "reduce_or", "reduce_xor", "lit", "clog2", "widthof", "bwidth"]

/-- The name of a builtin call and the tokens after its opening parenthesis. -/
def builtinCall : List JZToken → Option (String × List JZToken)
  | .identifier name :: .lparen :: ts => if name ∈ builtinNames then some (name, ts) else none
  | _ => none

/-- The count of a replication and the tokens after its inner brace. -/
def replicationCount : List JZToken → Option (String × List JZToken)
  | .number count :: .lbrace :: ts | .sizedNumber count :: .lbrace :: ts => some (count, ts)
  | _ => none

def startsIndex : JZToken → Bool
  | .lbrace | .lparen | .opTilde | .opBang | .opPlus | .opMinus | .number _ | .sizedNumber _
  | .kwGnd | .kwVcc | .identifier _ | .kwConfig => true
  | _ => false

def unaryKind : JZToken → Option String
  | .opTilde => some "BIT_NOT"
  | .opBang => some "LOG_NOT"
  | .opPlus => some "POS"
  | .opMinus => some "NEG"
  | _ => none

/-- The binary operators of a level, from the multiplicative ones up to `||`. -/
def exprOps : ℕ → JZToken → Option String
  | 1, .opStar => some "MUL"
  | 1, .opSlash => some "DIV"
  | 1, .opPercent => some "MOD"
  | 2, .opPlus => some "ADD"
  | 2, .opMinus => some "SUB"
  | 3, .opShl => some "SHL"
  | 3, .opShr => some "SHR"
  | 3, .opAshr => some "ASHR"
  | 4, .opLt => some "LT"
  | 4, .opLe => some "LE"
  | 4, .opGt => some "GT"
  | 4, .opGe => some "GE"
  | 5, .opEq => some "EQ"
  | 5, .opNeq => some "NEQ"
  | 6, .opAmp => some "BIT_AND"
  | 7, .opCaret => some "BIT_XOR"
  | 8, .opPipe => some "BIT_OR"
  | 9, .opAndAnd => some "LOG_AND"
  | 10, .opOrOr => some "LOG_OR"
  | _, _ => none

def exprLevel (k : ℕ) : Level JZToken String JZASTNode JZASTNode Unit Unit :=
  ⟨exprOps k, binaryNode, fun op l r => pure (binaryNode op l r)⟩

section

variable (expr : NodeParser)

def parseSimpleIndexExpr : NodeParser
  | [] => throw ()
  | t :: ts => if startsIndex t then expr (t :: ts) else throw ()

def parsePrimaryExpr : NodeParser
  | .number lexeme :: ts | .sizedNumber lexeme :: ts => pure (literalNode lexeme, ts)
  | .kwGnd :: ts => pure (specialNode "GND", ts)
  | .kwVcc :: ts => pure (specialNode "VCC", ts)
  | .lparen :: ts => do
    let (inner, rest) ← expr ts
    match rest with
    | .rparen :: rest => pure (inner, rest)
    | _ => throw ()
  | ts =>
    match builtinCall ts with
    | some (name, args) => do
      let (es, rest) ← parseList .rparen expr args
      pure (callNode name es, rest)
    | none => parseQualifiedName ts

def parsePostfixExpr : NodeParser := fun ts => do
  let (e, rest) ← parsePrimaryExpr expr ts
  parseAccesses (fun msb => pure (cloneAstTree msb)) (parseSimpleIndexExpr expr) (rest.length + 1) e
    rest

def parseConcatOrPrimaryExpr : NodeParser
  | .lbrace :: ts =>
    match replicationCount ts with
    | some (count, inner) => do
      let (elem, rest) ← expr inner
      match rest with
      | .rbrace :: .rbrace :: rest => pure (concatNode [literalNode count, elem], rest)
      | _ => throw ()
    | none => do
      let (es, rest) ← parseList .rbrace expr ts
      pure (concatNode es, rest)
  | ts => parsePostfixExpr expr ts

def parseUnaryExpr : NodeParser
  | [] => parseConcatOrPrimaryExpr expr []
  | t :: ts =>
    match unaryKind t with
    | some kind => do
      let (e, rest) ← parseUnaryExpr ts
      pure (unaryNode kind e, rest)
    | none => parseConcatOrPrimaryExpr expr (t :: ts)

def parseMultiplicativeExpr : NodeParser := chain (exprLevel 1) (parseUnaryExpr expr)

def parseAdditiveExpr : NodeParser := chain (exprLevel 2) (parseMultiplicativeExpr expr)

def parseShiftExpr : NodeParser := chain (exprLevel 3) (parseAdditiveExpr expr)

def parseRelationalExpr : NodeParser := chain (exprLevel 4) (parseShiftExpr expr)

def parseEqualityExpr : NodeParser := chain (exprLevel 5) (parseRelationalExpr expr)

def parseBitwiseAndExpr : NodeParser := chain (exprLevel 6) (parseEqualityExpr expr)

def parseBitwiseXorExpr : NodeParser := chain (exprLevel 7) (parseBitwiseAndExpr expr)

def parseBitwiseOrExpr : NodeParser := chain (exprLevel 8) (parseBitwiseXorExpr expr)

def parseLogicalAndExpr : NodeParser := chain (exprLevel 9) (parseBitwiseOrExpr expr)

def parseLogicalOrExpr : NodeParser := chain (exprLevel 10) (parseLogicalAndExpr expr)

/-- The branch after the colon is again ternary; each round reads two tokens. -/
def parseTernaryFrom : ℕ → NodeParser
  | 0, _ => throw ()
  | n + 1, ts => do
    let (cond, rest) ← parseLogicalOrExpr expr ts
    match rest with
    | .opQuestion :: rest => do
      let (onTrue, rest) ← expr rest
      match rest with
      | .opColon :: rest => do
        let (onFalse, rest) ← parseTernaryFrom n rest
        pure (ternaryNode cond onTrue onFalse, rest)
      | _ => throw ()
    | rest => pure (cond, rest)

def parseTernaryExpr : NodeParser := fun ts => parseTernaryFrom expr (ts.length + 1) ts

end

/-- `parse_expression`; the argument is what is left of the nesting limit. -/
def parseFullExpression : ℕ → NodeParser
  | 0, _ => throw ()
  | room + 1, ts => parseTernaryExpr (parseFullExpression room) ts

/-- `JZ_MAX_PARSER_EXPR_DEPTH` -/
def parserExprDepth : ℕ := 512

end JzHdl

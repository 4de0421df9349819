import JzHdl.Ir.Syntax
import JzHdl.Lib.VerilogText
import JzHdl.Sem.ExprType

/-! # Emission of expressions with their widths

The printer of the Verilog backend on expressions that keep the width of every
node. The intrinsics are printed as templates over the texts of their operands.
-/

namespace JzHdl

open BitWords VerilogText

/-- The operators that are printed between their operands. -/
inductive InfixKind
  | add | sub | mul | div | mod
  | and | or | xor
  | shl | shr | ashr
  | eq | neq | lt | gt | lte | gte
  | logicalAnd | logicalOr
  deriving DecidableEq, Repr

/-- An expression as the backend receives it. A special driver is a literal with the name of the
driver, and a memory may be read without an address of its own. -/
inductive IRNode where

  | literal (lit : IRLiteral) (width : ℕ)

  | specialDriver (vcc : Bool) (width : ℕ)

  | signalRef (signalId : ℕ) (width : ℕ)

  | unary (op : IRUnaryOp) (operand : IRNode) (width : ℕ)

  | binary (op : InfixKind) (left right : IRNode) (width : ℕ)

  | ternary (condition trueVal falseVal : IRNode) (width : ℕ)

  | concat (operands : List IRNode) (width : ℕ)

  | slice (signalId msb lsb : ℕ) (width : ℕ)

  | sliceExpr (baseExpr : IRNode) (msb lsb : ℕ) (width : ℕ)

  | memRead (memoryName portName : String) (address : IRNode) (width : ℕ)

  | memPort (memoryName portName : String) (width : ℕ)

  | pair (op : PairBuiltin) (left right : IRNode) (width : ℕ)

  | single (op : SingleBuiltin) (source : IRNode) (width : ℕ)

  | b2oh (source : IRNode) (width : ℕ)

  | gbit (source index : IRNode) (width : ℕ)

  | gslice (source index : IRNode) (elementWidth width : ℕ)

  | sbit (source index value : IRNode) (width : ℕ)

  | sslice (source index value : IRNode) (elementWidth width : ℕ)

namespace IRNode

def width : IRNode → ℕ
  | literal _ w | specialDriver _ w | signalRef _ w | unary _ _ w | binary _ _ _ w
  | ternary _ _ _ w | concat _ w | slice _ _ _ w | sliceExpr _ _ _ w | memRead _ _ _ w
  | memPort _ _ w | pair _ _ _ w | single _ _ w | b2oh _ w | gbit _ _ w | gslice _ _ _ w
  | sbit _ _ _ w | sslice _ _ _ _ w => w

end IRNode

/-- What is printed for a port of a memory. -/
inductive MemoryText where

  | missing

  | intermediate (name : String)

  | array (name : String) (portAddress : Option String)

/-- The names that the printer looks up in the module. -/
structure EmitNames where

  signalName : ℕ → Option String

  memoryText : String → String → MemoryText

namespace EmitNode

/-! ## Precedence -/

def infixSym : InfixKind → OpSym
  | .add => .plus
  | .sub => .minus
  | .mul => .star
  | .div => .slash
  | .mod => .percent
  | .and => .amp
  | .or => .bar
  | .xor => .caret
  | .shl => .shl
  | .shr => .shr
  | .ashr => .ashr
  | .eq => .eq
  | .neq => .neq
  | .lt => .lt
  | .gt => .gt
  | .lte => .le
  | .gte => .ge
  | .logicalAnd => .ampAmp
  | .logicalOr => .barBar

def unarySym : IRUnaryOp → OpSym
  | .not => .tilde
  | .neg => .minus
  | .logicalNot => .bang

def infixPrecedence : InfixKind → ℕ
  | .mul | .div | .mod => 12
  | .add | .sub => 11
  | .shl | .shr | .ashr => 10
  | .lt | .gt | .lte | .gte => 9
  | .eq | .neq => 8
  | .and => 7
  | .xor => 6
  | .or => 5
  | .logicalAnd => 4
  | .logicalOr => 3

def pairPrecedence : PairBuiltin → ℕ
  | .umul | .smul => 12
  | .uadd | .sadd | .usub | .ssub => 11
  | .umin | .umax | .smin | .smax => 14

def exprPrecedence : IRNode → ℕ
  | .literal .. | .specialDriver .. | .signalRef .. | .concat .. | .slice .. | .sliceExpr .. => 14
  | .unary .. => 13
  | .binary op .. => infixPrecedence op
  | .pair op .. => pairPrecedence op
  | .ternary .. => 1
  | .single .. | .b2oh .. | .gbit .. | .gslice .. | .sbit .. | .sslice .. => 14
  | .memRead .. | .memPort .. => 0

/-! ## Templates -/

def paren (b : Prop) [Decidable b] (ts : List Tok) : List Tok :=
  if b then .lparen :: (ts ++ [.rparen]) else ts

def zeroBit : Tok := .sized 1 "b0"

def oneBit : Tok := .sized 1 "b1"

/-- The replication of one word. -/
def replicated (count : ℕ) (t : Tok) : List Tok :=
  [.lbrace, .decimal count, .lbrace, t, .rbrace, .rbrace]

def emitLiteral (lit : IRLiteral) : Tok :=
  if lit.width = 0 then .decimal (lit.words.get 0).toNat
  else if lit.isZ then .sized lit.width ("b" ++ String.ofList (List.replicate lit.width 'z'))
  else .sized lit.width ("b" ++ String.ofList
    ((List.range lit.width).reverse.map fun i => if lit.words.bit i then '1' else '0'))

/-- A complement directly before a reduction is one operator to the target language. -/
def unaryText : OpSym → List Tok → List Tok
  | .tilde, .sym .amp :: ts => .sym .tildeAmp :: ts
  | .tilde, .sym .bar :: ts => .sym .tildeBar :: ts
  | .tilde, .sym .caret :: ts => .sym .tildeCaret :: ts
  | s, ts => .sym s :: ts

/-- The sign bit of a literal operand. -/
def msbToken : IRNode → Option Tok
  | .literal lit _ =>
    if 0 < lit.width then
      some (if lit.words.bit (lit.width - 1) then .sized 1 "b1" else .sized 1 "b0")
    else none
  | _ => none

/-- `emit_padded_expr` over the text of the operand. -/
def emitPaddedExpr (arg : IRNode) (text : List Tok) (targetWidth : ℕ) (signExtend : Bool) :
    List Tok :=
  if arg.width = 0 ∨ targetWidth ≤ arg.width then text
  else
    let pad := targetWidth - arg.width
    let padding :=
      if signExtend then
        match msbToken arg with
        | some bit => replicated pad bit
        | none => .lbrace :: .decimal pad :: .lbrace ::
          ((text ++ [.lbrack, .decimal (arg.width - 1), .rbrack]) ++ [.rbrace, .rbrace])
      else replicated pad zeroBit
    .lbrace :: ((padding ++ .comma :: text) ++ [.rbrace])

def signedText (ts : List Tok) : List Tok := .signed :: .lparen :: (ts ++ [.rparen])

def group (ts : List Tok) : List Tok := .lparen :: (ts ++ [.rparen])

/-- The text of an intrinsic with two operands, over their padded texts. -/
def emitPair (op : PairBuiltin) (w : ℕ) (padded : ℕ → Bool → List Tok × List Tok)
    (bare : List Tok × List Tok) : List Tok :=
  let additive (s : OpSym) (signed : Bool) :=
    group ((padded w signed).1 ++ .sym s :: (padded w signed).2)
  let extremum (s : OpSym) (signed : Bool) :=
    let a := (padded w signed).1
    let b := (padded w signed).2
    group (group (if signed then signedText a ++ .sym s :: signedText b else a ++ .sym s :: b) ++
      .question :: (a ++ .colon :: b))
  let product (signed : Bool) :=
    if w / 2 = 0 then bare.1 ++ .sym .star :: bare.2
    else
      let a := (padded (w / 2) signed).1
      let b := (padded (w / 2) signed).2
      group (if signed then signedText a ++ .sym .star :: signedText b else a ++ .sym .star :: b)
  if w = 0 then [zeroBit]
  else match op with
    | .uadd => additive .plus false
    | .sadd => additive .plus true
    | .usub => additive .minus false
    | .ssub => additive .minus true
    | .umul => product false
    | .smul => product true
    | .umin => extremum .lt false
    | .umax => extremum .gt false
    | .smin => extremum .lt true
    | .smax => extremum .gt true

/-- A shifted text under a mask. -/
def maskedShift (source amount mask : List Tok) : List Tok :=
  group (group (source ++ .sym .shr :: amount) ++ .sym .amp :: mask)

/-- The texts of a list with a word between any two. -/
def separated (t : Tok) : List (List Tok) → List Tok
  | [] => []
  | [ts] => ts
  | ts :: ts' :: rest => ts ++ t :: separated t (ts' :: rest)

def braces (ts : List Tok) : List Tok := .lbrace :: (ts ++ [.rbrace])

/-- The bits of the source whose index has bit `k` set. -/
def emitOh2bBit (source : List Tok) (sourceWidth k : ℕ) : List Tok :=
  let contributing := (List.range sourceWidth).filter fun i => i.testBit k
  .sym .bar :: group (if contributing = [] then [zeroBit]
    else separated (.sym .bar)
      (contributing.map fun i => maskedShift source [.decimal i] [oneBit]))

/-- One arm for every bit of the source, from the top. -/
def emitArms (source : List Tok) (w : ℕ) (value : ℕ → ℕ) : List ℕ → List Tok → List Tok
  | [], last => last
  | i :: rest, last => maskedShift source [.decimal i] [oneBit] ++
      .question :: (.sized w ("d" ++ toString (value i)) :: .colon ::
        emitArms source w value rest last)

/-- The text of an intrinsic with one operand. `bare` is the text of the source without a context,
`shifted` the one before a shift. -/
def emitSingle (op : SingleBuiltin) (w sourceWidth : ℕ) (bare shifted : List Tok) : List Tok :=
  match op with
  | .reduceAnd => if sourceWidth = 0 then [zeroBit] else .sym .amp :: group bare
  | .reduceOr => if sourceWidth = 0 then [zeroBit] else .sym .bar :: group bare
  | .reduceXor => if sourceWidth = 0 then [zeroBit] else .sym .caret :: group bare
  | .reverse =>
    if sourceWidth = 0 then [zeroBit]
    else braces (separated .comma ((List.range sourceWidth).map fun i =>
      maskedShift shifted [.decimal i] [oneBit]))
  | .bswap =>
    if sourceWidth = 0 ∨ sourceWidth % 8 ≠ 0 then [zeroBit]
    else braces (separated .comma ((List.range (sourceWidth / 8)).map fun i =>
      maskedShift shifted [.decimal (i * 8)] [.sized 8 "hFF"]))
  | .oh2b =>
    if sourceWidth = 0 ∨ w = 0 then [zeroBit]
    else if w = 1 then emitOh2bBit shifted sourceWidth 0
    else braces (separated .comma ((List.range w).reverse.map fun k =>
      emitOh2bBit shifted sourceWidth k))
  | .abs =>
    if sourceWidth = 0 ∨ w = 0 then [zeroBit]
    else group (maskedShift shifted [.decimal (sourceWidth - 1)] [oneBit] ++ .question ::
      (group (replicated w zeroBit ++ .sym .minus :: braces (zeroBit :: .comma :: bare)) ++
        .colon :: braces (zeroBit :: .comma :: bare)))
  | .popcount =>
    if sourceWidth = 0 ∨ w = 0 then [zeroBit]
    else group (separated (.sym .plus) ((List.range sourceWidth).map fun i =>
      if i = 0 then group (bare ++ .sym .amp :: [oneBit])
      else maskedShift bare [.decimal i] [oneBit]))
  | .prienc =>
    if sourceWidth = 0 ∨ w = 0 then [zeroBit]
    else emitArms shifted w id ((List.range sourceWidth).reverse.filter (1 ≤ ·)) [.sized w "d0"]
  | .lzc =>
    if sourceWidth = 0 ∨ w = 0 then [zeroBit]
    else emitArms shifted w (sourceWidth - 1 - ·) (List.range sourceWidth).reverse
      [.sized w ("d" ++ toString sourceWidth)]

def emitGslice (ew w : ℕ) (source index : List Tok) : List Tok :=
  let elem := if ew = 0 then (if 0 < w then w else 1) else ew
  maskedShift source (group (if elem = 1 then index else index ++ .sym .star :: [.decimal elem]))
    (replicated elem oneBit)

/-- The literal that has only its lowest bit set. -/
def oneMask (w : ℕ) : Tok :=
  .sized w ("b" ++ String.ofList (List.replicate (w - 1) '0' ++ ['1']))

def emitSbit (w : ℕ) (source index value : List Tok) : List Tok :=
  if w = 0 then [zeroBit]
  else
    let bit := group (oneMask w :: .sym .shl :: index)
    group (group (source ++ .sym .amp :: .sym .tilde :: bit) ++ .sym .bar ::
      group (group (.lbrace :: .decimal w :: .lbrace :: (value ++ [.rbrace, .rbrace]) ++
        .sym .amp :: bit)))

def emitSslice (w ew : ℕ) (source index padded : List Tok) : List Tok :=
  if w = 0 ∨ ew = 0 then [zeroBit]
  else
    let mask := group (replicated ew oneBit ++ .sym .shl :: index)
    group (group (source ++ .sym .amp :: .sym .tilde :: mask) ++ .sym .bar ::
      (group (group padded ++ .sym .shl :: index) ++ .sym .amp :: mask))

def emitB2oh (w : ℕ) (index : List Tok) : List Tok :=
  if w = 0 then [zeroBit]
  else group (group (index ++ .sym .lt :: [.sized w ("d" ++ toString w)]) ++ .question ::
    (group (.sized w "b1" :: .sym .shl :: index) ++ .colon :: [.sized w "b0"]))

def emitSlice (name : Option String) (msb lsb : ℕ) : List Tok :=
  name.elim zeroBit .ident ::
    if msb = lsb then [.lbrack, .decimal msb, .rbrack]
    else [.lbrack, .decimal msb, .colon, .decimal lsb, .rbrack]

def emitMemRead (text : MemoryText) (address : List Tok) : List Tok :=
  match text with
  | .missing => [zeroBit]
  | .intermediate name => [.ident name]
  | .array name _ => .ident name :: .lbrack :: (address ++ [.rbrack])

def emitMemPort : MemoryText → List Tok
  | .missing => [zeroBit]
  | .intermediate name => [.ident name]
  | .array name portAddress =>
    [.ident name, .lbrack, portAddress.elim zeroBit .ident, .rbrack]

/-- The bits that a slice of an expression keeps. -/
def sliceMask (width : ℕ) : List Tok := if 1 < width then replicated width oneBit else [oneBit]

/-! ## The printer -/

mutual

def emitExprInternal (names : EmitNames) : IRNode → ℕ → List Tok
  | .literal lit _, p => paren (14 < p) [emitLiteral lit]
  | .specialDriver vcc w, p =>
    paren (14 < p) (replicated (if 0 < w then w else 1) (if vcc then oneBit else zeroBit))
  | .signalRef id _, p => paren (14 < p) [(names.signalName id).elim zeroBit .ident]
  | .unary op e _, p => paren (13 < p) (unaryText (unarySym op) (emitExprInternal names e 13))
  | .binary op l r _, p => paren (infixPrecedence op < p)
      (emitExprInternal names l (infixPrecedence op) ++
        .sym (infixSym op) :: emitExprInternal names r (infixPrecedence op))
  | .ternary c t f _, p => paren (1 < p)
      (emitExprInternal names c 1 ++ .question ::
        (emitExprInternal names t 1 ++ .colon :: emitExprInternal names f 1))
  | .concat es _, p => paren (14 < p) (braces (separated .comma (emitOperands names es)))
  | .slice id msb lsb _, p => paren (14 < p) (emitSlice (names.signalName id) msb lsb)
  | .sliceExpr e msb lsb _, p => paren (14 < p)
      (maskedShift (group (emitExprInternal names e 0)) [.decimal lsb]
        (sliceMask (msb + 1 - lsb)))
  | .memRead memory port address _, p => paren (0 < p)
      (emitMemRead (names.memoryText memory port) (emitExprInternal names address 0))
  | .memPort memory port _, p => paren (0 < p) (emitMemPort (names.memoryText memory port))
  | .pair op l r w, p => paren (pairPrecedence op < p)
      (emitPair op w (fun target signed =>
        (emitPaddedExpr l (emitExprInternal names l 10) target signed,
          emitPaddedExpr r (emitExprInternal names r 10) target signed))
        (emitExprInternal names l 0, emitExprInternal names r 0))
  | .single op source w, p => paren (14 < p)
      (emitSingle op w source.width (emitExprInternal names source 0)
        (emitExprInternal names source 10))
  | .b2oh source w, p => paren (14 < p) (emitB2oh w (emitExprInternal names source 0))
  | .gbit source index _, p => paren (14 < p)
      (maskedShift (emitExprInternal names source 10) (emitExprInternal names index 0) [oneBit])
  | .gslice source index ew w, p => paren (14 < p)
      (emitGslice ew w (emitExprInternal names source 10) (emitExprInternal names index 12))
  | .sbit source index value w, p => paren (14 < p)
      (emitSbit w (emitExprInternal names source 7) (emitExprInternal names index 0)
        (emitExprInternal names value 0))
  | .sslice source index value ew w, p => paren (14 < p)
      (emitSslice w (if ew = 0 then value.width else ew) (emitExprInternal names source 7)
        (emitExprInternal names index 0)
        (emitPaddedExpr value (emitExprInternal names value 10) w false))

def emitOperands (names : EmitNames) : List IRNode → List (List Tok)
  | [] => []
  | e :: es => emitExprInternal names e 0 :: emitOperands names es

end

def emitExpr (names : EmitNames) (e : IRNode) : List Tok := emitExprInternal names e 0

variable {names : EmitNames}

/-- An expression is printed in parentheses or not, and otherwise alike in every context. -/
theorem emitExprInternal_eq (e : IRNode) (p : ℕ) :
    emitExprInternal names e p = paren (exprPrecedence e < p) (emitExpr names e) := by
  cases e <;> simp only [emitExpr, emitExprInternal, exprPrecedence, Nat.not_lt_zero, paren,
    if_false]

end EmitNode

end JzHdl

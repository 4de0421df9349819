import JzHdl.Sem.Exclusive
import JzHdl.Ir.Literal
import Mathlib.Data.Nat.Log

/-! # Widths of expressions

The width inference of the checker, next to the result widths that the language
gives its operators. An unknown width is 0, and no width depends on the
diagnostics that are reported on the way.
-/

namespace JzHdl

/-! ## Expressions -/

inductive NodeUnaryOp | pos | neg | bitNot | logNot
  deriving DecidableEq

inductive NodeBinaryOp
  | add | sub | mul | div | mod
  | bitAnd | bitOr | bitXor
  | logAnd | logOr
  | eq | neq | lt | le | gt | ge
  | shl | shr | ashr
  deriving DecidableEq

/-- The builtins with two operands of any widths. -/
inductive PairBuiltin | uadd | sadd | umul | smul | usub | ssub | umin | umax | smin | smax
  deriving DecidableEq

/-- The builtins with one operand. -/
inductive SingleBuiltin
  | oh2b | prienc | lzc | abs | popcount | reverse | bswap
  | reduceAnd | reduceOr | reduceXor
  deriving DecidableEq

/-- An expression node. Names are those of signals and constants; a replication keeps the text of
its count. -/
inductive ExprNode where

  | literal (text : List Char)

  | specialDriver (vcc : Bool)

  | identifier (name : List Char)

  | unary (op : NodeUnaryOp) (operand : ExprNode)

  | binary (op : NodeBinaryOp) (left right : ExprNode)

  | ternary (condition trueVal falseVal : ExprNode)

  | concat (elements : List ExprNode)

  | replicate (count : List Char) (element : ExprNode)

  | slice (base msb lsb : ExprNode)

  | lit (width value : ExprNode)

  | compileTime (isClog2 : Bool) (arg : ExprNode)

  | pair (op : PairBuiltin) (left right : ExprNode)

  | single (op : SingleBuiltin) (source : ExprNode)

  | gbit (source index : ExprNode)

  | sbit (source index set : ExprNode)

  | gslice (source index width : ExprNode)

  | sslice (source index width value : ExprNode)

  | b2oh (index width : ExprNode)

/-! ## Scopes -/

inductive NodeSymbolKind | signal | const | other
  deriving DecidableEq

/-- A symbol of a module. Without a width text that evaluates its width is 0, and a symbol that has
no place in the IR has no identifier. -/
structure NodeSymbol where

  kind : NodeSymbolKind

  id : Option ℕ

  width : ℕ

/-- The names of a module and the value of a constant expression in it. -/
structure ExprScope where

  lookup : List Char → Option NodeSymbol

  evalConst : List Char → Option ℤ

/-! ## Constant operands -/

def NodeUnaryOp.constText : NodeUnaryOp → List Char
  | .pos => ['+']
  | .neg => ['-']
  | .bitNot => ['~']
  | .logNot => ['!']

def NodeBinaryOp.constText : NodeBinaryOp → List Char
  | .add => ['+']
  | .sub => ['-']
  | .mul => ['*']
  | .div => ['/']
  | .mod => ['%']
  | .bitAnd => ['&']
  | .bitOr => ['|']
  | .bitXor => ['^']
  | .logAnd => ['&', '&']
  | .logOr => ['|', '|']
  | .eq => ['=', '=']
  | .neq => ['!', '=']
  | .lt => ['<']
  | .le => ['<', '=']
  | .gt => ['>']
  | .ge => ['>', '=']
  | .shl => ['<', '<']
  | .shr => ['>', '>']
  | .ashr => ['>', '>', '>']

section

variable (scope : ExprScope)

/-- The text of a constant operand. -/
def litConstText : ExprNode → Option (List Char)
  | .literal text => (parseSimpleNonnegativeInt text).map fun _ => text
  | .identifier name =>
    match scope.lookup name with
    | some sym => if sym.kind = .const then some name else none
    | none => none
  | .unary op operand => (litConstText operand).map fun t => ['('] ++ op.constText ++ t ++ [')']
  | .binary op left right =>
    match litConstText left, litConstText right with
    | some l, some r => some (['('] ++ l ++ op.constText ++ r ++ [')'])
    | _, _ => none
  | .compileTime isClog2 arg => (litConstText arg).map fun t =>
      (if isClog2 then ['c', 'l', 'o', 'g', '2'] else ['w', 'i', 'd', 't', 'h', 'o', 'f']) ++
        ['('] ++ t ++ [')']
  | _ => none

def evalLitConst (e : ExprNode) : Option ℤ := (litConstText scope e).bind scope.evalConst

/-- `jz_type_unary` on a known width. -/
def jzTypeUnary : NodeUnaryOp → ℕ → ℕ
  | .logNot, w => if w = 1 then 1 else 0
  | _, w => w

/-- `jz_type_binary` on known widths. -/
def jzTypeBinary : NodeBinaryOp → ℕ → ℕ → ℕ
  | .mul, l, r => if l ≠ r ∨ (2 ^ 32 - 1) / 2 < l then 0 else l * 2
  | .add, l, r | .sub, l, r | .div, l, r | .mod, l, r | .bitAnd, l, r | .bitOr, l, r
  | .bitXor, l, r => if l ≠ r then 0 else l
  | .logAnd, l, r | .logOr, l, r => if l ≠ 1 ∨ r ≠ 1 then 0 else 1
  | .eq, l, r | .neq, l, r | .lt, l, r | .le, l, r | .gt, l, r | .ge, l, r =>
      if l ≠ r then 0 else 1
  | .shl, l, _ | .shr, l, _ | .ashr, l, _ => l

/-- `jz_type_concat`. -/
def jzTypeConcat (elems : List ℕ) : ℕ :=
  if elems.sum < 2 ^ 32 then elems.sum else 0

/-- `infer_literal_type`. -/
def inferLiteralType (text : List Char) : ℕ :=
  match text.span (· ≠ tick) with
  | (width, _ :: baseCh :: value) =>
    if width = [] ∨ 32 ≤ width.length then 0
    else
      match parseSimplePositiveInt width, numericBase baseCh with
      | some declared, some base =>
        if value = [] then 0
        else if (jzLiteralAnalyze base value declared).isSome then declared else 0
      | _, _ => 0
  | (_, [_]) => 0
  | (_, []) => ((jzLiteralAnalyze .dec text (2 ^ 32 - 1)).elim 0 Prod.fst)

/-- `sem_slice_literal_width`. -/
def sliceLiteralWidth : ExprNode → ExprNode → ℕ
  | .literal msbText, .literal lsbText =>
    match parseSimpleNonnegativeInt msbText, parseSimpleNonnegativeInt lsbText with
    | some msb, some lsb => if msb < lsb then 0 else (msb - lsb + 1) % 2 ^ 32
    | _, _ => 0
  | _, _ => 0

/-- The type of a ternary from those of its parts; GND and VCC take the other branch's width. -/
def ternaryWidth (cond t f : ℕ) (tPolymorphic fPolymorphic : Bool) : ℕ :=
  if cond ≠ 1 then 0
  else if tPolymorphic && fPolymorphic then 0
  else if tPolymorphic then f
  else if fPolymorphic then t
  else if t = f then t else 0

def ExprNode.isSpecialDriver : ExprNode → Bool
  | .specialDriver _ => true
  | _ => false

/-- The type of a builtin with two known operands. -/
def pairWidth (op : PairBuiltin) (l r : ℕ) : ℕ :=
  match op with
  | .uadd | .sadd | .usub | .ssub => (max l r + 1) % 2 ^ 32
  | .umul | .smul => if max l r ≤ (2 ^ 32 - 1) / 2 then max l r * 2 else 0
  | .umin | .umax | .smin | .smax => max l r

/-- The type of a builtin with one operand. Bits are counted by shifting. -/
def singleWidth (op : SingleBuiltin) (w : ℕ) : ℕ :=
  match op with
  | .oh2b | .prienc => if w < 2 then 0 else (w - 1).size
  | .lzc | .popcount => w.size
  | .abs => if w = 0 then 0 else (w + 1) % 2 ^ 32
  | .reverse => w
  | .bswap => if w % 8 ≠ 0 then 0 else w
  | .reduceAnd | .reduceOr | .reduceXor => if w = 0 then 0 else 1

/-- The width argument of `b2oh`: a number, or else the value of a name. -/
def b2ohWidth : ExprNode → ℕ
  | .literal text =>
    match parseSimpleNonnegativeInt text with
    | some w => if w < 2 then 0 else w
    | none => 0
  | .identifier name =>
    match scope.evalConst name with
    | some v => if v < 2 ∨ v.toNat % 2 ^ 32 < 2 then 0 else v.toNat % 2 ^ 32
    | none => 0
  | _ => 0

/-- The width argument of `lit`. -/
def litWidth (width value : ExprNode) : ℕ :=
  match evalLitConst scope width, evalLitConst scope value with
  | some w, some v =>
    if w ≤ 0 ∨ 2 ^ 32 ≤ w then 0
    else if v < 0 ∨ (w < 64 ∧ 2 ^ w.toNat ≤ v) then 0
    else w.toNat
  | _, _ => 0

mutual

/-- `infer_expr_type`. Only the first 16 elements of a concatenation are looked at. -/
def inferExprType : ExprNode → ℕ
  | .literal text => inferLiteralType text
  | .specialDriver _ => 0
  | .identifier name => (scope.lookup name).elim 0 NodeSymbol.width
  | .unary op operand => jzTypeUnary op (inferExprType operand)
  | .binary op left right =>
      if inferExprType left = 0 ∨ inferExprType right = 0 then 0
      else jzTypeBinary op (inferExprType left) (inferExprType right)
  | .ternary condition trueVal falseVal =>
      ternaryWidth (inferExprType condition) (inferExprType trueVal) (inferExprType falseVal)
        trueVal.isSpecialDriver falseVal.isSpecialDriver
  | .concat elements =>
      if 0 ∈ (inferExprTypes elements).take 16 then 0
      else jzTypeConcat ((inferExprTypes elements).take 16)
  | .replicate count element =>
      -- The parser leaves a concatenation of the count and the element behind.
      if inferLiteralType count = 0 ∨ inferExprType element = 0 then 0
      else jzTypeConcat [inferLiteralType count, inferExprType element]
  | .slice _ msb lsb => sliceLiteralWidth msb lsb
  | .lit width value => litWidth scope width value
  | .compileTime .. => 0
  | .pair op left right =>
      if inferExprType left = 0 ∨ inferExprType right = 0 then 0
      else pairWidth op (inferExprType left) (inferExprType right)
  | .single op source => singleWidth op (inferExprType source)
  | .gbit source _ => if inferExprType source = 0 then 0 else 1
  | .sbit source _ _ => inferExprType source
  | .gslice .. => 0
  | .sslice source _ _ _ => inferExprType source
  | .b2oh _ width => b2ohWidth scope width

def inferExprTypes : List ExprNode → List ℕ
  | [] => []
  | e :: rest => inferExprType e :: inferExprTypes rest

end

variable {scope} in
theorem length_inferExprTypes : ∀ es : List ExprNode,
    (inferExprTypes scope es).length = es.length
  | [] => rfl
  | e :: rest => by
    rw [inferExprTypes, List.length_cons, List.length_cons, length_inferExprTypes rest]

/-! ## Result widths of the language -/

/-- The number that the count of a replication denotes. -/
def replicationValue (count : List Char) : Option ℕ := parseSimpleNonnegativeInt count

def pairPrescribed (op : PairBuiltin) (l r : ℕ) : ℕ :=
  match op with
  | .uadd | .sadd | .usub | .ssub => max l r + 1
  | .umul | .smul => 2 * max l r
  | .umin | .umax | .smin | .smax => max l r

def singlePrescribed (op : SingleBuiltin) (w : ℕ) : ℕ :=
  match op with
  | .oh2b | .prienc => Nat.clog 2 w
  | .lzc | .popcount => Nat.clog 2 (w + 1)
  | .abs => w + 1
  | .reverse | .bswap => w
  | .reduceAnd | .reduceOr | .reduceXor => 1

def binaryPrescribed : NodeBinaryOp → ℕ → ℕ
  | .mul, w => 2 * w
  | .logAnd, _ | .logOr, _ | .eq, _ | .neq, _ | .lt, _ | .le, _ | .gt, _ | .ge, _ => 1
  | _, w => w

mutual

/-- The width that the language reference gives an expression. Literals and names have the widths
they are declared with. -/
def prescribedWidth : ExprNode → ℕ
  | .literal text => inferLiteralType text
  | .specialDriver _ | .gslice .. | .compileTime .. => 0
  | .identifier name => (scope.lookup name).elim 0 NodeSymbol.width
  | .unary op operand => if op = .logNot then 1 else prescribedWidth operand
  | .binary op left _ => binaryPrescribed op (prescribedWidth left)
  | .ternary _ trueVal falseVal =>
      if trueVal.isSpecialDriver then prescribedWidth falseVal else prescribedWidth trueVal
  | .concat elements => (prescribedWidths elements).sum
  | .replicate count element => (replicationValue count).getD 0 * prescribedWidth element
  | .slice _ msb lsb => sliceLiteralWidth msb lsb
  | .lit width value => litWidth scope width value
  | .pair op left right => pairPrescribed op (prescribedWidth left) (prescribedWidth right)
  | .single op source => singlePrescribed op (prescribedWidth source)
  | .gbit .. => 1
  | .sbit source _ _ => prescribedWidth source
  | .sslice source _ _ _ => prescribedWidth source
  | .b2oh _ width => b2ohWidth scope width

def prescribedWidths : List ExprNode → List ℕ
  | [] => []
  | e :: rest => prescribedWidth e :: prescribedWidths rest

end

/-! ## Where both rules are one -/

theorem inferExprType_identifier (name : List Char) :
    inferExprType scope (.identifier name) = prescribedWidth scope (.identifier name) := by
  rw [inferExprType, prescribedWidth]

theorem inferExprType_slice (base msb lsb : ExprNode) :
    inferExprType scope (.slice base msb lsb) = prescribedWidth scope (.slice base msb lsb) := by
  rw [inferExprType, prescribedWidth]

end

end JzHdl

import JzHdl.Sem.ExprType
import JzHdl.Ir.BuildExpr
import JzHdl.Sim.Encoders

/-! # Observable unknown bits

The check that no `x` of a literal reaches an observable sink, next to the values
that the language gives expressions. A ternary branch is left out when a 64-bit
evaluator, which knows no widths, decides the condition.
-/

namespace JzHdl

/-! ## Literals of the check -/

/-- The part of a literal behind its width and base. -/
def literalValueText (text : List Char) : List Char :=
  match text.span (· ≠ tick) with
  | (_, _ :: _ :: value) => value
  | (_, [_]) => []
  | (_, []) => text

def semLiteralHasXBits (text : List Char) : Bool :=
  (literalValueText text).any fun c => c == 'x' || c == 'X'

def semLiteralHasZBits (text : List Char) : Bool :=
  (literalValueText text).any fun c => c == 'z' || c == 'Z'

def baseRadix : JZNumericBase → ℕ
  | .bin => 2
  | .dec => 10
  | .hex => 16

/-- A digit of a base. The digits `x` and `z` are none. -/
def baseDigit : JZNumericBase → Char → Option ℕ
  | .bin, c => if c = '0' then some 0 else if c = '1' then some 1 else none
  | .dec, c => if c.isDigit then some (decimalDigit c) else none
  | .hex, c => hexDigit c

/-- The digits of a sized literal, with underscores, as an `unsigned`. -/
def unsignedDigits (base : JZNumericBase) : ℕ → List Char → Option ℕ
  | acc, [] => some acc
  | acc, c :: rest =>
    if c = '_' then unsignedDigits base acc rest
    else (baseDigit base c).bind fun d =>
      if (2 ^ 32 - 1 - d) / baseRadix base < acc then none
      else unsignedDigits base (acc * baseRadix base + d) rest

def parseLiteralUnsignedValue (text : List Char) : Option ℕ :=
  (parseSimpleNonnegativeInt text).or
    (match literalParts text with
    | some (width, base, value) =>
      if width = [] ∨ value.all (· == '_') then none else unsignedDigits base 0 value
    | none => none)

/-! ## The 64-bit evaluator -/

/-- Names with a dot are qualified: those of GLOBAL blocks have the text of their declaration, all
others are looked up in the project. -/
structure ObsScope extends ExprScope where

  globalText : List Char → Option (List Char)

  evalProject : List Char → Option ℤ

def nonnegative (v : ℤ) : Option ℕ := if v < 0 then none else some v.toNat

def u64Unary : NodeUnaryOp → ℕ → ℕ
  | .logNot, a => if a = 0 then 1 else 0
  | .bitNot, a => 2 ^ 64 - 1 - a
  | .pos, a => a
  | .neg, a => (2 ^ 64 - a) % 2 ^ 64

def u64Binary : NodeBinaryOp → ℕ → ℕ → Option ℕ
  | .add, a, b => some ((a + b) % 2 ^ 64)
  | .sub, a, b => some ((a + (2 ^ 64 - b)) % 2 ^ 64)
  | .mul, a, b => some (a * b % 2 ^ 64)
  | .div, a, b => if b = 0 then none else some (a / b)
  | .mod, a, b => if b = 0 then none else some (a % b)
  | .shl, a, b => if 64 ≤ b then none else some (a * 2 ^ b % 2 ^ 64)
  | .shr, a, b => if 64 ≤ b then none else some (a / 2 ^ b)
  | .ashr, a, b =>
    if 64 ≤ b then none
    else some (if a < 2 ^ 63 then a / 2 ^ b else 2 ^ 64 - 1 - (2 ^ 64 - 1 - a) / 2 ^ b)
  | .lt, a, b => some (decide (a < b)).toNat
  | .le, a, b => some (decide (a ≤ b)).toNat
  | .gt, a, b => some (decide (b < a)).toNat
  | .ge, a, b => some (decide (b ≤ a)).toNat
  | .eq, a, b => some (decide (a = b)).toNat
  | .neq, a, b => some (decide (a ≠ b)).toNat
  | .bitAnd, a, b => some (a &&& b)
  | .bitOr, a, b => some (a ||| b)
  | .bitXor, a, b => some (a ^^^ b)
  | .logAnd, a, b => some (decide (a ≠ 0 ∧ b ≠ 0)).toNat
  | .logOr, a, b => some (decide (a ≠ 0 ∨ b ≠ 0)).toNat

section

variable (scope : ObsScope)

/-- `sem_eval_const_expr_u64_for_observability`. -/
def semEvalConstExprU64 : ExprNode → Option ℕ
  | .literal text => parseLiteralUnsignedValue text
  | .identifier name =>
    if '.' ∈ name then
      ((scope.globalText name).bind parseLiteralUnsignedValue).or
        ((scope.evalProject name).bind nonnegative)
    else (scope.evalConst name).bind nonnegative
  | .unary op operand => (semEvalConstExprU64 operand).map (u64Unary op)
  | .binary op left right =>
    (semEvalConstExprU64 left).bind fun a => (semEvalConstExprU64 right).bind (u64Binary op a)
  | _ => none

/-- `sem_expr_const_truthy_for_observability`, without a value when the condition is not known. -/
def semExprConstTruthy (e : ExprNode) : Option Bool :=
  (semEvalConstExprU64 scope e).map fun v => decide (v ≠ 0)

/-! ## The check -/

section

variable (bad : List Char → Bool)

mutual

/-- A walk over the branches that the evaluator keeps. The bounds of a slice are not looked at. -/
def containsObservable : ExprNode → Bool
  | .literal text => bad text
  | .specialDriver _ | .identifier _ => false
  | .unary _ operand => containsObservable operand
  | .binary _ left right => containsObservable left || containsObservable right
  | .ternary condition trueVal falseVal =>
    containsObservable condition ||
      match semExprConstTruthy scope condition with
      | some true => containsObservable trueVal
      | some false => containsObservable falseVal
      | none => containsObservable trueVal || containsObservable falseVal
  | .concat elements => containsObservableAny elements
  | .replicate count element => bad count || containsObservable element
  | .slice base _ _ => containsObservable base
  | .lit width value => containsObservable width || containsObservable value
  | .compileTime _ arg => containsObservable arg
  | .pair _ left right => containsObservable left || containsObservable right
  | .single _ source => containsObservable source
  | .gbit source index => containsObservable source || containsObservable index
  | .sbit source index set =>
    containsObservable source || containsObservable index || containsObservable set
  | .gslice source index width =>
    containsObservable source || containsObservable index || containsObservable width
  | .sslice source index width value =>
    containsObservable source || containsObservable index || containsObservable width ||
      containsObservable value
  | .b2oh index width => containsObservable index || containsObservable width

def containsObservableAny : List ExprNode → Bool
  | [] => false
  | e :: rest => containsObservable e || containsObservableAny rest

end

end

/-- `sem_expr_contains_observable_x_literal`. -/
def semExprContainsObservableX (e : ExprNode) : Bool :=
  containsObservable scope semLiteralHasXBits e

end

end JzHdl

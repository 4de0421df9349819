import JzHdl.Sem.Observability

/-! # Values with unknown bits

The value that the language gives an expression when all signals are known. An
operator on an operand that is not known in full depends on an `x`; a ternary is
its chosen branch.
-/

namespace JzHdl

/-! ## Bit patterns -/

/-- The bits of a value, the lowest first. -/
abbrev LogicBits := List PatternBit

namespace LogicBits

def ofNat : ℕ → ℕ → LogicBits
  | 0, _ => []
  | w + 1, n => .known (n % 2 == 1) :: ofNat w (n / 2)

/-- The number of bits that are all known. -/
def number : LogicBits → Option ℕ
  | [] => some 0
  | .known b :: rest => (number rest).map fun n => 2 * n + b.toNat
  | _ :: _ => none

/-- The result of an operator on the number of an operand. -/
def onNumber (v : LogicBits) (w : ℕ) (k : ℕ → LogicBits) : LogicBits :=
  match v.number with
  | some n => k n
  | none => List.replicate w .x

end LogicBits

/-! ## Numbers of the operators -/

def unaryNumber (op : NodeUnaryOp) (w x : ℕ) : ℕ :=
  match op with
  | .pos => x
  | .neg => pattern w (-x)
  | .bitNot => 2 ^ w - 1 - x
  | .logNot => (decide (x = 0)).toNat

def unaryWidth (op : NodeUnaryOp) (w : ℕ) : ℕ := if op = .logNot then 1 else w

/-- What is kept of a number is decided by the width of the result. -/
def binaryNumber (op : NodeBinaryOp) (w x y : ℕ) : ℕ :=
  match op with
  | .add => x + y
  | .sub => pattern w (x - y)
  | .mul => x * y
  | .div => x / y
  | .mod => x % y
  | .bitAnd => x &&& y
  | .bitOr => x ||| y
  | .bitXor => x ^^^ y
  | .logAnd => (decide (x ≠ 0 ∧ y ≠ 0)).toNat
  | .logOr => (decide (x ≠ 0 ∨ y ≠ 0)).toNat
  | .eq => (decide (x = y)).toNat
  | .neq => (decide (x ≠ y)).toNat
  | .lt => (decide (x < y)).toNat
  | .le => (decide (x ≤ y)).toNat
  | .gt => (decide (y < x)).toNat
  | .ge => (decide (y ≤ x)).toNat
  | .shl => x * 2 ^ y
  | .shr => x / 2 ^ y
  | .ashr => pattern w (signedNumber w x / 2 ^ y)

def NodeBinaryOp.divides (op : NodeBinaryOp) : Bool := op == .div || op == .mod

def pairNumber (op : PairBuiltin) (wx wy x y : ℕ) : ℕ :=
  match op with
  | .uadd => x + y
  | .umul => x * y
  | .usub => pattern (max wx wy + 1) (x - y)
  | .sadd => pattern (max wx wy + 1) (signedNumber wx x + signedNumber wy y)
  | .ssub => pattern (max wx wy + 1) (signedNumber wx x - signedNumber wy y)
  | .smul => pattern (2 * max wx wy) (signedNumber wx x * signedNumber wy y)
  | .umin => minMaxReference .umin wx wy x y
  | .umax => minMaxReference .umax wx wy x y
  | .smin => minMaxReference .smin wx wy x y
  | .smax => minMaxReference .smax wx wy x y

/-- The bits of a value from a position on, zeros behind its end. -/
def slicedNumber (x i w : ℕ) : ℕ := x / 2 ^ i % 2 ^ w

/-- A value with some bits overwritten. What would stand behind its end is dropped. -/
def splicedNumber (x i w y : ℕ) : ℕ :=
  x % 2 ^ i + (y % 2 ^ w) * 2 ^ i + x / 2 ^ (i + w) * 2 ^ (i + w)

/-! ## Leaves -/

/-- The number of digits with underscores. -/
def digitsNumber (base : JZNumericBase) : ℕ → List Char → Option ℕ
  | acc, [] => some acc
  | acc, c :: rest =>
    if c = '_' then digitsNumber base acc rest
    else (baseDigit base c).bind fun d => digitsNumber base (acc * baseRadix base + d) rest

def isBinaryChar (c : Char) : Bool := c ∈ ['0', '1', 'x', 'X', 'z', 'Z', '_']

/-- A sized literal has the width that it is declared with, a bare number as many bits as it
needs. -/
def literalBits (text : List Char) : LogicBits :=
  match literalParts text with
  | some (_, base, value) =>
    match digitsNumber base 0 value with
    | some n => .ofNat (inferLiteralType text) n
    | none =>
      if base = .bin ∧ value.all isBinaryChar then
        (List.range (inferLiteralType text)).map (literalPattern base value)
      else []
  | none => (parseSimpleNonnegativeInt text).elim [] fun n => .ofNat n.size n

/-- Known values for the signals and the words of memories. -/
structure SignalValues where

  signal : List Char → List Bool

  word : List Char → ℕ → List Bool

def constantBits (v : ℤ) : LogicBits := .ofNat v.toNat.size v.toNat

section

variable (scope : ObsScope) (ρ : SignalValues)

def nameBits (name : List Char) : LogicBits :=
  if '.' ∈ name then
    match scope.globalText name with
    | some text => literalBits text
    | none => (ρ.signal name).map .known
  else
    match scope.lookup name with
    | some sym =>
      if sym.kind = .const then ((scope.evalConst name).map constantBits).getD []
      else (ρ.signal name).map .known
    | none => (ρ.signal name).map .known

/-- The drivers GND and VCC are as wide as the other branch. -/
def branchBits (branch other : ExprNode) (v : LogicBits) : LogicBits :=
  if branch.isSpecialDriver then
    v.flatMap fun b => List.replicate (prescribedWidth scope.toExprScope other) b
  else v

/-! ## Expressions -/

mutual

/-- The value of an expression; none when it divides by zero or has no value at run time. -/
def exprValue : ExprNode → Option LogicBits
  | .literal text => some (literalBits text)
  | .specialDriver vcc => some [.known vcc]
  | .identifier name => some (nameBits scope ρ name)
  | .unary op operand => (exprValue operand).map fun a =>
      a.onNumber (unaryWidth op a.length) fun x =>
        .ofNat (unaryWidth op a.length) (unaryNumber op a.length x)
  | .binary op left right =>
    (exprValue left).bind fun a => (exprValue right).bind fun b =>
      if op.divides = true ∧ b.number = some 0 then none
      else some (a.onNumber (binaryPrescribed op a.length) fun x =>
        b.onNumber (binaryPrescribed op a.length) fun y =>
          .ofNat (binaryPrescribed op a.length) (binaryNumber op a.length x y))
  | .ternary condition trueVal falseVal =>
    (exprValue condition).bind fun c =>
      match c.number with
      | some 0 => (exprValue falseVal).map (branchBits scope falseVal trueVal)
      | some _ => (exprValue trueVal).map (branchBits scope trueVal falseVal)
      | none => some (List.replicate (prescribedWidth scope.toExprScope trueVal) .x)
  | .concat elements => (exprValues elements).map fun vs => vs.reverse.flatten
  | .replicate count element => (exprValue element).map fun v =>
      (List.replicate ((replicationValue count).getD 0) v).flatten
  | .slice base msb lsb =>
    match sliceBounds scope.toExprScope msb lsb with
    | some (m, l) => (exprValue base).map fun v => (v.drop l).take (m + 1 - l)
    | none =>
      -- The read of a memory through a port.
      match base with
      | .identifier name => (exprValue msb).bind fun i =>
          i.number.map fun k => (ρ.word name k).map .known
      | _ => none
  | .lit width value => (evalLitConst scope.toExprScope value).map fun v =>
      .ofNat (litWidth scope.toExprScope width value) v.toNat
  | .compileTime .. => none
  | .pair op left right =>
    (exprValue left).bind fun a => (exprValue right).map fun b =>
      a.onNumber (pairPrescribed op a.length b.length) fun x =>
        b.onNumber (pairPrescribed op a.length b.length) fun y =>
          .ofNat (pairPrescribed op a.length b.length) (pairNumber op a.length b.length x y)
  | .single op source => (exprValue source).map fun a =>
      a.onNumber (singlePrescribed op a.length) fun x =>
        .ofNat (singlePrescribed op a.length) (singleReference op a.length x)
  | .gbit source index =>
    (exprValue source).bind fun a => (exprValue index).map fun i =>
      a.onNumber 1 fun x => i.onNumber 1 fun k => .ofNat 1 (slicedNumber x k 1)
  | .sbit source index set =>
    (exprValue source).bind fun a => (exprValue index).bind fun i => (exprValue set).map fun s =>
      a.onNumber a.length fun x => i.onNumber a.length fun k => s.onNumber a.length fun y =>
        .ofNat a.length (splicedNumber x k 1 y)
  | .gslice source index width =>
    (exprValue source).bind fun a => (exprValue index).bind fun i =>
      (irEvalSliceBound scope.toExprScope width).map fun w =>
        a.onNumber w fun x => i.onNumber w fun k => .ofNat w (slicedNumber x k w)
  | .sslice source index width value =>
    (exprValue source).bind fun a => (exprValue index).bind fun i =>
      (irEvalSliceBound scope.toExprScope width).bind fun w => (exprValue value).map fun s =>
        a.onNumber a.length fun x => i.onNumber a.length fun k => s.onNumber a.length fun y =>
          .ofNat a.length (splicedNumber x k w y)
  | .b2oh index width => (exprValue index).map fun i =>
      i.onNumber (b2ohWidth scope.toExprScope width) fun x =>
        .ofNat (b2ohWidth scope.toExprScope width)
          (b2ohReference (b2ohWidth scope.toExprScope width) x)

def exprValues : List ExprNode → Option (List LogicBits)
  | [] => some []
  | e :: rest => (exprValue e).bind fun v => (exprValues rest).map (v :: ·)

end

end

/-! ## Constants that stay within their widths -/

section

/-- An operator gives the same number in operand widths and in 64 bits. -/
def unaryExact (op : NodeUnaryOp) (w x : ℕ) : Bool :=
  match op with
  | .neg => x = 0
  | .bitNot => w = 64
  | .pos | .logNot => true

def binaryExact (op : NodeBinaryOp) (w x y : ℕ) : Bool :=
  match op with
  | .sub => y ≤ x
  | .shl => y < 64
  | .ashr => x < 2 ^ (w - 1) && x < 2 ^ 63
  | _ => true

/-- A number that fits a width and 64 bits. -/
def fitted (w n : ℕ) : Option (ℕ × ℕ) := if n < 2 ^ w ∧ n < 2 ^ 64 then some (w, n) else none

def exactLiteral (text : List Char) : Option (ℕ × ℕ) :=
  match literalParts text with
  | some (_, base, value) => (digitsNumber base 0 value).bind fun n =>
      if n < 2 ^ 32 then fitted (inferLiteralType text) n else none
  | none => (parseSimpleNonnegativeInt text).bind fun n => fitted n.size n

variable (scope : ObsScope)

/-- A constant that is no signal. -/
def exactName (name : List Char) : Option (ℕ × ℕ) :=
  if '.' ∈ name then
    (scope.globalText name).bind fun text =>
      if (parseLiteralUnsignedValue text).isSome then exactLiteral text else none
  else
    match scope.lookup name with
    | some sym =>
      if sym.kind = .const then
        (scope.evalConst name).bind fun v => (nonnegative v).bind fun n => fitted n.size n
      else none
    | none => none

/-- The width and the number of a constant expression no part of which leaves its width. -/
def exactConst : ExprNode → Option (ℕ × ℕ)
  | .literal text => exactLiteral text
  | .identifier name => exactName scope name
  | .unary op operand => (exactConst operand).bind fun a =>
      if unaryExact op a.1 a.2 then fitted (unaryWidth op a.1) (unaryNumber op a.1 a.2) else none
  | .binary op left right =>
    (exactConst left).bind fun a => (exactConst right).bind fun b =>
      if binaryExact op a.1 a.2 b.2 ∧ ¬ (op.divides = true ∧ b.2 = 0) then
        fitted (binaryPrescribed op a.1) (binaryNumber op a.1 a.2 b.2)
      else none
  | _ => none

mutual

/-- No literal has an `x` or a `z`. -/
def plainLiterals : ExprNode → Bool
  | .literal text => !semLiteralHasXBits text && !semLiteralHasZBits text
  | .specialDriver _ | .identifier _ => true
  | .unary _ operand => plainLiterals operand
  | .binary _ left right | .pair _ left right => plainLiterals left && plainLiterals right
  | .ternary condition trueVal falseVal =>
    plainLiterals condition && plainLiterals trueVal && plainLiterals falseVal
  | .concat elements => plainLiteralsAll elements
  | .replicate count element =>
    !semLiteralHasXBits count && !semLiteralHasZBits count && plainLiterals element
  | .slice base _ _ => plainLiterals base
  | .lit width value => plainLiterals width && plainLiterals value
  | .compileTime _ arg => plainLiterals arg
  | .single _ source => plainLiterals source
  | .gbit source index => plainLiterals source && plainLiterals index
  | .sbit source index set => plainLiterals source && plainLiterals index && plainLiterals set
  | .gslice source index width =>
    plainLiterals source && plainLiterals index && plainLiterals width
  | .sslice source index width value =>
    plainLiterals source && plainLiterals index && plainLiterals width && plainLiterals value
  | .b2oh index width => plainLiterals index && plainLiterals width

def plainLiteralsAll : List ExprNode → Bool
  | [] => true
  | e :: rest => plainLiterals e && plainLiteralsAll rest

end

/-- A GLOBAL constant without `x` and `z`, or any other name. -/
def nameKnown (name : List Char) : Bool :=
  if '.' ∈ name then
    (scope.globalText name).all fun text => !semLiteralHasXBits text && !semLiteralHasZBits text
  else true

/-- An operand without an observable `z`. -/
def operandKnown (e : ExprNode) : Bool := !containsObservable scope semLiteralHasZBits e

mutual

/-- No operator is applied to a `z`, no name stands for an `x`, and a branch with an `x` or `z` is
left out only where the condition stays within its widths. -/
def observesExactly : ExprNode → Bool
  | .literal _ | .specialDriver _ | .lit .. | .compileTime .. => true
  | .identifier name => nameKnown scope name
  | .unary _ operand => observesExactly operand && operandKnown scope operand
  | .binary _ left right | .pair _ left right =>
    observesExactly left && observesExactly right && operandKnown scope left &&
      operandKnown scope right
  | .ternary condition trueVal falseVal =>
    observesExactly condition && operandKnown scope condition &&
      match semExprConstTruthy scope condition with
      | none => observesExactly trueVal && observesExactly falseVal
      | some truthy =>
        ((exactConst scope condition).isSome &&
          if truthy then observesExactly trueVal else observesExactly falseVal) ||
        (plainLiterals trueVal && plainLiterals falseVal && observesExactly trueVal &&
          observesExactly falseVal)
  | .concat elements => observesExactlyAll elements
  | .replicate _ element => observesExactly element
  | .slice base _ _ => observesExactly base
  | .single _ source => observesExactly source && operandKnown scope source
  | .gbit source index | .gslice source index _ =>
    observesExactly source && observesExactly index && operandKnown scope source &&
      operandKnown scope index
  | .sbit source index value | .sslice source index _ value =>
    observesExactly source && observesExactly index && observesExactly value &&
      operandKnown scope source && operandKnown scope index && operandKnown scope value
  | .b2oh index _ => observesExactly index && operandKnown scope index

def observesExactlyAll : List ExprNode → Bool
  | [] => true
  | e :: rest => observesExactly e && observesExactlyAll rest

end

end

end JzHdl

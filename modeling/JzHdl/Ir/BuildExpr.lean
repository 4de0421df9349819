import JzHdl.Sem.ExprType

/-! # Lowering of expressions

The IR of an expression node, with the width that the IR node carries. Building
fails below a nesting limit, on a name that is neither a signal nor a constant,
and on slice bounds that are no constants.
-/

namespace JzHdl

open BitWords

/-- An IR expression with its width, and whether it stands for GND or VCC. -/
structure BuiltExpr where

  ir : IRExpr

  width : ℕ

  polymorphic : Bool

/-- An `unsigned` width as `int`. A negative width counts as none. -/
def intWidth (w : ℕ) : ℕ := if w < 2 ^ 31 then w else 0

def BuiltExpr.node (ir : IRExpr) (width : ℕ) : BuiltExpr := ⟨ir, width, false⟩

def maxIrExprDepth : ℕ := 512

/-! ## Slice bounds -/

/-- `try_fast_const_eval`. -/
def tryFastConstEval : ExprNode → Option ℤ
  | .literal text => (strtolDigits text).map fun n => clampLong n
  | .binary op left right =>
    match tryFastConstEval left, tryFastConstEval right with
    | some l, some r =>
      match op with
      | .add => some (l + r)
      | .sub => some (l - r)
      | .mul => some (l * r)
      | .div => if r = 0 then none else some (l.tdiv r)
      | .mod => if r = 0 then none else some (l.tmod r)
      | _ => none
    | _, _ => none
  | _ => none

def unsignedBound (v : ℤ) : Option ℕ := if 0 ≤ v ∧ v < 2 ^ 32 then some v.toNat else none

section

variable (scope : ExprScope)

/-- `ir_eval_slice_bound`. -/
def irEvalSliceBound (e : ExprNode) : Option ℕ :=
  match e with
  | .literal text => parseSimpleNonnegativeInt text
  | e => ((tryFastConstEval e).bind unsignedBound).or ((evalLitConst scope e).bind unsignedBound)

/-! ## Leaves -/

/-- A name: a signal, or else a constant. -/
def buildIdentifier (name : List Char) (t : ℕ) : Option BuiltExpr :=
  match scope.lookup name with
  | some ⟨.signal, some id, _⟩ => some (.node (.signalRef id (intWidth t)) (intWidth t))
  | some ⟨.signal, none, _⟩ => none
  | _ => (scope.evalConst name).map fun v =>
      let w := if t = 0 then max 1 v.natAbs.size else t
      let word := BitVec.ofInt 64 v
      let masked := if 64 ≤ w then word else word &&& (((1 : Word) <<< w) - 1)
      .node (.literal ⟨Words.set .zero 0 masked, intWidth w, false⟩ (intWidth w)) (intWidth w)

def buildSpecialDriver (vcc : Bool) : BuiltExpr :=
  ⟨.literal ⟨Words.set .zero 0 (if vcc then BitVec.allOnes 64 else 0), 0, false⟩ 0, 0, true⟩

def buildLiteral (text : List Char) (t : ℕ) : BuiltExpr :=
  let evalWidth := fun w => (scope.evalConst w).map fun v => v.toNat % 2 ^ 32
  let ir := irBuildLiteral evalWidth (intWidth t) text
  .node ir (match ir with
    | .literal _ width => width
    | _ => 0)

/-- GND and VCC take the width of a ternary. -/
def BuiltExpr.propagate (b : BuiltExpr) (w : ℕ) : BuiltExpr :=
  if 0 < w ∧ b.width = 0 ∧ b.polymorphic then
    match b.ir with
    | .literal lit _ => ⟨.literal { lit with width := w } w, w, true⟩
    | ir => ⟨ir, w, true⟩
  else b

def buildLit (width value : ExprNode) : Option BuiltExpr :=
  match evalLitConst scope width, evalLitConst scope value with
  | some w, some v =>
    if w ≤ 0 ∨ 2 ^ 31 ≤ w ∨ v < 0 then none
    else
      let word := BitVec.ofInt 64 v
      let masked := if 64 ≤ w then word else word &&& (((1 : Word) <<< w.toNat) - 1)
      some (.node (.literal ⟨Words.set .zero 0 masked, w.toNat, false⟩ w.toNat) w.toNat)
  | _, _ => none

/-! ## Operators -/

def buildUnary (op : NodeUnaryOp) (b : BuiltExpr) (t : ℕ) : BuiltExpr :=
  match op with
  | .pos => b
  | .neg => .node (.unary .neg b.ir (intWidth t)) (intWidth t)
  | .bitNot => .node (.unary .not b.ir (intWidth t)) (intWidth t)
  | .logNot => .node (.unary .logicalNot b.ir (intWidth t)) (intWidth t)

/-- `ir_map_binary_kind`. -/
def irMapBinaryKind : NodeBinaryOp → IRBinaryOp
  | .add => .add
  | .sub => .sub
  | .mul => .mul
  | .div => .div
  | .mod => .mod
  | .bitAnd => .and
  | .bitOr => .or
  | .bitXor => .xor
  | .shl => .shl
  | .shr => .shr
  | .ashr => .ashr
  | .eq => .eq
  | .neq => .neq
  | .lt => .lt
  | .le => .lte
  | .gt => .gt
  | .ge => .gte
  | .logAnd => .logicalAnd
  | .logOr => .logicalOr

def buildPair (op : PairBuiltin) (l r : IRExpr) (w : ℕ) : IRExpr :=
  match op with
  | .uadd => .intrinsic .uadd l r .null 0 w
  | .sadd => .intrinsic .sadd l r .null 0 w
  | .umul => .intrinsic .umul l r .null 0 w
  | .smul => .intrinsic .smul l r .null 0 w
  | .usub => .binary .usub l r w
  | .ssub => .binary .ssub l r w
  | .umin => .binary .umin l r w
  | .umax => .binary .umax l r w
  | .smin => .binary .smin l r w
  | .smax => .binary .smax l r w

def SingleBuiltin.intrinsicOp : SingleBuiltin → IRIntrinsicOp
  | .oh2b => .oh2b
  | .prienc => .prienc
  | .lzc => .lzc
  | .abs => .abs
  | .popcount => .popcount
  | .reverse => .reverse
  | .bswap => .bswap
  | .reduceAnd => .reduceAnd
  | .reduceOr => .reduceOr
  | .reduceXor => .reduceXor

/-- The element width of `gslice`: the argument, or else the width of the source. -/
def gsliceWidth (src : BuiltExpr) (width : ExprNode) : ℕ :=
  let ew := (irEvalSliceBound scope width).elim 0 intWidth
  if ew = 0 then src.width else ew

/-- The identifier `-1`. -/
def noSignalId : ℕ := 2 ^ 32 - 1

/-- A slice of a name; any symbol will do. -/
def buildSignalSlice (name : List Char) (bounds : ℕ × ℕ) (t : ℕ) : Option BuiltExpr :=
  (scope.lookup name).map fun sym =>
    .node (.slice (sym.id.getD noSignalId) bounds.1 bounds.2 (intWidth t)) (intWidth t)

def sliceBounds (msb lsb : ExprNode) : Option (ℕ × ℕ) :=
  match irEvalSliceBound scope msb, irEvalSliceBound scope lsb with
  | some m, some l => some (m, l)
  | _, _ => none

mutual

/-- `ir_build_expr` below a number of enclosing expressions. -/
def irBuildNode (depth : ℕ) : ExprNode → Option BuiltExpr
  | .literal text =>
      if maxIrExprDepth ≤ depth then none
      else some (buildLiteral scope text (inferExprType scope (.literal text)))
  | .specialDriver vcc => if maxIrExprDepth ≤ depth then none else some (buildSpecialDriver vcc)
  | .identifier name =>
      if maxIrExprDepth ≤ depth then none
      else buildIdentifier scope name (inferExprType scope (.identifier name))
  | .unary op operand =>
      if maxIrExprDepth ≤ depth then none
      else (irBuildNode (depth + 1) operand).map fun b =>
        buildUnary op b (inferExprType scope (.unary op operand))
  | .binary op left right =>
      if maxIrExprDepth ≤ depth then none
      else
        match irBuildNode (depth + 1) left, irBuildNode (depth + 1) right with
        | some l, some r =>
          let w := intWidth (inferExprType scope (.binary op left right))
          some (.node (.binary (irMapBinaryKind op) l.ir r.ir w) w)
        | _, _ => none
  | .ternary condition trueVal falseVal =>
      if maxIrExprDepth ≤ depth then none
      else
        match irBuildNode (depth + 1) condition, irBuildNode (depth + 1) trueVal,
          irBuildNode (depth + 1) falseVal with
        | some c, some t, some f =>
          let w := intWidth (inferExprType scope (.ternary condition trueVal falseVal))
          some (.node (.ternary c.ir (t.propagate w).ir (f.propagate w).ir) w)
        | _, _, _ => none
  | .concat elements =>
      if maxIrExprDepth ≤ depth ∨ elements = [] then none
      else (irBuildNodes (depth + 1) elements).map fun bs =>
        .node (.concat (bs.map BuiltExpr.ir)) (intWidth (inferExprType scope (.concat elements)))
  | .replicate count element =>
      if maxIrExprDepth ≤ depth + 1 then none
      else (irBuildNode (depth + 1) element).map fun b =>
        .node (.concat [(buildLiteral scope count (inferLiteralType count)).ir, b.ir])
          (intWidth (inferExprType scope (.replicate count element)))
  | .slice base msb lsb =>
      if maxIrExprDepth ≤ depth then none
      else
        (sliceBounds scope msb lsb).bind fun bounds =>
          match base with
          | .identifier name =>
            buildSignalSlice scope name bounds (inferExprType scope (.slice base msb lsb))
          | base => (irBuildNode (depth + 1) base).map fun b =>
              .node (.sliceExpr b.ir bounds.1 bounds.2) (intWidth (bounds.1 + 1 - bounds.2))
  | .lit width value => if maxIrExprDepth ≤ depth then none else buildLit scope width value
  | .compileTime .. => none
  | .pair op left right =>
      if maxIrExprDepth ≤ depth then none
      else
        match irBuildNode (depth + 1) left, irBuildNode (depth + 1) right with
        | some l, some r =>
          let w := intWidth (inferExprType scope (.pair op left right))
          some (.node (buildPair op l.ir r.ir w) w)
        | _, _ => none
  | .single op source =>
      if maxIrExprDepth ≤ depth then none
      else (irBuildNode (depth + 1) source).map fun b =>
        let w := intWidth (inferExprType scope (.single op source))
        .node (.intrinsic op.intrinsicOp b.ir .null .null 0 w) w
  | .gbit source index =>
      if maxIrExprDepth ≤ depth then none
      else
        match irBuildNode (depth + 1) source, irBuildNode (depth + 1) index with
        | some b, some i =>
          let w := intWidth (inferExprType scope (.gbit source index))
          some (.node (.intrinsic .gbit b.ir i.ir .null 1 w) w)
        | _, _ => none
  | .sbit source index set =>
      if maxIrExprDepth ≤ depth then none
      else
        match irBuildNode (depth + 1) source, irBuildNode (depth + 1) index,
          irBuildNode (depth + 1) set with
        | some b, some i, some v =>
          let w := intWidth (inferExprType scope (.sbit source index set))
          some (.node (.intrinsic .sbit b.ir i.ir v.ir 1 w) w)
        | _, _, _ => none
  | .gslice source index width =>
      if maxIrExprDepth ≤ depth then none
      else
        match irBuildNode (depth + 1) source, irBuildNode (depth + 1) index with
        | some b, some i =>
          let ew := gsliceWidth scope b width
          some (.node (.intrinsic .gslice b.ir i.ir .null ew ew) ew)
        | _, _ => none
  | .sslice source index width value =>
      if maxIrExprDepth ≤ depth then none
      else
        match irBuildNode (depth + 1) source, irBuildNode (depth + 1) index,
          irBuildNode (depth + 1) value with
        | some b, some i, some v =>
          let w := intWidth (inferExprType scope (.sslice source index width value))
          some (.node (.intrinsic .sslice b.ir i.ir v.ir w w) w)
        | _, _, _ => none
  | .b2oh index width =>
      if maxIrExprDepth ≤ depth then none
      else (irBuildNode (depth + 1) index).map fun b =>
        let w := intWidth (inferExprType scope (.b2oh index width))
        .node (.intrinsic .b2oh b.ir .null .null w w) w

/-- The elements of a concatenation, all of them. -/
def irBuildNodes (depth : ℕ) : List ExprNode → Option (List BuiltExpr)
  | [] => some []
  | e :: rest =>
    match irBuildNode depth e, irBuildNodes depth rest with
    | some b, some bs => some (b :: bs)
    | _, _ => none

end

/-- Nothing is built below the nesting limit. -/
theorem irBuildNode_too_deep {depth : ℕ} (h : maxIrExprDepth ≤ depth) (e : ExprNode) :
    irBuildNode scope depth e = none := by
  cases e with
  | concat es => rw [irBuildNode, if_pos (.inl h)]
  | replicate count e => rw [irBuildNode, if_pos (by omega)]
  | compileTime isClog2 arg => rw [irBuildNode]
  | _ => rw [irBuildNode, if_pos h]

end

end JzHdl

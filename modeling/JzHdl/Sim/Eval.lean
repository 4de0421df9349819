import JzHdl.Sim.State

/-! # Expression evaluation

The value of an expression in a context, and whether evaluating it raises the
runtime error of an unknown ternary condition.
-/

namespace JzHdl

open BitWords

def intMax : ℕ := 2 ^ 31 - 1

def simValueToIndex (v : SimValue) : Option ℕ :=
  match simValToSmallUint v with
  | none => none
  | some raw => if intMax < raw.toNat then none else some raw.toNat

def simValueToMemIndex (v : SimValue) (depth : ℕ) : Option ℕ :=
  match simValueToIndex v with
  | none => none
  | some i => if depth ≤ i then none else some i

def simValueFromIndex (value width : ℕ) : SimValue :=
  simValMask ((List.range 32).foldl (fun r bit =>
    if (BitVec.ofNat 32 value).getLsbD bit then simValSetBit r bit true else r) (simValZero width))

def simValueAbs (src : SimValue) (resultW : ℕ) : SimValue :=
  let srcW := if 0 < src.width then src.width else 1
  let negative := simValGetBit src (srcW - 1)
  let magnitude := if negative then simValNeg src else src
  let extended := simValZext magnitude (max resultW srcW)
  let trimmed := simValMask { extended with width := resultW }
  let mostNeg := simValSetBit (simValZero srcW) (srcW - 1) true
  if negative && (simValEqual (simValMask src) mostNeg && 0 < resultW) then
    simValMask (simValSetBit trimmed (resultW - 1) true)
  else simValMask trimmed

def simValueSignedChoice (a b : SimValue) (pickMin : Bool) (resultW : ℕ) : SimValue :=
  let width := max a.width b.width
  let signA := simValGetBit a (a.width - 1)
  let signB := simValGetBit b (b.width - 1)
  let a' := simValSext a width
  let b' := simValSext b width
  let aLtB := simValIsTrue (simValLt a' b') == some true
  let pickA := if signA != signB then (if pickMin then signA else !signA)
    else (if pickMin then aLtB else !aLtB)
  simValMask { (if pickA then a' else b') with width := resultW }

/-- The expression's own width, or a default when it is not positive. -/
def widthOr (width dflt : ℕ) : ℕ := if 0 < width then width else dflt

def evalLiteral (lit : IRLiteral) (width : ℕ) : SimValue :=
  let v := if lit.isZ then simValAllZ lit.width else simValFromWords lit.words lit.width
  if v.width = 0 then { v with width := widthOr width 1 } else v

def evalUnary (op : IRUnaryOp) (width : ℕ) (v : SimValue) : SimValue :=
  match op with
  | .not => let r := simValNot v; { r with width := widthOr width r.width }
  | .neg => let r := simValNeg v; { r with width := widthOr width r.width }
  | .logicalNot => simValLogicalNot v

/-- Force the expression's width on a result and mask it. -/
def fitWidth (width : ℕ) (r : SimValue) : SimValue :=
  simValMask { r with width := widthOr width r.width }

def setWidth (width : ℕ) (r : SimValue) : SimValue := { r with width := widthOr width r.width }

def evalMinMax (l r : SimValue) (width : ℕ) (choose : ℕ → SimValue) : SimValue :=
  if simValHasXz l || simValHasXz r then simValAllX (widthOr width 1) else choose (widthOr width 1)

def evalBinary (op : IRBinaryOp) (width : ℕ) (l r : SimValue) : SimValue :=
  match op with
  | .add => fitWidth width (simValAdd l r)
  | .sub | .usub | .ssub => fitWidth width (simValSub l r)
  | .mul => fitWidth width (simValMul l r)
  | .div => fitWidth width (simValDiv l r)
  | .mod => fitWidth width (simValMod l r)
  | .and => setWidth width (simValAnd l r)
  | .or => setWidth width (simValOr l r)
  | .xor => setWidth width (simValXor l r)
  | .shl => fitWidth width (simValShl l r)
  | .shr => fitWidth width (simValShr l r)
  | .ashr => fitWidth width (simValAshr l r)
  | .eq => simValEq l r
  | .neq => simValNeq l r
  | .lt => simValLt l r
  | .gt => simValGt l r
  | .lte => simValLte l r
  | .gte => simValGte l r
  | .logicalAnd => simValLogicalAnd l r
  | .logicalOr => simValLogicalOr l r
  | .umin => evalMinMax l r width fun w =>
      simValMask { (if simValIsTrue (simValLt l r) == some true then l else r) with width := w }
  | .umax => evalMinMax l r width fun w =>
      simValMask { (if simValIsTrue (simValLt l r) == some true then r else l) with width := w }
  | .smin => evalMinMax l r width fun w => simValueSignedChoice l r true w
  | .smax => evalMinMax l r width fun w => simValueSignedChoice l r false w

/-- Replace one bit of all three masks by bit 0 of another value. -/
def insertBit (src val : SimValue) (bit : ℕ) : SimValue :=
  let oneBit := simValSlice val 0 0
  { src with
    val := src.val.setBit bit (simValGetBit oneBit 0)
    xmask := src.xmask.setBit bit (oneBit.xmask.bit 0)
    zmask := src.zmask.setBit bit (oneBit.zmask.bit 0) }

/-- Overwrite `ew` bits from `lo` by shifting, masking and or-ing. -/
def insertSlice (src val : SimValue) (lo ew : ℕ) : SimValue :=
  let sliceVal := if ew = 0 then simValZero 1 else simValSlice val (ew - 1) 0
  let shiftAmt := simValFromUint (BitVec.ofNat 64 lo) 32
  let shiftedVal := simValShl (simValZext sliceVal src.width) shiftAmt
  let shiftedMask := simValShl (simValZext (simValOnes ew) src.width) shiftAmt
  simValOr (simValAnd src (simValNot shiftedMask)) shiftedVal

def bitIndices (v : SimValue) : List ℕ := (List.range v.width).filter fun i => simValGetBit v i

/-- Evaluate an intrinsic whose result is unknown as soon as its source has an `x` or `z`. -/
def evalKnown (src : SimValue) (width : ℕ) (f : ℕ → SimValue) : SimValue :=
  if simValHasXz src then simValAllX (widthOr width 1) else f (widthOr width 1)

def evalIntrinsic (op : IRIntrinsicOp) (ew width : ℕ) (src idx val : SimValue) : SimValue :=
  match op with
  | .uadd | .sadd => fitWidth width (simValAdd src idx)
  | .umul | .smul => fitWidth width (simValMul src idx)
  | .gbit =>
    if simValHasXz idx then simValAllX 1
    else match simValueToIndex idx with
      | none => simValZero 1
      | some bit => if src.width ≤ bit then simValZero 1 else simValSlice src bit bit
  | .sbit =>
    if simValHasXz idx then simValAllX src.width
    else match simValueToIndex idx with
      | none => src
      | some bit => if src.width ≤ bit then src else insertBit src val bit
  | .gslice =>
    let ew := if ew = 0 then widthOr width 1 else ew
    if simValHasXz idx then simValAllX ew
    else match simValueToIndex idx with
      | none => simValAllX ew
      | some elemIdx =>
        if src.width < elemIdx * ew + ew then simValAllX ew
        else simValSlice src (elemIdx * ew + ew - 1) (elemIdx * ew)
  | .sslice =>
    if simValHasXz idx then simValAllX src.width
    else match simValueToIndex idx with
      | none => src
      | some lo => if src.width < lo + ew then src else insertSlice src val lo ew
  | .oh2b => evalKnown src width fun w =>
      simValueFromIndex ((bitIndices src).foldl (fun _ i => i) 0) w
  | .b2oh => evalKnown src width fun w =>
      match simValueToIndex src with
      | some bit => if bit < w then simValSetBit (simValZero w) bit true else simValZero w
      | none => simValZero w
  | .prienc => evalKnown src width fun w =>
      simValueFromIndex ((bitIndices src).getLastD 0) w
  | .lzc => evalKnown src width fun w =>
      simValueFromIndex (match (bitIndices src).getLast? with
        | some i => src.width - 1 - i
        | none => src.width) w
  | .abs => evalKnown src width fun w => simValueAbs src w
  | .popcount => evalKnown src width fun w => simValueFromIndex (bitIndices src).length w
  | .reverse => evalKnown src width fun _ =>
      let w := widthOr src.width 1
      (bitIndices src).foldl (fun r i => simValSetBit r (w - 1 - i) true) (simValZero w)
  | .bswap => evalKnown src width fun _ =>
      let w := widthOr src.width 8
      (bitIndices src).foldl (fun r i =>
        if i / 8 < w / 8 then simValSetBit r ((w / 8 - 1 - i / 8) * 8 + i % 8) true else r)
        (simValZero w)
  | .reduceAnd => if simValHasXz src then simValAllX 1 else simValEq src (simValOnes src.width)
  | .reduceOr => if simValHasXz src then simValAllX 1 else simValNeq src (simValZero src.width)
  | .reduceXor => if simValHasXz src then simValAllX 1
      else cmpResult ((bitIndices src).length % 2 == 1)

namespace IRIntrinsicOp

def usesIndex : IRIntrinsicOp → Bool
  | .uadd | .sadd | .umul | .smul | .gbit | .sbit | .gslice | .sslice => true
  | _ => false

def usesValue : IRIntrinsicOp → Bool
  | .sbit | .sslice => true
  | _ => false

end IRIntrinsicOp

section

variable (m : IRModule) (s : CtxState)

def evalSignal (signalId width : ℕ) : SimValue :=
  match m.sigIndex signalId with
  | none => simValAllX (widthOr width 1)
  | some i => (s.signals i).current

def evalMemRead (memoryName : String) (width : ℕ) (addr : SimValue) : SimValue :=
  match m.memOf memoryName with
  | none => simValAllX (widthOr width 1)
  | some (i, mem) =>
    if simValHasXz addr then simValAllX mem.wordWidth
    else match simValueToMemIndex addr mem.depth with
      | none => simValAllX mem.wordWidth
      | some a => s.cells i a

mutual

def simEvalExpr : IRExpr → SimValue
  | .null => simValAllX 1
  | .literal lit width => evalLiteral lit width
  | .signalRef signalId width => evalSignal m s signalId width
  | .unary op operand width => evalUnary op width (simEvalExpr operand)
  | .binary op left right width => evalBinary op width (simEvalExpr left) (simEvalExpr right)
  | .ternary condition trueVal falseVal =>
      simValTernary (simEvalExpr condition) (simEvalExpr trueVal) (simEvalExpr falseVal)
  | .concat operands => simValConcat ((simEvalExprs operands).take 64)
  | .slice signalId msb lsb width =>
      match m.sigIndex signalId with
      | none => simValAllX (widthOr width 1)
      | some i => simValSlice (s.signals i).current msb lsb
  | .sliceExpr baseExpr msb lsb => simValSlice (simEvalExpr baseExpr) msb lsb
  | .intrinsic op source index value elementWidth width =>
      evalIntrinsic op elementWidth width (simEvalExpr source) (simEvalExpr index)
        (simEvalExpr value)
  | .memRead memoryName address width => evalMemRead m s memoryName width (simEvalExpr address)

def simEvalExprs : List IRExpr → List SimValue
  | [] => []
  | e :: rest => simEvalExpr e :: simEvalExprs rest

end

mutual

/-- Whether evaluation meets a ternary condition that is `x` or `z`, the runtime error SE-008. -/
def simEvalRaises : IRExpr → Bool
  | .null | .literal .. | .signalRef .. | .slice .. => false
  | .unary _ operand _ => simEvalRaises operand
  | .binary _ left right _ => simEvalRaises left || simEvalRaises right
  | .ternary condition trueVal falseVal =>
      simEvalRaises condition || simEvalRaises trueVal || simEvalRaises falseVal ||
        simValHasXz (simEvalExpr m s condition)
  | .concat operands => ((simEvalRaisesEach operands).take 64).any id
  | .sliceExpr baseExpr _ _ => simEvalRaises baseExpr
  | .intrinsic op source index value _ _ =>
      simEvalRaises source || (op.usesIndex && simEvalRaises index) ||
        (op.usesValue && simEvalRaises value)
  | .memRead memoryName address _ => (m.memIndex memoryName).isSome && simEvalRaises address

def simEvalRaisesEach : List IRExpr → List Bool
  | [] => []
  | e :: rest => simEvalRaises e :: simEvalRaisesEach rest

end

end

end JzHdl

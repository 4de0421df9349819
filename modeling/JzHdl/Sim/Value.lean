import JzHdl.Lib.Words
import Mathlib.Algebra.GroupWithZero.Nat

/-! # Four-state simulation values

A value holds up to 256 bits in four words of known bits and two masks for `x`
and `z`. Every operation works word by word, as the simulator does.
-/

namespace JzHdl

open BitWords

abbrev SimWords := Words 4

/-- A value and its logical width. Nothing forces the bits above the width to be clear. -/
structure SimValue where

  val : SimWords

  xmask : SimWords

  zmask : SimWords

  width : ℕ

/-- Values are compared word by word, so that a comparison evaluates. -/
instance : DecidableEq SimValue := fun a b =>
  decidable_of_iff ((a.width == b.width && a.val.sameB b.val && a.xmask.sameB b.xmask &&
      a.zmask.sameB b.zmask) = true) <| by
    cases a; cases b
    simp only [SimValue.mk.injEq, Bool.and_eq_true, beq_iff_eq, Words.sameB_iff]
    tauto

def simValWords : ℕ := 4

def numWords (w : ℕ) : ℕ := if w = 0 then 1 else (w + 63) / 64

def topWordMask (w : ℕ) : Word :=
  if w = 0 then 0
  else
    let bitsInTop := (w - 1) % 64 + 1
    if bitsInTop = 64 then BitVec.allOnes 64 else ((1 : Word) <<< bitsInTop) - 1

def wordMask (w wi : ℕ) : Word :=
  if numWords w ≤ wi then 0
  else if wi < numWords w - 1 then BitVec.allOnes 64
  else topWordMask w

def widthOnes (w : ℕ) : SimWords := Words.ofFn (wordMask w)

def simValZero (width : ℕ) : SimValue := ⟨.zero, .zero, .zero, width⟩

def simValOnes (width : ℕ) : SimValue := ⟨widthOnes width, .zero, .zero, width⟩

def simValFromUint (val : Word) (width : ℕ) : SimValue :=
  let v := if 0 < width ∧ width ≤ 64 then
      val &&& (if width = 64 then BitVec.allOnes 64 else ((1 : Word) <<< width) - 1)
    else val
  ⟨Words.set .zero 0 v, .zero, .zero, width⟩

def maskWords (w : ℕ) (ws : SimWords) : SimWords :=
  Words.ofFn fun i =>
    if i < numWords w - 1 then ws.get i
    else if i = numWords w - 1 then ws.get i &&& topWordMask w
    else 0

def simValMask (v : SimValue) : SimValue :=
  ⟨maskWords v.width v.val, maskWords v.width v.xmask, maskWords v.width v.zmask, v.width⟩

def simValFromWords (words : SimWords) (width : ℕ) : SimValue :=
  simValMask ⟨words, .zero, .zero, width⟩

def simValAllX (width : ℕ) : SimValue := ⟨.zero, widthOnes width, .zero, width⟩

def simValAllZ (width : ℕ) : SimValue := ⟨.zero, .zero, widthOnes width, width⟩

def simValGetBit (v : SimValue) (bit : ℕ) : Bool :=
  if bit < v.width then v.val.bit bit else false

def simValSetBit (v : SimValue) (bit : ℕ) (b : Bool) : SimValue :=
  if bit < v.width then { v with val := v.val.setBit bit b } else v

def simValHasXz (v : SimValue) : Bool :=
  (List.range (numWords v.width)).any fun i =>
    (v.xmask.get i ||| v.zmask.get i) &&& wordMask v.width i != 0

def simValIsAllZ (v : SimValue) : Bool :=
  (List.range (numWords v.width)).all fun i =>
    v.zmask.get i &&& wordMask v.width i == wordMask v.width i &&
      v.xmask.get i &&& wordMask v.width i == 0

/-- The truth of a value; `none` stands for the source's `-1`. -/
def simValIsTrue (v : SimValue) : Option Bool :=
  if simValHasXz v then none
  else some ((List.range (numWords v.width)).any fun i =>
    v.val.get i &&& wordMask v.width i != 0)

def simValEqual (a b : SimValue) : Bool :=
  a.width == b.width && (List.range (numWords a.width)).all fun i =>
    let m := wordMask a.width i
    a.val.get i &&& m == b.val.get i &&& m && a.xmask.get i &&& m == b.xmask.get i &&& m &&
      a.zmask.get i &&& m == b.zmask.get i &&& m

/-! ## Arithmetic -/

/-- One carry-chain iteration: the words written so far and the carry into the next word. -/
def addStep (a b : SimWords) (rw : ℕ) (acc : SimWords × Word) (i : ℕ) : SimWords × Word :=
  let av := a.get i &&& wordMask rw i
  let bv := b.get i &&& wordMask rw i
  let sum := av + bv
  let sum2 := sum + acc.2
  (acc.1.set i sum2, if sum < av ∨ sum2 < sum then 1 else 0)

def simValAdd (a b : SimValue) : SimValue :=
  let rw := max a.width b.width
  if simValHasXz a || simValHasXz b then simValAllX rw
  else
    let r := (List.range (numWords rw)).foldl (addStep a.val b.val rw) (.zero, 0)
    simValMask ⟨r.1, .zero, .zero, rw⟩

def subStep (a b : SimWords) (rw : ℕ) (acc : SimWords × Word) (i : ℕ) : SimWords × Word :=
  let av := a.get i &&& wordMask rw i
  let bv := b.get i &&& wordMask rw i
  let subtrahend := bv + acc.2
  (acc.1.set i (av - subtrahend), if subtrahend < bv ∨ av < subtrahend then 1 else 0)

def simValSub (a b : SimValue) : SimValue :=
  let rw := max a.width b.width
  if simValHasXz a || simValHasXz b then simValAllX rw
  else
    let r := (List.range (numWords rw)).foldl (subStep a.val b.val rw) (.zero, 0)
    simValMask ⟨r.1, .zero, .zero, rw⟩

/-! ## Bitwise operations -/

def simValAnd (a b : SimValue) : SimValue :=
  let rw := max a.width b.width
  let xz (v : SimValue) (i : ℕ) := (v.xmask.get i ||| v.zmask.get i) &&& wordMask rw i
  let knownZero (v : SimValue) (i : ℕ) := ~~~v.val.get i &&& ~~~xz v i &&& wordMask rw i
  let resultX (i : ℕ) :=
    (xz a i ||| xz b i) &&& ~~~(knownZero a i ||| knownZero b i) &&& wordMask rw i
  ⟨Words.ofFn fun i => if i < numWords rw then
      a.val.get i &&& b.val.get i &&& wordMask rw i &&& ~~~resultX i else 0,
    Words.ofFn fun i => if i < numWords rw then resultX i else 0, .zero, rw⟩

def simValOr (a b : SimValue) : SimValue :=
  let rw := max a.width b.width
  let xz (v : SimValue) (i : ℕ) := (v.xmask.get i ||| v.zmask.get i) &&& wordMask rw i
  let knownOne (v : SimValue) (i : ℕ) := v.val.get i &&& ~~~xz v i &&& wordMask rw i
  let forceOne (i : ℕ) := knownOne a i ||| knownOne b i
  let resultX (i : ℕ) := (xz a i ||| xz b i) &&& ~~~forceOne i &&& wordMask rw i
  ⟨Words.ofFn fun i => if i < numWords rw then
      ((a.val.get i ||| b.val.get i) &&& wordMask rw i ||| forceOne i) &&& ~~~resultX i else 0,
    Words.ofFn fun i => if i < numWords rw then resultX i else 0, .zero, rw⟩

def simValXor (a b : SimValue) : SimValue :=
  let rw := max a.width b.width
  let anyXz (i : ℕ) :=
    (a.xmask.get i ||| a.zmask.get i ||| b.xmask.get i ||| b.zmask.get i) &&& wordMask rw i
  ⟨Words.ofFn fun i => if i < numWords rw then
      (a.val.get i ^^^ b.val.get i) &&& wordMask rw i &&& ~~~anyXz i else 0,
    Words.ofFn fun i => if i < numWords rw then anyXz i else 0, .zero, rw⟩

def simValNot (a : SimValue) : SimValue :=
  let xz (i : ℕ) := (a.xmask.get i ||| a.zmask.get i) &&& wordMask a.width i
  ⟨Words.ofFn fun i => if i < numWords a.width then
      ~~~a.val.get i &&& wordMask a.width i &&& ~~~xz i else 0,
    Words.ofFn fun i => if i < numWords a.width then xz i else 0, .zero, a.width⟩

def simValNeg (a : SimValue) : SimValue :=
  if simValHasXz a then simValAllX a.width
  else simValAdd (simValNot a) ⟨Words.set .zero 0 1, .zero, .zero, a.width⟩

/-! ## Shifts -/

def simValToSmallUint (v : SimValue) : Option Word :=
  if simValHasXz v then none
  else if (List.range' 1 (numWords v.width - 1)).any fun i => v.val.get i != 0 then none
  else some (v.val.get 0)

/-- Word `i` of a left shift by `s` bits over `nw` words. -/
def shlWord (ws : SimWords) (nw s i : ℕ) : Word :=
  let src (j : ℕ) : Word := if s / 64 + j ≤ i ∧ i - (s / 64 + j) < nw
    then ws.get (i - (s / 64 + j)) else 0
  if s % 64 = 0 then src 0 else (src 0 <<< (s % 64)) ||| (src 1 >>> (64 - s % 64))

/-- Word `i` of a right shift by `s` bits over `nw` words. -/
def shrWord (ws : SimWords) (nw s i : ℕ) : Word :=
  let src (j : ℕ) : Word := if i + s / 64 + j < nw then ws.get (i + s / 64 + j) else 0
  if s % 64 = 0 then src 0 else (src 0 >>> (s % 64)) ||| (src 1 <<< (64 - s % 64))

def simValShl (a b : SimValue) : SimValue :=
  if simValHasXz a || simValHasXz b then simValAllX a.width
  else match simValToSmallUint b with
    | none => simValZero a.width
    | some shift =>
      if a.width ≤ shift.toNat then simValZero a.width
      else
        let nw := numWords a.width
        simValMask ⟨Words.ofFn fun i => if i < nw then shlWord a.val nw shift.toNat i else 0,
          .zero, .zero, a.width⟩

def simValShr (a b : SimValue) : SimValue :=
  if simValHasXz a || simValHasXz b then simValAllX a.width
  else match simValToSmallUint b with
    | none => simValZero a.width
    | some shift =>
      if a.width ≤ shift.toNat then simValZero a.width
      else
        let nw := numWords a.width
        let am := simValMask a
        simValMask ⟨Words.ofFn fun i => if i < nw then shrWord am.val nw shift.toNat i else 0,
          .zero, .zero, a.width⟩

/-- Set `len` bits of a word vector from position `lo` upwards. -/
def fillBits (ws : SimWords) (lo len : ℕ) : SimWords :=
  (List.range' lo len).foldl (fun acc k => acc.setBit k true) ws

def simValAshr (a b : SimValue) : SimValue :=
  if simValHasXz a || simValHasXz b then simValAllX a.width
  else
    let signBit := simValGetBit a (a.width - 1)
    let filled := if signBit then simValOnes a.width else simValZero a.width
    match simValToSmallUint b with
    | none => filled
    | some shift =>
      if a.width ≤ shift.toNat then filled
      else
        let r := simValShr a b
        if signBit && 0 < shift.toNat then
          { r with val := fillBits r.val (a.width - shift.toNat) shift.toNat }
        else r

def simValShiftLeftBits (v : SimValue) (shift width : ℕ) : SimValue :=
  simValShl { v with width } (simValFromUint (BitVec.ofNat 64 shift) 32)

/-! ## Multiplication and division -/

def simValMul (a b : SimValue) : SimValue :=
  let rw := max a.width b.width
  if simValHasXz a || simValHasXz b then simValAllX rw
  else
    let r := (List.range rw).foldl (fun r bit =>
      if simValGetBit b bit then simValAdd r (simValShiftLeftBits a bit rw) else r) (simValZero rw)
    simValMask { r with width := rw }

/-- Unsigned comparison of the words a width covers, most significant word first. -/
def simValUcmp (a b : SimValue) (width : ℕ) : Ordering :=
  (List.range (numWords width)).reverse.foldl (fun acc i =>
    acc.then (compare (a.val.get i &&& wordMask width i).toNat
      (b.val.get i &&& wordMask width i).toNat)) .eq

/-- One bit of the restoring division: quotient and remainder so far. -/
def divmodStep (a b : SimValue) (width : ℕ) (acc : SimValue × SimValue) (bit : ℕ) :
    SimValue × SimValue :=
  let shifted := simValShiftLeftBits acc.2 1 width
  let remainder := simValSetBit shifted 0 (simValGetBit a bit)
  if simValUcmp remainder b width = .lt then (acc.1, remainder)
  else
    (simValSetBit acc.1 bit true, simValMask { simValSub remainder b with width })

def simValUnsignedDivmod (a b : SimValue) (width : ℕ) (wantRemainder : Bool) : SimValue :=
  let r := (List.range width).reverse.foldl (divmodStep a b width)
    (simValZero width, simValZero width)
  simValMask { (if wantRemainder then r.2 else r.1) with width }

def simValDivmod (wantRemainder : Bool) (a b : SimValue) : SimValue :=
  let rw := max a.width b.width
  if simValHasXz a || simValHasXz b then simValAllX rw
  else
    let am := simValMask { a with width := rw }
    let bm := simValMask { b with width := rw }
    if simValUcmp bm (simValZero rw) rw = .eq then simValAllX rw
    else simValUnsignedDivmod am bm rw wantRemainder

def simValDiv (a b : SimValue) : SimValue := simValDivmod false a b

def simValMod (a b : SimValue) : SimValue := simValDivmod true a b

/-! ## Comparison and logic -/

def cmpResult (result : Bool) : SimValue :=
  ⟨Words.set .zero 0 (if result then 1 else 0), .zero, .zero, 1⟩

def cmpX : SimValue := simValAllX 1

def wordsAgree (a b : SimValue) (w : ℕ) : Bool :=
  (List.range (numWords w)).all fun i =>
    a.val.get i &&& wordMask w i == b.val.get i &&& wordMask w i

def simValEq (a b : SimValue) : SimValue :=
  if simValHasXz a || simValHasXz b then cmpX
  else cmpResult (wordsAgree a b (max a.width b.width))

def simValNeq (a b : SimValue) : SimValue :=
  if simValHasXz a || simValHasXz b then cmpX
  else cmpResult (!wordsAgree a b (max a.width b.width))

def simValLt (a b : SimValue) : SimValue :=
  if simValHasXz a || simValHasXz b then cmpX
  else cmpResult (simValUcmp a b (max a.width b.width) == .lt)

def simValGt (a b : SimValue) : SimValue := simValLt b a

def simValLte (a b : SimValue) : SimValue :=
  if simValHasXz a || simValHasXz b then cmpX
  else cmpResult (simValUcmp a b (max a.width b.width) != .gt)

def simValGte (a b : SimValue) : SimValue := simValLte b a

def simValLogicalAnd (a b : SimValue) : SimValue :=
  match simValIsTrue a, simValIsTrue b with
  | some false, _ => cmpResult false
  | _, some false => cmpResult false
  | none, _ => cmpX
  | _, none => cmpX
  | some true, some true => cmpResult true

def simValLogicalOr (a b : SimValue) : SimValue :=
  match simValIsTrue a, simValIsTrue b with
  | some true, _ => cmpResult true
  | _, some true => cmpResult true
  | none, _ => cmpX
  | _, none => cmpX
  | some false, some false => cmpResult false

def simValLogicalNot (a : SimValue) : SimValue :=
  match simValIsTrue a with
  | none => cmpX
  | some b => cmpResult (!b)

/-! ## Concatenation, slices, selection and extension -/

def orWord (ws : SimWords) (i : ℕ) (w : Word) : SimWords := ws.set i (ws.get i ||| w)

/-- Or the words of one concatenation element into the result at bit offset `shift`. -/
def concatWords (width shift : ℕ) (src dst : SimWords) : SimWords :=
  (List.range (numWords width)).foldl (fun acc si =>
    let b := src.get si &&& wordMask width si
    let bitBase := shift + si * 64
    let low := orWord acc (bitBase / 64) (b <<< (bitBase % 64))
    if 0 < bitBase % 64 then orWord low (bitBase / 64 + 1) (b >>> (64 - bitBase % 64)) else low) dst

def concatStep (v : SimValue) (acc : SimValue × ℕ) : SimValue × ℕ :=
  ({ acc.1 with
      val := concatWords v.width acc.2 v.val acc.1.val
      xmask := concatWords v.width acc.2 v.xmask acc.1.xmask
      zmask := concatWords v.width acc.2 v.zmask acc.1.zmask }, acc.2 + v.width)

/-- Concatenate values, the first one most significant, capped at 256 bits. -/
def simValConcat (vals : List SimValue) : SimValue :=
  let total := min (vals.map SimValue.width).sum (simValWords * 64)
  simValMask (vals.foldr concatStep (simValZero total, 0)).1

def sliceWords (rw lsb : ℕ) (ws : SimWords) : SimWords :=
  Words.ofFn fun ri =>
    let srcBit := lsb + ri * 64
    let low := ws.get (srcBit / 64) >>> (srcBit % 64)
    if ri < numWords rw then
      if 0 < srcBit % 64 then low ||| (ws.get (srcBit / 64 + 1) <<< (64 - srcBit % 64)) else low
    else 0

def simValSlice (v : SimValue) (msb lsb : ℕ) : SimValue :=
  let rw := msb + 1 - lsb
  if rw = 0 then simValZero 1
  else simValMask ⟨sliceWords rw lsb v.val, sliceWords rw lsb v.xmask, sliceWords rw lsb v.zmask, rw⟩

def simValTernary (cond t f : SimValue) : SimValue :=
  match simValIsTrue cond with
  | some true => t
  | some false => f
  | none =>
    let rw := max t.width f.width
    let differ (i : ℕ) := (t.val.get i ^^^ f.val.get i ||| t.xmask.get i ||| f.xmask.get i |||
      t.zmask.get i ||| f.zmask.get i) &&& wordMask rw i
    ⟨Words.ofFn fun i => if i < numWords rw then t.val.get i &&& ~~~differ i else 0,
      Words.ofFn fun i => if i < numWords rw then differ i else 0, .zero, rw⟩

def simValZext (v : SimValue) (newWidth : ℕ) : SimValue :=
  if newWidth ≤ v.width then v else { v with width := newWidth }

def simValSext (v : SimValue) (newWidth : ℕ) : SimValue :=
  if newWidth ≤ v.width then v
  else
    let signBit := simValGetBit v (v.width - 1)
    let signX := 0 < v.width && v.xmask.bit (v.width - 1)
    { val := if signBit then fillBits v.val v.width (newWidth - v.width) else v.val
      xmask := if signX then fillBits v.xmask v.width (newWidth - v.width) else v.xmask
      zmask := v.zmask
      width := newWidth }

end JzHdl

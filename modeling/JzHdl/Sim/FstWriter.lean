import JzHdl.Lib.ByteCodec
import JzHdl.Sim.Value

/-! # The FST writer

A writer registers signals, records the times and the value changes of a run in
memory, and writes the blocks of the file when it is closed.
-/

namespace JzHdl

open ByteCodec

/-- A string without a zero byte. -/
structure CString where

  bytes : Bytes

  noNul : 0 ∉ bytes
  deriving DecidableEq

structure FstSignal where

  scope : CString

  name : CString

  width : ℕ
  deriving DecidableEq

structure FstChange where

  timeIndex : ℕ

  sigId : ℕ

  value : SimValue

structure FstWriter where

  timescalePs : ℕ

  timescaleExp : ℤ

  signals : List FstSignal

  defsEnded : Bool

  /-- The hierarchy payload, or nothing after its buffer failed to grow. -/
  hier : Option Bytes

  numScopes : ℕ

  currentScope : Option CString

  changes : List FstChange

  changesCap : ℕ

  timeTable : List ℕ

  timeCap : ℕ

  currentTimeIndex : ℕ

  traceLimitHit : Bool

  currentTime : ℕ

  startTime : ℕ

  endTime : ℕ

  hasTime : Bool

def fstMaxSignals : ℕ := 4096

/-! ## Definitions -/

def timescaleToExponent (ps : ℕ) : ℤ :=
  if 1000000000000 ≤ ps then 0
  else if 100000000000 ≤ ps then -1
  else if 10000000000 ≤ ps then -2
  else if 1000000000 ≤ ps then -3
  else if 100000000 ≤ ps then -4
  else if 10000000 ≤ ps then -5
  else if 1000000 ≤ ps then -6
  else if 100000 ≤ ps then -7
  else if 10000 ≤ ps then -8
  else if 1000 ≤ ps then -9
  else if 100 ≤ ps then -10
  else if 10 ≤ ps then -11
  else -12

def fstOpen (timescalePs : ℕ) : FstWriter :=
  { timescalePs, timescaleExp := timescaleToExponent timescalePs, signals := [],
    defsEnded := false, hier := some [], numScopes := 0, currentScope := none, changes := [],
    changesCap := 0, timeTable := [], timeCap := 0, currentTimeIndex := 0, traceLimitHit := false,
    currentTime := 0, startTime := 0, endTime := 0, hasTime := false }

/-- Append to a buffer. Its capacity is a power of two, and no allocation reaches `2 ^ 63`. -/
def bufBytes (buf : Option Bytes) (bs : Bytes) : Option Bytes :=
  buf.bind fun data => if data.length + bs.length ≤ 2 ^ 62 then some (data ++ bs) else none

def scopeEntry (name : CString) : Bytes := [254, 0] ++ terminated name.bytes ++ terminated []

def upscopeEntry : Bytes := [255]

def varEntry (name : CString) (width : ℕ) : Bytes :=
  [28, 0] ++ terminated name.bytes ++ varint width ++ varint 0

namespace FstWriter

def hierCloseScope (w : FstWriter) : FstWriter := { w with hier := bufBytes w.hier upscopeEntry }

def hierOpenScope (w : FstWriter) (name : CString) : FstWriter :=
  { w with
    hier := bufBytes w.hier (scopeEntry name)
    numScopes := w.numScopes + 1 }

/-- Leave the scope that is open, if any, and open another. -/
def switchScope (w : FstWriter) (scope : CString) : FstWriter :=
  if w.currentScope = some scope then w
  else
    let closed := if w.currentScope.isSome then w.hierCloseScope else w
    let opened := closed.hierOpenScope scope
    { opened with currentScope := if opened.hier.isSome then some scope else none }

/-- The new writer and the index of the signal, or nothing for the return value `-1`. -/
def addSignal (w : FstWriter) (sig : FstSignal) : FstWriter × Option ℕ :=
  if w.defsEnded ∨ fstMaxSignals ≤ w.signals.length then (w, none)
  else
    let inScope := w.switchScope sig.scope
    match inScope.hier with
    | none => (inScope, none)
    | some _ =>
      let hier := bufBytes inScope.hier (varEntry sig.name sig.width)
      match hier with
      | none => ({ inScope with hier := none }, none)
      | some data => ({ inScope with hier := some data, signals := inScope.signals ++ [sig] },
          some inScope.signals.length)

def endDefinitions (w : FstWriter) : FstWriter :=
  if w.defsEnded then w
  else
    let closed := if w.currentScope.isSome then w.hierCloseScope else w
    { closed with currentScope := none, defsEnded := true }

end FstWriter

/-! ## Recording -/

def maxEmittedTraceBytes : ℕ := 64 * 1024 * 1024

/-- The sizes of a recorded change and of a time on the platforms of the tool. -/
def changeBytes : ℕ := 112

def timeBytes : ℕ := 8

/-- Double a capacity until it holds the minimum. -/
def doubleUntil (minimum grown : ℕ) : ℕ :=
  if 0 < grown ∧ grown < minimum then doubleUntil minimum (2 * grown) else grown
termination_by minimum - grown

def growDoubling (current minimum initial : ℕ) : ℕ :=
  doubleUntil minimum (if current = 0 then initial else current)

namespace FstWriter

/-- Room for more changes, unless the retained trace would pass its limit. -/
def growChanges (w : FstWriter) (minCount : ℕ) : Option FstWriter :=
  if minCount ≤ w.changesCap then some w
  else
    let cap := growDoubling w.changesCap minCount 8192
    if cap * changeBytes + w.timeCap * timeBytes ≤ maxEmittedTraceBytes then
      some { w with changesCap := cap }
    else none

def growTimeTable (w : FstWriter) (minCount : ℕ) : Option FstWriter :=
  if minCount ≤ w.timeCap then some w
  else
    let cap := growDoubling w.timeCap minCount 1024
    if w.changesCap * changeBytes + cap * timeBytes ≤ maxEmittedTraceBytes then
      some { w with timeCap := cap }
    else none

/-- The first time is the start time; the end time is the latest. -/
def noteTime (w : FstWriter) (units : ℕ) : FstWriter :=
  let started := if w.hasTime then w
    else { w with startTime := units, endTime := units, hasTime := true }
  { started with currentTime := units, endTime := max started.endTime units }

def setTime (w : FstWriter) (timePs : ℕ) : FstWriter :=
  if !w.defsEnded then w
  else
    let units := timePs / w.timescalePs
    let noted := w.noteTime units
    if noted.traceLimitHit then noted
    else if noted.timeTable.getLast? = some units then
      { noted with currentTimeIndex := noted.timeTable.length - 1 }
    else
      match noted.growTimeTable (noted.timeTable.length + 1) with
      | none => { noted with traceLimitHit := true }
      | some grown =>
        { grown with
          timeTable := grown.timeTable ++ [units]
          currentTimeIndex := grown.timeTable.length }

/-- A change before any time is recorded at the current time, which is zero then. -/
def ensureTime (w : FstWriter) : FstWriter :=
  if w.timeTable = [] then
    match w.growTimeTable 1 with
    | none => { w with traceLimitHit := true }
    | some grown => { grown with timeTable := [w.currentTime], currentTimeIndex := 0 }
  else w

def dumpValue (w : FstWriter) (sigId : ℕ) (value : SimValue) : FstWriter :=
  match w.signals[sigId]? with
  | none => w
  | some sig =>
    if !w.defsEnded || w.traceLimitHit then w
    else
      let timed := w.ensureTime
      if timed.traceLimitHit then timed
      else
        match timed.growChanges (timed.changes.length + 1) with
        | none => { timed with traceLimitHit := true }
        | some grown =>
          let change := ⟨grown.currentTimeIndex, sigId, { value with width := sig.width }⟩
          { grown with changes := grown.changes ++ [change] }

end FstWriter

/-! ## The blocks -/

def u32 (n : ℕ) : ℕ := n % 2 ^ 32

def u64 (n : ℕ) : Bytes := bigEndian 8 (n % 2 ^ 64)

/-- A text field of a fixed size, filled up with zeros. -/
def padded (size : ℕ) (text : Bytes) : Bytes :=
  text.take size ++ List.replicate (size - text.length) 0

def fstVersion : Bytes := "JZ-HDL Simulator 1.0".toList.map fun c => UInt8.ofNat c.toNat

/-- The double that tells the byte order, as a little-endian machine stores it. -/
def fstDoubleEndtest : Bytes := [0x69, 0x57, 0x14, 0x8B, 0x0A, 0xBF, 0x05, 0x40]

/-- A block starts with its type and the length of the rest, the length field included. -/
def fstBlock (type : UInt8) (content : Bytes) : Bytes := type :: u64 (content.length + 8) ++ content

/-- Eight bits, the first in the top bit. -/
def packByte (bits : ℕ → Bool) : UInt8 :=
  .ofNat ((bits 0).toNat * 128 + (bits 1).toNat * 64 + (bits 2).toNat * 32 + (bits 3).toNat * 16 +
    (bits 4).toNat * 8 + (bits 5).toNat * 4 + (bits 6).toNat * 2 + (bits 7).toNat)

/-- Whole bytes, the most significant bit of the value first. -/
def packBits (width : ℕ) (value : SimValue) : Bytes :=
  (List.range ((width + 7) / 8)).map fun byteIdx => packByte fun bitIdx =>
    decide (byteIdx * 8 + bitIdx < width) &&
      simValGetBit value (width - 1 - (byteIdx * 8 + bitIdx))

def changeEntry (width delta : ℕ) (value : SimValue) : Bytes :=
  if width = 1 then varint (delta * 4 + if simValGetBit value 0 then 2 else 0)
  else varint (delta * 2) ++ packBits width value

/-- The stream of every signal and the time index of its last change. -/
structure VcStreams where

  data : ℕ → Bytes

  prevIndex : ℕ → ℕ

def vcStep (signals : List FstSignal) (vc : VcStreams) (change : FstChange) : VcStreams :=
  match signals[change.sigId]? with
  | none => vc
  | some sig =>
    let delta := u32 (change.timeIndex + 2 ^ 32 - vc.prevIndex change.sigId)
    { data := Function.update vc.data change.sigId
        (vc.data change.sigId ++ changeEntry sig.width delta change.value)
      prevIndex := Function.update vc.prevIndex change.sigId change.timeIndex }

def vcStreams (signals : List FstSignal) (changes : List FstChange) : List Bytes :=
  let vc := changes.foldl (vcStep signals) ⟨fun _ => [], fun _ => 0⟩
  (List.range signals.length).map vc.data

/-- The stored form of a stream; a signal without changes stores nothing. -/
def storedVc (stream : Bytes) : Bytes := if stream = [] then [] else 0 :: stream

/-- The offsets of the streams; zero for a signal without changes. -/
def vcOffsets : ℕ → List Bytes → List ℕ
  | _, [] => []
  | cumulative, stream :: rest =>
    if stream = [] then 0 :: vcOffsets cumulative rest
    else cumulative :: vcOffsets (u32 (cumulative + (1 + stream.length))) rest

/-- The numbers of the chain table: an odd one moves to the next offset, an even one skips a run of
signals without changes. -/
def chainValues (pval : ℕ) : List ℕ → List ℕ
  | [] => []
  | offset :: rest =>
    if 0 < offset then (u32 (offset + 2 ^ 32 - pval) * 2 + 1) :: chainValues offset rest
    else ((rest.takeWhile (· = 0)).length + 1) * 2 :: chainValues pval (rest.dropWhile (· = 0))
termination_by offsets => offsets.length
decreasing_by
  · simp
  · exact Nat.lt_succ_of_le (List.dropWhile_suffix _).length_le

def timeDeltas : ℕ → List ℕ → List ℕ
  | _, [] => []
  | prev, time :: rest => (time + 2 ^ 64 - prev) % 2 ^ 64 :: timeDeltas time rest

namespace FstWriter

variable (w : FstWriter)

def hdrContent (date : Bytes) : Bytes :=
  u64 w.startTime ++ u64 w.endTime ++ fstDoubleEndtest ++ u64 0 ++ u64 w.numScopes ++
    u64 w.signals.length ++ u64 w.signals.length ++ u64 1 ++
    [UInt8.ofNat (w.timescaleExp % 256).toNat] ++ padded 128 fstVersion ++ padded 119 date ++
    [0] ++ u64 0

def totalBits : ℕ := (w.signals.map FstSignal.width).sum

def frameData : Bytes := List.replicate w.totalBits 48

def vcdataContent : Bytes :=
  let streams := vcStreams w.signals w.changes
  let chain := (chainValues 0 (vcOffsets 1 streams)).flatMap varint
  let times := (timeDeltas 0 w.timeTable).flatMap varint
  u64 w.startTime ++ u64 w.endTime ++ u64 (streams.map List.length).sum ++
    varint w.totalBits ++ varint w.totalBits ++ varint w.signals.length ++ w.frameData ++
    varint w.signals.length ++ (33 :: streams.flatMap storedVc ++ chain ++ u64 chain.length ++
    zlib times ++ (u64 times.length ++ u64 (zlib times).length ++ u64 w.timeTable.length))

def geomContent : Bytes :=
  let widths := w.signals.flatMap fun sig => varint sig.width
  u64 widths.length ++ u64 w.signals.length ++ zlib widths

def hierBlock : Bytes :=
  match w.hier with
  | none => []
  | some data => fstBlock 4 (u64 data.length ++ gzip data)

/-- The bytes of the file; `date` is the text that the C library makes of the time. -/
def close (date : Bytes) : Bytes :=
  if w.defsEnded then
    fstBlock 0 (w.hdrContent date) ++ fstBlock 1 w.vcdataContent ++ fstBlock 3 w.geomContent ++
      w.hierBlock
  else []

end FstWriter

end JzHdl

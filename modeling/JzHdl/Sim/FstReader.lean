import JzHdl.Sim.FstWriter

/-! # Reading FST files

A reader of the block layouts: it checks the lengths and checksums, finds the
stream of every signal through the chain table and turns the time indices of a
stream into times.
-/

namespace JzHdl

open ByteCodec

/-! ## Blocks -/

def readU64 : Reader ℕ := readBigEndian 8

/-- A type and the content behind the length field. -/
def readFstBlock : Reader (UInt8 × Bytes) :=
  (takeBytes 1).bind fun type => readU64.bind fun len => (Reader.guard (decide (8 ≤ len))).bind
    fun _ => (takeBytes (len - 8)).bind fun content => .pure (type.headD 0, content)

/-- Split the last `k` bytes off. -/
def splitEnd (k : ℕ) (bs : Bytes) : Option (Bytes × Bytes) :=
  if bs.length < k then none else some (bs.take (bs.length - k), bs.drop (bs.length - k))

structure FstHeader where

  startTime : ℕ

  endTime : ℕ

  numVars : ℕ

  timescaleExp : ℤ
  deriving DecidableEq

/-- A byte as a signed number. -/
def signedByte (b : UInt8) : ℤ := if b.toNat < 128 then b.toNat else (b.toNat : ℤ) - 256

def readHdr : Reader FstHeader :=
  readU64.bind fun startTime => readU64.bind fun endTime =>
    (takeBytes 8).bind fun double => (Reader.guard (double == fstDoubleEndtest)).bind fun _ =>
      readU64.bind fun _ => readU64.bind fun _ => readU64.bind fun _ => readU64.bind fun numVars =>
        readU64.bind fun _ => (takeBytes 1).bind fun exponent =>
          .pure ⟨startTime, endTime, numVars, signedByte (exponent.headD 0)⟩

/-! ## Hierarchy and geometry -/

inductive HierEntry

  | scope (name : Bytes)

  | upscope

  | var (name : Bytes) (width : ℕ)
  deriving DecidableEq

def readHierEntry : Reader HierEntry
  | [] => none
  | tag :: rest =>
    if tag = 254 then
      ((takeBytes 1).bind fun _ => readTerminated.bind fun name => readTerminated.bind fun _ =>
        .pure (.scope name)) rest
    else if tag = 255 then some (.upscope, rest)
    else
      ((takeBytes 1).bind fun _ => readTerminated.bind fun name => readVarint.bind fun width =>
        readVarint.bind fun aliased => (Reader.guard (aliased == 0)).bind fun _ =>
          .pure (.var name width)) rest

/-- A variable under the scopes that are open, the outermost first. -/
structure HierVar where

  scopes : List Bytes

  name : Bytes

  width : ℕ
  deriving DecidableEq

def hierVars : List Bytes → List HierEntry → Option (List HierVar)
  | [], [] => some []
  | _ :: _, [] => none
  | scopes, .scope name :: rest => hierVars (scopes ++ [name]) rest
  | scopes, .upscope :: rest => if scopes = [] then none else hierVars scopes.dropLast rest
  | scopes, .var name width :: rest => (hierVars scopes rest).map (⟨scopes, name, width⟩ :: ·)

def readHier (content : Bytes) : Option (List HierVar) :=
  (readU64.bind (fun len => readGzip.bind fun data =>
    (Reader.guard (data.length == len)).bind fun _ => .pure data) content).bind
      fun (data, _) => (readAll readHierEntry data).bind (hierVars [])

def readGeom : Reader (List ℕ) :=
  readU64.bind fun len => readU64.bind fun count => readZlib.bind fun data =>
    (Reader.guard (data.length == len)).bind fun _ =>
      match readMany readVarint count data with
      | some (widths, []) => .pure widths
      | _ => fun _ => none

/-! ## Value changes -/

def testByte (b : UInt8) (bitIdx : ℕ) : Bool := b.toNat / 2 ^ (7 - bitIdx) % 2 == 1

/-- The bits of a value, the most significant first. -/
def unpackBits (width : ℕ) (bs : Bytes) : List Bool :=
  (List.range width).map fun j => testByte (bs.getD (j / 8) 0) (j % 8)

/-- The distance in the time table and the bits of one change. -/
def readChange (width : ℕ) : Reader (ℕ × List Bool) :=
  if width = 1 then
    readVarint.bind fun v => (Reader.guard (v % 2 == 0)).bind fun _ =>
      .pure (v / 4, [v / 2 % 2 == 1])
  else
    readVarint.bind fun v => (Reader.guard (v % 2 == 0)).bind fun _ =>
      (takeBytes ((width + 7) / 8)).bind fun bs => .pure (v / 2, unpackBits width bs)

/-- A stored stream holds its changes behind a zero. -/
def readStream (width : ℕ) : Bytes → Option (List (ℕ × List Bool))
  | [] => some []
  | b :: rest => if b = 0 then readAll (readChange width) rest else none

/-- Sum the distances up and look the times up. -/
def timedChanges (times : List ℕ) : ℕ → List (ℕ × List Bool) → Option (List (ℕ × List Bool))
  | _, [] => some []
  | index, (delta, bits) :: rest =>
    match times[index + delta]?, timedChanges times (index + delta) rest with
    | some time, some rest => some ((time, bits) :: rest)
    | _, _ => none

def decodeChain (pval : ℕ) : List ℕ → List ℕ
  | [] => []
  | v :: rest =>
    if v % 2 = 1 then (pval + v / 2) :: decodeChain (pval + v / 2) rest
    else List.replicate (v / 2) 0 ++ decodeChain pval rest

/-- Cut the streams out of the region; a stream ends where the next one starts. -/
def cutStreams (region : Bytes) : List ℕ → List Bytes
  | [] => []
  | offset :: rest =>
    (if offset = 0 then []
      else (region.take ((rest.find? (0 < ·)).getD region.length)).drop offset) ::
        cutStreams region rest

def sumTimes : ℕ → List ℕ → List ℕ
  | _, [] => []
  | prev, delta :: rest => (prev + delta) :: sumTimes (prev + delta) rest

structure FstVcdata where

  frame : Bytes

  times : List ℕ

  /-- The stored stream of every signal. -/
  streams : List Bytes

/-- The part from the packing byte on, read from its end. -/
def readVcTail (bs : Bytes) : Option (List ℕ × List Bytes) :=
  (splitEnd 24 bs).bind fun (front, lengths) =>
    (readMany readU64 3 lengths).bind fun (lengths, _) =>
      (splitEnd (lengths.getD 1 0) front).bind fun (front, packed) =>
        (readZlib packed).bind fun (times, _) =>
          (readAll readVarint times).bind fun deltas =>
            (splitEnd 8 front).bind fun (front, chainLen) =>
              (readU64 chainLen).bind fun (chainLen, _) =>
                (splitEnd chainLen front).bind fun (region, chain) =>
                  (readAll readVarint chain).bind fun values =>
                    if times.length = lengths.getD 0 0 ∧ deltas.length = lengths.getD 2 0 ∧
                        region.head? = some 33 then
                      some (sumTimes 0 deltas, cutStreams region (decodeChain 0 values))
                    else none

def readVcdata (content : Bytes) : Option FstVcdata :=
  (readU64.bind (fun _ => readU64.bind fun _ => readU64.bind fun _ =>
    readVarint.bind fun uclen => readVarint.bind fun clen =>
      (Reader.guard (uclen == clen)).bind fun _ => readVarint.bind fun _ =>
        (takeBytes clen).bind fun frame => readVarint.bind fun _ => .pure frame) content).bind
    fun (frame, rest) => (readVcTail rest).map fun (times, streams) => ⟨frame, times, streams⟩

/-! ## Files -/

/-- The trace that a file shows. -/
structure FstTrace where

  header : FstHeader

  vars : List HierVar

  frame : Bytes

  /-- The times and values of every signal, in units of the time scale. -/
  changes : List (List (ℕ × List Bool))
  deriving DecidableEq

def decodeStreams (times : List ℕ) : List ℕ → List Bytes → Option (List (List (ℕ × List Bool)))
  | [], [] => some []
  | width :: widths, stream :: streams =>
    match (readStream width stream).bind (timedChanges times 0), decodeStreams times widths streams with
    | some changes, some rest => some (changes :: rest)
    | _, _ => none
  | _, _ => none

def findBlock (type : UInt8) (blocks : List (UInt8 × Bytes)) : Option Bytes :=
  (blocks.find? fun b => b.1 = type).map Prod.snd

def readFst (file : Bytes) : Option FstTrace :=
  (readAll readFstBlock file).bind fun blocks =>
    (findBlock 0 blocks).bind fun hdr => (readHdr hdr).bind fun (header, _) =>
      (findBlock 4 blocks).bind fun hier => (readHier hier).bind fun vars =>
        (findBlock 3 blocks).bind fun geom => (readGeom geom).bind fun (widths, _) =>
          (findBlock 1 blocks).bind fun vcdata => (readVcdata vcdata).bind fun vc =>
            if widths = vars.map HierVar.width ∧ header.numVars = vars.length then
              (decodeStreams vc.times widths vc.streams).map fun changes =>
                ⟨header, vars, vc.frame, changes⟩
            else none

end JzHdl

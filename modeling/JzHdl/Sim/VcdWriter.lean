import JzHdl.Lib.WordText
import JzHdl.Sim.FstReader

/-! # The VCD writer

A writer prints the definitions and every change of a run as text. A reader
takes the text apart into its words and collects the changes of every signal.
-/

namespace JzHdl

open ByteCodec WordText

/-! ## Values as text -/

inductive WaveBit

  | zero

  | one

  | x

  | z
  deriving DecidableEq

namespace WaveBit

def char : WaveBit → UInt8
  | zero => 48
  | one => 49
  | x => 120
  | z => 122

/-- A character that is no bit reads as unknown. -/
def ofChar (c : UInt8) : WaveBit :=
  if c = 48 then zero else if c = 49 then one else if c = 122 then z else x

@[simp] theorem ofChar_char (b : WaveBit) : ofChar b.char = b := by cases b <;> rfl

end WaveBit

/-- An unknown bit hides a high impedance, which hides the value. -/
def waveBit (v : SimValue) (bit : ℕ) : WaveBit :=
  if v.xmask.bit bit then .x else if v.zmask.bit bit then .z
  else if v.val.bit bit then .one else .zero

/-- The bits of a value, the most significant first. -/
def waveBits (v : SimValue) : List WaveBit :=
  (List.range v.width).map fun j => waveBit v (v.width - 1 - j)

def simValToBin (v : SimValue) (buflen : ℕ) : Bytes :=
  ((waveBits v).map WaveBit.char).take (buflen - 1)

/-- The size of the buffers that values are printed to. -/
def binSize : ℕ := simValWords * 64 + 1

/-! ## The writer -/

structure VcdWriter where

  /-- What was printed so far. -/
  text : Bytes

  timescalePs : ℕ

  currentTime : ℕ

  timeWritten : Bool

  signals : List FstSignal

  defsEnded : Bool

def vcdMaxSignals : ℕ := 4096

def makeVcdIdent (idx : ℕ) : Bytes :=
  if idx < 94 then [UInt8.ofNat (33 + idx)]
  else [UInt8.ofNat (33 + idx / 94), UInt8.ofNat (33 + idx % 94)]

def vcdEnd : Bytes := ascii "$end"

/-- The date of a file, printed as two words of digits and marks. -/
structure Stamp where

  day : Bytes

  clock : Bytes

  isWord : ∀ w ∈ [day, clock], IsWord w

  notEnd : vcdEnd ∉ [day, clock]

def vcdTimescale (ps : ℕ) : Bytes :=
  if 1000000000 ≤ ps then decimal (ps / 1000000000) ++ ascii "ms"
  else if 1000000 ≤ ps then decimal (ps / 1000000) ++ ascii "us"
  else if 1000 ≤ ps then decimal (ps / 1000) ++ ascii "ns"
  else decimal ps ++ ascii "ps"

def vcdHeader (stamp : Stamp) (ps : ℕ) : Bytes :=
  line [ascii "$date"] ++ ascii "  " ++ line [stamp.day, stamp.clock] ++ line [vcdEnd] ++
    line [ascii "$version"] ++ ascii "  " ++
    line [ascii "JZ-HDL", ascii "Simulator", ascii "1.0"] ++ line [vcdEnd] ++
    line [ascii "$timescale", vcdTimescale ps, vcdEnd]

def vcdOpen (stamp : Stamp) (timescalePs : ℕ) : VcdWriter :=
  { text := vcdHeader stamp timescalePs, timescalePs, currentTime := 0, timeWritten := false,
    signals := [], defsEnded := false }

/-- The definitions, signals grouped by scope. -/
def vcdDefs : Option CString → ℕ → List FstSignal → List (List Bytes)
  | none, _, [] => []
  | some _, _, [] => [[ascii "$upscope"]]
  | current, idx, sig :: rest =>
    (if current = some sig.scope then []
      else (if current.isSome then [[ascii "$upscope"]] else []) ++
        [[ascii "$scope", ascii "module", sig.scope.bytes]]) ++
      [ascii "$var", ascii "wire", decimal sig.width, makeVcdIdent idx, sig.name.bytes] ::
        vcdDefs (some sig.scope) (idx + 1) rest

/-- A command is closed on its line. -/
def commandLine (command : List Bytes) : Bytes := line (command ++ [vcdEnd])

namespace VcdWriter

/-- The new writer and the index of the signal, or nothing for the return value `-1`. -/
def addSignal (w : VcdWriter) (sig : FstSignal) : VcdWriter × Option ℕ :=
  if w.defsEnded ∨ vcdMaxSignals ≤ w.signals.length then (w, none)
  else ({ w with signals := w.signals ++ [sig] }, some w.signals.length)

def endDefinitions (w : VcdWriter) : VcdWriter :=
  if w.defsEnded then w
  else
    { w with
      text := w.text ++ (vcdDefs none 0 w.signals).flatMap commandLine ++
        commandLine [ascii "$enddefinitions"]
      defsEnded := true }

def setTime (w : VcdWriter) (timePs : ℕ) : VcdWriter :=
  if !w.defsEnded then w
  else
    let units := timePs / w.timescalePs
    if !w.timeWritten || units != w.currentTime then
      { w with
        text := w.text ++ line [35 :: decimal units]
        currentTime := units
        timeWritten := true }
    else w

def dumpValue (w : VcdWriter) (sigId : ℕ) (value : SimValue) : VcdWriter :=
  match w.signals[sigId]? with
  | none => w
  | some sig =>
    if !w.defsEnded then w
    else if sig.width = 1 then
      { w with text := w.text ++ line [(waveBit value 0).char :: makeVcdIdent sigId] }
    else
      let bin := simValToBin { value with width := sig.width } binSize
      { w with text := w.text ++ line [98 :: bin, makeVcdIdent sigId] }

end VcdWriter

/-! ## The reader -/

/-- The commands before the end of the definitions and the words behind it. -/
def splitCommands : List Bytes → List Bytes → List (List Bytes) × List Bytes
  | _, [] => ([], [])
  | started, w :: rest =>
    if w = vcdEnd then
      if started = [ascii "$enddefinitions"] then ([], rest)
      else (started :: (splitCommands [] rest).1, (splitCommands [] rest).2)
    else splitCommands (started ++ [w]) rest

/-- The picoseconds of a unit of time. -/
def unitPs (unit : Bytes) : Option ℕ :=
  if unit = ascii "ms" then some 1000000000
  else if unit = ascii "us" then some 1000000
  else if unit = ascii "ns" then some 1000
  else if unit = ascii "ps" then some 1
  else none

def readTimescale : List Bytes → Option ℕ
  | [keyword, scale] =>
    if keyword = ascii "$timescale" then
      (unitPs (splitDigits scale).2).map (readDecimal (splitDigits scale).1 * ·)
    else none
  | _ => none

def defEntry : List Bytes → Option HierEntry
  | [keyword] => if keyword = ascii "$upscope" then some .upscope else none
  | [keyword, _, name] => if keyword = ascii "$scope" then some (.scope name) else none
  | [keyword, _, width, _, name] =>
    if keyword = ascii "$var" then some (.var name (readDecimal width)) else none
  | _ => none

def varIdent : List Bytes → Option Bytes
  | [keyword, _, _, ident, _] => if keyword = ascii "$var" then some ident else none
  | _ => none

/-- A change of the signal with this identifier. -/
def identChange (idents : List Bytes) (ident : Bytes) (now : ℕ) (bits : List WaveBit) :
    Option (ℕ × ℕ × List WaveBit) :=
  if idents.idxOf ident < idents.length then some (idents.idxOf ident, now, bits) else none

/-- The changes of a text, each with the index of its signal and its time. -/
def readBody (idents : List Bytes) : ℕ → List Bytes → Option (List (ℕ × ℕ × List WaveBit))
  | _, [] => some []
  | _, [] :: _ => none
  | now, (c :: cs) :: rest =>
    if c = 35 then readBody idents (readDecimal cs) rest
    else if c = 98 then
      match rest with
      | [] => none
      | ident :: rest =>
        match identChange idents ident now (cs.map WaveBit.ofChar), readBody idents now rest with
        | some change, some changes => some (change :: changes)
        | _, _ => none
    else
      match identChange idents cs now [.ofChar c], readBody idents now rest with
      | some change, some changes => some (change :: changes)
      | _, _ => none

/-- The changes of every signal. -/
def bySignal {α : Type} (n : ℕ) (changes : List (ℕ × α)) : List (List α) :=
  (List.range n).map fun i => (changes.filter (·.1 == i)).map Prod.snd

structure VcdTrace where

  /-- The unit of time in picoseconds. -/
  unitPs : ℕ

  vars : List HierVar

  changes : List (List (ℕ × List WaveBit))

def readVcd (text : Bytes) : Option VcdTrace :=
  let commands := (splitCommands [] (words text)).1
  (commands.findSome? readTimescale).bind fun unit =>
    (hierVars [] (commands.filterMap defEntry)).bind fun vars =>
      (readBody (commands.filterMap varIdent) 0 (splitCommands [] (words text)).2).map fun changes =>
        ⟨unit, vars, bySignal vars.length changes⟩

end JzHdl

import JzHdl.Sim.Bits
import JzHdl.Sim.VcdTrace

/-! # The JZW writer

A writer stores a row for every change of a signal. A signal shows at any time
the value of its last row at or before that time.
-/

namespace JzHdl

open ByteCodec

/-- A row of the table of changes. -/
structure JzwRow where

  time : ℤ

  /-- Signals are numbered from one. -/
  signalId : ℕ

  value : Bytes

structure JzwWriter where

  currentTime : ℕ

  endTime : ℕ

  signals : List FstSignal

  /-- The value of the last row of a signal that has one. -/
  lastValue : ℕ → Option SimValue

  rows : List JzwRow

  defsEnded : Bool

def jzwMaxSignals : ℕ := 4096

/-- The database stores signed integers. -/
def sqliteInt64 (n : ℕ) : ℤ := if n < 2 ^ 63 then n else n - 2 ^ 64

def jzwOpen : JzwWriter :=
  { currentTime := 0, endTime := 0, signals := [], lastValue := fun _ => none, rows := [],
    defsEnded := false }

namespace JzwWriter

/-- The new writer and the index of the signal, or nothing for the return value `-1`. -/
def addSignal (w : JzwWriter) (sig : FstSignal) : JzwWriter × Option ℕ :=
  if w.defsEnded ∨ jzwMaxSignals ≤ w.signals.length then (w, none)
  else
    ({ w with
      signals := w.signals ++ [sig]
      lastValue := Function.update w.lastValue w.signals.length none }, some w.signals.length)

def endDefinitions (w : JzwWriter) : JzwWriter :=
  if w.defsEnded then w else { w with defsEnded := true }

def setTime (w : JzwWriter) (timePs : ℕ) : JzwWriter :=
  if !w.defsEnded then w
  else { w with currentTime := timePs, endTime := max w.endTime timePs }

/-- A value that its signal has already is stored again at time zero only. -/
def unchanged (w : JzwWriter) (sigId : ℕ) (value : SimValue) : Bool :=
  match w.lastValue sigId with
  | none => false
  | some last => simValEqual value last && w.currentTime != 0

def dumpValue (w : JzwWriter) (sigId : ℕ) (value : SimValue) : JzwWriter :=
  match w.signals[sigId]? with
  | none => w
  | some sig =>
    if !w.defsEnded then w
    else
      let masked := simValMask { value with width := sig.width }
      if w.unchanged sigId masked then w
      else
        { w with
          lastValue := Function.update w.lastValue sigId (some masked)
          rows := w.rows ++ [⟨sqliteInt64 w.currentTime, sigId + 1, simValToBin masked binSize⟩] }

def apply (w : JzwWriter) : FstOp → JzwWriter
  | .setTime timePs => w.setTime timePs
  | .dump sigId value => w.dumpValue sigId value

end JzwWriter

/-! ## Reading -/

/-- The value of the last change at or before a time. -/
def lastAt {α : Type} (changes : List (ℤ × α)) (t : ℤ) : Option α :=
  ((changes.filter fun c => c.1 ≤ t).getLast?).map Prod.snd

def JzwWriter.rowsOf (w : JzwWriter) (sigId : ℕ) : List (ℤ × List WaveBit) :=
  (w.rows.filter (·.signalId == sigId + 1)).map fun row => (row.time, row.value.map .ofChar)

/-- The dumped values of a signal. -/
def dumpsOf (dumped : List FstRecord) (sigId : ℕ) : List (ℤ × List WaveBit) :=
  (dumped.filter (·.sigId == sigId)).map fun r => ((r.time : ℤ), waveBits r.value)

section

variable {α : Type} {changes : List (ℤ × α)}

theorem lastAt_append (c : ℤ × α) (t : ℤ) :
    lastAt (changes ++ [c]) t = if c.1 ≤ t then some c.2 else lastAt changes t := by
  rw [lastAt, List.filter_append]
  by_cases h : c.1 ≤ t
  · rw [List.filter_cons_of_pos (by simpa using h), List.filter_nil, List.getLast?_concat, if_pos h]
    rfl
  · rw [List.filter_cons_of_neg (by simpa using h), List.filter_nil, List.append_nil, if_neg h]
    rfl

theorem lastAt_later {now t : ℤ} (h : ∀ c ∈ changes, c.1 ≤ now) (hle : now ≤ t) :
    lastAt changes t = lastAt changes now := by
  have hall : ∀ t', now ≤ t' → (changes.filter fun c => c.1 ≤ t') = changes := fun t' ht' =>
    List.filter_eq_self.mpr fun c hc => by simpa using (h c hc).trans ht'
  rw [lastAt, lastAt, hall t hle, hall now le_rfl]

end

/-! ## Values -/

theorem waveBits_mask (v : SimValue) : waveBits (simValMask v) = waveBits v := by
  refine List.map_congr_left fun j hj => ?_
  have hk : v.width - 1 - j < v.width := by
    have := List.mem_range.mp hj
    have : (simValMask v).width = v.width := rfl
    omega
  show waveBit (simValMask v) (v.width - 1 - j) = _
  simp only [waveBit, simValMask, bit_maskWords, hk, decide_true, Bool.true_and]

theorem bit_eq_of_masked {a b : SimWords} {width : ℕ}
    (h : ∀ i < numWords width, a.get i &&& wordMask width i = b.get i &&& wordMask width i)
    {k : ℕ} (hk : k < width) : a.bit k = b.bit k := by
  have hbit := congrArg (·.getLsbD (k % 64)) (h (k / 64) (lt_numWords hk))
  simp only [BitVec.getLsbD_and, getLsbD_wordMask, hk, decide_true, Bool.and_true] at hbit
  exact hbit

theorem waveBits_of_equal {a b : SimValue} (h : simValEqual a b = true) :
    waveBits a = waveBits b := by
  simp only [simValEqual, Bool.and_eq_true, beq_iff_eq, List.all_eq_true, List.mem_range] at h
  obtain ⟨hwidth, hwords⟩ := h
  rw [waveBits, waveBits, ← hwidth]
  refine List.map_congr_left fun j hj => ?_
  have hk : a.width - 1 - j < a.width := by
    have := List.mem_range.mp hj
    omega
  rw [waveBit, waveBit, bit_eq_of_masked (fun i hi => (hwords i hi).1.1) hk,
    bit_eq_of_masked (fun i hi => (hwords i hi).1.2) hk,
    bit_eq_of_masked (fun i hi => (hwords i hi).2) hk]

/-! ## The rows of a run -/

/-- The rows show the dumped values at every time. -/
structure JzwShows (w : JzwWriter) (dumped : List FstRecord) : Prop where

  defsEnded : w.defsEnded = true

  now_lt : w.currentTime < 2 ^ 63

  times : ∀ r ∈ dumped, r.time ≤ w.currentTime

  shown : ∀ i t, lastAt (w.rowsOf i) t = lastAt (dumpsOf dumped i) t

  last : ∀ i v, w.lastValue i = some v →
    lastAt (dumpsOf dumped i) w.currentTime = some (waveBits v)

section

variable {w : JzwWriter} {dumped : List FstRecord}

theorem dumpsOf_append (r : FstRecord) (i : ℕ) : dumpsOf (dumped ++ [r]) i =
    if r.sigId = i then dumpsOf dumped i ++ [((r.time : ℤ), waveBits r.value)]
    else dumpsOf dumped i := by
  rw [dumpsOf, List.filter_append]
  by_cases h : r.sigId = i
  · rw [if_pos h, List.filter_cons_of_pos (by simpa using h), List.filter_nil, List.map_append]
    rfl
  · rw [if_neg h, List.filter_cons_of_neg (by simpa using h), List.filter_nil, List.append_nil]
    rfl

theorem JzwShows.later (h : JzwShows w dumped) (i : ℕ) {t : ℤ} (ht : (w.currentTime : ℤ) ≤ t) :
    lastAt (dumpsOf dumped i) t = lastAt (dumpsOf dumped i) w.currentTime := by
  refine lastAt_later (fun c hc => ?_) ht
  obtain ⟨r, hr, rfl⟩ := List.mem_map.mp hc
  exact Int.ofNat_le.mpr (h.times r (List.mem_filter.mp hr).1)

theorem JzwShows.setTime {timePs : ℕ} (h : JzwShows w dumped) (hle : w.currentTime ≤ timePs)
    (hlt : timePs < 2 ^ 63) : JzwShows (w.setTime timePs) dumped := by
  rw [JzwWriter.setTime, if_neg (by simp [h.defsEnded])]
  exact
    { defsEnded := h.defsEnded
      now_lt := hlt
      times := fun r hr => (h.times r hr).trans hle
      shown := h.shown
      last := fun i v hv => (h.later i (Int.ofNat_le.mpr hle)).trans (h.last i v hv) }

theorem rowsOf_append (row : JzwRow) (i : ℕ) (w' : JzwWriter) (hrows : w'.rows = w.rows ++ [row]) :
    w'.rowsOf i = if row.signalId = i + 1 then
        w.rowsOf i ++ [(row.time, row.value.map WaveBit.ofChar)]
      else w.rowsOf i := by
  rw [JzwWriter.rowsOf, hrows, List.filter_append]
  by_cases h : row.signalId = i + 1
  · rw [if_pos h, List.filter_cons_of_pos (by simpa using h), List.filter_nil, List.map_append]
    rfl
  · rw [if_neg h, List.filter_cons_of_neg (by simpa using h), List.filter_nil, List.append_nil]
    rfl

/-- A dump adds its record, with a row or without. -/
theorem JzwShows.dumpValue {sigId : ℕ} {sig : FstSignal} {value : SimValue}
    (h : JzwShows w dumped) (hsig : w.signals[sigId]? = some sig) (hwidth : sig.width ≤ 256) :
    JzwShows (w.dumpValue sigId value)
      (dumped ++ [⟨sigId, w.currentTime, { value with width := sig.width }⟩]) := by
  have hnow : sqliteInt64 w.currentTime = w.currentTime := if_pos h.now_lt
  have hmask := waveBits_mask { value with width := sig.width }
  have htimes : ∀ r ∈ dumped ++ [⟨sigId, w.currentTime, { value with width := sig.width }⟩],
      r.time ≤ w.currentTime := by
    intro r hr
    rcases List.mem_append.mp hr with hr | hr
    · exact h.times r hr
    · rw [List.mem_singleton.mp hr]
  rw [JzwWriter.dumpValue, hsig]
  simp only [h.defsEnded, Bool.not_true, Bool.false_eq_true, if_false]
  split
  · -- The value is the last one, so the record changes nothing at any time.
    rename_i hsame
    rw [JzwWriter.unchanged] at hsame
    split at hsame
    · cases hsame
    rename_i last hlast
    have hbits : waveBits last = waveBits { value with width := sig.width } := by
      rw [← hmask]
      exact (waveBits_of_equal (Bool.and_eq_true_iff.mp hsame).1).symm
    have hdumps : ∀ i t, lastAt (dumpsOf (dumped ++
        [⟨sigId, w.currentTime, { value with width := sig.width }⟩]) i) t =
        lastAt (dumpsOf dumped i) t := by
      intro i t
      rw [dumpsOf_append]
      split
      · rename_i hi
        subst hi
        rw [lastAt_append]
        split
        · rename_i ht
          rw [h.later sigId ht, h.last sigId last hlast, hbits]
        · rfl
      · rfl
    exact
      { defsEnded := h.defsEnded
        now_lt := h.now_lt
        times := htimes
        shown := fun i t => by rw [hdumps, h.shown]
        last := fun i v hv => by rw [hdumps, h.last i v hv] }
  · have hback : (simValToBin (simValMask { value with width := sig.width }) binSize).map
        WaveBit.ofChar = waveBits { value with width := sig.width } := by
      have hmasked : (simValMask { value with width := sig.width }).width ≤ 256 := hwidth
      rw [simValToBin_eq hmasked, hmask, List.map_map]
      exact (List.map_congr_left fun b _ => WaveBit.ofChar_char b).trans (List.map_id _)
    refine
      { defsEnded := rfl
        now_lt := h.now_lt
        times := htimes
        shown := fun i t => ?_
        last := fun i v hv => ?_ }
    · rw [rowsOf_append _ i _ rfl, dumpsOf_append]
      simp only [Nat.add_right_cancel_iff, hback, hnow]
      split
      · rw [lastAt_append, lastAt_append, h.shown]
      · exact h.shown i t
    · rw [dumpsOf_append]
      by_cases hi : sigId = i
      · subst hi
        obtain rfl : simValMask { value with width := sig.width } = v := by
          simpa using hv
        rw [if_pos rfl, lastAt_append, if_pos le_rfl, hmask]
      · rw [if_neg hi]
        have hkept : w.lastValue i = some v :=
          (Function.update_of_ne (Ne.symm hi) _ _).symm.trans hv
        exact h.last i v hkept

theorem JzwShows.foldl : ∀ {ops : List FstOp} {w : JzwWriter} {dumped : List FstRecord},
    JzwShows w dumped → (∀ sig ∈ w.signals, sig.width ≤ 256) → FstTimesOk w.currentTime ops →
    (∀ timePs, .setTime timePs ∈ ops → timePs < 2 ^ 63) →
    JzwShows (ops.foldl JzwWriter.apply w)
      (dumped ++ recordedChanges 1 w.signals w.currentTime ops)
  | [], w, dumped, h, _, _, _ => by rwa [recordedChanges, List.append_nil]
  | .setTime timePs :: rest, w, dumped, h, hwidths, htimes, hsigned => by
      obtain ⟨hle, -, hrest⟩ := htimes
      have hstep := h.setTime hle (hsigned timePs (List.mem_cons_self ..))
      rw [List.foldl_cons, JzwWriter.apply, recordedChanges, Nat.div_one]
      have hset : w.setTime timePs =
          { w with currentTime := timePs, endTime := max w.endTime timePs } := by
        rw [JzwWriter.setTime, if_neg (by simp [h.defsEnded])]
      rw [hset] at hstep ⊢
      exact JzwShows.foldl hstep hwidths hrest fun t ht => hsigned t (List.mem_cons_of_mem _ ht)
  | .dump sigId value :: rest, w, dumped, h, hwidths, htimes, hsigned => by
      have hlater := fun t ht => hsigned t (List.mem_cons_of_mem _ ht)
      rw [List.foldl_cons, JzwWriter.apply, recordedChanges]
      cases hsig : w.signals[sigId]? with
      | none =>
        have hskip : w.dumpValue sigId value = w := by rw [JzwWriter.dumpValue, hsig]
        rw [hskip]
        exact JzwShows.foldl h hwidths htimes hlater
      | some sig =>
        have hstep := @JzwShows.dumpValue w dumped sigId sig value h hsig
          (hwidths sig (List.mem_of_getElem? hsig))
        have hframe : (w.dumpValue sigId value).signals = w.signals ∧
            (w.dumpValue sigId value).currentTime = w.currentTime := by
          rw [JzwWriter.dumpValue, hsig]
          simp only
          split_ifs <;> exact ⟨rfl, rfl⟩
        have hrun := JzwShows.foldl hstep (by rwa [hframe.1]) (by rwa [hframe.2]) hlater
        rwa [hframe.1, hframe.2, List.append_assoc, List.singleton_append] at hrun

end

end JzHdl

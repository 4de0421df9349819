import JzHdl.Sim.JzwWriter

/-! # Waveforms

One interface drives the three writers. The files of a run agree as long as the
unit of time has an exponent in the FST header and no dumped value has an
unknown or a high-impedance bit.
-/

namespace JzHdl

open ByteCodec

inductive SimWaveFormat

  | vcd

  | fst

  | jzw

inductive SimWaveWriter

  | vcd (w : VcdWriter)

  | fst (w : FstWriter)

  | jzw (w : JzwWriter)

def simWaveOpen (stamp : Stamp) (timescalePs : ℕ) : SimWaveFormat → SimWaveWriter
  | .vcd => .vcd (vcdOpen stamp timescalePs)
  | .fst => .fst (fstOpen timescalePs)
  | .jzw => .jzw jzwOpen

namespace SimWaveWriter

def addSignal : SimWaveWriter → FstSignal → SimWaveWriter × Option ℕ
  | .vcd w, sig => (.vcd (w.addSignal sig).1, (w.addSignal sig).2)
  | .fst w, sig => (.fst (w.addSignal sig).1, (w.addSignal sig).2)
  | .jzw w, sig => (.jzw (w.addSignal sig).1, (w.addSignal sig).2)

def endDefinitions : SimWaveWriter → SimWaveWriter
  | .vcd w => .vcd w.endDefinitions
  | .fst w => .fst w.endDefinitions
  | .jzw w => .jzw w.endDefinitions

def setTime : SimWaveWriter → ℕ → SimWaveWriter
  | .vcd w, timePs => .vcd (w.setTime timePs)
  | .fst w, timePs => .fst (w.setTime timePs)
  | .jzw w, timePs => .jzw (w.setTime timePs)

def dumpValue : SimWaveWriter → ℕ → SimValue → SimWaveWriter
  | .vcd w, sigId, value => .vcd (w.dumpValue sigId value)
  | .fst w, sigId, value => .fst (w.dumpValue sigId value)
  | .jzw w, sigId, value => .jzw (w.dumpValue sigId value)

def apply (w : SimWaveWriter) : FstOp → SimWaveWriter
  | .setTime timePs => w.setTime timePs
  | .dump sigId value => w.dumpValue sigId value

def addSignals (w : SimWaveWriter) (sigs : List FstSignal) : SimWaveWriter :=
  sigs.foldl (fun w sig => (w.addSignal sig).1) w

end SimWaveWriter

def simWaveRun (stamp : Stamp) (timescalePs : ℕ) (format : SimWaveFormat) (sigs : List FstSignal)
    (ops : List FstOp) : SimWaveWriter :=
  ops.foldl SimWaveWriter.apply
    ((simWaveOpen stamp timescalePs format).addSignals sigs).endDefinitions

/-- A call while the writer is open. -/
inductive WaveCall

  | addSignal (sig : FstSignal)

  | endDefinitions

  | op (op : FstOp)

namespace SimWaveWriter

def call (w : SimWaveWriter) : WaveCall → SimWaveWriter
  | .addSignal sig => (w.addSignal sig).1
  | .endDefinitions => w.endDefinitions
  | .op op => w.apply op

def defsEnded : SimWaveWriter → Bool
  | .vcd w => w.defsEnded
  | .fst w => w.defsEnded
  | .jzw w => w.defsEnded

end SimWaveWriter

/-- The writer after any calls. -/
def simWaveCalls (stamp : Stamp) (timescalePs : ℕ) (calls : List WaveCall)
    (format : SimWaveFormat) : SimWaveWriter :=
  calls.foldl SimWaveWriter.call (simWaveOpen stamp timescalePs format)

/-- The signals that are registered in time. -/
def callSignals : List WaveCall → List FstSignal
  | [] => []
  | .addSignal sig :: rest => sig :: callSignals rest
  | .endDefinitions :: _ => []
  | .op _ :: rest => callSignals rest

/-- The calls that are recorded. -/
def callOps : Bool → List WaveCall → List FstOp
  | _, [] => []
  | ended, .addSignal _ :: rest => callOps ended rest
  | _, .endDefinitions :: rest => callOps true rest
  | true, .op op :: rest => op :: callOps true rest
  | false, .op _ :: rest => callOps false rest

/-! ## The order of calls -/

namespace FstWriter

variable {w grown : FstWriter}

theorem growTimeTable_defsEnded {n : ℕ} (h : w.growTimeTable n = some grown) :
    grown.defsEnded = w.defsEnded := by
  rw [growTimeTable] at h
  simp only at h
  split_ifs at h
  · obtain rfl := Option.some.inj h
    rfl
  · obtain rfl := Option.some.inj h
    rfl

theorem growChanges_defsEnded {n : ℕ} (h : w.growChanges n = some grown) :
    grown.defsEnded = w.defsEnded := by
  rw [growChanges] at h
  simp only at h
  split_ifs at h
  · obtain rfl := Option.some.inj h
    rfl
  · obtain rfl := Option.some.inj h
    rfl

theorem setTime_defsEnded (w : FstWriter) (timePs : ℕ) :
    (w.setTime timePs).defsEnded = w.defsEnded := by
  obtain ⟨s, e, hnoted, -⟩ := noteTime_spec w (timePs / w.timescalePs)
  rw [setTime]
  simp only [hnoted]
  split
  · rfl
  split
  · rfl
  split
  · rfl
  split
  · rfl
  · rename_i hgrown
    have hkept := growTimeTable_defsEnded hgrown
    exact hkept

theorem ensureTime_defsEnded (w : FstWriter) : w.ensureTime.defsEnded = w.defsEnded := by
  rw [ensureTime]
  split
  · split
    · rfl
    · rename_i hgrown
      have hkept := growTimeTable_defsEnded hgrown
      exact hkept
  · rfl

theorem dumpValue_defsEnded (w : FstWriter) (sigId : ℕ) (value : SimValue) :
    (w.dumpValue sigId value).defsEnded = w.defsEnded := by
  rw [dumpValue]
  split
  · rfl
  split
  · rfl
  simp only
  split
  · exact w.ensureTime_defsEnded
  split
  · exact w.ensureTime_defsEnded
  · rename_i hgrown
    have hkept := growChanges_defsEnded hgrown
    exact hkept.trans w.ensureTime_defsEnded

end FstWriter

namespace SimWaveWriter

theorem addSignal_ended {w : SimWaveWriter} (h : w.defsEnded = true) (sig : FstSignal) :
    (w.addSignal sig).1 = w := by
  cases w with
  | vcd w => rw [addSignal, VcdWriter.addSignal, if_pos (.inl h)]
  | fst w => rw [addSignal, FstWriter.addSignal, if_pos (.inl h)]
  | jzw w => rw [addSignal, JzwWriter.addSignal, if_pos (.inl h)]

theorem endDefinitions_ended {w : SimWaveWriter} (h : w.defsEnded = true) :
    w.endDefinitions = w := by
  cases w with
  | vcd w => exact congrArg SimWaveWriter.vcd (if_pos h)
  | fst w => exact congrArg SimWaveWriter.fst (if_pos h)
  | jzw w => exact congrArg SimWaveWriter.jzw (if_pos h)

theorem endDefinitions_defsEnded (w : SimWaveWriter) : w.endDefinitions.defsEnded = true := by
  cases w with
  | vcd w =>
    rw [endDefinitions, defsEnded, VcdWriter.endDefinitions]
    split <;> [assumption; rfl]
  | fst w =>
    rw [endDefinitions, defsEnded, FstWriter.endDefinitions]
    split <;> [assumption; rfl]
  | jzw w =>
    rw [endDefinitions, defsEnded, JzwWriter.endDefinitions]
    split <;> [assumption; rfl]

theorem apply_defsEnded (w : SimWaveWriter) (op : FstOp) :
    (w.apply op).defsEnded = w.defsEnded := by
  cases w with
  | vcd w =>
    cases op with
    | setTime timePs =>
      show (w.setTime timePs).defsEnded = w.defsEnded
      rw [VcdWriter.setTime]
      simp only
      split_ifs <;> rfl
    | dump sigId value =>
      show (w.dumpValue sigId value).defsEnded = w.defsEnded
      rw [VcdWriter.dumpValue]
      split
      · rfl
      · split_ifs <;> rfl
  | fst w =>
    cases op with
    | setTime timePs => exact w.setTime_defsEnded timePs
    | dump sigId value => exact w.dumpValue_defsEnded sigId value
  | jzw w =>
    cases op with
    | setTime timePs =>
      show (w.setTime timePs).defsEnded = w.defsEnded
      rw [JzwWriter.setTime]
      split <;> rfl
    | dump sigId value =>
      show (w.dumpValue sigId value).defsEnded = w.defsEnded
      rw [JzwWriter.dumpValue]
      split
      · rfl
      · simp only
        split_ifs <;> rfl

/-- Nothing is recorded before the definitions have ended. -/
theorem apply_defining {w : SimWaveWriter} (h : w.defsEnded = false) (op : FstOp) :
    w.apply op = w := by
  have hnot : ∀ {b : Bool}, b = false → (!b) = true := fun hb => by rw [hb]; rfl
  cases w with
  | vcd w =>
    cases op with
    | setTime timePs => exact congrArg SimWaveWriter.vcd (if_pos (hnot h))
    | dump sigId value =>
      refine congrArg SimWaveWriter.vcd ?_
      rw [VcdWriter.dumpValue]
      split
      · rfl
      · exact if_pos (hnot h)
  | fst w =>
    cases op with
    | setTime timePs => exact congrArg SimWaveWriter.fst (if_pos (hnot h))
    | dump sigId value =>
      refine congrArg SimWaveWriter.fst ?_
      rw [FstWriter.dumpValue]
      split
      · rfl
      · exact if_pos (Bool.or_eq_true_iff.mpr (.inl (hnot h)))
  | jzw w =>
    cases op with
    | setTime timePs => exact congrArg SimWaveWriter.jzw (if_pos (hnot h))
    | dump sigId value =>
      refine congrArg SimWaveWriter.jzw ?_
      rw [JzwWriter.dumpValue]
      split
      · rfl
      · exact if_pos (hnot h)

theorem addSignal_defining {w : SimWaveWriter} (h : w.defsEnded = false) (sig : FstSignal) :
    (w.addSignal sig).1.defsEnded = false := by
  cases w with
  | vcd w =>
    show (w.addSignal sig).1.defsEnded = false
    rw [VcdWriter.addSignal]
    split <;> exact h
  | fst w =>
    show (w.addSignal sig).1.defsEnded = false
    have hscope : (w.switchScope sig.scope).defsEnded = false := by
      rw [FstWriter.switchScope]
      simp only
      split_ifs <;> exact h
    rw [FstWriter.addSignal]
    split
    · exact h
    simp only
    split
    · exact hscope
    · split <;> exact hscope
  | jzw w =>
    show (w.addSignal sig).1.defsEnded = false
    rw [JzwWriter.addSignal]
    split <;> exact h

theorem foldl_call_ended : ∀ {calls : List WaveCall} {w : SimWaveWriter}, w.defsEnded = true →
    calls.foldl call w = (callOps true calls).foldl apply w
  | [], _, _ => rfl
  | .addSignal sig :: rest, w, h => by
      rw [List.foldl_cons, call, addSignal_ended h, callOps]
      exact foldl_call_ended h
  | .endDefinitions :: rest, w, h => by
      rw [List.foldl_cons, call, endDefinitions_ended h, callOps]
      exact foldl_call_ended h
  | .op op :: rest, w, h => by
      rw [List.foldl_cons, call, callOps, List.foldl_cons]
      exact foldl_call_ended ((w.apply_defsEnded op).trans h)

theorem foldl_call_defining : ∀ {calls : List WaveCall} {w : SimWaveWriter}, w.defsEnded = false →
    .endDefinitions ∈ calls →
    calls.foldl call w =
      (callOps false calls).foldl apply (w.addSignals (callSignals calls)).endDefinitions
  | [], _, _, hend => by simp at hend
  | .addSignal sig :: rest, w, h, hend => by
      have hrest : WaveCall.endDefinitions ∈ rest := by simpa using hend
      rw [List.foldl_cons, call, callOps, callSignals, addSignals, List.foldl_cons]
      exact foldl_call_defining (addSignal_defining h sig) hrest
  | .endDefinitions :: rest, w, _, _ => by
      rw [List.foldl_cons, call, callOps, callSignals]
      exact foldl_call_ended w.endDefinitions_defsEnded
  | .op op :: rest, w, h, hend => by
      have hrest : WaveCall.endDefinitions ∈ rest := by simpa using hend
      rw [List.foldl_cons, call, apply_defining h, callOps, callSignals]
      exact foldl_call_defining h hrest

end SimWaveWriter

/-- Only the registrations before the end of the definitions and the records behind it count. -/
theorem simWaveCalls_eq {calls : List WaveCall} (hend : .endDefinitions ∈ calls) (stamp : Stamp)
    (timescalePs : ℕ) (format : SimWaveFormat) :
    simWaveCalls stamp timescalePs calls format =
      simWaveRun stamp timescalePs format (callSignals calls) (callOps false calls) :=
  SimWaveWriter.foldl_call_defining (by cases format <;> rfl) hend

/-! ## The writers behind the interface -/

def jzwDefined (sigs : List FstSignal) : JzwWriter :=
  (sigs.foldl (fun w sig => (w.addSignal sig).1) jzwOpen).endDefinitions

def jzwRun (sigs : List FstSignal) (ops : List FstOp) : JzwWriter :=
  ops.foldl JzwWriter.apply (jzwDefined sigs)

section

variable {stamp : Stamp} {timescalePs : ℕ} {sigs : List FstSignal} {ops : List FstOp}

theorem simWaveRun_vcd : simWaveRun stamp timescalePs .vcd sigs ops =
    .vcd (vcdRun stamp timescalePs sigs ops) := by
  have hsigs : (simWaveOpen stamp timescalePs .vcd).addSignals sigs =
      .vcd ((vcdOpen stamp timescalePs).addSignals sigs) :=
    List.foldl_hom SimWaveWriter.vcd fun _ _ => rfl
  rw [simWaveRun, hsigs]
  exact List.foldl_hom SimWaveWriter.vcd fun _ op => by cases op <;> rfl

theorem simWaveRun_fst : simWaveRun stamp timescalePs .fst sigs ops =
    .fst (fstRun timescalePs sigs ops) := by
  have hsigs : (simWaveOpen stamp timescalePs .fst).addSignals sigs =
      .fst ((fstOpen timescalePs).addSignals sigs) :=
    List.foldl_hom SimWaveWriter.fst fun _ _ => rfl
  rw [simWaveRun, hsigs]
  exact List.foldl_hom SimWaveWriter.fst fun _ op => by cases op <;> rfl

theorem simWaveRun_jzw : simWaveRun stamp timescalePs .jzw sigs ops = .jzw (jzwRun sigs ops) := by
  have hsigs : (simWaveOpen stamp timescalePs .jzw).addSignals sigs =
      .jzw (sigs.foldl (fun w sig => (w.addSignal sig).1) jzwOpen) :=
    List.foldl_hom SimWaveWriter.jzw fun _ _ => rfl
  rw [simWaveRun, hsigs]
  exact List.foldl_hom SimWaveWriter.jzw fun _ op => by cases op <;> rfl

/-! ## The rows of a run -/

theorem jzwAddSignals_spec : ∀ {sigs : List FstSignal} {w : JzwWriter}, w.defsEnded = false →
    w.lastValue = (fun _ => none) → w.signals.length + sigs.length ≤ jzwMaxSignals →
    sigs.foldl (fun w sig => (w.addSignal sig).1) w = { w with signals := w.signals ++ sigs }
  | [], w, _, _, _ => by rw [List.append_nil]; rfl
  | sig :: rest, w, hdefs, hlast, hcount => by
      rw [List.length_cons] at hcount
      have hadd : (w.addSignal sig).1 = { w with signals := w.signals ++ [sig] } := by
        rw [JzwWriter.addSignal,
          if_neg (by simp only [hdefs, Bool.false_eq_true, false_or]; omega), hlast,
          Function.update_eq_self]
      have ih := @jzwAddSignals_spec rest { w with signals := w.signals ++ [sig] } hdefs hlast (by
        rw [List.length_append, List.length_singleton]
        omega)
      rw [List.foldl_cons, hadd, ih]
      simp only [List.append_assoc, List.singleton_append]

theorem jzwRun_shows (hcount : sigs.length ≤ jzwMaxSignals)
    (hwidths : ∀ sig ∈ sigs, sig.width ≤ 256)
    (htimes : FstTimesOk 0 ops) (hsigned : ∀ timePs, .setTime timePs ∈ ops → timePs < 2 ^ 63) :
    JzwShows (jzwRun sigs ops) (recordedChanges 1 sigs 0 ops) := by
  have hdefined : jzwDefined sigs = { jzwOpen with signals := sigs, defsEnded := true } := by
    rw [jzwDefined, jzwAddSignals_spec rfl rfl (by
      rw [show jzwOpen.signals = [] from rfl, List.length_nil, Nat.zero_add]
      exact hcount)]
    rfl
  have hstart : JzwShows (jzwDefined sigs) [] := by
    rw [hdefined]
    exact
      { defsEnded := rfl
        now_lt := Nat.two_pow_pos 63
        times := nofun
        shown := fun _ _ => rfl
        last := nofun }
  have hrun := hstart.foldl (by rw [hdefined]; exact hwidths) (by rw [hdefined]; exact htimes)
    hsigned
  rw [hdefined, List.nil_append] at hrun
  rw [jzwRun, hdefined]
  exact hrun

end

/-! ## Agreement -/

def WaveBit.ofBool (b : Bool) : WaveBit := if b then .one else .zero

/-- The changes with their times in picoseconds. -/
def wavePicoseconds (unit : ℕ) (changes : List (List (ℕ × List WaveBit))) :
    List (List (ℕ × List WaveBit)) :=
  changes.map (List.map fun c => (c.1 * unit, c.2))

/-- The changes of a run, their times rounded down to the time scale. -/
def waveTrace (timescalePs : ℕ) (sigs : List FstSignal) (ops : List FstOp) :
    List (List (ℕ × List WaveBit)) :=
  wavePicoseconds timescalePs
    (bySignal sigs.length ((recordedChanges timescalePs sigs 0 ops).map FstRecord.wave))

def FstTrace.waveChanges (trace : FstTrace) : List (List (ℕ × List WaveBit)) :=
  trace.changes.map (List.map fun c => (c.1, c.2.map WaveBit.ofBool))

/-- Both traces show the run in the unit of time that they declare, and the rows show at every time
the value that was dumped last. -/
structure WavesAgree (run : SimWaveFormat → SimWaveWriter) (date : Bytes) (timescalePs : ℕ)
    (sigs : List FstSignal) (ops : List FstOp) : Prop where

  vcd : ∃ w trace, run .vcd = .vcd w ∧
    readVcd w.text = some trace ∧ trace.vars = sigs.map FstSignal.var ∧
    wavePicoseconds trace.unitPs trace.changes = waveTrace timescalePs sigs ops

  fst : ∃ w trace, run .fst = .fst w ∧
    readFst (w.close date) = some trace ∧ trace.vars = sigs.map FstSignal.var ∧
    wavePicoseconds trace.header.unitPs trace.waveChanges = waveTrace timescalePs sigs ops

  jzw : ∃ w, run .jzw = .jzw w ∧
    ∀ i t, lastAt (w.rowsOf i) t = lastAt (dumpsOf (recordedChanges 1 sigs 0 ops) i) t

theorem bySignal_map {β : Type} (n : ℕ) (records : List FstRecord) (f : FstRecord → β) :
    bySignal n (records.map fun r => (r.sigId, f r)) =
      (List.range n).map fun i => (records.filter (·.sigId == i)).map f := by
  refine List.map_congr_left fun i _ => ?_
  rw [List.filter_map, List.map_map]
  rfl

theorem bySignal_inj {β : Type} {n : ℕ} {records : List FstRecord} {f g : FstRecord → β}
    (h : ∀ r ∈ records, r.sigId < n) :
    bySignal n (records.map fun r => (r.sigId, f r)) =
      bySignal n (records.map fun r => (r.sigId, g r)) ↔ ∀ r ∈ records, f r = g r := by
  rw [bySignal_map, bySignal_map, List.map_inj_left]
  constructor
  · intro heq r hr
    exact List.map_inj_left.mp (heq r.sigId (List.mem_range.mpr (h r hr))) r
      (List.mem_filter.mpr ⟨hr, beq_self_eq_true _⟩)
  · exact fun heq i _ => List.map_congr_left fun r hr => heq r (List.mem_filter.mp hr).1

theorem wavePicoseconds_bySignal (unit n : ℕ) (records : List FstRecord) :
    wavePicoseconds unit (bySignal n (records.map FstRecord.wave)) =
      bySignal n (records.map fun r => (r.sigId, r.time * unit, waveBits r.value)) := by
  have hwave : records.map FstRecord.wave =
      records.map fun r => (r.sigId, r.time, waveBits r.value) := rfl
  rw [hwave, bySignal_map, bySignal_map, wavePicoseconds, List.map_map]
  refine List.map_congr_left fun i _ => ?_
  rw [Function.comp_apply, List.map_map]
  rfl

theorem wavePicoseconds_fst {timescalePs : ℕ} {sigs : List FstSignal} {ops : List FstOp}
    {trace : FstTrace} (h : trace.changes = recordedTrace timescalePs sigs ops) (unit : ℕ) :
    wavePicoseconds unit trace.waveChanges =
      bySignal sigs.length ((recordedChanges timescalePs sigs 0 ops).map fun r =>
        (r.sigId, r.time * unit, (valueBits r.value.width r.value).map WaveBit.ofBool)) := by
  rw [bySignal_map, FstTrace.waveChanges, h, recordedTrace, wavePicoseconds, List.map_map,
    List.map_map]
  refine List.map_congr_left fun i _ => ?_
  simp only [Function.comp_apply, List.map_map]
  rfl

theorem waveBit_known_iff (v : SimValue) (k : ℕ) : waveBit v k = .ofBool (v.val.bit k) ↔
    ¬ (v.xmask.bit k = true ∨ v.zmask.bit k = true) := by
  rw [waveBit, WaveBit.ofBool]
  cases v.xmask.bit k <;> cases v.zmask.bit k <;> cases v.val.bit k <;> simp

/-- Two states are enough for a value exactly when no bit of it is unknown or high impedance. -/
theorem waveBits_known_iff (v : SimValue) :
    waveBits v = (valueBits v.width v).map WaveBit.ofBool ↔ simValHasXz v = false := by
  rw [← Bool.not_eq_true, simValHasXz_iff, waveBits, valueBits, List.map_map, List.map_inj_left]
  have hget : ∀ k < v.width, simValGetBit v k = v.val.bit k := fun k hk => if_pos hk
  constructor
  · rintro h ⟨k, hk, hxz⟩
    have hj := h (v.width - 1 - k) (List.mem_range.mpr (by omega))
    have hback : v.width - 1 - (v.width - 1 - k) = k := by omega
    rw [Function.comp_apply, hback, hget k hk, waveBit_known_iff] at hj
    exact hj hxz
  · intro h j hj
    rw [List.mem_range] at hj
    rw [Function.comp_apply, hget _ (by omega), waveBit_known_iff]
    exact fun hxz => h ⟨_, by omega, hxz⟩

theorem times_eq_iff {a b : ℕ} {records : List FstRecord} :
    (∀ r ∈ records, r.time * a = r.time * b) ↔ a = b ∨ ∀ r ∈ records, r.time = 0 := by
  constructor
  · intro h
    by_cases hab : a = b
    · exact .inl hab
    · refine .inr fun r hr => ?_
      by_contra hne
      exact hab (Nat.eq_of_mul_eq_mul_left (by omega) (h r hr))
  · rintro (rfl | h) r hr
    · rfl
    · rw [h r hr, Nat.zero_mul, Nat.zero_mul]

theorem unit_eq_iff (ps : ℕ) :
    10 ^ (timescaleToExponent ps + 12).toNat = ps ↔ ∃ k ≤ 12, ps = 10 ^ k := by
  constructor
  · intro h
    have hrange := timescaleToExponent_range ps
    exact ⟨(timescaleToExponent ps + 12).toNat, by omega, h.symm⟩
  · rintro ⟨k, hk, rfl⟩
    rw [unit_of_power, min_eq_left hk]

theorem vcdUnit_power {k : ℕ} (hk : k ≤ 12) : vcdUnit (10 ^ k) = 10 ^ k := by
  interval_cases k <;> decide

section

variable {timescalePs : ℕ} {sigs : List FstSignal} {ops : List FstOp}

theorem length_le_of_registered (hreg : FstRegistered timescalePs sigs) :
    sigs.length ≤ fstMaxSignals := by
  obtain ⟨data, n, hn, hmax, -, -, -⟩ := fstDefined_spec hreg
  exact hmax

/-- The files of a run agree exactly when the time scale is a power of ten up to a second, or every
change is recorded at time zero, and every dumped value is known. -/
theorem wavesAgree_iff_known (hreg : FstRegistered timescalePs sigs)
    (hnames : ∀ sig ∈ sigs, sig.Printable) (hwidths : ∀ sig ∈ sigs, sig.width ≤ 256)
    (htimes : FstTimesOk 0 ops) (hsigned : ∀ timePs, .setTime timePs ∈ ops → timePs < 2 ^ 63)
    (hlimit : (fstRun timescalePs sigs ops).traceLimitHit = false) (stamp : Stamp) (date : Bytes) :
    WavesAgree (simWaveRun stamp timescalePs · sigs ops) date timescalePs sigs ops ↔
      ((∃ k ≤ 12, timescalePs = 10 ^ k) ∨
        ∀ r ∈ recordedChanges timescalePs sigs 0 ops, r.time = 0) ∧
      ∀ r ∈ recordedChanges timescalePs sigs 0 ops, simValHasXz r.value = false := by
  have hcount := length_le_of_registered hreg
  have hids : ∀ r ∈ recordedChanges timescalePs sigs 0 ops, r.sigId < sigs.length := fun r hr => by
    obtain ⟨sig, hsig, -⟩ := recordedChanges_signal r hr
    exact (List.getElem?_eq_some_iff.mp hsig).1
  have hvcd := @readVcd_run timescalePs sigs hnames hcount hwidths stamp ops
  obtain ⟨trace, hread, hexp, hvars, -, hchanges⟩ := readFst_run hreg hwidths htimes hlimit date
  have hfst : wavePicoseconds trace.header.unitPs trace.waveChanges =
      waveTrace timescalePs sigs ops ↔
      (trace.header.unitPs = timescalePs ∨
        ∀ r ∈ recordedChanges timescalePs sigs 0 ops, r.time = 0) ∧
      ∀ r ∈ recordedChanges timescalePs sigs 0 ops, simValHasXz r.value = false := by
    rw [wavePicoseconds_fst hchanges, waveTrace, wavePicoseconds_bySignal, bySignal_inj hids,
      ← times_eq_iff, ← forall₂_and]
    refine forall₂_congr fun r _ => ?_
    rw [Prod.mk.injEq, eq_comm (b := waveBits r.value), waveBits_known_iff]
  rw [FstHeader.unitPs, hexp, unit_eq_iff] at hfst
  constructor
  · rintro ⟨-, ⟨w, trace', hrun, hread', -, heq⟩, -⟩
    obtain rfl := SimWaveWriter.fst.inj (simWaveRun_fst.symm.trans hrun)
    obtain rfl : trace = trace' := Option.some.inj (hread.symm.trans hread')
    rw [FstHeader.unitPs, hexp] at heq
    exact hfst.mp heq
  · rintro ⟨hunit, hknown⟩
    refine
      { vcd := ⟨_, _, simWaveRun_vcd, hvcd, rfl, ?_⟩
        fst := ⟨_, _, simWaveRun_fst, hread, hvars, ?_⟩
        jzw := ⟨_, simWaveRun_jzw, (jzwRun_shows hcount hwidths htimes hsigned).shown⟩ }
    · rw [waveTrace, wavePicoseconds_bySignal, wavePicoseconds_bySignal, bySignal_inj hids]
      have htime := (@times_eq_iff (vcdUnit timescalePs) timescalePs
        (recordedChanges timescalePs sigs 0 ops)).mpr
          (hunit.imp (fun hpower => by
            obtain ⟨k, hk, hps⟩ := hpower
            rw [hps, vcdUnit_power hk]) id)
      exact fun r hr => by rw [htime r hr]
    · rw [FstHeader.unitPs, hexp]
      exact hfst.mpr ⟨hunit, hknown⟩

/-- The files of any calls that end the definitions agree exactly when the time scale is a power of
ten up to a second, or every change is recorded at time zero, and every dumped value is known. -/
theorem wavesAgree_iff {calls : List WaveCall} (hend : .endDefinitions ∈ calls)
    (hreg : FstRegistered timescalePs (callSignals calls))
    (hnames : ∀ sig ∈ callSignals calls, sig.Printable)
    (hwidths : ∀ sig ∈ callSignals calls, sig.width ≤ 256)
    (htimes : FstTimesOk 0 (callOps false calls))
    (hsigned : ∀ timePs, .setTime timePs ∈ callOps false calls → timePs < 2 ^ 63)
    (hlimit : (fstRun timescalePs (callSignals calls) (callOps false calls)).traceLimitHit = false)
    (stamp : Stamp) (date : Bytes) :
    WavesAgree (simWaveCalls stamp timescalePs calls) date timescalePs (callSignals calls)
        (callOps false calls) ↔
      ((∃ k ≤ 12, timescalePs = 10 ^ k) ∨
        ∀ r ∈ recordedChanges timescalePs (callSignals calls) 0 (callOps false calls), r.time = 0) ∧
      ∀ r ∈ recordedChanges timescalePs (callSignals calls) 0 (callOps false calls),
        simValHasXz r.value = false := by
  rw [funext (simWaveCalls_eq hend stamp timescalePs)]
  exact wavesAgree_iff_known hreg hnames hwidths htimes hsigned hlimit stamp date

end

namespace WaveExample

open FstExample

def stamp : Stamp := ⟨[48], [48], by decide, by decide⟩

/-- One signal that is dumped once, at time zero. -/
def calls (value : SimValue) : List WaveCall :=
  [.addSignal wire, .endDefinitions, .op (.setTime 0), .op (.dump 0 value)]

theorem printable : wire.Printable := ⟨⟨by decide, by decide⟩, ⟨by decide, by decide⟩⟩

theorem calls_times (value : SimValue) : FstTimesOk 0 (callOps false (calls value)) :=
  ⟨le_rfl, Nat.two_pow_pos 64, trivial⟩

theorem calls_limit (value : SimValue) :
    (fstRun (10 ^ 3) [wire] [.setTime 0, .dump 0 value]).traceLimitHit = false := by
  obtain ⟨data, n, -, -, -, -, heq⟩ := fstDefined_spec (registered (10 ^ 3))
  rw [fstRun, heq]
  simp [FstWriter.apply, FstWriter.setTime, FstWriter.noteTime, FstWriter.growTimeTable,
    FstWriter.growChanges, FstWriter.dumpValue, FstWriter.ensureTime, growDoubling, doubleUntil,
    fstOpen, wire, changeBytes, timeBytes, maxEmittedTraceBytes]

end WaveExample

open FstExample WaveExample in
theorem wavesAgree_iff_one :
    WavesAgree (simWaveCalls stamp (10 ^ 3) (calls (simValOnes 1))) [] (10 ^ 3) [wire]
      [.setTime 0, .dump 0 (simValOnes 1)] :=
  (@wavesAgree_iff (10 ^ 3) (calls (simValOnes 1)) (by simp [calls]) (registered _)
    (fun _ hsig => by rw [List.mem_singleton.mp hsig]; exact printable) (by decide)
    (calls_times _) (by simp [calls, callOps]) (calls_limit _) stamp []).mpr
    ⟨.inl ⟨3, by decide, rfl⟩, by decide⟩

open FstExample WaveExample in
/-- An unknown bit is shown as a zero by the FST file alone. -/
theorem wavesAgree_unknown :
    ¬ WavesAgree (simWaveCalls stamp (10 ^ 3) (calls (simValAllX 1))) [] (10 ^ 3) [wire]
      [.setTime 0, .dump 0 (simValAllX 1)] := by
  have heq := funext
    (@simWaveCalls_eq (calls (simValAllX 1)) (by simp [calls]) stamp (10 ^ 3))
  rw [heq]
  intro h
  have hknown := ((wavesAgree_iff_known (registered _)
    (fun _ hsig => by rw [List.mem_singleton.mp hsig]; exact printable) (by decide)
    (calls_times _) (by simp [calls, callOps]) (calls_limit _) stamp []).mp h).2
  revert hknown
  decide

end JzHdl

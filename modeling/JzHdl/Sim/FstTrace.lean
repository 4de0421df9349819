import JzHdl.Sim.FstFile
import Mathlib.Tactic.IntervalCases
import Mathlib.Tactic.NormNum

/-! # The trace of a run in an FST file

A run registers signals, sets times and dumps values. The file of the run shows
its records as long as the unit of time has an exponent in the header.
-/

namespace JzHdl

open ByteCodec

/-- A call while the trace is recorded. -/
inductive FstOp

  | setTime (timePs : ℕ)

  | dump (sigId : ℕ) (value : SimValue)

namespace FstWriter

def apply (w : FstWriter) : FstOp → FstWriter
  | .setTime timePs => w.setTime timePs
  | .dump sigId value => w.dumpValue sigId value

def addSignals (w : FstWriter) (sigs : List FstSignal) : FstWriter :=
  sigs.foldl (fun w sig => (w.addSignal sig).1) w

/-- Every registration gives an index. -/
def Registers : FstWriter → List FstSignal → Prop
  | _, [] => True
  | w, sig :: rest => (w.addSignal sig).2.isSome = true ∧ Registers (w.addSignal sig).1 rest

end FstWriter

def fstDefined (timescalePs : ℕ) (sigs : List FstSignal) : FstWriter :=
  ((fstOpen timescalePs).addSignals sigs).endDefinitions

def fstRun (timescalePs : ℕ) (sigs : List FstSignal) (ops : List FstOp) : FstWriter :=
  ops.foldl FstWriter.apply (fstDefined timescalePs sigs)

/-- Every signal is registered and the hierarchy fits into memory. -/
structure FstRegistered (timescalePs : ℕ) (sigs : List FstSignal) : Prop where

  registers : (fstOpen timescalePs).Registers sigs

  hier : (fstDefined timescalePs sigs).hier.isSome = true

/-! ## Registration -/

theorem bufBytes_eq_some {buf : Option Bytes} {bs data : Bytes} (h : bufBytes buf bs = some data) :
    ∃ old, buf = some old ∧ data = old ++ bs ∧ data.length ≤ 2 ^ 62 := by
  obtain ⟨old, hold, hnew⟩ := Option.bind_eq_some_iff.mp h
  split at hnew
  · rename_i hlen
    obtain rfl := Option.some.inj hnew
    exact ⟨old, hold, rfl, by rwa [List.length_append]⟩
  · cases hnew

/-- The entries that opening a scope adds. -/
def switchEntries (current : Option CString) (scope : CString) : List HierEntry :=
  if current = some scope then []
  else (if current.isSome then [.upscope] else []) ++ [.scope scope.bytes]

theorem switchScope_spec {w : FstWriter} {scope : CString} {data : Bytes}
    (h : (w.switchScope scope).hier = some data) :
    ∃ old n, w.hier = some old ∧ n ≤ w.numScopes + 1 ∧
      data = old ++ (switchEntries w.currentScope scope).flatMap HierEntry.bytes ∧
      w.switchScope scope =
        { w with hier := some data, currentScope := some scope, numScopes := n } := by
  rw [FstWriter.switchScope] at h ⊢
  by_cases hsame : w.currentScope = some scope
  · rw [if_pos hsame] at h ⊢
    refine ⟨data, w.numScopes, h, by omega, by rw [switchEntries, if_pos hsame]; simp, ?_⟩
    rw [← h, ← hsame]
  · rw [if_neg hsame] at h ⊢
    rw [switchEntries, if_neg hsame]
    simp only [FstWriter.hierOpenScope] at h ⊢
    obtain ⟨mid, hmid, hdata, -⟩ := bufBytes_eq_some h
    cases hopen : w.currentScope with
    | none =>
      rw [hopen, Option.isSome_none, if_neg Bool.false_ne_true] at hmid
      refine ⟨mid, w.numScopes + 1, hmid, le_rfl, ?_, ?_⟩
      · simpa [HierEntry.bytes, scopeEntry] using hdata
      · rw [hopen] at h
        simp only [Option.isSome_none, Bool.false_eq_true, if_false] at h ⊢
        simp [h]
    | some old =>
      rw [hopen, Option.isSome_some, if_pos rfl] at hmid
      obtain ⟨first, hfirst, hmid, -⟩ := bufBytes_eq_some hmid
      refine ⟨first, w.numScopes + 1, hfirst, le_rfl, ?_, ?_⟩
      · rw [hdata, hmid]
        simp [HierEntry.bytes, scopeEntry]
      · rw [hopen] at h
        simp only [Option.isSome_some, if_true, FstWriter.hierCloseScope] at h ⊢
        simp [h]

theorem addSignal_spec {w : FstWriter} {sig : FstSignal}
    (h : (w.addSignal sig).2.isSome = true) :
    ∃ old data n, w.hier = some old ∧ n ≤ w.numScopes + 1 ∧ w.signals.length < fstMaxSignals ∧
      data = old ++ (switchEntries w.currentScope sig.scope ++
        [HierEntry.var sig.name.bytes sig.width]).flatMap HierEntry.bytes ∧
      (w.addSignal sig).1 =
        { w with
          hier := some data
          signals := w.signals ++ [sig]
          currentScope := some sig.scope
          numScopes := n } := by
  rw [FstWriter.addSignal] at h ⊢
  by_cases hfull : w.defsEnded = true ∨ fstMaxSignals ≤ w.signals.length
  · rw [if_pos hfull] at h
    simp at h
  · rw [if_neg hfull] at h ⊢
    simp only at h ⊢
    cases hswitch : (w.switchScope sig.scope).hier with
    | none => rw [hswitch] at h; simp at h
    | some mid =>
      rw [hswitch] at h
      simp only at h
      cases hvar : bufBytes (some mid) (varEntry sig.name sig.width) with
      | none => rw [hvar] at h; simp at h
      | some data =>
        obtain ⟨old, n, hold, hn, hmid, heq⟩ := switchScope_spec hswitch
        obtain ⟨mid', hmid', hdata, -⟩ := bufBytes_eq_some hvar
        obtain rfl := Option.some.inj hmid'
        have hlt : w.signals.length < fstMaxSignals := by omega
        refine ⟨old, data, n, hold, hn, hlt, ?_, ?_⟩
        · rw [hdata, hmid, List.flatMap_append, List.append_assoc, List.flatMap_singleton]
          rfl
        · rw [heq]

theorem registeredEntries_cons (current : Option CString) (sig : FstSignal)
    (rest : List FstSignal) : registeredEntries current (sig :: rest) =
      switchEntries current sig.scope ++
        .var sig.name.bytes sig.width :: registeredEntries (some sig.scope) rest := by
  cases current <;> rfl

/-- What the entries of an open scope still need. -/
def closingEntries (current : Option CString) : List HierEntry := registeredEntries current []

theorem addSignals_spec : ∀ {sigs : List FstSignal} {w : FstWriter} {old : Bytes},
    w.Registers sigs → w.hier = some old → ∃ data n scope, n ≤ w.numScopes + sigs.length ∧
      (sigs ≠ [] → w.signals.length + sigs.length ≤ fstMaxSignals ∧ scope.isSome = true) ∧
      data ++ (closingEntries scope).flatMap HierEntry.bytes =
        old ++ (registeredEntries w.currentScope sigs).flatMap HierEntry.bytes ∧
      w.addSignals sigs =
        { w with
          hier := some data
          signals := w.signals ++ sigs
          currentScope := scope
          numScopes := n }
  | [], w, old, _, hold => by
      refine ⟨old, w.numScopes, w.currentScope, le_rfl, fun h => absurd rfl h, rfl, ?_⟩
      rw [FstWriter.addSignals, List.foldl_nil, List.append_nil, ← hold]
  | sig :: rest, w, old, h, hold => by
      obtain ⟨old', mid, n, hold', hn, hlt, hmid, heq⟩ := addSignal_spec h.1
      obtain rfl : old = old' := Option.some.inj (hold.symm.trans hold')
      obtain ⟨data, n', scope, hn', hfull, hdata, hrest⟩ :=
        @addSignals_spec rest (w.addSignal sig).1 mid h.2 (by rw [heq])
      rw [heq] at hn' hfull hdata hrest
      simp only at hn' hfull hdata hrest
      refine ⟨data, n', scope, by rw [List.length_cons]; omega, fun _ => ?_, ?_, ?_⟩
      · cases rest with
        | nil =>
          refine ⟨hlt, ?_⟩
          have hsame := congrArg FstWriter.currentScope hrest
          simp only [FstWriter.addSignals, List.foldl_nil] at hsame
          rw [← hsame]
          rfl
        | cons next more =>
          have := hfull (by simp)
          simp only [List.length_append, List.length_cons, List.length_nil] at this ⊢
          exact ⟨by omega, this.2⟩
      · rw [hdata, hmid, registeredEntries_cons]
        simp only [List.flatMap_append, List.flatMap_cons, List.flatMap_nil, List.append_assoc,
          List.append_nil]
      · rw [FstWriter.addSignals, List.foldl_cons, ← FstWriter.addSignals, heq, hrest,
          List.append_assoc, List.singleton_append]

/-- The writer after the definitions. -/
theorem fstDefined_spec {timescalePs : ℕ} {sigs : List FstSignal}
    (h : FstRegistered timescalePs sigs) : ∃ data n, n ≤ sigs.length ∧
      sigs.length ≤ fstMaxSignals ∧ data.length ≤ 2 ^ 62 ∧
      data = (registeredEntries none sigs).flatMap HierEntry.bytes ∧
      fstDefined timescalePs sigs =
        { fstOpen timescalePs with
          hier := some data
          signals := sigs
          numScopes := n
          defsEnded := true } := by
  obtain ⟨data, n, scope, hn, hfull, hdata, heq⟩ := addSignals_spec h.registers rfl
  have hhier := h.hier
  rw [fstDefined, heq, FstWriter.endDefinitions] at hhier ⊢
  rw [if_neg (show ¬ (fstOpen timescalePs).defsEnded = true from Bool.false_ne_true)] at hhier ⊢
  have hn' : n ≤ sigs.length := by simpa [fstOpen] using hn
  have hopen : (fstOpen timescalePs).currentScope = none ∧ (fstOpen timescalePs).signals = [] :=
    ⟨rfl, rfl⟩
  rw [hopen.1, List.nil_append] at hdata
  cases scope with
  | none =>
    have hnil : sigs = [] := by
      by_contra hne
      have := (hfull hne).2
      simp at this
    subst hnil
    have hempty : data = [] := by
      simpa [closingEntries, registeredEntries] using hdata
    subst hempty
    refine ⟨[], n, hn', by decide, by decide, rfl, ?_⟩
    simp [fstOpen]
  | some name =>
    simp only [Option.isSome_some, if_true, FstWriter.hierCloseScope] at hhier ⊢
    obtain ⟨closed, hclosed⟩ := Option.isSome_iff_exists.mp hhier
    obtain ⟨data', hdata', hend, hlen⟩ := bufBytes_eq_some hclosed
    obtain rfl := Option.some.inj hdata'
    have hne : sigs ≠ [] := by
      rintro rfl
      have hsame := congrArg FstWriter.currentScope heq
      simp [FstWriter.addSignals, fstOpen] at hsame
    have hfits := (hfull hne).1
    rw [hopen.2, List.length_nil, Nat.zero_add] at hfits
    refine ⟨closed, n, hn', hfits, hlen, ?_, ?_⟩
    · rw [hend, ← hdata]
      simp [closingEntries, registeredEntries, HierEntry.bytes]
    · rw [hclosed, hopen.2, List.nil_append]
      rfl

/-! ## Recording -/

/-- A recorded change, with its time in units of the time scale. -/
structure FstRecord where

  sigId : ℕ

  time : ℕ

  value : SimValue

/-- The changes that a run records, from a time on. -/
def recordedChanges (timescalePs : ℕ) (sigs : List FstSignal) : ℕ → List FstOp → List FstRecord
  | _, [] => []
  | _, .setTime timePs :: rest => recordedChanges timescalePs sigs (timePs / timescalePs) rest
  | now, .dump sigId value :: rest =>
    match sigs[sigId]? with
    | none => recordedChanges timescalePs sigs now rest
    | some sig =>
      ⟨sigId, now, { value with width := sig.width }⟩ :: recordedChanges timescalePs sigs now rest

theorem recordedChanges_dump (timescalePs : ℕ) (sigs : List FstSignal) (now sigId : ℕ)
    (value : SimValue) (rest : List FstOp) :
    recordedChanges timescalePs sigs now (.dump sigId value :: rest) =
      recordedChanges timescalePs sigs now [.dump sigId value] ++
        recordedChanges timescalePs sigs now rest := by
  simp only [recordedChanges]
  cases sigs[sigId]? <;> rfl

/-- The times of a run do not decrease and fit into 64 bits. -/
def FstTimesOk : ℕ → List FstOp → Prop
  | _, [] => True
  | last, .setTime timePs :: rest => last ≤ timePs ∧ timePs < 2 ^ 64 ∧ FstTimesOk timePs rest
  | last, .dump .. :: rest => FstTimesOk last rest

theorem doubleUntil_ge {minimum grown : ℕ} (h : 0 < grown) :
    minimum ≤ doubleUntil minimum grown := by
  fun_induction doubleUntil minimum grown with
  | case1 grown hlt ih => exact ih (by omega)
  | case2 grown hge => omega

theorem growDoubling_ge {current minimum initial : ℕ} (h : 0 < initial) :
    minimum ≤ growDoubling current minimum initial := by
  rw [growDoubling]
  refine doubleUntil_ge ?_
  split <;> omega

/-- The trace buffers stay within their limit. -/
def Retained (w : FstWriter) : Prop :=
  w.changesCap * changeBytes + w.timeCap * timeBytes ≤ maxEmittedTraceBytes

theorem growTimeTable_spec {w w' : FstWriter} {n : ℕ} (h : w.growTimeTable n = some w')
    (hr : Retained w) : ∃ cap, w' = { w with timeCap := cap } ∧ n ≤ cap ∧ Retained w' := by
  rw [FstWriter.growTimeTable] at h
  split at h
  · rename_i hle
    obtain rfl := Option.some.inj h
    exact ⟨w.timeCap, rfl, hle, hr⟩
  · simp only at h
    split at h
    · rename_i hlimit
      obtain rfl := Option.some.inj h
      exact ⟨_, rfl, growDoubling_ge (by decide), hlimit⟩
    · cases h

theorem growChanges_spec {w w' : FstWriter} {n : ℕ} (h : w.growChanges n = some w')
    (hr : Retained w) : ∃ cap, w' = { w with changesCap := cap } ∧ n ≤ cap ∧ Retained w' := by
  rw [FstWriter.growChanges] at h
  split at h
  · rename_i hle
    obtain rfl := Option.some.inj h
    exact ⟨w.changesCap, rfl, hle, hr⟩
  · simp only at h
    split at h
    · rename_i hlimit
      obtain rfl := Option.some.inj h
      exact ⟨_, rfl, growDoubling_ge (by decide), hlimit⟩
    · cases h

/-- The changes of a writer with their times. -/
def shownRecords (w : FstWriter) : List FstRecord :=
  w.changes.map fun c => ⟨c.sigId, w.timeTable.getD c.timeIndex 0, c.value⟩

/-- What every call of a run keeps; `now` is the current time in units. -/
structure Recording (base w : FstWriter) (now : ℕ) : Prop where

  signals : w.signals = base.signals

  hier : w.hier = base.hier

  numScopes : w.numScopes = base.numScopes

  timescalePs : w.timescalePs = base.timescalePs

  timescaleExp : w.timescaleExp = base.timescaleExp

  defsEnded : w.defsEnded = true

  currentTime : w.currentTime = now

  latest : w.timeTable ≠ [] →
    w.timeTable.getLast? = some now ∧ w.currentTimeIndex + 1 = w.timeTable.length

  empty : w.timeTable = [] → w.changes = []

  sorted : w.timeTable.Pairwise (· ≤ ·)

  le_now : ∀ t ∈ w.timeTable, t ≤ now

  now_lt : now < 2 ^ 64

  rising : w.changes.Pairwise fun c d => c.timeIndex ≤ d.timeIndex

  inRange : ∀ c ∈ w.changes, c.timeIndex < w.timeTable.length

  numTimes : w.timeTable.length ≤ w.timeCap

  numChanges : w.changes.length ≤ w.changesCap

  retained : Retained w

  startTime : w.startTime < 2 ^ 64

  endTime : w.endTime < 2 ^ 64

section

variable {base w w' : FstWriter} {now : ℕ}

theorem noteTime_spec (w : FstWriter) (units : ℕ) : ∃ s e, w.noteTime units =
    { w with currentTime := units, startTime := s, endTime := e, hasTime := true } ∧
      (w.startTime < 2 ^ 64 → units < 2 ^ 64 → s < 2 ^ 64) ∧
      (w.endTime < 2 ^ 64 → units < 2 ^ 64 → e < 2 ^ 64) := by
  rw [FstWriter.noteTime]
  cases htime : w.hasTime with
  | false =>
    refine ⟨units, max units units, by simp, fun _ h => h, fun _ h => ?_⟩
    rwa [max_self]
  | true =>
    refine ⟨w.startTime, max w.endTime units, ?_, fun h _ => h, fun h1 h2 => max_lt h1 h2⟩
    rw [if_pos rfl, ← htime]

theorem getD_append {l : List ℕ} {i : ℕ} (h : i < l.length) (x : ℕ) :
    (l ++ [x]).getD i 0 = l.getD i 0 := by
  rw [List.getD_eq_getElem?_getD, List.getD_eq_getElem?_getD, List.getElem?_append_left h]

/-- A new time at the end of the table. -/
theorem Recording.push {units cap : ℕ} {s e : ℕ} {b : Bool} (h : Recording base w now)
    (hle : now ≤ units) (hlt : units < 2 ^ 64) (hcap : w.timeTable.length + 1 ≤ cap)
    (hret : Retained { w with timeCap := cap }) (hs : s < 2 ^ 64) (he : e < 2 ^ 64) :
    let w' := { w with
      timeTable := w.timeTable ++ [units]
      currentTimeIndex := w.timeTable.length
      timeCap := cap
      currentTime := units
      startTime := s
      endTime := e
      hasTime := b }
    Recording base w' units ∧ shownRecords w' = shownRecords w := by
  refine ⟨{ h with
    currentTime := rfl
    latest := fun _ => ?_
    empty := fun hnil => ?_
    sorted := ?_
    le_now := fun t ht => ?_
    now_lt := hlt
    inRange := fun c hc => ?_
    numTimes := ?_
    retained := hret
    startTime := hs
    endTime := he }, ?_⟩
  · exact ⟨List.getLast?_concat, by simp⟩
  · simp at hnil
  · refine List.pairwise_append.mpr ⟨h.sorted, List.pairwise_singleton _ _, fun t ht u hu => ?_⟩
    rw [List.mem_singleton] at hu
    exact hu ▸ (h.le_now t ht).trans hle
  · rcases List.mem_append.mp ht with ht | ht
    · exact (h.le_now t ht).trans hle
    · exact (List.mem_singleton.mp ht).le
  · have := h.inRange c hc
    simp only [List.length_append, List.length_singleton]
    omega
  · simpa using hcap
  · refine List.map_congr_left fun c hc => ?_
    simp only [getD_append (h.inRange c hc)]

theorem setTime_spec {timePs : ℕ} (h : Recording base w now) (hhit : w.traceLimitHit = false)
    (hle : now ≤ timePs / base.timescalePs) (hlt : timePs < 2 ^ 64)
    (hok : (w.setTime timePs).traceLimitHit = false) :
    Recording base (w.setTime timePs) (timePs / base.timescalePs) ∧
      shownRecords (w.setTime timePs) = shownRecords w := by
  have hunits : timePs / base.timescalePs < 2 ^ 64 := (Nat.div_le_self _ _).trans_lt hlt
  obtain ⟨s, e, hnote, hs, he⟩ := noteTime_spec w (timePs / base.timescalePs)
  have hs := hs h.startTime hunits
  have he := he h.endTime hunits
  rw [FstWriter.setTime, if_neg (by simp [h.defsEnded])] at hok ⊢
  simp only at hok ⊢
  rw [h.timescalePs, hnote, if_neg (by simp [hhit])] at hok ⊢
  simp only at hok ⊢
  by_cases hlast : w.timeTable.getLast? = some (timePs / base.timescalePs)
  · have hne : w.timeTable ≠ [] := by
      rintro hnil
      rw [hnil] at hlast
      cases hlast
    have hpos : 0 < w.timeTable.length := List.length_pos_iff.mpr hne
    rw [if_pos hlast] at hok ⊢
    exact ⟨{ h with
      currentTime := rfl
      latest := fun _ => ⟨hlast, Nat.sub_add_cancel hpos⟩
      le_now := fun t ht => (h.le_now t ht).trans hle
      now_lt := hunits
      startTime := hs
      endTime := he }, rfl⟩
  · rw [if_neg hlast] at hok ⊢
    split at hok
    · cases hok
    · rename_i grown hgrow
      obtain ⟨cap, rfl, hcap, hret⟩ := growTimeTable_spec hgrow h.retained
      exact h.push hle hunits hcap hret hs he

theorem ensureTime_spec (h : Recording base w now) (hok : w.ensureTime.traceLimitHit = false) :
    Recording base w.ensureTime now ∧ shownRecords w.ensureTime = shownRecords w ∧
      w.ensureTime.timeTable ≠ [] := by
  rw [FstWriter.ensureTime] at hok ⊢
  by_cases hnil : w.timeTable = []
  · rw [if_pos hnil] at hok ⊢
    split at hok
    · cases hok
    · rename_i grown hgrow
      obtain ⟨cap, rfl, hcap, hret⟩ := growTimeTable_spec hgrow h.retained
      obtain ⟨hrec, hshown⟩ := h.push (b := w.hasTime) le_rfl h.now_lt (by simpa [hnil] using hcap)
        hret h.startTime h.endTime
      simp only [hnil, List.nil_append, List.length_nil, ← h.currentTime] at hrec hshown ⊢
      exact ⟨hrec, hshown, List.cons_ne_nil _ _⟩
  · rw [if_neg hnil] at hok ⊢
    exact ⟨h, rfl, hnil⟩

theorem dumpValue_spec {sigId : ℕ} {value : SimValue} (h : Recording base w now)
    (hhit : w.traceLimitHit = false) (hok : (w.dumpValue sigId value).traceLimitHit = false) :
    Recording base (w.dumpValue sigId value) now ∧ shownRecords (w.dumpValue sigId value) =
      shownRecords w ++ recordedChanges base.timescalePs base.signals now [.dump sigId value] := by
  rw [FstWriter.dumpValue, h.signals] at hok ⊢
  rw [recordedChanges]
  cases hsig : base.signals[sigId]? with
  | none => exact ⟨h, (List.append_nil _).symm⟩
  | some sig =>
    rw [hsig] at hok
    simp only [h.defsEnded, hhit, Bool.not_true, Bool.or_self, Bool.false_eq_true, if_false]
      at hok ⊢
    cases hens : w.ensureTime.traceLimitHit with
    | true =>
      rw [hens, if_pos rfl] at hok
      rw [hens] at hok
      cases hok
    | false =>
      obtain ⟨ht, hshown, hne⟩ := ensureTime_spec h hens
      rw [hens, if_neg Bool.false_ne_true] at hok
      rw [if_neg Bool.false_ne_true]
      split at hok
      · cases hok
      · rename_i grown hgrow
        obtain ⟨cap, rfl, hcap, hret⟩ := growChanges_spec hgrow ht.retained
        obtain ⟨hlast, hindex⟩ := ht.latest hne
        have hrange : w.ensureTime.currentTimeIndex < w.ensureTime.timeTable.length := by omega
        refine ⟨{ ht with
          empty := fun hnil => absurd hnil hne
          rising := ?_
          inRange := ?_
          numChanges := by simpa using hcap
          retained := hret }, ?_⟩
        · refine List.pairwise_append.mpr ⟨ht.rising, List.pairwise_singleton _ _, ?_⟩
          intro c hc d hd
          rw [List.mem_singleton] at hd
          have := ht.inRange c hc
          rw [hd]
          simp only
          omega
        · intro c hc
          rcases List.mem_append.mp hc with hc | hc
          · exact ht.inRange c hc
          · rw [List.mem_singleton.mp hc]
            exact hrange
        · have hnow : w.ensureTime.timeTable.getD w.ensureTime.currentTimeIndex 0 = now := by
            rw [List.getLast?_eq_getElem?] at hlast
            rw [List.getD_eq_getElem?_getD,
              show w.ensureTime.currentTimeIndex = w.ensureTime.timeTable.length - 1 by omega, hlast]
            rfl
          rw [← hshown, shownRecords, shownRecords, List.map_append, List.map_singleton]
          simp only [hnow]
          rfl

/-- Once the limit is hit it stays hit. -/
theorem apply_hit {op : FstOp} (h : w.traceLimitHit = true) :
    (w.apply op).traceLimitHit = true := by
  cases op with
  | setTime timePs =>
    obtain ⟨s, e, hnote, -⟩ := noteTime_spec w (timePs / w.timescalePs)
    rw [FstWriter.apply, FstWriter.setTime]
    split
    · exact h
    · simp only [hnote, h, if_true]
  | dump sigId value =>
    rw [FstWriter.apply, FstWriter.dumpValue]
    split
    · exact h
    · rw [if_pos (by rw [h, Bool.or_true])]
      exact h

theorem foldl_hit : ∀ {ops : List FstOp} {w : FstWriter}, w.traceLimitHit = true →
    (ops.foldl FstWriter.apply w).traceLimitHit = true
  | [], _, h => h
  | _ :: rest, _, h => @foldl_hit rest _ (apply_hit h)

theorem not_hit_of_foldl {ops : List FstOp} {w : FstWriter}
    (h : (ops.foldl FstWriter.apply w).traceLimitHit = false) : w.traceLimitHit = false := by
  cases hw : w.traceLimitHit with
  | false => rfl
  | true =>
    rw [foldl_hit hw] at h
    cases h

/-- A run within the limits records its changes in order. -/
theorem run_recording : ∀ {ops : List FstOp} {w : FstWriter} {last : ℕ},
    Recording base w (last / base.timescalePs) → FstTimesOk last ops →
    (ops.foldl FstWriter.apply w).traceLimitHit = false →
      (∃ now, Recording base (ops.foldl FstWriter.apply w) now) ∧
        shownRecords (ops.foldl FstWriter.apply w) = shownRecords w ++
          recordedChanges base.timescalePs base.signals (last / base.timescalePs) ops
  | [], w, last, h, _, _ => ⟨⟨_, h⟩, (List.append_nil _).symm⟩
  | .setTime timePs :: rest, w, last, h, htimes, hok => by
      obtain ⟨hle, hlt, hrest⟩ := htimes
      rw [List.foldl_cons] at hok ⊢
      have hstep := not_hit_of_foldl hok
      have hw : w.traceLimitHit = false := @not_hit_of_foldl [.setTime timePs] w hstep
      obtain ⟨hrec, hshown⟩ := setTime_spec h hw (Nat.div_le_div_right hle) hlt hstep
      obtain ⟨hfinal, hrun⟩ := @run_recording rest _ timePs hrec hrest hok
      refine ⟨hfinal, hrun.trans ?_⟩
      rw [hshown, recordedChanges]
  | .dump sigId value :: rest, w, last, h, htimes, hok => by
      rw [List.foldl_cons] at hok ⊢
      have hstep := not_hit_of_foldl hok
      have hw : w.traceLimitHit = false := @not_hit_of_foldl [.dump sigId value] w hstep
      obtain ⟨hrec, hshown⟩ := dumpValue_spec h hw hstep
      obtain ⟨hfinal, hrun⟩ := @run_recording rest _ last hrec htimes hok
      refine ⟨hfinal, hrun.trans ?_⟩
      rw [hshown, List.append_assoc, recordedChanges_dump _ _ _ _ _ rest]

end

/-! ## The file of a run -/

theorem timesRise_of_sorted {bound : ℕ} (hbound : bound < 2 ^ 64) : ∀ {times : List ℕ} {prev : ℕ},
    times.Pairwise (· ≤ ·) → (∀ t ∈ times, t ≤ bound) → (∀ t ∈ times, prev ≤ t) →
      TimesRise prev times
  | [], _, _, _, _ => trivial
  | time :: rest, prev, hsorted, hle, hge => by
      obtain ⟨hfirst, hrest⟩ := List.pairwise_cons.mp hsorted
      refine ⟨hge time List.mem_cons_self, (hle time List.mem_cons_self).trans_lt hbound, ?_⟩
      exact timesRise_of_sorted hbound hrest (fun t ht => hle t (List.mem_cons_of_mem _ ht)) hfirst

theorem rising_of_pairwise {bound : ℕ} : ∀ {changes : List FstChange} {prev : ℕ},
    changes.Pairwise (fun c d => c.timeIndex ≤ d.timeIndex) →
    (∀ c ∈ changes, c.timeIndex < bound) → (∀ c ∈ changes, prev ≤ c.timeIndex) →
      Rising bound prev changes
  | [], _, _, _, _ => trivial
  | change :: rest, prev, hsorted, hlt, hge => by
      obtain ⟨hfirst, hrest⟩ := List.pairwise_cons.mp hsorted
      refine ⟨hge change List.mem_cons_self, hlt change List.mem_cons_self, ?_⟩
      exact rising_of_pairwise hrest (fun c hc => hlt c (List.mem_cons_of_mem _ hc)) hfirst

/-- A change as a file shows it, in units of the time scale. -/
def FstRecord.shown (r : FstRecord) : ℕ × List Bool := (r.time, valueBits r.value.width r.value)

/-- The changes of every signal as they were recorded. -/
def recordedTrace (timescalePs : ℕ) (sigs : List FstSignal) (ops : List FstOp) :
    List (List (ℕ × List Bool)) :=
  (List.range sigs.length).map fun i =>
    ((recordedChanges timescalePs sigs 0 ops).filter (·.sigId == i)).map FstRecord.shown

theorem recordedChanges_signal {timescalePs : ℕ} {sigs : List FstSignal} : ∀ {ops : List FstOp}
    {now : ℕ}, ∀ r ∈ recordedChanges timescalePs sigs now ops,
      ∃ sig, sigs[r.sigId]? = some sig ∧ r.value.width = sig.width
  | [], _, _, h => by simp [recordedChanges] at h
  | .setTime timePs :: rest, _, r, h => by
      rw [recordedChanges] at h
      exact recordedChanges_signal r h
  | .dump sigId value :: rest, now, r, h => by
      rw [recordedChanges] at h
      cases hsig : sigs[sigId]? with
      | none =>
        rw [hsig] at h
        exact recordedChanges_signal r h
      | some sig =>
        rw [hsig] at h
        rcases List.mem_cons.mp h with rfl | h
        · exact ⟨sig, hsig, rfl⟩
        · exact recordedChanges_signal r h

section

variable {timescalePs : ℕ} {sigs : List FstSignal} {ops : List FstOp}

theorem fstDefined_recording (hreg : FstRegistered timescalePs sigs) :
    Recording (fstDefined timescalePs sigs) (fstDefined timescalePs sigs) 0 := by
  obtain ⟨data, n, -, -, -, -, heq⟩ := fstDefined_spec hreg
  rw [heq]
  exact
    { signals := rfl, hier := rfl, numScopes := rfl, timescalePs := rfl, timescaleExp := rfl
      defsEnded := rfl
      currentTime := rfl
      latest := fun h => absurd rfl h
      empty := fun _ => rfl
      sorted := List.Pairwise.nil
      le_now := by simp [fstOpen]
      now_lt := by decide
      rising := List.Pairwise.nil
      inRange := by simp [fstOpen]
      numTimes := le_rfl
      numChanges := le_rfl
      retained := by simp [Retained, fstOpen]
      startTime := Nat.two_pow_pos 64
      endTime := Nat.two_pow_pos 64 }

/-- The file of a run reads back as the registered signals with their recorded changes. -/
theorem readFst_run (hreg : FstRegistered timescalePs sigs)
    (hwidths : ∀ sig ∈ sigs, sig.width ≤ 256) (htimes : FstTimesOk 0 ops)
    (hlimit : (fstRun timescalePs sigs ops).traceLimitHit = false) (date : Bytes) :
    ∃ trace, readFst ((fstRun timescalePs sigs ops).close date) = some trace ∧
      trace.header.timescaleExp = timescaleToExponent timescalePs ∧
      trace.vars = sigs.map FstSignal.var ∧
      trace.frame = List.replicate (sigs.map FstSignal.width).sum 48 ∧
      trace.changes = recordedTrace timescalePs sigs ops := by
  have hbase := fstDefined_recording hreg
  obtain ⟨data, n, hn, hmax, hlen, hdata, heq⟩ := fstDefined_spec hreg
  have hstart : Recording (fstDefined timescalePs sigs) (fstDefined timescalePs sigs)
      (0 / (fstDefined timescalePs sigs).timescalePs) := by rwa [Nat.zero_div]
  obtain ⟨⟨now, h⟩, hshown⟩ := run_recording hstart htimes hlimit
  rw [← fstRun, Nat.zero_div] at hshown
  rw [← fstRun] at h
  have hempty : shownRecords (fstDefined timescalePs sigs) = [] := by rw [heq]; rfl
  have hfields : (fstDefined timescalePs sigs).signals = sigs ∧
      (fstDefined timescalePs sigs).timescalePs = timescalePs ∧
      (fstDefined timescalePs sigs).timescaleExp = timescaleToExponent timescalePs ∧
      (fstDefined timescalePs sigs).numScopes = n ∧
      (fstDefined timescalePs sigs).hier = some data := by
    rw [heq]
    exact ⟨rfl, rfl, rfl, rfl, rfl⟩
  obtain ⟨hsigs, hps, hexp, hscopes, hhier⟩ := hfields
  rw [hempty, List.nil_append, hps, hsigs] at hshown
  set w := fstRun timescalePs sigs ops with hw
  have hwsigs : w.signals = sigs := h.signals.trans hsigs
  have hwexp : w.timescaleExp = timescaleToExponent timescalePs := h.timescaleExp.trans hexp
  have hret := h.retained
  rw [Retained, changeBytes, timeBytes, maxEmittedTraceBytes] at hret
  have hnumTimes := h.numTimes
  have hnumChanges := h.numChanges
  have hrange := timescaleToExponent_range timescalePs
  rw [fstMaxSignals] at hmax
  have hfits : TraceFits w :=
    { header :=
        { startTime := h.startTime
          endTime := h.endTime
          numScopes := by rw [h.numScopes, hscopes]; omega
          numSignals := by rw [hwsigs]; omega
          exponent := by rw [hwexp]; omega }
      widths := by rwa [hwsigs]
      numSignals := by rwa [hwsigs]
      times := timesRise_of_sorted h.now_lt h.sorted h.le_now fun _ _ => Nat.zero_le _
      numTimes := by omega
      changes := rising_of_pairwise h.rising h.inRange fun _ _ => Nat.zero_le _
      numChanges := by omega }
  refine ⟨w.trace, ?_, hwexp, ?_, ?_, ?_⟩
  · exact readFst_close hfits h.defsEnded (h.hier.trans hhier) (by rw [hwsigs, hdata]) hlen date
  · rw [FstWriter.trace, hwsigs]
  · rw [FstWriter.trace, FstWriter.frameData, FstWriter.totalBits, hwsigs]
  · rw [FstWriter.trace, recordedTrace, hwsigs, ← hshown]
    refine List.map_congr_left fun i _ => ?_
    rw [FstWriter.shownChanges, shownRecords, List.filter_map, List.map_map, signalChanges]
    refine List.map_congr_left fun c hc => ?_
    obtain ⟨hmem, hid⟩ := List.mem_filter.mp hc
    have hrecord : (⟨c.sigId, w.timeTable.getD c.timeIndex 0, c.value⟩ : FstRecord) ∈
        recordedChanges timescalePs sigs 0 ops := by
      rw [← hshown]
      exact List.mem_map_of_mem hmem
    obtain ⟨sig, hsig, hwidth⟩ := recordedChanges_signal _ hrecord
    have hi : c.sigId = i := by simpa using hid
    have hwidthOf : w.widthOf i = c.value.width := by
      rw [← hi, widthOf_eq (by rw [hwsigs]; exact hsig)]
      exact hwidth.symm
    simp only [Function.comp_apply, FstRecord.shown, hwidthOf]

end

/-! ## Absolute times -/

/-- The unit that a header declares, in picoseconds. -/
def FstHeader.unitPs (h : FstHeader) : ℕ := 10 ^ (h.timescaleExp + 12).toNat

/-- The changes with their times in picoseconds. -/
def inPicoseconds (unit : ℕ) (changes : List (List (ℕ × List Bool))) :
    List (List (ℕ × List Bool)) :=
  changes.map (List.map fun c => (c.1 * unit, c.2))

/-- The file shows the registered signals and, in the unit that its header declares, the recorded
changes, their times rounded down to the time scale. -/
def FstMeets (timescalePs : ℕ) (sigs : List FstSignal) (ops : List FstOp) (date : Bytes) : Prop :=
  ∃ trace, readFst ((fstRun timescalePs sigs ops).close date) = some trace ∧
    trace.vars = sigs.map FstSignal.var ∧
    inPicoseconds trace.header.unitPs trace.changes =
      inPicoseconds timescalePs (recordedTrace timescalePs sigs ops)

theorem unit_of_power (k : ℕ) : 10 ^ (timescaleToExponent (10 ^ k) + 12).toNat = 10 ^ min k 12 := by
  by_cases hk : k ≤ 12
  · interval_cases k <;> decide
  · have hge : 1000000000000 ≤ 10 ^ k :=
      calc 1000000000000 = 10 ^ 12 := by norm_num
        _ ≤ 10 ^ k := Nat.pow_le_pow_right (by decide) (by omega)
    rw [timescaleToExponent, if_pos hge, min_eq_right (by omega)]
    rfl

theorem inPicoseconds_eq_iff {a b : ℕ} {changes : List (List (ℕ × List Bool))} :
    inPicoseconds a changes = inPicoseconds b changes ↔
      a = b ∨ ∀ cs ∈ changes, ∀ c ∈ cs, c.1 = 0 := by
  simp only [inPicoseconds, List.map_inj_left, Prod.mk.injEq, and_true]
  constructor
  · intro h
    by_cases hab : a = b
    · exact .inl hab
    · refine .inr fun cs hcs c hc => ?_
      by_contra hne
      exact hab (Nat.eq_of_mul_eq_mul_left (by omega) (h cs hcs c hc))
  · rintro (rfl | h) cs hcs c hc
    · rfl
    · rw [h cs hcs c hc, Nat.zero_mul, Nat.zero_mul]

theorem recordedTrace_zero_iff {timescalePs : ℕ} {sigs : List FstSignal} {ops : List FstOp} :
    (∀ cs ∈ recordedTrace timescalePs sigs ops, ∀ c ∈ cs, c.1 = 0) ↔
      ∀ r ∈ recordedChanges timescalePs sigs 0 ops, r.time = 0 := by
  simp only [recordedTrace, List.mem_map, List.mem_range]
  constructor
  · intro h r hr
    obtain ⟨sig, hsig, -⟩ := recordedChanges_signal r hr
    exact h _ ⟨r.sigId, (List.getElem?_eq_some_iff.mp hsig).1, rfl⟩ _
      (List.mem_map_of_mem (List.mem_filter.mpr ⟨hr, beq_self_eq_true _⟩))
  · rintro h _ ⟨i, -, rfl⟩ c hc
    obtain ⟨r, hr, rfl⟩ := List.mem_map.mp hc
    exact h r (List.mem_filter.mp hr).1

section

variable {sigs : List FstSignal} {ops : List FstOp}

/-- The file of a run is right exactly when its header declares the time scale or every change is
recorded at time zero. -/
theorem fstMeets_iff_unit {timescalePs : ℕ} (hreg : FstRegistered timescalePs sigs)
    (hwidths : ∀ sig ∈ sigs, sig.width ≤ 256) (htimes : FstTimesOk 0 ops)
    (hlimit : (fstRun timescalePs sigs ops).traceLimitHit = false) (date : Bytes) :
    FstMeets timescalePs sigs ops date ↔
      10 ^ (timescaleToExponent timescalePs + 12).toNat = timescalePs ∨
        ∀ r ∈ recordedChanges timescalePs sigs 0 ops, r.time = 0 := by
  obtain ⟨trace, hread, hexp, hvars, -, hchanges⟩ := readFst_run hreg hwidths htimes hlimit date
  rw [← recordedTrace_zero_iff, ← inPicoseconds_eq_iff, ← hexp, ← FstHeader.unitPs]
  constructor
  · rintro ⟨trace', hread', -, heq⟩
    obtain rfl : trace = trace' := Option.some.inj (hread.symm.trans hread')
    rwa [hchanges] at heq
  · intro heq
    exact ⟨trace, hread, hvars, by rwa [hchanges]⟩

/-- With a power of ten as time scale the file of a run is right exactly up to a second, or when
every change is recorded at time zero. -/
theorem fstMeets_iff {k : ℕ} (hreg : FstRegistered (10 ^ k) sigs)
    (hwidths : ∀ sig ∈ sigs, sig.width ≤ 256) (htimes : FstTimesOk 0 ops)
    (hlimit : (fstRun (10 ^ k) sigs ops).traceLimitHit = false) (date : Bytes) :
    FstMeets (10 ^ k) sigs ops date ↔
      k ≤ 12 ∨ ∀ r ∈ recordedChanges (10 ^ k) sigs 0 ops, r.time = 0 := by
  have hunit : 10 ^ min k 12 = 10 ^ k ↔ k ≤ 12 := by
    rw [(Nat.pow_right_injective (show 2 ≤ 10 by decide)).eq_iff]
    exact min_eq_left_iff
  rw [fstMeets_iff_unit hreg hwidths htimes hlimit date, unit_of_power, hunit]

end

namespace FstExample

def wire : FstSignal := ⟨⟨[116, 111, 112], by decide⟩, ⟨[97], by decide⟩, 1⟩

/-- Two changes one unit of time apart. -/
def ops (timescalePs : ℕ) : List FstOp :=
  [.setTime 0, .dump 0 (simValZero 1), .setTime timescalePs, .dump 0 (simValOnes 1)]

theorem registers (timescalePs : ℕ) : (fstOpen timescalePs).Registers [wire] := by
  simp [FstWriter.Registers, FstWriter.addSignal, FstWriter.switchScope, FstWriter.hierOpenScope,
    fstOpen, fstMaxSignals, bufBytes, scopeEntry, varEntry, terminated, wire, varint]

theorem registered (timescalePs : ℕ) : FstRegistered timescalePs [wire] := by
  refine ⟨registers timescalePs, ?_⟩
  obtain ⟨old, data, n, hold, -, -, hdata, heq⟩ := addSignal_spec (registers timescalePs).1
  obtain rfl : [] = old := Option.some.inj hold
  have hlen : data.length + upscopeEntry.length ≤ 2 ^ 62 := by
    rw [hdata]
    simp [switchEntries, fstOpen, HierEntry.bytes, terminated, wire, varint, upscopeEntry]
  rw [fstDefined, FstWriter.addSignals, List.foldl_cons, List.foldl_nil, heq,
    FstWriter.endDefinitions,
    if_neg (show ¬ (fstOpen timescalePs).defsEnded = true from Bool.false_ne_true)]
  simp only [Option.isSome_some, if_true, FstWriter.hierCloseScope, bufBytes, Option.bind_some,
    if_pos hlen]

theorem ops_times {timescalePs : ℕ} (h : timescalePs < 2 ^ 64) : FstTimesOk 0 (ops timescalePs) :=
  ⟨le_rfl, Nat.two_pow_pos 64, Nat.zero_le _, h, trivial⟩

theorem ops_limit {timescalePs : ℕ} (h : 0 < timescalePs) :
    (fstRun timescalePs [wire] (ops timescalePs)).traceLimitHit = false := by
  obtain ⟨data, n, -, -, -, -, heq⟩ := fstDefined_spec (registered timescalePs)
  rw [fstRun, heq]
  simp [ops, FstWriter.apply, FstWriter.setTime, FstWriter.noteTime, FstWriter.growTimeTable,
    FstWriter.growChanges, FstWriter.dumpValue, FstWriter.ensureTime, growDoubling, doubleUntil,
    fstOpen, wire, changeBytes, timeBytes, maxEmittedTraceBytes, Nat.div_self h]

end FstExample

open FstExample in
theorem fstMeets_iff_nanoseconds : FstMeets (10 ^ 3) [wire] (ops (10 ^ 3)) [] :=
  (fstMeets_iff (registered _) (by decide) (ops_times (by decide)) (ops_limit (by decide)) []).mpr
    (.inl (by decide))

open FstExample in
/-- A time scale of ten seconds is declared as one second. -/
theorem fstMeets_tenSeconds : ¬ FstMeets (10 ^ 13) [wire] (ops (10 ^ 13)) [] := by
  rw [fstMeets_iff_unit (registered _) (by decide) (ops_times (by decide)) (ops_limit (by decide)),
    unit_of_power]
  rintro (h | h)
  · revert h
    decide
  · have hone := h ⟨0, 1, simValOnes 1⟩ (by simp [recordedChanges, ops, wire, simValOnes])
    cases hone

end JzHdl

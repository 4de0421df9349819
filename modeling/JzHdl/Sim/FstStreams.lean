import JzHdl.Sim.FstBlocks
import Mathlib.Data.List.TakeWhile

/-! # Round trips of the value changes

The stream of a signal holds its changes in order, the chain table leads to the
streams, and the time table gives the times back.
-/

namespace JzHdl

open ByteCodec

/-! ## One change -/

/-- The bits of a value below a width, the most significant first. -/
def valueBits (width : ℕ) (value : SimValue) : List Bool :=
  (List.range width).map fun j => simValGetBit value (width - 1 - j)

theorem testByte_packByte (bits : ℕ → Bool) {i : ℕ} (hi : i < 8) :
    testByte (packByte bits) i = bits i := by
  have hle : ∀ k, (bits k).toNat ≤ 1 := fun k => Bool.toNat_le (bits k)
  have h0 := hle 0
  have h1 := hle 1
  have h2 := hle 2
  have h3 := hle 3
  have h4 := hle 4
  have h5 := hle 5
  have h6 := hle 6
  have h7 := hle 7
  have hbit : ∀ n : ℕ, n = (bits i).toNat → (n == 1) = bits i := by
    rintro n rfl
    cases bits i <;> rfl
  rw [testByte, packByte, toNat_ofNat (by omega)]
  refine hbit _ ?_
  obtain rfl | rfl | rfl | rfl | rfl | rfl | rfl | rfl :
    i = 0 ∨ i = 1 ∨ i = 2 ∨ i = 3 ∨ i = 4 ∨ i = 5 ∨ i = 6 ∨ i = 7 := by omega
  all_goals
    simp only [Nat.sub_zero, Nat.reduceSub, Nat.reducePow]
    omega

@[simp] theorem length_packBits (width : ℕ) (value : SimValue) :
    (packBits width value).length = (width + 7) / 8 := by
  simp [packBits]

theorem unpackBits_packBits (width : ℕ) (value : SimValue) :
    unpackBits width (packBits width value) = valueBits width value := by
  refine List.map_congr_left fun j hj => ?_
  rw [List.mem_range] at hj
  have hbyte : j / 8 < (List.range ((width + 7) / 8)).length := by
    rw [List.length_range]
    omega
  have hj8 : j / 8 * 8 + j % 8 = j := by omega
  rw [packBits, List.getD_eq_getElem?_getD, List.getElem?_map, List.getElem?_eq_getElem hbyte,
    Option.map_some, Option.getD_some, List.getElem_range,
    testByte_packByte _ (Nat.mod_lt j (by decide)), hj8]
  simp [hj]

theorem changeEntry_ne_nil (width delta : ℕ) (value : SimValue) :
    changeEntry width delta value ≠ [] := by
  rw [changeEntry]
  split
  · exact varint_ne_nil _
  · simp [varint_ne_nil]

theorem readChange_changeEntry (width delta : ℕ) (value : SimValue) :
    Reads (readChange width) (changeEntry width delta value) (delta, valueBits width value) := by
  intro rest
  rw [readChange, changeEntry]
  by_cases hw : width = 1
  · subst hw
    rw [if_pos rfl, if_pos rfl, Reader.bind_eq (readVarint_varint _ rest)]
    have hbits : valueBits 1 value = [simValGetBit value 0] := rfl
    rw [hbits]
    cases simValGetBit value 0 with
    | true =>
      have hhalf : (delta * 4 + 2) / 4 = delta ∧ (delta * 4 + 2) / 2 % 2 = 1 ∧
          (delta * 4 + 2) % 2 = 0 := by omega
      rw [if_pos rfl, Reader.guard_bind (by rw [hhalf.2.2]; rfl), hhalf.1, hhalf.2.1]
      rfl
    | false =>
      have hhalf : (delta * 4 + 0) / 4 = delta ∧ (delta * 4 + 0) / 2 % 2 = 0 ∧
          (delta * 4 + 0) % 2 = 0 := by omega
      rw [if_neg Bool.false_ne_true, Reader.guard_bind (by rw [hhalf.2.2]; rfl), hhalf.1, hhalf.2.1]
      rfl
  · have hhalf : delta * 2 / 2 = delta ∧ delta * 2 % 2 = 0 := by omega
    rw [if_neg hw, if_neg hw, List.append_assoc, Reader.bind_eq (readVarint_varint _ _),
      Reader.guard_bind (by rw [hhalf.2]; rfl),
      Reader.bind_eq (takeBytes_append (length_packBits width value) rest), hhalf.1,
      unpackBits_packBits]
    rfl

/-! ## One stream -/

/-- The changes of one signal with their distances. -/
def deltaChanges : ℕ → List FstChange → List (ℕ × SimValue)
  | _, [] => []
  | prev, change :: rest =>
    (u32 (change.timeIndex + 2 ^ 32 - prev), change.value) :: deltaChanges change.timeIndex rest

def signalChanges (changes : List FstChange) (sigId : ℕ) : List FstChange :=
  changes.filter (·.sigId == sigId)

def streamBytes (width : ℕ) (deltas : List (ℕ × SimValue)) : Bytes :=
  deltas.flatMap fun d => changeEntry width d.1 d.2

theorem foldl_vcStep {signals : List FstSignal} {sigId : ℕ} {sig : FstSignal}
    (hsig : signals[sigId]? = some sig) : ∀ (changes : List FstChange) (vc : VcStreams),
      (changes.foldl (vcStep signals) vc).data sigId = vc.data sigId ++
        streamBytes sig.width (deltaChanges (vc.prevIndex sigId) (signalChanges changes sigId))
  | [], vc => by simp [signalChanges, deltaChanges, streamBytes]
  | change :: rest, vc => by
      rw [List.foldl_cons, foldl_vcStep hsig rest, signalChanges, signalChanges, List.filter_cons]
      by_cases hid : change.sigId = sigId
      · subst hid
        simp only [vcStep, hsig, Function.update_self, beq_self_eq_true, if_true, deltaChanges,
          streamBytes, List.flatMap_cons, List.append_assoc]
      · have hdata : (vcStep signals vc change).data sigId = vc.data sigId ∧
            (vcStep signals vc change).prevIndex sigId = vc.prevIndex sigId := by
          rw [vcStep]
          split
          · exact ⟨rfl, rfl⟩
          · exact ⟨Function.update_of_ne (Ne.symm hid) _ _, Function.update_of_ne (Ne.symm hid) _ _⟩
        rw [hdata.1, hdata.2, if_neg (by simpa using hid)]

theorem vcStreams_getElem {signals : List FstSignal} (changes : List FstChange) {sigId : ℕ}
    {sig : FstSignal} (hsig : signals[sigId]? = some sig) :
    (vcStreams signals changes)[sigId]? =
      some (streamBytes sig.width (deltaChanges 0 (signalChanges changes sigId))) := by
  have hlt : sigId < signals.length := (List.getElem?_eq_some_iff.mp hsig).1
  rw [vcStreams, List.getElem?_map, List.getElem?_range hlt, Option.map_some,
    foldl_vcStep hsig]
  rfl

theorem readStream_storedVc (width : ℕ) (deltas : List (ℕ × SimValue)) :
    readStream width (storedVc (streamBytes width deltas)) =
      some (deltas.map fun d => (d.1, valueBits width d.2)) := by
  cases deltas with
  | nil => rfl
  | cons d rest =>
    have hne : streamBytes width (d :: rest) ≠ [] := by
      simp [streamBytes, changeEntry_ne_nil]
    rw [storedVc, if_neg hne, readStream, if_pos rfl]
    exact readAll_flatMap (fun d _ => readChange_changeEntry width d.1 d.2)
      fun d _ => changeEntry_ne_nil width d.1 d.2

/-- The time indices of some changes rise from a start and stay below a bound. -/
def Rising (bound : ℕ) : ℕ → List FstChange → Prop
  | _, [] => True
  | prev, change :: rest =>
    prev ≤ change.timeIndex ∧ change.timeIndex < bound ∧ Rising bound change.timeIndex rest

theorem Rising.filter {bound : ℕ} (p : FstChange → Bool) : ∀ {changes : List FstChange} {prev : ℕ},
    Rising bound prev changes → ∀ prev' ≤ prev, Rising bound prev' (changes.filter p)
  | [], _, _, _, _ => trivial
  | change :: rest, prev, h, prev', hle => by
      obtain ⟨h1, h2, h3⟩ := h
      rw [List.filter_cons]
      split
      · exact ⟨hle.trans h1, h2, h3.filter p _ le_rfl⟩
      · exact h3.filter p _ (hle.trans h1)

/-- The distances lead back to the recorded times. -/
theorem timedChanges_deltaChanges {times : List ℕ} {width : ℕ} (hbound : times.length ≤ 2 ^ 32) :
    ∀ {changes : List FstChange} {prev : ℕ}, Rising times.length prev changes →
      timedChanges times prev ((deltaChanges prev changes).map fun d => (d.1, valueBits width d.2)) =
        some (changes.map fun c => (times.getD c.timeIndex 0, valueBits width c.value))
  | [], _, _ => rfl
  | change :: rest, prev, h => by
      obtain ⟨h1, h2, h3⟩ := h
      have hdelta : prev + u32 (change.timeIndex + 2 ^ 32 - prev) = change.timeIndex := by
        rw [u32]
        omega
      have ih := @timedChanges_deltaChanges times width hbound _ _ h3
      rw [deltaChanges, List.map_cons, timedChanges, hdelta, ih, List.getElem?_eq_getElem h2]
      simp only [List.map_cons, List.getD_eq_getElem?_getD, List.getElem?_eq_getElem h2,
        Option.getD_some]

/-! ## The chain table -/

/-- The offsets that are not zero rise and fit into 32 bits. -/
def OffsetsRise : ℕ → List ℕ → Prop
  | _, [] => True
  | pval, offset :: rest =>
    if 0 < offset then pval ≤ offset ∧ offset < 2 ^ 32 ∧ OffsetsRise offset rest
    else OffsetsRise pval rest

theorem OffsetsRise.dropWhile : ∀ {offsets : List ℕ} {pval : ℕ}, OffsetsRise pval offsets →
    OffsetsRise pval (offsets.dropWhile (· = 0))
  | [], _, h => h
  | offset :: rest, pval, h => by
      rw [List.dropWhile_cons]
      by_cases hzero : offset = 0
      · rw [if_pos (by simpa using hzero)]
        rw [OffsetsRise, if_neg (by omega)] at h
        exact h.dropWhile
      · rwa [if_neg (by simpa using hzero)]

theorem takeWhile_zero (offsets : List ℕ) :
    offsets.takeWhile (· = 0) = List.replicate (offsets.takeWhile (· = 0)).length 0 := by
  refine List.eq_replicate_of_mem fun n hn => ?_
  simpa using List.mem_takeWhile_imp hn

theorem decodeChain_chainValues (pval : ℕ) (offsets : List ℕ) (h : OffsetsRise pval offsets) :
    decodeChain pval (chainValues pval offsets) = offsets := by
  induction pval, offsets using chainValues.induct with
  | case1 pval => rw [chainValues, decodeChain]
  | case2 pval offset rest hpos ih =>
    rw [OffsetsRise, if_pos hpos] at h
    obtain ⟨h1, h2, h3⟩ := h
    have hdelta : u32 (offset + 2 ^ 32 - pval) = offset - pval := by
      rw [u32]
      omega
    have hodd : ((offset - pval) * 2 + 1) % 2 = 1 ∧
        pval + ((offset - pval) * 2 + 1) / 2 = offset := by
      omega
    rw [chainValues, if_pos hpos, hdelta, decodeChain, if_pos hodd.1, hodd.2, ih h3]
  | case3 pval offset rest hpos ih =>
    rw [OffsetsRise, if_neg hpos] at h
    have hzero : offset = 0 := by omega
    have hrun : ∀ n : ℕ, (n + 1) * 2 % 2 ≠ 1 ∧ (n + 1) * 2 / 2 = n + 1 := fun n => by omega
    rw [chainValues, if_neg hpos, decodeChain, if_neg (hrun _).1, (hrun _).2, ih h.dropWhile,
      List.replicate_succ, ← takeWhile_zero, List.cons_append, List.takeWhile_append_dropWhile, hzero]

/-- The size of the stored streams. -/
def storedSize (streams : List Bytes) : ℕ := (streams.flatMap storedVc).length

theorem storedSize_cons (stream : Bytes) (rest : List Bytes) :
    storedSize (stream :: rest) = (storedVc stream).length + storedSize rest := by
  rw [storedSize, List.flatMap_cons, List.length_append, storedSize]

theorem vcOffsets_rise : ∀ {streams : List Bytes} {cumulative pval : ℕ}, 0 < cumulative →
    pval ≤ cumulative → cumulative + storedSize streams < 2 ^ 32 →
      OffsetsRise pval (vcOffsets cumulative streams)
  | [], _, _, _, _, _ => trivial
  | stream :: rest, cumulative, pval, hpos, hle, hsize => by
      rw [storedSize_cons] at hsize
      rw [vcOffsets]
      by_cases hnil : stream = []
      · rw [if_pos hnil, OffsetsRise, if_neg (by decide)]
        exact vcOffsets_rise hpos hle (by omega)
      · rw [storedVc, if_neg hnil, List.length_cons] at hsize
        have hnext : u32 (cumulative + (1 + stream.length)) = cumulative + (1 + stream.length) := by
          rw [u32]
          exact Nat.mod_eq_of_lt (by omega)
        rw [if_neg hnil, OffsetsRise, if_pos hpos, hnext]
        exact ⟨hle, by omega, vcOffsets_rise (by omega) (by omega) (by omega)⟩

/-- The first offset from a place on is the place itself, or the end. -/
theorem find_vcOffsets : ∀ {streams : List Bytes} {cumulative : ℕ}, 0 < cumulative →
    ((vcOffsets cumulative streams).find? (0 < ·)).getD (cumulative + storedSize streams) = cumulative
  | [], cumulative, _ => by simp [vcOffsets, storedSize]
  | stream :: rest, cumulative, hpos => by
      rw [vcOffsets]
      by_cases hnil : stream = []
      · rw [if_pos hnil, List.find?_cons_of_neg (by simp), storedSize_cons, storedVc, if_pos hnil,
          List.length_nil, Nat.zero_add]
        exact find_vcOffsets hpos
      · rw [if_neg hnil, List.find?_cons_of_pos (by simpa using hpos), Option.getD_some]

theorem cutStreams_vcOffsets : ∀ {streams : List Bytes} {front : Bytes}, 0 < front.length →
    front.length + storedSize streams < 2 ^ 32 →
      cutStreams (front ++ streams.flatMap storedVc) (vcOffsets front.length streams) =
        streams.map storedVc
  | [], _, _, _ => rfl
  | stream :: rest, front, hpos, hsize => by
      rw [storedSize_cons] at hsize
      rw [vcOffsets, List.map_cons]
      by_cases hnil : stream = []
      · rw [storedVc, if_pos hnil] at hsize
        rw [if_pos hnil, cutStreams, if_pos rfl, List.flatMap_cons, storedVc, if_pos hnil,
          List.nil_append, cutStreams_vcOffsets hpos (by simpa using hsize)]
      · have hstored : storedVc stream = 0 :: stream := by rw [storedVc, if_neg hnil]
        have hlen : (front ++ storedVc stream).length = front.length + (1 + stream.length) := by
          rw [hstored, List.length_append, List.length_cons, Nat.add_comm stream.length]
        rw [hstored, List.length_cons] at hsize
        have hnext : u32 (front.length + (1 + stream.length)) = (front ++ storedVc stream).length := by
          rw [u32, hlen]
          exact Nat.mod_eq_of_lt (by omega)
        have hregion : front ++ (stream :: rest).flatMap storedVc =
            (front ++ storedVc stream) ++ rest.flatMap storedVc := by
          rw [List.flatMap_cons, List.append_assoc]
        have hend : ((vcOffsets (front ++ storedVc stream).length rest).find? (0 < ·)).getD
            ((front ++ storedVc stream) ++ rest.flatMap storedVc).length =
              (front ++ storedVc stream).length := by
          rw [@List.length_append _ (front ++ storedVc stream)]
          exact find_vcOffsets (by omega)
        have hcut := @cutStreams_vcOffsets rest (front ++ storedVc stream) (by omega)
          (by omega)
        rw [if_neg hnil, hnext, hregion, cutStreams, if_neg (by omega), hend, List.take_left,
          List.drop_left, hcut]

/-! ## The time table -/

/-- The times rise from a start and fit into 64 bits. -/
def TimesRise : ℕ → List ℕ → Prop
  | _, [] => True
  | prev, time :: rest => prev ≤ time ∧ time < 2 ^ 64 ∧ TimesRise time rest

theorem sumTimes_timeDeltas : ∀ {times : List ℕ} {prev : ℕ}, TimesRise prev times →
    sumTimes prev (timeDeltas prev times) = times
  | [], _, _ => rfl
  | time :: rest, prev, h => by
      obtain ⟨h1, h2, h3⟩ := h
      have hdelta : prev + (time + 2 ^ 64 - prev) % 2 ^ 64 = time := by omega
      rw [timeDeltas, sumTimes, hdelta, sumTimes_timeDeltas h3]

@[simp] theorem length_timeDeltas : ∀ (prev : ℕ) (times : List ℕ),
    (timeDeltas prev times).length = times.length
  | _, [] => rfl
  | _, time :: rest => by rw [timeDeltas, List.length_cons, length_timeDeltas, List.length_cons]

end JzHdl

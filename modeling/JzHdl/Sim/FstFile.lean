import JzHdl.Sim.FstStreams

/-! # The round trip of an FST file

Within the limits of a trace every length fits into its field, so the reader
finds the blocks again and decodes the header, the signals and their changes.
-/

namespace JzHdl

open ByteCodec

/-! ## Sizes -/

theorem length_changeEntry {width delta : ℕ} {value : SimValue} (hw : width ≤ 256)
    (hd : delta < 2 ^ 32) : (changeEntry width delta value).length ≤ 37 := by
  rw [changeEntry]
  split
  · have h : delta * 4 + (if simValGetBit value 0 then 2 else 0) < 128 ^ (4 + 1) := by
      split <;> omega
    have := length_varint_le 4 _ h
    omega
  · have h := length_varint_le 4 (delta * 2) (by omega)
    rw [List.length_append, length_packBits]
    omega

theorem deltaChanges_lt : ∀ {changes : List FstChange} {prev : ℕ},
    ∀ d ∈ deltaChanges prev changes, d.1 < 2 ^ 32
  | [], _, _, h => by simp [deltaChanges] at h
  | change :: rest, prev, d, h => by
      rw [deltaChanges, List.mem_cons] at h
      rcases h with rfl | h
      · exact Nat.mod_lt _ (by decide)
      · exact deltaChanges_lt d h

@[simp] theorem length_deltaChanges : ∀ (prev : ℕ) (changes : List FstChange),
    (deltaChanges prev changes).length = changes.length
  | _, [] => rfl
  | _, change :: rest => by
      rw [deltaChanges, List.length_cons, length_deltaChanges, List.length_cons]

/-- No change belongs to two signals. -/
theorem length_signalChanges (changes : List FstChange) (n : ℕ) :
    ((List.range n).map fun i => (signalChanges changes i).length).sum ≤ changes.length := by
  have hcount : ((List.range n).map fun i => (signalChanges changes i).length).sum =
      (changes.filter (·.sigId < n)).length := by
    induction n with
    | zero => simp
    | succ n ih =>
      rw [List.range_succ, List.map_append, List.sum_append, ih, List.map_singleton,
        List.sum_singleton]
      clear ih
      induction changes with
      | nil => rfl
      | cons c rest ih =>
        simp only [signalChanges, List.filter_cons] at ih ⊢
        by_cases hlt : c.sigId < n
        · have hne : ¬ c.sigId = n := by omega
          have hlt' : c.sigId < n + 1 := by omega
          simp only [hlt, hne, hlt', decide_true, if_true, beq_iff_eq, if_false, List.length_cons]
          omega
        · by_cases heq : c.sigId = n
          · obtain rfl : n = c.sigId := heq.symm
            have hlt' : c.sigId < c.sigId + 1 := by omega
            simp only [hlt, hlt', decide_true, decide_false, beq_self_eq_true, if_true, if_false,
              Bool.false_eq_true, List.length_cons]
            omega
          · have hlt' : ¬ c.sigId < n + 1 := by omega
            simp only [hlt, heq, hlt', decide_false, beq_iff_eq, if_false, Bool.false_eq_true]
            exact ih
  rw [hcount]
  exact List.length_filter_le _ _

/-! ## The limits of a trace -/

/-- What holds of a writer when it is closed within the limits of a trace. -/
structure TraceFits (w : FstWriter) : Prop where

  header : HeaderFits w

  widths : ∀ sig ∈ w.signals, sig.width ≤ 256

  numSignals : w.signals.length ≤ fstMaxSignals

  times : TimesRise 0 w.timeTable

  numTimes : w.timeTable.length ≤ 2 ^ 23

  changes : Rising w.timeTable.length 0 w.changes

  numChanges : w.changes.length ≤ 2 ^ 20

/-- The width of a signal by its index. -/
def FstWriter.widthOf (w : FstWriter) (sigId : ℕ) : ℕ := (w.signals.map FstSignal.width).getD sigId 0

def FstWriter.stream (w : FstWriter) (sigId : ℕ) : Bytes :=
  streamBytes (w.widthOf sigId) (deltaChanges 0 (signalChanges w.changes sigId))

section

variable {w : FstWriter}

theorem widthOf_eq {i : ℕ} {sig : FstSignal} (h : w.signals[i]? = some sig) :
    w.widthOf i = sig.width := by
  rw [FstWriter.widthOf, List.getD_eq_getElem?_getD, List.getElem?_map, h]
  rfl

theorem map_width_eq (w : FstWriter) :
    w.signals.map FstSignal.width = (List.range w.signals.length).map w.widthOf := by
  refine List.ext_getElem (by simp) fun i h1 h2 => ?_
  rw [List.length_map] at h1
  rw [List.getElem_map, List.getElem_map, List.getElem_range,
    widthOf_eq (List.getElem?_eq_getElem h1)]

theorem vcStreams_eq (w : FstWriter) :
    vcStreams w.signals w.changes = (List.range w.signals.length).map w.stream := by
  refine List.ext_getElem? fun i => ?_
  by_cases hi : i < w.signals.length
  · have hsig := List.getElem?_eq_getElem hi
    rw [vcStreams_getElem w.changes hsig, List.getElem?_map, List.getElem?_range hi, Option.map_some,
      FstWriter.stream, widthOf_eq hsig]
  · rw [List.getElem?_eq_none (by simp [vcStreams]; omega), List.getElem?_eq_none (by simp; omega)]

namespace TraceFits

theorem widthOf_le (h : TraceFits w) (i : ℕ) : w.widthOf i ≤ 256 := by
  by_cases hi : i < w.signals.length
  · rw [widthOf_eq (List.getElem?_eq_getElem hi)]
    exact h.widths _ (List.getElem_mem hi)
  · rw [FstWriter.widthOf, List.getD_eq_getElem?_getD, List.getElem?_eq_none (by simp; omega)]
    exact Nat.zero_le _

theorem length_stream (h : TraceFits w) (i : ℕ) :
    (w.stream i).length ≤ (signalChanges w.changes i).length * 37 := by
  have hle : ∀ d ∈ deltaChanges 0 (signalChanges w.changes i),
      (changeEntry (w.widthOf i) d.1 d.2).length ≤ 37 :=
    fun d hd => length_changeEntry (h.widthOf_le i) (deltaChanges_lt d hd)
  have := length_flatMap_le hle
  rwa [length_deltaChanges] at this

/-- The streams take far less than four gigabytes. -/
theorem storedSize_le (h : TraceFits w) :
    storedSize (vcStreams w.signals w.changes) ≤ 2 ^ 26 := by
  have hsum : ∀ n, storedSize ((List.range n).map w.stream) ≤
      n + ((List.range n).map fun i => (signalChanges w.changes i).length).sum * 37 := by
    intro n
    induction n with
    | zero => simp [storedSize]
    | succ n ih =>
      have hstream := h.length_stream n
      have hstored : (storedVc (w.stream n)).length ≤ (w.stream n).length + 1 := by
        rw [storedVc]
        split <;> simp
      rw [storedSize] at ih ⊢
      rw [List.range_succ, List.map_append, List.flatMap_append, List.length_append, List.map_append,
        List.sum_append, List.map_singleton, List.map_singleton, List.sum_singleton,
        List.flatMap_singleton, Nat.add_mul]
      omega
  have hcount := length_signalChanges w.changes w.signals.length
  have hchanges := h.numChanges
  have hsignals := h.numSignals
  have hsize := hsum w.signals.length
  rw [vcStreams_eq]
  simp only [fstMaxSignals] at hsignals
  omega

theorem sum_length_le (h : TraceFits w) :
    ((vcStreams w.signals w.changes).map List.length).sum ≤ 2 ^ 26 := by
  have hle : ∀ streams : List Bytes, (streams.map List.length).sum ≤ storedSize streams := by
    intro streams
    induction streams with
    | nil => simp
    | cons stream rest ih =>
      have hstored : stream.length ≤ (storedVc stream).length := by
        rw [storedVc]
        split
        · rename_i hnil
          rw [hnil]
        · simp
      rw [storedSize_cons, List.map_cons, List.sum_cons]
      omega
  exact (hle _).trans h.storedSize_le

end TraceFits

theorem length_vcOffsets : ∀ (streams : List Bytes) (cumulative : ℕ),
    (vcOffsets cumulative streams).length = streams.length
  | [], _ => rfl
  | stream :: rest, cumulative => by
      rw [vcOffsets]
      split <;> rw [List.length_cons, List.length_cons, length_vcOffsets rest]

/-- The chain table has at most one number for each signal, each below `2 ^ 34`. -/
theorem chainValues_le (pval : ℕ) (offsets : List ℕ) :
    (chainValues pval offsets).length ≤ offsets.length ∧
      ∀ v ∈ chainValues pval offsets, v ≤ 2 ^ 33 + 2 * offsets.length := by
  induction pval, offsets using chainValues.induct with
  | case1 pval => simp [chainValues]
  | case2 pval offset rest hpos ih =>
    have hdelta : u32 (offset + 2 ^ 32 - pval) < 2 ^ 32 := Nat.mod_lt _ (by decide)
    rw [chainValues, if_pos hpos]
    refine ⟨by simpa using ih.1, fun v hv => ?_⟩
    rw [List.length_cons]
    rcases List.mem_cons.mp hv with rfl | hv
    · omega
    · have := ih.2 v hv
      omega
  | case3 pval offset rest hpos ih =>
    have hdrop : (rest.dropWhile (· = 0)).length ≤ rest.length :=
      (List.dropWhile_suffix _).length_le
    have htake : (rest.takeWhile (· = 0)).length ≤ rest.length :=
      (List.takeWhile_prefix _).length_le
    rw [chainValues, if_neg hpos]
    refine ⟨?_, fun v hv => ?_⟩
    · rw [List.length_cons, List.length_cons]
      exact Nat.succ_le_succ (ih.1.trans hdrop)
    · rw [List.length_cons]
      rcases List.mem_cons.mp hv with rfl | hv
      · omega
      · have := ih.2 v hv
        omega

theorem timeDeltas_lt : ∀ {times : List ℕ} {prev : ℕ}, ∀ d ∈ timeDeltas prev times, d < 2 ^ 64
  | [], _, _, h => by simp [timeDeltas] at h
  | time :: rest, prev, d, h => by
      rw [timeDeltas, List.mem_cons] at h
      rcases h with rfl | h
      · exact Nat.mod_lt _ (by decide)
      · exact timeDeltas_lt d h

def FstWriter.chain (w : FstWriter) : Bytes :=
  (chainValues 0 (vcOffsets 1 (vcStreams w.signals w.changes))).flatMap varint

def FstWriter.packedTimes (w : FstWriter) : Bytes := (timeDeltas 0 w.timeTable).flatMap varint

namespace TraceFits

theorem length_chain (h : TraceFits w) : w.chain.length ≤ 2 ^ 16 := by
  obtain ⟨hlen, hvalues⟩ := chainValues_le 0 (vcOffsets 1 (vcStreams w.signals w.changes))
  have hsignals := h.numSignals
  have hnum : (vcOffsets 1 (vcStreams w.signals w.changes)).length = w.signals.length := by
    rw [length_vcOffsets, vcStreams_eq, List.length_map, List.length_range]
  rw [fstMaxSignals] at hsignals
  have hbytes : ∀ v ∈ chainValues 0 (vcOffsets 1 (vcStreams w.signals w.changes)),
      (varint v).length ≤ 5 := fun v hv => length_varint_le 4 v (by have := hvalues v hv; omega)
  have hchain := length_flatMap_le hbytes
  rw [FstWriter.chain]
  omega

theorem length_packedTimes (h : TraceFits w) : w.packedTimes.length ≤ 2 ^ 27 := by
  have hbytes : ∀ d ∈ timeDeltas 0 w.timeTable, (varint d).length ≤ 10 :=
    fun d hd => length_varint_le 9 d (by have := timeDeltas_lt d hd; omega)
  have htimes := length_flatMap_le hbytes
  have hnum := h.numTimes
  rw [length_timeDeltas] at htimes
  rw [FstWriter.packedTimes]
  omega

theorem length_zlibTimes (h : TraceFits w) : (zlib w.packedTimes).length ≤ 2 ^ 28 := by
  have hlen := h.length_packedTimes
  have := length_zlib (2 ^ 12) w.packedTimes (by omega)
  omega

theorem totalBits_le (h : TraceFits w) : w.totalBits ≤ 2 ^ 20 := by
  have hsum : ∀ sigs : List FstSignal, (∀ sig ∈ sigs, sig.width ≤ 256) →
      (sigs.map FstSignal.width).sum ≤ sigs.length * 256 := by
    intro sigs hsigs
    induction sigs with
    | nil => simp
    | cons sig rest ih =>
      have hsig := hsigs sig List.mem_cons_self
      have hrest := ih fun s hs => hsigs s (List.mem_cons_of_mem _ hs)
      rw [List.map_cons, List.sum_cons, List.length_cons]
      omega
  have hbits := hsum w.signals h.widths
  have hsignals := h.numSignals
  rw [fstMaxSignals] at hsignals
  rw [FstWriter.totalBits]
  omega

end TraceFits

/-! ## The blocks together -/

theorem readVcTail_eq (h : TraceFits w) :
    readVcTail (33 :: (vcStreams w.signals w.changes).flatMap storedVc ++ w.chain ++
      u64 w.chain.length ++ zlib w.packedTimes ++ (u64 w.packedTimes.length ++
        u64 (zlib w.packedTimes).length ++ u64 w.timeTable.length)) =
      some (w.timeTable, (vcStreams w.signals w.changes).map storedVc) := by
  have hchain := h.length_chain
  have htimes := h.length_packedTimes
  have hzlib := h.length_zlibTimes
  have hnum := h.numTimes
  have hsize := h.storedSize_le
  have hu64 : ∀ {n : ℕ}, n < 2 ^ 64 → Reads readU64 (u64 n) n := fun hn => readU64_u64 hn
  have hlengths := @readMany_flatMap _ _ u64 readU64 id
    [w.packedTimes.length, (zlib w.packedTimes).length, w.timeTable.length] (by
      intro n hn
      refine hu64 ?_
      simp only [List.mem_cons, List.not_mem_nil, or_false] at hn
      omega) []
  simp only [List.flatMap_cons, List.flatMap_nil, List.append_nil, List.map_id, List.length_cons,
    List.length_nil, Nat.reduceAdd, Nat.zero_add] at hlengths
  have hpacked := readZlib_zlib w.packedTimes []
  have hchainLen := hu64 (n := w.chain.length) (by omega) []
  rw [List.append_nil] at hpacked hchainLen
  have hdeltas : readAll readVarint w.packedTimes = some (timeDeltas 0 w.timeTable) := by
    have hread := @readAll_flatMap _ _ varint readVarint id (timeDeltas 0 w.timeTable)
      (fun d _ => readVarint_varint d) fun d _ => varint_ne_nil d
    rwa [List.map_id] at hread
  have hvalues : readAll readVarint w.chain =
      some (chainValues 0 (vcOffsets 1 (vcStreams w.signals w.changes))) := by
    have hread := @readAll_flatMap _ _ varint readVarint id
      (chainValues 0 (vcOffsets 1 (vcStreams w.signals w.changes)))
      (fun d _ => readVarint_varint d) fun d _ => varint_ne_nil d
    rwa [List.map_id] at hread
  have hrise : OffsetsRise 0 (vcOffsets 1 (vcStreams w.signals w.changes)) :=
    vcOffsets_rise (by decide) (by decide) (by omega)
  have hcut := @cutStreams_vcOffsets (vcStreams w.signals w.changes) [33] (by decide)
    (by rw [List.length_singleton]; omega)
  rw [readVcTail, splitEnd_append _ (by simp)]
  simp only [Option.bind_some, List.append_assoc] at hlengths ⊢
  rw [hlengths]
  simp only [Option.bind_some, List.getD_cons_succ, List.getD_cons_zero]
  rw [← List.append_assoc, ← List.append_assoc, splitEnd_append _ rfl]
  simp only [Option.bind_some, hpacked, hdeltas]
  rw [splitEnd_append _ (by simp)]
  simp only [Option.bind_some, hchainLen]
  rw [splitEnd_append _ rfl]
  simp only [Option.bind_some, hvalues, length_timeDeltas]
  rw [if_pos ⟨trivial, trivial, rfl⟩, sumTimes_timeDeltas h.times, decodeChain_chainValues 0 _ hrise]
  exact congrArg (fun s => some (w.timeTable, s)) hcut

theorem readVcdata_eq (h : TraceFits w) :
    readVcdata w.vcdataContent =
      some ⟨w.frameData, w.timeTable, (vcStreams w.signals w.changes).map storedVc⟩ := by
  have hsum := h.sum_length_le
  have htail := readVcTail_eq h
  have hmem : ((vcStreams w.signals w.changes).map List.length).sum < 2 ^ 64 := by omega
  have hframe : w.frameData.length = w.totalBits := List.length_replicate
  have hcontent : w.vcdataContent =
      u64 w.startTime ++ (u64 w.endTime ++ (u64 ((vcStreams w.signals w.changes).map List.length).sum ++
        (varint w.totalBits ++ (varint w.totalBits ++ (varint w.signals.length ++ (w.frameData ++
          (varint w.signals.length ++ (33 :: (vcStreams w.signals w.changes).flatMap storedVc ++
            w.chain ++ u64 w.chain.length ++ zlib w.packedTimes ++ (u64 w.packedTimes.length ++
              u64 (zlib w.packedTimes).length ++ u64 w.timeTable.length))))))))) := by
    simp only [FstWriter.vcdataContent, FstWriter.chain, FstWriter.packedTimes, List.append_assoc]
  rw [hcontent, readVcdata, Reader.bind_eq (readU64_u64 h.header.startTime _),
    Reader.bind_eq (readU64_u64 h.header.endTime _), Reader.bind_eq (readU64_u64 hmem _),
    Reader.bind_eq (readVarint_varint _ _), Reader.bind_eq (readVarint_varint _ _),
    Reader.guard_bind (beq_self_eq_true _), Reader.bind_eq (readVarint_varint _ _),
    Reader.bind_eq (takeBytes_append hframe _), Reader.bind_eq (readVarint_varint _ _), Reader.pure]
  simp only [Option.bind_some]
  rw [htail]
  rfl

/-- The times and values of the changes of one signal. -/
def FstWriter.shownChanges (w : FstWriter) (sigId : ℕ) : List (ℕ × List Bool) :=
  (signalChanges w.changes sigId).map fun c =>
    (w.timeTable.getD c.timeIndex 0, valueBits (w.widthOf sigId) c.value)

theorem decodeStreams_map {times : List ℕ} {ids : List ℕ} {width : ℕ → ℕ} {stream : ℕ → Bytes}
    {shown : ℕ → List (ℕ × List Bool)}
    (h : ∀ i, (readStream (width i) (stream i)).bind (timedChanges times 0) = some (shown i)) :
    decodeStreams times (ids.map width) (ids.map stream) = some (ids.map shown) := by
  induction ids with
  | nil => rfl
  | cons i rest ih => simp only [List.map_cons, decodeStreams, h i, ih]

theorem decodeStreams_eq (h : TraceFits w) :
    decodeStreams w.timeTable (w.signals.map FstSignal.width)
        ((vcStreams w.signals w.changes).map storedVc) =
      some ((List.range w.signals.length).map w.shownChanges) := by
  have hnum := h.numTimes
  rw [map_width_eq, vcStreams_eq, List.map_map]
  refine decodeStreams_map fun i => ?_
  rw [Function.comp_apply, FstWriter.stream, readStream_storedVc, Option.bind_some]
  exact timedChanges_deltaChanges (by omega) (h.changes.filter _ 0 le_rfl)

/-- What the file of a writer shows. -/
def FstWriter.trace (w : FstWriter) : FstTrace :=
  ⟨w.header, w.signals.map FstSignal.var, w.frameData,
    (List.range w.signals.length).map w.shownChanges⟩

theorem length_vcdataContent (h : TraceFits w) : w.vcdataContent.length < 2 ^ 32 := by
  have hchain := h.length_chain
  have hzlib := h.length_zlibTimes
  have hsize := h.storedSize_le
  have hbits := h.totalBits_le
  have hsignals := h.numSignals
  rw [fstMaxSignals] at hsignals
  have hvarint : ∀ n < 2 ^ 21, (varint n).length ≤ 3 := fun n hn =>
    length_varint_le 2 n (by omega)
  have hvbits := hvarint w.totalBits (by omega)
  have hvsigs := hvarint w.signals.length (by omega)
  rw [FstWriter.chain] at hchain
  rw [FstWriter.packedTimes] at hzlib
  rw [storedSize] at hsize
  simp only [FstWriter.vcdataContent, FstWriter.frameData, List.length_append, length_u64,
    List.length_replicate, List.length_cons]
  omega

theorem length_geomContent (h : TraceFits w) :
    (w.signals.flatMap fun sig => varint sig.width).length ≤ 2 ^ 14 ∧
      w.geomContent.length < 2 ^ 32 := by
  have hsignals := h.numSignals
  rw [fstMaxSignals] at hsignals
  have hbytes : ∀ sig ∈ w.signals, (varint sig.width).length ≤ 2 := fun sig hsig =>
    length_varint_le 1 _ (by have := h.widths sig hsig; omega)
  have hwidths := length_flatMap_le hbytes
  have hzlib := length_zlib 0 (w.signals.flatMap fun sig => varint sig.width) (by omega)
  simp only [FstWriter.geomContent, List.length_append, length_u64]
  omega

/-- A closed file reads back as the trace of its writer. -/
theorem readFst_close {data : Bytes} (h : TraceFits w) (hdefs : w.defsEnded = true)
    (hhier : w.hier = some data)
    (hdata : data = (registeredEntries none w.signals).flatMap HierEntry.bytes)
    (hlen : data.length ≤ 2 ^ 62) (date : Bytes) : readFst (w.close date) = some w.trace := by
  obtain ⟨hwidths, hgeomLen⟩ := length_geomContent h
  have hsignals := h.header.numSignals
  obtain ⟨hrest, hhdr⟩ := readHdr_hdrContent h.header date
  obtain ⟨grest, hgeom⟩ := readGeom_geomContent (w := w) (by omega) hsignals
  have hzip := length_gzip (2 ^ 48) data (by omega)
  let blocks : List (UInt8 × Bytes) := [(0, w.hdrContent date), (1, w.vcdataContent),
    (3, w.geomContent), (4, u64 data.length ++ gzip data)]
  have hread : readAll readFstBlock (w.close date) = some blocks := by
    have hsizes : ∀ b ∈ blocks, b.2.length + 8 < 2 ^ 64 := by
      have hvc := length_vcdataContent h
      have hhdrLen : (w.hdrContent date).length = 321 := by
        simp [FstWriter.hdrContent, fstDoubleEndtest, length_padded]
      intro b hb
      simp only [blocks, List.mem_cons, List.not_mem_nil, or_false] at hb
      rcases hb with rfl | rfl | rfl | rfl
      · simp only; omega
      · simp only; omega
      · simp only; omega
      · simp only [List.length_append, length_u64]; omega
    have hall := @readAll_flatMap _ _ (fun b : UInt8 × Bytes => fstBlock b.1 b.2) readFstBlock id
      blocks (fun b hb => readFstBlock_fstBlock (hsizes b hb)) fun b _ => fstBlock_ne_nil b.1 b.2
    rw [List.map_id] at hall
    rw [← hall, FstWriter.close, if_pos hdefs, FstWriter.hierBlock, hhier]
    simp only [blocks, List.flatMap_cons, List.flatMap_nil, List.append_nil, List.append_assoc]
  have hfind : findBlock 0 blocks = some (w.hdrContent date) ∧
      findBlock 1 blocks = some w.vcdataContent ∧ findBlock 3 blocks = some w.geomContent ∧
        findBlock 4 blocks = some (u64 data.length ++ gzip data) := ⟨rfl, rfl, rfl, rfl⟩
  have hvars : (w.signals.map FstSignal.var).map HierVar.width = w.signals.map FstSignal.width := by
    rw [List.map_map]
    rfl
  rw [readFst, hread, Option.bind_some, hfind.1, Option.bind_some, hhdr, Option.bind_some]
  simp only [hfind.2.2.2, Option.bind_some]
  rw [readHier_hierBlock hdata (by omega), Option.bind_some, hfind.2.2.1, Option.bind_some, hgeom,
    Option.bind_some]
  simp only [hfind.2.1, Option.bind_some]
  rw [readVcdata_eq h, Option.bind_some, if_pos ⟨hvars.symm, by rw [List.length_map]; rfl⟩,
    decodeStreams_eq h]
  rfl

end

end JzHdl

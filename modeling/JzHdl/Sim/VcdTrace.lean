import JzHdl.Sim.VcdWriter
import JzHdl.Sim.FstTrace

/-! # The trace of a run in a VCD text

The text of a run splits into the commands of its definitions and the words of
its changes. Both are read back, in the unit of time that the text declares.
-/

namespace JzHdl

open ByteCodec WordText

/-! ## Commands -/

structure IsCommand (command : List Bytes) : Prop where

  isWord : ∀ w ∈ command, IsWord w

  notEnd : vcdEnd ∉ command

  notLast : command ≠ [ascii "$enddefinitions"]

theorem splitCommands_words : ∀ {ws : List Bytes} (started rest : List Bytes), vcdEnd ∉ ws →
    splitCommands started (ws ++ rest) = splitCommands (started ++ ws) rest
  | [], started, rest, _ => by rw [List.nil_append, List.append_nil]
  | w :: ws, started, rest, h => by
      obtain ⟨hw, hws⟩ := not_or.mp (mt List.mem_cons.mpr h)
      rw [List.cons_append, splitCommands, if_neg (Ne.symm hw), splitCommands_words _ _ hws,
        List.append_assoc, List.singleton_append]

theorem splitCommands_commands : ∀ {commands : List (List Bytes)} (rest : List Bytes),
    (∀ c ∈ commands, IsCommand c) →
    splitCommands [] (commands.flatMap (· ++ [vcdEnd]) ++ rest) =
      (commands ++ (splitCommands [] rest).1, (splitCommands [] rest).2)
  | [], _, _ => rfl
  | c :: commands, rest, h => by
      have hc := h c (List.mem_cons_self ..)
      rw [List.flatMap_cons, List.append_assoc, List.append_assoc, splitCommands_words _ _ hc.notEnd,
        List.nil_append, List.singleton_append, splitCommands, if_pos rfl, if_neg hc.notLast,
        splitCommands_commands rest fun d hd => h d (List.mem_cons_of_mem _ hd), List.cons_append]

theorem vcdEnd_isWord : IsWord vcdEnd := by decide

theorem words_commands : ∀ {commands : List (List Bytes)} (rest : Bytes),
    (∀ c ∈ commands, ∀ w ∈ c, IsWord w) →
    words (commands.flatMap commandLine ++ rest) =
      commands.flatMap (· ++ [vcdEnd]) ++ words rest
  | [], _, _ => rfl
  | c :: commands, rest, h => by
      have hc : ∀ w ∈ c ++ [vcdEnd], IsWord w := fun w hw =>
        (List.mem_append.mp hw).elim (h c (List.mem_cons_self ..) w)
          fun hend => by rw [List.mem_singleton.mp hend]; exact vcdEnd_isWord
      rw [List.flatMap_cons, List.append_assoc, commandLine, words_line _ hc,
        words_commands rest fun d hd => h d (List.mem_cons_of_mem _ hd), List.flatMap_cons,
        ← List.append_assoc]

/-! ## The header -/

def headerCommands (stamp : Stamp) (ps : ℕ) : List (List Bytes) :=
  [[ascii "$date", stamp.day, stamp.clock],
    [ascii "$version", ascii "JZ-HDL", ascii "Simulator", ascii "1.0"],
    [ascii "$timescale", vcdTimescale ps]]

/-- The unit of time that a text declares, in picoseconds. -/
def vcdUnit (ps : ℕ) : ℕ :=
  if 1000000000 ≤ ps then ps / 1000000000 * 1000000000
  else if 1000000 ≤ ps then ps / 1000000 * 1000000
  else if 1000 ≤ ps then ps / 1000 * 1000
  else ps

theorem vcdTimescale_isWord (ps : ℕ) : IsWord (vcdTimescale ps) := by
  rw [vcdTimescale]
  split
  · exact (decimal_isWord _).append (by decide)
  split
  · exact (decimal_isWord _).append (by decide)
  split
  · exact (decimal_isWord _).append (by decide)
  · exact (decimal_isWord _).append (by decide)

theorem decimal_append_ne_end (n : ℕ) (unit : Bytes) : decimal n ++ unit ≠ vcdEnd := by
  intro h
  have hdigits := decimal_digits n
  cases hn : decimal n with
  | nil => exact decimal_ne_nil n hn
  | cons d ds =>
    rw [hn, List.cons_append] at h
    have hd := hdigits d (by rw [hn]; exact List.mem_cons_self ..)
    rw [(List.cons.inj (h.trans (show vcdEnd = 36 :: [101, 110, 100] by decide))).1] at hd
    revert hd
    decide

theorem vcdTimescale_ne_end (ps : ℕ) : vcdTimescale ps ≠ vcdEnd := by
  rw [vcdTimescale]
  split_ifs <;> exact decimal_append_ne_end _ _

theorem readTimescale_vcdTimescale (ps : ℕ) :
    readTimescale [ascii "$timescale", vcdTimescale ps] = some (vcdUnit ps) := by
  rw [readTimescale, if_pos rfl, vcdTimescale, vcdUnit]
  split_ifs
  · rw [splitDigits_decimal (by decide), readDecimal_decimal]
    rfl
  · rw [splitDigits_decimal (by decide), readDecimal_decimal]
    rfl
  · rw [splitDigits_decimal (by decide), readDecimal_decimal]
    rfl
  · rw [splitDigits_decimal (by decide), readDecimal_decimal]
    exact congrArg some (Nat.mul_one ps)

theorem headerCommands_isCommand (stamp : Stamp) (ps : ℕ) :
    ∀ c ∈ headerCommands stamp ps, IsCommand c := by
  intro c hc
  simp only [headerCommands, List.mem_cons, List.not_mem_nil, or_false] at hc
  rcases hc with rfl | rfl | rfl
  · refine ⟨fun w hw => ?_, fun h => ?_, by simp⟩
    · rcases List.mem_cons.mp hw with rfl | hw
      · decide
      · exact stamp.isWord w hw
    · rcases List.mem_cons.mp h with h | h
      · revert h
        decide
      · exact stamp.notEnd h
  · exact ⟨by decide, by decide, by simp⟩
  · refine ⟨fun w hw => ?_, fun h => ?_, by simp⟩
    · simp only [List.mem_cons, List.not_mem_nil, or_false] at hw
      rcases hw with rfl | rfl
      · decide
      · exact vcdTimescale_isWord ps
    · simp only [List.mem_cons, List.not_mem_nil, or_false] at h
      rcases h with h | h
      · revert h
        decide
      · exact vcdTimescale_ne_end ps h.symm

theorem words_blanks (rest : Bytes) : words (ascii "  " ++ rest) = words rest := by
  have hblanks : ascii "  " = [32, 32] := by decide
  rw [hblanks, List.cons_append, List.cons_append, List.nil_append, words_blank (by decide),
    words_blank (by decide)]

theorem words_vcdHeader (stamp : Stamp) (ps : ℕ) (rest : Bytes) :
    words (vcdHeader stamp ps ++ rest) =
      (headerCommands stamp ps).flatMap (· ++ [vcdEnd]) ++ words rest := by
  have hscale : ∀ w ∈ [ascii "$timescale", vcdTimescale ps, vcdEnd], IsWord w := by
    intro w hw
    simp only [List.mem_cons, List.not_mem_nil, or_false] at hw
    rcases hw with rfl | rfl | rfl
    · decide
    · exact vcdTimescale_isWord ps
    · decide
  simp only [vcdHeader, List.append_assoc]
  rw [words_line _ (by decide), words_blanks, words_line _ stamp.isWord, words_line _ (by decide),
    words_line _ (by decide), words_blanks, words_line _ (by decide), words_line _ (by decide),
    words_line _ hscale]
  rfl

/-! ## The definitions -/

/-- A name that a text can show: a word that does not close a command. -/
structure CString.Printable (s : CString) : Prop where

  isWord : IsWord s.bytes

  notEnd : s.bytes ≠ vcdEnd

structure FstSignal.Printable (sig : FstSignal) : Prop where

  scope : sig.scope.Printable

  name : sig.name.Printable

theorem makeVcdIdent_bytes {idx : ℕ} (h : idx < 8836) :
    ∀ b ∈ makeVcdIdent idx, 33 ≤ b.toNat ∧ b.toNat < 127 := by
  intro b hb
  rw [makeVcdIdent] at hb
  split at hb
  · obtain rfl := List.mem_singleton.mp hb
    rw [toNat_ofNat (by omega)]
    omega
  · simp only [List.mem_cons, List.not_mem_nil, or_false] at hb
    rcases hb with rfl | rfl
    · rw [toNat_ofNat (by omega)]
      omega
    · rw [toNat_ofNat (by omega)]
      omega

theorem makeVcdIdent_isWord {idx : ℕ} (h : idx < 8836) : IsWord (makeVcdIdent idx) := by
  refine ⟨by rw [makeVcdIdent]; split <;> simp, fun b hb => ?_⟩
  rw [UInt8.lt_iff_toNat_lt]
  exact lt_of_lt_of_le (by decide) (makeVcdIdent_bytes h b hb).1

theorem makeVcdIdent_ne_end (idx : ℕ) : makeVcdIdent idx ≠ vcdEnd := by
  intro h
  have hlen := congrArg List.length h
  have hend : vcdEnd.length = 4 := by decide
  rw [hend, makeVcdIdent] at hlen
  split at hlen <;> simp at hlen

theorem makeVcdIdent_inj {i j : ℕ} (hi : i < 8836) (hj : j < 8836)
    (h : makeVcdIdent i = makeVcdIdent j) : i = j := by
  rw [makeVcdIdent, makeVcdIdent] at h
  have hbyte : ∀ {a b : ℕ}, a < 256 → b < 256 → UInt8.ofNat a = UInt8.ofNat b → a = b := by
    intro a b ha hb hab
    rw [← toNat_ofNat ha, ← toNat_ofNat hb, hab]
  split at h <;> split at h
  · have := hbyte (by omega) (by omega) (List.cons.inj h).1
    omega
  · simp at h
  · simp at h
  · obtain ⟨h1, h2⟩ := List.cons.inj h
    have hhigh := hbyte (by omega) (by omega) h1
    have hlow := hbyte (by omega) (by omega) (List.cons.inj h2).1
    omega

theorem defEntry_var (width idx : ℕ) (name : Bytes) :
    defEntry [ascii "$var", ascii "wire", decimal width, makeVcdIdent idx, name] =
      some (.var name width) := by
  rw [defEntry, if_pos rfl, readDecimal_decimal]

theorem vcdDefs_entries : ∀ (current : Option CString) (idx : ℕ) (sigs : List FstSignal),
    (vcdDefs current idx sigs).filterMap defEntry = registeredEntries current sigs
  | none, _, [] => rfl
  | some _, _, [] => rfl
  | current, idx, sig :: rest => by
      have ih := vcdDefs_entries (some sig.scope) (idx + 1) rest
      rw [vcdDefs, registeredEntries, List.filterMap_append, List.filterMap_cons_some
        (defEntry_var _ _ _), ih]
      congr 1
      by_cases hsame : current = some sig.scope
      · rw [if_pos hsame, if_pos hsame]
        rfl
      · rw [if_neg hsame, if_neg hsame]
        cases current <;> rfl

theorem vcdDefs_idents : ∀ (current : Option CString) (idx : ℕ) (sigs : List FstSignal),
    (vcdDefs current idx sigs).filterMap varIdent =
      (List.range' idx sigs.length).map makeVcdIdent
  | none, _, [] => rfl
  | some _, _, [] => rfl
  | current, idx, sig :: rest => by
      have ih := vcdDefs_idents (some sig.scope) (idx + 1) rest
      have hswitch : (if current = some sig.scope then []
          else (if current.isSome then [[ascii "$upscope"]] else []) ++
            [[ascii "$scope", ascii "module", sig.scope.bytes]]).filterMap varIdent = [] := by
        by_cases hsame : current = some sig.scope
        · rw [if_pos hsame, List.filterMap_nil]
        · rw [if_neg hsame]
          cases current <;> rfl
      rw [vcdDefs, List.filterMap_append, hswitch, List.nil_append, List.length_cons,
        List.range'_succ, List.map_cons, ← ih]
      exact List.filterMap_cons_some (by rw [varIdent, if_pos rfl])

theorem vcdDefs_isCommand : ∀ {current : Option CString} {idx : ℕ} {sigs : List FstSignal},
    (∀ sig ∈ sigs, sig.Printable) → idx + sigs.length ≤ 8836 →
    ∀ c ∈ vcdDefs current idx sigs, IsCommand c
  | none, _, [], _, _, c, hc => by simp [vcdDefs] at hc
  | some _, _, [], _, _, c, hc => by
      obtain rfl := List.mem_singleton.mp hc
      exact ⟨by decide, by decide, by decide⟩
  | current, idx, sig :: rest, h, hidx, c, hc => by
      have hsig := h sig (List.mem_cons_self ..)
      rw [List.length_cons] at hidx
      rw [vcdDefs, List.mem_append, List.mem_cons] at hc
      rcases hc with hc | rfl | hc
      · have hcases : c = [ascii "$upscope"] ∨
            c = [ascii "$scope", ascii "module", sig.scope.bytes] := by
          split at hc
          · simp at hc
          · split at hc <;> simp at hc <;> tauto
        rcases hcases with rfl | rfl
        · exact ⟨by decide, by decide, by decide⟩
        · refine ⟨fun w hw => ?_, fun hend => ?_, by simp⟩
          · simp only [List.mem_cons, List.not_mem_nil, or_false] at hw
            rcases hw with rfl | rfl | rfl
            · decide
            · decide
            · exact hsig.scope.isWord
          · simp only [List.mem_cons, List.not_mem_nil, or_false] at hend
            rcases hend with hend | hend | hend
            · revert hend
              decide
            · revert hend
              decide
            · exact hsig.scope.notEnd hend.symm
      · refine ⟨fun w hw => ?_, fun hend => ?_, by simp⟩
        · simp only [List.mem_cons, List.not_mem_nil, or_false] at hw
          rcases hw with rfl | rfl | rfl | rfl | rfl
          · decide
          · decide
          · exact decimal_isWord _
          · exact makeVcdIdent_isWord (by omega)
          · exact hsig.name.isWord
        · simp only [List.mem_cons, List.not_mem_nil, or_false] at hend
          rcases hend with hend | hend | hend | hend | hend
          · revert hend
            decide
          · revert hend
            decide
          · exact decimal_append_ne_end sig.width [] (by rw [List.append_nil]; exact hend.symm)
          · exact makeVcdIdent_ne_end idx hend.symm
          · exact hsig.name.notEnd hend.symm
      · exact vcdDefs_isCommand (fun s hs => h s (List.mem_cons_of_mem _ hs)) (by omega) c hc

/-! ## The changes -/

def vcdIdents (n : ℕ) : List Bytes := (List.range n).map makeVcdIdent

theorem identChange_ident {n i : ℕ} (hi : i < n) (hn : n ≤ 8836) (now : ℕ) (bits : List WaveBit) :
    identChange (vcdIdents n) (makeVcdIdent i) now bits = some (i, now, bits) := by
  have hlen : (vcdIdents n).length = n := by rw [vcdIdents, List.length_map, List.length_range]
  have hnodup : (vcdIdents n).Nodup := List.Nodup.map_on (fun a ha b hb hab => by
    rw [List.mem_range] at ha hb
    exact makeVcdIdent_inj (by omega) (by omega) hab) List.nodup_range
  have hlt : i < (vcdIdents n).length := by rwa [hlen]
  have hget : (vcdIdents n)[i] = makeVcdIdent i := by
    simp only [vcdIdents, List.getElem_map, List.getElem_range]
  have hidx : (vcdIdents n).idxOf (makeVcdIdent i) = i := by
    rw [← hget]
    exact hnodup.idxOf_getElem i hlt
  rw [identChange, hidx, hlen, if_pos hi]

theorem readBody_time (idents : List Bytes) (now : ℕ) (cs : Bytes) (rest : List Bytes) :
    readBody idents now ((35 :: cs) :: rest) = readBody idents (readDecimal cs) rest := by
  rw [readBody.eq_def]
  exact if_pos rfl

theorem readBody_scalar {idents : List Bytes} {now : ℕ} {c : UInt8} {cs : Bytes}
    {rest : List Bytes} {change : ℕ × ℕ × List WaveBit} {changes : List (ℕ × ℕ × List WaveBit)}
    (htime : c ≠ 35) (hvector : c ≠ 98)
    (hchange : identChange idents cs now [.ofChar c] = some change)
    (hrest : readBody idents now rest = some changes) :
    readBody idents now ((c :: cs) :: rest) = some (change :: changes) := by
  rw [readBody.eq_def]
  simp only [if_neg htime, if_neg hvector, hchange, hrest]

theorem readBody_vector {idents : List Bytes} {now : ℕ} {bin ident : Bytes} {rest : List Bytes}
    {change : ℕ × ℕ × List WaveBit} {changes : List (ℕ × ℕ × List WaveBit)}
    (hchange : identChange idents ident now (bin.map WaveBit.ofChar) = some change)
    (hrest : readBody idents now rest = some changes) :
    readBody idents now ((98 :: bin) :: ident :: rest) = some (change :: changes) := by
  rw [readBody.eq_def]
  simp only [if_neg (show (98 : UInt8) ≠ 35 by decide), if_true, hchange, hrest]

/-- A change as a text shows it, with its signal. -/
def FstRecord.wave (r : FstRecord) : ℕ × ℕ × List WaveBit := (r.sigId, r.time, waveBits r.value)

theorem WaveBit.char_gt (b : WaveBit) : 32 < b.char := by cases b <;> decide

theorem WaveBit.char_ne (b : WaveBit) : b.char ≠ 35 ∧ b.char ≠ 98 := by cases b <;> decide

theorem simValToBin_eq {v : SimValue} (h : v.width ≤ 256) :
    simValToBin v binSize = (waveBits v).map WaveBit.char := by
  have hlen : (waveBits v).length = v.width := by rw [waveBits, List.length_map, List.length_range]
  exact List.take_of_length_le (by
    rw [List.length_map, hlen]
    exact h)

namespace VcdWriter

def apply (w : VcdWriter) : FstOp → VcdWriter
  | .setTime timePs => w.setTime timePs
  | .dump sigId value => w.dumpValue sigId value

variable {w : VcdWriter}

theorem setTime_spec (hdefs : w.defsEnded = true) (timePs : ℕ) : ∃ tail,
    w.setTime timePs =
      { w with
        text := w.text ++ tail
        currentTime := timePs / w.timescalePs
        timeWritten := true } ∧
    ∀ idents rest, readBody idents w.currentTime (words (tail ++ rest)) =
      readBody idents (timePs / w.timescalePs) (words rest) := by
  rw [setTime, if_neg (by simp [hdefs])]
  simp only
  split
  · refine ⟨_, rfl, fun idents rest => ?_⟩
    have hword : IsWord (35 :: decimal (timePs / w.timescalePs)) :=
      IsWord.append (v := [35]) (by decide) (decimal_isWord _)
    rw [words_line _ fun v hv => by rwa [List.mem_singleton.mp hv], List.singleton_append,
      readBody_time, readDecimal_decimal]
  · rename_i hsame
    simp only [Bool.or_eq_true, Bool.not_eq_true', bne_iff_ne, ne_eq, not_or, not_not,
      Bool.not_eq_false] at hsame
    refine ⟨[], ?_, fun idents rest => ?_⟩
    · rw [List.append_nil, hsame.2, ← hsame.1]
    · rw [List.nil_append, hsame.2]

theorem dumpValue_spec {sigId : ℕ} {sig : FstSignal} {value : SimValue}
    (hdefs : w.defsEnded = true) (hsig : w.signals[sigId]? = some sig) (hwidth : sig.width ≤ 256)
    (hn : w.signals.length ≤ 8836) : ∃ tail,
    w.dumpValue sigId value = { w with text := w.text ++ tail } ∧
    ∀ now rest changes, readBody (vcdIdents w.signals.length) now (words rest) = some changes →
      readBody (vcdIdents w.signals.length) now (words (tail ++ rest)) =
        some ((sigId, now, waveBits { value with width := sig.width }) :: changes) := by
  have hlt : sigId < w.signals.length := (List.getElem?_eq_some_iff.mp hsig).1
  have hident := makeVcdIdent_isWord (lt_of_lt_of_le hlt hn)
  rw [dumpValue, hsig]
  simp only [hdefs, Bool.not_true, Bool.false_eq_true, if_false]
  split
  · rename_i hone
    refine ⟨_, rfl, fun now rest changes hrest => ?_⟩
    have hword : IsWord ((waveBit value 0).char :: makeVcdIdent sigId) :=
      IsWord.append (v := [(waveBit value 0).char])
        ⟨List.cons_ne_nil _ _, fun b hb => by rw [List.mem_singleton.mp hb]; exact WaveBit.char_gt _⟩
        hident
    have hbits : waveBits { value with width := sig.width } = [waveBit value 0] := by
      rw [hone]
      rfl
    obtain ⟨htime, hvector⟩ := WaveBit.char_ne (waveBit value 0)
    rw [words_line _ fun v hv => by rwa [List.mem_singleton.mp hv], List.singleton_append, hbits]
    refine readBody_scalar htime hvector ?_ hrest
    rw [identChange_ident hlt hn, WaveBit.ofChar_char]
  · refine ⟨_, rfl, fun now rest changes hrest => ?_⟩
    have hbin := simValToBin_eq (v := { value with width := sig.width }) hwidth
    have hwords : ∀ v ∈ [98 :: simValToBin { value with width := sig.width } binSize,
        makeVcdIdent sigId], IsWord v := by
      intro v hv
      simp only [List.mem_cons, List.not_mem_nil, or_false] at hv
      rcases hv with rfl | rfl
      · rw [hbin]
        refine ⟨List.cons_ne_nil _ _, fun b hb => ?_⟩
        rcases List.mem_cons.mp hb with rfl | hb
        · decide
        · obtain ⟨bit, -, rfl⟩ := List.mem_map.mp hb
          exact WaveBit.char_gt bit
      · exact hident
    have hback : ((waveBits { value with width := sig.width }).map WaveBit.char).map WaveBit.ofChar =
        waveBits { value with width := sig.width } := by
      rw [List.map_map]
      exact (List.map_congr_left fun b _ => WaveBit.ofChar_char b).trans (List.map_id _)
    rw [words_line _ hwords, List.cons_append, List.singleton_append]
    refine readBody_vector ?_ hrest
    rw [hbin, hback, identChange_ident hlt hn]

/-- The text of the changes is read back as the recorded changes. -/
theorem foldl_apply_spec : ∀ {ops : List FstOp} {w : VcdWriter}, w.defsEnded = true →
    (∀ sig ∈ w.signals, sig.width ≤ 256) → w.signals.length ≤ 8836 → ∃ tail,
    (ops.foldl apply w).text = w.text ++ tail ∧
    readBody (vcdIdents w.signals.length) w.currentTime (words tail) =
      some ((recordedChanges w.timescalePs w.signals w.currentTime ops).map FstRecord.wave)
  | [], w, _, _, _ => ⟨[], by rw [List.append_nil, List.foldl_nil], rfl⟩
  | .setTime timePs :: rest, w, hdefs, hwidths, hn => by
      obtain ⟨tail, heq, hread⟩ := setTime_spec hdefs timePs
      rw [List.foldl_cons, apply, heq]
      obtain ⟨more, htext, hmore⟩ := @foldl_apply_spec rest
        { w with
          text := w.text ++ tail
          currentTime := timePs / w.timescalePs
          timeWritten := true } hdefs hwidths hn
      exact ⟨tail ++ more, by rw [htext, List.append_assoc], by rw [hread]; exact hmore⟩
  | .dump sigId value :: rest, w, hdefs, hwidths, hn => by
      rw [List.foldl_cons, apply, recordedChanges]
      cases hsig : w.signals[sigId]? with
      | none =>
        have hskip : w.dumpValue sigId value = w := by rw [dumpValue, hsig]
        rw [hskip]
        exact foldl_apply_spec hdefs hwidths hn
      | some sig =>
        obtain ⟨tail, heq, hread⟩ := @dumpValue_spec w sigId sig value hdefs hsig
          (hwidths sig (List.mem_of_getElem? hsig)) hn
        rw [heq]
        obtain ⟨more, htext, hmore⟩ := @foldl_apply_spec rest
          { w with text := w.text ++ tail } hdefs hwidths hn
        exact ⟨tail ++ more, by rw [htext, List.append_assoc], hread _ _ _ hmore⟩

def addSignals (w : VcdWriter) (sigs : List FstSignal) : VcdWriter :=
  sigs.foldl (fun w sig => (w.addSignal sig).1) w

theorem addSignals_spec : ∀ {sigs : List FstSignal} {w : VcdWriter}, w.defsEnded = false →
    w.signals.length + sigs.length ≤ vcdMaxSignals →
    w.addSignals sigs = { w with signals := w.signals ++ sigs }
  | [], w, _, _ => by rw [List.append_nil]; rfl
  | sig :: rest, w, hdefs, hcount => by
      rw [List.length_cons] at hcount
      have hadd : (w.addSignal sig).1 = { w with signals := w.signals ++ [sig] } := by
        rw [addSignal, if_neg (by simp only [hdefs, Bool.false_eq_true, false_or]; omega)]
      have ih := @addSignals_spec rest { w with signals := w.signals ++ [sig] } hdefs (by
        rw [List.length_append, List.length_singleton]
        omega)
      rw [addSignals, List.foldl_cons, hadd, ← addSignals, ih]
      simp only [List.append_assoc, List.singleton_append]

end VcdWriter

def vcdDefined (stamp : Stamp) (timescalePs : ℕ) (sigs : List FstSignal) : VcdWriter :=
  ((vcdOpen stamp timescalePs).addSignals sigs).endDefinitions

def vcdRun (stamp : Stamp) (timescalePs : ℕ) (sigs : List FstSignal) (ops : List FstOp) :
    VcdWriter :=
  ops.foldl VcdWriter.apply (vcdDefined stamp timescalePs sigs)

section

variable {timescalePs : ℕ} {sigs : List FstSignal}

theorem words_definitions (hsigs : ∀ sig ∈ sigs, sig.Printable) (hcount : sigs.length ≤ 8836)
    (stamp : Stamp) (tail : Bytes) :
    splitCommands [] (words (vcdHeader stamp timescalePs ++
      ((vcdDefs none 0 sigs).flatMap commandLine ++
        (commandLine [ascii "$enddefinitions"] ++ tail)))) =
      (headerCommands stamp timescalePs ++ vcdDefs none 0 sigs, words tail) := by
  have hdefs := @vcdDefs_isCommand none 0 sigs hsigs (by omega)
  have hall : ∀ c ∈ headerCommands stamp timescalePs ++ vcdDefs none 0 sigs, IsCommand c :=
    fun c hc => (List.mem_append.mp hc).elim (headerCommands_isCommand stamp timescalePs c) (hdefs c)
  have hlast : splitCommands [] ([ascii "$enddefinitions", vcdEnd] ++ words tail) =
      ([], words tail) := by
    rw [List.cons_append, splitCommands, if_neg (by decide), List.nil_append, List.singleton_append,
      splitCommands, if_pos rfl, if_pos rfl]
  rw [words_vcdHeader, words_commands _ fun c hc => (hdefs c hc).isWord, commandLine,
    List.singleton_append, words_line _ (by decide), ← List.append_assoc, ← List.flatMap_append,
    splitCommands_commands _ hall, hlast, List.append_nil]

/-- The text of a run shows its signals and, in the unit that it declares, its records. -/
theorem readVcd_run (hsigs : ∀ sig ∈ sigs, sig.Printable) (hcount : sigs.length ≤ vcdMaxSignals)
    (hwidths : ∀ sig ∈ sigs, sig.width ≤ 256) (stamp : Stamp) (ops : List FstOp) :
    readVcd (vcdRun stamp timescalePs sigs ops).text =
      some ⟨vcdUnit timescalePs, sigs.map FstSignal.var,
        bySignal sigs.length ((recordedChanges timescalePs sigs 0 ops).map FstRecord.wave)⟩ := by
  have hmax : sigs.length ≤ 8836 := le_trans hcount (by decide)
  have hadd := @VcdWriter.addSignals_spec sigs (vcdOpen stamp timescalePs) rfl
    (by rw [show (vcdOpen stamp timescalePs).signals = [] from rfl, List.length_nil, Nat.zero_add]
        exact hcount)
  have hdefined : vcdDefined stamp timescalePs sigs =
      { text := vcdHeader stamp timescalePs ++ (vcdDefs none 0 sigs).flatMap commandLine ++
          commandLine [ascii "$enddefinitions"]
        timescalePs
        currentTime := 0
        timeWritten := false
        signals := sigs
        defsEnded := true } := by
    rw [vcdDefined, hadd]
    rfl
  obtain ⟨tail, htext, hbody⟩ := @VcdWriter.foldl_apply_spec ops (vcdDefined stamp timescalePs sigs)
    (by rw [hdefined]) (by rw [hdefined]; exact hwidths) (by rw [hdefined]; exact hmax)
  rw [← vcdRun] at htext
  rw [hdefined] at htext hbody
  simp only [List.append_assoc] at htext hbody
  have hunit : (headerCommands stamp timescalePs ++ vcdDefs none 0 sigs).findSome? readTimescale =
      some (vcdUnit timescalePs) := by
    rw [headerCommands, List.cons_append, List.findSome?_cons, List.cons_append,
      List.findSome?_cons, List.cons_append, List.findSome?_cons, readTimescale_vcdTimescale]
    rfl
  have hvars : (headerCommands stamp timescalePs ++ vcdDefs none 0 sigs).filterMap defEntry =
      registeredEntries none sigs := by
    rw [List.filterMap_append, vcdDefs_entries]
    rfl
  have hidents : (headerCommands stamp timescalePs ++ vcdDefs none 0 sigs).filterMap varIdent =
      vcdIdents sigs.length := by
    rw [List.filterMap_append, vcdDefs_idents, vcdIdents, List.range_eq_range']
    rfl
  have hhier : hierVars [] (registeredEntries none sigs) = some (sigs.map FstSignal.var) :=
    hierVars_registeredEntries none sigs
  rw [readVcd]
  simp only [htext, words_definitions hsigs hmax stamp tail, hunit, hvars, hidents, hhier, hbody,
    Option.bind_some, Option.map_some, List.length_map]

end

end JzHdl

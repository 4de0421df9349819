import JzHdl.Ir.MemTokens

/-! # Streams of memory bits

A text file is one stream of bits that fills word after word. Lines of as many
bits as a word has load the words themselves. Longer lines shift every word
behind the first one that is not zero.
-/

namespace JzHdl

open ByteCodec

/-! ## Streams -/

theorem length_memBits (m n : ℕ) : (memBits m n).length = m := by simp [memBits]

theorem getD_memBits {m t : ℕ} (n : ℕ) (ht : t < m) :
    (memBits m n).getD t false = n.testBit (m - 1 - t) := by
  rw [memBits, List.getD_eq_getElem _ _ (by simpa using ht)]
  simp

/-- The bits of words, a fixed number of them for each. -/
def wordStream (m : ℕ) (words : List ℕ) : List Bool := words.flatMap (memBits m)

theorem length_wordStream (m : ℕ) : ∀ words, (wordStream m words).length = m * words.length
  | [] => rfl
  | n :: words => by
      rw [wordStream, List.flatMap_cons, List.length_append, length_memBits, ← wordStream,
        length_wordStream m words, List.length_cons]
      ring

theorem getD_wordStream {m t : ℕ} (ht : t < m) : ∀ (words : List ℕ) (a : ℕ),
    (wordStream m words).getD (m * a + t) false = (words.getD a 0).testBit (m - 1 - t)
  | [], a => by simp [wordStream]
  | n :: words, 0 => by
      rw [wordStream, List.flatMap_cons, List.getD_append _ _ _ _ (by
        rw [length_memBits]
        omega), Nat.mul_zero, Nat.zero_add, getD_memBits n ht, List.getD_cons_zero]
  | n :: words, a + 1 => by
      have hpos : m * (a + 1) + t = m + (m * a + t) := by ring
      rw [wordStream, List.flatMap_cons, hpos, List.getD_append_right _ _ _ _ (by
        rw [length_memBits]
        omega), length_memBits, Nat.add_sub_cancel_left, List.getD_cons_succ]
      exact getD_wordStream ht words a

/-- A stream with more bits for each word has its first bit later. -/
theorem exists_late {w m : ℕ} (hm : w < m) : ∀ {words : List ℕ}, (∀ n ∈ words, n < 2 ^ w) →
    (∃ n ∈ words, n ≠ 0) → ∃ q, (wordStream w words).getD q false = true ∧
      ∀ t ≤ q, (wordStream m words).getD t false = false
  | [], _, ⟨_, hn, _⟩ => absurd hn List.not_mem_nil
  | n :: words, hwords, hne => by
      have hw := hwords n List.mem_cons_self
      by_cases hn : n = 0
      · obtain ⟨x, hx, hx0⟩ := hne
        have hrest : ∃ n ∈ words, n ≠ 0 := by
          rcases List.mem_cons.mp hx with rfl | hx
          · exact absurd hn hx0
          · exact ⟨x, hx, hx0⟩
        obtain ⟨q, hq, hbefore⟩ :=
          exists_late hm (fun n hn => hwords n (List.mem_cons_of_mem _ hn)) hrest
        refine ⟨w + q, ?_, fun t ht => ?_⟩
        · rw [wordStream, List.flatMap_cons, List.getD_append_right _ _ _ _ (by
            rw [length_memBits]
            omega), length_memBits, Nat.add_sub_cancel_left]
          exact hq
        · rw [wordStream, List.flatMap_cons]
          by_cases htm : t < m
          · rw [List.getD_append _ _ _ _ (by rwa [length_memBits]), getD_memBits n htm, hn,
              Nat.zero_testBit]
          · rw [List.getD_append_right _ _ _ _ (by
              rw [length_memBits]
              omega), length_memBits]
            exact hbefore (t - m) (by omega)
      · have htop : n.log2 < w := (Nat.log2_lt hn).mpr hw
        refine ⟨w - 1 - n.log2, ?_, fun t ht => ?_⟩
        · rw [wordStream, List.flatMap_cons, List.getD_append _ _ _ _ (by
            rw [length_memBits]
            omega), getD_memBits n (by omega),
            show w - 1 - (w - 1 - n.log2) = n.log2 by omega, Nat.testBit_log2 hn]
        · rw [wordStream, List.flatMap_cons, List.getD_append _ _ _ _ (by
            rw [length_memBits]
            omega), getD_memBits n (by omega)]
          exact Nat.testBit_lt_two_pow ((Nat.lt_log2_self).trans_le
            (Nat.pow_le_pow_right (by decide) (by omega)))

/-! ## Filling the blob -/

section

variable {k w d : ℕ}

/-- The place of a stream position among the bits of the blob. -/
def streamPos (k w q : ℕ) : ℕ := wordBitPos k (q / w) (w - 1 - q % w)

theorem streamPos_lt (hw : 0 < w) (hk : w ≤ 8 * k) {q : ℕ} (hq : q < w * d) :
    streamPos k w q < 8 * (k * d) := by
  have hword : q / w < d := Nat.div_lt_of_lt_mul hq
  have hle : (q / w + 1) * k ≤ d * k := Nat.mul_le_mul_right k hword
  rw [streamPos, wordBitPos]
  rw [Nat.add_mul, Nat.one_mul] at hle
  rw [Nat.mul_comm k d]
  omega

theorem streamPos_inj (hw : 0 < w) (hk : w ≤ 8 * k) {q q' : ℕ}
    (h : streamPos k w q = streamPos k w q') : q = q' := by
  have hr := Nat.mod_lt q hw
  have hr' := Nat.mod_lt q' hw
  simp only [streamPos, wordBitPos] at h
  have hword : ∀ {a j : ℕ}, j < 8 * k → (8 * (a * k) + (8 * k - 1 - j)) / (8 * k) = a := by
    intro a j hj
    rw [show 8 * (a * k) = 8 * k * a by ring, Nat.mul_add_div (by omega),
      Nat.div_eq_of_lt (by omega), Nat.add_zero]
  have hdiv : q / w = q' / w := by
    rw [← hword (a := q / w) (j := w - 1 - q % w) (by omega), h, hword (by omega)]
  have hmod : q % w = q' % w := by
    rw [hdiv] at h
    omega
  rw [← Nat.div_add_mod q w, ← Nat.div_add_mod q' w, hdiv, hmod]

/-- The bits of the blob are those of the stream. -/
structure HoldsStream (k w d : ℕ) (stream : List Bool) (blob : Bytes) : Prop where

  length : blob.length = k * d

  bits : ∀ i, bitAt blob i = true ↔ ∃ q, stream.getD q false = true ∧ i = streamPos k w q

theorem HoldsStream.eq {stream : List Bool} {blob blob' : Bytes}
    (h : HoldsStream k w d stream blob) (h' : HoldsStream k w d stream blob') : blob = blob' := by
  refine bytes_ext (h.length.trans h'.length.symm) fun i _ => ?_
  rw [Bool.eq_iff_iff, h.bits, h'.bits]

theorem HoldsStream.congr {stream : List Bool} (stream' : List Bool) {blob : Bytes}
    (h : HoldsStream k w d stream blob)
    (hsame : ∀ q, stream'.getD q false = stream.getD q false) :
    HoldsStream k w d stream' blob where
  length := h.length
  bits i := by simp only [h.bits, hsame]

/-- One blob holds one stream. -/
theorem HoldsStream.getD_eq (hw : 0 < w) (hk : w ≤ 8 * k) {stream stream' : List Bool}
    {blob : Bytes} (h : HoldsStream k w d stream blob) (h' : HoldsStream k w d stream' blob)
    {q : ℕ} (hq : stream.getD q false = true) : stream'.getD q false = true := by
  obtain ⟨q', hq', hpos⟩ := (h'.bits _).mp ((h.bits _).mpr ⟨q, hq, rfl⟩)
  rwa [streamPos_inj hw hk hpos]

theorem holdsStream_zeros (stream : List Bool) (h : ∀ q, stream.getD q false = false) :
    HoldsStream k w d stream (zeros (k * d)) where
  length := List.length_replicate
  bits i := by
    rw [bitAt_zeros]
    constructor
    · intro hfalse
      cases hfalse
    · rintro ⟨q, hq, -⟩
      rw [h] at hq
      cases hq

theorem getD_of_length_le {stream : List Bool} {q : ℕ} (h : stream.getD q false = true) :
    q < stream.length := by
  by_contra hge
  rw [List.getD_eq_default _ _ (by omega)] at h
  cases h

/-- Appending a stream succeeds if it ends inside of the memory. -/
theorem appendBits_ok (hw : 0 < w) (hk : w ≤ 8 * k) : ∀ (rest stream : List Bool) {blob : Bytes},
    HoldsStream k w d stream blob → stream.length + rest.length ≤ w * d →
      ∃ blob', appendBitsFromValue k w (w * d) rest stream.length blob = .ok blob' ∧
        HoldsStream k w d (stream ++ rest) blob'
  | [], stream, blob, h, _ => ⟨blob, rfl, by rwa [List.append_nil]⟩
  | bit :: rest, stream, blob, h, hlen => by
      rw [List.length_cons] at hlen
      rw [appendBitsFromValue, if_neg (by omega)]
      have hlast : stream.length < w * d := by omega
      have hnext : HoldsStream k w d (stream ++ [bit])
          (if bit then setBlobBit k w stream.length blob else blob) := by
        have hsplit : ∀ q, (stream ++ [bit]).getD q false = true ↔
            stream.getD q false = true ∨ q = stream.length ∧ bit = true := by
          intro q
          rcases Nat.lt_trichotomy q stream.length with hq | rfl | hq
          · rw [List.getD_append _ _ _ _ hq]
            exact ⟨.inl, fun h => h.resolve_right fun h => absurd h.1 (by omega)⟩
          · rw [List.getD_append_right _ _ _ _ le_rfl, Nat.sub_self, List.getD_cons_zero,
              List.getD_eq_default _ _ le_rfl]
            simp
          · rw [List.getD_eq_default _ _ (by rw [List.length_append, List.length_singleton]; omega),
              List.getD_eq_default _ _ (by omega)]
            simp [Nat.ne_of_gt hq]
        cases bit with
        | false =>
          refine ⟨h.length, fun i => ?_⟩
          rw [if_neg Bool.false_ne_true, h.bits]
          simp only [hsplit, Bool.false_eq_true, and_false, or_false]
        | true =>
          have hpos := streamPos_lt hw hk hlast
          have hwordle : (stream.length / w + 1) * k ≤ d * k :=
            Nat.mul_le_mul_right k (Nat.div_lt_of_lt_mul hlast)
          rw [Nat.add_mul, Nat.one_mul] at hwordle
          have hword : stream.length / w * k + k ≤ blob.length := by
            rw [h.length, Nat.mul_comm k d]
            omega
          have hbit : w - 1 - stream.length % w < 8 * k := by omega
          have hsets := setBlobWordLsbBit_sets hword hbit
          refine ⟨hsets.length.trans h.length, fun i => ?_⟩
          rw [if_pos rfl, setBlobBit, hsets.bits, h.bits]
          simp only [hsplit, and_true]
          constructor
          · rintro (⟨q, hq, rfl⟩ | ⟨_, rfl, rfl⟩)
            · exact ⟨q, .inl hq, rfl⟩
            · exact ⟨_, .inr rfl, rfl⟩
          · rintro ⟨q, hq | rfl, rfl⟩
            · exact .inl ⟨q, hq, rfl⟩
            · exact .inr ⟨_, rfl, rfl⟩
      obtain ⟨blob', hok, hholds⟩ := appendBits_ok hw hk rest (stream ++ [bit]) hnext
        (by rw [List.length_append, List.length_singleton]; omega)
      rw [List.length_append, List.length_singleton] at hok
      exact ⟨blob', hok, by rwa [List.append_assoc] at hholds⟩

theorem appendBits_error : ∀ (bits : List Bool) (q : ℕ) {blob : Bytes}, q ≤ w * d →
    w * d < q + bits.length → appendBitsFromValue k w (w * d) bits q blob = .error .exceedsSize
  | [], q, _, hq, hlen => by
      rw [List.length_nil] at hlen
      omega
  | bit :: rest, q, _, hq, hlen => by
      rw [List.length_cons] at hlen
      rw [appendBitsFromValue]
      by_cases hfull : w * d ≤ q
      · rw [if_pos hfull]
      · rw [if_neg hfull, appendBits_error rest (q + 1) (by omega) (by omega)]

end

/-! ## The blob of the words -/

/-- The words and zeros behind them, each word in its own bytes. -/
def normalBlob (w d : ℕ) (words : List ℕ) : Bytes :=
  (words ++ List.replicate (d - words.length) 0).flatMap (bigEndian ((w + 7) / 8))

section

variable {w d : ℕ} {words : List ℕ}

theorem length_flatMap_bigEndian (k : ℕ) : ∀ words : List ℕ,
    (words.flatMap (bigEndian k)).length = k * words.length
  | [] => rfl
  | n :: words => by
      rw [List.flatMap_cons, List.length_append, length_bigEndian, length_flatMap_bigEndian k words,
        List.length_cons]
      ring

theorem length_normalBlob (hlen : words.length ≤ d) :
    (normalBlob w d words).length = (w + 7) / 8 * d := by
  rw [normalBlob, length_flatMap_bigEndian, List.length_append, List.length_replicate,
    Nat.add_sub_cancel' hlen]

theorem normalBlob_holds (hw : 0 < w) (hlen : words.length ≤ d) (hwords : ∀ n ∈ words, n < 2 ^ w) :
    HoldsStream ((w + 7) / 8) w d (wordStream w words) (normalBlob w d words) where
  length := length_normalBlob hlen
  bits i := by
    set k := (w + 7) / 8 with hk
    have hblobLength : (normalBlob w d words).length = k * d := length_normalBlob hlen
    have hlt : ∀ a, words.getD a 0 < 2 ^ w := fun a => by
      rcases Nat.lt_or_ge a words.length with ha | ha
      · rw [List.getD_eq_getElem _ _ ha]
        exact hwords _ (List.getElem_mem ha)
      · rw [List.getD_eq_default _ _ ha]
        exact Nat.two_pow_pos w
    have hword : ∀ {a r}, a < d → r < 8 * k →
        bitAt (normalBlob w d words) (8 * k * a + r) = (words.getD a 0).testBit (8 * k - 1 - r) := by
      intro a r ha hr
      have hget : (words ++ List.replicate (d - words.length) 0)[a]? = some (words.getD a 0) := by
        rcases Nat.lt_or_ge a words.length with hlow | hhigh
        · rw [List.getElem?_append_left hlow, List.getD_eq_getElem?_getD,
            List.getElem?_eq_getElem hlow]
          rfl
        · rw [List.getElem?_append_right hhigh, List.getElem?_replicate, if_pos (by omega),
            List.getD_eq_default _ _ hhigh]
      rw [normalBlob, bitAt_blocks (length_bigEndian k) hget hr, bitAt_bigEndian _ hr]
    constructor
    · intro hi
      have hin : i < 8 * k * d := by
        by_contra hout
        rw [bitAt_of_length_le (by
          rw [hblobLength, ← Nat.mul_assoc]
          omega)] at hi
        cases hi
      have hr : i % (8 * k) < 8 * k := Nat.mod_lt _ (by omega)
      have ha : i / (8 * k) < d := Nat.div_lt_of_lt_mul hin
      rw [← Nat.div_add_mod i (8 * k), hword ha hr] at hi
      have hj : 8 * k - 1 - i % (8 * k) < w := testBits_lt.mpr (hlt _) _ hi
      set j := 8 * k - 1 - i % (8 * k) with hjdef
      refine ⟨w * (i / (8 * k)) + (w - 1 - j), ?_, ?_⟩
      · rw [getD_wordStream (by omega), show w - 1 - (w - 1 - j) = j by omega, hi]
      · rw [streamPos, Nat.mul_add_div hw, Nat.div_eq_of_lt (a := w - 1 - j) (by omega),
          Nat.add_zero, Nat.mul_add_mod, Nat.mod_eq_of_lt (a := w - 1 - j) (by omega), wordBitPos,
          show w - 1 - (w - 1 - j) = j by omega]
        conv_lhs => rw [← Nat.div_add_mod i (8 * k)]
        rw [show 8 * (i / (8 * k) * k) = 8 * k * (i / (8 * k)) by ring]
        omega
    · rintro ⟨q, hq, rfl⟩
      have hqlen := getD_of_length_le hq
      rw [length_wordStream] at hqlen
      have ha : q / w < d := (Nat.div_lt_of_lt_mul hqlen).trans_le hlen
      have hr := Nat.mod_lt q hw
      rw [← Nat.div_add_mod q w, getD_wordStream hr] at hq
      rw [streamPos, wordBitPos, show 8 * (q / w * k) = 8 * k * (q / w) by ring,
        hword ha (by omega)]
      rw [show 8 * k - 1 - (8 * k - 1 - (w - 1 - q % w)) = w - 1 - q % w by omega]
      exact hq

end

/-! ## Text files -/

/-- A number in digits of some bits each. -/
def digitsText (b : ℕ) : ℕ → ℕ → List Char
  | 0, _ => []
  | count + 1, n => digitsText b count (n / 2 ^ b) ++ [Nat.digitChar (n % 2 ^ b)]

/-- One line for each word. -/
def renderText (b count : ℕ) (words : List ℕ) : List Char :=
  words.flatMap fun n => digitsText b count n ++ ['\n']

/-- The bits that a character adds to the stream. -/
def charBits (b : ℕ) (c : Char) : List Bool :=
  if c = '\n' then [] else memBits b (boundDigit c)

theorem memBits_add (m b n : ℕ) :
    memBits (m + b) n = memBits m (n / 2 ^ b) ++ memBits b (n % 2 ^ b) := by
  rw [memBits, Nat.add_comm, List.range_add, List.reverse_append, List.map_append,
    ← List.map_reverse, List.map_map, memBits, memBits]
  congr 1
  · refine List.map_congr_left fun x _ => ?_
    rw [Function.comp_apply, Nat.testBit_div_two_pow, Nat.add_comm]
  · refine List.map_congr_left fun x hx => ?_
    rw [List.mem_reverse, List.mem_range] at hx
    rw [Nat.testBit_mod_two_pow, decide_eq_true hx, Bool.true_and]

theorem boundDigit_digitChar {n : ℕ} (h : n < 16) : boundDigit (Nat.digitChar n) = n := by
  revert n
  decide

theorem digitsText_digits {b : ℕ} (hb : b ≤ 4) : ∀ (count n : ℕ), ∀ c ∈ digitsText b count n,
    boundDigit c < 2 ^ b
  | 0, _, c, hc => absurd hc List.not_mem_nil
  | count + 1, n, c, hc => by
      rcases List.mem_append.mp hc with hc | hc
      · exact digitsText_digits hb count _ c hc
      · have hlt := Nat.mod_lt n (Nat.two_pow_pos b)
        rw [List.mem_singleton.mp hc, boundDigit_digitChar
          (hlt.trans_le (Nat.pow_le_pow_right (by decide) hb))]
        exact hlt

theorem digitsText_bits {b : ℕ} (hb : b ≤ 4) : ∀ (count n : ℕ),
    (digitsText b count n).flatMap (charBits b) = memBits (b * count) n
  | 0, n => rfl
  | count + 1, n => by
      have hlt := (Nat.mod_lt n (Nat.two_pow_pos b)).trans_le
        (Nat.pow_le_pow_right (by decide) hb : 2 ^ b ≤ 2 ^ 4)
      have hnewline : Nat.digitChar (n % 2 ^ b) ≠ '\n' := fun h => by
        have hdigit := boundDigit_digitChar hlt
        rw [h, show boundDigit '\n' = 36 from rfl] at hdigit
        omega
      rw [digitsText, List.flatMap_append, digitsText_bits hb count, List.flatMap_singleton,
        charBits, if_neg hnewline, boundDigit_digitChar hlt, Nat.mul_succ, memBits_add]

theorem renderText_bits {b : ℕ} (hb : b ≤ 4) (count : ℕ) : ∀ words : List ℕ,
    (renderText b count words).flatMap (charBits b) = wordStream (b * count) words
  | [] => rfl
  | n :: words => by
      rw [renderText, List.flatMap_cons, List.flatMap_append, List.flatMap_append,
        digitsText_bits hb, ← renderText, renderText_bits hb count words, wordStream,
        List.flatMap_cons]
      simp [charBits, wordStream]

theorem renderText_chars {b : ℕ} (hb : b ≤ 4) {count : ℕ} {words : List ℕ} :
    ∀ c ∈ renderText b count words, c = '\n' ∨ boundDigit c < 2 ^ b := by
  intro c hc
  obtain ⟨n, -, hc⟩ := List.mem_flatMap.mp hc
  rcases List.mem_append.mp hc with hc | hc
  · exact .inr (digitsText_digits hb count n c hc)
  · exact .inl (List.mem_singleton.mp hc)

section

variable {k w cap : ℕ}

theorem appendBits_append (rest : List Bool) : ∀ (bits : List Bool) (q : ℕ) (blob : Bytes),
    appendBitsFromValue k w cap (bits ++ rest) q blob =
      match appendBitsFromValue k w cap bits q blob with
      | .error e => .error e
      | .ok blob => appendBitsFromValue k w cap rest (q + bits.length) blob
  | [], q, blob => rfl
  | bit :: bits, q, blob => by
      rw [List.cons_append, appendBitsFromValue, appendBitsFromValue]
      split
      · rfl
      · rw [appendBits_append rest bits, List.length_cons, Nat.add_right_comm, Nat.add_assoc]

/-- Lines of digits are one stream. -/
theorem lowerTextChars_stream (isHex : Bool) : ∀ (text : List Char) (q : ℕ) (blob : Bytes),
    (∀ c ∈ text, c = '\n' ∨ boundDigit c < if isHex then 16 else 2) →
      lowerTextChars k w isHex cap text false q blob =
        appendBitsFromValue k w cap (text.flatMap (charBits (if isHex then 4 else 1))) q blob
  | [], _, _, _ => rfl
  | c :: rest, q, blob, h => by
      have ih := fun q blob => lowerTextChars_stream isHex rest q blob
        fun c hc => h c (List.mem_cons_of_mem _ hc)
      rw [lowerTextChars, if_neg Bool.false_ne_true, List.flatMap_cons, charBits]
      rcases h c List.mem_cons_self with rfl | hdigit
      · rw [if_neg (by simp), if_pos (.inl (by decide)), if_pos rfl, ih, List.nil_append]
      · have h16 : boundDigit c < 16 := hdigit.trans_le (by split <;> decide)
        obtain ⟨hspace, hslash, hunder⟩ := boundDigit_plain h16
        have hnewline : c ≠ '\n' := by
          rintro rfl
          exact absurd hspace (by decide)
        rw [if_neg (fun hc => hslash hc.1), if_neg (by rw [hspace]; simp [hunder]),
          if_neg (by rw [isXz_digit h16]; exact Bool.false_ne_true), memInitDigitValue,
          if_pos hdigit, if_neg hnewline, appendBits_append]
        dsimp only
        cases appendBitsFromValue k w cap (memBits (if isHex then 4 else 1) (boundDigit c)) q
          blob with
        | error e => rfl
        | ok blob' => exact ih _ _

end

/-! ## Loading the files -/

/-- One line of binary digits for each word, one digit for each bit. -/
def renderMem (w : ℕ) (words : List ℕ) : List Char := renderText 1 w words

/-- One line for each word with as many hexadecimal digits as it needs. -/
def renderHex (w : ℕ) (words : List ℕ) : List Char := renderText 4 ((w + 3) / 4) words

/-- The bytes of the words as characters. -/
def renderBin (w : ℕ) (words : List ℕ) : List Char :=
  (words.flatMap (bigEndian ((w + 7) / 8))).map fun b => Char.ofNat b.toNat

section

variable {w d : ℕ} {words : List ℕ}

theorem lowerText_ok (hw : 0 < w) (isHex : Bool) {count : ℕ}
    (hfile : (renderText (if isHex then 4 else 1) count words).length ≤ memInitFileBytes)
    (hfits : (if isHex then 4 else 1) * count * words.length ≤ w * d) :
    ∃ blob, lowerTextMemInit ((w + 7) / 8) w isHex (w * d)
        (renderText (if isHex then 4 else 1) count words) (zeros ((w + 7) / 8 * d)) = .ok blob ∧
      HoldsStream ((w + 7) / 8) w d (wordStream ((if isHex then 4 else 1) * count) words) blob := by
  have hb : (if isHex then 4 else 1) ≤ 4 := by split <;> decide
  have hpow : (if isHex then 16 else 2) = 2 ^ (if isHex then 4 else 1) := by split <;> rfl
  rw [lowerTextMemInit, if_neg (by omega), lowerTextChars_stream isHex _ _ _ (by
    rw [hpow]
    exact renderText_chars hb), renderText_bits hb]
  exact appendBits_ok hw (by omega) _ [] (holdsStream_zeros [] fun q => rfl) (by
    rw [List.length_nil, Nat.zero_add, length_wordStream]
    exact hfits)

theorem lowerText_error (isHex : Bool) {count : ℕ}
    (hfile : (renderText (if isHex then 4 else 1) count words).length ≤ memInitFileBytes)
    (hlong : w * d < (if isHex then 4 else 1) * count * words.length) :
    lowerTextMemInit ((w + 7) / 8) w isHex (w * d)
      (renderText (if isHex then 4 else 1) count words) (zeros ((w + 7) / 8 * d)) =
        .error .exceedsSize := by
  have hb : (if isHex then 4 else 1) ≤ 4 := by split <;> decide
  have hpow : (if isHex then 16 else 2) = 2 ^ (if isHex then 4 else 1) := by split <;> rfl
  rw [lowerTextMemInit, if_neg (by omega), lowerTextChars_stream isHex _ _ _ (by
    rw [hpow]
    exact renderText_chars hb), renderText_bits hb]
  exact appendBits_error _ 0 (Nat.zero_le _) (by rwa [Nat.zero_add, length_wordStream])

theorem lowerMem_eq (hw : 0 < w) (hlen : words.length ≤ d) (hwords : ∀ n ∈ words, n < 2 ^ w)
    (hfile : (renderMem w words).length ≤ memInitFileBytes) :
    lowerTextMemInit ((w + 7) / 8) w false (w * d) (renderMem w words)
      (zeros ((w + 7) / 8 * d)) = .ok (normalBlob w d words) := by
  obtain ⟨blob, hok, hholds⟩ := lowerText_ok (d := d) hw false hfile (by
    simpa using Nat.mul_le_mul_left w hlen)
  have hnormal := normalBlob_holds hw hlen hwords
  rw [if_neg Bool.false_ne_true, Nat.one_mul] at hholds
  rw [hholds.eq hnormal] at hok
  exact hok

/-- Hexadecimal lines load the words only if their digits have as many bits as the words, or if
every word is zero. -/
theorem lowerHex_eq_iff (hw : 0 < w) (hlen : words.length ≤ d) (hwords : ∀ n ∈ words, n < 2 ^ w)
    (hfile : (renderHex w words).length ≤ memInitFileBytes) :
    lowerTextMemInit ((w + 7) / 8) w true (w * d) (renderHex w words)
        (zeros ((w + 7) / 8 * d)) = .ok (normalBlob w d words) ↔
      4 ∣ w ∨ (∀ n ∈ words, n = 0) ∧ 4 * ((w + 3) / 4) * words.length ≤ w * d := by
  have hnormal := normalBlob_holds hw hlen hwords
  constructor
  · intro hok
    by_cases hdvd : 4 ∣ w
    · exact .inl hdvd
    have hfits : 4 * ((w + 3) / 4) * words.length ≤ w * d := by
      by_contra hlong
      have herror := lowerText_error true hfile (by
        rw [if_pos rfl]
        exact Nat.lt_of_not_le hlong)
      have hsame := hok.symm.trans herror
      cases hsame
    refine .inr ⟨?_, hfits⟩
    obtain ⟨blob, hok', hholds⟩ := lowerText_ok (d := d) hw true hfile (by rwa [if_pos rfl])
    obtain rfl := Except.ok.inj (hok'.symm.trans hok)
    rw [if_pos rfl] at hholds
    by_contra hne
    obtain ⟨q, hq, hbefore⟩ := exists_late (m := 4 * ((w + 3) / 4)) (by omega) hwords (by
      simpa using hne)
    have hsame := hnormal.getD_eq hw (by omega) hholds hq
    rw [hbefore q le_rfl] at hsame
    cases hsame
  · rintro (hdvd | ⟨hzero, hfits⟩)
    · have hcount : 4 * ((w + 3) / 4) = w := by omega
      obtain ⟨blob, hok, hholds⟩ := lowerText_ok (d := d) hw true hfile (by
        rw [if_pos rfl, hcount]
        exact Nat.mul_le_mul_left w hlen)
      rw [if_pos rfl, hcount] at hholds
      rw [hholds.eq hnormal] at hok
      exact hok
    · obtain ⟨blob, hok, hholds⟩ := lowerText_ok (d := d) hw true hfile (by rwa [if_pos rfl])
      rw [if_pos rfl] at hholds
      have hnone : ∀ m q, (wordStream m words).getD q false = false := by
        intro m q
        rw [List.getD_eq_getElem?_getD]
        cases hget : (wordStream m words)[q]? with
        | none => rfl
        | some bit =>
          obtain ⟨n, hn, hbit⟩ := List.mem_flatMap.mp (List.mem_of_getElem? hget)
          obtain ⟨j, -, rfl⟩ := List.mem_map.mp hbit
          rw [hzero n hn, Nat.zero_testBit, Option.getD_some]
      have hsame := hholds.congr (wordStream w words) fun q => by rw [hnone, hnone]
      rw [hsame.eq hnormal] at hok
      exact hok

theorem bigEndian_zero : ∀ k, bigEndian k 0 = zeros k
  | 0 => rfl
  | k + 1 => by
      rw [bigEndian, Nat.zero_div, bigEndian_zero k, zeros, zeros, List.replicate_succ']
      rfl

theorem flatMap_bigEndian_zeros (k : ℕ) : ∀ n,
    (List.replicate n 0).flatMap (bigEndian k) = zeros (k * n)
  | 0 => rfl
  | n + 1 => by
      rw [List.replicate_succ, List.flatMap_cons, flatMap_bigEndian_zeros k n, bigEndian_zero,
        zeros, zeros, zeros, List.replicate_append_replicate, Nat.mul_succ, Nat.add_comm]

theorem normalBlob_eq :
    normalBlob w d words = words.flatMap (bigEndian ((w + 7) / 8)) ++
      zeros ((w + 7) / 8 * (d - words.length)) := by
  rw [normalBlob, List.flatMap_append, flatMap_bigEndian_zeros]

theorem renderBin_bytes : (renderBin w words).map (fun c => UInt8.ofNat c.toNat) =
    words.flatMap (bigEndian ((w + 7) / 8)) := by
  rw [renderBin, List.map_map]
  refine (List.map_congr_left fun b _ => ?_).trans (List.map_id _)
  have hvalid : b.toNat.isValidChar := .inl (b.toNat_lt.trans (by decide))
  rw [Function.comp_apply, Char.ofNat, dif_pos hvalid]
  exact UInt8.ofNat_toNat

theorem lowerBin_eq (hlen : words.length ≤ d)
    (hfile : (renderBin w words).length ≤ memInitFileBytes) :
    lowerBinaryMemInit ((w + 7) / 8 * d) (renderBin w words) (zeros ((w + 7) / 8 * d)) =
      .ok (normalBlob w d words) := by
  have hlength : (renderBin w words).length = (w + 7) / 8 * words.length := by
    rw [renderBin, List.length_map, length_flatMap_bigEndian]
  have hfits : (w + 7) / 8 * words.length ≤ (w + 7) / 8 * d := Nat.mul_le_mul_left _ hlen
  rw [lowerBinaryMemInit, if_neg (by omega), if_neg (by omega), renderBin_bytes, normalBlob_eq,
    hlength, zeros, List.drop_replicate, ← Nat.mul_sub, ← zeros]

end

end JzHdl

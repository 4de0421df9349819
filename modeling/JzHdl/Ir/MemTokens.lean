import JzHdl.Ir.MemInit
import Mathlib.Tactic.Ring

/-! # Tokens of memory initialisers

Storing a token sets the bits of the number that it denotes. The digits of a
binary, octal or hexadecimal token are bits already, and a decimal token goes
through a number of 64 bits.
-/

namespace JzHdl

open ByteCodec

/-! ## Bits of a word -/

section

variable {k addr : ℕ}

/-- The position of a bit of a word, counted from the lowest, among all bits. -/
def wordBitPos (k addr j : ℕ) : ℕ := 8 * (addr * k) + (8 * k - 1 - j)

/-- The selected bits of a word are set, and nothing else changes. -/
structure SetsBits (k addr : ℕ) (test : ℕ → Prop) (blob blob' : Bytes) : Prop where

  length : blob'.length = blob.length

  bits : ∀ i, bitAt blob' i = true ↔
    bitAt blob i = true ∨ ∃ j, test j ∧ i = wordBitPos k addr j

theorem SetsBits.refl {test : ℕ → Prop} (blob : Bytes) (h : ∀ j, ¬ test j) :
    SetsBits k addr test blob blob where
  length := rfl
  bits _ := ⟨.inl, fun hi => hi.resolve_right fun ⟨j, hj, _⟩ => h j hj⟩

theorem SetsBits.trans {test₁ test₂ test : ℕ → Prop} {blob blob' blob'' : Bytes}
    (h₁ : SetsBits k addr test₁ blob blob') (h₂ : SetsBits k addr test₂ blob' blob'')
    (h : ∀ j, test j ↔ test₁ j ∨ test₂ j) : SetsBits k addr test blob blob'' where
  length := h₂.length.trans h₁.length
  bits i := by
    rw [h₂.bits, h₁.bits]
    constructor
    · rintro ((hi | ⟨j, hj, rfl⟩) | ⟨j, hj, rfl⟩)
      · exact .inl hi
      · exact .inr ⟨j, (h j).mpr (.inl hj), rfl⟩
      · exact .inr ⟨j, (h j).mpr (.inr hj), rfl⟩
    · rintro (hi | ⟨j, hj, rfl⟩)
      · exact .inl (.inl hi)
      · exact ((h j).mp hj).elim (fun hj => .inl (.inr ⟨j, hj, rfl⟩)) fun hj => .inr ⟨j, hj, rfl⟩

theorem SetsBits.congr {test : ℕ → Prop} {blob blob' : Bytes}
    (h : SetsBits k addr test blob blob') (test' : ℕ → Prop) (htest : ∀ j, test j ↔ test' j) :
    SetsBits k addr test' blob blob' where
  length := h.length
  bits i := by simp only [h.bits i, htest]

theorem setBlobWordLsbBit_sets {blob : Bytes} (hblob : addr * k + k ≤ blob.length) {bit : ℕ}
    (hbit : bit < 8 * k) :
    SetsBits k addr (fun j => j = bit) blob (setBlobWordLsbBit k addr bit blob) where
  length := length_orBit _ _ _
  bits i := by
    have hbyte : bit / 8 < k := by omega
    rw [setBlobWordLsbBit, bitAt_orBit (by omega) (by omega), Bool.or_eq_true, decide_eq_true_iff]
    have hpos : 8 * (addr * k + (k - 1 - bit / 8)) + (7 - bit % 8) = wordBitPos k addr bit := by
      rw [wordBitPos]
      omega
    rw [hpos]
    simp

theorem setWordBits_sets (test : ℕ → Bool) {blob : Bytes} (hblob : addr * k + k ≤ blob.length) :
    ∀ count ≤ 8 * k,
      SetsBits k addr (fun j => j < count ∧ test j = true) blob (setWordBits k addr test count blob)
  | 0, _ => SetsBits.refl blob fun j h => absurd h.1 (Nat.not_lt_zero j)
  | count + 1, hcount => by
      have ih := setWordBits_sets test hblob count (by omega)
      rw [setWordBits, List.range_succ, List.foldl_append, List.foldl_cons, List.foldl_nil,
        ← setWordBits]
      split
      · rename_i htest
        have hlen := ih.length
        refine ih.trans (setBlobWordLsbBit_sets (by omega) (by omega)) fun j => ?_
        constructor
        · rintro ⟨hj, htj⟩
          by_cases hjc : j = count
          · exact .inr hjc
          · exact .inl ⟨by omega, htj⟩
        · rintro (⟨hj, htj⟩ | rfl)
          · exact ⟨by omega, htj⟩
          · exact ⟨by omega, htest⟩
      · rename_i htest
        refine ih.congr _ fun j => ⟨fun h => ⟨by omega, h.2⟩, fun h => ⟨?_, h.2⟩⟩
        have hne : j ≠ count := fun hj => htest (hj ▸ h.2)
        omega

theorem length_clearBlobWord (blob : Bytes) : (clearBlobWord k addr blob).length = blob.length :=
  List.length_mapIdx

theorem bitAt_clearBlobWord (blob : Bytes) (i : ℕ) :
    bitAt (clearBlobWord k addr blob) i =
      if 8 * (addr * k) ≤ i ∧ i < 8 * (addr * k) + 8 * k then false else bitAt blob i := by
  have hiff : (8 * (addr * k) ≤ i ∧ i < 8 * (addr * k) + 8 * k) ↔
      (addr * k ≤ i / 8 ∧ i / 8 < addr * k + k) := by omega
  rw [if_congr hiff rfl rfl, bitAt, bitAt, clearBlobWord, List.getD_eq_getElem?_getD,
    List.getD_eq_getElem?_getD, List.getElem?_mapIdx]
  cases blob[i / 8]? with
  | none => simp
  | some b => split <;> simp_all

/-- The blob with a word replaced. -/
def putWord (k addr n : ℕ) (blob : Bytes) : Bytes :=
  blob.take (addr * k) ++ bigEndian k n ++ blob.drop (addr * k + k)

theorem length_putWord {n : ℕ} {blob : Bytes} (hblob : addr * k + k ≤ blob.length) :
    (putWord k addr n blob).length = blob.length := by
  simp only [putWord, List.length_append, List.length_take, length_bigEndian, List.length_drop]
  omega

theorem bitAt_putWord {n : ℕ} {blob : Bytes} (hblob : addr * k + k ≤ blob.length) (i : ℕ) :
    bitAt (putWord k addr n blob) i =
      if 8 * (addr * k) ≤ i ∧ i < 8 * (addr * k) + 8 * k then
        n.testBit (8 * k - 1 - (i - 8 * (addr * k)))
      else bitAt blob i := by
  have hfront : (blob.take (addr * k)).length = addr * k := List.length_take_of_le (by omega)
  have hmid : (blob.take (addr * k) ++ bigEndian k n).length = addr * k + k := by
    rw [List.length_append, hfront, length_bigEndian]
  rw [putWord]
  by_cases hlow : i < 8 * (addr * k)
  · rw [if_neg (by omega), bitAt_append_left (by omega), bitAt_append_left (by omega)]
    conv_rhs => rw [← List.take_append_drop (addr * k) blob]
    rw [bitAt_append_left (by omega)]
  · by_cases hword : i < 8 * (addr * k) + 8 * k
    · obtain ⟨r, rfl⟩ := Nat.exists_eq_add_of_le (Nat.not_lt.mp hlow)
      have hright := bitAt_append_right (blob.take (addr * k)) (bigEndian k n) r
      rw [hfront] at hright
      rw [if_pos ⟨by omega, hword⟩, bitAt_append_left (by omega), hright,
        bitAt_bigEndian n (by omega), Nat.add_sub_cancel_left]
    · obtain ⟨r, rfl⟩ := Nat.exists_eq_add_of_le (Nat.not_lt.mp hword)
      have hright := bitAt_append_right (blob.take (addr * k) ++ bigEndian k n)
        (blob.drop (addr * k + k)) r
      have hdrop := bitAt_append_right (blob.take (addr * k + k)) (blob.drop (addr * k + k)) r
      rw [hmid, Nat.mul_add] at hright
      rw [List.take_append_drop, List.length_take_of_le hblob, Nat.mul_add] at hdrop
      rw [if_neg (by omega), hright, hdrop]

/-- Setting the bits of a number in a cleared word puts the number there. -/
theorem SetsBits.eq_putWord {n : ℕ} {blob blob' : Bytes} (hblob : addr * k + k ≤ blob.length)
    (h : SetsBits k addr (fun j => n.testBit j = true) (clearBlobWord k addr blob) blob')
    (hn : n < 2 ^ (8 * k)) : blob' = putWord k addr n blob := by
  refine bytes_ext ?_ fun i _ => ?_
  · rw [h.length, length_clearBlobWord, length_putWord hblob]
  rw [Bool.eq_iff_iff, h.bits, bitAt_clearBlobWord, bitAt_putWord hblob]
  by_cases hword : 8 * (addr * k) ≤ i ∧ i < 8 * (addr * k) + 8 * k
  · rw [if_pos hword, if_pos hword]
    constructor
    · rintro (hfalse | ⟨j, hj, rfl⟩)
      · cases hfalse
      · have hlt : j < 8 * k := by
          by_contra hge
          rw [Nat.testBit_lt_two_pow (hn.trans_le (Nat.pow_le_pow_right (by decide) (by omega)))]
            at hj
          cases hj
        rw [wordBitPos]
        have hsub : 8 * k - 1 - (8 * (addr * k) + (8 * k - 1 - j) - 8 * (addr * k)) = j := by omega
        rwa [hsub]
    · exact fun hbit => .inr ⟨_, hbit, by rw [wordBitPos]; omega⟩
  · rw [if_neg hword, if_neg hword]
    refine ⟨fun hi => hi.resolve_right ?_, .inl⟩
    rintro ⟨j, hj, rfl⟩
    have hlt : j < 8 * k := by
      by_contra hge
      rw [Nat.testBit_lt_two_pow (hn.trans_le (Nat.pow_le_pow_right (by decide) (by omega)))] at hj
      cases hj
    rw [wordBitPos] at hword
    omega

/-! ## Digits -/

variable {w digit b : ℕ}

theorem isXz_digit {c : Char} (h : boundDigit c < 16) : isXz c = false := by
  by_contra hx
  simp only [isXz, Bool.not_eq_false, Bool.or_eq_true, decide_eq_true_eq] at hx
  rcases hx with ((rfl | rfl) | rfl) | rfl <;> exact absurd h (by decide)

theorem boundDigit_plain {c : Char} (h : boundDigit c < 16) :
    isBoundSpace c = false ∧ c ≠ '/' ∧ c ≠ '_' := by
  refine ⟨?_, ?_, ?_⟩
  · by_contra hsp
    simp only [isBoundSpace, Bool.not_eq_false, Bool.or_eq_true, decide_eq_true_eq,
      Bool.and_eq_true] at hsp
    have hval : c.toNat = 32 ∨ c.toNat ≤ 13 := by
      rcases hsp with rfl | hsp
      · exact .inl rfl
      · exact .inr hsp.2
    rw [boundDigit] at h
    split_ifs at h <;> omega
  · rintro rfl
    exact absurd h (by decide)
  · rintro rfl
    exact absurd h (by decide)

theorem storeDigitBits_ok (hw : w ≤ 8 * k) : ∀ (count pos : ℕ) {blob : Bytes},
    addr * k + k ≤ blob.length → (∀ j < count, digit.testBit j = true → pos + j < w) →
      ∃ blob', storeDigitBits k w addr digit count pos blob = .ok blob' ∧
        SetsBits k addr (fun j => ∃ t < count, digit.testBit t = true ∧ j = pos + t) blob blob'
  | 0, _, blob, _, _ => ⟨blob, rfl, SetsBits.refl blob fun _ ⟨_, ht, _⟩ => Nat.not_lt_zero _ ht⟩
  | count + 1, pos, blob, hblob, hfit => by
      obtain ⟨blob', hok, hsets⟩ := storeDigitBits_ok hw count pos hblob fun j hj =>
        hfit j (by omega)
      rw [storeDigitBits, hok]
      dsimp only
      cases hbit : digit.testBit count with
      | false =>
        refine ⟨blob', if_neg Bool.false_ne_true, hsets.congr _ fun j => ?_⟩
        constructor
        · rintro ⟨t, ht, hdigit, rfl⟩
          exact ⟨t, by omega, hdigit, rfl⟩
        · rintro ⟨t, ht, hdigit, rfl⟩
          have hne : t ≠ count := by
            rintro rfl
            rw [hbit] at hdigit
            cases hdigit
          exact ⟨t, by omega, hdigit, rfl⟩
      | true =>
        have hlt := hfit count (by omega) hbit
        have hlen := hsets.length
        refine ⟨_, by rw [if_pos rfl, if_neg (by omega)],
          hsets.trans (setBlobWordLsbBit_sets (by omega) (by omega)) fun j => ?_⟩
        constructor
        · rintro ⟨t, ht, hdigit, rfl⟩
          by_cases htc : t = count
          · exact .inr (by rw [htc])
          · exact .inl ⟨t, by omega, hdigit, rfl⟩
        · rintro (⟨t, ht, hdigit, rfl⟩ | rfl)
          · exact ⟨t, by omega, hdigit, rfl⟩
          · exact ⟨count, by omega, hbit, rfl⟩

theorem storeDigitBits_exceeds : ∀ (count : ℕ) {pos : ℕ} {blob : Bytes} {e : MemInitError},
    storeDigitBits k w addr digit count pos blob = .error e → e = .exceedsWidth
  | 0, _, _, _, h => nomatch h
  | count + 1, pos, blob, _, h => by
      rw [storeDigitBits] at h
      split at h
      · rename_i hrest
        cases h
        exact storeDigitBits_exceeds count hrest
      · split at h
        · split at h
          · exact (Except.error.inj h).symm
          · cases h
        · cases h

theorem storeDigitBits_error : ∀ (count pos : ℕ) {blob : Bytes},
    (∃ j < count, digit.testBit j = true ∧ w ≤ pos + j) →
      storeDigitBits k w addr digit count pos blob = .error .exceedsWidth
  | 0, _, _, ⟨_, hj, _⟩ => absurd hj (Nat.not_lt_zero _)
  | count + 1, pos, blob, ⟨j, hj, hdigit, hout⟩ => by
      rw [storeDigitBits]
      by_cases hbefore : ∃ j < count, digit.testBit j = true ∧ w ≤ pos + j
      · rw [storeDigitBits_error count pos hbefore]
      · have hlast : j = count := by
          by_contra hne
          exact hbefore ⟨j, by omega, hdigit, hout⟩
        subst hlast
        cases hrest : storeDigitBits k w addr digit j pos blob with
        | error e =>
          rw [storeDigitBits_exceeds j hrest]
        | ok blob' => simp only [hdigit, if_true, if_pos hout]

/-- The number of a token that is read from its end. -/
def revValue (base : ℕ) : List Char → Option ℕ
  | [] => some 0
  | c :: rest =>
    if c = '_' then revValue base rest
    else (revValue base rest).bind fun v =>
      if boundDigit c < base then some (v * base + boundDigit c) else none

theorem wholeDigits_concat (base : ℕ) (c : Char) : ∀ (text : List Char) (v : ℕ),
    wholeDigits base v (text ++ [c]) = (wholeDigits base v text).bind fun v =>
      if boundDigit c < base then some (v * base + boundDigit c) else none
  | [], v => by simp [wholeDigits]
  | d :: text, v => by
      rw [List.cons_append, wholeDigits, wholeDigits]
      split
      · exact wholeDigits_concat base c text _
      · rfl

theorem wholeDigits_reverse (base : ℕ) : ∀ text : List Char,
    wholeDigits base 0 (text.reverse.filter (· ≠ '_')) = revValue base text
  | [] => rfl
  | c :: rest => by
      rw [List.reverse_cons, List.filter_append, revValue, ← wholeDigits_reverse base rest]
      by_cases hc : c = '_'
      · rw [if_pos hc, List.filter_cons_of_neg (by simp [hc]), List.filter_nil, List.append_nil]
      · rw [if_neg hc, List.filter_cons_of_pos (by simp [hc]), List.filter_nil, wholeDigits_concat]

theorem testBit_digits (v : ℕ) {d : ℕ} (hd : d < 2 ^ b) (j : ℕ) :
    (v * 2 ^ b + d).testBit j = if j < b then d.testBit j else v.testBit (j - b) := by
  rw [Nat.mul_comm, Nat.testBit_two_pow_mul_add v hd]

theorem storeDigits_ok (hw : w ≤ 8 * k) (hb : b ≤ 4) : ∀ (text : List Char) (pos : ℕ) {n : ℕ}
    {blob : Bytes}, addr * k + k ≤ blob.length → revValue (2 ^ b) text = some n →
      (∀ j, n.testBit j = true → pos + j < w) →
        ∃ blob', storeDigits k w addr b text pos blob = .ok blob' ∧
          SetsBits k addr (fun j => ∃ t, n.testBit t = true ∧ j = pos + t) blob blob'
  | [], pos, n, blob, _, hn, _ => by
      obtain rfl := Option.some.inj hn
      exact ⟨blob, rfl, SetsBits.refl blob fun _ ⟨_, ht, _⟩ => by simp at ht⟩
  | c :: rest, pos, n, blob, hblob, hn, hfit => by
      rw [revValue] at hn
      rw [storeDigits]
      by_cases hc : c = '_'
      · rw [if_pos hc] at hn ⊢
        exact storeDigits_ok hw hb rest pos hblob hn hfit
      · rw [if_neg hc] at hn ⊢
        obtain ⟨v, hv, hvalue⟩ := Option.bind_eq_some_iff.mp hn
        have hdigit : boundDigit c < 2 ^ b := by
          by_contra hge
          rw [if_neg hge] at hvalue
          cases hvalue
        rw [if_pos hdigit] at hvalue
        obtain rfl := Option.some.inj hvalue
        have h16 : boundDigit c < 16 :=
          hdigit.trans_le (Nat.pow_le_pow_right (by decide) hb)
        rw [if_neg (by rw [isXz_digit h16]; exact Bool.false_ne_true), memInitDigitValue,
          if_pos hdigit]
        dsimp only
        obtain ⟨blob₁, hok₁, hsets₁⟩ := storeDigitBits_ok hw b pos hblob fun j hj hbit =>
          hfit j (by rw [testBit_digits v hdigit, if_pos hj]; exact hbit)
        have hlen := hsets₁.length
        have hblob₁ : addr * k + k ≤ blob₁.length := by omega
        obtain ⟨blob₂, hok₂, hsets₂⟩ := storeDigits_ok hw hb rest (pos + b) hblob₁ hv
          fun j hbit => by
            have := hfit (b + j) (by
              rw [testBit_digits v hdigit, if_neg (by omega), Nat.add_sub_cancel_left]
              exact hbit)
            omega
        rw [hok₁]
        refine ⟨blob₂, hok₂, hsets₁.trans hsets₂ fun j => ?_⟩
        constructor
        · rintro ⟨t, ht, rfl⟩
          rw [testBit_digits v hdigit] at ht
          split at ht
          · rename_i hlt
            exact .inl ⟨t, hlt, ht, rfl⟩
          · exact .inr ⟨t - b, ht, by omega⟩
        · rintro (⟨t, hlt, ht, rfl⟩ | ⟨t, ht, rfl⟩)
          · exact ⟨t, by rw [testBit_digits v hdigit, if_pos hlt]; exact ht, rfl⟩
          · refine ⟨b + t, ?_, by omega⟩
            rw [testBit_digits v hdigit, if_neg (by omega), Nat.add_sub_cancel_left]
            exact ht

theorem storeDigits_error (hw : w ≤ 8 * k) (hb : b ≤ 4) : ∀ (text : List Char) (pos : ℕ) {n : ℕ}
    {blob : Bytes}, addr * k + k ≤ blob.length → revValue (2 ^ b) text = some n →
      (∃ j, n.testBit j = true ∧ w ≤ pos + j) →
        storeDigits k w addr b text pos blob = .error .exceedsWidth
  | [], pos, n, blob, _, hn, ⟨j, hj, _⟩ => by
      obtain rfl := Option.some.inj hn
      simp at hj
  | c :: rest, pos, n, blob, hblob, hn, ⟨j, hj, hout⟩ => by
      rw [revValue] at hn
      rw [storeDigits]
      by_cases hc : c = '_'
      · rw [if_pos hc] at hn ⊢
        exact storeDigits_error hw hb rest pos hblob hn ⟨j, hj, hout⟩
      · rw [if_neg hc] at hn ⊢
        obtain ⟨v, hv, hvalue⟩ := Option.bind_eq_some_iff.mp hn
        have hdigit : boundDigit c < 2 ^ b := by
          by_contra hge
          rw [if_neg hge] at hvalue
          cases hvalue
        rw [if_pos hdigit] at hvalue
        obtain rfl := Option.some.inj hvalue
        have h16 : boundDigit c < 16 :=
          hdigit.trans_le (Nat.pow_le_pow_right (by decide) hb)
        rw [if_neg (by rw [isXz_digit h16]; exact Bool.false_ne_true), memInitDigitValue,
          if_pos hdigit]
        dsimp only
        by_cases hfits : ∀ j < b, (boundDigit c).testBit j = true → pos + j < w
        · obtain ⟨blob₁, hok₁, hsets₁⟩ := storeDigitBits_ok hw b pos hblob hfits
          have hlen := hsets₁.length
          rw [hok₁]
          rw [testBit_digits v hdigit] at hj
          split at hj
          · rename_i hlt
            exact absurd (hfits j hlt hj) (by omega)
          · exact storeDigits_error hw hb rest (pos + b) (by omega) hv ⟨j - b, hj, by omega⟩
        · obtain ⟨t, ht, hbit, hout⟩ : ∃ j < b, (boundDigit c).testBit j = true ∧ w ≤ pos + j := by
            simpa using hfits
          rw [storeDigitBits_error b pos ⟨t, ht, hbit, hout⟩]

/-! ## Numbers -/

/-- The digits of a token, without its underscores, are those of the number. -/
def Denotes (radix : MemInitRadix) (token : List Char) (n : ℕ) : Prop :=
  token.filter (· ≠ '_') ≠ [] ∧ wholeDigits radix.base 0 (token.filter (· ≠ '_')) = some n

theorem testBits_lt {n w : ℕ} : (∀ j, n.testBit j = true → j < w) ↔ n < 2 ^ w := by
  constructor
  · intro h
    refine Nat.lt_pow_two_of_testBit n fun j hj => ?_
    by_contra hbit
    exact absurd (h j (by simpa using hbit)) (by omega)
  · intro h j hj
    by_contra hge
    rw [Nat.testBit_lt_two_pow (h.trans_le (Nat.pow_le_pow_right (by decide) (by omega)))] at hj
    cases hj

theorem storeDigits_denotes (hw : w ≤ 8 * k) (hb : b ≤ 4) {token : List Char} {n : ℕ}
    {blob : Bytes} (hblob : addr * k + k ≤ blob.length)
    (hn : wholeDigits (2 ^ b) 0 (token.filter (· ≠ '_')) = some n) :
    storeDigits k w addr b token.reverse 0 (clearBlobWord k addr blob) =
      if n < 2 ^ w then .ok (putWord k addr n blob) else .error .exceedsWidth := by
  have hclear : addr * k + k ≤ (clearBlobWord k addr blob).length := by
    rwa [length_clearBlobWord]
  have hrev : revValue (2 ^ b) token.reverse = some n := by
    rw [← wholeDigits_reverse, List.reverse_reverse, hn]
  split
  · rename_i hlt
    obtain ⟨blob', hok, hsets⟩ := storeDigits_ok hw hb token.reverse 0 hclear hrev fun j hj => by
      rw [Nat.zero_add]
      exact testBits_lt.mpr hlt j hj
    rw [hok]
    have hbits := hsets.congr (fun j => n.testBit j = true) fun j => by simp
    rw [hbits.eq_putWord hblob (hlt.trans_le (Nat.pow_le_pow_right (by decide) hw))]
  · rename_i hge
    refine storeDigits_error hw hb token.reverse 0 hclear hrev ?_
    by_contra hnone
    refine hge (testBits_lt.mp fun j hj => ?_)
    by_contra hout
    exact hnone ⟨j, hj, by omega⟩

theorem memInitStoreIntValue_eq (hw : w ≤ 8 * k) {v : ℕ} {blob : Bytes}
    (hblob : addr * k + k ≤ blob.length) :
    memInitStoreIntValue k w addr v blob = putWord k addr (v % 2 ^ min w 64) blob := by
  have hclear : addr * k + k ≤ (clearBlobWord k addr blob).length := by
    rwa [length_clearBlobWord]
  have hsets := setWordBits_sets v.testBit hclear (min w 64) (by omega)
  have hbits := hsets.congr (fun j => (v % 2 ^ min w 64).testBit j = true) fun j => by
    rw [Nat.testBit_mod_two_pow, Bool.and_eq_true, decide_eq_true_iff]
  exact hbits.eq_putWord hblob ((Nat.mod_lt _ (Nat.two_pow_pos _)).trans_le
    (Nat.pow_le_pow_right (by decide) (by omega)))

theorem wholeDigits_digits {base : ℕ} : ∀ {text : List Char} {v n : ℕ},
    wholeDigits base v text = some n → ∀ c ∈ text, boundDigit c < base
  | [], _, _, _, c, hc => absurd hc List.not_mem_nil
  | d :: text, v, n, h, c, hc => by
      rw [wholeDigits] at h
      split at h
      · rename_i hd
        rcases List.mem_cons.mp hc with rfl | hc
        · exact hd
        · exact wholeDigits_digits h c hc
      · cases h

theorem strtoullWhole_digits {base : ℕ} (hbase : base ≤ 16) {text : List Char} {n : ℕ}
    (hne : text ≠ []) (h : wholeDigits base 0 text = some n) :
    strtoullWhole base text = some (min (2 ^ 64 - 1) n) := by
  have hdigits := fun c hc => (wholeDigits_digits h c hc).trans_le hbase
  obtain ⟨c, rest, rfl⟩ := List.exists_cons_of_ne_nil hne
  have hc := hdigits c List.mem_cons_self
  have hplus : c ≠ '+' := by
    rintro rfl
    exact absurd hc (by decide)
  have hspaces : (c :: rest).dropWhile isBoundSpace = c :: rest :=
    List.dropWhile_cons_of_neg (by simp [(boundDigit_plain hc).1])
  have hbody : ∀ body, (body = c :: rest) → (if body = [] then none else
      (wholeDigits base 0 body).map (min (2 ^ 64 - 1))) = some (min (2 ^ 64 - 1) n) := by
    rintro body rfl
    rw [if_neg hne, h, Option.map_some]
  unfold strtoullWhole
  rw [hspaces]
  dsimp only
  split
  · rename_i x tail heq
    split at heq
    · rename_i hhead
      exact absurd (List.cons.inj hhead).1 hplus
    · have hx := hdigits x (by rw [heq]; simp)
      have hprefix : ¬ (base = 16 ∧ (x = 'x' ∨ x = 'X') ∧ tail ≠ []) := by
        rintro ⟨-, rfl | rfl, -⟩
        · exact absurd hx (by decide)
        · exact absurd hx (by decide)
      rw [if_neg hprefix]
      exact hbody _ rfl
  · refine hbody _ ?_
    split
    · rename_i hhead
      exact absurd (List.cons.inj hhead).1 hplus
    · rfl

/-- The decimal path stops at the largest number of 64 bits and cuts it to the word. -/
theorem storeDecimal_denotes (hw : w ≤ 8 * k) {token : List Char} {n : ℕ} {blob : Bytes}
    (hblob : addr * k + k ≤ blob.length) (hne : token.filter (· ≠ '_') ≠ [])
    (hn : wholeDigits 10 0 (token.filter (· ≠ '_')) = some n) (signed : Bool) :
    memInitStoreDecimalToken k w addr token signed blob =
      .ok (putWord k addr (min (2 ^ 64 - 1) n % 2 ^ min w 64) blob) := by
  have hdigits := wholeDigits_digits hn
  have hxz : token.any isXz = false := by
    rw [List.any_eq_false]
    intro c hc
    by_cases hunder : c = '_'
    · rw [hunder]
      decide
    · rw [isXz_digit ((hdigits c (List.mem_filter.mpr ⟨hc, by simpa using hunder⟩)).trans
        (by decide))]
      exact Bool.false_ne_true
  rw [memInitStoreDecimalToken, if_neg (by rw [hxz]; exact Bool.false_ne_true)]
  split
  · rename_i heq
    exact absurd heq hne
  · rename_i digits heq
    exact absurd (hdigits '-' (by rw [heq]; exact List.mem_cons_self)) (by decide)
  · rw [strtoullWhole_digits (by decide) hne hn]
    dsimp only
    rw [memInitStoreIntValue_eq hw hblob]

end

/-! ## Words and numbers -/

/-- The word at an address reads as the number, and the other bytes are as before. -/
structure StoredAs (k addr n : ℕ) (blob blob' : Bytes) : Prop where

  value : ofBigEndian ((blob'.drop (addr * k)).take k) = n

  before : blob'.take (addr * k) = blob.take (addr * k)

  behind : blob'.drop (addr * k + k) = blob.drop (addr * k + k)

/-- Storing is right for a number: it fits into the word and stands there, or it is an error. -/
def StoresNumber (w addr n : ℕ) (blob : Bytes) (result : Except MemInitError Bytes) : Prop :=
  if n < 2 ^ w then ∃ blob', result = .ok blob' ∧ StoredAs ((w + 7) / 8) addr n blob blob'
  else ∃ e, result = .error e

theorem storedAs_putWord {k addr n : ℕ} {blob : Bytes} (hblob : addr * k + k ≤ blob.length)
    (hn : n < 256 ^ k) : StoredAs k addr n blob (putWord k addr n blob) := by
  have hfront : (blob.take (addr * k)).length = addr * k := List.length_take_of_le (by omega)
  have hmid : (blob.take (addr * k) ++ bigEndian k n).length = addr * k + k := by
    rw [List.length_append, hfront, length_bigEndian]
  refine ⟨?_, ?_, ?_⟩
  · rw [putWord, List.append_assoc, List.drop_left' hfront, List.take_left' (length_bigEndian k n),
      ofBigEndian_bigEndian k n hn]
  · rw [putWord, List.append_assoc, List.take_left' hfront]
  · rw [putWord, List.drop_left' hmid]

theorem lt_wordBytes {w v : ℕ} (hv : v < 2 ^ w) : v < 256 ^ ((w + 7) / 8) := by
  rw [show 256 = 2 ^ 8 from rfl, ← pow_mul]
  exact hv.trans_le (Nat.pow_le_pow_right (by decide) (by omega))

section RadixToken

variable {w addr n : ℕ} {radix : MemInitRadix} {token : List Char} {blob : Bytes}

theorem storeRadixToken_decimal (hradix : radix = .dec ∨ radix = .uns)
    (h : Denotes radix token n) (hblob : addr * ((w + 7) / 8) + (w + 7) / 8 ≤ blob.length) :
    memInitStoreRadixToken ((w + 7) / 8) w addr token radix blob =
      .ok (putWord ((w + 7) / 8) addr (min (2 ^ 64 - 1) n % 2 ^ min w 64) blob) := by
  obtain ⟨hne, hvalue⟩ := h
  have hbase : radix.base = 10 := by rcases hradix with rfl | rfl <;> rfl
  rw [hbase] at hvalue
  rw [memInitStoreRadixToken, if_pos hradix, storeDecimal_denotes (by omega) hblob hne hvalue]

theorem storeRadixToken_digits (hradix : ¬ (radix = .dec ∨ radix = .uns))
    (h : Denotes radix token n) (hblob : addr * ((w + 7) / 8) + (w + 7) / 8 ≤ blob.length) :
    memInitStoreRadixToken ((w + 7) / 8) w addr token radix blob =
      if n < 2 ^ w then .ok (putWord ((w + 7) / 8) addr n blob) else .error .exceedsWidth := by
  obtain ⟨b, hb, hbase, hdigit⟩ : ∃ b ≤ 4, radix.base = 2 ^ b ∧ radix.bitsPerDigit = b := by
    cases radix with
    | bin => exact ⟨1, by decide, rfl, rfl⟩
    | oct => exact ⟨3, by decide, rfl, rfl⟩
    | hex => exact ⟨4, by decide, rfl, rfl⟩
    | dec => exact absurd (.inl rfl) hradix
    | uns => exact absurd (.inr rfl) hradix
  have hvalue := h.2
  rw [hbase] at hvalue
  rw [memInitStoreRadixToken, if_neg hradix, hdigit,
    storeDigits_denotes (by omega) hb hblob hvalue]

end RadixToken

/-- A token is stored right exactly when it is not decimal or its number has neither more bits
than the word nor more than 64. -/
theorem storesNumber_iff {w addr n : ℕ} {radix : MemInitRadix} {token : List Char} {blob : Bytes}
    (h : Denotes radix token n)
    (hblob : addr * ((w + 7) / 8) + (w + 7) / 8 ≤ blob.length) :
    StoresNumber w addr n blob
        (memInitStoreRadixToken ((w + 7) / 8) w addr token radix blob) ↔
      (radix = .dec ∨ radix = .uns → n < 2 ^ w ∧ n < 2 ^ 64) := by
  by_cases hdecimal : radix = .dec ∨ radix = .uns
  · rw [storeRadixToken_decimal hdecimal h hblob, StoresNumber]
    split
    · rename_i hlt
      constructor
      · rintro ⟨blob', hok, hstored⟩ -
        refine ⟨hlt, ?_⟩
        obtain rfl := Except.ok.inj hok
        have hcut : min (2 ^ 64 - 1) n % 2 ^ min w 64 < 2 ^ 64 :=
          (Nat.mod_le _ _).trans_lt ((Nat.min_le_left _ _).trans_lt (by decide))
        have hcutw : min (2 ^ 64 - 1) n % 2 ^ min w 64 < 2 ^ w :=
          (Nat.mod_lt _ (Nat.two_pow_pos _)).trans_le
            (Nat.pow_le_pow_right (by decide) (Nat.min_le_left _ _))
        have hsame := (storedAs_putWord hblob (lt_wordBytes hcutw)).value.symm.trans
          hstored.value
        omega
      · intro hcond
        obtain ⟨-, h64⟩ := hcond hdecimal
        have hmin : n < 2 ^ min w 64 := by
          rcases Nat.le_total w 64 with hle | hle
          · rwa [Nat.min_eq_left hle]
          · rwa [Nat.min_eq_right hle]
        rw [Nat.min_eq_right (by omega), Nat.mod_eq_of_lt hmin]
        exact ⟨_, rfl, storedAs_putWord hblob (lt_wordBytes hlt)⟩
    · rename_i hge
      constructor
      · rintro ⟨e, he⟩
        cases he
      · intro hcond
        exact absurd (hcond hdecimal).1 hge
  · refine ⟨fun _ hd => absurd hd hdecimal, fun _ => ?_⟩
    rw [storeRadixToken_digits hdecimal h hblob, StoresNumber]
    split
    · rename_i hlt
      exact ⟨_, rfl, storedAs_putWord hblob (lt_wordBytes hlt)⟩
    · exact ⟨_, rfl⟩

theorem storesNumber_hex : StoresNumber 70 1 (2 ^ 69 + 1) (zeros 18)
      (memInitStoreRadixToken 9 70 1 "20_0000_0000_0000_0001".toList .hex (zeros 18)) ∧
    StoresNumber 8 0 44 [0] (memInitStoreRadixToken 1 8 0 "44".toList .uns [0]) :=
  ⟨(storesNumber_iff (by unfold Denotes; decide +kernel) (by decide)).mpr fun h => absurd h (by decide),
    (storesNumber_iff (by unfold Denotes; decide +kernel) (by decide)).mpr fun _ => by decide⟩

/-- A decimal number that is too large for the word is cut without an error. -/
theorem decimal_cut : Denotes .dec "300".toList 300 ∧ Denotes .hex "12C".toList 300 ∧
    memInitStoreRadixToken 1 8 0 "12C".toList .hex [0] = .error .exceedsWidth ∧
    ¬ StoresNumber 8 0 300 [0] (memInitStoreRadixToken 1 8 0 "300".toList .dec [0]) := by
  have hstored : memInitStoreRadixToken 1 8 0 "300".toList .dec [0] = .ok [44] := by
    decide +kernel
  refine ⟨by unfold Denotes; decide +kernel, by unfold Denotes; decide +kernel,
    by decide +kernel, ?_⟩
  rw [hstored, StoresNumber, if_neg (by decide)]
  rintro ⟨e, he⟩
  cases he

end JzHdl

import JzHdl.Ir.LiteralWidth
import JzHdl.Sim.Numbers
import Mathlib.Tactic.Ring

/-! # The value of a sized literal

The number that a sized literal denotes against the words that its decoder
fills. The analyser reads at most 255 characters of the value.
-/

namespace JzHdl

open BitWords

/-- A statement about each character of a text is decided along the text. -/
local instance (priority := 2000) decidableValueText {p : Char → Prop} [DecidablePred p]
    (text : List Char) : Decidable (∀ c ∈ text, p c) := List.decidableBAll p text

/-- The number that binary digits denote. -/
def binValue : List Char → ℕ
  | [] => 0
  | c :: rest => 2 ^ rest.length * (if c = '1' then 1 else 0) + binValue rest

/-- The number that a digit text denotes in its base. -/
def denoted (base : JZNumericBase) (value : List Char) : ℕ :=
  match base with
  | .bin => binValue (literalDigits value)
  | .hex => hexValue (literalDigits value)
  | .dec => decValue (literalDigits value) 0

/-- Binary digits are counted, other numbers are measured. -/
def FitsWidth (base : JZNumericBase) (value : List Char) (w : ℕ) : Prop :=
  match base with
  | .bin => (literalDigits value).length ≤ w
  | _ => denoted base value < 2 ^ w

/-- The digits that the analyser reads. -/
def seenText (value : List Char) : List Char := value.take 255

/-! ## Digits as numbers -/

theorem binValue_lt : ∀ digits : List Char, binValue digits < 2 ^ digits.length
  | [] => by simp [binValue]
  | c :: rest => by
      have ih := binValue_lt rest
      rw [binValue, List.length_cons, Nat.pow_succ]
      split <;> omega

theorem testBit_binValue : ∀ (digits : List Char) (k : ℕ),
    (binValue digits).testBit k = decide (digitAt digits k = some '1')
  | [], k => by simp [binValue, digitAt]
  | c :: rest, k => by
      rw [binValue, Nat.testBit_two_pow_mul_add _ (binValue_lt rest), digitAt_cons,
        testBit_binValue rest k]
      by_cases hk : k < rest.length
      · rw [if_pos hk, if_neg (by omega)]
      · rw [if_neg hk]
        by_cases hk' : k = rest.length
        · subst hk'
          by_cases hc : c = '1' <;> simp [hc]
        · have hnone : digitAt rest k = none := by
            rw [digitAt, List.getElem?_eq_none (by simp; omega)]
          have hj : k - rest.length ≠ 0 := by omega
          rw [if_neg hk', hnone]
          by_cases hc : c = '1'
          · rw [if_pos hc, Nat.testBit_lt_two_pow (Nat.one_lt_two_pow hj)]
            simp
          · simp [hc]

theorem binValue_append : ∀ xs ys : List Char,
    binValue (xs ++ ys) = 2 ^ ys.length * binValue xs + binValue ys
  | [], ys => by simp [binValue]
  | x :: xs, ys => by
      rw [List.cons_append, binValue, binValue, binValue_append xs ys, List.length_append,
        Nat.pow_add, Nat.mul_add]
      ring

theorem decValue_append (xs ys : List Char) (acc : ℕ) :
    decValue (xs ++ ys) acc = decValue ys (decValue xs acc) := List.foldl_append ..

/-- The words of a number below four words. -/
theorem toNat_eq_of_bit {ws : SimWords} {n : ℕ}
    (h : ∀ k, ws.bit k = (decide (k < 256) && n.testBit k)) : ws.toNat = n % 2 ^ 256 :=
  Nat.eq_of_testBit_eq fun k => by
    rw [Words.testBit_toNat, h, Nat.testBit_mod_two_pow]

theorem toNat_placeBits (digits : List Char) :
    (placeBits digits .zero).toNat = binValue digits % 2 ^ 256 :=
  toNat_eq_of_bit fun k => by
    rw [bit_placeBits, testBit_binValue, Words.bit_zero, Bool.false_or, Bool.and_comm]

theorem toNat_placeNibbles (digits : List Char) :
    (placeNibbles digits .zero).toNat = hexValue digits % 2 ^ 256 :=
  toNat_eq_of_bit fun k => by rw [bit_placeNibbles, Words.bit_zero, Bool.false_or]

theorem toNat_set_zero (u : Word) : (Words.set .zero 0 u : SimWords).toNat = u.toNat :=
  Nat.eq_of_testBit_eq fun k => by
    rw [Words.testBit_toNat, bit_set_zero]
    by_cases hk : k < 64
    · simp [hk, BitVec.getLsbD]
    · rw [decide_eq_false hk, Bool.false_and, Nat.testBit_lt_two_pow]
      exact lt_of_lt_of_le u.isLt (Nat.pow_le_pow_right (by decide) (by omega))

/-! ## Sized literals -/

/-- The digits of a base that denote a number, so neither `x` nor `z`. -/
def PlainDigit : JZNumericBase → Char → Prop
  | .bin, c => c = '0' ∨ c = '1'
  | .hex, c => (hexDigit c).isSome
  | .dec, c => c.isDigit

/-- A width from 1 to 256, a base letter and digits with underscores. -/
structure SizedText (text : List Char) (width : List Char) (base : JZNumericBase)
    (value : List Char) (w : ℕ) : Prop where

  parts : ∃ baseCh, text = width ++ tick :: baseCh :: value ∧ numericBase baseCh = some base

  widthDigits : ∀ c ∈ width, c.isDigit = true

  widthValue : width ≠ [] ∧ decValue width 0 = w

  range : 1 ≤ w ∧ w ≤ 256

  digits : ∀ c ∈ value, c = '_' ∨ PlainDigit base c

  nonempty : literalDigits value ≠ []

theorem not_isSpace_of_isDigit {c : Char} (h : c.isDigit = true) : isSpace c = false ∧ c ≠ '_' := by
  simp only [Char.isDigit, Bool.and_eq_true, decide_eq_true_eq] at h
  have h1 : 48 ≤ c.toNat := h.1
  have h2 : c.toNat ≤ 57 := h.2
  have hne : ∀ d : Char, d.toNat < 48 ∨ 57 < d.toNat → c ≠ d := by
    rintro d hd rfl
    omega
  refine ⟨?_, hne '_' (by decide)⟩
  simp [isSpace, hne ' ' (by decide)]
  omega

theorem parsePositive_eq : ∀ (width : List Char) (acc : ℕ), (∀ c ∈ width, c.isDigit = true) →
    decValue width acc < 2 ^ 32 →
    width.foldl parsePositiveStep (some acc) = some (decValue width acc)
  | [], _, _, _ => rfl
  | c :: rest, acc, h, hlt => by
      obtain ⟨hspace, hunder⟩ := not_isSpace_of_isDigit (h c (List.mem_cons_self ..))
      rw [decValue_cons] at hlt ⊢
      have hstep : parsePositiveStep (some acc) c = some (acc * 10 + decimalDigit c) := by
        have hle := le_decValue rest (acc * 10 + decimalDigit c)
        simp only [parsePositiveStep, Option.bind_some, hspace, Bool.false_or, beq_iff_eq]
        rw [if_neg hunder, if_neg (by simp [h c (List.mem_cons_self ..)]), if_pos (by omega)]
      rw [List.foldl_cons, hstep]
      exact parsePositive_eq rest _ (fun d hd => h d (List.mem_cons_of_mem _ hd)) hlt

theorem dropWhile_eq_self {α : Type} {p : α → Bool} {l : List α} (h : ∀ a ∈ l, p a = false) :
    l.dropWhile p = l := by
  cases l with
  | nil => rfl
  | cons a rest => rw [List.dropWhile_cons_of_neg (by simp [h a (List.mem_cons_self ..)])]

theorem PlainDigit.not_space {base : JZNumericBase} {c : Char} (h : c = '_' ∨ PlainDigit base c) :
    isSpace c = false := by
  by_contra hspace
  have hlow : c.toNat ≤ 32 := by
    simp only [isSpace, Bool.not_eq_false, Bool.or_eq_true, beq_iff_eq, Bool.and_eq_true,
      decide_eq_true_eq] at hspace
    rcases hspace with rfl | hrange
    · decide
    · omega
  rcases h with rfl | h
  · exact absurd hlow (by decide)
  · cases base with
    | bin => rcases h with rfl | rfl <;> exact absurd hlow (by decide)
    | dec =>
      have h : c.isDigit = true := h
      simp only [Char.isDigit, Bool.and_eq_true, decide_eq_true_eq] at h
      have : 48 ≤ c.toNat := h.1
      omega
    | hex =>
      have h : (hexDigit c).isSome := h
      rw [hexDigit] at h
      split at h
      · rename_i h0
        have : 48 ≤ c.toNat := h0.1
        omega
      · split at h
        · rename_i ha
          have : 97 ≤ c.toNat := ha.1
          omega
        · split at h
          · rename_i hA
            have : 65 ≤ c.toNat := hA.1
            omega
          · cases h

namespace SizedText

variable {text width value : List Char} {base : JZNumericBase} {w : ℕ}

theorem trim (h : SizedText text width base value w) : trimTrailing value = value := by
  rw [trimTrailing, dropWhile_eq_self, List.reverse_reverse]
  intro c hc
  exact PlainDigit.not_space (h.digits c (List.mem_reverse.mp hc))

/-- Underscores are the only separators of the text. -/
theorem filter_eq (h : SizedText text width base value w) {l : List Char} (hl : ∀ c ∈ l, c ∈ value) :
    l.filter (!isSeparator ·) = literalDigits l := by
  refine List.filter_congr fun c hc => ?_
  have hspace := PlainDigit.not_space (h.digits c (hl c hc))
  by_cases hu : c = '_'
  · subst hu
    decide
  · have hwhite : c.isWhitespace = false := by
      by_contra hw
      simp only [Char.isWhitespace, Bool.not_eq_false, Bool.or_eq_true, decide_eq_true_eq] at hw
      rcases hw with ((rfl | rfl) | rfl) | rfl <;> exact absurd hspace (by decide)
    simp [isSeparator, hu, hwhite]

theorem valid (h : SizedText text width base value w) {l : List Char} (hl : ∀ c ∈ l, c ∈ value) :
    ∀ c ∈ literalDigits l, PlainDigit base c := by
  intro c hc
  obtain ⟨hmem, hne⟩ := List.mem_filter.mp hc
  exact (h.digits c (hl c hmem)).resolve_left (by simpa using hne)

theorem value_ne_nil (h : SizedText text width base value w) : value ≠ [] := by
  rintro rfl
  exact h.nonempty rfl

theorem tick_not_mem (h : SizedText text width base value w) : tick ∉ width := fun hmem =>
  absurd (h.widthDigits tick hmem) (by decide)

/-- The decoder on a sized literal: the analyser decides on what it sees of the value. -/
theorem decode_eq (h : SizedText text width base value w) (evalConst : List Char → Option ℕ) :
    irDecodeSizedLiteral evalConst text =
      if width.length < 32 ∧ (jzLiteralAnalyze base (seenText value) w).isSome then
        (decodeDigits base (seenText value) value (some w)).map fun (words, isZ) => ⟨words, w, isZ⟩
      else none := by
  obtain ⟨baseCh, rfl, hbase⟩ := h.parts
  have hparse : parseSimplePositiveInt width = some w := by
    have hval := h.widthValue.2
    have hrange := h.range
    have hfold := parsePositive_eq width 0 h.widthDigits (by omega)
    rw [parseSimplePositiveInt, hfold, hval, Option.filter_some,
      if_pos (decide_eq_true (by omega))]
  rw [irDecodeSizedLiteral, span_tick h.tick_not_mem]
  have hseen : (trimTrailing value).take 255 = seenText value := by rw [h.trim, seenText]
  by_cases hlen : width.length < 32
  · have hguard : ¬ (width = [] ∨ 32 ≤ width.length) := by
      rw [not_or]
      exact ⟨h.widthValue.1, by omega⟩
    simp only [if_neg hguard, hparse, Option.some_or, hbase, if_neg h.value_ne_nil, hseen, hlen,
      true_and, Option.getD_some]
  · have hguard : width = [] ∨ 32 ≤ width.length := .inr (by omega)
    simp only [if_pos hguard, hlen, false_and, if_false]

end SizedText

/-! ## What the analyser accepts and the decoder stores -/

theorem mem_seenText {value : List Char} {c : Char} (h : c ∈ seenText value) : c ∈ value :=
  List.mem_of_mem_take h

/-- The analyser accepts what it sees of the value. -/
def SeenAccepted (base : JZNumericBase) (value : List Char) (w : ℕ) : Prop :=
  match base with
  | .bin => (literalDigits (seenText value)).length ≤ w
  | .hex => literalDigits (seenText value) ≠ [] ∧ hexValue (literalDigits (seenText value)) < 2 ^ w
  | .dec => 64 ≤ w ∨ decValue (literalDigits (seenText value)) 0 < 2 ^ w

/-- The number in the words that the decoder stores. -/
def storedNumber (base : JZNumericBase) (value : List Char) (w : ℕ) : ℕ :=
  match base with
  | .bin => binValue (literalDigits (seenText value))
  | .hex => hexValue (literalDigits value) % 2 ^ 256
  | .dec => decValue (literalDigits value) 0 % 2 ^ min w 64

namespace SizedText

variable {text width value : List Char} {base : JZNumericBase} {w : ℕ}

theorem accepted_iff (h : SizedText text width base value w) :
    (jzLiteralAnalyze base (seenText value) w).isSome ↔ SeenAccepted base value w := by
  have hpos := h.range.1
  have hvalid := h.valid fun c hc => mem_seenText hc
  have hsome : ∀ (c : Prop) [Decidable c] (r : ℕ × JZLiteralExtKind),
      (if c then none else some r).isSome ↔ ¬ c := fun c _ r => by by_cases hc : c <;> simp [hc]
  unfold jzLiteralAnalyze
  rw [if_neg (by omega)]
  cases base with
  | bin =>
    simp only [ne_eq, not_true_eq_false, false_and, if_false, hsome, not_lt]
    rfl
  | hex =>
    have hwidth : intrinsicWidthForHexMagnitude (seenText value) =
        if literalDigits (seenText value) = [] then 0
        else bitLength (hexValue (literalDigits (seenText value))) := by
      rw [← hexWidthFrom_eq _ hvalid]
      rfl
    have hfit := bitLength_le (n := hexValue (literalDigits (seenText value))) hpos
    have hne : bitLength (hexValue (literalDigits (seenText value))) ≠ 0 := by rw [bitLength]; omega
    simp only [hwidth, SeenAccepted]
    by_cases hnil : literalDigits (seenText value) = []
    · simp [hnil]
    · rw [if_neg hnil, if_neg (by simp [hne]), hsome, not_lt, hfit]
      exact (and_iff_right hnil).symm
  | dec =>
    have hvalue : seenText value ≠ [] := by
      rw [seenText, ne_eq, List.take_eq_nil_iff, not_or]
      exact ⟨by decide, h.value_ne_nil⟩
    have hwidth : intrinsicWidthForDecimal (seenText value) =
        if decValue (literalDigits (seenText value)) 0 < 2 ^ 64
        then bitLength (decValue (literalDigits (seenText value)) 0) else 64 := by
      rw [intrinsicWidthForDecimal, if_neg hvalue]
      exact decimalWidthFrom_eq _ 0 (fun c hc => (h.digits c (mem_seenText hc)).imp_right id)
        (Nat.two_pow_pos 64)
    have hfit := bitLength_le (n := decValue (literalDigits (seenText value)) 0) hpos
    have hne : bitLength (decValue (literalDigits (seenText value)) 0) ≠ 0 := by rw [bitLength]; omega
    have hcond : SeenAccepted .dec value w ↔
        64 ≤ w ∨ decValue (literalDigits (seenText value)) 0 < 2 ^ w := Iff.rfl
    rw [hcond]
    simp only
    rw [hwidth]
    by_cases hsmall : decValue (literalDigits (seenText value)) 0 < 2 ^ 64
    · rw [if_pos hsmall, if_neg (by simp [hne]), hsome, not_lt, hfit]
      refine ⟨.inr, fun hor => hor.elim (fun h64 => ?_) id⟩
      exact lt_of_lt_of_le hsmall (Nat.pow_le_pow_right (by decide) h64)
    · rw [if_neg hsmall, if_neg (by simp), hsome, not_lt]
      refine ⟨.inl, fun hor => hor.elim id fun hlt => ?_⟩
      by_contra h64
      exact hsmall (lt_of_lt_of_le hlt (Nat.pow_le_pow_right (by decide) (by omega)))

theorem decode_isSome_iff (h : SizedText text width base value w) (evalConst : List Char → Option ℕ) :
    (irDecodeSizedLiteral evalConst text).isSome ↔ width.length < 32 ∧ SeenAccepted base value w := by
  rw [h.decode_eq, ← h.accepted_iff]
  by_cases hok : width.length < 32 ∧ (jzLiteralAnalyze base (seenText value) w).isSome
  · rw [if_pos hok, Option.isSome_map]
    refine ⟨fun _ => hok, fun _ => ?_⟩
    cases base with
    | bin => rfl
    | hex => rfl
    | dec =>
      rw [decodeDigits, h.filter_eq fun c hc => hc, Option.isSome_map]
      have hval := decimalValue_eq (literalDigits value) 0 (h.valid fun c hc => hc)
      rw [show BitVec.ofNat 64 0 = 0 from rfl] at hval
      rw [hval]
      rfl
  · rw [if_neg hok]
    exact ⟨fun hf => by simp at hf, fun hf => absurd hf hok⟩

theorem decode_some (h : SizedText text width base value w) {evalConst : List Char → Option ℕ}
    {lit : IRLiteral} (hlit : irDecodeSizedLiteral evalConst text = some lit) :
    lit.words.toNat = storedNumber base value w ∧ lit.width = w := by
  rw [h.decode_eq] at hlit
  split at hlit
  · obtain ⟨⟨words, isZ⟩, hdec, rfl⟩ := Option.map_eq_some_iff.mp hlit
    refine ⟨?_, rfl⟩
    cases base with
    | bin =>
      have hlen : (literalDigits (seenText value)).length ≤ 255 :=
        (List.length_filter_le ..).trans (List.length_take_le ..)
      rw [decodeDigits, h.filter_eq fun c hc => mem_seenText hc] at hdec
      obtain ⟨rfl, -⟩ := Prod.mk.inj (Option.some.inj hdec)
      refine (toNat_placeBits _).trans (Nat.mod_eq_of_lt ?_)
      exact lt_of_lt_of_le (binValue_lt _) (Nat.pow_le_pow_right (by decide) (by omega))
    | hex =>
      rw [decodeDigits, h.filter_eq fun c hc => hc] at hdec
      obtain ⟨rfl, -⟩ := Prod.mk.inj (Option.some.inj hdec)
      exact toNat_placeNibbles _
    | dec =>
      have hval := decimalValue_eq (literalDigits value) 0 (h.valid fun c hc => hc)
      rw [show BitVec.ofNat 64 0 = 0 from rfl] at hval
      rw [decodeDigits, h.filter_eq fun c hc => hc, hval, Option.map_some] at hdec
      obtain ⟨rfl, -⟩ := Prod.mk.inj (Option.some.inj hdec)
      rw [toNat_set_zero]
      have hstored : storedNumber .dec value w =
          decValue (literalDigits value) 0 % 2 ^ min w 64 := rfl
      rw [hstored]
      generalize decValue (literalDigits value) 0 = n
      by_cases h64 : w < 64
      · simp only [if_pos h64]
        refine Nat.eq_of_testBit_eq fun k => ?_
        have hbit : (BitVec.ofNat 64 n &&& ((1 : Word) <<< w - 1)).toNat.testBit k =
            (BitVec.ofNat 64 n &&& ((1 : Word) <<< w - 1)).getLsbD k := rfl
        rw [hbit, BitVec.getLsbD_and, getLsbD_low_ones h64, BitVec.getLsbD_ofNat,
          Nat.testBit_mod_two_pow, min_eq_left h64.le]
        by_cases hk : k < w
        · have : k < 64 := by omega
          simp [hk, this]
        · simp [hk]
      · simp only [if_neg h64]
        rw [BitVec.toNat_ofNat, min_eq_right (by omega)]
  · cases hlit

end SizedText

/-! ## Literals that denote their value -/

/-- The decoder succeeds just when the number fits, and then stores it. -/
def DenotesValue (evalConst : List Char → Option ℕ) (text : List Char) (base : JZNumericBase)
    (value : List Char) (w : ℕ) : Prop :=
  ((irDecodeSizedLiteral evalConst text).isSome ↔ FitsWidth base value w) ∧
    ∀ lit, irDecodeSizedLiteral evalConst text = some lit →
      lit.words.toNat = denoted base value ∧ lit.width = w

/-- The characters that the analyser or the decoder does not read, and the bits beyond the 64 of
the decimal accumulator, make no difference. -/
def DecodesExactly (width : List Char) (base : JZNumericBase) (value : List Char) (w : ℕ) : Prop :=
  if width.length < 32 then
    match base with
    | .bin => w < (literalDigits (seenText value)).length ∨
        (literalDigits value).length ≤ w ∧
          ((literalDigits (seenText value)).length = (literalDigits value).length ∨
            denoted .bin value = 0)
    | .hex => (literalDigits (seenText value) ≠ [] ∧
        hexValue (literalDigits (seenText value)) < 2 ^ w) ↔ denoted .hex value < 2 ^ w
    | .dec => denoted .dec value < 2 ^ min w 64 ∨
        w < 64 ∧ 2 ^ w ≤ decValue (literalDigits (seenText value)) 0
  else ¬ FitsWidth base value w

theorem literalDigits_split (value : List Char) : literalDigits value =
    literalDigits (seenText value) ++ literalDigits (value.drop 255) := by
  rw [literalDigits, literalDigits, literalDigits, ← List.filter_append, seenText,
    List.take_append_drop]

section

variable {value : List Char} {w : ℕ}

theorem binary_exact_iff :
    ((SeenAccepted .bin value w ↔ FitsWidth .bin value w) ∧
      (SeenAccepted .bin value w → storedNumber .bin value w = denoted .bin value)) ↔
      w < (literalDigits (seenText value)).length ∨ (literalDigits value).length ≤ w ∧
        ((literalDigits (seenText value)).length = (literalDigits value).length ∨
          denoted .bin value = 0) := by
  have hsplit := literalDigits_split value
  have hlen := congrArg List.length hsplit
  have hval := congrArg binValue hsplit
  rw [List.length_append] at hlen
  rw [binValue_append] at hval
  simp only [SeenAccepted, FitsWidth, storedNumber, denoted, hval]
  generalize (literalDigits (seenText value)).length = n at *
  generalize (literalDigits value).length = m at *
  generalize binValue (literalDigits (seenText value)) = x at *
  have hdrop := binValue_lt (literalDigits (value.drop 255))
  generalize binValue (literalDigits (value.drop 255)) = y at *
  generalize (literalDigits (value.drop 255)).length = d at *
  -- dropped digits scale what was seen, so that only zero stays itself
  have hscale : x = 2 ^ d * x + y ↔ n = m ∨ 2 ^ d * x + y = 0 := by
    rcases Nat.eq_zero_or_pos d with rfl | hd
    · have hy : y = 0 := by omega
      subst hy
      exact iff_of_true (by omega) (.inl (by omega))
    · have htwo : 2 ≤ 2 ^ d := Nat.pow_le_pow_right (by decide : 0 < 2) hd
      have hle : 2 * x ≤ 2 ^ d * x := Nat.mul_le_mul_right x htwo
      constructor
      · intro heq
        have hx : x = 0 := by omega
        subst hx
        exact .inr (by omega)
      · rintro (hnm | hz)
        · omega
        · have hx : 2 ^ d * x = 0 := by omega
          have := (Nat.mul_eq_zero.mp hx).resolve_left (Nat.two_pow_pos d).ne'
          omega
  rw [← hscale]
  constructor
  · rintro ⟨h1, h2⟩
    by_cases hn : n ≤ w
    · exact .inr ⟨h1.mp hn, h2 hn⟩
    · exact .inl (by omega)
  · rintro (hn | ⟨hm, heq⟩)
    · exact ⟨by omega, fun hle => by omega⟩
    · exact ⟨by omega, fun _ => heq⟩

theorem hex_exact_iff (hw : w ≤ 256) :
    ((SeenAccepted .hex value w ↔ FitsWidth .hex value w) ∧
      (SeenAccepted .hex value w → storedNumber .hex value w = denoted .hex value)) ↔
      ((literalDigits (seenText value) ≠ [] ∧
        hexValue (literalDigits (seenText value)) < 2 ^ w) ↔ denoted .hex value < 2 ^ w) := by
  have hcond : SeenAccepted .hex value w ↔ (literalDigits (seenText value) ≠ [] ∧
      hexValue (literalDigits (seenText value)) < 2 ^ w) := Iff.rfl
  have hfits : FitsWidth .hex value w ↔ denoted .hex value < 2 ^ w := Iff.rfl
  rw [hcond, hfits]
  refine and_iff_left_of_imp fun h hok => ?_
  exact Nat.mod_eq_of_lt (lt_of_lt_of_le (h.mp hok) (Nat.pow_le_pow_right (by decide) hw))

theorem decimal_exact_iff : ((SeenAccepted .dec value w ↔ FitsWidth .dec value w) ∧
      (SeenAccepted .dec value w → storedNumber .dec value w = denoted .dec value)) ↔
      denoted .dec value < 2 ^ min w 64 ∨
        w < 64 ∧ 2 ^ w ≤ decValue (literalDigits (seenText value)) 0 := by
  have hle : decValue (literalDigits (seenText value)) 0 ≤ denoted .dec value := by
    have happ := decValue_append (literalDigits (seenText value)) (literalDigits (value.drop 255)) 0
    rw [← literalDigits_split] at happ
    exact (le_decValue _ _).trans_eq happ.symm
  have hcond : SeenAccepted .dec value w ↔
      64 ≤ w ∨ decValue (literalDigits (seenText value)) 0 < 2 ^ w := Iff.rfl
  have hfits : FitsWidth .dec value w ↔ denoted .dec value < 2 ^ w := Iff.rfl
  have hstored : storedNumber .dec value w = denoted .dec value % 2 ^ min w 64 := rfl
  rw [hcond, hfits, hstored]
  generalize denoted .dec value = n at *
  generalize decValue (literalDigits (seenText value)) 0 = s at *
  have hpow : 2 ^ min w 64 ≤ 2 ^ w := Nat.pow_le_pow_right (by decide) (min_le_left _ _)
  have hmod : n % 2 ^ min w 64 = n ↔ n < 2 ^ min w 64 :=
    ⟨fun h => h ▸ Nat.mod_lt _ (Nat.two_pow_pos _), Nat.mod_eq_of_lt⟩
  rw [hmod]
  generalize 2 ^ min w 64 = p at *
  generalize 2 ^ w = q at *
  constructor
  · rintro ⟨h1, h2⟩
    by_cases hok : 64 ≤ w ∨ s < q
    · exact .inl (h2 hok)
    · exact .inr (by omega)
  · rintro (hn | ⟨h64, hq⟩)
    · exact ⟨by omega, fun _ => hn⟩
    · exact ⟨by omega, fun hok => by omega⟩

end

/-- A sized literal decodes to the number it denotes just when no digit that matters is beyond
what the analyser reads or the decimal accumulator holds. -/
theorem denotesValue_iff {text width value : List Char} {base : JZNumericBase} {w : ℕ}
    (h : SizedText text width base value w) (evalConst : List Char → Option ℕ) :
    DenotesValue evalConst text base value w ↔ DecodesExactly width base value w := by
  have hsome := h.decode_isSome_iff evalConst
  have hstored : (∀ lit, irDecodeSizedLiteral evalConst text = some lit →
      lit.words.toNat = denoted base value ∧ lit.width = w) ↔
      ((irDecodeSizedLiteral evalConst text).isSome → storedNumber base value w = denoted base value) := by
    constructor
    · intro hall his
      obtain ⟨lit, hlit⟩ := Option.isSome_iff_exists.mp his
      exact (h.decode_some hlit).1.symm.trans (hall lit hlit).1
    · intro heq lit hlit
      obtain ⟨hwords, hwidth⟩ := h.decode_some hlit
      exact ⟨hwords.trans (heq (by rw [hlit]; rfl)), hwidth⟩
  rw [DenotesValue, hstored, hsome]
  unfold DecodesExactly
  by_cases hlen : width.length < 32
  · rw [if_pos hlen]
    simp only [hlen, true_and]
    cases base with
    | bin => exact binary_exact_iff
    | hex => exact hex_exact_iff h.range.2
    | dec => exact decimal_exact_iff
  · rw [if_neg hlen]
    simp only [hlen, false_and, false_iff, false_imp_iff, and_true]

/-- A hexadecimal literal that spans two words. -/
theorem denotesValue_iff_hex : DenotesValue (fun _ => none) "68'hF_0123456789abcdef".toList .hex
    "F_0123456789abcdef".toList 68 := by
  refine (@denotesValue_iff _ "68".toList _ _ _ ⟨⟨'h', by decide, by decide⟩, by decide,
    ⟨by decide, by decide⟩, by decide, ?_, by decide⟩ _).mpr ?_
  · simp only [PlainDigit]
    decide +kernel
  · unfold DecodesExactly
    rw [if_pos (by decide)]
    dsimp only
    decide +kernel

/-- The decimal accumulator wraps: the literal of `2 ^ 64` is accepted at 65 bits and stored as 0. -/
theorem decimal_wraps : SizedText "65'd18446744073709551616".toList "65".toList .dec
      "18446744073709551616".toList 65 ∧
    ¬ DenotesValue (fun _ => none) "65'd18446744073709551616".toList .dec
      "18446744073709551616".toList 65 := by
  refine ⟨⟨⟨'d', by decide, by decide⟩, by decide, ⟨by decide, by decide⟩, by decide, ?_,
    by decide⟩, ?_⟩
  · simp only [PlainDigit]
    decide +kernel
  · have hlit : (irDecodeSizedLiteral (fun _ => none) "65'd18446744073709551616".toList).map
        (fun lit => lit.words.toNat) = some 0 := by decide +kernel
    obtain ⟨lit, hdec, hzero⟩ := Option.map_eq_some_iff.mp hlit
    rintro ⟨-, hall⟩
    have hval := (hall lit hdec).1
    rw [hzero] at hval
    revert hval
    decide +kernel

end JzHdl

import JzHdl.Ir.Literal

/-! # Intrinsic widths of literals

The literal analyser with its `unsigned` counters, on texts of any length, and
the bit length of the number that the digits denote.
-/

namespace JzHdl

/-- A statement about each character of a text is decided along the text. -/
local instance (priority := 2000) decidableWidthText {p : Char → Prop} [DecidablePred p]
    (text : List Char) : Decidable (∀ c ∈ text, p c) := List.decidableBAll p text

/-! ## The analyser -/

/-- The scan for the first nonzero digit, the digits of the text and those passed counted in
32 bits. -/
def hexWidthScan (totalNibbles : BitVec 32) : List Char → BitVec 32 → BitVec 32
  | [], _ => 1
  | c :: rest, idx =>
    if c = '_' then hexWidthScan totalNibbles rest idx
    else match hexDigit c with
      | none | some 0 => hexWidthScan totalNibbles rest (idx + 1)
      | some v => (totalNibbles - idx - 1) * 4 + BitVec.ofNat 32 v.size

def countDigitsUnsigned (value : List Char) : BitVec 32 :=
  BitVec.ofNat 32 (countDigitsNoUnderscore value)

def hexMagnitudeWidthUnsigned (value : List Char) : BitVec 32 :=
  if value = [] ∨ countDigitsUnsigned value = 0 then 0
  else hexWidthScan (countDigitsUnsigned value) value 0

/-- `jz_literal_analyze` as it counts: every counter and width is a 32-bit `unsigned`. -/
def jzLiteralAnalyzeUnsigned (base : JZNumericBase) (value : List Char) (declaredWidth : ℕ) :
    Option (ℕ × JZLiteralExtKind) :=
  if declaredWidth = 0 then none
  else
    let intrinsic := match base with
      | .bin => (countDigitsUnsigned value).toNat
      | .hex => (hexMagnitudeWidthUnsigned value).toNat
      | .dec => intrinsicWidthForDecimal value
    if base ≠ .bin ∧ intrinsic = 0 then none
    else if declaredWidth < intrinsic then none
    else some (intrinsic,
      if intrinsic = declaredWidth then .none
      else if base = .bin then binExtKind (literalMsb value) else .zero)

/-! ## Numbers -/

def literalDigits (value : List Char) : List Char := value.filter (· ≠ '_')

/-- The number that decimal or hexadecimal digits denote. -/
def magnitude (base : JZNumericBase) (value : List Char) : ℕ :=
  if base = .hex then hexValue (literalDigits value) else decValue (literalDigits value) 0

/-- The least width of a number, at least one bit. -/
def bitLength (n : ℕ) : ℕ := max 1 n.size

theorem bitLength_le {n w : ℕ} (hw : 0 < w) : bitLength n ≤ w ↔ n < 2 ^ w := by
  rw [bitLength, max_le_iff, Nat.size_le]
  exact ⟨fun h => h.2, fun h => ⟨hw, h⟩⟩

theorem hexValue_pos_size {digits : List Char} {v : ℕ} (hv : 0 < v) :
    (2 ^ (4 * digits.length) * v + hexValue digits).size = 4 * digits.length + v.size := by
  refine eq_of_forall_ge_iff fun k => ?_
  have hlow := hexValue_lt digits
  have hsize : 0 < v.size := Nat.size_pos.mpr hv
  rw [Nat.size_le]
  rcases Nat.lt_or_ge k (4 * digits.length) with hk | hk
  · have hle : 2 ^ k ≤ 2 ^ (4 * digits.length) := Nat.pow_le_pow_right (by decide) hk.le
    have hmul : 2 ^ (4 * digits.length) ≤ 2 ^ (4 * digits.length) * v := Nat.le_mul_of_pos_right _ hv
    omega
  · obtain ⟨j, rfl⟩ := Nat.exists_eq_add_of_le hk
    rw [Nat.pow_add, Nat.add_le_add_iff_left, Nat.size_le]
    constructor
    · intro h
      by_contra hge
      have := Nat.mul_le_mul_left (2 ^ (4 * digits.length)) (not_lt.mp hge)
      omega
    · intro h
      have := Nat.mul_le_mul_left (2 ^ (4 * digits.length)) (Nat.succ_le_of_lt h)
      rw [Nat.mul_succ] at this
      omega

/-- The width of hexadecimal digits is the bit length of their number. -/
theorem hexWidthFrom_eq : ∀ digits : List Char, (∀ c ∈ digits, (hexDigit c).isSome) →
    hexWidthFrom digits = bitLength (hexValue digits)
  | [], _ => by simp [hexWidthFrom, hexValue, bitLength]
  | c :: rest, h => by
      have ih := hexWidthFrom_eq rest fun d hd => h d (List.mem_cons_of_mem _ hd)
      obtain ⟨v, hv⟩ := Option.isSome_iff_exists.mp (h c (List.mem_cons_self ..))
      rw [hexWidthFrom, hexValue, hv, Option.getD_some]
      cases v with
      | zero => simpa using ih
      | succ n =>
        have hsize : 0 < (n + 1).size := Nat.size_pos.mpr (Nat.succ_pos n)
        rw [bitLength, hexValue_pos_size (v := n + 1) (Nat.succ_pos n)]
        simp only
        omega

theorem decValue_cons (c : Char) (rest : List Char) (acc : ℕ) :
    decValue (c :: rest) acc = decValue rest (acc * 10 + decimalDigit c) := by
  rw [decValue, decValue, List.foldl_cons]

theorem le_decValue : ∀ (digits : List Char) (acc : ℕ), acc ≤ decValue digits acc
  | [], _ => le_rfl
  | c :: rest, acc => by
      rw [decValue_cons]
      exact le_trans (by omega) (le_decValue rest _)

/-- Decimal digits are measured exactly below 64 bits and clamped above. -/
theorem decimalWidthFrom_eq : ∀ (value : List Char) (acc : ℕ),
    (∀ c ∈ value, c = '_' ∨ c.isDigit = true) → acc < 2 ^ 64 →
    decimalWidthFrom value acc = if decValue (literalDigits value) acc < 2 ^ 64
      then bitLength (decValue (literalDigits value) acc) else 64
  | [], acc, _, hacc => by
      have hval : decValue (literalDigits []) acc = acc := rfl
      rw [hval, if_pos hacc, decimalWidthFrom]
      split
      · rename_i h0
        simp [h0, bitLength]
      · rename_i h0
        have : 0 < acc.size := Nat.size_pos.mpr (by omega)
        rw [bitLength]
        omega
  | c :: rest, acc, h, hacc => by
      have hrest : ∀ d ∈ rest, d = '_' ∨ d.isDigit = true := fun d hd => h d (List.mem_cons_of_mem _ hd)
      rw [decimalWidthFrom]
      by_cases hc : c = '_'
      · have hdrop : literalDigits (c :: rest) = literalDigits rest := by
          rw [literalDigits, List.filter_cons_of_neg (by simp [hc])]
          rfl
        rw [if_pos hc, hdrop]
        exact decimalWidthFrom_eq rest acc hrest hacc
      · have hdigit : c.isDigit = true := (h c (List.mem_cons_self ..)).resolve_left hc
        have hkeep : literalDigits (c :: rest) = c :: literalDigits rest := by
          rw [literalDigits, List.filter_cons_of_pos (by simp [hc])]
          rfl
        rw [if_neg hc, if_neg (by simp [hdigit]), hkeep, decValue_cons]
        by_cases hover : (2 ^ 64 - 1 - decimalDigit c) / 10 < acc
        · have hle := le_decValue (literalDigits rest) (acc * 10 + decimalDigit c)
          rw [if_pos hover, if_neg (by omega)]
        · have hd : decimalDigit c ≤ 9 := by
            simp only [Char.isDigit, Bool.and_eq_true, decide_eq_true_eq] at hdigit
            have h9 : c.toNat ≤ 57 := hdigit.2
            rw [decimalDigit]
            omega
          rw [if_neg hover]
          exact decimalWidthFrom_eq rest _ hrest (by omega)

/-! ## The scan in 32 bits -/

theorem literalDigits_cons {c : Char} (rest : List Char) (hc : c ≠ '_') :
    literalDigits (c :: rest) = c :: literalDigits rest := by
  rw [literalDigits, List.filter_cons_of_pos (by simp [hc]), literalDigits]

theorem literalDigits_underscore (rest : List Char) :
    literalDigits ('_' :: rest) = literalDigits rest := by
  rw [literalDigits, List.filter_cons_of_neg (by simp), literalDigits]

/-- The 32-bit scan finds the width modulo `2 ^ 32`. -/
theorem hexWidthScan_eq : ∀ (value : List Char) (i : ℕ),
    hexWidthScan (BitVec.ofNat 32 (i + (literalDigits value).length)) value (BitVec.ofNat 32 i) =
      BitVec.ofNat 32 (hexWidthFrom (literalDigits value))
  | [], _ => rfl
  | c :: rest, i => by
      rw [hexWidthScan]
      by_cases hc : c = '_'
      · subst hc
        rw [if_pos rfl, literalDigits_underscore]
        exact hexWidthScan_eq rest i
      · rw [if_neg hc, literalDigits_cons rest hc, hexWidthFrom, List.length_cons]
        have ih := hexWidthScan_eq rest (i + 1)
        rw [Nat.add_right_comm, Nat.add_assoc, BitVec.ofNat_add i 1] at ih
        cases hexDigit c with
        | none => exact ih
        | some v =>
          cases v with
          | zero => exact ih
          | succ v =>
            refine BitVec.eq_of_toNat_eq ?_
            simp only [BitVec.toNat_add, BitVec.toNat_mul, BitVec.toNat_sub, BitVec.toNat_ofNat]
            generalize (literalDigits rest).length = m
            generalize (v + 1).size = z
            have h4 : (4 : BitVec 32).toNat = 4 := rfl
            have h1 : (1 : BitVec 32).toNat = 1 := rfl
            rw [h4, h1]
            omega

theorem countDigitsNoUnderscore_eq (value : List Char) :
    countDigitsNoUnderscore value = (literalDigits value).length := rfl

section

variable {value : List Char} {w : ℕ}

theorem hexMagnitudeWidthUnsigned_eq (h : ∀ c ∈ literalDigits value, (hexDigit c).isSome) :
    (hexMagnitudeWidthUnsigned value).toNat =
      if (literalDigits value).length % 2 ^ 32 = 0 then 0
      else bitLength (hexValue (literalDigits value)) % 2 ^ 32 := by
  have hscan := hexWidthScan_eq value 0
  rw [Nat.zero_add, hexWidthFrom_eq _ h] at hscan
  have hcount : countDigitsUnsigned value = 0 ↔ (literalDigits value).length % 2 ^ 32 = 0 := by
    rw [countDigitsUnsigned, countDigitsNoUnderscore_eq, ← BitVec.toNat_inj, BitVec.toNat_ofNat]
    rfl
  rw [hexMagnitudeWidthUnsigned]
  by_cases hz : (literalDigits value).length % 2 ^ 32 = 0
  · rw [if_pos hz, if_pos (.inr (hcount.mpr hz))]
    rfl
  · have hne : ¬ (value = [] ∨ countDigitsUnsigned value = 0) := by
      rintro (rfl | h0)
      · exact hz rfl
      · exact hz (hcount.mp h0)
    rw [if_neg hz, if_neg hne, countDigitsUnsigned, countDigitsNoUnderscore_eq]
    exact (congrArg BitVec.toNat hscan).trans (BitVec.toNat_ofNat ..)

/-- Below `2 ^ 30` digits the counters do not wrap. -/
theorem jzLiteralAnalyzeUnsigned_eq (base : JZNumericBase)
    (h : base = .hex → ∀ c ∈ literalDigits value, (hexDigit c).isSome)
    (hlen : value.length < 2 ^ 30) :
    jzLiteralAnalyzeUnsigned base value w = jzLiteralAnalyze base value w := by
  have hle : (literalDigits value).length ≤ value.length := List.length_filter_le ..
  have hcount : (countDigitsUnsigned value).toNat = countDigitsNoUnderscore value := by
    rw [countDigitsUnsigned, BitVec.toNat_ofNat, countDigitsNoUnderscore_eq]
    exact Nat.mod_eq_of_lt (by omega)
  unfold jzLiteralAnalyzeUnsigned jzLiteralAnalyze
  cases base with
  | bin => simp only [hcount]
  | dec => rfl
  | hex =>
    have hwidth : (hexMagnitudeWidthUnsigned value).toNat = intrinsicWidthForHexMagnitude value := by
      rw [hexMagnitudeWidthUnsigned_eq (h rfl), intrinsicWidthForHexMagnitude]
      change _ = if literalDigits value = [] then 0 else hexWidthFrom (literalDigits value)
      by_cases hnil : literalDigits value = []
      · simp [hnil]
      · have hpos := List.length_pos_iff.mpr hnil
        have hb : bitLength (hexValue (literalDigits value)) ≤ 4 * (literalDigits value).length :=
          (bitLength_le (by omega)).mpr (hexValue_lt _)
        rw [if_neg hnil, if_neg (by omega), hexWidthFrom_eq _ (h rfl),
          Nat.mod_eq_of_lt (by omega)]
    simp only [hwidth]

end

/-! ## Leading zeros -/

/-- The digits without underscores and leading zeros, at least one. -/
def leastDigits (value : List Char) : List Char :=
  let digits := (literalDigits value).dropWhile (· = '0')
  if digits = [] then ['0'] else digits

theorem hexValue_dropWhile : ∀ digits : List Char,
    hexValue (digits.dropWhile (· = '0')) = hexValue digits
  | [] => rfl
  | c :: rest => by
      by_cases hc : c = '0'
      · subst hc
        have hzero : (hexDigit '0').getD 0 = 0 := by decide
        rw [List.dropWhile_cons_of_pos (by simp), hexValue_dropWhile rest, hexValue, hzero]
        simp
      · rw [List.dropWhile_cons_of_neg (by simpa using hc)]

theorem decValue_dropWhile : ∀ digits : List Char,
    decValue (digits.dropWhile (· = '0')) 0 = decValue digits 0
  | [] => rfl
  | c :: rest => by
      by_cases hc : c = '0'
      · subst hc
        have hzero : 0 * 10 + decimalDigit '0' = 0 := by decide
        rw [List.dropWhile_cons_of_pos (by simp), decValue_dropWhile rest, decValue_cons, hzero]
      · rw [List.dropWhile_cons_of_neg (by simpa using hc)]

theorem mem_leastDigits {value : List Char} {c : Char} (h : c ∈ leastDigits value) :
    c = '0' ∨ c ∈ literalDigits value := by
  simp only [leastDigits] at h
  split at h
  · exact .inl (List.mem_singleton.mp h)
  · exact .inr ((List.dropWhile_sublist _).subset h)

theorem literalDigits_leastDigits (value : List Char) :
    literalDigits (leastDigits value) = leastDigits value := by
  rw [literalDigits, List.filter_eq_self]
  intro c hc
  rcases mem_leastDigits hc with rfl | h
  · decide
  · exact (List.mem_filter.mp h).2

theorem magnitude_leastDigits (base : JZNumericBase) (value : List Char) :
    magnitude base (leastDigits value) = magnitude base value := by
  rw [magnitude, magnitude, literalDigits_leastDigits, ← hexValue_dropWhile (literalDigits value),
    ← decValue_dropWhile (literalDigits value)]
  simp only [leastDigits]
  by_cases hnil : (literalDigits value).dropWhile (· = '0') = []
  · have h1 : hexValue ['0'] = hexValue [] := by decide
    have h2 : decValue ['0'] 0 = decValue [] 0 := by decide
    rw [if_pos hnil, hnil, h1, h2]
  · rw [if_neg hnil]

/-- A number without leading zeros has about as many digits as its bit length needs. -/
theorem length_leastDigits_lt {value : List Char}
    (h : ∀ c ∈ literalDigits value, (hexDigit c).isSome) :
    0 < (leastDigits value).length ∧
      4 * ((leastDigits value).length - 1) < bitLength (magnitude .hex value) := by
  have hvalid : ∀ c ∈ leastDigits value, (hexDigit c).isSome := by
    intro c hc
    rcases mem_leastDigits hc with rfl | hmem
    · decide
    · exact h c hmem
  rw [← magnitude_leastDigits, magnitude, if_pos rfl, literalDigits_leastDigits,
    ← hexWidthFrom_eq _ hvalid]
  cases hl : leastDigits value with
  | nil =>
    simp only [leastDigits] at hl
    split at hl
    · cases hl
    · rename_i hne
      exact absurd hl hne
  | cons c rest =>
    refine ⟨by simp, ?_⟩
    rw [hexWidthFrom, List.length_cons, Nat.add_sub_cancel]
    rw [hl] at hvalid
    obtain ⟨v, hv⟩ := Option.isSome_iff_exists.mp (hvalid c (List.mem_cons_self ..))
    rw [hv]
    cases v with
    | succ v =>
      have hsize : 0 < (v + 1).size := Nat.size_pos.mpr (Nat.succ_pos v)
      simp only
      omega
    | zero =>
      -- only the digit 0 has the value 0, and it stays only when it is alone
      have hc : c = '0' := by
        rw [hexDigit] at hv
        split at hv
        · rename_i h0
          have h9 : (48 : ℕ) ≤ c.toNat := h0.1
          have hval := Option.some.inj hv
          have : c.toNat = 48 := by omega
          exact Char.ext (UInt32.toNat_inj.mp this)
        · split at hv
          · simp only [Option.some.injEq] at hv
            omega
          · split at hv
            · simp only [Option.some.injEq] at hv
              omega
            · cases hv
      simp only [leastDigits] at hl
      split at hl
      · obtain ⟨-, rfl⟩ := List.cons.inj hl
        decide
      · have hhead := List.head?_dropWhile_not (· = '0') (literalDigits value)
        rw [hl] at hhead
        simp [hc] at hhead

/-! ## The answer of the analyser -/

/-- A text of decimal or hexadecimal digits and underscores, with at least one digit. -/
structure DigitText (base : JZNumericBase) (value : List Char) : Prop where

  notBin : base ≠ .bin

  digits : ∀ c ∈ value, c = '_' ∨ ValidDigit base c

  nonempty : literalDigits value ≠ []

theorem DigitText.valid {base : JZNumericBase} {value : List Char} (h : DigitText base value) :
    ∀ c ∈ literalDigits value, ValidDigit base c := by
  intro c hc
  obtain ⟨hmem, hne⟩ := List.mem_filter.mp hc
  exact (h.digits c hmem).resolve_left (by simpa using hne)

theorem DigitText.leastDigits {base : JZNumericBase} {value : List Char} (h : DigitText base value) :
    DigitText base (JzHdl.leastDigits value) := by
  refine ⟨h.notBin, fun c hc => .inr ?_, ?_⟩
  · rcases mem_leastDigits hc with rfl | hmem
    · cases base with
      | bin => exact absurd rfl h.notBin
      | dec => simp only [ValidDigit]; decide
      | hex => simp only [ValidDigit]; decide
    · exact h.valid c hmem
  · rw [literalDigits_leastDigits]
    simp only [JzHdl.leastDigits]
    split
    · simp
    · assumption

/-- The answer of the analyser that finds a given width. -/
def widthAnswer (intrinsic w : ℕ) : Option (ℕ × JZLiteralExtKind) :=
  if intrinsic = 0 ∨ w < intrinsic then none
  else some (intrinsic, if intrinsic = w then .none else .zero)

section

variable {base : JZNumericBase} {value : List Char} {w : ℕ}

theorem jzLiteralAnalyzeUnsigned_hex (h : DigitText .hex value) (hw : 0 < w) :
    jzLiteralAnalyzeUnsigned .hex value w =
      widthAnswer (if (literalDigits value).length % 2 ^ 32 = 0 then 0
        else bitLength (magnitude .hex value) % 2 ^ 32) w := by
  unfold jzLiteralAnalyzeUnsigned widthAnswer
  rw [if_neg (by omega), magnitude, if_pos rfl]
  simp only [hexMagnitudeWidthUnsigned_eq h.valid]
  generalize (if (literalDigits value).length % 2 ^ 32 = 0 then 0
    else bitLength (hexValue (literalDigits value)) % 2 ^ 32) = i
  by_cases hi : i = 0 <;> by_cases hlt : w < i <;> simp [hi, hlt]

theorem jzLiteralAnalyzeUnsigned_dec (h : DigitText .dec value) (hw : 0 < w) :
    jzLiteralAnalyzeUnsigned .dec value w =
      widthAnswer (if magnitude .dec value < 2 ^ 64 then bitLength (magnitude .dec value) else 64)
        w := by
  have hne : value ≠ [] := by
    rintro rfl
    exact h.nonempty rfl
  have hwidth := decimalWidthFrom_eq value 0 (fun c hc => (h.digits c hc).imp_right id)
    (Nat.two_pow_pos 64)
  have hmag : magnitude .dec value = decValue (literalDigits value) 0 := if_neg (by decide)
  have hintrinsic : intrinsicWidthForDecimal value = decimalWidthFrom value 0 := if_neg hne
  rw [← hmag, ← hintrinsic] at hwidth
  rw [← hwidth]
  unfold jzLiteralAnalyzeUnsigned widthAnswer
  rw [if_neg (by omega)]
  generalize intrinsicWidthForDecimal value = i
  by_cases hi : i = 0 <;> by_cases hlt : w < i <;> simp [hi, hlt]

/-- The answer for a text is that for its number: overflow is rejected, the width is the bit
length, nothing is extended just when the width is the declared one, and leading zeros and
underscores make no difference. -/
def AnalysisExact (base : JZNumericBase) (value : List Char) (w : ℕ) : Prop :=
  ((jzLiteralAnalyzeUnsigned base value w).isSome ↔ magnitude base value < 2 ^ w) ∧
    (∀ i e, jzLiteralAnalyzeUnsigned base value w = some (i, e) →
      i = bitLength (magnitude base value) ∧ (e = .none ↔ i = w)) ∧
    jzLiteralAnalyzeUnsigned base (leastDigits value) w = jzLiteralAnalyzeUnsigned base value w

/-- Decimal numbers reach at most 64 bits. Hexadecimal counts wrap at `2 ^ 32`. -/
def WidthExact (base : JZNumericBase) (value : List Char) (w : ℕ) : Prop :=
  match base with
  | .hex =>
    let b := bitLength (magnitude .hex value)
    if b < 2 ^ 32 then (literalDigits value).length % 2 ^ 32 ≠ 0 ∨ w < b
    else b % 2 ^ 32 = 0 ∨ w < b % 2 ^ 32 ∨
      ((literalDigits value).length % 2 ^ 32 = 0 ∧ (leastDigits value).length % 2 ^ 32 = 0)
  | _ => magnitude .dec value < 2 ^ 64 ∨ w < 64

theorem isSome_widthAnswer (i w : ℕ) : (widthAnswer i w).isSome ↔ i ≠ 0 ∧ i ≤ w := by
  rw [widthAnswer]
  split
  · rename_i h
    simp only [Option.isSome_none, Bool.false_eq_true, false_iff]
    omega
  · rename_i h
    simp only [Option.isSome_some, true_iff]
    omega

theorem widthAnswer_eq_some {i w j : ℕ} {e : JZLiteralExtKind} (h : widthAnswer i w = some (j, e)) :
    j = i ∧ (e = .none ↔ j = w) := by
  rw [widthAnswer] at h
  split at h
  · cases h
  · obtain ⟨rfl, rfl⟩ := Prod.mk.inj (Option.some.inj h)
    refine ⟨rfl, ?_⟩
    by_cases hi : i = w <;> simp [hi]

theorem analysisExact_dec_iff (h : DigitText .dec value) (hw : 0 < w) :
    AnalysisExact .dec value w ↔ WidthExact .dec value w := by
  have hleast := jzLiteralAnalyzeUnsigned_dec h.leastDigits hw
  rw [magnitude_leastDigits] at hleast
  have hcond : WidthExact .dec value w ↔ magnitude .dec value < 2 ^ 64 ∨ w < 64 := Iff.rfl
  rw [AnalysisExact, hcond, hleast, jzLiteralAnalyzeUnsigned_dec h hw, isSome_widthAnswer,
    and_iff_left rfl]
  have hfit := bitLength_le (n := magnitude .dec value) hw
  by_cases hsmall : magnitude .dec value < 2 ^ 64
  · rw [if_pos hsmall]
    have hpos : bitLength (magnitude .dec value) ≠ 0 := by rw [bitLength]; omega
    simp only [hsmall, true_or, iff_true]
    exact ⟨by rw [← hfit]; exact and_iff_right hpos, fun i e hie => widthAnswer_eq_some hie⟩
  · rw [if_neg hsmall]
    have hbig : 64 < bitLength (magnitude .dec value) := by
      by_contra hle
      exact hsmall ((bitLength_le (by decide)).mp (not_lt.mp hle))
    simp only [hsmall, false_or]
    constructor
    · rintro ⟨-, h2⟩
      by_contra hge
      have hsome := (isSome_widthAnswer 64 w).mpr ⟨by decide, by omega⟩
      obtain ⟨⟨i, e⟩, hie⟩ := Option.isSome_iff_exists.mp hsome
      have h64 := (widthAnswer_eq_some hie).1
      have hb := (h2 i e hie).1
      omega
    · intro hlt
      have hno : ¬ magnitude .dec value < 2 ^ w := by rw [← hfit]; omega
      refine ⟨by simp only [hno, iff_false]; omega, fun i e hie => ?_⟩
      have hsome : (widthAnswer 64 w).isSome := by rw [hie]; rfl
      rw [isSome_widthAnswer] at hsome
      omega

/-- What the wrapped width says of a hexadecimal number. -/
theorem analysisExact_hex_iff (h : DigitText .hex value) (hw : 0 < w) (hw32 : w < 2 ^ 32) :
    AnalysisExact .hex value w ↔ WidthExact .hex value w := by
  have hleast := jzLiteralAnalyzeUnsigned_hex h.leastDigits hw
  rw [magnitude_leastDigits, literalDigits_leastDigits] at hleast
  have hcond : WidthExact .hex value w ↔ if bitLength (magnitude .hex value) < 2 ^ 32
      then (literalDigits value).length % 2 ^ 32 ≠ 0 ∨ w < bitLength (magnitude .hex value)
      else bitLength (magnitude .hex value) % 2 ^ 32 = 0 ∨
        w < bitLength (magnitude .hex value) % 2 ^ 32 ∨
        ((literalDigits value).length % 2 ^ 32 = 0 ∧
          (JzHdl.leastDigits value).length % 2 ^ 32 = 0) := Iff.rfl
  rw [AnalysisExact, hcond, hleast, jzLiteralAnalyzeUnsigned_hex h hw, isSome_widthAnswer]
  have hfit := bitLength_le (n := magnitude .hex value) hw
  have hpos : bitLength (magnitude .hex value) ≠ 0 := by rw [bitLength]; omega
  obtain ⟨hs, hlen⟩ := length_leastDigits_lt h.valid
  rw [← hfit]
  generalize bitLength (magnitude .hex value) = b at *
  generalize (literalDigits value).length = n at *
  generalize (JzHdl.leastDigits value).length = s at *
  by_cases hb : b < 2 ^ 32
  · have hs32 : s % 2 ^ 32 ≠ 0 := by omega
    rw [if_pos hb, if_neg hs32, Nat.mod_eq_of_lt hb]
    by_cases hn : n % 2 ^ 32 = 0
    · rw [if_pos hn]
      have hnone : widthAnswer 0 w = none := by rw [widthAnswer, if_pos (.inl rfl)]
      constructor
      · rintro ⟨h1, -, -⟩
        omega
      · intro hlt
        have hlt : w < b := hlt.resolve_left (by omega)
        have hnone' : widthAnswer b w = none := by rw [widthAnswer, if_pos (.inr hlt)]
        rw [hnone, hnone']
        exact ⟨by omega, fun i e hie => (by cases hie), rfl⟩
    · rw [if_neg hn]
      exact ⟨fun _ => .inl hn, fun _ => ⟨and_iff_right hpos, fun i e hie => widthAnswer_eq_some hie, rfl⟩⟩
  · have hnone : ∀ i, i = 0 ∨ w < i → widthAnswer i w = none := fun i hi => by
      rw [widthAnswer, if_pos hi]
    rw [if_neg hb]
    constructor
    · rintro ⟨h1, -, h3⟩
      by_contra hbad
      push Not at hbad
      obtain ⟨h4, h5, h6⟩ := hbad
      have hn : n % 2 ^ 32 = 0 := by
        by_contra hn
        rw [if_neg hn] at h1
        omega
      rw [if_pos hn, if_neg (h6 hn), hnone 0 (.inl rfl)] at h3
      have hsome := (isSome_widthAnswer (b % 2 ^ 32) w).mpr ⟨h4, by omega⟩
      rw [h3] at hsome
      cases hsome
    · intro hbad
      have hn : widthAnswer (if n % 2 ^ 32 = 0 then 0 else b % 2 ^ 32) w = none := by
        refine hnone _ ?_
        split
        · exact .inl rfl
        · omega
      have hs : widthAnswer (if s % 2 ^ 32 = 0 then 0 else b % 2 ^ 32) w = none := by
        refine hnone _ ?_
        split
        · exact .inl rfl
        · omega
      have hno := (isSome_widthAnswer (if n % 2 ^ 32 = 0 then 0 else b % 2 ^ 32) w).not.mp
        (by rw [hn]; simp)
      rw [hn, hs]
      exact ⟨by omega, fun i e hie => (by cases hie), rfl⟩

end

/-- The analyser is exact on a decimal text just when the number fits 64 bits or the declared
width is below 64, and on a hexadecimal text just when the 32-bit counts do not mislead it. -/
theorem analysisExact_iff {base : JZNumericBase} {value : List Char} {w : ℕ}
    (h : DigitText base value) (hw : 0 < w) (hw32 : w < 2 ^ 32) :
    AnalysisExact base value w ↔ WidthExact base value w := by
  cases base with
  | bin => exact absurd rfl h.notBin
  | dec => exact analysisExact_dec_iff h hw
  | hex => exact analysisExact_hex_iff h hw hw32

/-- A hexadecimal text with a leading zero and an underscore. -/
theorem analysisExact_iff_hex : AnalysisExact .hex ['0', 'f', '_', 'F'] 8 :=
  (analysisExact_iff ⟨by decide, by simp only [ValidDigit]; decide, by decide⟩ (by decide)
    (by decide)).mpr (by unfold WidthExact; decide)

/-- The number `2 ^ 64` has 65 bits; the analyser reports 64 and accepts that width. -/
theorem decimal_width_clamped : DigitText .dec "18446744073709551616".toList ∧
    jzLiteralAnalyzeUnsigned .dec "18446744073709551616".toList 64 = some (64, .none) ∧
    ¬ AnalysisExact .dec "18446744073709551616".toList 64 := by
  have hanswer : jzLiteralAnalyzeUnsigned .dec "18446744073709551616".toList 64 =
      some (64, .none) := by decide +kernel
  have hmag : magnitude .dec "18446744073709551616".toList = 2 ^ 64 := by decide +kernel
  refine ⟨⟨by decide, by simp only [ValidDigit]; decide +kernel, by decide⟩, hanswer, ?_⟩
  rintro ⟨haccept, -⟩
  rw [hanswer, hmag] at haccept
  exact absurd (haccept.mp rfl) (lt_irrefl _)

end JzHdl

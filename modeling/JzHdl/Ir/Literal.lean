import JzHdl.Sim.Bits
import JzHdl.Sim.Eval
import Mathlib.Data.Nat.Size

/-! # Sized literals

The decoding of a literal such as `4'b1x0z` into the words of the intermediate
representation, and the digits that the language reads in the same text.
-/

namespace JzHdl

open BitWords

inductive JZNumericBase | bin | dec | hex
  deriving DecidableEq, Repr

inductive JZLiteralExtKind | none | zero | x | z
  deriving DecidableEq, Repr

/-! ## Widths -/

def tick : Char := Char.ofNat 39

/-- `isspace`: blanks and the control characters 9 to 13. -/
def isSpace (c : Char) : Bool := c == ' ' || (9 ≤ c.toNat && c.toNat ≤ 13)

def decimalDigit (c : Char) : ℕ := c.toNat - 48

/-- One character of a positive decimal number that fits an `unsigned`. -/
def parsePositiveStep (acc : Option ℕ) (c : Char) : Option ℕ :=
  acc.bind fun value =>
    if isSpace c || c == '_' then some value
    else if !c.isDigit then none
    else if value * 10 + decimalDigit c < 2 ^ 32 then some (value * 10 + decimalDigit c)
    else none

def parseSimplePositiveInt (s : List Char) : Option ℕ :=
  (s.foldl parsePositiveStep (some 0)).filter (0 < ·)

def countDigitsNoUnderscore (s : List Char) : ℕ := (s.filter (· ≠ '_')).length

/-- Decimal digits accumulate in 64 bits; an overflow is clamped to width 64. -/
def decimalWidthFrom : List Char → ℕ → ℕ
  | [], acc => if acc = 0 then 1 else acc.size
  | c :: rest, acc =>
    if c = '_' then decimalWidthFrom rest acc
    else if !c.isDigit then 0
    else if (2 ^ 64 - 1 - decimalDigit c) / 10 < acc then 64
    else decimalWidthFrom rest (acc * 10 + decimalDigit c)

def intrinsicWidthForDecimal (value : List Char) : ℕ :=
  if value = [] then 0 else decimalWidthFrom value 0

def hexDigit (c : Char) : Option ℕ :=
  if '0' ≤ c ∧ c ≤ '9' then some (c.toNat - 48)
  else if 'a' ≤ c ∧ c ≤ 'f' then some (10 + (c.toNat - 97))
  else if 'A' ≤ c ∧ c ≤ 'F' then some (10 + (c.toNat - 65))
  else none

/-- Skip leading digits that are 0 or not hexadecimal; the first other digit fixes the width. -/
def hexWidthFrom : List Char → ℕ
  | [] => 1
  | c :: rest =>
    match hexDigit c with
    | none | some 0 => hexWidthFrom rest
    | some v => rest.length * 4 + v.size

def intrinsicWidthForHexMagnitude (value : List Char) : ℕ :=
  let digits := value.filter (· ≠ '_')
  if digits = [] then 0 else hexWidthFrom digits

/-- The first character that is not an underscore, `0` when there is none. -/
def literalMsb (value : List Char) : Char := ((value.dropWhile (· = '_')).head?).getD '0'

def binExtKind (msb : Char) : JZLiteralExtKind :=
  if msb = 'x' ∨ msb = 'X' then .x else if msb = 'z' ∨ msb = 'Z' then .z else .zero

/-- `jz_literal_analyze`: the intrinsic width and the extension to the declared width. -/
def jzLiteralAnalyze (base : JZNumericBase) (value : List Char) (declaredWidth : ℕ) :
    Option (ℕ × JZLiteralExtKind) :=
  if declaredWidth = 0 then none
  else
    let intrinsic := match base with
      | .bin => countDigitsNoUnderscore value
      | .hex => intrinsicWidthForHexMagnitude value
      | .dec => intrinsicWidthForDecimal value
    if base ≠ .bin ∧ intrinsic = 0 then none
    else if declaredWidth < intrinsic then none
    else some (intrinsic,
      if intrinsic = declaredWidth then .none
      else if base = .bin then binExtKind (literalMsb value) else .zero)

/-! ## Decoding -/

def isSeparator (c : Char) : Bool := c == '_' || c.isWhitespace

/-- Or a bit pattern into the words at a bit position that does not cross a word. -/
def orAt (ws : SimWords) (k : ℕ) (w : Word) : SimWords :=
  ws.set (k / 64) (ws.get (k / 64) ||| (w <<< (k % 64)))

/-- Place binary digits from the most significant one down; anything but `1` leaves its bit 0. -/
def placeBits : List Char → SimWords → SimWords
  | [], ws => ws
  | c :: rest, ws => placeBits rest (orAt ws rest.length (if c = '1' then 1 else 0))

def placeNibbles : List Char → SimWords → SimWords
  | [], ws => ws
  | c :: rest, ws => placeNibbles rest (orAt ws (rest.length * 4) (BitVec.ofNat 64 ((hexDigit c).getD 0)))

def decimalValue : List Char → Word → Option Word
  | [], value => some value
  | c :: rest, value =>
    if !c.isDigit then none
    else decimalValue rest (value * 10 + BitVec.ofNat 64 (decimalDigit c))

/-- Only `z` digits, and at least one digit at all. -/
def allZ (known : Char → Bool) (digits : List Char) : Bool :=
  !digits.isEmpty && digits.all fun c => !known c

def knownBin (c : Char) : Bool := c == '0' || c == '1' || c == 'x' || c == 'X'

def knownHex (c : Char) : Bool := (hexDigit c).isSome || c == 'x' || c == 'X'

def numericBase (c : Char) : Option JZNumericBase :=
  if c = 'b' ∨ c = 'B' then some .bin
  else if c = 'd' ∨ c = 'D' then some .dec
  else if c = 'h' ∨ c = 'H' then some .hex
  else none

def trimTrailing (s : List Char) : List Char := (s.reverse.dropWhile isSpace).reverse

/-- The digits of a literal in a base: the words and whether every digit is `z`. -/
def decodeDigits (base : JZNumericBase) (cleanValue value : List Char) (declaredWidth : Option ℕ) :
    Option (SimWords × Bool) :=
  match base with
  | .bin =>
    let digits := cleanValue.filter (!isSeparator ·)
    some (placeBits digits .zero, allZ knownBin digits)
  | .hex =>
    let digits := value.filter (!isSeparator ·)
    some (placeNibbles digits .zero, allZ knownHex digits)
  | .dec =>
    (decimalValue (value.filter (!isSeparator ·)) 0).map fun v =>
      let v := match declaredWidth with
        | some w => if w < 64 then v &&& (((1 : Word) <<< w) - 1) else v
        | none => v
      (Words.set .zero 0 v, false)

/-- `ir_decode_sized_literal`. The width is a number or a constant of the module. -/
def irDecodeSizedLiteral (evalConst : List Char → Option ℕ) (lex : List Char) : Option IRLiteral :=
  match lex.span (· ≠ tick) with
  | (width, _ :: baseCh :: value) =>
    if width = [] ∨ 32 ≤ width.length then none
    else
      let declaredWidth := (parseSimplePositiveInt width).or ((evalConst width).filter (0 < ·))
      match numericBase baseCh with
      | none => none
      | some base =>
        if value = [] then none
        else
          let cleanValue := (trimTrailing value).take 255
          let accepted := match declaredWidth with
            | some w => (jzLiteralAnalyze base cleanValue w).isSome
            | none => true
          if accepted then
            (decodeDigits base cleanValue value declaredWidth).map fun (words, isZ) =>
              ⟨words, declaredWidth.getD 0, isZ⟩
          else none
  | _ => none

/-- `ir_build_expr` on a literal; the width is the inferred one. A text that does not decode gives
a zero of that width. -/
def irBuildLiteral (evalConst : List Char → Option ℕ) (inferred : ℕ) (text : List Char) : IRExpr :=
  match irDecodeSizedLiteral evalConst text with
  | some lit => .literal lit (if inferred = 0 then lit.width else inferred)
  | none => .literal ⟨.zero, inferred, false⟩ inferred

/-! ## Reading digits -/

theorem bit_orAt_bool (ws : SimWords) (j k : ℕ) (b : Bool) :
    (orAt ws j (if b then 1 else 0)).bit k = (ws.bit k || (b && decide (k = j ∧ k < 256))) := by
  have hj : j % 64 < 64 := Nat.mod_lt _ (by decide)
  rw [Words.bit, orAt, Words.get_set]
  by_cases hw : k / 64 = j / 64 ∧ k / 64 < 4
  · rw [if_pos hw, BitVec.getLsbD_or, Words.getLsbD_bool_shiftLeft _ _ _ hj, Words.bit, hw.1]
    congr 3
    simp only [eq_iff_iff]
    omega
  · rw [if_neg hw, Words.bit]
    have : ¬ (k = j ∧ k < 256) := by omega
    simp [this]

/-- The digit at a position counted from the right. -/
def digitAt (digits : List Char) (k : ℕ) : Option Char := digits.reverse[k]?

theorem digitAt_cons (c : Char) (rest : List Char) (k : ℕ) :
    digitAt (c :: rest) k = if k = rest.length then some c else digitAt rest k := by
  rw [digitAt, List.reverse_cons, digitAt]
  by_cases hk : k < rest.length
  · rw [List.getElem?_append_left (by simpa using hk), if_neg (by omega)]
  · by_cases hk' : k = rest.length
    · subst hk'
      simp
    · rw [if_neg hk', List.getElem?_append_right (by simp; omega),
        List.getElem?_eq_none (by simp; omega), List.getElem?_eq_none (by simp; omega)]

theorem bit_placeBits : ∀ (digits : List Char) (ws : SimWords) (k : ℕ), (placeBits digits ws).bit k =
    (ws.bit k || (decide (digitAt digits k = some '1') && decide (k < 256)))
  | [], ws, k => by simp [placeBits, digitAt]
  | c :: rest, ws, k => by
      have hone := bit_orAt_bool ws rest.length k (decide (c = '1'))
      simp only [decide_eq_true_eq] at hone
      rw [placeBits, bit_placeBits rest, hone, digitAt_cons]
      by_cases hk : k = rest.length
      · subst hk
        have hnone : digitAt rest rest.length = none := by simp [digitAt]
        rw [if_pos rfl, hnone]
        by_cases hc : c = '1' <;> simp [hc]
      · simp [hk]

/-- The number that hexadecimal digits denote. -/
def hexValue : List Char → ℕ
  | [] => 0
  | c :: rest => 2 ^ (4 * rest.length) * (hexDigit c).getD 0 + hexValue rest

theorem hexDigit_lt {c : Char} : (hexDigit c).getD 0 < 16 := by
  rw [hexDigit]
  split
  · rename_i h
    have h9 : c.toNat ≤ 57 := h.2
    simp only [Option.getD_some]
    omega
  · split
    · rename_i h
      have hf : c.toNat ≤ 102 := h.2
      simp only [Option.getD_some]
      omega
    · split
      · rename_i h
        have hF : c.toNat ≤ 70 := h.2
        simp only [Option.getD_some]
        omega
      · decide

theorem hexValue_lt : ∀ digits : List Char, hexValue digits < 2 ^ (4 * digits.length)
  | [] => by simp [hexValue]
  | c :: rest => by
      have hrest := hexValue_lt rest
      have hc := @hexDigit_lt c
      rw [hexValue, List.length_cons, Nat.mul_add, Nat.pow_add]
      have hmul : 2 ^ (4 * rest.length) * (hexDigit c).getD 0 ≤ 2 ^ (4 * rest.length) * 15 :=
        Nat.mul_le_mul_left _ (by omega)
      omega

theorem bit_orAt_nibble (ws : SimWords) (n k : ℕ) {v : ℕ} (hv : v < 16) :
    (orAt ws (n * 4) (BitVec.ofNat 64 v)).bit k =
      (ws.bit k || (decide (k < 256) && (decide (4 * n ≤ k) && v.testBit (k - 4 * n)))) := by
  rw [Words.bit, orAt, Words.get_set]
  by_cases hw : k / 64 = n * 4 / 64 ∧ k / 64 < 4
  · have hlt : k % 64 < 64 := Nat.mod_lt _ (by decide)
    have h256 : k < 256 := by omega
    rw [if_pos hw, BitVec.getLsbD_or, BitVec.getLsbD_shiftLeft, BitVec.getLsbD_ofNat, Words.bit, hw.1]
    by_cases hle : 4 * n ≤ k
    · have hsub : k % 64 - n * 4 % 64 = k - 4 * n := by omega
      have hge : ¬ k % 64 < n * 4 % 64 := by omega
      have hsmall : k - 4 * n < 64 := by omega
      simp [hsub, hge, hlt, h256, hle, hsmall]
    · have hless : k % 64 < n * 4 % 64 := by omega
      simp [hless, hle]
  · rw [if_neg hw, Words.bit]
    by_cases hle : 4 * n ≤ k ∧ k < 256
    · have hbig : v.testBit (k - 4 * n) = false :=
        Nat.testBit_lt_two_pow (lt_of_lt_of_le hv (by
          have : 4 ≤ k - 4 * n := by omega
          exact (by decide : 16 = 2 ^ 4) ▸ Nat.pow_le_pow_right (by decide) this))
      simp [hbig]
    · by_cases h1 : 4 * n ≤ k
      · have : ¬ k < 256 := by omega
        simp [this]
      · simp [h1]

theorem bit_placeNibbles : ∀ (digits : List Char) (ws : SimWords) (k : ℕ),
    (placeNibbles digits ws).bit k =
      (ws.bit k || (decide (k < 256) && (hexValue digits).testBit k))
  | [], ws, k => by simp [placeNibbles, hexValue]
  | c :: rest, ws, k => by
      rw [placeNibbles, bit_placeNibbles rest, bit_orAt_nibble _ _ _ hexDigit_lt, hexValue,
        Nat.testBit_two_pow_mul_add _ (hexValue_lt rest)]
      by_cases hk : k < 4 * rest.length
      · have : ¬ 4 * rest.length ≤ k := by omega
        simp [hk, this]
      · have hz : (hexValue rest).testBit k = false := Nat.testBit_lt_two_pow
          (lt_of_lt_of_le (hexValue_lt rest) (Nat.pow_le_pow_right (by decide) (by omega)))
        have : 4 * rest.length ≤ k := by omega
        simp [hk, this, hz]

/-- The number that decimal digits denote, after some leading value. -/
def decValue (digits : List Char) (acc : ℕ) : ℕ :=
  digits.foldl (fun acc c => acc * 10 + decimalDigit c) acc

theorem decimalValue_eq : ∀ (digits : List Char) (acc : ℕ), (∀ c ∈ digits, c.isDigit = true) →
    decimalValue digits (BitVec.ofNat 64 acc) = some (BitVec.ofNat 64 (decValue digits acc))
  | [], _, _ => rfl
  | c :: rest, acc, h => by
      have hc : (!c.isDigit) = false := by simp [h c (.head _)]
      rw [decimalValue, hc, if_neg Bool.false_ne_true,
        show BitVec.ofNat 64 acc * 10 + BitVec.ofNat 64 (decimalDigit c) =
          BitVec.ofNat 64 (acc * 10 + decimalDigit c) by
            rw [BitVec.ofNat_add, BitVec.ofNat_mul]; rfl,
        decimalValue_eq rest _ fun d hd => h d (.tail _ hd)]
      rfl

/-! ## Patterns -/

/-- A bit of a literal as the language reads it. -/
inductive PatternBit where

  | known (b : Bool)

  | x

  | z
  deriving DecidableEq

/-- A known bit agrees with a pattern bit; `x` agrees with both, `z` with none. -/
def PatternBit.Allows : PatternBit → Bool → Prop
  | .known b', b => b = b'
  | .x, _ => True
  | .z, _ => False

instance : (p : PatternBit) → (b : Bool) → Decidable (p.Allows b)
  | .known b', b => inferInstanceAs (Decidable (b = b'))
  | .x, _ => .isTrue trivial
  | .z, _ => .isFalse id

def digitBit (c : Char) : PatternBit :=
  if c = '0' then .known false
  else if c = '1' then .known true
  else if c = 'x' ∨ c = 'X' then .x
  else .z

/-- Above the digits a leading `x` or `z` is repeated, anything else is followed by zeros. -/
def binPatternBit (digits : List Char) (k : ℕ) : PatternBit :=
  match digitAt digits k with
  | some c => digitBit c
  | none =>
    match digits.head? with
    | some c => if digitBit c = .known true then .known false else digitBit c
    | none => .known false

def literalPattern (base : JZNumericBase) (value : List Char) (k : ℕ) : PatternBit :=
  let digits := value.filter (!isSeparator ·)
  match base with
  | .bin => binPatternBit digits k
  | .hex => .known ((hexValue digits).testBit k)
  | .dec => .known ((decValue digits 0).testBit k)

/-- The width, the base and the digits of a sized literal. -/
def literalParts (text : List Char) : Option (List Char × JZNumericBase × List Char) :=
  match text.span (· ≠ tick) with
  | (width, _ :: baseCh :: value) => (numericBase baseCh).map fun base => (width, base, value)
  | _ => none

/-- A known value equals the literal on every bit that is not `x`. -/
def PatternMatches (text : List Char) (v : SimValue) : Prop :=
  ∃ p ∈ literalParts text, ∀ k < v.width, (literalPattern p.2.1 p.2.2 k).Allows (v.val.bit k)

instance (text : List Char) (v : SimValue) : Decidable (PatternMatches text v) :=
  inferInstanceAs (Decidable (∃ p ∈ literalParts text, _))

/-- The value that the simulator compares a selector with. -/
def caseLiteral (evalConst : List Char → Option ℕ) (inferred : ℕ) (text : List Char) : SimValue :=
  match irDecodeSizedLiteral evalConst text with
  | some lit => evalLiteral lit (if inferred = 0 then lit.width else inferred)
  | none => evalLiteral ⟨.zero, inferred, false⟩ inferred

/-- The simulator's test of a selector against a case. -/
def LiteralEquals (evalConst : List Char → Option ℕ) (inferred : ℕ) (text : List Char)
    (v : SimValue) : Prop :=
  simValIsTrue (simValEq v (caseLiteral evalConst inferred text)) = some true

instance (evalConst : List Char → Option ℕ) (inferred : ℕ) (text : List Char) (v : SimValue) :
    Decidable (LiteralEquals evalConst inferred text v) :=
  inferInstanceAs (Decidable (_ = _))

theorem simEvalExpr_irBuildLiteral (m : IRModule) (s : CtxState)
    (evalConst : List Char → Option ℕ) (inferred : ℕ) (text : List Char) :
    simEvalExpr m s (irBuildLiteral evalConst inferred text) = caseLiteral evalConst inferred text := by
  rw [irBuildLiteral, caseLiteral]
  cases irDecodeSizedLiteral evalConst text <;> rfl

def ValidDigit : JZNumericBase → Char → Prop
  | .bin, c => c ∈ ['0', '1', 'x', 'X', 'z', 'Z']
  | .hex, c => (hexDigit c).isSome
  | .dec, c => c.isDigit

/-- A literal of a given width that decodes digit by digit. -/
structure PlainLiteral (evalConst : List Char → Option ℕ) (text : List Char)
    (base : JZNumericBase) (value : List Char) (w : ℕ) : Prop where

  parts : ∃ width baseCh, text = width ++ tick :: baseCh :: value ∧ tick ∉ width ∧
    numericBase baseCh = some base ∧ width ≠ [] ∧ width.length < 32 ∧
    (parseSimplePositiveInt width).or ((evalConst width).filter (0 < ·)) = some w

  positive : 0 < w

  fits : w ≤ 256

  digits : ∀ c ∈ value, c = '_' ∨ ValidDigit base c

  nonempty : value.filter (!isSeparator ·) ≠ []

  clean : (trimTrailing value).take 255 = value

  accepted : (jzLiteralAnalyze base value w).isSome

  decimal : base = .dec → decValue (value.filter (!isSeparator ·)) 0 < 2 ^ min w 64

theorem span_tick {width rest : List Char} (h : tick ∉ width) :
    (width ++ tick :: rest).span (· ≠ tick) = (width, tick :: rest) := by
  rw [List.span_eq_takeWhile_dropWhile]
  have hall : ∀ c ∈ width, decide (c ≠ tick) = true := by
    intro c hc
    simpa using fun heq : c = tick => h (heq ▸ hc)
  rw [List.takeWhile_append_of_pos hall, List.dropWhile_append_of_pos hall]
  simp

section

variable {evalConst : List Char → Option ℕ} {text value : List Char} {base : JZNumericBase}
  {w inferred : ℕ} {v : SimValue}

theorem digitAt_mem {digits : List Char} {k : ℕ} {c : Char} (h : digitAt digits k = some c) :
    c ∈ digits := List.mem_reverse.mp (List.mem_of_getElem? h)

theorem exists_digitAt {digits : List Char} {c : Char} (h : c ∈ digits) :
    ∃ k < digits.length, digitAt digits k = some c := by
  obtain ⟨k, hk, hget⟩ := List.mem_iff_getElem.mp (List.mem_reverse.mpr h)
  exact ⟨k, by simpa using hk, by rw [digitAt, List.getElem?_eq_getElem hk, hget]⟩

theorem digitBit_eq_true_iff {c : Char} : digitBit c = .known true ↔ c = '1' := by
  rw [digitBit]
  split
  · rename_i h; subst h; decide
  · split
    · rename_i h; simp [h]
    · rename_i h; split <;> simp [h]

theorem knownBin_of_digitBit {c : Char} (h : digitBit c ≠ .z) : knownBin c = true := by
  rw [digitBit] at h
  by_cases h0 : c = '0'
  · simp [knownBin, h0]
  by_cases h1 : c = '1'
  · simp [knownBin, h1]
  by_cases hx : c = 'x' ∨ c = 'X'
  · rcases hx with hx | hx <;> simp [knownBin, hx]
  · simp [h0, h1, hx] at h

theorem digitBit_of_knownBin {c : Char} (h : knownBin c = true) : digitBit c ≠ .z := by
  simp only [knownBin, Bool.or_eq_true, beq_iff_eq] at h
  rcases h with ((h | h) | h) | h <;> subst h <;> decide

theorem binPatternBit_eq_true_iff {digits : List Char} {k : ℕ} :
    binPatternBit digits k = .known true ↔ digitAt digits k = some '1' := by
  rw [binPatternBit]
  cases digitAt digits k with
  | some c => simp [digitBit_eq_true_iff]
  | none =>
    cases digits.head? with
    | none => simp
    | some c =>
      simp only
      split <;> simp_all

/-- A binary literal is all `z` when each of its digits is. -/
theorem binPatternBit_z_iff {digits : List Char} {w : ℕ} (hne : digits ≠ [])
    (hw : digits.length ≤ w) :
    allZ knownBin digits = true ↔ ∀ k < w, binPatternBit digits k = .z := by
  have hall : allZ knownBin digits = true ↔ ∀ c ∈ digits, knownBin c = false := by
    simp [allZ, hne]
  rw [hall]
  constructor
  · intro h k _
    have hz : ∀ c ∈ digits, digitBit c = .z := fun c hc => by
      by_contra hne
      have := knownBin_of_digitBit hne
      rw [h c hc] at this
      cases this
    rw [binPatternBit]
    cases hd : digitAt digits k with
    | some c => exact hz c (digitAt_mem hd)
    | none =>
      cases digits with
      | nil => exact absurd rfl hne
      | cons c rest => simp [hz c (.head _)]
  · intro h c hc
    obtain ⟨k, hk, hd⟩ := exists_digitAt hc
    have hz := h k (by omega)
    rw [binPatternBit, hd] at hz
    by_contra hknown
    exact digitBit_of_knownBin (by simpa using hknown) hz

theorem ValidDigit.not_separator {c : Char} (h : ValidDigit base c) : isSeparator c = false := by
  by_contra hsep
  simp only [isSeparator, Char.isWhitespace, Bool.not_eq_false, Bool.or_eq_true, beq_iff_eq,
    decide_eq_true_eq] at hsep
  rcases hsep with rfl | ((rfl | rfl) | rfl) | rfl <;> cases base <;> revert h <;>
    simp only [ValidDigit] <;> decide

theorem bit_set_zero (u : Word) (k : ℕ) :
    (Words.set .zero 0 u : SimWords).bit k = (decide (k < 64) && u.getLsbD k) := by
  rw [Words.bit, Words.get_set]
  by_cases hk : k < 64
  · have h0 : k / 64 = 0 := by omega
    have hm : k % 64 = k := by omega
    simp [h0, hm, hk]
  · have h0 : ¬ k / 64 = 0 := by omega
    simp [h0, hk]

theorem PlainLiteral.filter_eq (h : PlainLiteral evalConst text base value w) :
    value.filter (!isSeparator ·) = value.filter (· ≠ '_') := by
  refine List.filter_congr fun c hc => ?_
  rcases h.digits c hc with rfl | hv
  · decide
  · have hne : c ≠ '_' := by
      rintro rfl
      exact absurd hv.not_separator (by decide)
    simp [hv.not_separator, hne]

theorem PlainLiteral.valid (h : PlainLiteral evalConst text base value w) :
    ∀ c ∈ value.filter (!isSeparator ·), ValidDigit base c := by
  intro c hc
  obtain ⟨hmem, hsep⟩ := List.mem_filter.mp hc
  refine (h.digits c hmem).resolve_left ?_
  rintro rfl
  exact absurd hsep (by decide)

/-- The words of a plain literal are its digits with `x` and `z` read as 0. -/
theorem PlainLiteral.decodeDigits (h : PlainLiteral evalConst text base value w) :
    ∃ words isZ, JzHdl.decodeDigits base value value (some w) = some (words, isZ) ∧
      (isZ = true ↔ ∀ k < w, literalPattern base value k = .z) ∧
      ∀ k < w, words.bit k = decide (literalPattern base value k = .known true) := by
  have hfits := h.fits
  have hpos := h.positive
  have hvalid := h.valid
  cases base with
  | bin =>
    refine ⟨_, _, rfl, binPatternBit_z_iff h.nonempty ?_, fun k hk => ?_⟩
    · have hacc := h.accepted
      rw [jzLiteralAnalyze, if_neg (by omega)] at hacc
      rw [h.filter_eq]
      by_contra hlt
      simp only [ne_eq, not_true_eq_false, false_and, if_false, countDigitsNoUnderscore] at hacc
      rw [if_pos (by simpa using hlt)] at hacc
      cases hacc
    · have : k < 256 := by omega
      rw [bit_placeBits]
      simp [literalPattern, binPatternBit_eq_true_iff, this]
  | hex =>
    refine ⟨_, _, rfl, ?_, fun k hk => ?_⟩
    · obtain ⟨c, hc⟩ := List.exists_mem_of_ne_nil _ h.nonempty
      have hknown : knownHex c = true := by
        have := hvalid c hc
        simp only [ValidDigit] at this
        simp [knownHex, this]
      constructor
      · intro hz
        simp only [allZ, Bool.and_eq_true, List.all_eq_true, Bool.not_eq_true'] at hz
        rw [hz.2 c hc] at hknown
        cases hknown
      · intro hz
        have := hz 0 hpos
        simp [literalPattern] at this
    · have : k < 256 := by omega
      rw [bit_placeNibbles]
      simp [literalPattern, this]
  | dec =>
    have hval := decimalValue_eq (value.filter (!isSeparator ·)) 0 hvalid
    have hlt := h.decimal rfl
    rw [JzHdl.decodeDigits]
    have hz : (BitVec.ofNat 64 0) = 0 := rfl
    rw [hz] at hval
    simp only [hval, Option.map_some]
    refine ⟨_, _, rfl, ?_, fun k hk => ?_⟩
    · constructor
      · intro hf; cases hf
      · intro hz
        have := hz 0 hpos
        simp [literalPattern] at this
    · rw [bit_set_zero]
      have hbig : 64 ≤ k → (decValue (value.filter (!isSeparator ·)) 0).testBit k = false :=
        fun h64 => Nat.testBit_lt_two_pow
          (lt_of_lt_of_le hlt (Nat.pow_le_pow_right (by decide) (by omega)))
      by_cases hk64 : k < 64
      · by_cases hw : w < 64
        · rw [if_pos hw, BitVec.getLsbD_and, getLsbD_low_ones hw, BitVec.getLsbD_ofNat]
          simp [literalPattern, hk64, hk]
        · rw [if_neg hw, BitVec.getLsbD_ofNat]
          simp [literalPattern, hk64]
      · simp [literalPattern, hk64, hbig (by omega)]

theorem PlainLiteral.decode (h : PlainLiteral evalConst text base value w) :
    ∃ lit, irDecodeSizedLiteral evalConst text = some lit ∧ lit.width = w ∧
      (lit.isZ = true ↔ ∀ k < w, literalPattern base value k = .z) ∧
      ∀ k < w, lit.words.bit k = decide (literalPattern base value k = .known true) := by
  obtain ⟨width, baseCh, rfl, htick, hbase, hne, hlen, hw⟩ := h.parts
  obtain ⟨words, isZ, hdec, hz, hbits⟩ := h.decodeDigits
  have hvalue : value ≠ [] := by
    rintro rfl
    exact h.nonempty rfl
  refine ⟨⟨words, w, isZ⟩, ?_, rfl, hz, hbits⟩
  rw [irDecodeSizedLiteral, span_tick htick]
  have hguard : ¬ (width = [] ∨ 32 ≤ width.length) := by
    rw [not_or]
    exact ⟨hne, by omega⟩
  simp only [if_neg hguard, hw, hbase, if_neg hvalue, h.clean, h.accepted, if_true, hdec,
    Option.map_some, Option.getD_some]

theorem evalLiteral_of_pos {lit : IRLiteral} (hpos : 0 < lit.width) (w : ℕ) : evalLiteral lit w =
    if lit.isZ then simValAllZ lit.width else simValFromWords lit.words lit.width := by
  have hne : ¬ (if lit.isZ then simValAllZ lit.width else
      simValFromWords lit.words lit.width).width = 0 := by
    have h1 : (simValAllZ lit.width).width = lit.width := rfl
    have h2 : (simValFromWords lit.words lit.width).width = lit.width := rfl
    split <;> omega
  simp only [evalLiteral]
  exact if_neg hne

/-- The simulator compares a known selector with the digits of a plain literal, `x` and `z` read
as 0, unless all of them are `z`. -/
theorem PlainLiteral.equals_iff (h : PlainLiteral evalConst text base value w) (hv : v.width = w)
    (hk : simValHasXz v = false) : LiteralEquals evalConst inferred text v ↔
      (∃ k < w, literalPattern base value k ≠ .z) ∧
        ∀ k < w, v.val.bit k = decide (literalPattern base value k = .known true) := by
  obtain ⟨lit, hdec, hlw, hz, hbits⟩ := h.decode
  have hpos := h.positive
  have hfits := h.fits
  have hzx : lit.isZ = false ↔ ∃ k < w, literalPattern base value k ≠ .z := by
    rw [← Bool.not_eq_true, hz]
    push Not
    rfl
  rw [LiteralEquals, caseLiteral, hdec, simValEq_isTrue_iff, ← hzx]
  simp only [evalLiteral_of_pos (hlw ▸ hpos : 0 < lit.width)]
  cases hb : lit.isZ with
  | true =>
    simp only [if_true]
    constructor
    · rintro ⟨-, hx, -⟩
      have hbit := (simValHasXz_eq_false hx (k := 0) (by simp only [simValAllZ]; omega)).2
      simp only [simValAllZ] at hbit
      rw [bit_widthOnes (by omega), hlw] at hbit
      simp [hpos] at hbit
    · rintro ⟨hf, -⟩
      cases hf
  | false =>
    have hknown : simValHasXz (simValFromWords lit.words lit.width) = false := by
      rw [← Bool.not_eq_true, simValHasXz_iff]
      rintro ⟨k, -, hx⟩
      simp [simValFromWords, simValMask, bit_maskWords] at hx
    simp only [Bool.false_eq_true, if_false]
    have hwidth : max v.width (simValFromWords lit.words lit.width).width = w := by
      simp only [simValFromWords, width_simValMask, hlw, hv, max_self]
    rw [hwidth]
    have hread : ∀ k < w, (simValFromWords lit.words lit.width).val.bit k =
        decide (literalPattern base value k = .known true) := by
      intro k hkw
      simp only [simValFromWords, simValMask, bit_maskWords, hlw, hbits k hkw, hkw, decide_true,
        Bool.true_and]
    constructor
    · rintro ⟨-, -, hall⟩
      exact ⟨trivial, fun k hkw => (hall k hkw).trans (hread k hkw)⟩
    · rintro ⟨-, hall⟩
      exact ⟨hk, hknown, fun k hkw => (hall k hkw).trans (hread k hkw).symm⟩

theorem PlainLiteral.literalParts (h : PlainLiteral evalConst text base value w) :
    ∃ width, JzHdl.literalParts text = some (width, base, value) := by
  obtain ⟨width, baseCh, rfl, htick, hbase, -⟩ := h.parts
  refine ⟨width, ?_⟩
  rw [JzHdl.literalParts, span_tick htick]
  simp only [hbase, Option.map_some]

/-- The literal `4'b10x1`. -/
theorem plainLiteral_x :
    PlainLiteral (fun _ => none) "4'b10x1".toList .bin "10x1".toList 4 where
  parts := ⟨['4'], 'b', rfl, by decide, rfl, by decide, by decide, rfl⟩
  positive := by decide
  fits := by decide
  digits := by simp [ValidDigit]
  nonempty := by decide
  clean := by decide
  accepted := by decide
  decimal h := by cases h

end

end JzHdl

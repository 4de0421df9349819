import JzHdl.Ir.LiteralValue
import JzHdl.Sem.Exclusive
import JzHdl.Sim.Arithmetic

/-! # Printed values

A value printed as a sized hexadecimal literal into a buffer, and what the
testbench reader makes of the text.
-/

namespace JzHdl

open BitWords

/-! ## Printing -/

/-- One hexadecimal place of a value, with `x`, `z` and `X` for unknown places. -/
def nibbleChar (v : SimValue) (i : ℕ) : Char :=
  let wi := i * 4 / 64
  let bi := i * 4 % 64
  let nibble (ws : SimWords) : Word :=
    let low := (ws.get wi >>> bi) &&& 0xF
    if 60 < bi then low ||| ((ws.get (wi + 1) <<< (64 - bi)) &&& 0xF) else low
  if nibble v.xmask = 0xF then 'x'
  else if nibble v.zmask = 0xF then 'z'
  else if nibble v.xmask ≠ 0 ∨ nibble v.zmask ≠ 0 then 'X'
  else Nat.digitChar (nibble v.val).toNat

def nibbleCount (w : ℕ) : ℕ := if (w + 3) / 4 = 0 then 1 else (w + 3) / 4

/-- `sim_val_to_hex`: as many places as the buffer holds, the highest first. -/
def simValToHex (v : SimValue) (buflen : ℕ) : List Char :=
  if buflen < 2 then []
  else ((List.range (nibbleCount v.width)).reverse.map (nibbleChar v)).take (buflen - 1)

/-- `sim_val_format_literal`: the text that fits the buffer with its terminator. -/
def simValFormatLiteral (v : SimValue) (buflen : ℕ) : List Char :=
  (Nat.toDigits 10 v.width ++ tick :: 'h' :: simValToHex v 80).take (buflen - 1)

/-! ## Reading -/

/-- The sign and the magnitude of the number that a text begins with. -/
def signedPrefix (text : List Char) : Bool × ℕ :=
  let body := text.dropWhile isSpace
  let sign := body.head?
  let rest := if sign = some '-' ∨ sign = some '+' then body.tail else body
  (sign = some '-', decValue (rest.takeWhile Char.isDigit) 0)

def strtolPrefix (text : List Char) : ℤ :=
  clampLong (if (signedPrefix text).1 then -(signedPrefix text).2 else (signedPrefix text).2)

def strtoulPrefix (text : List Char) : ℕ :=
  if 2 ^ 64 ≤ (signedPrefix text).2 then 2 ^ 64 - 1
  else if (signedPrefix text).1 then (2 ^ 64 - (signedPrefix text).2) % 2 ^ 64
  else (signedPrefix text).2

/-- The `int` that a `long` is cast to. -/
def castInt (v : ℤ) : ℤ := Int.bmod v (2 ^ 32)

def literalWidth (text : List Char) : ℕ :=
  let width := castInt (strtolPrefix text)
  if width ≤ 0 then 1 else min width.toNat (simValWords * 64)

def hasZDigit (digits : List Char) : Bool := digits.any fun c => c == 'z' || c == 'Z'

/-- `parse_literal_to_simval`. -/
def parseLiteralToSimval (text : List Char) : SimValue :=
  match text.dropWhile (· ≠ tick) with
  | [] => simValFromUint (BitVec.ofNat 64 (strtoulPrefix text)) 32
  | _ :: rest =>
    let width := literalWidth text
    let digits := literalDigits rest.tail
    match rest.head?.bind numericBase with
    | some .bin =>
      if hasZDigit digits then simValAllZ width
      else simValFromWords (placeBits digits .zero) width
    | some .hex =>
      if hasZDigit digits then simValAllZ width
      else simValFromWords (placeNibbles digits .zero) width
    | some .dec =>
      simValFromWords (Words.set .zero 0 (BitVec.ofNat 64 (strtoulPrefix rest.tail))) width
    | none => simValFromWords .zero width

/-! ## Places -/

section

variable {v : SimValue} {w : ℕ}

theorem toNat_nibble (ws : SimWords) (i : ℕ) :
    ((ws.get (i * 4 / 64) >>> (i * 4 % 64)) &&& (0xF : Word)).toNat =
      ws.toNat / 2 ^ (4 * i) % 2 ^ 4 := by
  rw [BitVec.toNat_and, show (0xF : Word).toNat = 2 ^ 4 - 1 from rfl,
    Nat.and_two_pow_sub_one_eq_mod, BitVec.toNat_ushiftRight, Nat.shiftRight_eq_div_pow]
  refine Nat.eq_of_testBit_eq fun j => ?_
  rw [Nat.testBit_mod_two_pow, Nat.testBit_mod_two_pow, Nat.testBit_div_two_pow,
    Nat.testBit_div_two_pow, Words.testBit_toNat]
  by_cases hj : j < 4
  · have hget := Words.getLsbD_get ws (i * 4 / 64) (j := j + i * 4 % 64) (by omega)
    rw [show 64 * (i * 4 / 64) + (j + i * 4 % 64) = j + 4 * i by omega] at hget
    rw [← hget]
    rfl
  · simp [hj]

theorem nibbleChar_known (h : v.Known w) (i : ℕ) :
    nibbleChar v i = Nat.digitChar (v.val.toNat / 2 ^ (4 * i) % 2 ^ 4) := by
  have hbi : ¬ 60 < i * 4 % 64 := by omega
  have hzero : ((Words.zero : SimWords).get (i * 4 / 64) >>> (i * 4 % 64)) &&& (0xF : Word) = 0 := by
    rw [Words.get_zero]
    simp
  rw [nibbleChar]
  simp only [if_neg hbi, h.xmask, h.zmask, hzero, toNat_nibble]
  rw [if_neg (by decide), if_neg (by decide), if_neg (by simp)]

theorem hexDigit_digitChar {n : ℕ} (hn : n < 2 ^ 4) : hexDigit (Nat.digitChar n) = some n := by
  have hall : ∀ n < 2 ^ 4, hexDigit (Nat.digitChar n) = some n := by decide
  exact hall n hn

/-- The places from one position upwards denote the number from there on. -/
theorem hexValue_places (h : v.Known w) (lo : ℕ) : ∀ n,
    hexValue ((List.range' lo n).reverse.map (nibbleChar v)) =
      v.val.toNat / 2 ^ (4 * lo) % 2 ^ (4 * n)
  | 0 => by simp [hexValue, Nat.mod_one]
  | n + 1 => by
      rw [List.range'_concat, List.reverse_append, List.reverse_singleton, List.singleton_append,
        List.map_cons, hexValue, hexValue_places h lo n, nibbleChar_known h, Nat.one_mul,
        hexDigit_digitChar (Nat.mod_lt _ (Nat.two_pow_pos _)), Option.getD_some, List.length_map,
        List.length_reverse, List.length_range', Nat.mul_succ 4 n, Nat.pow_add, Nat.mod_mul,
        Nat.div_div_eq_div_mul, ← Nat.pow_add, ← Nat.mul_add]
      omega

end

/-! ## Reading a printed text -/

theorem simValEqual_known {a b : SimValue} {wa wb : ℕ} (ha : a.Known wa) (hb : b.Known wb) :
    simValEqual a b = true ↔ wa = wb ∧ a.val.toNat = b.val.toNat := by
  rw [simValEqual, Bool.and_eq_true, beq_iff_eq, ha.width, hb.width, ha.xmask, ha.zmask, hb.xmask,
    hb.zmask]
  simp only [beq_self_eq_true, Bool.and_true]
  refine and_congr_right fun hw => ?_
  subst hw
  have hagree := wordsAgree_iff_mod (a := a) (b := b) (w := wa)
  rw [Nat.mod_eq_of_lt ha.lt, Nat.mod_eq_of_lt hb.lt] at hagree
  exact hagree

/-- The text of a width, read back from in front of anything that does not go on with a digit. -/
theorem signedPrefix_toDigits (w : ℕ) {n : ℕ} {rest : List Char} (hn : 0 < n)
    (hrest : ∀ c ∈ rest.head?, c.isDigit = false) :
    signedPrefix ((Nat.toDigits 10 w).take n ++ rest) =
      (false, decValue ((Nat.toDigits 10 w).take n) 0) := by
  have hdigits : ∀ c ∈ (Nat.toDigits 10 w).take n, c.isDigit = true := fun c hc =>
    Nat.isDigit_of_mem_toDigits (by decide) (by decide) (List.mem_of_mem_take hc)
  obtain ⟨c, l, hcl⟩ : ∃ c l, (Nat.toDigits 10 w).take n = c :: l := by
    refine List.exists_cons_of_ne_nil ?_
    rw [ne_eq, List.take_eq_nil_iff, not_or]
    exact ⟨by omega, Nat.toDigits_ne_nil⟩
  rw [hcl] at hdigits ⊢
  have hc := hdigits c (List.mem_cons_self ..)
  have hsign : c ≠ '-' ∧ c ≠ '+' := by
    constructor <;> (rintro rfl; exact absurd hc (by decide))
  have htake : ((c :: l) ++ rest).takeWhile Char.isDigit = c :: l := by
    rw [List.takeWhile_append_of_pos hdigits]
    cases rest with
    | nil => simp
    | cons d rest => rw [List.takeWhile_cons_of_neg (by simp [hrest d rfl]), List.append_nil]
  have hbody : ((c :: l) ++ rest).dropWhile isSpace = (c :: l) ++ rest := by
    rw [List.cons_append, List.dropWhile_cons_of_neg (by simp [(not_isSpace_of_isDigit hc).1])]
  rw [signedPrefix]
  simp only [hbody]
  rw [List.cons_append, List.head?_cons]
  simp only [Option.some.injEq, hsign.1, hsign.2, or_self, if_false, decide_false]
  rw [← List.cons_append, htake]

theorem decValue_eq_ofDigitChars : ∀ (digits : List Char) (acc : ℕ),
    decValue digits acc = Nat.ofDigitChars 10 digits acc
  | [], acc => by rw [Nat.ofDigitChars_nil, decValue, List.foldl_nil]
  | c :: rest, acc => by
      rw [decValue_cons, decValue_eq_ofDigitChars rest, Nat.ofDigitChars_cons, decimalDigit,
        Nat.mul_comm]
      rfl

theorem decValue_toDigits (n : ℕ) : decValue (Nat.toDigits 10 n) 0 = n := by
  rw [decValue_eq_ofDigitChars, Nat.ofDigitChars_ten_toDigits]

theorem literalWidth_eq {w : ℕ} (hpos : 0 < w) (hw : w ≤ 256) {rest : List Char}
    (hrest : ∀ c ∈ rest.head?, c.isDigit = false) :
    literalWidth (Nat.toDigits 10 w ++ rest) = w := by
  have hsigned := signedPrefix_toDigits w (n := (Nat.toDigits 10 w).length)
    Nat.length_toDigits_pos hrest
  rw [List.take_length, decValue_toDigits] at hsigned
  have hclamp : clampLong (w : ℤ) = w := by rw [clampLong]; omega
  have hint : castInt (w : ℤ) = w := by
    rw [castInt]
    exact Int.bmod_eq_of_le (by omega) (by omega)
  rw [literalWidth, strtolPrefix, hsigned]
  simp only [Bool.false_eq_true, if_false, hclamp, hint]
  rw [if_neg (by omega), Int.toNat_natCast]
  exact min_eq_left hw

theorem dropWhile_toDigits (w n : ℕ) (rest : List Char) :
    ((Nat.toDigits 10 w).take n ++ rest).dropWhile (· ≠ tick) = rest.dropWhile (· ≠ tick) := by
  refine List.dropWhile_append_of_pos fun c hc => ?_
  have hdigit := Nat.isDigit_of_mem_toDigits (by decide) (by decide) (List.mem_of_mem_take hc)
  have hne : c ≠ tick := by
    rintro rfl
    exact absurd hdigit (by decide)
  simpa using hne

section

variable {v : SimValue} {w : ℕ}

theorem simValFromWords_known (ws : SimWords) (w : ℕ) : (simValFromWords ws w).Known w ∧
    (simValFromWords ws w).val.toNat = ws.toNat % 2 ^ w := by
  have hzero : maskWords w .zero = .zero := Words.ext_bit fun k => by rw [bit_maskWords]; simp
  have hval : (simValFromWords ws w).val.toNat = ws.toNat % 2 ^ w := toNat_maskWords w ws
  refine ⟨⟨rfl, hzero, hzero, ?_⟩, hval⟩
  rw [hval]
  exact Nat.mod_lt _ (Nat.two_pow_pos w)

theorem length_simValToHex (hw : v.width ≤ 256) :
    simValToHex v 80 = (List.range (nibbleCount v.width)).reverse.map (nibbleChar v) := by
  rw [simValToHex, if_neg (by decide)]
  refine List.take_of_length_le ?_
  rw [List.length_map, List.length_reverse, List.length_range, nibbleCount]
  split <;> omega

theorem take_range_reverse {N k : ℕ} (hk : k ≤ N) :
    (List.range N).reverse.take k = (List.range' (N - k) k).reverse := by
  rw [List.take_reverse, List.length_range, List.range_eq_range', List.drop_range']
  congr 2 <;> omega

/-- The first places of a printed value denote its high part. -/
theorem hexValue_take_hex (h : v.Known w) (hw : w ≤ 256) (k : ℕ) :
    hexValue ((simValToHex v 80).take k) =
      v.val.toNat / 2 ^ (4 * (nibbleCount w - min k (nibbleCount w))) := by
  have hlen : ((List.range (nibbleCount w)).reverse.map (nibbleChar v)).length = nibbleCount w := by
    simp
  have htake : (simValToHex v 80).take k =
      (simValToHex v 80).take (min k (nibbleCount w)) := by
    rw [length_simValToHex (h.width ▸ hw), h.width]
    rcases Nat.le_total k (nibbleCount w) with hk | hk
    · rw [min_eq_left hk]
    · rw [min_eq_right hk, List.take_of_length_le (hlen.trans_le hk),
        List.take_of_length_le hlen.le]
  rw [htake, length_simValToHex (h.width ▸ hw), h.width, ← List.map_take,
    take_range_reverse (min_le_right _ _), hexValue_places h]
  refine Nat.mod_eq_of_lt ?_
  rw [Nat.div_lt_iff_lt_mul (Nat.two_pow_pos _), ← Nat.pow_add]
  refine lt_of_lt_of_le h.lt (Nat.pow_le_pow_right (by decide) ?_)
  rw [nibbleCount]
  split <;> omega

theorem mem_hex (h : v.Known w) (hw : w ≤ 256) {c : Char} (hc : c ∈ simValToHex v 80) :
    (hexDigit c).isSome := by
  rw [length_simValToHex (h.width ▸ hw)] at hc
  obtain ⟨i, -, rfl⟩ := List.mem_map.mp hc
  rw [nibbleChar_known h, hexDigit_digitChar (Nat.mod_lt _ (Nat.two_pow_pos _))]
  rfl

theorem hex_plain {digits : List Char} (h : ∀ c ∈ digits, (hexDigit c).isSome) :
    literalDigits digits = digits ∧ hasZDigit digits = false := by
  have hne : ∀ c ∈ digits, c ≠ '_' ∧ c ≠ 'z' ∧ c ≠ 'Z' := by
    intro c hc
    have hsome := h c hc
    refine ⟨?_, ?_, ?_⟩ <;> (rintro rfl; exact absurd hsome (by decide))
  constructor
  · exact List.filter_eq_self.mpr fun c hc => decide_eq_true (hne c hc).1
  · rw [hasZDigit, List.any_eq_false]
    intro c hc
    simp [(hne c hc).2.1, (hne c hc).2.2]

/-- A printed text that goes beyond its width is read as a value of that width with the digits
that are left. -/
theorem parse_cut (h : v.Known w) (hpos : 0 < w) (hw : w ≤ 256) (m : ℕ) :
    (parseLiteralToSimval (Nat.toDigits 10 w ++ tick :: ('h' :: simValToHex v 80).take m)).Holds w
      (if m = 0 then 0 else hexValue ((simValToHex v 80).take (m - 1))) := by
  have hdrop : (Nat.toDigits 10 w ++ tick :: ('h' :: simValToHex v 80).take m).dropWhile (· ≠ tick) =
      tick :: ('h' :: simValToHex v 80).take m := by
    have happ := dropWhile_toDigits w (Nat.toDigits 10 w).length
      (tick :: ('h' :: simValToHex v 80).take m)
    rw [List.take_length] at happ
    rw [happ, List.dropWhile_cons_of_neg (by simp)]
  have hwidth : literalWidth (Nat.toDigits 10 w ++ tick :: ('h' :: simValToHex v 80).take m) = w := by
    refine literalWidth_eq hpos hw fun c hc => ?_
    obtain rfl : tick = c := by simpa using hc
    decide
  rw [parseLiteralToSimval, hdrop]
  simp only [hwidth]
  cases m with
  | zero =>
    simp only [List.take_zero, List.head?_nil, Option.bind_none, if_true]
    obtain ⟨hknown, hval⟩ := simValFromWords_known .zero w
    exact ⟨hknown, by rw [hval]; simp⟩
  | succ m =>
    have hsome : ∀ c ∈ (simValToHex v 80).take m, (hexDigit c).isSome := fun c hc =>
      mem_hex h hw (List.mem_of_mem_take hc)
    obtain ⟨hdigits, hz⟩ := hex_plain hsome
    have hbase : (some 'h').bind numericBase = some .hex := by decide
    simp only [List.take_succ_cons, List.head?_cons, List.tail_cons, hbase, hdigits, hz,
      Bool.false_eq_true, if_false, Nat.succ_ne_zero, Nat.add_sub_cancel]
    obtain ⟨hknown, hval⟩ := simValFromWords_known (placeNibbles ((simValToHex v 80).take m) .zero) w
    refine ⟨hknown, ?_⟩
    have hle : hexValue ((simValToHex v 80).take m) < 2 ^ w := by
      rw [hexValue_take_hex h hw]
      exact lt_of_le_of_lt (Nat.div_le_self _ _) h.lt
    rw [hval, toNat_placeNibbles, Nat.mod_eq_of_lt (lt_of_lt_of_le hle
      (Nat.pow_le_pow_right (by decide) hw)), Nat.mod_eq_of_lt hle]

/-- A printed text that ends within its width is read as a decimal number. -/
theorem parse_width_only (w : ℕ) {n : ℕ} (hw : w ≤ 256) :
    (parseLiteralToSimval ((Nat.toDigits 10 w).take n)).Holds 32
      (decValue ((Nat.toDigits 10 w).take n) 0) := by
  have hle : decValue ((Nat.toDigits 10 w).take n) 0 ≤ 256 := by
    have happ := decValue_append ((Nat.toDigits 10 w).take n) ((Nat.toDigits 10 w).drop n) 0
    rw [List.take_append_drop, decValue_toDigits] at happ
    exact (le_decValue _ _).trans (happ.symm.trans_le hw)
  have hsigned : signedPrefix ((Nat.toDigits 10 w).take n) =
      (false, decValue ((Nat.toDigits 10 w).take n) 0) := by
    cases n with
    | zero => rw [List.take_zero]; decide
    | succ n =>
      have hend : ∀ c ∈ ([] : List Char).head?, c.isDigit = false := fun c hc => by cases hc
      have hrest := signedPrefix_toDigits w (Nat.succ_pos n) hend
      rwa [List.append_nil] at hrest
  have hdrop := dropWhile_toDigits w n []
  rw [List.append_nil, List.dropWhile_nil] at hdrop
  rw [parseLiteralToSimval, hdrop]
  generalize (Nat.toDigits 10 w).take n = text at hle hsigned ⊢
  have hnum : strtoulPrefix text = decValue text 0 := by
    rw [strtoulPrefix, hsigned, if_neg (by simp only; omega)]
    rfl
  simp only [hnum]
  have hval : (simValFromUint (BitVec.ofNat 64 (decValue text 0)) 32).val.toNat = decValue text 0 := by
    rw [simValFromUint]
    simp only
    rw [toNat_set_zero, if_pos (by decide), if_neg (by decide), BitVec.toNat_and, BitVec.toNat_ofNat,
      show ((1 : Word) <<< 32 - 1).toNat = 2 ^ 32 - 1 from by decide, Nat.and_two_pow_sub_one_eq_mod]
    omega
  exact ⟨⟨rfl, rfl, rfl, by rw [hval]; omega⟩, hval⟩

end

/-- The text that fits the buffer holds every place, or the value is zero, or the text is cut
within its width and happens to be the number itself. -/
def PrintedReadsBack (v : SimValue) (buflen : ℕ) : Prop :=
  if (Nat.toDigits 10 v.width).length + 1 < buflen then
    (Nat.toDigits 10 v.width).length + 2 + nibbleCount v.width < buflen ∨ v.val.toNat = 0
  else v.width = 32 ∧ v.val.toNat = decValue ((Nat.toDigits 10 32).take (buflen - 1)) 0

/-- A printed value reads back as itself just when its digits fit the buffer, but for values that
a cut text still denotes. -/
theorem printed_reads_back_iff {v : SimValue} {w buflen : ℕ} (h : v.Known w) (hpos : 0 < w)
    (hw : w ≤ 256) (hbuf : 0 < buflen) :
    simValEqual (parseLiteralToSimval (simValFormatLiteral v buflen)) v = true ↔
      PrintedReadsBack v buflen := by
  rw [simValFormatLiteral, PrintedReadsBack, h.width]
  by_cases hcut : (Nat.toDigits 10 w).length + 1 < buflen
  · obtain ⟨m, hm⟩ := Nat.exists_eq_add_of_lt hcut
    have htext : (Nat.toDigits 10 w ++ tick :: 'h' :: simValToHex v 80).take (buflen - 1) =
        Nat.toDigits 10 w ++ tick :: ('h' :: simValToHex v 80).take m := by
      rw [show buflen - 1 = (Nat.toDigits 10 w).length + (m + 1) by omega,
        List.take_length_add_append, List.take_succ_cons]
    have hread := parse_cut h hpos hw m
    rw [htext, if_pos hcut, simValEqual_known hread.1 h, hread.2, and_iff_right rfl]
    cases m with
    | zero =>
      rw [if_pos rfl]
      constructor
      · exact fun h0 => .inr h0.symm
      · rintro (hlen | h0)
        · omega
        · exact h0.symm
    | succ m =>
      rw [if_neg (by omega), Nat.add_sub_cancel, hexValue_take_hex h hw]
      generalize nibbleCount w = N at *
      rcases Nat.lt_or_ge m N with hmN | hmN
      · rw [min_eq_left hmN.le]
        have hne : ¬ ((Nat.toDigits 10 w).length + 2 + N < buflen) := by omega
        simp only [hne, false_or]
        constructor
        · intro hdiv
          by_contra h0
          have := Nat.div_lt_self (Nat.pos_of_ne_zero h0)
            (Nat.one_lt_two_pow (n := 4 * (N - m)) (by omega))
          omega
        · intro h0
          rw [h0, Nat.zero_div]
      · rw [min_eq_right hmN, Nat.sub_self, Nat.mul_zero, pow_zero, Nat.div_one]
        exact ⟨fun _ => .inl (by omega), fun _ => rfl⟩
  · have htext : (Nat.toDigits 10 w ++ tick :: 'h' :: simValToHex v 80).take (buflen - 1) =
        (Nat.toDigits 10 w).take (buflen - 1) := by
      rw [List.take_append_of_le_length (by omega)]
    have hread := parse_width_only w (n := buflen - 1) hw
    rw [htext, if_neg hcut, simValEqual_known hread.1 h, hread.2]
    constructor
    · rintro ⟨rfl, hval⟩
      exact ⟨rfl, hval.symm⟩
    · rintro ⟨rfl, hval⟩
      exact ⟨rfl, hval.symm⟩

namespace PrintedExample

def wide : SimValue := ⟨Words.set .zero 0 1, .zero, .zero, 128⟩

end PrintedExample

open PrintedExample in
/-- Through a buffer of 80 characters the value comes back. -/
theorem printed_reads_back_iff_wide :
    simValEqual (parseLiteralToSimval (simValFormatLiteral wide 80)) wide = true :=
  (printed_reads_back_iff (w := 128) ⟨rfl, rfl, rfl, by decide +kernel⟩ (by decide) (by decide)
    (by decide)).mpr (by rw [PrintedReadsBack, if_pos (by decide +kernel)]; exact .inl (by decide +kernel))

open PrintedExample in
/-- The buffer of 32 characters that a passed expectation is printed into cuts the last places. -/
theorem printed_cut : wide.Known 128 ∧
    simValEqual (parseLiteralToSimval (simValFormatLiteral wide 32)) wide = false :=
  ⟨⟨rfl, rfl, rfl, by decide +kernel⟩, by decide +kernel⟩

end JzHdl

import JzHdl.Ir.MemFormats
import Mathlib.Data.List.TakeWhile

/-! # Formats of memory files

A MIF file names its sizes and radixes before it lists a statement for each
word. It loads the same bytes as the binary file and the file of binary digits,
and a file of hexadecimal digits does so for some widths only.
-/

namespace JzHdl

open ByteCodec

/-- A statement about each character of a text is decided along the text. -/
local instance (priority := 2000) decidableFieldText {p : Char → Prop} [DecidablePred p]
    (text : List Char) : Decidable (∀ c ∈ text, p c) := List.decidableBAll p text

/-! ## Numbers -/

def MemInitRadix.text : MemInitRadix → List Char
  | .bin => "BIN".toList
  | .oct => "OCT".toList
  | .dec => "DEC".toList
  | .hex => "HEX".toList
  | .uns => "UNS".toList

def numberText (radix : MemInitRadix) (n : ℕ) : List Char := Nat.toDigits radix.base n

theorem MemInitRadix.base_le (radix : MemInitRadix) : radix.base ≤ 16 := by cases radix <;> decide

theorem MemInitRadix.one_lt_base (radix : MemInitRadix) : 1 < radix.base := by
  cases radix <;> decide

theorem wholeDigits_toDigitsCore {base : ℕ} (hone : 1 < base) (hbase : base ≤ 16) :
    ∀ (fuel n : ℕ) (text : List Char), n < fuel →
      wholeDigits base 0 (Nat.toDigitsCore base fuel n text) = wholeDigits base n text
  | fuel + 1, n, text, hn => by
      have hlt : n % base < base := Nat.mod_lt _ (by omega)
      have hstep : ∀ v, wholeDigits base v (Nat.digitChar (n % base) :: text) =
          wholeDigits base (v * base + n % base) text := fun v => by
        rw [wholeDigits, boundDigit_digitChar (hlt.trans_le hbase), if_pos hlt]
      rw [Nat.toDigitsCore]
      split
      · rename_i hzero
        rw [hstep, Nat.zero_mul, Nat.zero_add,
          Nat.mod_eq_of_lt ((Nat.div_eq_zero_iff_lt (by omega)).mp hzero)]
      · rename_i hnonzero
        have hsmall : n / base < fuel := by
          have := Nat.div_lt_self (n := n) (by
            rcases Nat.eq_zero_or_pos n with rfl | h
            · exact absurd (Nat.zero_div base) hnonzero
            · exact h) hone
          omega
        rw [wholeDigits_toDigitsCore hone hbase fuel _ _ hsmall, hstep, Nat.mul_comm,
          Nat.div_add_mod]

theorem wholeDigits_numberText (radix : MemInitRadix) (n : ℕ) :
    wholeDigits radix.base 0 (numberText radix n) = some n :=
  wholeDigits_toDigitsCore radix.one_lt_base radix.base_le _ _ _ (Nat.lt_succ_self n)

theorem toDigitsCore_mem {base : ℕ} (hpos : 0 < base) : ∀ (fuel n : ℕ) (text : List Char),
    ∀ c ∈ Nat.toDigitsCore base fuel n text, (∃ m < base, c = Nat.digitChar m) ∨ c ∈ text
  | 0, _, _, _, hc => .inr hc
  | fuel + 1, n, text, c, hc => by
      have hdigit : ∀ c ∈ Nat.digitChar (n % base) :: text,
          (∃ m < base, c = Nat.digitChar m) ∨ c ∈ text := by
        intro c hc
        rcases List.mem_cons.mp hc with rfl | hc
        · exact .inl ⟨_, Nat.mod_lt _ hpos, rfl⟩
        · exact .inr hc
      rw [Nat.toDigitsCore] at hc
      split at hc
      · exact hdigit c hc
      · rcases toDigitsCore_mem hpos fuel _ _ c hc with h | h
        · exact .inl h
        · exact hdigit c h

/-- A property of the sixteen digits holds on every number. -/
theorem numberText_all {P : Char → Prop} (hP : ∀ m < 16, P (Nat.digitChar m))
    {radix : MemInitRadix} {n : ℕ} : ∀ c ∈ numberText radix n, P c := by
  intro c hc
  rcases toDigitsCore_mem (by have := radix.one_lt_base; omega) _ _ _ c hc with ⟨m, hm, rfl⟩ | h
  · exact hP m (hm.trans_le radix.base_le)
  · cases h

theorem numberText_dec_all {P : Char → Prop} (hP : ∀ m < 10, P (Nat.digitChar m)) {n : ℕ} :
    ∀ c ∈ numberText .dec n, P c := by
  intro c hc
  rcases toDigitsCore_mem (by decide) _ _ _ c hc with ⟨m, hm, rfl⟩ | h
  · exact hP m hm
  · cases h

theorem numberText_ne_nil (radix : MemInitRadix) (n : ℕ) : numberText radix n ≠ [] := by
  intro h
  have hdigits := wholeDigits_numberText radix n
  rw [h] at hdigits
  obtain rfl : 0 = n := Option.some.inj hdigits
  cases radix <;> exact absurd h (by decide)

theorem filter_numberText (radix : MemInitRadix) (n : ℕ) :
    (numberText radix n).filter (· ≠ '_') = numberText radix n :=
  List.filter_eq_self.mpr fun c hc =>
    decide_eq_true (numberText_all (P := (· ≠ '_')) (by decide) c hc)

theorem denotes_numberText (radix : MemInitRadix) (n : ℕ) :
    Denotes radix (numberText radix n) n := by
  rw [Denotes, filter_numberText]
  exact ⟨numberText_ne_nil radix n, wholeDigits_numberText radix n⟩

theorem memInitParseUnsignedValue_numberText (radix : MemInitRadix) {n : ℕ} (hn : n < 2 ^ 64) :
    memInitParseUnsignedValue radix (numberText radix n) = some n := by
  rw [memInitParseUnsignedValue, filter_numberText]
  split
  · exact absurd ‹_› (numberText_ne_nil radix n)
  · rename_i rest heq
    exact absurd rfl (numberText_all (P := (· ≠ '-')) (by decide) '-' (by
      rw [heq]
      exact List.mem_cons_self))
  · rw [strtoullWhole_digits radix.base_le (numberText_ne_nil radix n)
      (wholeDigits_numberText radix n), Nat.min_eq_right (by omega)]

/-! ## Trimming -/

theorem dropSpaces {front body : List Char} (hfront : ∀ c ∈ front, isBoundSpace c = true)
    (hbody : ∀ c ∈ body.head?, isBoundSpace c = false) :
    (front ++ body).dropWhile isBoundSpace = body := by
  rw [List.dropWhile_append_of_pos hfront]
  cases body with
  | nil => rfl
  | cons c body => exact List.dropWhile_cons_of_neg (by simp [hbody c rfl])

theorem trimSpan_pad {front back body : List Char} (hfront : ∀ c ∈ front, isBoundSpace c = true)
    (hback : ∀ c ∈ back, isBoundSpace c = true) (hne : body ≠ [])
    (hfirst : ∀ c ∈ body.head?, isBoundSpace c = false)
    (hlast : ∀ c ∈ body.getLast?, isBoundSpace c = false) :
    trimSpan (front ++ (body ++ back)) = body := by
  rw [trimSpan, dropSpaces hfront (by rwa [List.head?_append_of_ne_nil _ hne]),
    List.reverse_append, dropSpaces (by simpa using hback) (by rwa [List.head?_reverse]),
    List.reverse_reverse]

/-- A text without blanks. -/
def Solid (text : List Char) : Prop := text ≠ [] ∧ ∀ c ∈ text, isBoundSpace c = false

theorem Solid.trimSpan_pad {body : List Char} (h : Solid body) (front back : List Char)
    (hfront : ∀ c ∈ front, isBoundSpace c = true) (hback : ∀ c ∈ back, isBoundSpace c = true) :
    trimSpan (front ++ (body ++ back)) = body :=
  JzHdl.trimSpan_pad hfront hback h.1 (fun c hc => h.2 c (List.mem_of_mem_head? hc))
    fun c hc => h.2 c (List.mem_of_mem_getLast? hc)

theorem numberText_solid (radix : MemInitRadix) (n : ℕ) : Solid (numberText radix n) :=
  ⟨numberText_ne_nil radix n, numberText_all (by decide)⟩

theorem MemInitRadix.text_solid (radix : MemInitRadix) : Solid radix.text := by
  unfold Solid
  cases radix <;> decide

/-! ## Fields -/

/-- A statement that gives a field its value. -/
def mifField (name value : List Char) : List Char := name ++ ' ' :: '=' :: ' ' :: value

theorem matchAssignment_mifField {keyword name value front : List Char}
    (hfront : ∀ c ∈ front, isBoundSpace c = true) (hname : Solid name) (hplain : '=' ∉ name)
    (hvalue : Solid value) :
    matchAssignment keyword (front ++ mifField name value) =
      if name.length = keyword.length ∧ ciPrefixEq name keyword then some value else none := by
  have hne : mifField name value ≠ [] := by simp [mifField]
  have htrim : trimSpan (front ++ mifField name value) = mifField name value := by
    have hpad := @trimSpan_pad front [] _ hfront (by simp) hne (fun c hc => ?_) fun c hc => ?_
    · rwa [List.append_nil] at hpad
    · rw [mifField, List.head?_append_of_ne_nil _ hname.1] at hc
      exact hname.2 c (List.mem_of_mem_head? hc)
    · have hlast : (mifField name value).getLast? = value.getLast? := by
        have hparts : name ++ ' ' :: '=' :: ' ' :: value = (name ++ [' ', '=', ' ']) ++ value := by
          simp
        rw [mifField, hparts, List.getLast?_append_of_ne_nil _ hvalue.1]
      rw [hlast] at hc
      exact hvalue.2 c (List.mem_of_mem_getLast? hc)
  have hfields : mifField name value = (name ++ [' ']) ++ '=' :: ' ' :: value := by simp [mifField]
  have hbefore : ∀ c ∈ name ++ [' '], decide (c ≠ '=') = true := by
    intro c hc
    rcases List.mem_append.mp hc with hc | hc
    · exact decide_eq_true fun h => hplain (h ▸ hc)
    · rw [List.mem_singleton.mp hc]
      decide
  have hleft : (mifField name value).takeWhile (· ≠ '=') = name ++ [' '] := by
    rw [hfields, List.takeWhile_append_of_pos hbefore, List.takeWhile_cons_of_neg (by decide),
      List.append_nil]
  have hright : ((mifField name value).dropWhile (· ≠ '=')).drop 1 = ' ' :: value := by
    rw [hfields, List.dropWhile_append_of_pos hbefore, List.dropWhile_cons_of_neg (by decide)]
    rfl
  have hnameTrim := hname.trimSpan_pad [] [' '] (by simp) (by decide)
  have hvalueTrim := hvalue.trimSpan_pad [' '] [] (by decide) (by simp)
  rw [List.append_nil] at hvalueTrim
  rw [matchAssignment, htrim]
  dsimp only
  rw [if_pos (by simp [hfields]), hleft, hright]
  rw [List.nil_append] at hnameTrim
  rw [hnameTrim]
  exact if_congr Iff.rfl (congrArg some hvalueTrim) rfl

theorem splitStatements_append {stmt : List Char} (h : ';' ∉ stmt) (rest : List Char) :
    splitStatements (stmt ++ ';' :: rest) = stmt :: splitStatements rest := by
  induction stmt with
  | nil => rw [List.nil_append, splitStatements, if_pos rfl]
  | cons c stmt ih =>
    rw [List.cons_append, splitStatements, if_neg (fun hc => h (by simp [hc])),
      ih fun hc => h (List.mem_cons_of_mem _ hc)]

theorem splitStatements_single : ∀ {stmt : List Char}, ';' ∉ stmt → splitStatements stmt = [stmt]
  | [], _ => rfl
  | c :: stmt, h => by
      rw [splitStatements, if_neg (fun hc => h (by simp [hc])),
        splitStatements_single fun hc => h (List.mem_cons_of_mem _ hc)]

/-! ## Keywords -/

theorem findKeywordCi_skip {x c : Char} {kw : List Char} (hc : c.toLower ≠ x.toLower)
    (rest : List Char) : ∀ {front : List Char} (prev : Option Char),
      (∀ d ∈ front, d.toLower ≠ x.toLower) →
        findKeywordCi (x :: kw) prev (front ++ c :: rest) = findKeywordCi (x :: kw) (some c) rest
  | [], prev, _ => by
      rw [List.nil_append, findKeywordCi, ciPrefixEq, decide_eq_false hc]
      simp
  | d :: front, prev, h => by
      rw [List.cons_append, findKeywordCi, ciPrefixEq, decide_eq_false (h d List.mem_cons_self),
        ← findKeywordCi_skip hc rest (some d) fun e he => h e (List.mem_cons_of_mem _ he)]
      simp

theorem ciPrefixEq_append {sep : Char} (rest : List Char) : ∀ {kw : List Char} (text : List Char),
    (∀ x ∈ kw, sep.toLower ≠ x.toLower) → ciPrefixEq (text ++ sep :: rest) kw = ciPrefixEq text kw
  | [], _, _ => by rw [ciPrefixEq, ciPrefixEq]
  | x :: kw, [], h => by
      rw [List.nil_append, ciPrefixEq, ciPrefixEq, decide_eq_false (h x List.mem_cons_self),
        Bool.false_and]
  | x :: kw, c :: text, h => by
      rw [List.cons_append, ciPrefixEq, ciPrefixEq,
        ciPrefixEq_append rest text fun y hy => h y (List.mem_cons_of_mem _ hy)]

theorem ciPrefixEq_length : ∀ {text kw : List Char}, ciPrefixEq text kw = true →
    kw.length ≤ text.length
  | _, [], _ => Nat.zero_le _
  | [], _ :: _, h => by cases h
  | c :: text, x :: kw, h => by
      rw [ciPrefixEq, Bool.and_eq_true] at h
      exact Nat.succ_le_succ (ciPrefixEq_length h.2)

/-- A keyword does not stand across a character that is not in it. -/
theorem findKeywordCi_append {sep : Char} {kw : List Char} (hkw : kw ≠ [])
    (hsep : ∀ x ∈ kw, sep.toLower ≠ x.toLower) (hident : memInitIsIdentChar sep = false)
    (rest : List Char) : ∀ (text : List Char) (prev : Option Char),
      findKeywordCi kw prev text = none →
        findKeywordCi kw prev (text ++ sep :: rest) = findKeywordCi kw (some sep) rest
  | [], prev, _ => by
      cases kw with
      | nil => exact absurd rfl hkw
      | cons x kw =>
        rw [List.nil_append, findKeywordCi, ciPrefixEq, decide_eq_false (hsep x List.mem_cons_self)]
        simp
  | c :: text, prev, h => by
      have hafter : ciPrefixEq (c :: text) kw = true →
          (((c :: text) ++ sep :: rest).drop kw.length).head?.elim false memInitIsIdentChar =
            ((c :: text).drop kw.length).head?.elim false memInitIsIdentChar := by
        intro hpre
        rcases Nat.lt_or_eq_of_le (ciPrefixEq_length hpre) with hlt | heq
        · have hne : (c :: text).drop kw.length ≠ [] := by
            rw [ne_eq, List.drop_eq_nil_iff]
            omega
          rw [List.drop_append_of_le_length hlt.le, List.head?_append_of_ne_nil _ hne]
        · rw [heq, List.drop_left, List.drop_length]
          exact hident
      rw [findKeywordCi] at h
      rw [List.cons_append, findKeywordCi, ← List.cons_append,
        ciPrefixEq_append rest (c :: text) hsep]
      by_cases hpre : ciPrefixEq (c :: text) kw = true
      · rw [hafter hpre]
        split at h
        · cases h
        · rename_i hno
          rw [if_neg hno]
          exact findKeywordCi_append hkw hsep hident rest text (some c) h
      · rw [Bool.not_eq_true] at hpre
        rw [hpre] at h ⊢
        simp only [Bool.and_false, Bool.false_and, Bool.false_eq_true, if_false] at h ⊢
        exact findKeywordCi_append hkw hsep hident rest text (some c) h

theorem ciPrefixEq_self (rest : List Char) : ∀ kw : List Char, ciPrefixEq (kw ++ rest) kw = true
  | [] => by rw [ciPrefixEq]
  | x :: kw => by
      rw [List.cons_append, ciPrefixEq, ciPrefixEq_self rest kw, decide_eq_true rfl, Bool.true_and]

theorem findKeywordCi_here {sep : Char} {kw : List Char} {prev : Option Char} (hkw : kw ≠ [])
    (hprev : prev.elim false memInitIsIdentChar = false) (hident : memInitIsIdentChar sep = false)
    (rest : List Char) :
    findKeywordCi kw prev (kw ++ sep :: rest) = some (kw ++ sep :: rest) := by
  have hfound : ciPrefixEq (kw ++ sep :: rest) kw = true := ciPrefixEq_self _ kw
  have hafter : ((kw ++ sep :: rest).drop kw.length).head?.elim false memInitIsIdentChar =
      false := by
    rw [List.drop_left]
    exact hident
  cases kw with
  | nil => exact absurd rfl hkw
  | cons x kw =>
    rw [List.cons_append] at hfound hafter ⊢
    rw [findKeywordCi, hprev, hfound, hafter]
    rfl

/-- A keyword is found in fewer texts behind a character. -/
theorem findKeywordCi_none_any {kw : List Char} (prev : Option Char) : ∀ {text : List Char},
    findKeywordCi kw none text = none → findKeywordCi kw prev text = none
  | [], _ => by rw [findKeywordCi]
  | c :: text, h => by
      rw [findKeywordCi] at h ⊢
      split at h
      · cases h
      · rename_i hno
        refine (if_neg fun hc => hno ?_).trans h
        simp only [Bool.and_eq_true] at hc ⊢
        exact ⟨⟨rfl, hc.1.2⟩, hc.2⟩

/-- A text without the second character of the keyword does not hold the keyword. -/
theorem findKeywordCi_second {x y : Char} {kw : List Char} : ∀ {text : List Char}
    (prev : Option Char), (∀ c ∈ text, c.toLower ≠ y.toLower) →
      findKeywordCi (x :: y :: kw) prev text = none
  | [], _, _ => by rw [findKeywordCi]
  | c :: text, prev, h => by
      have hnext : ciPrefixEq text (y :: kw) = false := by
        cases text with
        | nil => rw [ciPrefixEq]
        | cons d text => rw [ciPrefixEq, decide_eq_false (h d (by simp)), Bool.false_and]
      rw [findKeywordCi, ciPrefixEq, hnext,
        findKeywordCi_second (some c) fun d hd => h d (List.mem_cons_of_mem _ hd)]
      simp

theorem stripMifComments_plain : ∀ {text : List Char}, (∀ c ∈ text, c ≠ '%' ∧ c ≠ '-') →
    stripMifComments text false false = text
  | [], _ => rfl
  | c :: rest, h => by
      obtain ⟨hpercent, hminus⟩ := h c List.mem_cons_self
      rw [stripMifComments, if_neg Bool.false_ne_true, if_neg Bool.false_ne_true, if_neg hpercent,
        if_neg fun hc => hminus hc.1,
        stripMifComments_plain fun c hc => h c (List.mem_cons_of_mem _ hc)]

theorem memInitTokens_solid : ∀ {token : List Char}, token ≠ [] →
    (∀ c ∈ token, isBoundSpace c = false ∧ c ≠ ',') → memInitTokens token = [token]
  | [], h, _ => absurd rfl h
  | [c], _, h => by
      obtain ⟨hspace, hcomma⟩ := h c List.mem_cons_self
      rw [memInitTokens, if_neg (by simp [hspace, hcomma])]
  | c :: d :: rest, _, h => by
      obtain ⟨hspace, hcomma⟩ := h c List.mem_cons_self
      obtain ⟨hspace', hcomma'⟩ := h d (by simp)
      rw [memInitTokens, if_neg (by simp [hspace, hcomma]), if_neg (by simp [hspace', hcomma']),
        memInitTokens_solid (List.cons_ne_nil d rest) fun c hc => h c (List.mem_cons_of_mem _ hc)]

/-! ## Entries -/

/-- The word of an address, on a line of its own. -/
def mifStatement (addrRadix dataRadix : MemInitRadix) (a n : ℕ) : List Char :=
  '\n' :: (numberText addrRadix a ++ ' ' :: ':' :: ' ' :: numberText dataRadix n)

def mifStatements (addrRadix dataRadix : MemInitRadix) : ℕ → List ℕ → List (List Char)
  | _, [] => []
  | a, n :: words => mifStatement addrRadix dataRadix a n ::
      mifStatements addrRadix dataRadix (a + 1) words

section

variable {w d : ℕ} {addrRadix dataRadix : MemInitRadix}

/-- A token of a number that fits is stored, unless it is decimal and the word is too wide. -/
theorem storeRadixToken_ok {a n : ℕ} {blob : Bytes} (hn : n < 2 ^ w)
    (hdata : dataRadix = .dec ∨ dataRadix = .uns → w ≤ 64)
    (hblob : a * ((w + 7) / 8) + (w + 7) / 8 ≤ blob.length) :
    memInitStoreRadixToken ((w + 7) / 8) w a (numberText dataRadix n) dataRadix blob =
      .ok (putWord ((w + 7) / 8) a n blob) := by
  have hdenotes := denotes_numberText dataRadix n
  by_cases hdecimal : dataRadix = .dec ∨ dataRadix = .uns
  · have h64 := hdata hdecimal
    have hmin : n < 2 ^ 64 := hn.trans_le (Nat.pow_le_pow_right (by decide) h64)
    rw [storeRadixToken_decimal hdecimal hdenotes hblob, Nat.min_eq_right (by omega),
      Nat.min_eq_left h64, Nat.mod_eq_of_lt hn]
  · rw [storeRadixToken_digits hdecimal hdenotes hblob, if_pos hn]

theorem mifAddresses_number {a : ℕ} (ha : a < 2 ^ 64) :
    mifAddresses addrRadix (numberText addrRadix a) = .ok (a, a, false) := by
  unfold mifAddresses
  split
  · rename_i inner heq
    exact absurd rfl (numberText_all (P := (· ≠ '[')) (by decide) '[' (by
      rw [heq]
      exact List.mem_cons_self))
  · rw [memInitParseUnsignedValue_numberText addrRadix ha]

theorem mifEntry_statement {a n : ℕ} {blob : Bytes} (ha : a < d) (hd : d ≤ memInitMifDepth)
    (hn : n < 2 ^ w) (hdata : dataRadix = .dec ∨ dataRadix = .uns → w ≤ 64)
    (hblob : blob.length = (w + 7) / 8 * d) :
    mifEntry ((w + 7) / 8) w d addrRadix dataRadix (mifStatement addrRadix dataRadix a n) blob =
      .ok (putWord ((w + 7) / 8) a n blob) := by
  set addr := numberText addrRadix a with haddr
  set data := numberText dataRadix n with hdataText
  have hsolid : Solid addr := numberText_solid addrRadix a
  have hsolidData : Solid data := numberText_solid dataRadix n
  have hcolon : ∀ c ∈ addr ++ [' '], decide (c ≠ ':') = true := by
    intro c hc
    rcases List.mem_append.mp hc with hc | hc
    · exact decide_eq_true (numberText_all (P := (· ≠ ':')) (by decide) c hc)
    · rw [List.mem_singleton.mp hc]
      decide
  have hbody : trimSpan (mifStatement addrRadix dataRadix a n) =
      (addr ++ [' ']) ++ ':' :: ' ' :: data := by
    have hpad := @trimSpan_pad ['\n'] [] ((addr ++ [' ']) ++ ':' :: ' ' :: data) (by decide)
      (by simp) (by simp) (fun c hc => ?_) fun c hc => ?_
    · rw [← hpad, mifStatement]
      simp [haddr, hdataText]
    · rw [List.append_assoc, List.head?_append_of_ne_nil _ hsolid.1] at hc
      exact hsolid.2 c (List.mem_of_mem_head? hc)
    · have hlast : ((addr ++ [' ']) ++ ':' :: ' ' :: data).getLast? = data.getLast? := by
        rw [show (addr ++ [' ']) ++ ':' :: ' ' :: data = (addr ++ [' ', ':', ' ']) ++ data by simp,
          List.getLast?_append_of_ne_nil _ hsolidData.1]
      rw [hlast] at hc
      exact hsolidData.2 c (List.mem_of_mem_getLast? hc)
  have hleft : trimSpan (addr ++ [' ']) = addr :=
    hsolid.trimSpan_pad [] [' '] (by simp) (by decide)
  have hright : trimSpan (' ' :: data) = data := by
    have hpad := hsolidData.trimSpan_pad [' '] [] (by decide) (by simp)
    rwa [List.append_nil] at hpad
  have htokens : memInitTokens data = [data] := memInitTokens_solid hsolidData.1 fun c hc =>
    ⟨hsolidData.2 c hc, numberText_all (P := (· ≠ ',')) (by decide) c hc⟩
  have hword : a * ((w + 7) / 8) + (w + 7) / 8 ≤ blob.length := by
    rw [hblob, ← Nat.succ_mul, Nat.mul_comm]
    exact Nat.mul_le_mul_left _ ha
  have ha64 : a < 2 ^ 64 := (ha.trans_le hd).trans (by decide)
  rw [mifEntry, hbody]
  rw [if_pos (by simp), List.takeWhile_append_of_pos hcolon, List.takeWhile_cons_of_neg (by decide),
    List.append_nil, hleft, List.dropWhile_append_of_pos hcolon,
    List.dropWhile_cons_of_neg (by decide), haddr, mifAddresses_number ha64]
  dsimp only
  rw [List.drop_one, List.tail_cons, hright, htokens, storeEntry]
  rw [if_neg Bool.false_ne_true, storeTokens, if_neg (by omega), hdataText,
    storeRadixToken_ok hn hdata hword]
  dsimp only
  rw [storeTokens]
  dsimp only
  rw [if_neg (List.cons_ne_nil _ _), if_neg Bool.false_ne_true, if_neg (by simp)]

theorem putWord_front {k a n r : ℕ} {front : Bytes} (hfront : front.length = a * k) :
    putWord k a n (front ++ zeros (k * (r + 1))) = (front ++ bigEndian k n) ++ zeros (k * r) := by
  have hdrop : a * k + k = front.length + k := by rw [hfront]
  rw [putWord, List.take_left' hfront, hdrop, List.drop_append, zeros, List.drop_replicate,
    List.drop_eq_nil_of_le (Nat.le_add_right _ _), List.nil_append, Nat.add_sub_cancel_left,
    Nat.mul_succ, Nat.add_sub_cancel, ← zeros]

/-- The statements of the words fill the blob from the front. -/
theorem mifEntries_words (hd : d ≤ memInitMifDepth)
    (hdata : dataRadix = .dec ∨ dataRadix = .uns → w ≤ 64) :
    ∀ (words : List ℕ) (a : ℕ) (front : Bytes), (∀ n ∈ words, n < 2 ^ w) →
      front.length = a * ((w + 7) / 8) → a + words.length ≤ d →
        mifEntries ((w + 7) / 8) w d addrRadix dataRadix (mifStatements addrRadix dataRadix a words)
            (front ++ zeros ((w + 7) / 8 * (d - a))) =
          .ok (front ++ words.flatMap (bigEndian ((w + 7) / 8)) ++
            zeros ((w + 7) / 8 * (d - a - words.length)))
  | [], a, front, _, _, _ => by simp [mifStatements, mifEntries]
  | n :: words, a, front, hwords, hfront, hlen => by
      rw [List.length_cons] at hlen
      obtain ⟨r, hr⟩ : ∃ r, d - a = r + 1 := ⟨d - a - 1, by omega⟩
      have hblob : (front ++ zeros ((w + 7) / 8 * (d - a))).length = (w + 7) / 8 * d := by
        rw [List.length_append, hfront, zeros, List.length_replicate, Nat.mul_comm a, ← Nat.mul_add,
          Nat.add_sub_cancel' (by omega)]
      have hnext : (front ++ bigEndian ((w + 7) / 8) n).length = (a + 1) * ((w + 7) / 8) := by
        rw [List.length_append, hfront, length_bigEndian, Nat.succ_mul]
      rw [mifStatements, mifEntries,
        mifEntry_statement (by omega) hd (hwords n List.mem_cons_self) hdata hblob]
      dsimp only
      have hcount : r + 1 - (words.length + 1) = d - (a + 1) - words.length := by omega
      rw [hr, List.length_cons, hcount, putWord_front hfront, show r = d - (a + 1) by omega,
        mifEntries_words hd hdata words (a + 1) _ (fun n hn => hwords n (List.mem_cons_of_mem _ hn))
          hnext (by omega), List.flatMap_cons, List.append_assoc front]

end

/-! ## The whole file -/

/-- The sizes, the radixes and a statement for each word. -/
def renderMif (addrRadix dataRadix : MemInitRadix) (w d : ℕ) (words : List ℕ) : List Char :=
  mifField "DEPTH".toList (numberText .dec d) ++ ';' ::
    ('\n' :: mifField "WIDTH".toList (numberText .dec w) ++ ';' ::
      ('\n' :: mifField "ADDRESS_RADIX".toList addrRadix.text ++ ';' ::
        ('\n' :: mifField "DATA_RADIX".toList dataRadix.text ++ ';' ::
          ("\nCONTENT BEGIN".toList ++
            ((mifStatements addrRadix dataRadix 0 words).flatMap (· ++ [';']) ++
              "\nEND;\n".toList)))))

/-- The same file around any text between `BEGIN` and `END`. -/
def mifText (addrRadix dataRadix : MemInitRadix) (w d : ℕ) (body : List Char) : List Char :=
  mifField "DEPTH".toList (numberText .dec d) ++ ';' ::
    ('\n' :: mifField "WIDTH".toList (numberText .dec w) ++ ';' ::
      ('\n' :: mifField "ADDRESS_RADIX".toList addrRadix.text ++ ';' ::
        ('\n' :: mifField "DATA_RADIX".toList dataRadix.text ++ ';' ::
          ("\nCONTENT BEGIN".toList ++ (body ++ "\nEND;\n".toList)))))

section

variable {w d : ℕ} {addrRadix dataRadix : MemInitRadix} {words : List ℕ}

/-- A property of the digits and of the other characters holds on every statement. -/
theorem mifStatements_all {P : Char → Prop} (hdigit : ∀ m < 16, P (Nat.digitChar m))
    (hother : ∀ c ∈ "\n :".toList, P c) : ∀ (a : ℕ) (words : List ℕ),
      ∀ stmt ∈ mifStatements addrRadix dataRadix a words, ∀ c ∈ stmt, P c
  | _, [], stmt, hs, _, _ => absurd hs List.not_mem_nil
  | a, n :: words, stmt, hs, c, hc => by
      rcases List.mem_cons.mp hs with rfl | hs
      · rw [mifStatement] at hc
        simp only [List.mem_cons, List.mem_append] at hc
        rcases hc with rfl | hc | rfl | rfl | rfl | hc
        · exact hother _ (by decide)
        · exact numberText_all hdigit c hc
        · exact hother _ (by decide)
        · exact hother _ (by decide)
        · exact hother _ (by decide)
        · exact numberText_all hdigit c hc
      · exact mifStatements_all hdigit hother (a + 1) words stmt hs c hc

theorem renderMif_all {P : Char → Prop} (hdigit : ∀ m < 16, P (Nat.digitChar m))
    (hradix : ∀ radix : MemInitRadix, ∀ c ∈ radix.text, P c)
    (hother : ∀ c ∈ "DEPTHWIARS_XONCBG =:;\n".toList, P c) :
    ∀ c ∈ renderMif addrRadix dataRadix w d words, P c := by
  have hsub : ∀ {text : List Char},
      text ⊆ "DEPTHWIARS_XONCBG =:;\n".toList → ∀ c ∈ text, P c :=
    fun h c hc => hother c (h hc)
  have hone : ∀ {x : Char},
      x ∈ "DEPTHWIARS_XONCBG =:;\n".toList → P x := hother _
  have hstmts : ∀ c ∈ (mifStatements addrRadix dataRadix 0 words).flatMap (· ++ [';']), P c := by
    intro c hc
    obtain ⟨stmt, hs, hc⟩ := List.mem_flatMap.mp hc
    rcases List.mem_append.mp hc with hc | hc
    · exact mifStatements_all hdigit (hsub (by decide)) 0 words stmt hs c hc
    · rw [List.mem_singleton.mp hc]
      exact hone (by decide)
  simp only [renderMif, mifField, List.forall_mem_append, List.forall_mem_cons]
  and_intros
  all_goals
    first
    | exact hone (by decide)
    | exact hsub (by decide)
    | exact numberText_all hdigit
    | exact hradix _
    | exact hstmts

theorem mifStatements_split : ∀ (a : ℕ) (words : List ℕ),
    splitStatements ((mifStatements addrRadix dataRadix a words).flatMap (· ++ [';']) ++ ['\n']) =
      mifStatements addrRadix dataRadix a words ++ [['\n']]
  | _, [] => rfl
  | a, n :: words => by
      have hplain : ';' ∉ mifStatement addrRadix dataRadix a n := fun h =>
        mifStatements_all (P := (· ≠ ';')) (by decide) (by decide) a [n] _ List.mem_cons_self ';' h
          rfl
      rw [mifStatements, List.flatMap_cons, List.append_assoc, List.append_assoc,
        List.singleton_append, splitStatements_append hplain, mifStatements_split (a + 1) words,
        List.cons_append]

/-- The statements stand between the first `BEGIN` and the first `END` behind it. -/
theorem mifContent_mifText {body : List Char}
    (hbegin : ∀ c ∈ body.head?, memInitIsIdentChar c = false)
    (hplain : findKeywordCi "END".toList none body = none) :
    mifContent (mifText addrRadix dataRadix w d body) =
      some (splitStatements (body ++ ['\n'])).dropLast := by
  have hcontent : findKeywordCi "CONTENT".toList none (mifText addrRadix dataRadix w d body) =
      some ("CONTENT BEGIN".toList ++ (body ++ "\nEND;\n".toList)) := by
    have htext : mifText addrRadix dataRadix w d body =
        ("DEPTH = ".toList ++ numberText .dec d ++ ";\nWIDTH = ".toList ++ numberText .dec w ++
          ";\nADDRESS_RADIX =".toList) ++ ' ' :: (addrRadix.text ++ ';' ::
            ("\nDATA_RADIX =".toList ++ ' ' :: (dataRadix.text ++ ';' :: '\n' ::
              ("CONTENT BEGIN".toList ++ (body ++ "\nEND;\n".toList))))) := by
      simp [mifText, mifField]
    have hfront : ∀ c ∈ "DEPTH = ".toList ++ numberText .dec d ++ ";\nWIDTH = ".toList ++
        numberText .dec w ++ ";\nADDRESS_RADIX =".toList, c.toLower ≠ 'C'.toLower := by
      simp only [List.forall_mem_append]
      exact ⟨⟨⟨⟨by decide, numberText_dec_all (by decide)⟩, by decide⟩,
        numberText_dec_all (by decide)⟩, by decide⟩
    have hradix : ∀ (radix : MemInitRadix) rest,
        findKeywordCi ('C' :: "ONTENT".toList) (some ' ') (radix.text ++ ';' :: rest) =
          findKeywordCi ('C' :: "ONTENT".toList) (some ';') rest := by
      intro radix rest
      cases radix <;> rfl
    change findKeywordCi ('C' :: "ONTENT".toList) _ _ = _
    rw [htext, findKeywordCi_skip (by decide) _ none hfront, hradix,
      findKeywordCi_skip (by decide) _ _ (by decide), hradix]
    rfl
  obtain ⟨c, tail, htail, hident⟩ : ∃ c tail, body ++ "\nEND;\n".toList = c :: tail ∧
      memInitIsIdentChar c = false := by
    cases body with
    | nil => exact ⟨_, _, rfl, by decide⟩
    | cons c body => exact ⟨c, _, rfl, hbegin c rfl⟩
  have hfound : findKeywordCi "BEGIN".toList none
      ("CONTENT BEGIN".toList ++ (body ++ "\nEND;\n".toList)) =
        some ("BEGIN".toList ++ (body ++ "\nEND;\n".toList)) := by
    have hfront := @findKeywordCi_append ' ' "BEGIN".toList (by decide) (by decide) (by decide)
      ("BEGIN".toList ++ c :: tail) "CONTENT".toList none rfl
    rw [htail]
    exact hfront.trans (findKeywordCi_here (by decide) (by decide) hident tail)
  have hend : findKeywordCi "END".toList none ("BEGIN".toList ++ (body ++ "\nEND;\n".toList)) =
      some "END;\n".toList := by
    have hbody : findKeywordCi "END".toList none ("BEGIN".toList ++ body) = none := by
      change findKeywordCi "END".toList (some 'N') body = none
      exact findKeywordCi_none_any _ hplain
    have hfront := @findKeywordCi_append '\n' "END".toList (by decide) (by decide) (by decide)
      ("END".toList ++ ";\n".toList) _ none hbody
    rw [List.append_assoc] at hfront
    exact hfront.trans (findKeywordCi_here (by decide) (by decide) (by decide) _)
  have hbody : "BEGIN".toList ++ (body ++ "\nEND;\n".toList) =
      ("BEGIN".toList ++ (body ++ ['\n'])) ++ "END;\n".toList := by simp
  have htake : ("BEGIN".toList ++ (body ++ "\nEND;\n".toList)).take
      (("BEGIN".toList ++ (body ++ "\nEND;\n".toList)).length - "END;\n".toList.length) =
        "BEGIN".toList ++ (body ++ ['\n']) := by
    rw [hbody, List.length_append, Nat.add_sub_cancel, List.take_left]
  rw [mifContent, hcontent]
  dsimp only
  rw [hfound]
  dsimp only
  rw [hend]
  dsimp only
  rw [htake, List.drop_left' (by rfl)]

theorem findSome_fields {keyword : List Char} :
  ∀ {fields : List (List Char × List Char × List Char)},
    (∀ field ∈ fields, (∀ c ∈ field.1, isBoundSpace c = true) ∧ Solid field.2.1 ∧
      '=' ∉ field.2.1 ∧ Solid field.2.2) →
    List.findSome? (matchAssignment keyword)
        (fields.map fun field => field.1 ++ mifField field.2.1 field.2.2) =
      fields.findSome? fun field =>
        if field.2.1.length = keyword.length ∧ ciPrefixEq field.2.1 keyword then some field.2.2
        else none
  | [], _ => rfl
  | field :: fields, h => by
      obtain ⟨hfront, hname, hplain, hvalue⟩ := h field List.mem_cons_self
      rw [List.map_cons, List.findSome?_cons, List.findSome?_cons,
        matchAssignment_mifField hfront hname hplain hvalue,
        findSome_fields fun f hf => h f (List.mem_cons_of_mem _ hf)]

/-- A keyword is looked for in the fields of the header first. -/
theorem extract_mifText {keyword value body : List Char}
    (h : List.findSome? (fun field : List Char × List Char × List Char =>
        if field.2.1.length = keyword.length ∧ ciPrefixEq field.2.1 keyword then some field.2.2
        else none)
      [([], "DEPTH".toList, numberText .dec d), (['\n'], "WIDTH".toList, numberText .dec w),
        (['\n'], "ADDRESS_RADIX".toList, addrRadix.text),
        (['\n'], "DATA_RADIX".toList, dataRadix.text)] = some value) :
    memInitExtractAssignment (mifText addrRadix dataRadix w d body) keyword = some value := by
  have hnumber : ∀ n, ';' ∉ numberText .dec n := fun n h =>
    numberText_all (P := (· ≠ ';')) (by decide) ';' h rfl
  have hradix : ∀ radix : MemInitRadix, ';' ∉ radix.text := by
    intro radix
    cases radix <;> decide
  have hsolid : ∀ {name : List Char}, (name ≠ [] ∧ ∀ c ∈ name, isBoundSpace c = false) →
      Solid name := fun h => h
  have hfields := @findSome_fields keyword
    [([], "DEPTH".toList, numberText .dec d), (['\n'], "WIDTH".toList, numberText .dec w),
      (['\n'], "ADDRESS_RADIX".toList, addrRadix.text),
      (['\n'], "DATA_RADIX".toList, dataRadix.text)] (by
    simp only [List.forall_mem_cons]
    exact ⟨⟨by decide, hsolid (by decide), by decide, numberText_solid .dec d⟩,
      ⟨by decide, hsolid (by decide), by decide, numberText_solid .dec w⟩,
      ⟨by decide, hsolid (by decide), by decide, addrRadix.text_solid⟩,
      ⟨by decide, hsolid (by decide), by decide, dataRadix.text_solid⟩, by simp⟩)
  rw [h] at hfields
  rw [memInitExtractAssignment, mifText,
    splitStatements_append (by simp [mifField, hnumber]),
    splitStatements_append (by simp [mifField, hnumber]),
    splitStatements_append (by simp [mifField, hradix]),
    splitStatements_append (by simp [mifField, hradix])]
  rw [show ∀ (a b c e : List Char) rest, a :: b :: c :: e :: rest = [a, b, c, e] ++ rest from
    fun _ _ _ _ _ => rfl, List.findSome?_append]
  exact congrArg (Option.or · _) hfields

/-- A file of any statements loads these statements, with or without comments. -/
theorem lowerMif_mifText {k : ℕ} {contents body : List Char} {blob : Bytes}
    (hd : d ≤ memInitMifDepth) (hwidth : w < 2 ^ 31)
    (hfile : contents.length ≤ memInitFileBytes)
    (hplain : stripMifComments contents false false = mifText addrRadix dataRadix w d body)
    (hzero : ∀ c ∈ mifText addrRadix dataRadix w d body, c ≠ '\x00')
    (hbegin : ∀ c ∈ body.head?, memInitIsIdentChar c = false)
    (hend : findKeywordCi "END".toList none body = none) :
    lowerMifMemInit k w d contents blob = mifEntries k w d addrRadix dataRadix
      (splitStatements (body ++ ['\n'])).dropLast blob := by
  have hint : ∀ {n : ℕ}, n < 2 ^ 31 → asInt n = n := fun h =>
    Int.bmod_eq_of_le (by omega) (by omega)
  have hd31 : d < 2 ^ 31 := hd.trans_lt (by decide)
  have hradix : ∀ radix : MemInitRadix, memInitParseRadixString radix.text = some radix := by
    intro radix
    cases radix <;> decide
  rw [lowerMifMemInit, if_neg (by omega), if_neg (by omega), hplain,
    List.takeWhile_eq_self_iff.mpr fun c hc => decide_eq_true (hzero c hc)]
  dsimp only
  rw [@extract_mifText w d _ _ _ (numberText .dec d) _ rfl, Option.bind_some,
    memInitParseUnsignedValue_numberText .dec (by omega)]
  dsimp only
  rw [if_neg (by omega), @extract_mifText w d _ _ _ (numberText .dec w) _ rfl, Option.bind_some,
    memInitParseUnsignedValue_numberText .dec (by omega)]
  dsimp only
  rw [hint hd31, hint hwidth, if_neg (by simp), @extract_mifText w d _ _ _ addrRadix.text _ rfl,
    Option.bind_some, hradix]
  dsimp only
  rw [@extract_mifText w d _ _ _ dataRadix.text _ rfl, Option.bind_some, hradix,
    mifContent_mifText hbegin hend]

theorem lowerMif_eq (hd : d ≤ memInitMifDepth) (hlen : words.length ≤ d)
    (hwords : ∀ n ∈ words, n < 2 ^ w) (hwidth : w < 2 ^ 31)
    (hdata : dataRadix = .dec ∨ dataRadix = .uns → w ≤ 64)
    (hfile : (renderMif addrRadix dataRadix w d words).length ≤ memInitFileBytes) :
    lowerMifMemInit ((w + 7) / 8) w d (renderMif addrRadix dataRadix w d words)
      (zeros ((w + 7) / 8 * d)) = .ok (normalBlob w d words) := by
  have hplain : ∀ c ∈ renderMif addrRadix dataRadix w d words, c ≠ '%' ∧ c ≠ '-' :=
    renderMif_all (P := fun c => c ≠ '%' ∧ c ≠ '-') (by decide)
      (fun radix => by cases radix <;> decide) (by decide)
  have hzero : ∀ c ∈ renderMif addrRadix dataRadix w d words, c ≠ '\x00' :=
    renderMif_all (P := (· ≠ '\x00')) (by decide) (fun radix => by cases radix <;> decide)
      (by decide)
  have hbegin : ∀ c ∈ ((mifStatements addrRadix dataRadix 0 words).flatMap (· ++ [';'])).head?,
      memInitIsIdentChar c = false := by
    cases words with
    | nil => exact fun c hc => absurd hc (by simp [mifStatements])
    | cons n words =>
      intro c hc
      obtain rfl : '\n' = c := Option.some.inj hc
      decide
  have hend : findKeywordCi "END".toList none
      ((mifStatements addrRadix dataRadix 0 words).flatMap (· ++ [';'])) = none := by
    refine findKeywordCi_second none fun c hc => ?_
    obtain ⟨stmt, hs, hc⟩ := List.mem_flatMap.mp hc
    rcases List.mem_append.mp hc with hc | hc
    · exact mifStatements_all (P := fun c => c.toLower ≠ 'N'.toLower) (by decide) (by decide) 0
        words stmt hs c hc
    · rw [List.mem_singleton.mp hc]
      decide
  have hentries := @mifEntries_words w d addrRadix _ hd hdata words 0 [] hwords
    (Nat.zero_mul _).symm (by omega)
  rw [List.nil_append, List.nil_append, Nat.sub_zero] at hentries
  rw [lowerMif_mifText hd hwidth hfile (stripMifComments_plain hplain) hzero hbegin hend,
    mifStatements_split, List.dropLast_concat, hentries, normalBlob_eq]

end

/-! ## All formats -/

/-- Lowering a file of the format gives the blob, whatever the path is. -/
def Loads (w d : ℕ) (format : MemInitFileFormat) (contents : List Char) (blob : Bytes) : Prop :=
  ∀ path, memInitGetFormat path = some format → irInitLowering w d path contents = .ok blob

theorem irInitLowering_eq {w d : ℕ} (hw : 0 < w) (hd : 0 < d)
    (hblob : (w + 7) / 8 * d ≤ memInitBlobMaxBytes) {path : List Char} {format : MemInitFileFormat}
    (contents : List Char) : memInitGetFormat path = some format →
    irInitLowering w d path contents =
      match format with
      | .hex => lowerTextMemInit ((w + 7) / 8) w true (w * d) contents (zeros ((w + 7) / 8 * d))
      | .mem => lowerTextMemInit ((w + 7) / 8) w false (w * d) contents (zeros ((w + 7) / 8 * d))
      | .bin => lowerBinaryMemInit ((w + 7) / 8 * d) contents (zeros ((w + 7) / 8 * d))
      | .coe => lowerCoeMemInit ((w + 7) / 8) w d contents (zeros ((w + 7) / 8 * d))
      | .mif => lowerMifMemInit ((w + 7) / 8) w d contents (zeros ((w + 7) / 8 * d)) := by
  intro hformat
  have hbits : d * w ≤ 8 * memInitBlobMaxBytes := by
    have hle : d * w ≤ d * (8 * ((w + 7) / 8)) := Nat.mul_le_mul_left d (by omega)
    have hassoc : d * (8 * ((w + 7) / 8)) = 8 * ((w + 7) / 8 * d) := by ring
    omega
  have hmax : 8 * memInitBlobMaxBytes ≤ 2 ^ 64 - 1 := by decide
  have hbytes : d ≤ (2 ^ 64 - 1) / ((w + 7) / 8) :=
    (Nat.le_div_iff_mul_le (by omega)).mpr (by rw [Nat.mul_comm]; omega)
  have hwords : d ≤ (2 ^ 64 - 1) / w := (Nat.le_div_iff_mul_le hw).mpr (hbits.trans hmax)
  rw [irInitLowering, hformat]
  dsimp only
  rw [if_neg (by omega), if_neg (by omega)]
  refine (if_neg (by omega)).trans ?_
  cases format <;> rfl

/-- Inside of the size limits, the binary file, the lines of binary digits and the MIF file load
the words, and the lines of hexadecimal digits do so if no digit is cut by the width. -/
theorem formats_load {w d : ℕ} {words : List ℕ} (hw : 0 < w) (hwidth : w < 2 ^ 31) (hd : 0 < d)
    (hlen : words.length ≤ d) (hwords : ∀ n ∈ words, n < 2 ^ w)
    (hblob : (w + 7) / 8 * d ≤ memInitBlobMaxBytes) :
    ((renderBin w words).length ≤ memInitFileBytes →
      Loads w d .bin (renderBin w words) (normalBlob w d words)) ∧
    ((renderMem w words).length ≤ memInitFileBytes →
      Loads w d .mem (renderMem w words) (normalBlob w d words)) ∧
    (∀ addrRadix dataRadix, d ≤ memInitMifDepth →
      (dataRadix = .dec ∨ dataRadix = .uns → w ≤ 64) →
      (renderMif addrRadix dataRadix w d words).length ≤ memInitFileBytes →
      Loads w d .mif (renderMif addrRadix dataRadix w d words) (normalBlob w d words)) ∧
    ((renderHex w words).length ≤ memInitFileBytes →
      ∀ path, memInitGetFormat path = some .hex →
        (irInitLowering w d path (renderHex w words) = .ok (normalBlob w d words) ↔
          4 ∣ w ∨ (∀ n ∈ words, n = 0) ∧ 4 * ((w + 3) / 4) * words.length ≤ w * d)) := by
  refine ⟨fun hfile path hformat => ?_, fun hfile path hformat => ?_,
    fun addrRadix dataRadix hdepth hdata hfile path hformat => ?_, fun hfile path hformat => ?_⟩
  · rw [irInitLowering_eq hw hd hblob _ hformat]
    exact lowerBin_eq hlen hfile
  · rw [irInitLowering_eq hw hd hblob _ hformat]
    exact lowerMem_eq hw hlen hwords hfile
  · rw [irInitLowering_eq hw hd hblob _ hformat]
    exact lowerMif_eq hdepth hlen hwords hwidth hdata hfile
  · rw [irInitLowering_eq hw hd hblob _ hformat]
    exact lowerHex_eq_iff hw hlen hwords hfile

theorem formats_load_five : Loads 5 3 .bin (renderBin 5 [17, 2]) [17, 2, 0] ∧
    Loads 5 3 .mem (renderMem 5 [17, 2]) [17, 2, 0] ∧
    Loads 5 3 .mif (renderMif .hex .dec 5 3 [17, 2]) [17, 2, 0] ∧
    irInitLowering 5 3 "rom.hex".toList (renderHex 5 [17, 2]) ≠ .ok [17, 2, 0] := by
  have hblob : normalBlob 5 3 [17, 2] = [17, 2, 0] := by decide +kernel
  obtain ⟨hbin, hmem, hmif, hhex⟩ := @formats_load 5 3 [17, 2] (by decide) (by decide) (by decide)
    (by decide) (by decide) (by decide)
  rw [hblob] at hbin hmem hmif hhex
  refine ⟨hbin (by decide +kernel), hmem (by decide +kernel),
    hmif .hex .dec (by decide) (by decide) (by decide +kernel), fun h => ?_⟩
  have hwords := (hhex (by decide +kernel) "rom.hex".toList (by decide +kernel)).mp h
  exact absurd hwords (by decide)

/-- A line with one hexadecimal digit does not fit into a word of one bit, and a file with the
other suffix reads the digit as one bit of four. -/
theorem hexLine_differs :
    irInitLowering 1 1 "rom.bin".toList (renderBin 1 [1]) = .ok [1] ∧
    irInitLowering 1 1 "rom.hex".toList (renderHex 1 [1]) = .error .exceedsSize ∧
    irInitLowering 4 1 "rom.hex".toList (renderHex 4 [1]) = .ok [1] ∧
    irInitLowering 4 1 "rom.mem".toList (renderHex 4 [1]) = .ok [8] := by
  decide +kernel

end JzHdl

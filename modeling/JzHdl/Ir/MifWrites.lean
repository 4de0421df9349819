import JzHdl.Ir.MifFile

/-! # Writes of MIF statements

A MIF statement stands for writes of tokens to addresses, and the last write of an
address gives its word. The loader is compared with these writes, token by token and
then statement by statement.
-/

namespace JzHdl

open ByteCodec

/-! ## Numbers of tokens -/

def tokenDigits (base : ℕ) (digits : List Char) : Option ℕ :=
  if digits = [] then none else wholeDigits base 0 digits

/-- The number that a token stands for. Decimal tokens may have a sign, and only signed ones may be
negative. -/
def tokenNumber (radix : MemInitRadix) (token : List Char) : Option ℤ :=
  match token.filter (· ≠ '_') with
  | '-' :: digits =>
    if radix = .dec then (tokenDigits 10 digits).map fun n : ℕ => -(n : ℤ) else none
  | '+' :: digits =>
    if radix = .dec ∨ radix = .uns then (tokenDigits 10 digits).map fun n : ℕ => (n : ℤ) else none
  | digits => (tokenDigits radix.base digits).map fun n : ℕ => (n : ℤ)

/-- The number is one of the words of the width, with or without a sign. -/
def TokenFits (w : ℕ) (radix : MemInitRadix) (token : List Char) : Prop :=
  ∃ v, tokenNumber radix token = some v ∧ -2 ^ w ≤ 2 * v ∧ v < 2 ^ w

/-- The word of a token, with a negative number in two's complement. -/
def tokenWord (w : ℕ) (radix : MemInitRadix) (token : List Char) : ℕ :=
  ((tokenNumber radix token).getD 0 % 2 ^ w).toNat

/-! ## Loaded tokens -/

/-- A number without a minus sign goes through 64 bits and is cut to the word. -/
def plainWord (w n : ℕ) : ℕ := min (2 ^ 64 - 1) n % 2 ^ min w 64

/-- A number behind a minus sign goes through 64 bits and is extended by ones. -/
def minusWord (w n : ℕ) : ℕ :=
  let encoded := (2 ^ 64 - min (2 ^ 63) n) % 2 ^ 64
  if w ≤ 64 then encoded % 2 ^ w else encoded + (2 ^ w - 2 ^ 64)

def decimalWord (w : ℕ) (signed : Bool) : List Char → Option ℕ
  | '-' :: digits => if signed then (tokenDigits 10 digits).map (minusWord w) else none
  | '+' :: digits => (tokenDigits 10 digits).map (plainWord w)
  | digits => (tokenDigits 10 digits).map (plainWord w)

/-- What the loader makes of a token. -/
def loadedWord (w : ℕ) (radix : MemInitRadix) (token : List Char) : Option ℕ :=
  if radix = .dec ∨ radix = .uns then decimalWord w (radix = .dec) (token.filter (· ≠ '_'))
  else (wholeDigits radix.base 0 (token.filter (· ≠ '_'))).filter fun n => n < 2 ^ w

section

variable {w k addr : ℕ}

theorem tokenDigits_noXz {digits : List Char} {n : ℕ} (h : tokenDigits 10 digits = some n) :
    ∀ c ∈ digits, isXz c = false := by
  intro c hc
  rw [tokenDigits] at h
  split at h
  · cases h
  · exact isXz_digit ((wholeDigits_digits h c hc).trans (by decide))

theorem decimalWord_noXz {signed : Bool} {clean : List Char} {n : ℕ}
    (h : decimalWord w signed clean = some n) : ∀ c ∈ clean, isXz c = false := by
  have hcons : ∀ {x : Char} {digits : List Char} {f : ℕ → ℕ}, isXz x = false →
      (tokenDigits 10 digits).map f = some n → ∀ c ∈ x :: digits, isXz c = false := by
    intro x digits f hx hmap c hc
    obtain ⟨m, hm, -⟩ := Option.map_eq_some_iff.mp hmap
    rcases List.mem_cons.mp hc with rfl | hc
    · exact hx
    · exact tokenDigits_noXz hm c hc
  unfold decimalWord at h
  split at h
  · split at h
    · exact hcons (by decide) h
    · cases h
  · exact hcons (by decide) h
  · obtain ⟨m, hm, -⟩ := Option.map_eq_some_iff.mp h
    exact tokenDigits_noXz hm

theorem strtollMinus_eq (digits : List Char) : strtollMinus digits =
    (tokenDigits 10 digits).map fun n => -((min (2 ^ 63) n : ℕ) : ℤ) := by
  rw [strtollMinus, tokenDigits]
  split
  · rfl
  · rfl

theorem tokenDigits_strtoull (body : List Char) :
    (if (match body with
        | '0' :: x :: rest => if 10 = 16 ∧ (x = 'x' ∨ x = 'X') ∧ rest ≠ [] then rest else body
        | _ => body) = [] then none
      else (wholeDigits 10 0 (match body with
        | '0' :: x :: rest => if 10 = 16 ∧ (x = 'x' ∨ x = 'X') ∧ rest ≠ [] then rest else body
        | _ => body)).map (min (2 ^ 64 - 1))) = (tokenDigits 10 body).map (min (2 ^ 64 - 1)) := by
  have hbody : (match body with
      | '0' :: x :: rest => if 10 = 16 ∧ (x = 'x' ∨ x = 'X') ∧ rest ≠ [] then rest else body
      | _ => body) = body := by
    split
    · exact if_neg fun h => absurd h.1 (by decide)
    · rfl
  rw [hbody, tokenDigits]
  split
  · rfl
  · rfl

theorem strtoullWhole_plus (digits : List Char) : strtoullWhole 10 ('+' :: digits) =
    (tokenDigits 10 digits).map (min (2 ^ 64 - 1)) := by
  rw [strtoullWhole, List.dropWhile_cons_of_neg (by decide)]
  exact tokenDigits_strtoull digits

theorem strtoullWhole_plain {clean : List Char} (hsolid : ∀ c ∈ clean, isBoundSpace c = false)
    (hplus : ∀ rest, clean ≠ '+' :: rest) : strtoullWhole 10 clean =
      (tokenDigits 10 clean).map (min (2 ^ 64 - 1)) := by
  have hdrop : clean.dropWhile isBoundSpace = clean := by
    cases clean with
    | nil => rfl
    | cons c rest => exact List.dropWhile_cons_of_neg (by simp [hsolid c List.mem_cons_self])
  rw [strtoullWhole, hdrop]
  refine (tokenDigits_strtoull _).trans
    (congrArg (fun text => (tokenDigits 10 text).map (min (2 ^ 64 - 1))) ?_)
  split
  · exact absurd rfl (hplus _)
  · rfl

/-- The bits that are set for a number behind a minus sign are those of its word. -/
theorem minusWord_testBit (w n j : ℕ) : (minusWord w n).testBit j = true ↔
    j < w ∧ (decide (64 ≤ j) ||
      ((-((min (2 ^ 63) n : ℕ) : ℤ)) % 2 ^ 64).toNat.testBit j) = true := by
  have hencoded : ((-((min (2 ^ 63) n : ℕ) : ℤ)) % 2 ^ 64).toNat =
      (2 ^ 64 - min (2 ^ 63) n) % 2 ^ 64 := by omega
  rw [hencoded, minusWord]
  set encoded := (2 ^ 64 - min (2 ^ 63) n) % 2 ^ 64 with hset
  have hlt : encoded < 2 ^ 64 := Nat.mod_lt _ (by decide)
  split
  · rename_i hw
    rw [Nat.testBit_mod_two_pow, Bool.and_eq_true, decide_eq_true_iff, Bool.or_eq_true,
      decide_eq_true_iff]
    refine and_congr_right fun hj => ⟨.inr, fun h => h.resolve_left (by omega)⟩
  · rename_i hw
    -- The upper bits are ones.
    have hsplit : 2 ^ w - 2 ^ 64 = 2 ^ 64 * (2 ^ (w - 64) - 1) := by
      rw [Nat.mul_sub, ← pow_add, Nat.mul_one, Nat.add_sub_cancel' (by omega)]
    rw [hsplit, Nat.add_comm, Nat.testBit_two_pow_mul_add _ hlt, Bool.or_eq_true,
      decide_eq_true_iff]
    split
    · rename_i hj
      exact ⟨fun h => ⟨by omega, .inr h⟩, fun h => h.2.resolve_left (by omega)⟩
    · rename_i hj
      rw [Nat.testBit_two_pow_sub_one, decide_eq_true_iff]
      exact ⟨fun h => ⟨by omega, .inl (by omega)⟩, fun h => by omega⟩

theorem minusWord_lt (w n : ℕ) : minusWord w n < 2 ^ w :=
  testBits_lt.mp fun j hj => ((minusWord_testBit w n j).mp hj).1

theorem plainWord_lt (w n : ℕ) : plainWord w n < 2 ^ w :=
  (Nat.mod_lt _ (Nat.two_pow_pos _)).trans_le
    (Nat.pow_le_pow_right (by decide) (Nat.min_le_left _ _))

theorem setMinusBits_eq (hw : w ≤ 8 * k) (n : ℕ) {blob : Bytes}
    (hblob : addr * k + k ≤ blob.length) :
    setWordBits k addr (fun bit => 64 ≤ bit ||
        ((-((min (2 ^ 63) n : ℕ) : ℤ)) % 2 ^ 64).toNat.testBit bit) w (clearBlobWord k addr blob) =
      putWord k addr (minusWord w n) blob := by
  have hclear : addr * k + k ≤ (clearBlobWord k addr blob).length := by
    rwa [length_clearBlobWord]
  have hbits := (setWordBits_sets _ hclear w hw).congr
    (fun j => (minusWord w n).testBit j = true) fun j => (minusWord_testBit w n j).symm
  exact hbits.eq_putWord hblob ((minusWord_lt w n).trans_le (Nat.pow_le_pow_right (by decide) hw))

/-- What storing a token gives, if the loader makes this of it. -/
def StoresWord (k w addr : ℕ) (blob : Bytes) (result : Except MemInitError Bytes) :
    Option ℕ → Prop
  | some n => n < 2 ^ w ∧ result = .ok (putWord k addr n blob)
  | none => ∃ e, result = .error e

theorem storePlain_loaded (hw : w ≤ 8 * k) {blob : Bytes} (hblob : addr * k + k ≤ blob.length)
    {clean digits : List Char}
    (hread : strtoullWhole 10 clean = (tokenDigits 10 digits).map (min (2 ^ 64 - 1))) :
    StoresWord k w addr blob
      (match strtoullWhole 10 clean with
        | none => .error .invalidDecimal
        | some v => .ok (memInitStoreIntValue k w addr v blob))
      ((tokenDigits 10 digits).map (plainWord w)) := by
  rw [hread]
  cases tokenDigits 10 digits with
  | none => exact ⟨_, rfl⟩
  | some n => exact ⟨plainWord_lt w n, by
      rw [Option.map_some]
      exact congrArg _ (memInitStoreIntValue_eq hw hblob)⟩

theorem storeDecimal_loaded (hw : w ≤ 8 * k) {signed : Bool} {token : List Char}
    (hsolid : ∀ c ∈ token, isBoundSpace c = false) {blob : Bytes}
    (hblob : addr * k + k ≤ blob.length) :
    StoresWord k w addr blob (memInitStoreDecimalToken k w addr token signed blob)
      (decimalWord w signed (token.filter (· ≠ '_'))) := by
  have hclean : ∀ c ∈ token.filter (· ≠ '_'), isBoundSpace c = false := fun c hc =>
    hsolid c (List.mem_filter.mp hc).1
  rw [memInitStoreDecimalToken]
  by_cases hxz : token.any isXz = true
  · rw [if_pos hxz]
    cases hword : decimalWord w signed (token.filter (· ≠ '_')) with
    | none => exact ⟨_, rfl⟩
    | some n =>
      obtain ⟨c, hc, hcxz⟩ := List.any_eq_true.mp hxz
      have hplain := decimalWord_noXz hword c (List.mem_filter.mpr ⟨hc, by
        refine decide_eq_true ?_
        rintro rfl
        exact absurd hcxz (by decide)⟩)
      rw [hcxz] at hplain
      cases hplain
  rw [if_neg hxz]
  split
  · rename_i heq
    rw [heq]
    exact ⟨_, rfl⟩
  · rename_i digits heq
    rw [heq, decimalWord]
    split
    · rw [strtollMinus_eq]
      cases tokenDigits 10 digits with
      | none => exact ⟨_, rfl⟩
      | some n => exact ⟨minusWord_lt w n, congrArg _ (setMinusBits_eq hw n hblob)⟩
    · exact ⟨_, rfl⟩
  · rename_i hne hminus
    rcases Classical.em (∃ digits, token.filter (· ≠ '_') = '+' :: digits) with
      ⟨digits, heq⟩ | hplus
    · rw [heq]
      exact storePlain_loaded hw hblob (strtoullWhole_plus digits)
    · have hplus' : ∀ digits, token.filter (· ≠ '_') ≠ '+' :: digits := fun digits heq =>
        hplus ⟨digits, heq⟩
      rw [decimalWord.eq_3 _ _ _ hminus hplus']
      exact storePlain_loaded hw hblob (strtoullWhole_plain hclean hplus')

/-- A token with a character that is no digit is not stored. -/
theorem storeDigits_malformed {b : ℕ} (hb : b ≤ 4) : ∀ (text : List Char) (pos : ℕ) {blob : Bytes},
    revValue (2 ^ b) text = none → ∃ e, storeDigits k w addr b text pos blob = .error e
  | [], _, _, h => by cases h
  | c :: rest, pos, blob, h => by
      rw [revValue] at h
      rw [storeDigits]
      by_cases hc : c = '_'
      · rw [if_pos hc] at h ⊢
        exact storeDigits_malformed hb rest pos h
      · rw [if_neg hc] at h ⊢
        by_cases hxz : isXz c = true
        · exact ⟨_, if_pos hxz⟩
        · rw [if_neg hxz, memInitDigitValue]
          by_cases hdigit : boundDigit c < 2 ^ b
          · rw [if_pos hdigit]
            dsimp only
            cases hbits : storeDigitBits k w addr (boundDigit c) b pos blob with
            | error e => exact ⟨e, rfl⟩
            | ok blob' =>
              refine storeDigits_malformed hb rest (pos + b) ?_
              rw [Option.bind_eq_none_iff] at h
              by_contra hsome
              obtain ⟨v, hv⟩ := Option.ne_none_iff_exists'.mp hsome
              have hnone := h v hv
              rw [if_pos hdigit] at hnone
              cases hnone
          · rw [if_neg hdigit]
            exact ⟨_, rfl⟩

/-- The loader stores what it makes of a token, or fails. -/
theorem storeRadixToken_loaded (hw : w ≤ 8 * k) {radix : MemInitRadix} {token : List Char}
    (hsolid : ∀ c ∈ token, isBoundSpace c = false) {blob : Bytes}
    (hblob : addr * k + k ≤ blob.length) :
    StoresWord k w addr blob (memInitStoreRadixToken k w addr token radix blob)
      (loadedWord w radix token) := by
  rw [memInitStoreRadixToken, loadedWord]
  by_cases hdecimal : radix = .dec ∨ radix = .uns
  · rw [if_pos hdecimal, if_pos hdecimal]
    exact storeDecimal_loaded hw hsolid hblob
  rw [if_neg hdecimal, if_neg hdecimal]
  obtain ⟨b, hb, hbase, hdigit⟩ : ∃ b ≤ 4, radix.base = 2 ^ b ∧ radix.bitsPerDigit = b := by
    cases radix with
    | bin => exact ⟨1, by decide, rfl, rfl⟩
    | oct => exact ⟨3, by decide, rfl, rfl⟩
    | hex => exact ⟨4, by decide, rfl, rfl⟩
    | dec => exact absurd (.inl rfl) hdecimal
    | uns => exact absurd (.inr rfl) hdecimal
  rw [hbase, hdigit]
  cases hvalue : wholeDigits (2 ^ b) 0 (token.filter (· ≠ '_')) with
  | none =>
    have hrev : revValue (2 ^ b) token.reverse = none := by
      rw [← wholeDigits_reverse, List.reverse_reverse, hvalue]
    exact storeDigits_malformed hb token.reverse 0 hrev
  | some n =>
    rw [storeDigits_denotes hw hb hblob hvalue, Option.filter_some]
    split
    · rename_i hlt
      rw [if_pos (decide_eq_true hlt)]
      exact ⟨hlt, rfl⟩
    · rename_i hge
      rw [if_neg (by simpa using hge)]
      exact ⟨_, rfl⟩

end

/-! ## Exact tokens -/

/-- The number is not changed on its way through 64 bits. -/
def decimalKeeps (w : ℕ) : List Char → Prop
  | '-' :: digits => ∀ n ∈ tokenDigits 10 digits, w ≤ 64 ∨ 0 < n ∧ n ≤ 2 ^ 63
  | '+' :: digits => ∀ n ∈ tokenDigits 10 digits, n < 2 ^ 64
  | digits => ∀ n ∈ tokenDigits 10 digits, n < 2 ^ 64

/-- Only decimal tokens of more than 64 bits, and a negative zero of such a word, change. -/
def KeepsNumber (w : ℕ) (radix : MemInitRadix) (token : List Char) : Prop :=
  radix = .dec ∨ radix = .uns → decimalKeeps w (token.filter (· ≠ '_'))

section

variable {w : ℕ}

theorem plainWord_eq_iff {n : ℕ} (hn : n < 2 ^ w) : plainWord w n = n ↔ n < 2 ^ 64 := by
  rw [plainWord]
  constructor
  · intro heq
    have hlt : min (2 ^ 64 - 1) n % 2 ^ min w 64 < 2 ^ 64 :=
      (Nat.mod_le _ _).trans_lt ((Nat.min_le_left _ _).trans_lt (by decide))
    rwa [heq] at hlt
  · intro h64
    have hmin : n < 2 ^ min w 64 := by
      rcases Nat.le_total w 64 with hle | hle
      · rwa [Nat.min_eq_left hle]
      · rwa [Nat.min_eq_right hle]
    rw [Nat.min_eq_right (by omega), Nat.mod_eq_of_lt hmin]

theorem toNat_emod_neg {m : ℕ} (hm : m ≤ 2 ^ w) :
    ((-(m : ℤ)) % 2 ^ w).toNat = (2 ^ w - m) % 2 ^ w := by
  have hcast : (-(m : ℤ)) % 2 ^ w = (((2 ^ w - m : ℕ) : ℤ)) % ((2 ^ w : ℕ) : ℤ) := by
    rw [Nat.cast_sub hm, Nat.cast_pow, Nat.cast_ofNat, ← Int.add_emod_right, Int.add_comm]
    rfl
  rw [hcast, ← Int.natCast_emod, Int.toNat_natCast]

theorem minusWord_eq_iff {n : ℕ} (hn : 2 * n ≤ 2 ^ w) :
    minusWord w n = ((-(n : ℤ)) % 2 ^ w).toNat ↔ w ≤ 64 ∨ 0 < n ∧ n ≤ 2 ^ 63 := by
  rw [toNat_emod_neg (by omega), minusWord]
  split
  · rename_i hw
    refine iff_of_true ?_ (.inl hw)
    have hpow : 2 ^ w ≤ 2 ^ 64 := Nat.pow_le_pow_right (by decide) hw
    rw [Nat.min_eq_right (by omega), Nat.mod_mod_of_dvd _ (pow_dvd_pow 2 hw)]
    obtain ⟨q, hq⟩ := pow_dvd_pow 2 hw
    have hsplit : 2 ^ 64 - n = (2 ^ w - n) + 2 ^ w * (q - 1) := by
      have hrest : 2 ^ w * (q - 1) = 2 ^ 64 - 2 ^ w := by rw [Nat.mul_sub, ← hq, Nat.mul_one]
      omega
    rw [hsplit, Nat.add_mul_mod_self_left]
  · rename_i hw
    have hpow : 2 ^ 65 ≤ 2 ^ w := Nat.pow_le_pow_right (by decide) (by omega)
    have hmod : n = 0 ∨ (2 ^ w - n) % 2 ^ w = 2 ^ w - n := by
      rcases Nat.eq_zero_or_pos n with rfl | hpos
      · exact .inl rfl
      · exact .inr (Nat.mod_eq_of_lt (by omega))
    rcases hmod with rfl | hmod
    · rw [Nat.sub_zero, Nat.mod_self]
      omega
    · rw [hmod]
      omega

/-- A number that fits is stored, and it is stored as it is unless it is cut to 64 bits. -/
theorem TokenFits.loaded {radix : MemInitRadix} {token : List Char} (h : TokenFits w radix token) :
    ∃ n, loadedWord w radix token = some n ∧
      (n = tokenWord w radix token ↔ KeepsNumber w radix token) := by
  obtain ⟨v, hv, hlow, hhigh⟩ := h
  rw [tokenWord, hv, Option.getD_some, loadedWord, KeepsNumber]
  unfold tokenNumber at hv
  have hnat : ∀ {m : ℕ}, (m : ℤ) = v → m < 2 ^ w ∧ (v % 2 ^ w).toNat = m := by
    rintro m rfl
    have hlt : m < 2 ^ w := by exact_mod_cast hhigh
    refine ⟨hlt, ?_⟩
    rw [Int.emod_eq_of_lt (Int.natCast_nonneg m) hhigh, Int.toNat_natCast]
  have hplain : ∀ {digits : List Char},
      (tokenDigits 10 digits).map (fun n : ℕ => (n : ℤ)) = some v →
      ∃ n, (tokenDigits 10 digits).map (plainWord w) = some n ∧
        (n = (v % 2 ^ w).toNat ↔ ∀ m ∈ tokenDigits 10 digits, m < 2 ^ 64) := by
    intro digits hmap
    obtain ⟨m, hm, hmv⟩ := Option.map_eq_some_iff.mp hmap
    obtain ⟨hlt, hword⟩ := hnat hmv
    rw [hm]
    refine ⟨plainWord w m, rfl, ?_⟩
    rw [hword, plainWord_eq_iff hlt]
    exact ⟨fun h _ hx => Option.some.inj hx ▸ h, fun h => h m rfl⟩
  by_cases hdecimal : radix = .dec ∨ radix = .uns
  · have hbase : radix.base = 10 := by rcases hdecimal with rfl | rfl <;> rfl
    rw [if_pos hdecimal, forall_prop_of_true hdecimal]
    split at hv
    · rename_i digits heq
      split at hv
      · rename_i hdec
        obtain ⟨m, hm, rfl⟩ := Option.map_eq_some_iff.mp hv
        rw [heq, decimalWord, if_pos (by simp [hdec]), hm]
        refine ⟨minusWord w m, rfl, ?_⟩
        have hpow : ((2 ^ w : ℕ) : ℤ) = 2 ^ w := by push_cast; rfl
        rw [minusWord_eq_iff (by omega), decimalKeeps, hm]
        exact ⟨fun h _ hx => Option.some.inj hx ▸ h, fun h => h m rfl⟩
      · cases hv
    · rename_i digits heq
      rw [if_pos hdecimal] at hv
      rw [heq]
      exact hplain hv
    · rename_i hminus hplus
      rw [hbase] at hv
      rw [decimalWord.eq_3 _ _ _ hminus hplus, decimalKeeps.eq_3 _ _ hminus hplus]
      exact hplain hv
  · rw [if_neg hdecimal]
    split at hv
    · rw [if_neg fun h => hdecimal (.inl h)] at hv
      cases hv
    · rw [if_neg hdecimal] at hv
      cases hv
    · obtain ⟨m, hm, hmv⟩ := Option.map_eq_some_iff.mp hv
      obtain ⟨hlt, hword⟩ := hnat hmv
      rw [tokenDigits] at hm
      split at hm
      · cases hm
      · rw [hm, Option.filter_some, if_pos (decide_eq_true hlt)]
        exact ⟨m, rfl, iff_of_true hword.symm fun h => absurd h hdecimal⟩

end

/-! ## Statements -/

/-- A statement with one address and one with a range of addresses. -/
inductive MifStatement

  | plain (addr : ℕ) (tokens : List (List Char))

  | range (first last : ℕ) (tokens : List (List Char))

/-- Tokens at consecutive addresses. -/
def consecutiveWrites (first : ℕ) (tokens : List (List Char)) : List (ℕ × List Char) :=
  (tokens.zipIdx first).map Prod.swap

/-- Tokens at so many addresses, from one of them on and over and over again. -/
def cycleWrites (tokens : List (List Char)) (index first count : ℕ) : List (ℕ × List Char) :=
  (List.range count).map fun i => (first + i, tokens.getD ((index + i) % tokens.length) [])

namespace MifStatement

def tokens : MifStatement → List (List Char)
  | plain _ tokens => tokens
  | range _ _ tokens => tokens

def writes : MifStatement → List (ℕ × List Char)
  | plain addr tokens => consecutiveWrites addr tokens
  | range first last tokens => cycleWrites tokens 0 first (last + 1 - first)

end MifStatement

/-- The last token that is written to an address. -/
def lastToken : List (ℕ × List Char) → ℕ → Option (List Char)
  | [], _ => none
  | p :: ws, x => (lastToken ws x).or (if p.1 = x then some p.2 else none)

theorem lastToken_append (ws vs : List (ℕ × List Char)) (x : ℕ) :
    lastToken (ws ++ vs) x = (lastToken vs x).or (lastToken ws x) := by
  induction ws with
  | nil => rw [List.nil_append, lastToken, Option.or_none]
  | cons p ws ih => rw [List.cons_append, lastToken, ih, lastToken, Option.or_assoc]

theorem lastToken_none {ws : List (ℕ × List Char)} {x : ℕ} :
    lastToken ws x = none ↔ ∀ p ∈ ws, p.1 ≠ x := by
  induction ws with
  | nil => simp [lastToken]
  | cons p ws ih =>
    rw [lastToken, Option.or_eq_none_iff, ih, List.forall_mem_cons, and_comm]
    refine and_congr_left fun _ => ?_
    split
    · rename_i heq
      simp [heq]
    · rename_i hne
      simp [hne]

theorem lastToken_mem {ws : List (ℕ × List Char)} {x : ℕ} {token : List Char}
    (h : lastToken ws x = some token) : (x, token) ∈ ws := by
  induction ws with
  | nil => cases h
  | cons p ws ih =>
    rw [lastToken, Option.or_eq_some_iff] at h
    rcases h with h | ⟨-, h⟩
    · exact List.mem_cons_of_mem _ (ih h)
    · split at h
      · rename_i heq
        obtain rfl := Option.some.inj h
        exact heq ▸ List.mem_cons_self
      · cases h

/-- Both lists have the same writes, and they leave the same tokens. -/
structure SameWrites (ws vs : List (ℕ × List Char)) : Prop where

  mem : ∀ p, p ∈ ws ↔ p ∈ vs

  last : ∀ x, lastToken ws x = lastToken vs x

/-- Writes that are repeated later do not count. -/
theorem SameWrites.of_subset {early ws : List (ℕ × List Char)} (h : ∀ p ∈ early, p ∈ ws) :
    SameWrites (early ++ ws) ws where
  mem p := by
    rw [List.mem_append]
    exact ⟨fun hp => hp.elim (h p) id, .inr⟩
  last x := by
    rw [lastToken_append]
    cases hlast : lastToken ws x with
    | some token => rfl
    | none =>
      rw [lastToken_none] at hlast
      exact lastToken_none.mpr fun p hp => hlast p (h p hp)

/-! ## Applied writes -/

def wordAt (k addr : ℕ) (blob : Bytes) : ℕ := ofBigEndian ((blob.drop (addr * k)).take k)

theorem wordAt_putWord {k addr n x : ℕ} {blob : Bytes} (hblob : addr * k + k ≤ blob.length)
    (hn : n < 256 ^ k) :
    wordAt k x (putWord k addr n blob) = if x = addr then n else wordAt k x blob := by
  have hstored := storedAs_putWord hblob hn
  split
  · rename_i heq
    rw [heq]
    exact hstored.value
  · rename_i hne
    rw [wordAt, wordAt]
    rcases Nat.lt_or_gt_of_ne hne with hlt | hgt
    · have hle : x * k + k ≤ addr * k := by
        rw [← Nat.succ_mul]
        exact Nat.mul_le_mul_right _ hlt
      have htake : ∀ bytes : Bytes, (bytes.drop (x * k)).take k =
          ((bytes.take (addr * k)).take (x * k + k)).drop (x * k) := by
        intro bytes
        rw [List.take_take, Nat.min_eq_left hle, List.drop_take, Nat.add_sub_cancel_left]
      rw [htake, htake, hstored.before]
    · have hle : addr * k + k ≤ x * k := by
        rw [← Nat.succ_mul]
        exact Nat.mul_le_mul_right _ hgt
      have hdrop : ∀ bytes : Bytes, bytes.drop (x * k) =
          (bytes.drop (addr * k + k)).drop (x * k - (addr * k + k)) := by
        intro bytes
        rw [List.drop_drop, Nat.add_sub_cancel' hle]
      rw [hdrop, hdrop, hstored.behind]

section

variable (k w d : ℕ) (radix : MemInitRadix)

/-- A write behind the memory, or of a token that the loader does not take. -/
def BadWrite (p : ℕ × List Char) : Prop := d ≤ p.1 ∨ loadedWord w radix p.2 = none

/-- The result fails at a bad write, and else it has the last token of every address. -/
structure Applies (ws : List (ℕ × List Char)) (blob : Bytes) (result : Except MemInitError Bytes) :
    Prop where

  fails : (∃ p ∈ ws, BadWrite w d radix p) → ∃ e, result = .error e

  loads : (∀ p ∈ ws, ¬ BadWrite w d radix p) → ∃ blob', result = .ok blob' ∧
    blob'.length = blob.length ∧ ∀ x < d, wordAt k x blob' =
      (lastToken ws x).elim (wordAt k x blob) fun token => (loadedWord w radix token).getD 0

end

section

variable {k w d : ℕ} {radix : MemInitRadix} {ws vs : List (ℕ × List Char)} {blob : Bytes}
  {result : Except MemInitError Bytes}

theorem Applies.nil : Applies k w d radix [] blob (.ok blob) where
  fails := fun ⟨_, hp, _⟩ => absurd hp List.not_mem_nil
  loads _ := ⟨blob, rfl, rfl, fun _ _ => rfl⟩

theorem Applies.of_bad (hbad : ∃ p ∈ ws, BadWrite w d radix p) (h : ∃ e, result = .error e) :
    Applies k w d radix ws blob result where
  fails _ := h
  loads hgood := by
    obtain ⟨p, hp, hpbad⟩ := hbad
    exact absurd hpbad (hgood p hp)

theorem Applies.congr (h : Applies k w d radix ws blob result) (hsame : SameWrites ws vs) :
    Applies k w d radix vs blob result where
  fails := fun ⟨p, hp, hbad⟩ => h.fails ⟨p, (hsame.mem p).mpr hp, hbad⟩
  loads hgood := by
    obtain ⟨blob', hok, hlen, hwords⟩ := h.loads fun p hp => hgood p ((hsame.mem p).mp hp)
    exact ⟨blob', hok, hlen, fun x hx => by rw [hwords x hx, hsame.last x]⟩

theorem Applies.seq {next : Bytes → Except MemInitError Bytes}
    (h : Applies k w d radix ws blob result)
    (hnext : ∀ blob', blob'.length = blob.length → Applies k w d radix vs blob' (next blob')) :
    Applies k w d radix (ws ++ vs) blob (result.bind next) := by
  by_cases hbad : ∃ p ∈ ws, BadWrite w d radix p
  · obtain ⟨e, rfl⟩ := h.fails hbad
    obtain ⟨p, hp, hpbad⟩ := hbad
    exact .of_bad ⟨p, List.mem_append_left _ hp, hpbad⟩ ⟨e, rfl⟩
  · have hgood : ∀ p ∈ ws, ¬ BadWrite w d radix p := fun p hp hpbad => hbad ⟨p, hp, hpbad⟩
    obtain ⟨blob₁, rfl, hlen₁, hwords₁⟩ := h.loads hgood
    have happlies := hnext blob₁ hlen₁
    refine ⟨?_, fun hall => ?_⟩
    · rintro ⟨p, hp, hpbad⟩
      refine happlies.fails ⟨p, ?_, hpbad⟩
      exact (List.mem_append.mp hp).resolve_left fun hp => hgood p hp hpbad
    · obtain ⟨blob₂, hok₂, hlen₂, hwords₂⟩ := happlies.loads fun p hp =>
        hall p (List.mem_append_right _ hp)
      refine ⟨blob₂, hok₂, hlen₂.trans hlen₁, fun x hx => ?_⟩
      rw [hwords₂ x hx, hwords₁ x hx, lastToken_append]
      cases lastToken vs x with
      | none => rfl
      | some token => rfl

end

/-! ## The loader -/

section

variable {k w d : ℕ} {radix : MemInitRadix} (hw : w ≤ 8 * k)
include hw

theorem applies_store {addr : ℕ} {token : List Char} (hsolid : ∀ c ∈ token, isBoundSpace c = false)
    {blob : Bytes} (hblob : blob.length = k * d) :
    Applies k w d radix [(addr, token)] blob
      (if d ≤ addr then .error .exceedsSize
        else memInitStoreRadixToken k w addr token radix blob) := by
  by_cases haddr : d ≤ addr
  · rw [if_pos haddr]
    exact .of_bad ⟨_, List.mem_singleton_self _, .inl haddr⟩ ⟨_, rfl⟩
  rw [if_neg haddr]
  have hword : ∀ {x : ℕ}, x < d → x * k + k ≤ blob.length := by
    intro x hx
    rw [hblob, ← Nat.succ_mul, Nat.mul_comm k]
    exact Nat.mul_le_mul_right _ hx
  have hstore := @storeRadixToken_loaded w k addr hw radix token hsolid blob (hword (by omega))
  cases hloaded : loadedWord w radix token with
  | none =>
    rw [hloaded] at hstore
    exact .of_bad ⟨_, List.mem_singleton_self _, .inr hloaded⟩ hstore
  | some n =>
    rw [hloaded] at hstore
    obtain ⟨hlt, hok⟩ := hstore
    refine ⟨?_, fun _ => ⟨_, hok, length_putWord (hword (by omega)), fun x hx => ?_⟩⟩
    · rintro ⟨p, hp, hbad⟩
      rw [List.mem_singleton.mp hp] at hbad
      rcases hbad with hbad | hbad
      · exact absurd hbad haddr
      · rw [hloaded] at hbad
        cases hbad
    · have hbytes : n < 256 ^ k := by
        rw [show 256 = 2 ^ 8 from rfl, ← pow_mul]
        exact hlt.trans_le (Nat.pow_le_pow_right (by decide) hw)
      rw [wordAt_putWord (hword (by omega)) hbytes, lastToken, lastToken, Option.none_or]
      by_cases heq : x = addr
      · rw [if_pos heq, if_pos heq.symm, Option.elim_some, hloaded, Option.getD_some]
      · rw [if_neg heq, if_neg (Ne.symm heq), Option.elim_none]

omit hw in
theorem storeTokens_cons (token : List Char) (tokens : List (List Char)) (addr : ℕ) (blob : Bytes) :
    storeTokens k w d radix (token :: tokens) addr blob =
      (if d ≤ addr then .error .exceedsSize
        else memInitStoreRadixToken k w addr token radix blob).bind
          (storeTokens k w d radix tokens (addr + 1)) := by
  rw [storeTokens]
  split
  · rfl
  · cases memInitStoreRadixToken k w addr token radix blob <;> rfl

omit hw in
theorem storeCycle_succ (tokens : List (List Char)) {stop fuel index addr : ℕ}
    (h : addr ≤ stop) (blob : Bytes) :
    storeCycle k w d radix tokens stop (fuel + 1) index addr blob =
      (if d ≤ addr then .error .exceedsSize
        else memInitStoreRadixToken k w addr (tokens.getD (index % tokens.length) []) radix
          blob).bind (storeCycle k w d radix tokens stop fuel (index + 1) (addr + 1)) := by
  rw [storeCycle, if_neg (by omega)]
  split
  · rfl
  · cases memInitStoreRadixToken k w addr (tokens.getD (index % tokens.length) []) radix blob
    · rfl
    · rfl

omit hw in
theorem cycleWrites_succ (tokens : List (List Char)) (index first count : ℕ) :
    cycleWrites tokens index first (count + 1) =
      (first, tokens.getD (index % tokens.length) []) ::
        cycleWrites tokens (index + 1) (first + 1) count := by
  rw [cycleWrites, List.range_succ_eq_map, List.map_cons, List.map_map]
  refine congrArg _ (List.map_congr_left fun i _ => ?_)
  rw [Function.comp_apply, Nat.succ_eq_add_one, Nat.add_assoc first, Nat.add_assoc index,
    Nat.add_comm 1 i]

theorem applies_storeTokens : ∀ (tokens : List (List Char)) (addr : ℕ) {blob : Bytes},
    (∀ token ∈ tokens, ∀ c ∈ token, isBoundSpace c = false) → blob.length = k * d →
      Applies k w d radix (consecutiveWrites addr tokens) blob
        (storeTokens k w d radix tokens addr blob)
  | [], _, _, _, _ => .nil
  | token :: tokens, addr, blob, hsolid, hblob => by
      have hfirst : Applies k w d radix [(addr, token)] blob _ :=
        applies_store hw (hsolid token List.mem_cons_self) hblob
      rw [storeTokens_cons]
      exact hfirst.seq fun blob' hlen => applies_storeTokens tokens (addr + 1)
        (fun t ht => hsolid t (List.mem_cons_of_mem _ ht)) (hlen.trans hblob)

theorem applies_storeCycle {tokens : List (List Char)} (hne : tokens ≠ [])
    (hsolid : ∀ token ∈ tokens, ∀ c ∈ token, isBoundSpace c = false) {stop : ℕ} :
    ∀ (fuel index addr : ℕ) {blob : Bytes}, stop + 1 - addr ≤ fuel → blob.length = k * d →
      Applies k w d radix (cycleWrites tokens index addr (stop + 1 - addr)) blob
        (storeCycle k w d radix tokens stop fuel index addr blob)
  | 0, index, addr, blob, hfuel, _ => by
      rw [Nat.le_zero.mp hfuel]
      exact .nil
  | fuel + 1, index, addr, blob, hfuel, hblob => by
      by_cases hstop : stop < addr
      · rw [storeCycle, if_pos hstop, show stop + 1 - addr = 0 by omega]
        exact .nil
      · have htoken : ∀ c ∈ tokens.getD (index % tokens.length) [], isBoundSpace c = false := by
          have hlt := Nat.mod_lt index (List.length_pos_of_ne_nil hne)
          rw [List.getD_eq_getElem _ _ hlt]
          exact hsolid _ (List.getElem_mem hlt)
        have hfirst : Applies k w d radix [(addr, tokens.getD (index % tokens.length) [])] blob _ :=
          applies_store hw htoken hblob
        rw [show stop + 1 - addr = stop + 1 - (addr + 1) + 1 by omega, cycleWrites_succ,
          storeCycle_succ tokens (by omega)]
        exact hfirst.seq fun blob' hlen => applies_storeCycle hne hsolid fuel (index + 1) (addr + 1)
          (by omega) (hlen.trans hblob)

omit hw in
/-- A cycle that goes on behind the memory fails when it gets there. -/
theorem storeCycle_late (tokens : List (List Char)) {stop : ℕ} (hd : d ≤ stop) :
    ∀ (fuel index addr : ℕ) (blob : Bytes), addr ≤ stop → d - addr < fuel →
      ∃ e, storeCycle k w d radix tokens stop fuel index addr blob = .error e
  | 0, _, _, _, _, hfuel => absurd hfuel (Nat.not_lt_zero _)
  | fuel + 1, index, addr, blob, hstop, hfuel => by
      rw [storeCycle_succ tokens hstop]
      by_cases haddr : d ≤ addr
      · rw [if_pos haddr]
        exact ⟨_, rfl⟩
      · rw [if_neg haddr]
        cases memInitStoreRadixToken k w addr (tokens.getD (index % tokens.length) []) radix
          blob with
        | error e => exact ⟨e, rfl⟩
        | ok blob' =>
          exact storeCycle_late tokens hd fuel (index + 1) (addr + 1) blob' (by omega) (by omega)

omit hw in
theorem mem_consecutiveWrites {tokens : List (List Char)} {first x : ℕ} {token : List Char} :
    (x, token) ∈ consecutiveWrites first tokens ↔
      first ≤ x ∧ tokens[x - first]? = some token := by
  have hzip := @List.mem_zipIdx_iff_le_and_getElem?_sub _ (token, x) tokens first
  rw [consecutiveWrites, List.mem_map, ← hzip]
  constructor
  · rintro ⟨y, hy, heq⟩
    obtain rfl : y = (token, x) := Prod.swap_injective heq
    exact hy
  · exact fun hp => ⟨_, hp, rfl⟩

omit hw in
theorem mem_cycleWrites {tokens : List (List Char)} {index first count : ℕ}
    {p : ℕ × List Char} : p ∈ cycleWrites tokens index first count ↔
      ∃ i < count, (first + i, tokens.getD ((index + i) % tokens.length) []) = p := by
  simp only [cycleWrites, List.mem_map, List.mem_range]

omit hw in
theorem asInt_toNat {n : ℕ} (hn : n < 2 ^ 31) : (asInt (n % 2 ^ 64)).toNat = n := by
  have hint : asInt n = n := Int.bmod_eq_of_le (by omega) (by omega)
  rw [Nat.mod_eq_of_lt (show n < 2 ^ 64 by omega), hint, Int.toNat_natCast]

omit hw in
/-- The first tokens of a range are at the addresses where the cycle has them. -/
theorem consecutive_subset_cycle {tokens : List (List Char)} {first count : ℕ} :
    ∀ p ∈ consecutiveWrites first (tokens.take count), p ∈ cycleWrites tokens 0 first count := by
  rintro ⟨x, token⟩ hp
  obtain ⟨hfirst, htoken⟩ := mem_consecutiveWrites.mp hp
  rw [List.getElem?_take] at htoken
  split at htoken
  · rename_i hcount
    obtain ⟨hlt, hget⟩ := List.getElem?_eq_some_iff.mp htoken
    refine mem_cycleWrites.mpr ⟨x - first, hcount, ?_⟩
    rw [Nat.zero_add, Nat.mod_eq_of_lt hlt, Nat.add_sub_cancel' hfirst,
      List.getD_eq_getElem _ _ hlt, hget]
  · cases htoken

/-- The loader writes the tokens of a plain statement from its address on. -/
theorem applies_plainEntry {tokens : List (List Char)} (hne : tokens ≠ [])
    (hsolid : ∀ token ∈ tokens, ∀ c ∈ token, isBoundSpace c = false)
    {blob : Bytes} (hblob : blob.length = k * d) (addr : ℕ) :
    Applies k w d radix (consecutiveWrites addr tokens) blob
      (storeEntry k w d radix addr addr false tokens blob) := by
  have hstore : ∀ {blob : Bytes}, blob.length = k * d → Applies k w d radix
      (consecutiveWrites addr tokens) blob (storeTokens k w d radix tokens addr blob) :=
    fun hblob => applies_storeTokens hw tokens addr hsolid hblob
  -- Several tokens are stored twice.
  have htwice : storeEntry k w d radix addr addr false tokens blob =
      (storeTokens k w d radix tokens addr blob).bind fun blob' =>
        if 1 < tokens.length then storeTokens k w d radix tokens addr blob' else .ok blob' := by
    rw [storeEntry, if_neg Bool.false_ne_true]
    cases storeTokens k w d radix tokens addr blob with
    | error e => rfl
    | ok blob' =>
      dsimp only
      rw [if_neg hne, if_neg Bool.false_ne_true]
      rfl
  rw [htwice]
  by_cases hone : 1 < tokens.length
  · simp only [if_pos hone]
    exact ((hstore hblob).seq fun blob' hlen => hstore (hlen.trans hblob)).congr
      (.of_subset fun _ hp => hp)
  · simp only [if_neg hone]
    have happlies := @Applies.seq k w d radix _ [] blob _ .ok (hstore hblob) fun _ _ => .nil
    rwa [List.append_nil] at happlies

/-- The loader writes the tokens of a range over and over again up to its last address. -/
theorem applies_rangeEntry {tokens : List (List Char)} (hne : tokens ≠ [])
    (hsolid : ∀ token ∈ tokens, ∀ c ∈ token, isBoundSpace c = false) (hd : d ≤ memInitMifDepth)
    {blob : Bytes} (hblob : blob.length = k * d) {first last : ℕ} (hle : first ≤ last) :
    Applies k w d radix (cycleWrites tokens 0 first (last + 1 - first)) blob
      (storeEntry k w d radix first last true tokens blob) := by
  set counted := tokens.take (asInt ((last - first + 1) % 2 ^ 64)).toNat with hcounted
  set start := if tokens.length = 1 then first + 1 else first with hstart
  -- The first round is stored before the cycle.
  have htwice : storeEntry k w d radix first last true tokens blob =
      (storeTokens k w d radix counted first blob).bind
        (storeCycle k w d radix tokens last (d + 1) 0 start) := by
    rw [storeEntry, if_pos rfl, ← hcounted]
    cases storeTokens k w d radix counted first blob with
    | error e => rfl
    | ok blob' =>
      dsimp only
      rw [if_neg hne, if_pos rfl, hstart]
      split <;> rfl
  have hround := @applies_storeTokens k w d radix hw counted first blob
    (fun token ht => hsolid token (List.mem_of_mem_take ht)) hblob
  have hpos : 0 < tokens.length := List.length_pos_of_ne_nil hne
  rw [htwice]
  by_cases hlast : d ≤ last
  · have hbad : ∃ p ∈ cycleWrites tokens 0 first (last + 1 - first), BadWrite w d radix p :=
      ⟨_, mem_cycleWrites.mpr ⟨last - first, by omega, rfl⟩, .inl (by dsimp only; omega)⟩
    refine .of_bad hbad ?_
    rcases Nat.lt_or_ge last start with hover | hstop
    · -- A single token of a single address is stored by the first round alone.
      have hone : tokens.length = 1 ∧ first = last := by
        rw [hstart] at hover
        split at hover <;> omega
      have hcount : counted = tokens := by
        rw [hcounted, hone.2, Nat.sub_self]
        exact List.take_of_length_le hone.1.le
      obtain ⟨token, htoken⟩ := List.exists_mem_of_ne_nil tokens hne
      have hwrite : (first, tokens.getD 0 []) ∈ consecutiveWrites first counted := by
        rw [hcount]
        refine mem_consecutiveWrites.mpr ⟨le_rfl, ?_⟩
        rw [Nat.sub_self, List.getD_eq_getElem _ _ hpos, List.getElem?_eq_getElem hpos]
      obtain ⟨e, he⟩ := hround.fails ⟨_, hwrite, .inl (by dsimp only; omega)⟩
      exact ⟨e, by rw [he]; rfl⟩
    · cases storeTokens k w d radix counted first blob with
      | error e => exact ⟨e, rfl⟩
      | ok blob' =>
        have hlate : ∃ e, storeCycle k w d radix tokens last (d + 1) 0 start blob' = .error e :=
          storeCycle_late tokens hlast (d + 1) 0 start blob' hstop (by omega)
        obtain ⟨e, he⟩ := hlate
        exact ⟨e, by rw [← he]; rfl⟩
  · have hdepth : memInitMifDepth < 2 ^ 31 := by decide
    rw [asInt_toNat (by omega), show last - first + 1 = last + 1 - first by omega] at hcounted
    have hcycle : ∀ blob', blob'.length = blob.length →
        Applies k w d radix (cycleWrites tokens 0 start (last + 1 - start)) blob'
          (storeCycle k w d radix tokens last (d + 1) 0 start blob') := fun blob' hlen =>
      applies_storeCycle hw hne hsolid (d + 1) 0 start (by omega) (hlen.trans hblob)
    have happlies := hround.seq hcycle
    by_cases hone : tokens.length = 1
    · obtain ⟨token, htoken⟩ := List.length_eq_one_iff.mp hone
      have hsingle : ∀ i j n, cycleWrites tokens i j n = cycleWrites tokens 0 j n := by
        intro i j n
        simp only [cycleWrites, hone, Nat.mod_one]
      have hall : counted = tokens := by
        rw [hcounted]
        exact List.take_of_length_le (by omega)
      rw [hstart, if_pos hone, hall] at happlies
      rw [hstart, if_pos hone, hall, show last + 1 - first = last + 1 - (first + 1) + 1 by omega,
        cycleWrites_succ, hsingle 1]
      have hwrites : (first, tokens.getD (0 % tokens.length) []) ::
          cycleWrites tokens 0 (first + 1) (last + 1 - (first + 1)) =
            consecutiveWrites first tokens ++
              cycleWrites tokens 0 (first + 1) (last + 1 - (first + 1)) := by
        rw [htoken]
        rfl
      rw [hwrites]
      exact happlies
    · rw [hstart, if_neg hone] at happlies ⊢
      exact happlies.congr (.of_subset (hcounted ▸ consecutive_subset_cycle))

end

end JzHdl

import JzHdl.Lib.ByteCodec
import Mathlib.Data.Nat.Digits.Defs

/-! # Texts of words

A text of words with white space between them, read back word by word, and
decimal numbers as words.
-/

namespace WordText

open ByteCodec

def ascii (s : String) : Bytes := s.toList.map fun c => UInt8.ofNat c.toNat

/-- A word is not empty and has no control character and no blank. -/
def IsWord (w : Bytes) : Prop := w ≠ [] ∧ ∀ b ∈ w, 32 < b

instance (w : Bytes) : Decidable (IsWord w) :=
  decidable_of_iff (w ≠ [] ∧ (w.all fun b => decide (32 < b)) = true) (by simp [IsWord])

/-! ## Splitting -/

/-- The words of a text behind a word that is still open. -/
def wordsFrom : Bytes → Bytes → List Bytes
  | started, [] => if started = [] then [] else [started]
  | started, b :: rest =>
    if 32 < b then wordsFrom (started ++ [b]) rest
    else if started = [] then wordsFrom [] rest
    else started :: wordsFrom [] rest

def words (text : Bytes) : List Bytes := wordsFrom [] text

theorem wordsFrom_append : ∀ {w : Bytes} (started rest : Bytes), (∀ b ∈ w, 32 < b) →
    wordsFrom started (w ++ rest) = wordsFrom (started ++ w) rest
  | [], started, rest, _ => by rw [List.nil_append, List.append_nil]
  | b :: w, started, rest, h => by
      rw [List.cons_append, wordsFrom, if_pos (h b (List.mem_cons_self ..)),
        wordsFrom_append _ _ fun c hc => h c (List.mem_cons_of_mem _ hc), List.append_assoc,
        List.singleton_append]

theorem words_blank {b : UInt8} (h : ¬ 32 < b) (rest : Bytes) : words (b :: rest) = words rest := by
  rw [words, wordsFrom, if_neg h, if_pos rfl, words]

theorem words_word {w : Bytes} {b : UInt8} (hw : IsWord w) (hb : ¬ 32 < b) (rest : Bytes) :
    words (w ++ b :: rest) = w :: words rest := by
  rw [words, wordsFrom_append _ _ hw.2, List.nil_append, wordsFrom, if_neg hb, if_neg hw.1, words]

theorem IsWord.append {v w : Bytes} (hv : IsWord v) (hw : IsWord w) : IsWord (v ++ w) :=
  ⟨by simp [hv.1], fun b hb => (List.mem_append.mp hb).elim (hv.2 b) (hw.2 b)⟩

/-- Words with a blank between them, ended by a line feed. -/
def line : List Bytes → Bytes
  | [] => [10]
  | [w] => w ++ [10]
  | w :: next :: rest => w ++ 32 :: line (next :: rest)

theorem words_line : ∀ {ws : List Bytes} (rest : Bytes), (∀ w ∈ ws, IsWord w) →
    words (line ws ++ rest) = ws ++ words rest
  | [], rest, _ => words_blank (by decide) rest
  | [w], rest, h => by
      rw [line, List.append_assoc, List.singleton_append,
        words_word (h w (List.mem_cons_self ..)) (by decide), List.singleton_append]
  | w :: next :: more, rest, h => by
      rw [line, List.append_assoc, List.cons_append,
        words_word (h w (List.mem_cons_self ..)) (by decide),
        words_line rest fun v hv => h v (List.mem_cons_of_mem _ hv), List.cons_append,
        List.cons_append, List.cons_append]

/-! ## Decimal numbers -/

def isDigit (b : UInt8) : Bool := decide (48 ≤ b.toNat) && decide (b.toNat ≤ 57)

def decimal (n : ℕ) : Bytes :=
  if n = 0 then [48] else (Nat.digits 10 n).reverse.map fun d => UInt8.ofNat (48 + d)

def readDecimal (bs : Bytes) : ℕ := bs.foldl (fun n b => n * 10 + (b.toNat - 48)) 0

theorem decimal_digits (n : ℕ) : ∀ b ∈ decimal n, isDigit b = true := by
  intro b hb
  rw [decimal] at hb
  split at hb
  · obtain rfl := List.mem_singleton.mp hb
    rfl
  · obtain ⟨d, hd, rfl⟩ := List.mem_map.mp hb
    have hlt : d < 10 := Nat.digits_lt_base (by decide) (List.mem_reverse.mp hd)
    have hbyte : (UInt8.ofNat (48 + d)).toNat = 48 + d := toNat_ofNat (by omega)
    simp only [isDigit, hbyte, Bool.and_eq_true, decide_eq_true_eq]
    omega

theorem decimal_ne_nil (n : ℕ) : decimal n ≠ [] := by
  rw [decimal]
  split
  · simp
  · rename_i hn
    simpa [Nat.digits_eq_nil_iff_eq_zero] using hn

theorem isWord_of_digits {bs : Bytes} (hne : bs ≠ []) (h : ∀ b ∈ bs, isDigit b = true) :
    IsWord bs := by
  refine ⟨hne, fun b hb => ?_⟩
  have hd := h b hb
  simp only [isDigit, Bool.and_eq_true, decide_eq_true_eq] at hd
  rw [UInt8.lt_iff_toNat_lt]
  exact lt_of_lt_of_le (by decide) hd.1

theorem decimal_isWord (n : ℕ) : IsWord (decimal n) :=
  isWord_of_digits (decimal_ne_nil n) (decimal_digits n)

theorem readDecimal_decimal (n : ℕ) : readDecimal (decimal n) = n := by
  rw [decimal, readDecimal]
  split
  · rename_i hn
    rw [hn]
    rfl
  · rw [List.foldl_map, List.foldl_reverse]
    have hdigits : ∀ ds : List ℕ, (∀ d ∈ ds, d < 10) →
        ds.foldr (fun d n => n * 10 + ((UInt8.ofNat (48 + d)).toNat - 48)) 0 =
          Nat.ofDigits 10 ds := by
      intro ds h
      induction ds with
      | nil => rfl
      | cons d ds ih =>
        have hd := h d (List.mem_cons_self ..)
        have hbyte : (UInt8.ofNat (48 + d)).toNat = 48 + d := toNat_ofNat (by omega)
        rw [List.foldr_cons, ih fun e he => h e (List.mem_cons_of_mem _ he), Nat.ofDigits_cons,
          hbyte]
        omega
    rw [hdigits _ fun d hd => Nat.digits_lt_base (by decide) hd, Nat.ofDigits_digits]

/-- The digits at the front of a word and what follows them. -/
def splitDigits (bs : Bytes) : Bytes × Bytes := (bs.takeWhile isDigit, bs.dropWhile isDigit)

theorem splitDigits_decimal {n : ℕ} {unit : Bytes} (h : unit.any isDigit = false) :
    splitDigits (decimal n ++ unit) = (decimal n, unit) := by
  have hdigits := decimal_digits n
  have hends : unit.takeWhile isDigit = [] ∧ unit.dropWhile isDigit = unit := by
    cases unit with
    | nil => exact ⟨rfl, rfl⟩
    | cons b rest =>
      have hb : ¬ isDigit b = true := by
        rw [List.any_cons, Bool.or_eq_false_iff] at h
        simp [h.1]
      exact ⟨List.takeWhile_cons_of_neg hb, List.dropWhile_cons_of_neg hb⟩
  rw [splitDigits, List.takeWhile_append_of_pos hdigits, List.dropWhile_append_of_pos hdigits,
    hends.1, hends.2, List.append_nil]

end WordText

import JzHdl.Sem.ConstExpr
import Mathlib.Data.Nat.Log
import Mathlib.Data.Int.Order.Basic
import Mathlib.Tactic.NormNum

/-! # Anonymous constant expressions

The lexer of constant expressions and their evaluation in 64-bit integers,
compared with their value as mathematical integers.
-/

namespace JzHdl

open LeftChain

/-! ## The lexer -/

def isSpaceChar (c : Char) : Bool := c.toNat == 32 || (9 ≤ c.toNat && c.toNat ≤ 13)

def isIdentStart (c : Char) : Bool := c.isAlpha || c == '_'

def isIdentChar (c : Char) : Bool := c.isAlphanum || c == '_'

/-- Digits may be separated by underscores. -/
def isDecimalChar (c : Char) : Bool := c.isDigit || c == '_'

def digitsOf (lexeme : List Char) : List ℕ :=
  (lexeme.filter Char.isDigit).map fun c => c.toNat - 48

/-- The size of the identifier buffer without its terminator. -/
def identLimit : ℕ := 63

def stringName : List Char := "__string__".toList

/-- A token that is neither a number nor an identifier, by its first character. Unknown characters
make an end of input. -/
def lexSymbol : Char → List Char → Option ConstToken × List Char
  | '\x22', rest => (some (.ident stringName), (rest.dropWhile fun c => c != '\x22').drop 1)
  | '+', rest => (some .plus, rest)
  | '-', rest => (some .minus, rest)
  | '*', rest => (some .star, rest)
  | '/', rest => (some .slash, rest)
  | '%', rest => (some .percent, rest)
  | '(', rest => (some .lparen, rest)
  | ')', rest => (some .rparen, rest)
  | '<', '<' :: rest => (some .shl, rest)
  | '<', '=' :: rest => (some .le, rest)
  | '<', rest => (some .lt, rest)
  | '>', '>' :: '>' :: rest => (some .ashr, rest)
  | '>', '>' :: rest => (some .shr, rest)
  | '>', '=' :: rest => (some .ge, rest)
  | '>', rest => (some .gt, rest)
  | '=', '=' :: rest => (some .eqeq, rest)
  | '!', '=' :: rest => (some .neq, rest)
  | '&', '&' :: rest => (some .andAnd, rest)
  | '|', '|' :: rest => (some .orOr, rest)
  | _, rest => (none, rest)

section

variable (cut : List Char → List Char)

/-- The next token, or `none` for an end of input, and the text after it. An identifier is cut to
what is kept of it. -/
def lexOneWith (src : List Char) : Option ConstToken × List Char :=
  match src.dropWhile isSpaceChar with
  | [] => (none, [])
  | c :: rest =>
    if c.isDigit then
      (some (.int (digitsOf (c :: rest.takeWhile isDecimalChar))), rest.dropWhile isDecimalChar)
    else if isIdentStart c then
      (some (.ident (cut (c :: rest.takeWhile isIdentChar))), rest.dropWhile isIdentChar)
    else lexSymbol c rest

/-- The tokens up to the first end of input. -/
def lexAllWith : ℕ → List Char → List ConstToken
  | 0, _ => []
  | n + 1, src =>
    match lexOneWith cut src with
    | (none, _) => []
    | (some t, rest) => t :: lexAllWith n rest

end

/-- `lex_one` keeps as much of an identifier as its buffer holds. -/
def lexOne (src : List Char) : Option ConstToken × List Char := lexOneWith (List.take identLimit) src

def tokensOf (src : List Char) : List ConstToken :=
  lexAllWith (List.take identLimit) (src.length + 1) src

/-- The text where the first end of input was met. -/
def textAtEnd : ℕ → List Char → List Char
  | 0, src => src
  | n + 1, src =>
    match lexOne src with
    | (none, _) => src
    | (some _, rest) => textAtEnd n rest

/-- Every character belongs to a token: only white space is left at the end of input. -/
def Recognised (src : List Char) : Prop := (textAtEnd (src.length + 1) src).dropWhile isSpaceChar = []

instance (src : List Char) : Decidable (Recognised src) :=
  inferInstanceAs (Decidable ((textAtEnd (src.length + 1) src).dropWhile isSpaceChar = []))

theorem length_dropWhile_le {α : Type} (p : α → Bool) (l : List α) :
    (l.dropWhile p).length ≤ l.length := (List.dropWhile_suffix p).length_le

theorem lexSymbol_length (c : Char) (rest : List Char) :
    (lexSymbol c rest).2.length ≤ rest.length := by
  unfold lexSymbol
  split <;> simp only [List.length_cons, List.length_drop] <;> try omega
  have := length_dropWhile_le (fun c => c != '\x22') rest
  omega

theorem lexOne_length {cut : List Char → List Char} {src rest : List Char} {t : ConstToken}
    (h : lexOneWith cut src = (some t, rest)) : rest.length < src.length := by
  have hspace := length_dropWhile_le isSpaceChar src
  unfold lexOneWith at h
  split at h
  · cases h
  · rename_i c tail hsrc
    rw [hsrc, List.length_cons] at hspace
    have htail : rest.length ≤ tail.length := by
      split at h
      · cases h
        exact length_dropWhile_le _ _
      · split at h
        · cases h
          exact length_dropWhile_le _ _
        · have hsym := lexSymbol_length c tail
          rwa [h] at hsym
    omega

/-- The bound on the number of tokens is never met. -/
theorem lexAll_bound (cut : List Char → List Char) : ∀ (n k : ℕ) {src : List Char},
    src.length < n → src.length < k → lexAllWith cut n src = lexAllWith cut k src
  | n + 1, k + 1, src, hn, hk => by
      unfold lexAllWith
      cases h : lexOneWith cut src with
      | mk t rest =>
        cases t with
        | none => rfl
        | some t =>
          have hlt := lexOne_length h
          simp only [lexAll_bound cut n k (show rest.length < n by omega) (by omega)]

/-! ## Values -/

def llongMax : ℤ := 2 ^ 63 - 1

def llongMin : ℤ := -2 ^ 63

def FitsLlong (v : ℤ) : Prop := llongMin ≤ v ∧ v ≤ llongMax

instance (v : ℤ) : Decidable (FitsLlong v) := inferInstanceAs (Decidable (_ ∧ _))

/-- Two's complement in 64 bits. -/
def wrap (v : ℤ) : ℤ := v.bmod (2 ^ 64)

/-- A decimal literal stays at `LLONG_MAX` when it grows beyond it. -/
def literalLlong (digits : List ℕ) : ℤ :=
  digits.foldl (fun (val : ℤ) (d : ℕ) =>
    if (llongMax - d) / 10 < val then llongMax else val * 10 + d) 0

def decimalNumber (digits : List ℕ) : ℤ := digits.foldl (fun (val : ℤ) (d : ℕ) => val * 10 + d) 0

def clog2Loop : ℕ → ℕ → ℕ → ℕ
  | 0, _, result => result
  | n + 1, v, result => if 1 < v then clog2Loop n (v / 2) (result + 1) else result

def evalClog2Positive (u : ℕ) : ℤ := clog2Loop 64 (u - 1) 1

def ofBool (b : Bool) : ℤ := if b then 1 else 0

/-- A right shift of the 64-bit pattern. -/
def shiftRightLogical (a b : ℤ) : ℤ := wrap (a % 2 ^ 64 / 2 ^ b.toNat)

/-- What the operators compute when nothing is rounded to 64 bits; `none` where the language leaves
an operator undefined. -/
def exactOp : ConstOp → ℤ → ℤ → Option ℤ
  | .mul, a, b => some (a * b)
  | .div, a, b => if b = 0 then none else some (a.tdiv b)
  | .mod, a, b => if b = 0 then none else some (a.tmod b)
  | .add, a, b => some (a + b)
  | .sub, a, b => some (a - b)
  | .shl, a, b => if b < 0 ∨ 63 < b then none else some (a * 2 ^ b.toNat)
  | .shr, a, b => if b < 0 ∨ 63 < b then none else some (shiftRightLogical a b)
  | .ashr, a, b => if b < 0 ∨ 63 < b then none else some (a / 2 ^ b.toNat)
  | .lt, a, b => some (ofBool (a < b))
  | .le, a, b => some (ofBool (a ≤ b))
  | .gt, a, b => some (ofBool (b < a))
  | .ge, a, b => some (ofBool (b ≤ a))
  | .eq, a, b => some (ofBool (a = b))
  | .ne, a, b => some (ofBool (a ≠ b))
  | .and, a, b => some (ofBool (a ≠ 0 ∧ b ≠ 0))
  | .or, a, b => some (ofBool (a ≠ 0 ∨ b ≠ 0))

/-- The division of `LLONG_MIN` by -1 traps: it has no result. -/
def Traps (op : ConstOp) (a b : ℤ) : Prop :=
  (op = .div ∨ op = .mod) ∧ a = llongMin ∧ b = -1

instance (op : ConstOp) (a b : ℤ) : Decidable (Traps op a b) :=
  inferInstanceAs (Decidable ((_ ∨ _) ∧ _))

/-- The operators on `long long`. -/
def llongOp (op : ConstOp) (a b : ℤ) : Option ℤ :=
  if Traps op a b then none else (exactOp op a b).map wrap

/-! ## Two arithmetics -/

/-- What the parts of an expression are worth. -/
structure Arithmetic where

  int : List ℕ → Option ℤ

  ident : List Char → Option ℤ

  clog2 : ℤ → Option ℤ

  neg : ℤ → Option ℤ

  binary : ConstOp → ℤ → ℤ → Option ℤ

def ConstExpr.eval (A : Arithmetic) : ConstExpr → Option ℤ
  | .int digits => A.int digits
  | .ident name => A.ident name
  | .clog2 e => (e.eval A).bind A.clog2
  | .paren e | .pos e => e.eval A
  | .neg e => (e.eval A).bind A.neg
  | .binary op l r => (l.eval A).bind fun a => (r.eval A).bind fun b => A.binary op a b

/-- The names of a tree. -/
def ConstExpr.names : ConstExpr → List (List Char)
  | .int _ => []
  | .ident name => [name]
  | .clog2 e | .paren e | .pos e | .neg e => e.names
  | .binary _ l r => l.names ++ r.names

/-- The nesting of signs and brackets. -/
def ConstExpr.nest : ConstExpr → ℕ
  | .int _ | .ident _ => 0
  | .clog2 e | .paren e | .pos e | .neg e => e.nest + 1
  | .binary _ l r => max l.nest r.nest

def fit (v : ℤ) : Option ℤ := if FitsLlong v then some v else none

/-- Mathematical integers, as long as they fit `long long`. `clog2(1)` is 1. -/
def exactArithmetic : Arithmetic where
  int digits := fit (decimalNumber digits)
  ident _ := none
  clog2 v := if 0 < v then some (max 1 (Nat.clog 2 v.toNat) : ℕ) else none
  neg v := fit (-v)
  binary op a b := (exactOp op a b).bind fit

/-- `long long`, with the values of the names that are known. -/
def llongArithmetic (names : List Char → Option ℤ) : Arithmetic where
  int digits := some (literalLlong digits)
  ident := names
  clog2 v := if v ≤ 0 then none else some (evalClog2Positive v.toNat)
  neg v := some (wrap (-v))
  binary := llongOp

/-- The value of an expression in which every sub-expression has one. -/
def ConstExpr.value (e : ConstExpr) : Option ℤ := e.eval exactArithmetic

/-- The value on `long long` of an expression without names. -/
def ConstExpr.llongValue (e : ConstExpr) : Option ℤ := e.eval (llongArithmetic fun _ => none)

/-- Some remainder of `LLONG_MIN` by -1 is taken. -/
def ConstExpr.TrapsMod : ConstExpr → Prop
  | .int _ | .ident _ => False
  | .clog2 e | .paren e | .pos e | .neg e => e.TrapsMod
  | .binary op l r => l.TrapsMod ∨ r.TrapsMod ∨
      (op = .mod ∧ l.value = some llongMin ∧ r.value = some (-1))

/-! ## The evaluator -/

def orError {σ ε V : Type} (error : ε) : Option V → Run σ ε V
  | some v => pure v
  | none => throw error

/-- Evaluation on `long long`. The two parsers of the source resolve identifiers differently. -/
def llongSemantics {σ ε : Type} (ident : List Char → Run σ ε ℤ) (error : ε) :
    ConstSemantics σ ε ℤ where
  int := literalLlong
  ident
  clog2 v := orError error (if v ≤ 0 then none else some (evalClog2Positive v.toNat))
  neg v := wrap (-v)
  binary op a b := orError error (llongOp op a b)
  error

/-- Anonymous expressions resolve no identifiers. -/
def constSemantics : ConstSemantics Unit Unit ℤ := llongSemantics (fun _ => throw ()) ()

def constEvalDepthLimit : ℕ := 512

/-- The value of an expression when the return code is 0. -/
def jzConstEvalExpr (src : List Char) : Option ℤ :=
  match parseWhole constSemantics constEvalDepthLimit (tokensOf src) () with
  | .ok (v, _) => if v < 0 then none else some v
  | .error _ => none

/-- The source is an expression of the grammar with a value that is not negative. -/
def EvaluatesTo (src : List Char) (v : ℤ) : Prop :=
  Recognised src ∧ ∃ e, Derives 7 e (tokensOf src) ∧ e.value = some v ∧ 0 ≤ v

/-! ## Exact and machine values -/

theorem wrap_of_fits {v : ℤ} (h : FitsLlong v) : wrap v = v := by
  obtain ⟨hlo, hhi⟩ := h
  unfold llongMin at hlo
  unfold llongMax at hhi
  unfold wrap
  refine Int.bmod_eq_of_le ?_ ?_
  · norm_num at hlo ⊢
    omega
  · norm_num at hhi ⊢
    omega

theorem fit_eq_some {v w : ℤ} : fit v = some w ↔ FitsLlong v ∧ v = w := by
  unfold fit
  split <;> simp_all

theorem decimalStep_nonneg : ∀ (digits : List ℕ) {v : ℤ}, 0 ≤ v →
    v ≤ digits.foldl (fun (val : ℤ) (d : ℕ) => val * 10 + d) v
  | [], _, _ => le_rfl
  | d :: rest, v, hv => by
      have ih := decimalStep_nonneg rest (show (0 : ℤ) ≤ v * 10 + d by omega)
      rw [List.foldl_cons]
      omega

theorem literalStep_eq : ∀ (digits : List ℕ) {v : ℤ}, 0 ≤ v →
    digits.foldl (fun (val : ℤ) (d : ℕ) => val * 10 + d) v ≤ llongMax →
    digits.foldl (fun (val : ℤ) (d : ℕ) =>
      if (llongMax - d) / 10 < val then llongMax else val * 10 + d) v =
      digits.foldl (fun (val : ℤ) (d : ℕ) => val * 10 + d) v
  | [], _, _, _ => rfl
  | d :: rest, v, hv, h => by
      rw [List.foldl_cons] at h ⊢
      have hstep := decimalStep_nonneg rest (show (0 : ℤ) ≤ v * 10 + d by omega)
      rw [if_neg (by omega)]
      exact literalStep_eq rest (by omega) h

theorem literalLlong_eq {digits : List ℕ} (h : FitsLlong (decimalNumber digits)) :
    literalLlong digits = decimalNumber digits := literalStep_eq digits le_rfl h.2

theorem clog2Loop_eq : ∀ (n : ℕ) {v : ℕ} (result : ℕ), v < 2 ^ n →
    clog2Loop n v result = result + Nat.log 2 v
  | 0, v, result, h => by
      obtain rfl : v = 0 := by simpa using h
      rfl
  | n + 1, v, result, h => by
      unfold clog2Loop
      split
      · rename_i hv
        have hhalf : v / 2 < 2 ^ n := by rw [Nat.pow_succ] at h; omega
        rw [clog2Loop_eq n (result + 1) hhalf, Nat.log_of_one_lt_of_le (by decide) (show 2 ≤ v from hv)]
        omega
      · rw [Nat.log_of_lt (by omega)]
        rfl

theorem clog_eq_log {u : ℕ} (hu : 2 ≤ u) : Nat.clog 2 u = Nat.log 2 (u - 1) + 1 := by
  refine eq_of_forall_ge_iff fun c => ?_
  rw [Nat.clog_le_iff_le_pow (by decide), Nat.add_one_le_iff,
    Nat.log_lt_iff_lt_pow (by decide) (by omega)]
  omega

theorem evalClog2Positive_eq {v : ℤ} (hv : 0 < v) (hfit : FitsLlong v) :
    evalClog2Positive v.toNat = (max 1 (Nat.clog 2 v.toNat) : ℕ) := by
  unfold evalClog2Positive
  obtain ⟨_, hhi⟩ := hfit
  unfold llongMax at hhi
  rw [clog2Loop_eq 64 1 (by norm_num at hhi ⊢; omega)]
  by_cases h1 : v.toNat = 1
  · rw [h1]
    rfl
  · rw [clog_eq_log (by omega)]
    congr 1
    omega

/-! ## When the values agree -/

/-- An operator with an exact value has the same value on `long long`, unless it traps. -/
theorem llongOp_eq {op : ConstOp} {a b v : ℤ} (h : (exactOp op a b).bind fit = some v) :
    llongOp op a b = if Traps op a b then none else some v := by
  obtain ⟨w, hw, hfit⟩ := Option.bind_eq_some_iff.mp h
  obtain ⟨hfits, rfl⟩ := fit_eq_some.mp hfit
  unfold llongOp
  split
  · rfl
  · rw [hw, Option.map_some, wrap_of_fits hfits]

/-- A trapping operator with an exact value is a remainder. -/
theorem traps_of_exact {op : ConstOp} {a b v : ℤ} (h : (exactOp op a b).bind fit = some v) :
    Traps op a b ↔ op = .mod ∧ a = llongMin ∧ b = -1 := by
  constructor
  · rintro ⟨hop, rfl, rfl⟩
    rcases hop with rfl | rfl
    · have hnone : (exactOp .div llongMin (-1)).bind fit = none := by decide
      rw [hnone] at h
      cases h
    · exact ⟨rfl, rfl, rfl⟩
  · rintro ⟨rfl, ha, hb⟩
    exact ⟨.inr rfl, ha, hb⟩

theorem value_fits : ∀ {e : ConstExpr} {v : ℤ}, e.value = some v → FitsLlong v
  | .int digits, v, h => (fit_eq_some.mp h).2 ▸ (fit_eq_some.mp h).1
  | .ident _, _, h => by cases h
  | .clog2 e, v, h => by
      obtain ⟨w, hw, hlog⟩ := Option.bind_eq_some_iff.mp h
      have hfit := value_fits hw
      simp only [exactArithmetic] at hlog
      split at hlog
      · cases hlog
        obtain ⟨_, hhi⟩ := hfit
        unfold llongMax at hhi
        have hle : max 1 (Nat.clog 2 w.toNat) ≤ 63 :=
          max_le (by decide) (Nat.clog_le_of_le_pow (by norm_num at hhi ⊢; omega))
        generalize max 1 (Nat.clog 2 w.toNat) = c at hle
        unfold FitsLlong llongMin llongMax
        omega
      · cases hlog
  | .paren e, _, h => value_fits (e := e) h
  | .pos e, _, h => value_fits (e := e) h
  | .neg e, v, h => by
      obtain ⟨w, hw, hneg⟩ := Option.bind_eq_some_iff.mp h
      exact (fit_eq_some.mp hneg).2 ▸ (fit_eq_some.mp hneg).1
  | .binary op l r, v, h => by
      obtain ⟨a, ha, hr⟩ := Option.bind_eq_some_iff.mp h
      obtain ⟨b, hb, hop⟩ := Option.bind_eq_some_iff.mp hr
      obtain ⟨w, hw, hfit⟩ := Option.bind_eq_some_iff.mp hop
      exact (fit_eq_some.mp hfit).2 ▸ (fit_eq_some.mp hfit).1

/-- An expression with a value has it on `long long` too, unless a remainder traps. -/
theorem llongValue_eq : ∀ {e : ConstExpr} {v : ℤ}, e.value = some v →
    (e.llongValue = some v ∧ ¬ e.TrapsMod) ∨ (e.llongValue = none ∧ e.TrapsMod)
  | .int digits, v, h => by
      obtain ⟨hfits, rfl⟩ := fit_eq_some.mp h
      exact .inl ⟨congrArg some (literalLlong_eq hfits), id⟩
  | .ident _, _, h => by cases h
  | .clog2 e, v, h => by
      obtain ⟨w, hw, hlog⟩ := Option.bind_eq_some_iff.mp h
      rcases llongValue_eq hw with ⟨hl, ht⟩ | ⟨hl, ht⟩
      · left
        refine ⟨?_, ht⟩
        simp only [exactArithmetic] at hlog
        split at hlog
        · rename_i hpos
          cases hlog
          simp only [ConstExpr.llongValue, ConstExpr.eval] at hl ⊢
          rw [hl, Option.bind_some]
          simp only [llongArithmetic, if_neg (not_le.mpr hpos),
            evalClog2Positive_eq hpos (value_fits hw)]
        · cases hlog
      · right
        refine ⟨?_, ht⟩
        simp only [ConstExpr.llongValue, ConstExpr.eval] at hl ⊢
        rw [hl, Option.bind_none]
  | .paren e, _, h => llongValue_eq (e := e) h
  | .pos e, _, h => llongValue_eq (e := e) h
  | .neg e, v, h => by
      obtain ⟨w, hw, hneg⟩ := Option.bind_eq_some_iff.mp h
      obtain ⟨hfits, rfl⟩ := fit_eq_some.mp hneg
      rcases llongValue_eq hw with ⟨hl, ht⟩ | ⟨hl, ht⟩
      · left
        refine ⟨?_, ht⟩
        simp only [ConstExpr.llongValue, ConstExpr.eval] at hl ⊢
        rw [hl, Option.bind_some]
        simp only [llongArithmetic, wrap_of_fits hfits]
      · right
        refine ⟨?_, ht⟩
        simp only [ConstExpr.llongValue, ConstExpr.eval] at hl ⊢
        rw [hl, Option.bind_none]
  | .binary op l r, v, h => by
      obtain ⟨a, ha, hr⟩ := Option.bind_eq_some_iff.mp h
      obtain ⟨b, hb, hop⟩ := Option.bind_eq_some_iff.mp hr
      have hllong := llongOp_eq hop
      have htraps := traps_of_exact hop
      rcases llongValue_eq ha with ⟨hl, ht⟩ | ⟨hl, ht⟩
      · rcases llongValue_eq hb with ⟨hl', ht'⟩ | ⟨hl', ht'⟩
        · have hval : (ConstExpr.binary op l r).llongValue = llongOp op a b := by
            simp only [ConstExpr.llongValue, ConstExpr.eval] at hl hl' ⊢
            rw [hl, hl', Option.bind_some, Option.bind_some]
            rfl
          rw [hval, hllong]
          by_cases hx : Traps op a b
          · right
            obtain ⟨rfl, rfl, rfl⟩ := htraps.mp hx
            exact ⟨if_pos hx, .inr (.inr ⟨rfl, ha, hb⟩)⟩
          · left
            refine ⟨if_neg hx, ?_⟩
            rintro (h1 | h1 | ⟨rfl, h1, h2⟩)
            · exact ht h1
            · exact ht' h1
            · obtain rfl : a = llongMin := Option.some.inj (ha.symm.trans h1)
              obtain rfl : b = -1 := Option.some.inj (hb.symm.trans h2)
              exact hx (htraps.mpr ⟨rfl, rfl, rfl⟩)
        · right
          refine ⟨?_, .inr (.inl ht')⟩
          simp only [ConstExpr.llongValue, ConstExpr.eval] at hl hl' ⊢
          rw [hl, hl', Option.bind_some, Option.bind_none]
      · right
        refine ⟨?_, .inl ht⟩
        simp only [ConstExpr.llongValue, ConstExpr.eval] at hl ⊢
        rw [hl, Option.bind_none]

/-! ## What the evaluator accepts -/

theorem orError_ok {σ ε V : Type} {error : ε} {o : Option V} {v : V} {s s' : σ} :
    orError error o s = .ok (v, s') ↔ o = some v ∧ s = s' := by
  cases o with
  | none => exact ⟨fun h => absurd h (by intro h; cases h), fun h => by cases h.1⟩
  | some w =>
    refine pure_ok.trans ⟨fun h => ⟨congrArg some h.1, h.2⟩, fun h => ⟨Option.some.inj h.1, h.2⟩⟩

section

variable {σ ε : Type} {ident : List Char → Run σ ε ℤ} {error : ε} {names : List Char → Option ℤ}
  {Inv : σ → Prop}

/-- What the parser has evaluated is the value of the tree when the identifiers resolve to the
values of their names. -/
theorem evalTree_sound (hid : ∀ name s v s', Inv s → ident name s = .ok (v, s') →
      Inv s' ∧ names name = some v) : ∀ (e : ConstExpr) (room : ℕ) {s s' : σ} {v : ℤ}, Inv s →
    evalTree (llongSemantics ident error) e room s = .ok (v, s') →
    Inv s' ∧ e.nest ≤ room ∧ e.eval (llongArithmetic names) = some v
  | .int digits, room, s, s', v, hs, h => by
      obtain ⟨rfl, rfl⟩ := pure_ok.mp h
      exact ⟨hs, Nat.zero_le _, rfl⟩
  | .ident name, room, s, s', v, hs, h => by
      obtain ⟨hs', hv⟩ := hid name s v s' hs h
      exact ⟨hs', Nat.zero_le _, hv⟩
  | .clog2 e, 0, _, _, _, _, h | .paren e, 0, _, _, _, _, h | .pos e, 0, _, _, _, _, h
  | .neg e, 0, _, _, _, _, h => absurd h fail_ok
  | .paren e, room + 1, s, s', v, hs, h | .pos e, room + 1, s, s', v, hs, h => by
      obtain ⟨hs', hn, hv⟩ := evalTree_sound hid e room hs h
      exact ⟨hs', Nat.succ_le_succ hn, hv⟩
  | .clog2 e, room + 1, s, s', v, hs, h => by
      obtain ⟨w, s₁, he, hlog⟩ := bind_ok.mp h
      obtain ⟨hs₁, hn, hw⟩ := evalTree_sound hid e room hs he
      obtain ⟨hv, rfl⟩ := orError_ok.mp hlog
      exact ⟨hs₁, Nat.succ_le_succ hn, Option.bind_eq_some_iff.mpr ⟨w, hw, hv⟩⟩
  | .neg e, room + 1, s, s', v, hs, h => by
      obtain ⟨w, s₁, he, hret⟩ := bind_ok.mp h
      obtain ⟨hs₁, hn, hw⟩ := evalTree_sound hid e room hs he
      obtain ⟨rfl, rfl⟩ := pure_ok.mp hret
      exact ⟨hs₁, Nat.succ_le_succ hn, Option.bind_eq_some_iff.mpr ⟨w, hw, rfl⟩⟩
  | .binary op l r, room, s, s', v, hs, h => by
      obtain ⟨a, s₁, hl, hnext⟩ := bind_ok.mp h
      obtain ⟨b, s₂, hr, hop⟩ := bind_ok.mp hnext
      obtain ⟨hs₁, hnl, ha⟩ := evalTree_sound hid l room hs hl
      obtain ⟨hs₂, hnr, hb⟩ := evalTree_sound hid r room hs₁ hr
      obtain ⟨hv, rfl⟩ := orError_ok.mp hop
      exact ⟨hs₂, max_le hnl hnr, Option.bind_eq_some_iff.mpr
        ⟨a, ha, Option.bind_eq_some_iff.mpr ⟨b, hb, hv⟩⟩⟩

theorem evalTree_complete : ∀ (e : ConstExpr) (room : ℕ) {s : σ} {v : ℤ},
    (∀ name ∈ e.names, ∀ s w, Inv s → names name = some w →
      ∃ s', ident name s = .ok (w, s') ∧ Inv s') → Inv s → e.nest ≤ room →
    e.eval (llongArithmetic names) = some v →
    ∃ s', evalTree (llongSemantics ident error) e room s = .ok (v, s') ∧ Inv s'
  | .int digits, room, s, v, _, hs, _, hv => ⟨s, pure_ok.mpr ⟨Option.some.inj hv, rfl⟩, hs⟩
  | .ident name, room, s, v, hid, hs, _, hv => hid name (List.mem_singleton_self _) s v hs hv
  | .clog2 e, 0, _, _, _, _, hn, _ | .paren e, 0, _, _, _, _, hn, _ | .pos e, 0, _, _, _, _, hn, _
  | .neg e, 0, _, _, _, _, hn, _ => absurd hn (Nat.not_succ_le_zero _)
  | .paren e, room + 1, s, v, hid, hs, hn, hv | .pos e, room + 1, s, v, hid, hs, hn, hv =>
    evalTree_complete e room hid hs (Nat.le_of_succ_le_succ hn) hv
  | .clog2 e, room + 1, s, v, hid, hs, hn, hv => by
      obtain ⟨w, hw, hlog⟩ := Option.bind_eq_some_iff.mp hv
      obtain ⟨s', he, hs'⟩ := evalTree_complete e room hid hs (Nat.le_of_succ_le_succ hn) hw
      exact ⟨s', bind_ok.mpr ⟨w, s', he, orError_ok.mpr ⟨hlog, rfl⟩⟩, hs'⟩
  | .neg e, room + 1, s, v, hid, hs, hn, hv => by
      obtain ⟨w, hw, hneg⟩ := Option.bind_eq_some_iff.mp hv
      obtain ⟨s', he, hs'⟩ := evalTree_complete e room hid hs (Nat.le_of_succ_le_succ hn) hw
      exact ⟨s', bind_ok.mpr ⟨w, s', he, pure_ok.mpr ⟨Option.some.inj hneg, rfl⟩⟩, hs'⟩
  | .binary op l r, room, s, v, hid, hs, hn, hv => by
      obtain ⟨a, ha, hrest⟩ := Option.bind_eq_some_iff.mp hv
      obtain ⟨b, hb, hop⟩ := Option.bind_eq_some_iff.mp hrest
      have hn' := max_le_iff.mp hn
      obtain ⟨s₁, hl, hs₁⟩ := evalTree_complete l room
        (fun name h => hid name (List.mem_append_left _ h)) hs hn'.1 ha
      obtain ⟨s₂, hr, hs₂⟩ := evalTree_complete r room
        (fun name h => hid name (List.mem_append_right _ h)) hs₁ hn'.2 hb
      exact ⟨s₂, bind_ok.mpr ⟨a, s₁, hl, bind_ok.mpr ⟨b, s₂, hr, orError_ok.mpr ⟨hop, rfl⟩⟩⟩, hs₂⟩

end

theorem evalTree_ok_iff (e : ConstExpr) (room : ℕ) {v : ℤ} :
    evalTree constSemantics e room () = .ok (v, ()) ↔ e.nest ≤ room ∧ e.llongValue = some v := by
  constructor
  · intro h
    exact (@evalTree_sound Unit Unit (fun _ => throw ()) () (fun _ => none) (fun _ => True)
      (fun _ _ _ _ _ hid => absurd hid (by intro h; cases h)) e room _ _ _ trivial h).2
  · rintro ⟨hn, hv⟩
    obtain ⟨_, h, -⟩ := @evalTree_complete Unit Unit (fun _ => throw ()) () (fun _ => none)
      (fun _ => True) e room () v (fun _ _ _ _ _ hw => by cases hw) trivial hn hv
    exact h

/-- The evaluator returns the `long long` value of what the grammar derives from the tokens. -/
theorem jzConstEvalExpr_eq_some {src : List Char} {v : ℤ} : jzConstEvalExpr src = some v ↔
    ∃ e, Derives 7 e (tokensOf src) ∧ e.nest < constEvalDepthLimit ∧ e.llongValue = some v ∧
      0 ≤ v := by
  unfold jzConstEvalExpr
  constructor
  · intro h
    cases hrun : parseWhole constSemantics constEvalDepthLimit (tokensOf src) () with
    | error _ => rw [hrun] at h; cases h
    | ok p =>
      obtain ⟨w, s⟩ := p
      simp only [hrun] at h
      split at h
      · cases h
      · cases h
        obtain ⟨e, he, hv⟩ := parseWhole_sound hrun
        obtain ⟨hn, hvalue⟩ := (evalTree_ok_iff e 511).mp hv
        exact ⟨e, he, Nat.lt_succ_of_le hn, hvalue, by omega⟩
  · rintro ⟨e, he, hn, hvalue, hpos⟩
    have hrun : parseWhole constSemantics constEvalDepthLimit (tokensOf src) () = .ok (v, ()) := by
      rw [parseWhole_complete constSemantics constEvalDepthLimit he]
      exact (evalTree_ok_iff e 511).mpr ⟨Nat.le_of_lt_succ hn, hvalue⟩
    simp only [hrun]
    exact if_neg (by omega)

/-! ## Unambiguity -/

/-- A semantics without errors, to tell what two derivations have in common. -/
def totalSemantics (A : Arithmetic) : ConstSemantics Unit Unit (Option ℤ) where
  int := A.int
  ident name := pure (A.ident name)
  clog2 v := pure (v.bind A.clog2)
  neg v := v.bind A.neg
  binary op a b := pure (a.bind fun a => b.bind fun b => A.binary op a b)
  error := ()

theorem evalTree_total (A : Arithmetic) : ∀ (e : ConstExpr) (room : ℕ) {v : Option ℤ},
    evalTree (totalSemantics A) e room () = .ok (v, ()) ↔ e.nest ≤ room ∧ e.eval A = v
  | .int digits, _, _ | .ident _, _, _ =>
    pure_ok.trans ⟨fun h => ⟨Nat.zero_le _, h.1⟩, fun h => ⟨h.2, rfl⟩⟩
  | .clog2 e, 0, _ | .paren e, 0, _ | .pos e, 0, _ | .neg e, 0, _ =>
    ⟨fun h => absurd h fail_ok, fun h => absurd h.1 (Nat.not_succ_le_zero _)⟩
  | .paren e, room + 1, v | .pos e, room + 1, v =>
    (evalTree_total A e room).trans (and_congr_left fun _ => Nat.succ_le_succ_iff.symm)
  | .clog2 e, room + 1, v | .neg e, room + 1, v => by
      simp only [evalTree, bind_ok, ConstExpr.nest, ConstExpr.eval]
      constructor
      · rintro ⟨w, _, he, hret⟩
        obtain ⟨hn, rfl⟩ := (evalTree_total A e room).mp he
        exact ⟨Nat.succ_le_succ hn, (pure_ok.mp hret).1⟩
      · rintro ⟨hn, rfl⟩
        exact ⟨e.eval A, (), (evalTree_total A e room).mpr ⟨Nat.le_of_succ_le_succ hn, rfl⟩,
          pure_ok.mpr ⟨rfl, rfl⟩⟩
  | .binary op l r, room, v => by
      simp only [evalTree, bind_ok, ConstExpr.nest, ConstExpr.eval, max_le_iff]
      constructor
      · rintro ⟨a, _, hl, b, _, hr, hop⟩
        obtain ⟨hnl, rfl⟩ := (evalTree_total A l room).mp hl
        obtain ⟨hnr, rfl⟩ := (evalTree_total A r room).mp hr
        exact ⟨⟨hnl, hnr⟩, (pure_ok.mp hop).1⟩
      · rintro ⟨⟨hnl, hnr⟩, rfl⟩
        exact ⟨l.eval A, (), (evalTree_total A l room).mpr ⟨hnl, rfl⟩, r.eval A, (),
          (evalTree_total A r room).mpr ⟨hnr, rfl⟩, pure_ok.mpr ⟨rfl, rfl⟩⟩

/-- Two derivations of the same tokens have the same values and the same nesting. -/
theorem Derives.unique {e e' : ConstExpr} {ts : List ConstToken} (h : Derives 7 e ts)
    (h' : Derives 7 e' ts) (A : Arithmetic) : e.eval A = e'.eval A ∧ e.nest = e'.nest := by
  have hrun : ∀ room, evalTree (totalSemantics A) e room = evalTree (totalSemantics A) e' room :=
    fun room => (parseWhole_complete (totalSemantics A) (room + 1) h).symm.trans
      (parseWhole_complete (totalSemantics A) (room + 1) h')
  have hl := (evalTree_total A e e.nest).mpr ⟨le_rfl, rfl⟩
  have hr := (evalTree_total A e' e'.nest).mpr ⟨le_rfl, rfl⟩
  rw [hrun] at hl
  rw [← hrun] at hr
  obtain ⟨hle, heq⟩ := (evalTree_total A e' e.nest).mp hl
  obtain ⟨hle', -⟩ := (evalTree_total A e e'.nest).mp hr
  exact ⟨heq.symm, le_antisymm hle' hle⟩

/-! ## Exact evaluation -/

/-- A value the evaluator may return. -/
def Returnable (o : Option ℤ) : Prop := ∃ v, o = some v ∧ 0 ≤ v

/-- What the expression that the tokens derive must meet. One with a value is not nested too deeply
and takes no remainder that traps; one that evaluates on `long long` within the nesting limit has a
value, and no character is left over. -/
def EvaluatesExactly (src : List Char) : Prop :=
  ∀ e, Derives 7 e (tokensOf src) →
    (Recognised src ∧ Returnable e.value → e.nest < constEvalDepthLimit ∧ ¬ e.TrapsMod) ∧
    (Returnable e.llongValue ∧ e.nest < constEvalDepthLimit → Recognised src ∧ e.value ≠ none)

end JzHdl

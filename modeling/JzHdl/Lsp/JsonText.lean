import Mathlib.Tactic.Linarith
import Mathlib.Tactic.Tauto

/-! # JSON text of the language server

The writer of escaped strings and the hand-written reader. A pointer is the rest
of the text with its terminating NUL; reading a byte behind that is `none`.
-/

namespace JzHdl.Lsp

abbrev Text := List UInt8

/-! ## Bytes -/

def quote : UInt8 := 34
def backslash : UInt8 := 92
def comma : UInt8 := 44
def colon : UInt8 := 58
def openBrace : UInt8 := 123
def closeBrace : UInt8 := 125
def openBracket : UInt8 := 91
def closeBracket : UInt8 := 93
def newline : UInt8 := 10
def carriageReturn : UInt8 := 13
def tab : UInt8 := 9
def letterN : UInt8 := 110
def letterR : UInt8 := 114
def letterT : UInt8 := 116
def letterU : UInt8 := 117
def zero : UInt8 := 48

def isWs (c : UInt8) : Bool := c == 32 || c == tab || c == newline || c == carriageReturn

/-- A byte that ends a number or a name. -/
def endsAtom (c : UInt8) : Bool := c == comma || c == closeBrace || c == closeBracket || isWs c

/-! ## Writing -/

def hexByte (n : UInt8) : UInt8 := if n < 10 then zero + n else 87 + n

def escapeByte (c : UInt8) : Text :=
  if c = quote then [backslash, quote]
  else if c = backslash then [backslash, backslash]
  else if c = newline then [backslash, letterN]
  else if c = carriageReturn then [backslash, letterR]
  else if c = tab then [backslash, letterT]
  else if c < 32 then [backslash, letterU, zero, zero, hexByte (c / 16), hexByte (c % 16)]
  else [c]

/-- `lsp_json_append_escaped` on an empty buffer. -/
def appendEscaped (s : Text) : Text := quote :: (s.flatMap escapeByte ++ [quote])

/-! ## Scanning -/

def skipWs : Text → Option Text
  | [] => none
  | c :: rest => if isWs c then skipWs rest else some (c :: rest)

/-- Run over the inside of a string, up to the closing quote or the end of the text. -/
def scanString : Text → Option Text
  | [] => none
  | [c] => if c = 0 ∨ c = quote then some [c] else none
  | c :: d :: rest =>
    if c = 0 ∨ c = quote then some (c :: d :: rest)
    else if c = backslash then if d = 0 then some (d :: rest) else scanString rest
    else scanString (d :: rest)

def scanAtom : Text → Option Text
  | [] => none
  | c :: rest => if c = 0 ∨ endsAtom c then some (c :: rest) else scanAtom rest

theorem length_scanString : ∀ {p q : Text}, scanString p = some q → q.length ≤ p.length
  | [], _, h => by cases h
  | [c], q, h => by
      rw [scanString] at h
      split at h
      · cases h
        exact le_rfl
      · cases h
  | c :: d :: rest, q, h => by
      rw [scanString] at h
      split at h
      · cases h
        exact le_rfl
      · split at h
        · split at h
          · cases h
            exact Nat.le_succ _
          · exact le_trans (length_scanString h) (by simp only [List.length_cons]; omega)
        · exact le_trans (length_scanString h) (Nat.le_succ _)

theorem length_skipWs : ∀ {p q : Text}, skipWs p = some q → q.length ≤ p.length
  | [], _, h => by cases h
  | c :: rest, q, h => by
      rw [skipWs] at h
      split at h
      · exact le_trans (length_skipWs h) (Nat.le_succ _)
      · cases h
        exact le_rfl

theorem length_scanAtom : ∀ {p q : Text}, scanAtom p = some q → q.length ≤ p.length
  | [], _, h => by cases h
  | c :: rest, q, h => by
      rw [scanAtom] at h
      split at h
      · cases h
        exact le_rfl
      · exact le_trans (length_scanAtom h) (Nat.le_succ _)

/-- `if (*p) ++p` -/
def advance : Text → Option Text
  | [] => none
  | c :: rest => if c = 0 then some (c :: rest) else some rest

theorem length_advance {p q : Text} (h : advance p = some q) : q.length ≤ p.length := by
  cases p with
  | nil => cases h
  | cons c rest =>
    rw [advance] at h
    split at h
    · cases h
      exact le_rfl
    · cases h
      exact Nat.le_succ _

/-- Run over an object or an array, which only counts brackets of its own kind. -/
def skipNested (opening closing : UInt8) (depth : ℕ) (p : Text) : Option Text :=
  match p with
  | [] => none
  | c :: rest =>
    if c = 0 ∨ depth = 0 then some (c :: rest)
    else if c = opening then skipNested opening closing (depth + 1) rest
    else if c = closing then skipNested opening closing (depth - 1) rest
    else if c = quote then
      match _h : (scanString rest).bind advance with
      | none => none
      | some q => skipNested opening closing depth q
    else skipNested opening closing depth rest
termination_by p.length
decreasing_by
  all_goals simp only [List.length_cons, Nat.lt_add_one]
  obtain ⟨r, hr, hq⟩ := Option.bind_eq_some_iff.mp _h
  exact Nat.lt_succ_of_le (le_trans (length_advance hq) (length_scanString hr))

section

variable {opening closing : UInt8}

/-- A string inside an object or an array is passed as a whole. -/
theorem skipNested_quote {depth : ℕ} (rest : Text) (hstop : ¬(quote = 0 ∨ depth = 0))
    (hopen : quote ≠ opening) (hclose : quote ≠ closing) :
    skipNested opening closing depth (quote :: rest) =
      ((scanString rest).bind advance).bind (skipNested opening closing depth) := by
  rw [skipNested, if_neg hstop, if_neg hopen, if_neg hclose, if_pos rfl]
  split
  · rename_i hnone
    rw [hnone, Option.bind_none]
  · rename_i q hsome
    rw [hsome, Option.bind_some]

theorem length_skipNested (depth : ℕ) (p : Text) :
    ∀ {q : Text}, skipNested opening closing depth p = some q → q.length ≤ p.length := by
  induction depth, p using skipNested.induct opening closing with
  | case1 depth =>
    intro q h
    rw [skipNested] at h
    cases h
  | case2 depth c rest hstop =>
    intro q h
    rw [skipNested, if_pos hstop] at h
    cases h
    exact le_rfl
  | case3 depth rest hstop ih =>
    intro q h
    rw [skipNested, if_neg hstop, if_pos rfl] at h
    exact le_trans (ih h) (Nat.le_succ _)
  | case4 depth rest hstop hopen ih =>
    intro q h
    rw [skipNested, if_neg hstop, if_neg hopen, if_pos rfl] at h
    exact le_trans (ih h) (Nat.le_succ _)
  | case5 depth rest hnone hstop hopen hclose =>
    intro q h
    rw [skipNested_quote rest hstop hopen hclose, hnone] at h
    cases h
  | case6 depth rest r hsome hstop hopen hclose ih =>
    intro q h
    rw [skipNested_quote rest hstop hopen hclose, hsome, Option.bind_some] at h
    obtain ⟨x, hx, hq⟩ := Option.bind_eq_some_iff.mp hsome
    exact le_trans (ih h) (le_trans (length_advance hq)
      (le_trans (length_scanString hx) (Nat.le_succ _)))
  | case7 depth c rest hstop hopen hclose hquote ih =>
    intro q h
    rw [skipNested, if_neg hstop, if_neg hopen, if_neg hclose, if_neg hquote] at h
    exact le_trans (ih h) (Nat.le_succ _)

end

/-- The part of `skip_value` behind the whitespace. -/
def skipToken : Text → Option Text
  | [] => none
  | c :: rest =>
    if c = quote then
      (scanString rest).bind fun p => match p with
        | [] => none
        | d :: after => if d = quote then some after else some (d :: after)
    else if c = openBrace then skipNested openBrace closeBrace 1 rest
    else if c = openBracket then skipNested openBracket closeBracket 1 rest
    else scanAtom (c :: rest)

def skipValue (p : Text) : Option Text := (skipWs p).bind skipToken

theorem length_skipToken {p q : Text} (h : skipToken p = some q) : q.length ≤ p.length := by
  cases p with
  | nil => cases h
  | cons c rest =>
    rw [skipToken] at h
    split at h
    · obtain ⟨r, hr, hq⟩ := Option.bind_eq_some_iff.mp h
      have hle := length_scanString hr
      cases r with
      | nil => cases hq
      | cons d after =>
        dsimp only at hq
        split at hq
        · cases hq
          exact le_trans (Nat.le_succ _) (le_trans hle (Nat.le_succ _))
        · cases hq
          exact le_trans hle (Nat.le_succ _)
    · split at h
      · exact le_trans (length_skipNested 1 rest h) (Nat.le_succ _)
      · split at h
        · exact le_trans (length_skipNested 1 rest h) (Nat.le_succ _)
        · exact length_scanAtom h

theorem length_skipValue {p q : Text} (h : skipValue p = some q) : q.length ≤ p.length := by
  obtain ⟨r, hr, hq⟩ := Option.bind_eq_some_iff.mp h
  exact le_trans (length_skipToken hq) (length_skipWs hr)

/-! ## Keys -/

/-- Pass one byte if it is the expected one. -/
def passByte (expected : UInt8) : Text → Option Text
  | [] => none
  | c :: rest => if c = expected then some rest else some (c :: rest)

theorem length_passByte {expected : UInt8} {p q : Text} (h : passByte expected p = some q) :
    q.length ≤ p.length := by
  cases p with
  | nil => cases h
  | cons c rest =>
    rw [passByte] at h
    split at h
    · cases h
      exact Nat.le_succ _
    · cases h
      exact le_rfl

/-- From the opening quote of a key on: the text of the key and the rest from the value on. -/
def readKey (ks : Text) : Option (Text × Text) := do
  let p ← scanString ks
  let value ← (passByte quote p).bind skipWs
  let value ← (passByte colon value).bind skipWs
  return (ks.take (ks.length - p.length), value)

theorem length_readKey {ks : Text} {k : Text × Text} (h : readKey ks = some k) :
    k.2.length ≤ ks.length := by
  obtain ⟨p, hp, h⟩ := Option.bind_eq_some_iff.mp h
  obtain ⟨v, hv, h⟩ := Option.bind_eq_some_iff.mp h
  obtain ⟨v', hv', h⟩ := Option.bind_eq_some_iff.mp h
  obtain ⟨q, hq, hqv⟩ := Option.bind_eq_some_iff.mp hv
  obtain ⟨q', hq', hqv'⟩ := Option.bind_eq_some_iff.mp hv'
  cases h
  exact le_trans (length_skipWs hqv') (le_trans (length_passByte hq')
    (le_trans (length_skipWs hqv) (le_trans (length_passByte hq) (length_scanString hp))))

/-- The loop of `find_key`. The inner `none` is the NULL it returns. -/
def findKeyLoop (key p : Text) : Option (Option Text) :=
  match p with
  | [] => none
  | c :: rest =>
    if c = 0 then some none
    else match _hws : skipWs (c :: rest) with
      | none => none
      | some [] => none
      | some (d :: tail) =>
        if d = closeBrace then some none
        else if d = comma then findKeyLoop key tail
        else if d ≠ quote then some none
        else match _hkey : readKey tail with
          | none => none
          | some (raw, value) =>
            if raw = key then some (some value)
            else match _hskip : skipValue value with
              | none => none
              | some next => findKeyLoop key next
termination_by p.length
decreasing_by
  · exact Nat.lt_of_succ_le (length_skipWs _hws)
  · exact Nat.lt_of_succ_le (le_trans (Nat.succ_le_succ (le_trans (length_skipValue _hskip)
      (length_readKey _hkey))) (length_skipWs _hws))

def findKey (json key : Text) : Option (Option Text) :=
  (skipWs json).bind fun p => match p with
    | [] => none
    | c :: rest => if c ≠ openBrace then some none else findKeyLoop key rest

/-! ## Reading a string -/

/-- The byte an escape stands for. Whatever is not listed stands for itself. -/
def unescaped (c : UInt8) : UInt8 :=
  if c = letterN then newline
  else if c = letterR then carriageReturn
  else if c = letterT then tab
  else c

/-- Copy the inside of a string while there is room in the buffer. -/
def copyString (p : Text) (room : ℕ) : Option Text :=
  match p with
  | [] => none
  | [c] => if c = 0 ∨ c = quote ∨ room = 0 then some [] else none
  | c :: d :: rest =>
    if c = 0 ∨ c = quote ∨ room = 0 then some []
    else if c = backslash then
      if d = 0 then some [] else (copyString rest (room - 1)).map (unescaped d :: ·)
    else (copyString (d :: rest) (room - 1)).map (c :: ·)

/-- `lsp_json_get_string` into a buffer of `cap` bytes. -/
def getString (json key : Text) (cap : ℕ) : Option (Option Text) :=
  (findKey json key).bind fun v => match v with
    | none => some none
    | some v => (skipWs v).bind fun p => match p with
      | [] => none
      | c :: rest => if c ≠ quote then some none else (copyString rest (cap - 1)).map some

end JzHdl.Lsp

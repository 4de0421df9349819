import JzHdl.Sem.WidthExpr
import Mathlib

/-! # Tokens of an expanded width text

Where every call of `widthof` stands apart from other words, the expanded text
has the tokens of the text with every call replaced by one number.
-/

namespace JzHdl

local instance (priority := 2000) decidableTokenChars {p : Char → Prop} [DecidablePred p]
    (text : List Char) : Decidable (∀ c ∈ text, p c) := List.decidableBAll p text

/-! ## Tokens of an expanded text -/

theorem fullTokens_eq (src : List Char) : fullTokens src =
    match lexOneWith id src with
    | (none, _) => []
    | (some t, rest) => t :: fullTokens rest := by
  unfold fullTokens
  rw [lexAllWith]
  cases h : lexOneWith id src with
  | mk t rest =>
    cases t with
    | none => rfl
    | some t =>
      have hlt := lexOne_length h
      simp only [lexAll_bound _ src.length (rest.length + 1) hlt (Nat.lt_succ_self _)]

theorem fullTokens_space {c : Char} (hc : isSpaceChar c = true) (rest : List Char) :
    fullTokens (c :: rest) = fullTokens rest := by
  have hlex : lexOneWith id (c :: rest) = lexOneWith id rest := by
    unfold lexOneWith
    rw [List.dropWhile_cons_of_pos hc]
  rw [fullTokens_eq, hlex, ← fullTokens_eq]

theorem fullTokens_spaces : ∀ {gap : List Char}, (∀ c ∈ gap, isSpaceChar c = true) →
    ∀ rest, fullTokens (gap ++ rest) = fullTokens rest
  | [], _, _ => rfl
  | c :: gap, h, rest => by
      rw [List.cons_append, fullTokens_space (h c (.head _)),
        fullTokens_spaces (fun x hx => h x (.tail _ hx))]

theorem lexOne_cons {c : Char} (hc : isSpaceChar c = false) (rest : List Char) :
    lexOneWith id (c :: rest) =
      if c.isDigit then
        (some (.int (digitsOf (c :: rest.takeWhile isDecimalChar))), rest.dropWhile isDecimalChar)
      else if isIdentStart c then
        (some (.ident (c :: rest.takeWhile isIdentChar)), rest.dropWhile isIdentChar)
      else lexSymbol c rest := by
  unfold lexOneWith
  rw [List.dropWhile_cons_of_neg (by rw [hc]; decide)]
  rfl

theorem takeWhile_run {p : Char → Bool} : ∀ {run : List Char} {out : List Char},
    (∀ c ∈ run, p c = true) → (∀ c, out.head? = some c → p c = false) →
    (run ++ out).takeWhile p = run ∧ (run ++ out).dropWhile p = out
  | [], [], _, _ => ⟨rfl, rfl⟩
  | [], c :: out, _, h => by
      have hc := h c rfl
      rw [List.nil_append, List.takeWhile_cons_of_neg (by rw [hc]; decide),
        List.dropWhile_cons_of_neg (by rw [hc]; decide)]
      exact ⟨rfl, rfl⟩
  | c :: run, out, hrun, h => by
      obtain ⟨h1, h2⟩ := takeWhile_run (fun x hx => hrun x (.tail _ hx)) h
      rw [List.cons_append, List.takeWhile_cons_of_pos (hrun c (.head _)),
        List.dropWhile_cons_of_pos (hrun c (.head _)), h1, h2]
      exact ⟨rfl, rfl⟩

/-! ### Calls in a text -/

theorem eq_of_dropWhile {p : Char → Bool} {text rest : List Char} {c : Char}
    (h : text.dropWhile p = c :: rest) :
    text = text.takeWhile p ++ c :: rest ∧ (∀ x ∈ text.takeWhile p, p x = true) ∧ p c = false := by
  refine ⟨?_, fun x hx => List.mem_takeWhile_imp hx, ?_⟩
  · rw [← h, List.takeWhile_append_dropWhile]
  · have hhead := List.head_dropWhile_not p (l := text) (by rw [h]; exact List.cons_ne_nil _ _)
    simpa only [h, List.head_cons] using hhead

/-- A call starts with `widthof`, white space and a bracket. -/
theorem afterCall_eq {text body : List Char} (h : afterCall text = some body) :
    ∃ gap, text = widthofName ++ (gap ++ '(' :: body) ∧ ∀ x ∈ gap, isSpaceChar x = true := by
  unfold afterCall at h
  split at h
  · rename_i hpre
    obtain ⟨tail, rfl⟩ := List.isPrefixOf_iff_prefix.mp hpre
    split at h
    · rename_i body' heq
      cases h
      have hdrop : (widthofName ++ tail).drop 7 = tail := rfl
      rw [hdrop] at heq
      obtain ⟨htail, hgap, -⟩ := eq_of_dropWhile heq
      exact ⟨_, congrArg _ htail, hgap⟩
    · cases h
  · cases h

theorem afterCall_widthof {gap body : List Char} (h : ∀ x ∈ gap, isSpaceChar x = true) :
    afterCall (widthofName ++ (gap ++ '(' :: body)) = some body := by
  unfold afterCall
  rw [if_pos (List.isPrefixOf_iff_prefix.mpr ⟨_, rfl⟩)]
  have hdrop : (widthofName ++ (gap ++ '(' :: body)).drop 7 = gap ++ '(' :: body := rfl
  have hspaces := (@takeWhile_run isSpaceChar gap ('(' :: body) h fun c hc => by cases hc; decide).2
  simp only [hdrop, hspaces]

theorem afterCall_head {c : Char} {rest body : List Char} (h : afterCall (c :: rest) = some body) :
    c = 'w' := by
  obtain ⟨gap, htext, -⟩ := afterCall_eq h
  exact (List.cons.inj htext).1

theorem callArgument_eq {body name after : List Char}
    (h : callArgument body = some (name, after)) : ∃ gap c run gap',
      body = gap ++ c :: (run ++ (gap' ++ ')' :: after)) ∧ name = c :: run ∧
      (∀ x ∈ gap, isSpaceChar x = true) ∧ isIdentStart c = true ∧
      (∀ x ∈ run, isIdentChar x = true) ∧ ∀ x ∈ gap', isSpaceChar x = true := by
  unfold callArgument at h
  split at h
  · cases h
  · rename_i c tail heq
    obtain ⟨hbody, hgap, -⟩ := eq_of_dropWhile heq
    split at h
    · rename_i hstart
      split at h
      · rename_i after' hafter
        cases h
        obtain ⟨htail, hgap', -⟩ := eq_of_dropWhile hafter
        refine ⟨_, c, tail.takeWhile isIdentChar, _, ?_, rfl, hgap, hstart,
          fun x hx => List.mem_takeWhile_imp hx, hgap'⟩
        rw [← htail, List.takeWhile_append_dropWhile]
        exact hbody
      · cases h
    · cases h

section

variable {width : List Char → Option ℕ} {c : Char} {rest body : List Char}

theorem expandWidthof_call (h : afterCall (c :: rest) = some body) :
    expandWidthof width (c :: rest) = (callArgument body).bind fun p =>
      (width (p.1.take 255)).bind fun w =>
        (expandWidthof width p.2).map (Nat.toDigits 10 w ++ ·) := by
  rw [expandWidthof]
  split
  · rename_i body' hcall
    rw [h] at hcall
    obtain rfl := Option.some.inj hcall
    split
    · rename_i harg
      rw [harg, Option.bind_some]
    · rename_i harg
      rw [harg, Option.bind_none]
  · rename_i hcall
    rw [h] at hcall
    cases hcall

theorem expandWidthof_copy (h : afterCall (c :: rest) = none) :
    expandWidthof width (c :: rest) = (expandWidthof width rest).map (c :: ·) := by
  rw [expandWidthof]
  split
  · rename_i hcall
    rw [h] at hcall
    cases hcall
  · rfl

end

/-- No call touches another word: the character before it belongs to no word, nor does the one
behind it. -/
def Apart (word : Bool) : List Char → Prop
  | [] => True
  | c :: rest =>
    match _hcall : afterCall (c :: rest) with
    | some body => word = false ∧
      match _harg : callArgument body with
      | some (_, after) => (∀ x, after.head? = some x → isIdentChar x = false) ∧ Apart false after
      | none => True
    | none => Apart (isIdentChar c) rest
termination_by text => text.length
decreasing_by
  · have h1 := afterCall_length _hcall
    have h2 := callArgument_length _harg
    omega
  · exact Nat.lt_succ_self _

section

variable {word : Bool} {c : Char} {rest body : List Char}

theorem Apart.call (h : Apart word (c :: rest)) (hcall : afterCall (c :: rest) = some body) :
    word = false ∧ ∀ name after, callArgument body = some (name, after) →
      (∀ x, after.head? = some x → isIdentChar x = false) ∧ Apart false after := by
  rw [Apart] at h
  split at h
  · rename_i body' hcall'
    rw [hcall] at hcall'
    obtain rfl := Option.some.inj hcall'
    refine ⟨h.1, fun name after harg => ?_⟩
    have h2 := h.2
    split at h2
    · rename_i harg'
      rw [harg] at harg'
      cases harg'
      exact h2
    · rename_i harg'
      rw [harg] at harg'
      cases harg'
  · rename_i hcall'
    rw [hcall] at hcall'
    cases hcall'

theorem Apart.copy (h : Apart word (c :: rest)) (hcall : afterCall (c :: rest) = none) :
    Apart (isIdentChar c) rest := by
  rw [Apart] at h
  split at h
  · rename_i hcall'
    rw [hcall] at hcall'
    cases hcall'
  · exact h

/-- No call starts inside a word. -/
theorem Apart.no_call (h : Apart true (c :: rest)) : afterCall (c :: rest) = none := by
  cases hcall : afterCall (c :: rest) with
  | none => rfl
  | some body => exact absurd (h.call hcall).1 (by decide)

end

theorem expandWidthof_run {width : List Char → Option ℕ} : ∀ {run rest : List Char},
    Apart true (run ++ rest) → (∀ c ∈ run, isIdentChar c = true) →
    expandWidthof width (run ++ rest) = (expandWidthof width rest).map (run ++ ·) ∧ Apart true rest
  | [], rest, h, _ => by
      refine ⟨?_, h⟩
      rw [List.nil_append]
      exact Option.map_id'.symm
  | c :: run, rest, h, hrun => by
      have hcall : afterCall (c :: (run ++ rest)) = none := h.no_call
      have hnext : Apart (isIdentChar c) (run ++ rest) := h.copy hcall
      rw [hrun c (.head _)] at hnext
      obtain ⟨hexp, hap⟩ := expandWidthof_run hnext fun x hx => hrun x (.tail _ hx)
      refine ⟨?_, hap⟩
      rw [List.cons_append, expandWidthof_copy hcall, hexp, Option.map_map]
      rfl

theorem head_expandWidthof {width : List Char → Option ℕ} {rest out : List Char}
    (hap : Apart true rest) (h : expandWidthof width rest = some out) :
    out.head? = rest.head? := by
  cases rest with
  | nil =>
    rw [expandWidthof] at h
    cases h
    rfl
  | cons c rest =>
    rw [expandWidthof_copy hap.no_call] at h
    obtain ⟨tail, -, rfl⟩ := Option.map_eq_some_iff.mp h
    rfl

/-! ### Tokens one by one -/

section

variable {text rest name : List Char}

theorem lexOne_ident (hquote : '\x22' ∉ text)
    (h : lexOneWith id text = (some (.ident name), rest)) : ∃ c tail,
      text.dropWhile isSpaceChar = c :: tail ∧ isIdentStart c = true ∧
      name = c :: tail.takeWhile isIdentChar ∧ rest = tail.dropWhile isIdentChar := by
  unfold lexOneWith at h
  split at h
  · cases h
  · rename_i c tail heq
    split at h
    · cases h
    · split at h
      · rename_i hstart
        cases h
        exact ⟨c, tail, heq, hstart, rfl, rfl⟩
      · have hc : c ≠ '\x22' := by
          rintro rfl
          exact hquote ((List.dropWhile_sublist _).subset (heq ▸ List.mem_cons_self))
        unfold lexSymbol at h
        split at h <;> first | exact absurd rfl hc | cases h

theorem lexOne_bracket {t : ConstToken} {b : Char}
    (ht : t = .lparen ∧ b = '(' ∨ t = .rparen ∧ b = ')')
    (h : lexOneWith id text = (some t, rest)) : text.dropWhile isSpaceChar = b :: rest := by
  unfold lexOneWith at h
  split at h
  · cases h
  · rename_i c tail heq
    split at h
    · rcases ht with ⟨rfl, -⟩ | ⟨rfl, -⟩ <;> cases h
    · split at h
      · rcases ht with ⟨rfl, -⟩ | ⟨rfl, -⟩ <;> cases h
      · unfold lexSymbol at h
        rcases ht with ⟨rfl, rfl⟩ | ⟨rfl, rfl⟩
        · split at h <;> first | (cases h; exact heq) | cases h
        · split at h <;> first | (cases h; exact heq) | cases h

theorem fullTokens_token {t : ConstToken} (h : lexOneWith id text = (some t, rest)) :
    fullTokens text = t :: fullTokens rest := by rw [fullTokens_eq, h]

theorem fullTokens_bracket {b : Char} {t : ConstToken}
    (ht : t = .lparen ∧ b = '(' ∨ t = .rparen ∧ b = ')') : fullTokens (b :: rest) =
      t :: fullTokens rest := by
  rcases ht with ⟨rfl, rfl⟩ | ⟨rfl, rfl⟩
  · exact fullTokens_token (lexOne_cons (by decide) rest)
  · exact fullTokens_token (lexOne_cons (by decide) rest)

theorem isSpaceChar_of_identStart {c : Char} (h : isIdentStart c = true) :
    isSpaceChar c = false ∧ c.isDigit = false := by
  have hA : 'A'.val.toNat = 65 := rfl
  have hZ : 'Z'.val.toNat = 90 := rfl
  have ha : 'a'.val.toNat = 97 := rfl
  have hz : 'z'.val.toNat = 122 := rfl
  have h0 : '0'.val.toNat = 48 := rfl
  have h9 : '9'.val.toNat = 57 := rfl
  unfold isIdentStart at h
  unfold isSpaceChar
  simp only [Bool.or_eq_true, beq_iff_eq, Char.isAlpha, Char.isUpper, Char.isLower,
    Bool.and_eq_true, decide_eq_true_eq, Bool.or_eq_false_iff, Bool.and_eq_false_iff, Char.isDigit,
    beq_eq_false_iff_ne, decide_eq_false_iff_not, UInt32.le_iff_toNat_le, ge_iff_le] at h ⊢
  rcases h with (⟨h1, h2⟩ | ⟨h1, h2⟩) | rfl
  · simp only [Char.toNat] at *
    omega
  · simp only [Char.toNat] at *
    omega
  · decide

/-- A word and what follows it. -/
theorem lexOne_word {c : Char} {run : List Char} (hc : isIdentStart c = true)
    (hrun : ∀ x ∈ run, isIdentChar x = true)
    (hrest : ∀ x, rest.head? = some x → isIdentChar x = false) :
    lexOneWith id (c :: (run ++ rest)) = (some (.ident (c :: run)), rest) := by
  obtain ⟨hspace, hdigit⟩ := isSpaceChar_of_identStart hc
  obtain ⟨htake, hdrop⟩ := takeWhile_run hrun hrest
  rw [lexOne_cons hspace, if_neg (by rw [hdigit]; decide), if_pos hc, htake, hdrop]

theorem isDecimalChar_ident {c : Char} (h : isDecimalChar c = true) : isIdentChar c = true := by
  unfold isDecimalChar at h
  unfold isIdentChar Char.isAlphanum
  rcases Bool.or_eq_true_iff.mp h with h | h
  · rw [h, Bool.or_true, Bool.true_or]
  · rw [h, Bool.or_true]

theorem isSpaceChar_of_digit {c : Char} (h : c.isDigit = true) : isSpaceChar c = false := by
  have h0 : '0'.val.toNat = 48 := rfl
  have h9 : '9'.val.toNat = 57 := rfl
  unfold isSpaceChar
  simp only [Char.isDigit, Bool.and_eq_true, decide_eq_true_eq, UInt32.le_iff_toNat_le, ge_iff_le,
    Bool.or_eq_false_iff, beq_eq_false_iff_ne, Bool.and_eq_false_iff,
    decide_eq_false_iff_not] at h ⊢
  simp only [Char.toNat] at *
  omega

/-- A number and what follows it. -/
theorem lexOne_number {c : Char} {run : List Char} (hc : c.isDigit = true)
    (hrun : ∀ x ∈ run, isDecimalChar x = true)
    (hrest : ∀ x, rest.head? = some x → isDecimalChar x = false) :
    lexOneWith id (c :: (run ++ rest)) = (some (.int (digitsOf (c :: run))), rest) := by
  obtain ⟨htake, hdrop⟩ := takeWhile_run hrun hrest
  rw [lexOne_cons (isSpaceChar_of_digit hc), if_pos hc, htake, hdrop]

end

/-- Every character belongs to a token. -/
inductive Lexes : List Char → Prop

  | done {text : List Char} : text.dropWhile isSpaceChar = [] → Lexes text

  | token {text rest : List Char} {t : ConstToken} : lexOneWith id text = (some t, rest) →
      Lexes rest → Lexes text

theorem Lexes.tail {text rest : List Char} {t : ConstToken} (h : Lexes text)
    (hlex : lexOneWith id text = (some t, rest)) : Lexes rest := by
  cases h with
  | done hnil =>
    unfold lexOneWith at hlex
    rw [hnil] at hlex
    cases hlex
  | token hlex' hrest =>
    rw [hlex] at hlex'
    cases hlex'
    exact hrest

theorem Lexes.space {c : Char} {rest : List Char} (hc : isSpaceChar c = true)
    (h : Lexes (c :: rest)) : Lexes rest := by
  cases h with
  | done hnil =>
    rw [List.dropWhile_cons_of_pos hc] at hnil
    exact .done hnil
  | token hlex hrest =>
    unfold lexOneWith at hlex
    rw [List.dropWhile_cons_of_pos hc] at hlex
    exact .token hlex hrest

theorem Lexes.spaces : ∀ {gap rest : List Char}, (∀ c ∈ gap, isSpaceChar c = true) →
    Lexes (gap ++ rest) → Lexes rest
  | [], _, _, h => h
  | _ :: _, _, hgap, h =>
    Lexes.spaces (fun x hx => hgap x (.tail _ hx)) (Lexes.space (hgap _ (.head _)) h)

/-! ### Replaced calls -/

section

variable {R : List Char → ℕ → Prop} {t : ConstToken} {ts us : List ConstToken}

theorem replaced_nil : Replaced R [] us ↔ us = [] := by
  constructor
  · intro h
    cases h
    rfl
  · rintro rfl
    exact .nil

theorem replaced_other (ht : ¬ (t = .ident widthofName ∧ ts.head? = some .lparen)) :
    Replaced R (t :: ts) us ↔ ∃ vs, us = t :: vs ∧ Replaced R ts vs := by
  constructor
  · intro h
    cases h with
    | call => exact absurd ⟨rfl, rfl⟩ ht
    | other _ h => exact ⟨_, rfl, h⟩
  · rintro ⟨vs, rfl, h⟩
    exact .other ht h

theorem replaced_call : Replaced R (.ident widthofName :: .lparen :: ts) us ↔ ∃ name w ts' vs,
    ts = .ident name :: .rparen :: ts' ∧ R name w ∧
      us = .int ((Nat.toDigits 10 w).map fun c => c.toNat - 48) :: vs ∧ Replaced R ts' vs := by
  constructor
  · intro h
    cases h with
    | call hw h => exact ⟨_, _, _, _, rfl, hw, rfl, h⟩
    | other hne _ => exact absurd ⟨rfl, rfl⟩ hne
  · rintro ⟨name, w, ts', vs, rfl, hw, rfl, h⟩
    exact .call hw h

end

/-! ### Expansion and tokens -/

section

variable {width : List Char → Option ℕ}

/-- An expansion has the tokens of the text with its calls replaced, and fails when one cannot
be. -/
def ExpandsTo (width : List Char → Option ℕ) (text : List Char) : Prop :=
  ∀ us, Replaced (fun name w => width name = some w) (fullTokens text) us ↔
    ∃ out, expandWidthof width text = some out ∧ fullTokens out = us

/-- A token that is no call is copied. -/
theorem ExpandsTo.step {text tail pre : List Char} {t : ConstToken}
    (hnot : ¬ (t = .ident widthofName ∧ (fullTokens tail).head? = some .lparen))
    (htok : fullTokens text = t :: fullTokens tail)
    (hexp : expandWidthof width text = (expandWidthof width tail).map (pre ++ ·))
    (hout : ∀ out, expandWidthof width tail = some out →
      fullTokens (pre ++ out) = t :: fullTokens out)
    (ih : ExpandsTo width tail) : ExpandsTo width text := by
  intro us
  rw [htok, replaced_other hnot]
  constructor
  · rintro ⟨vs, rfl, h⟩
    obtain ⟨out, hexpand, rfl⟩ := (ih vs).mp h
    exact ⟨pre ++ out, by rw [hexp, hexpand, Option.map_some], hout out hexpand⟩
  · rintro ⟨out, h, rfl⟩
    rw [hexp] at h
    obtain ⟨out', hexpand, rfl⟩ := Option.map_eq_some_iff.mp h
    exact ⟨_, hout out' hexpand, (ih _).mpr ⟨out', hexpand, rfl⟩⟩

theorem digit_decimal (w : ℕ) : ∀ x ∈ Nat.toDigits 10 w, x.isDigit = true :=
  fun _ hx => Nat.isDigit_of_mem_toDigits (by decide) (by decide) hx

theorem digitsOf_toDigits (w : ℕ) :
    digitsOf (Nat.toDigits 10 w) = (Nat.toDigits 10 w).map fun c => c.toNat - 48 := by
  unfold digitsOf
  rw [List.filter_eq_self.mpr (digit_decimal w)]

/-- A number in front of what is no word is one token. -/
theorem fullTokens_toDigits (w : ℕ) {out : List Char}
    (hout : ∀ x, out.head? = some x → isIdentChar x = false) :
    fullTokens (Nat.toDigits 10 w ++ out) =
      .int ((Nat.toDigits 10 w).map fun c => c.toNat - 48) :: fullTokens out := by
  have hdigits := digit_decimal w
  rw [← digitsOf_toDigits]
  cases hw : Nat.toDigits 10 w with
  | nil => exact absurd hw Nat.toDigits_ne_nil
  | cons d ds =>
    rw [hw] at hdigits
    refine fullTokens_token (lexOne_number (hdigits d (.head _)) (fun x hx => ?_) fun x hx => ?_)
    · unfold isDecimalChar
      rw [hdigits x (.tail _ hx), Bool.true_or]
    · by_contra hdec
      have hident := isDecimalChar_ident (Bool.not_eq_false _ ▸ hdec)
      rw [hout x hx] at hident
      cases hident

/-- The first character of an expansion is that of the text, or a digit. -/
theorem head_expansion {rest out : List Char} (h : expandWidthof width rest = some out) {x : Char}
    (hx : out.head? = some x) : x.isDigit = true ∨ rest.head? = some x := by
  cases rest with
  | nil =>
    rw [expandWidthof] at h
    cases h
    cases hx
  | cons c rest =>
    cases hcall : afterCall (c :: rest) with
    | none =>
      rw [expandWidthof_copy hcall] at h
      obtain ⟨tail, -, rfl⟩ := Option.map_eq_some_iff.mp h
      exact .inr hx
    | some body =>
      rw [expandWidthof_call hcall] at h
      obtain ⟨p, -, h⟩ := Option.bind_eq_some_iff.mp h
      obtain ⟨w, -, h⟩ := Option.bind_eq_some_iff.mp h
      obtain ⟨tail, -, rfl⟩ := Option.map_eq_some_iff.mp h
      left
      cases hw : Nat.toDigits 10 w with
      | nil => exact absurd hw Nat.toDigits_ne_nil
      | cons d ds =>
        rw [hw] at hx
        obtain rfl := Option.some.inj hx
        exact digit_decimal w d (by rw [hw]; exact .head _)

/-- Only a `w` starts a call. -/
theorem no_call_of_ne {c : Char} (hc : c ≠ 'w') (rest : List Char) :
    afterCall (c :: rest) = none := by
  cases hcall : afterCall (c :: rest) with
  | none => rfl
  | some body => exact absurd (afterCall_head hcall) hc

/-- Characters that start no call are copied. -/
theorem expandWidthof_plain : ∀ {pre : List Char}, (∀ x ∈ pre, x ≠ 'w') → ∀ rest,
    expandWidthof width (pre ++ rest) = (expandWidthof width rest).map (pre ++ ·)
  | [], _, _ => Option.map_id'.symm
  | c :: pre, hpre, rest => by
      rw [List.cons_append, expandWidthof_copy (no_call_of_ne (hpre c (.head _)) _),
        expandWidthof_plain (fun x hx => hpre x (.tail _ hx)), Option.map_map]
      rfl

theorem Apart.plain : ∀ {pre rest : List Char} {word : Bool}, (∀ x ∈ pre, x ≠ 'w') →
    Apart word (pre ++ rest) → ∃ word', Apart word' rest
  | [], _, word, _, h => ⟨word, h⟩
  | c :: pre, rest, _, hpre, h => by
      have hnext : Apart (isIdentChar c) (pre ++ rest) :=
        h.copy (no_call_of_ne (hpre c (.head _)) _)
      exact Apart.plain (fun x hx => hpre x (.tail _ hx)) hnext

/-- The characters that may continue an operator. -/
def operatorTails : List Char := ['<', '>', '=', '&', '|']

theorem lexSymbol_lt {out : List Char} (h : out.head? ≠ some '<') (h' : out.head? ≠ some '=') :
    lexSymbol '<' out = (some .lt, out) := by
  unfold lexSymbol
  split <;> simp_all

theorem lexSymbol_gt {out : List Char} (h : out.head? ≠ some '>') (h' : out.head? ≠ some '=') :
    lexSymbol '>' out = (some .gt, out) := by
  unfold lexSymbol
  split <;> simp_all

theorem lexSymbol_shr {out : List Char} (h : out.head? ≠ some '>') :
    lexSymbol '>' ('>' :: out) = (some .shr, out) := by
  unfold lexSymbol
  split <;> simp_all

/-- What does not start with a character does not start with it after an expansion. -/
theorem head_ne_of_tails {o : Char} {tail out : List Char}
    (hout : out.head? = some o → tail.head? = some o) (h : ∀ r, tail = o :: r → False) :
    out.head? ≠ some o := by
  intro heq
  obtain ⟨r, hr⟩ := List.head?_eq_some_iff.mp (hout heq)
  exact h r hr

/-- A symbol is read from its own characters, as long as nothing continues it. -/
theorem lexSymbol_cases {c : Char} (hquote : c ≠ '\x22') (rest : List Char) :
    (lexSymbol c rest).1 = none ∨ ∃ t ops tail, rest = ops ++ tail ∧
      lexSymbol c rest = (some t, tail) ∧ (∀ o ∈ ops, o ∈ operatorTails) ∧
      (∀ name, t ≠ .ident name) ∧ ∀ out : List Char,
        (∀ o ∈ operatorTails, out.head? = some o → tail.head? = some o) →
        lexSymbol c (ops ++ out) = (some t, out) := by
  rw [lexSymbol.eq_def c rest]
  split
  · exact absurd rfl hquote
  all_goals try exact .inl rfl
  all_goals try exact .inr ⟨_, [], _, rfl, rfl, nofun, nofun, fun _ _ => rfl⟩
  all_goals try exact .inr ⟨_, [_], _, rfl, rfl, by decide, nofun, fun _ _ => rfl⟩
  all_goals try exact .inr ⟨_, [_, _], _, rfl, rfl, by decide, nofun, fun _ _ => rfl⟩
  · rename_i hlt hle
    exact .inr ⟨_, [], _, rfl, rfl, nofun, nofun, fun out hout => lexSymbol_lt
      (head_ne_of_tails (hout _ (by decide)) hlt) (head_ne_of_tails (hout _ (by decide)) hle)⟩
  · rename_i tail hgt
    refine .inr ⟨_, ['>'], tail, rfl, rfl, by decide, nofun, fun out hout => lexSymbol_shr
      (head_ne_of_tails (hout _ (by decide)) fun r hr => ?_)⟩
    exact hgt r (by rw [hr])
  · rename_i hshr hgt hge
    exact .inr ⟨_, [], _, rfl, rfl, nofun, nofun, fun out hout => lexSymbol_gt
      (head_ne_of_tails (hout _ (by decide)) hgt) (head_ne_of_tails (hout _ (by decide)) hge)⟩

/-- The head of a call's tail belongs to no word. -/
theorem head_gap {gap rest : List Char} {b x : Char} (hgap : ∀ y ∈ gap, isSpaceChar y = true)
    (hb : isIdentChar b = false) (hx : (gap ++ b :: rest).head? = some x) :
    isIdentChar x = false := by
  cases gap with
  | nil =>
    obtain rfl := Option.some.inj hx
    exact hb
  | cons g gap =>
    obtain rfl := Option.some.inj hx
    have hspace := hgap g (.head _)
    unfold isSpaceChar at hspace
    by_contra hident
    have hword := Bool.not_eq_false _ ▸ hident
    unfold isIdentChar Char.isAlphanum at hword
    rcases Bool.or_eq_true_iff.mp hword with hword | hword
    · rcases Bool.or_eq_true_iff.mp hword with hword | hword
      · have hstart : isIdentStart g = true := by
          unfold isIdentStart
          rw [hword, Bool.true_or]
        have hnot := (isSpaceChar_of_identStart hstart).1
        unfold isSpaceChar at hnot
        rw [hspace] at hnot
        cases hnot
      · have hnot := isSpaceChar_of_digit hword
        unfold isSpaceChar at hnot
        rw [hspace] at hnot
        cases hnot
    · rw [beq_iff_eq] at hword
      subst hword
      revert hspace
      decide

/-- The tokens of a call up to its name. -/
theorem fullTokens_afterCall {text body : List Char} (h : afterCall text = some body) :
    fullTokens text = .ident widthofName :: .lparen :: fullTokens body ∧
      (Lexes text → Lexes body) := by
  obtain ⟨gap, rfl, hgap⟩ := afterCall_eq h
  have hword : lexOneWith id (widthofName ++ (gap ++ '(' :: body)) =
      (some (.ident widthofName), gap ++ '(' :: body) :=
    @lexOne_word _ 'w' ['i', 'd', 't', 'h', 'o', 'f'] (by decide) (by decide)
      fun x hx => head_gap hgap (by decide) hx
  refine ⟨?_, fun hlex => ?_⟩
  · rw [fullTokens_token hword, fullTokens_spaces hgap, fullTokens_bracket (.inl ⟨rfl, rfl⟩)]
  · have hrest := Lexes.spaces hgap (hlex.tail hword)
    exact hrest.tail (lexOne_cons (by decide) body)

/-- The tokens of the argument of a call. -/
theorem fullTokens_callArgument {body name after : List Char}
    (h : callArgument body = some (name, after)) :
    fullTokens body = .ident name :: .rparen :: fullTokens after ∧ (Lexes body → Lexes after) := by
  obtain ⟨gap, c, run, gap', rfl, rfl, hgap, hc, hrun, hgap'⟩ := callArgument_eq h
  have hword : lexOneWith id (c :: (run ++ (gap' ++ ')' :: after))) =
      (some (.ident (c :: run)), gap' ++ ')' :: after) :=
    lexOne_word hc hrun fun x hx => head_gap hgap' (by decide) hx
  refine ⟨?_, fun hlex => ?_⟩
  · rw [fullTokens_spaces hgap, fullTokens_token hword, fullTokens_spaces hgap',
      fullTokens_bracket (.inr ⟨rfl, rfl⟩)]
  · have hrest := Lexes.spaces hgap' ((Lexes.spaces hgap hlex).tail hword)
    exact hrest.tail (lexOne_cons (by decide) after)

/-- A name in brackets is an argument. -/
theorem callArgument_of_tokens {body name : List Char} {ts : List ConstToken}
    (hquote : '\x22' ∉ body) (h : fullTokens body = .ident name :: .rparen :: ts) :
    ∃ p, callArgument body = some p := by
  rw [fullTokens_eq] at h
  cases hone : lexOneWith id body with
  | mk t rest =>
    rw [hone] at h
    cases t with
    | none => cases h
    | some t =>
      obtain ⟨rfl, hrest⟩ := List.cons.inj h
      obtain ⟨c, tail, hbody, hstart, -, rfl⟩ := lexOne_ident hquote hone
      rw [fullTokens_eq] at hrest
      cases htwo : lexOneWith id (tail.dropWhile isIdentChar) with
      | mk t' rest' =>
        rw [htwo] at hrest
        cases t' with
        | none => cases hrest
        | some t' =>
          obtain ⟨rfl, -⟩ := List.cons.inj hrest
          have hclose := lexOne_bracket (.inr ⟨rfl, rfl⟩) htwo
          refine ⟨(c :: tail.takeWhile isIdentChar, rest'), ?_⟩
          unfold callArgument
          simp only [hbody, if_pos hstart, hclose]

/-- A call is replaced by its width, or the expansion fails. -/
theorem ExpandsTo.call {c : Char} {rest body : List Char}
    (hcall : afterCall (c :: rest) = some body) (hquote : '\x22' ∉ c :: rest)
    (hshort : ∀ name, .ident name ∈ fullTokens (c :: rest) → name.length ≤ 255)
    (ih : ∀ name after, callArgument body = some (name, after) →
      (∀ x, after.head? = some x → isIdentChar x = false) ∧ ExpandsTo width after) :
    ExpandsTo width (c :: rest) := by
  intro us
  obtain ⟨htokens, -⟩ := fullTokens_afterCall hcall
  have hbody : '\x22' ∉ body := by
    obtain ⟨gap, htext, -⟩ := afterCall_eq hcall
    rw [htext] at hquote
    exact fun hmem => hquote (List.mem_append_right _ (List.mem_append_right _ (.tail _ hmem)))
  rw [htokens, replaced_call, expandWidthof_call hcall]
  cases harg : callArgument body with
  | none =>
    constructor
    · rintro ⟨name, w, ts, vs, htoks, -⟩
      obtain ⟨p, hp⟩ := callArgument_of_tokens hbody htoks
      rw [harg] at hp
      cases hp
    · rintro ⟨out, h, -⟩
      cases h
  | some p =>
    obtain ⟨name, after⟩ := p
    obtain ⟨hhead, hafter⟩ := ih name after harg
    obtain ⟨hargs, -⟩ := fullTokens_callArgument harg
    have hname : name.take 255 = name := by
      refine List.take_of_length_le (hshort name ?_)
      rw [htokens, hargs]
      exact .tail _ (.tail _ (.head _))
    have hout : ∀ {w out}, expandWidthof width after = some out →
        fullTokens (Nat.toDigits 10 w ++ out) =
          .int ((Nat.toDigits 10 w).map fun c => c.toNat - 48) :: fullTokens out := by
      intro w out hexp
      refine fullTokens_toDigits w fun x hx => ?_
      cases hafter' : after with
      | nil =>
        rw [hafter', expandWidthof] at hexp
        cases hexp
        cases hx
      | cons y after' =>
        have hy : isIdentChar y = false := hhead y (by rw [hafter']; rfl)
        have hno : afterCall (y :: after') = none :=
          no_call_of_ne (fun heq => absurd (heq ▸ hy) (by decide)) _
        rw [hafter', expandWidthof_copy hno] at hexp
        obtain ⟨tail, -, rfl⟩ := Option.map_eq_some_iff.mp hexp
        obtain rfl := Option.some.inj hx
        exact hy
    rw [Option.bind_some, hname, hargs]
    constructor
    · rintro ⟨name', w, ts, vs, htoks, hw, rfl, hrep⟩
      cases htoks
      obtain ⟨out, hexp, rfl⟩ := (hafter vs).mp hrep
      exact ⟨Nat.toDigits 10 w ++ out, by rw [hw, Option.bind_some, hexp, Option.map_some],
        hout hexp⟩
    · rintro ⟨out, h, rfl⟩
      obtain ⟨w, hw, h⟩ := Option.bind_eq_some_iff.mp h
      obtain ⟨tail, hexp, rfl⟩ := Option.map_eq_some_iff.mp h
      exact ⟨name, w, _, _, rfl, hw, hout hexp, (hafter _).mpr ⟨tail, hexp, rfl⟩⟩

/-- A word or a number is copied. -/
theorem ExpandsTo.run {word : Bool} {c : Char} {rest : List Char} {p : Char → Bool}
    {tok : List Char → ConstToken} (hcall : afterCall (c :: rest) = none)
    (hap : Apart word (c :: rest)) (hc : isIdentChar c = true)
    (hp : ∀ x, p x = true → isIdentChar x = true)
    (hlex : ∀ run out, (∀ x ∈ run, p x = true) → (∀ x, out.head? = some x → p x = false) →
      lexOneWith id (c :: (run ++ out)) = (some (tok (c :: run)), out))
    (hnot : ¬ (tok (c :: rest.takeWhile p) = .ident widthofName ∧
      (fullTokens (rest.dropWhile p)).head? = some .lparen))
    (ih : Apart true (rest.dropWhile p) → ExpandsTo width (rest.dropWhile p)) :
    ExpandsTo width (c :: rest) := by
  have hrun : ∀ x ∈ rest.takeWhile p, p x = true := fun x hx => List.mem_takeWhile_imp hx
  have hstop : ∀ x, (rest.dropWhile p).head? = some x → p x = false := by
    intro x hx
    obtain ⟨r, hr⟩ := List.head?_eq_some_iff.mp hx
    exact (eq_of_dropWhile hr).2.2
  have hsplit : rest.takeWhile p ++ rest.dropWhile p = rest := List.takeWhile_append_dropWhile
  have hnext := hap.copy hcall
  rw [hc, ← hsplit] at hnext
  obtain ⟨hexp, htail⟩ := @expandWidthof_run width _ _ hnext fun x hx => hp x (hrun x hx)
  refine @ExpandsTo.step width _ _ (c :: rest.takeWhile p) _ hnot ?_ ?_ ?_ (ih htail)
  · have hone := hlex _ _ hrun hstop
    rw [hsplit] at hone
    exact fullTokens_token hone
  · rw [expandWidthof_copy hcall]
    rw [hsplit] at hexp
    rw [hexp, Option.map_map]
    rfl
  · intro out hout
    refine fullTokens_token (hlex _ _ hrun fun x hx => ?_)
    rw [head_expandWidthof htail hout] at hx
    exact hstop x hx

/-- A symbol is copied. -/
theorem ExpandsTo.symbol {word : Bool} {c : Char} {rest : List Char} (hap : Apart word (c :: rest))
    (hlex : Lexes (c :: rest)) (hquote : c ≠ '\x22') (hw : c ≠ 'w')
    (hspace : isSpaceChar c = false) (hdigit : c.isDigit = false) (hstart : isIdentStart c = false)
    (ih : ∀ pre tail word' t, rest = pre ++ tail → Apart word' tail →
      lexOneWith id (c :: rest) = (some t, tail) → ExpandsTo width tail) :
    ExpandsTo width (c :: rest) := by
  have hone : ∀ out, lexOneWith id (c :: out) = lexSymbol c out := by
    intro out
    rw [lexOne_cons hspace, if_neg (by rw [hdigit]; decide), if_neg (by rw [hstart]; decide)]
  rcases lexSymbol_cases hquote rest with hnone | ⟨t, ops, tail, rfl, hsym, hops, hident, hcont⟩
  · -- An unknown character ends the tokens, but every character belongs to one.
    cases hlex with
    | done hnil =>
      rw [List.dropWhile_cons_of_neg (by rw [hspace]; decide)] at hnil
      cases hnil
    | token htok _ =>
      rw [hone] at htok
      rw [htok] at hnone
      cases hnone
  · have hplain : ∀ x ∈ c :: ops, x ≠ 'w' := by
      intro x hx
      rcases List.mem_cons.mp hx with rfl | hx
      · exact hw
      · rintro rfl
        exact absurd (hops _ hx) (by decide)
    have hap' : Apart word ((c :: ops) ++ tail) := hap
    obtain ⟨word', htail⟩ := hap'.plain hplain
    have hexp := @expandWidthof_plain width _ hplain tail
    refine @ExpandsTo.step width _ _ (c :: ops) _ (fun h => hident _ h.1)
      (fullTokens_token ((hone _).trans hsym)) hexp (fun out hout => ?_)
      (ih ops tail word' t rfl htail (by rw [hone, hsym]))
    refine fullTokens_token ((hone _).trans (hcont out fun o ho hx => ?_))
    rcases head_expansion hout hx with hd | hhead
    · have hnone : ∀ x ∈ operatorTails, x.isDigit = false := by decide
      rw [hnone o ho] at hd
      cases hd
    · exact hhead

/-- Every call stands apart, every character belongs to a token, and there are no strings. -/
structure PlainText (text : List Char) : Prop where

  apart : Apart false text

  lexes : Lexes text

  quotes : '\x22' ∉ text

/-- Expansion and tokenisation commute. -/
theorem expandsTo_of_apart : ∀ (n : ℕ) {word : Bool} {text : List Char}, text.length < n →
    Apart word text → Lexes text → '\x22' ∉ text →
    (∀ name, .ident name ∈ fullTokens text → name.length ≤ 255) → ExpandsTo width text
  | n + 1, word, [], _, _, _, _, _ => by
      intro us
      have hnil : fullTokens [] = [] := rfl
      rw [hnil, replaced_nil, expandWidthof]
      constructor
      · rintro rfl
        exact ⟨[], rfl, rfl⟩
      · rintro ⟨out, h, rfl⟩
        cases h
        rfl
  | n + 1, word, c :: rest, hlen, hap, hlex, hquote, hshort => by
      have hsuffix : ∀ {pre tail : List Char} {t : ConstToken}, c :: rest = pre ++ tail →
          lexOneWith id (c :: rest) = (some t, tail) → tail.length < n → ∀ {word'},
          Apart word' tail → ExpandsTo width tail := by
        intro pre tail t hsplit hone hlt word' hap'
        refine expandsTo_of_apart n hlt hap' (hlex.tail hone)
          (fun h => hquote (hsplit ▸ List.mem_append_right _ h)) fun name hname => hshort name ?_
        rw [fullTokens_token hone]
        exact .tail _ hname
      cases hcall : afterCall (c :: rest) with
      | some body =>
        refine ExpandsTo.call hcall hquote hshort fun name after harg => ?_
        obtain ⟨hhead, hafter⟩ := (hap.call hcall).2 name after harg
        obtain ⟨htokens, hbody⟩ := fullTokens_afterCall hcall
        obtain ⟨hargs, htail⟩ := fullTokens_callArgument harg
        refine ⟨hhead, expandsTo_of_apart n ?_ hafter (htail (hbody hlex)) ?_ ?_⟩
        · have h1 := afterCall_length hcall
          have h2 := callArgument_length harg
          omega
        · obtain ⟨gap, htext, -⟩ := afterCall_eq hcall
          obtain ⟨gap₁, d, run, gap₂, rfl, -⟩ := callArgument_eq harg
          rw [htext] at hquote
          simp only [List.mem_append, List.mem_cons, not_or] at hquote
          exact hquote.2.2.2.2.2.2.2.2
        · intro name' hname
          refine hshort name' ?_
          rw [htokens, hargs]
          exact .tail _ (.tail _ (.tail _ (.tail _ hname)))
      | none =>
        have hc : c ≠ '\x22' := fun h => hquote (h ▸ List.mem_cons_self)
        have hdrop : ∀ p : Char → Bool, (rest.dropWhile p).length < n := fun p => by
          have := length_dropWhile_le p rest
          rw [List.length_cons] at hlen
          omega
        have hcut : ∀ p : Char → Bool,
            c :: rest = (c :: rest.takeWhile p) ++ rest.dropWhile p := fun p => by
          rw [List.cons_append, List.takeWhile_append_dropWhile]
        by_cases hspace : isSpaceChar c = true
        · intro us
          have htail := expandsTo_of_apart n (by rw [List.length_cons] at hlen; omega)
            (hap.copy hcall) (hlex.space hspace) (fun h => hquote (.tail _ h))
            (fun name hname => hshort name (by rw [fullTokens_space hspace]; exact hname)) us
          rw [fullTokens_space hspace, htail, expandWidthof_copy hcall]
          constructor
          · rintro ⟨out, hout, rfl⟩
            exact ⟨c :: out, by rw [hout, Option.map_some], fullTokens_space hspace out⟩
          · rintro ⟨out, hout, rfl⟩
            obtain ⟨out', hout', rfl⟩ := Option.map_eq_some_iff.mp hout
            exact ⟨out', hout', (fullTokens_space hspace out').symm⟩
        · have hspace' := Bool.not_eq_true _ ▸ hspace
          by_cases hdigit : c.isDigit = true
          · have hone := lexOne_cons hspace' rest
            rw [if_pos hdigit] at hone
            have hdecimal : isDecimalChar c = true := by
              unfold isDecimalChar
              rw [hdigit, Bool.true_or]
            exact @ExpandsTo.run width word c rest isDecimalChar (fun r => .int (digitsOf r)) hcall
              hap (isDecimalChar_ident hdecimal) (fun x => isDecimalChar_ident)
              (fun run out => lexOne_number hdigit) (fun h => by cases h.1)
              fun htail => hsuffix (hcut _) hone (hdrop _) htail
          · by_cases hstart : isIdentStart c = true
            · have hone := lexOne_cons hspace' rest
              rw [if_neg hdigit, if_pos hstart] at hone
              refine @ExpandsTo.run width word c rest isIdentChar .ident hcall hap ?_ (fun x => id)
                (fun run out => lexOne_word hstart) ?_
                fun htail => hsuffix (hcut _) hone (hdrop _) htail
              · unfold isIdentStart at hstart
                unfold isIdentChar Char.isAlphanum
                rcases Bool.or_eq_true_iff.mp hstart with h | h
                · rw [h, Bool.true_or, Bool.true_or]
                · rw [h, Bool.or_true]
              · -- A name `widthof` in front of a bracket would be a call.
                rintro ⟨hname, hparen⟩
                rw [fullTokens_eq] at hparen
                cases hnext : lexOneWith id (rest.dropWhile isIdentChar) with
                | mk t tail =>
                  rw [hnext] at hparen
                  cases t with
                  | none => cases hparen
                  | some t =>
                    obtain rfl := Option.some.inj hparen
                    have hopen := lexOne_bracket (.inl ⟨rfl, rfl⟩) hnext
                    obtain ⟨hgap, hspaces, -⟩ := eq_of_dropWhile hopen
                    have hword : c :: rest.takeWhile isIdentChar = widthofName :=
                      ConstToken.ident.inj hname
                    have htext := hcut isIdentChar
                    rw [hword, hgap] at htext
                    rw [htext, afterCall_widthof hspaces] at hcall
                    cases hcall
            · have hw : c ≠ 'w' := by
                rintro rfl
                exact hstart (by decide)
              refine ExpandsTo.symbol hap hlex hc hw hspace' (Bool.not_eq_true _ ▸ hdigit)
                (Bool.not_eq_true _ ▸ hstart) fun pre tail word' t hrest hap' hone => ?_
              have htext : c :: rest = (c :: pre) ++ tail := congrArg _ hrest
              have hle : tail.length ≤ rest.length := by
                rw [hrest, List.length_append]
                exact Nat.le_add_left _ _
              rw [List.length_cons] at hlen
              exact hsuffix htext hone (by omega) hap'

end

end JzHdl

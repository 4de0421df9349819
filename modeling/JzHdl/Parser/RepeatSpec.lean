import JzHdl.Parser.Repeat

/-! # Repeated blocks as a recursion

What the expansion of a source text is: the text is cut into directives and
other characters, and every block is replaced by copies of its own expansion.
-/

namespace JzHdl

/-- A directive, or a character of anything else. -/
inductive RepeatToken | text (c : Char) | rep | fin
  deriving DecidableEq

/-! ## Tokens -/

def blockTail : List Char → List Char
  | [] => []
  | '*' :: '/' :: rest => rest
  | _ :: rest => blockTail rest

theorem length_blockTail_le : ∀ text : List Char, (blockTail text).length ≤ text.length
  | [] => le_rfl
  | c :: rest => by
      have h := length_blockTail_le rest
      rw [blockTail.eq_def]
      split
      · exact Nat.zero_le _
      · rename_i heq
        obtain ⟨-, rfl⟩ := List.cons.inj heq
        simp only [List.length_cons]
        omega
      · rename_i heq
        obtain ⟨-, rfl⟩ := List.cons.inj heq
        simp only [List.length_cons]
        omega

/-- The characters before a suffix. -/
def upTo (text p : List Char) : List Char := text.take (text.length - p.length)

/-- The directives of a text. Line comments, strings and, where they are asked for, block comments
are plain text. -/
def lexSource (blocks : Bool) (text : List Char) : List RepeatToken :=
  match text with
  | [] => []
  | c :: rest =>
    if blocks = true ∧ c = '/' ∧ rest.head? = some '*' then
      (upTo (c :: rest) (blockTail rest.tail)).map .text ++ lexSource blocks (blockTail rest.tail)
    else if c = '/' ∧ rest.head? = some '/' then
      (upTo (c :: rest) (lineTail rest)).map .text ++ lexSource blocks (lineTail rest)
    else if c = '"' then
      (upTo (c :: rest) (skipQuote (stringTail rest))).map .text ++
        lexSource blocks (skipQuote (stringTail rest))
    else if directiveAt repeatWord (c :: rest) then .rep :: lexSource blocks (rest.drop 6)
    else if directiveAt endWord (c :: rest) then .fin :: lexSource blocks (rest.drop 3)
    else .text c :: lexSource blocks rest
termination_by text.length
decreasing_by
  · have := length_blockTail_le rest.tail
    simp only [List.length_cons, List.length_tail] at this ⊢
    omega
  · have := length_lineTail_le rest
    simp only [List.length_cons]
    omega
  · have := length_skipQuote_le (stringTail rest)
    have := length_stringTail_le rest
    simp only [List.length_cons]
    omega
  · simp only [List.length_cons, List.length_drop]
    omega
  · simp only [List.length_cons, List.length_drop]
    omega
  · simp only [List.length_cons]
    omega

/-! ## Blocks -/

def RepeatToken.is (p : Char → Bool) : RepeatToken → Bool
  | .text c => p c
  | _ => false

def RepeatToken.digit : RepeatToken → ℕ
  | .text c => c.toNat - 48
  | _ => 0

/-- The spaces and the newline that end the line of a directive go with it. -/
def skipLineEnd (tokens : List RepeatToken) : List RepeatToken :=
  match tokens.dropWhile (RepeatToken.is isHspace) with
  | .text '\n' :: rest => rest
  | rest => rest

/-- The count of a block, and what follows the line. -/
def directiveCount (tokens : List RepeatToken) : Option (ℕ × List RepeatToken) :=
  let p := tokens.dropWhile (RepeatToken.is isHspace)
  let digits := p.takeWhile (RepeatToken.is Char.isDigit)
  if digits = [] then none
  else some (digits.foldl (fun n t => n * 10 + t.digit) 0,
    skipLineEnd (p.dropWhile (RepeatToken.is Char.isDigit)))

/-- The body in front of the matching `@end`, and what follows it. -/
def matchEnd : ℕ → List RepeatToken → Option (List RepeatToken × List RepeatToken)
  | _, [] => none
  | 0, .fin :: rest => some ([], rest)
  | depth + 1, .fin :: rest => (matchEnd depth rest).map fun p => (.fin :: p.1, p.2)
  | depth, .rep :: rest => (matchEnd (depth + 1) rest).map fun p => (.rep :: p.1, p.2)
  | depth, .text c :: rest => (matchEnd depth rest).map fun p => (.text c :: p.1, p.2)

theorem length_skipLineEnd_le (tokens : List RepeatToken) :
    (skipLineEnd tokens).length ≤ tokens.length := by
  have h := (List.dropWhile_suffix (l := tokens) (RepeatToken.is isHspace)).length_le
  rw [skipLineEnd]
  split
  · rename_i heq
    rw [heq, List.length_cons] at h
    omega
  · exact h

theorem length_directiveCount {tokens line : List RepeatToken} {count : ℕ}
    (h : directiveCount tokens = some (count, line)) : line.length ≤ tokens.length := by
  rw [directiveCount] at h
  split at h
  · cases h
  · obtain ⟨-, rfl⟩ := Prod.mk.inj (Option.some.inj h)
    refine (length_skipLineEnd_le _).trans ?_
    exact ((List.dropWhile_suffix _).length_le).trans (List.dropWhile_suffix _).length_le

theorem length_matchEnd : ∀ {depth : ℕ} {tokens body after : List RepeatToken},
    matchEnd depth tokens = some (body, after) → body.length + after.length + 1 = tokens.length
  | _, [], _, _, h => by cases h
  | 0, .fin :: rest, body, after, h => by
      obtain ⟨rfl, rfl⟩ := Prod.mk.inj (Option.some.inj h)
      simp
  | depth + 1, .fin :: rest, body, after, h => by
      obtain ⟨⟨b, a⟩, hrec, heq⟩ := Option.map_eq_some_iff.mp h
      obtain ⟨rfl, rfl⟩ := Prod.mk.inj heq
      have := length_matchEnd hrec
      simp only [List.length_cons]
      omega
  | depth, .rep :: rest, body, after, h => by
      rw [matchEnd] at h
      obtain ⟨⟨b, a⟩, hrec, heq⟩ := Option.map_eq_some_iff.mp h
      obtain ⟨rfl, rfl⟩ := Prod.mk.inj heq
      have := length_matchEnd hrec
      simp only [List.length_cons]
      omega
  | depth, .text c :: rest, body, after, h => by
      rw [matchEnd] at h
      obtain ⟨⟨b, a⟩, hrec, heq⟩ := Option.map_eq_some_iff.mp h
      obtain ⟨rfl, rfl⟩ := Prod.mk.inj heq
      have := length_matchEnd hrec
      simp only [List.length_cons]
      omega

/-! ## The recursion -/

/-- A character that is no part of a word, or the end of the text. -/
def NoWordChar (c : Option Char) : Prop := ∀ d ∈ c, isWordChar d = false

instance (c : Option Char) : Decidable (NoWordChar c) := by
  cases c with
  | none => exact isTrue fun d hd => by cases hd
  | some d => exact decidable_of_iff (isWordChar d = false) (by simp [NoWordChar])

/-- A body with every standalone word `IDX` replaced by the index, in at most 15 digits. `left` is
the character in front. -/
def replaceIdx (idx : ℕ) (left : Option Char) (body : List Char) : List Char :=
  match body with
  | [] => []
  | c :: rest =>
    if (c :: rest).take 3 = ['I', 'D', 'X'] ∧ NoWordChar left ∧
        NoWordChar ((c :: rest).drop 3).head? then
      idxText idx ++ replaceIdx idx (some 'X') ((c :: rest).drop 3)
    else c :: replaceIdx idx (some c) rest
termination_by body.length
decreasing_by
  · simp only [List.length_cons, List.length_drop]
    omega
  · simp only [List.length_cons]
    omega

/-- The copies of an expanded body. -/
def bodyCopies (count : ℕ) (body : List Char) : List Char :=
  (List.range count).flatMap fun i => replaceIdx i none body

section

variable (limits : ExpansionLimits)

def withinLimit (out : Option (List Char)) : Option (List Char) :=
  out.filter fun out => out.length ≤ limits.repeatMaxBytes

/-- Blocks are replaced by the copies of their own expanded bodies. An `@end` without a block is
text. -/
def expandTokens (tokens : List RepeatToken) : Option (List Char) :=
  match tokens with
  | [] => some []
  | .text c :: rest => (expandTokens rest).map fun out => c :: out
  | .fin :: rest => (expandTokens rest).map fun out => endWord ++ out
  | .rep :: rest =>
    match _hcount : directiveCount rest with
    | none => none
    | some (count, line) =>
      if count = 0 ∨ limits.repeatMaxCount < count then none
      else
        match _hend : matchEnd 0 line with
        | none => none
        | some (body, after) =>
          match withinLimit limits (expandTokens body), expandTokens (skipLineEnd after) with
          | some out, some tail => some (bodyCopies count out ++ tail)
          | _, _ => none
termination_by tokens.length
decreasing_by
  · simp only [List.length_cons]
    omega
  · simp only [List.length_cons]
    omega
  · have := length_directiveCount _hcount
    have := length_matchEnd _hend
    simp only [List.length_cons]
    omega
  · have := length_directiveCount _hcount
    have := length_matchEnd _hend
    have := length_skipLineEnd_le after
    simp only [List.length_cons]
    omega

def expandSource (tokens : List RepeatToken) : Option (List Char) :=
  withinLimit limits (expandTokens limits tokens)

end

end JzHdl

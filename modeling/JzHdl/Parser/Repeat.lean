import Mathlib.Data.List.Basic
import Mathlib.Data.Nat.Digits.Defs
import Mathlib.Data.List.TakeWhile

/-! # Expansion of @repeat

The expansion of `@repeat N ... @end` blocks in raw source text. A stack of
frames holds the regions that are being expanded, and a pointer into the text is
the rest of its region.
-/

namespace JzHdl

structure ExpansionLimits where

  repeatMaxCount : ℕ

  repeatMaxBytes : ℕ

/-! ## Characters and directives -/

def isWordChar (c : Char) : Bool := c.isAlphanum || c == '_'

def isHspace (c : Char) : Bool := c == ' ' || c == '\t'

def skipHspace (text : List Char) : List Char := text.dropWhile isHspace

def skipNewline : List Char → List Char
  | '\n' :: rest => rest
  | text => text

def repeatWord : List Char := ['@', 'r', 'e', 'p', 'e', 'a', 't']

def endWord : List Char := ['@', 'e', 'n', 'd']

def boundaryOk : List Char → Bool
  | [] => true
  | c :: _ => !isWordChar c

/-- `matches_directive` and `directive_boundary_ok`. -/
def directiveAt (word text : List Char) : Bool :=
  word.isPrefixOf text && boundaryOk (text.drop word.length)

def strstr (word : List Char) : List Char → Bool
  | [] => word.isPrefixOf []
  | c :: rest => word.isPrefixOf (c :: rest) || strstr word rest

/-! ## Comments and strings -/

def lineTail (text : List Char) : List Char := text.dropWhile (· != '\n')

/-- Where the loop over the characters of a string literal stops. -/
def stringTail : List Char → List Char
  | [] => []
  | [c] => if c = '"' ∨ c = '\n' then [c] else []
  | c :: d :: rest =>
    if c = '"' ∨ c = '\n' then c :: d :: rest
    else if c = '\\' then stringTail rest
    else stringTail (d :: rest)

def skipQuote : List Char → List Char
  | '"' :: rest => rest
  | text => text

theorem length_lineTail_le (text : List Char) : (lineTail text).length ≤ text.length :=
  (List.dropWhile_suffix _).length_le

theorem length_stringTail_le : ∀ text : List Char, (stringTail text).length ≤ text.length
  | [] => le_rfl
  | [c] => by
      rw [stringTail]
      split
      · exact le_rfl
      · exact Nat.zero_le _
  | c :: d :: rest => by
      have h1 := length_stringTail_le rest
      have h2 := length_stringTail_le (d :: rest)
      rw [stringTail]
      split
      · exact le_rfl
      · split
        · simp only [List.length_cons]
          omega
        · simp only [List.length_cons] at h2 ⊢
          omega

theorem length_skipQuote_le (text : List Char) : (skipQuote text).length ≤ text.length := by
  rw [skipQuote.eq_def]
  split
  · exact Nat.le_succ _
  · exact le_rfl

/-! ## The matching @end -/

/-- The text from the matching `@end` on. -/
def findMatchingEnd (depth : ℕ) (text : List Char) : Option (List Char) :=
  match text with
  | [] => none
  | c :: rest =>
    if c = '/' ∧ rest.head? = some '/' then findMatchingEnd depth (lineTail rest)
    else if c = '"' then findMatchingEnd depth (stringTail rest).tail
    else if directiveAt repeatWord (c :: rest) then findMatchingEnd (depth + 1) (rest.drop 6)
    else if directiveAt endWord (c :: rest) then
      if depth = 1 then some (c :: rest) else findMatchingEnd (depth - 1) (rest.drop 3)
    else findMatchingEnd depth rest
termination_by text.length
decreasing_by
  · have := length_lineTail_le rest
    simp only [List.length_cons]
    omega
  · have := length_stringTail_le rest
    simp only [List.length_cons, List.length_tail]
    omega
  · simp only [List.length_cons, List.length_drop]
    omega
  · simp only [List.length_cons, List.length_drop]
    omega
  · simp only [List.length_cons]
    omega

/-! ## Buffers -/

/-- `sb_append_limited`: nothing is appended beyond the limit. -/
def sbAppendLimited (maxBytes : ℕ) (out text : List Char) : Option (List Char) :=
  if text = [] then some out
  else if maxBytes < out.length + text.length then none
  else some (out ++ text)

/-- The index as it is printed into a buffer of 16 bytes. -/
def idxText (idx : ℕ) : List Char := (Nat.toDigits 10 idx).take 15

/-- The pieces that a body is copied in; a word `IDX` becomes the index. The run of characters
between two such words is one piece of the source. -/
def idxPieces (idx : ℕ) (afterWord : Bool) : List Char → List (List Char)
  | [] => []
  | c :: rest =>
    if c = 'I' ∧ afterWord = false ∧ ['D', 'X'].isPrefixOf rest ∧ boundaryOk (rest.drop 2) then
      idxText idx :: idxPieces idx true (rest.drop 2)
    else [c] :: idxPieces idx (isWordChar c) rest
termination_by text => text.length
decreasing_by
  · simp only [List.length_cons, List.length_drop]
    omega
  · simp only [List.length_cons]
    omega

def appendPieces (maxBytes : ℕ) (out : List Char) (pieces : List (List Char)) :
    Option (List Char) :=
  pieces.foldlM (sbAppendLimited maxBytes) out

/-- One copy of the body for each iteration. -/
def appendCopies (maxBytes count : ℕ) (out body : List Char) : Option (List Char) :=
  (List.range count).foldlM (fun out i => appendPieces maxBytes out (idxPieces i false body)) out

/-! ## Regions -/

structure RepeatFrame where

  text : List Char

  out : List Char

  /-- The count of the block whose body is being expanded, and the text from its `@end` on. -/
  pending : Option (ℕ × List Char)

inductive RepeatStep

  | next (stack : List RepeatFrame)

  | done (out : List Char)

  | fail

/-- The count after `@repeat`, and the text after the line. Counts that overflow are above every
limit. -/
def repeatCount (text : List Char) : Option (ℕ × List Char) :=
  let p := skipHspace text
  let digits := p.takeWhile Char.isDigit
  if digits = [] then none
  else some (digits.foldl (fun n c => n * 10 + (c.toNat - 48)) 0,
    skipNewline (skipHspace (p.dropWhile Char.isDigit)))

section

variable (limits : ExpansionLimits)

/-- Copy the text up to a pointer. -/
def copyUpTo (frame : RepeatFrame) (p : List Char) (stack : List RepeatFrame) : RepeatStep :=
  match sbAppendLimited limits.repeatMaxBytes frame.out
      (frame.text.take (frame.text.length - p.length)) with
  | none => .fail
  | some out => .next ({ frame with text := p, out := out } :: stack)

/-- Push the body of a block. -/
def pushBody (frame : RepeatFrame) (afterWord : List Char) (stack : List RepeatFrame) :
    RepeatStep :=
  match repeatCount afterWord with
  | none => .fail
  | some (count, body) =>
    if count = 0 then .fail
    else if limits.repeatMaxCount < count then .fail
    else match findMatchingEnd 1 body with
      | none => .fail
      | some endAt => .next (⟨body.take (body.length - endAt.length), [], none⟩ ::
          { frame with pending := some (count, endAt) } :: stack)

/-- Append the copies of a finished body to the frame below it. -/
def popBody (child : RepeatFrame) : List RepeatFrame → RepeatStep
  | [] => .done child.out
  | parent :: rest =>
    match parent.pending with
    | none => .fail
    | some (count, endAt) =>
      match appendCopies limits.repeatMaxBytes count parent.out child.out with
      | none => .fail
      | some out => .next (⟨skipNewline (skipHspace (endAt.drop 4)), out, none⟩ :: rest)

/-- One turn of the loop of `expand_region`. -/
def expandStep : List RepeatFrame → RepeatStep
  | [] => .fail
  | frame :: stack =>
    match frame.text with
    | [] => popBody limits frame stack
    | c :: rest =>
      if c = '/' ∧ rest.head? = some '/' then copyUpTo limits frame (lineTail rest) stack
      else if c = '"' then copyUpTo limits frame (skipQuote (stringTail rest)) stack
      else if directiveAt repeatWord (c :: rest) then pushBody limits frame (rest.drop 6) stack
      else copyUpTo limits frame rest stack

def expandRun : ℕ → List RepeatFrame → Option (List Char)
  | 0, _ => none
  | fuel + 1, stack =>
    match expandStep limits stack with
    | .next stack => expandRun fuel stack
    | .done out => some out
    | .fail => none

/-- Every turn consumes a character or ends a region, so twice the length is enough. -/
def jzRepeatExpand (source : List Char) : Option (List Char) :=
  if strstr repeatWord source then expandRun limits (2 * source.length + 1) [⟨source, [], none⟩]
  else some source

end

end JzHdl

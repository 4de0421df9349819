import JzHdl.Lib.IdentText

/-! # Replacing the words of a text

A word is a longest run of word characters. Words are replaced by texts of any kind. Since no two
words stand next to each other, the pieces of the result are the pieces of the replacements, and
two replacements after each other are one.
-/

namespace IdentText

variable {α : Type*} {part : α → Bool}

/-- The text with every word replaced. -/
def Piece.replaced (f : List α → List α) : Piece α → List α
  | .char c => [c]
  | .word w => f w

variable (part)

def replaced (f : List α → List α) (l : List α) : List α :=
  (pieces part part l).flatMap (Piece.replaced f)

/-- No word of the text is one of these. -/
def Avoids (ws : List α → Prop) (l : List α) : Prop := ∀ w, .word w ∈ pieces part part l → ¬ ws w

variable {part}

@[simp] theorem replaced_nil (f : List α → List α) : replaced part f [] = [] := by
  rw [replaced, pieces_nil, List.flatMap_nil]

theorem replaced_char {c : α} (hc : part c = false) (f : List α → List α) (rest : List α) :
    replaced part f (c :: rest) = c :: replaced part f rest := by
  rw [replaced, pieces_char hc, List.flatMap_cons]
  rfl

theorem replaced_word {c : α} (hc : part c = true) (f : List α → List α) (rest : List α) :
    replaced part f (c :: rest) =
      f (c :: rest.takeWhile part) ++ replaced part f (rest.dropWhile part) := by
  rw [replaced, pieces, if_pos hc, List.flatMap_cons]
  rfl

theorem replaced_append (f : List α → List α) (a : List α) {b : List α} (hb : Stops part b) :
    replaced part f (a ++ b) = replaced part f a ++ replaced part f b := by
  rw [replaced, pieces_append a hb, List.flatMap_append]
  rfl

theorem replaced_congr {f g : List α → List α} {l : List α}
    (h : ∀ w, .word w ∈ pieces part part l → f w = g w) :
    replaced part f l = replaced part g l := by
  refine List.flatMap_congr fun p hp => ?_
  cases p with
  | char c => rfl
  | word w => exact h w hp

theorem replaced_id (l : List α) : replaced part id l = l := by
  conv_rhs => rw [← @text_pieces α part part l, text]
  refine List.flatMap_congr fun p _ => ?_
  cases p <;> rfl

/-- Behind a word stands a character that is in no word. -/
theorem replaced_dropWhile_stops (f : List α → List α) (rest : List α) :
    Stops part (replaced part f (rest.dropWhile part)) := by
  have hstop := @stops_dropWhile α part rest
  cases hrest : rest.dropWhile part with
  | nil =>
    rw [replaced_nil]
    trivial
  | cons c tail =>
    rw [hrest] at hstop
    have hc : part c = false := hstop
    rw [replaced_char hc]
    exact hc

/-- Two replacements after each other are one. -/
theorem replaced_replaced (f g : List α → List α) (l : List α) :
    replaced part g (replaced part f l) = replaced part (fun w => replaced part g (f w)) l := by
  induction l using pieces.induct part part with
  | case1 => simp only [replaced_nil]
  | case2 c rest hc ih =>
    rw [replaced_word hc, replaced_word hc, replaced_append _ _ (replaced_dropWhile_stops f rest),
      ih]
  | case3 c rest hc ih =>
    have hfalse : part c = false := by simpa using hc
    rw [replaced_char hfalse, replaced_char hfalse, replaced_char hfalse, ih]

end IdentText

import Mathlib.Data.List.Basic
import Mathlib.Data.List.TakeWhile
import Mathlib.Tactic.Common

/-! # Identifiers in a text

A text is split into its longest identifiers and the single characters between
them. A list of pieces that could have come from a text is the split of its own
text, so two texts with different pieces differ.
-/

namespace IdentText

variable {α : Type*}

inductive Piece (α : Type*) where

  | char (c : α)

  | word (w : List α)
  deriving DecidableEq

def Piece.text : Piece α → List α
  | .char c => [c]
  | .word w => w

def text (ps : List (Piece α)) : List α := ps.flatMap Piece.text

@[simp] theorem text_nil : text ([] : List (Piece α)) = [] := rfl

@[simp] theorem text_char (c : α) (ps : List (Piece α)) : text (.char c :: ps) = c :: text ps := rfl

@[simp] theorem text_word (w : List α) (ps : List (Piece α)) :
    text (.word w :: ps) = w ++ text ps := rfl

@[simp] theorem text_append (ps qs : List (Piece α)) : text (ps ++ qs) = text ps ++ text qs :=
  List.flatMap_append

variable (start part : α → Bool)

/-- The pieces of a text. A word starts at a start character and is as long as possible. -/
def pieces : List α → List (Piece α)
  | [] => []
  | c :: rest =>
    if start c then .word (c :: rest.takeWhile part) :: pieces (rest.dropWhile part)
    else .char c :: pieces rest
termination_by text => text.length
decreasing_by
  · exact Nat.lt_succ_of_le (List.length_dropWhile_le part rest)
  · simp

def IsWord (w : List α) : Prop :=
  ∃ c rest, w = c :: rest ∧ start c = true ∧ ∀ x ∈ rest, part x = true

/-- No word goes on with the text that follows. -/
def Stops : List α → Prop
  | [] => True
  | c :: _ => part c = false

/-- A list of pieces that is the split of some text. -/
def Split : List (Piece α) → Prop
  | [] => True
  | .char c :: ps => start c = false ∧ Split ps
  | .word w :: ps => IsWord start part w ∧ Stops part (text ps) ∧ Split ps

variable {start part}

@[simp] theorem pieces_nil : pieces start part [] = [] := by rw [pieces]

theorem pieces_char {c : α} (hc : start c = false) (rest : List α) :
    pieces start part (c :: rest) = .char c :: pieces start part rest := by
  rw [pieces, hc]
  rfl

theorem pieces_word {c : α} {w rest : List α} (hc : start c = true) (hw : ∀ x ∈ w, part x = true)
    (hrest : Stops part rest) :
    pieces start part (c :: (w ++ rest)) = .word (c :: w) :: pieces start part rest := by
  have htake : (w ++ rest).takeWhile part = w := by
    rw [List.takeWhile_append_of_pos hw]
    cases rest with
    | nil => simp
    | cons d rest =>
      have hd : part d = false := hrest
      simp [hd]
  have hdrop : (w ++ rest).dropWhile part = rest := by
    rw [List.dropWhile_append_of_pos hw]
    cases rest with
    | nil => rfl
    | cons d rest =>
      have hd : part d = false := hrest
      simp [hd]
  rw [pieces, if_pos hc, htake, hdrop]

theorem stops_dropWhile (rest : List α) : Stops part (rest.dropWhile part) := by
  induction rest with
  | nil => trivial
  | cons c rest ih =>
    rw [List.dropWhile_cons]
    split
    · exact ih
    · rename_i hc
      change part c = false
      simpa using hc

@[simp] theorem text_pieces (l : List α) : text (pieces start part l) = l := by
  induction l using pieces.induct start part with
  | case1 => simp
  | case2 c rest hc ih =>
    rw [pieces, if_pos hc, text_word, ih, List.cons_append, List.takeWhile_append_dropWhile]
  | case3 c rest hc ih =>
    rw [pieces, if_neg hc, text_char, ih]

theorem split_pieces (l : List α) : Split start part (pieces start part l) := by
  induction l using pieces.induct start part with
  | case1 =>
    rw [pieces_nil]
    trivial
  | case2 c rest hc ih =>
    rw [pieces, if_pos hc]
    refine ⟨⟨c, _, rfl, hc, fun x hx => List.mem_takeWhile_imp hx⟩, ?_, ih⟩
    rw [text_pieces]
    exact stops_dropWhile rest
  | case3 c rest hc ih =>
    rw [pieces, if_neg hc]
    exact ⟨by simpa using hc, ih⟩

theorem Split.word : ∀ {ps : List (Piece α)}, Split start part ps → ∀ {w : List α},
    .word w ∈ ps → IsWord start part w
  | .char c :: ps, ⟨_, h⟩, w, hw => h.word ((List.mem_cons.mp hw).resolve_left (by simp))
  | .word v :: ps, ⟨hv, _, h⟩, w, hw => by
      rcases List.mem_cons.mp hw with heq | hw
      · cases heq
        exact hv
      · exact h.word hw

theorem pieces_text : ∀ {ps : List (Piece α)}, Split start part ps →
    pieces start part (text ps) = ps
  | [], _ => pieces_nil
  | .char c :: ps, ⟨hc, h⟩ => by rw [text_char, pieces_char hc, pieces_text h]
  | .word w :: ps, ⟨⟨c, rest, hw, hc, hrest⟩, hstop, h⟩ => by
      subst hw
      rw [text_word, List.cons_append, pieces_word hc hrest hstop, pieces_text h]

theorem Split.append : ∀ {ps qs : List (Piece α)}, Split start part ps → Split start part qs →
    Stops part (text qs) → Split start part (ps ++ qs)
  | [], _, _, hq, _ => hq
  | .char c :: ps, qs, ⟨hc, h⟩, hq, hstop => ⟨hc, h.append hq hstop⟩
  | .word w :: ps, qs, ⟨hw, hnext, h⟩, hq, hstop => by
      refine ⟨hw, ?_, h.append hq hstop⟩
      change Stops part (text (ps ++ qs))
      rw [text_append]
      cases ht : text ps with
      | nil => exact hstop
      | cons c rest =>
        rw [ht] at hnext
        exact hnext

/-- A text that does not go on with a word has pieces of its own. -/
theorem pieces_append (a : List α) {b : List α} (hb : Stops part b) :
    pieces start part (a ++ b) = pieces start part a ++ pieces start part b := by
  have hsplit : Split start part (pieces start part a ++ pieces start part b) :=
    (split_pieces a).append (split_pieces b) (by rwa [text_pieces])
  rw [← pieces_text hsplit, text_append, text_pieces, text_pieces]

theorem pieces_ne_nil {l : List α} (h : l ≠ []) : pieces start part l ≠ [] := fun hnil =>
  h (by rw [← @text_pieces α start part l, hnil, text_nil])

theorem pieces_of_isWord {w : List α} (hw : IsWord start part w) :
    pieces start part w = [.word w] := by
  obtain ⟨c, rest, rfl, hc, hrest⟩ := hw
  have := @pieces_word α start part c rest [] hc hrest trivial
  simpa using this

end IdentText

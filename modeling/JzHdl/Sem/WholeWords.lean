import JzHdl.Sem.ConstEval
import JzHdl.Lib.WordReplace

/-! # Whole words in the texts of a template

The texts of a template body are substituted as texts. Every parameter is replaced by its argument
wherever it is a whole word, one parameter after the other. Unless an argument mentions a later
parameter, that is one replacement of all words.
-/

namespace JzHdl

open IdentText

/-- A statement about each character of a text is decided along the text. -/
local instance (priority := 2000) decidableWordText {p : Char → Prop} [DecidablePred p]
    (text : List Char) : Decidable (∀ c ∈ text, p c) := List.decidableBAll p text

/-- The texts before the first occurrence and behind it. The word is not empty. -/
def strstrSplit (old : List Char) : List Char → Option (List Char × List Char)
  | [] => none
  | c :: rest =>
    if old.isPrefixOf (c :: rest) then some ([], (c :: rest).drop old.length)
    else (strstrSplit old rest).map fun parts => (c :: parts.1, parts.2)

def charBefore (before : Option Char) (skipped : List Char) : Option Char :=
  skipped.getLast?.or before

/-- Neither side of the occurrence goes on with the word. -/
def wholeWord (before : Option Char) (after : List Char) : Bool :=
  !before.any isIdentChar && !after.head?.any isIdentChar

/-- The first pass, which counts for the size of the result. -/
def countWholeWords (old : List Char) : ℕ → Option Char → List Char → ℕ
  | 0, _, _ => 0
  | fuel + 1, before, p =>
    match strstrSplit old p with
    | none => 0
    | some (skipped, rest) =>
      (if wholeWord (charBefore before skipped) rest then 1 else 0) +
        countWholeWords old fuel old.getLast? rest

/-- The second pass. -/
def replaceWholeWords (old new : List Char) : ℕ → Option Char → List Char → List Char
  | 0, _, p => p
  | fuel + 1, before, p =>
    match strstrSplit old p with
    | none => p
    | some (skipped, rest) =>
      skipped ++ (if wholeWord (charBefore before skipped) rest then new else old) ++
        replaceWholeWords old new fuel old.getLast? rest

/-- Every occurrence takes at least one character. -/
def stringReplaceWholeWord (src old new : List Char) : List Char :=
  if old = [] then src
  else if countWholeWords old src.length none src = 0 then src
  else replaceWholeWords old new src.length none src

def idxName : List Char := "IDX".toList

/-- The substitution in a width or a text: the parameters in their order, then `IDX`. -/
def substituteText (args : List (List Char × List Char)) (idx : Option (List Char))
    (t : List Char) : List Char :=
  let t := args.foldl (fun t arg => stringReplaceWholeWord t arg.1 arg.2) t
  match idx with
  | none => t
  | some n => stringReplaceWholeWord t idxName n

/-! ## One word -/

section

variable {old new : List Char}

theorem strstrSplit_spec : ∀ {p skipped rest : List Char},
    strstrSplit old p = some (skipped, rest) →
    p = skipped ++ old ++ rest
  | c :: p, skipped, rest, h => by
      rw [strstrSplit] at h
      split at h
      · rename_i hprefix
        obtain ⟨tail, htail⟩ := List.isPrefixOf_iff_prefix.mp hprefix
        rw [← htail, List.drop_left, Option.some.injEq, Prod.mk.injEq] at h
        rw [← htail, ← h.1, ← h.2, List.nil_append]
      · obtain ⟨⟨skipped', rest'⟩, hrec, hparts⟩ := Option.map_eq_some_iff.mp h
        obtain ⟨rfl, rfl⟩ := Prod.mk.inj hparts
        rw [strstrSplit_spec hrec, List.cons_append, List.cons_append]

theorem charBefore_cons (before : Option Char) (c : Char) (skipped : List Char) :
    charBefore before (c :: skipped) = charBefore (some c) skipped := by
  rw [charBefore, charBefore, List.getLast?_cons]
  cases skipped.getLast? <;> rfl

/-- A character at which the word does not stand is stepped over. -/
theorem replaceWholeWords_skip {c : Char} {rest : List Char}
    (h : ¬old.isPrefixOf (c :: rest) = true) (fuel : ℕ) (before : Option Char) :
    replaceWholeWords old new (fuel + 1) before (c :: rest) =
      c :: replaceWholeWords old new (fuel + 1) (some c) rest := by
  rw [replaceWholeWords, replaceWholeWords, strstrSplit, if_neg h]
  cases strstrSplit old rest with
  | none => rfl
  | some parts => simp only [Option.map_some, charBefore_cons, List.cons_append]

theorem replaceWholeWords_occurrence {p after : List Char} (hold : old ≠ [])
    (hp : p = old ++ after) (fuel : ℕ) (before : Option Char) :
    replaceWholeWords old new (fuel + 1) before p =
      (if wholeWord before after then new else old) ++
        replaceWholeWords old new fuel old.getLast? after := by
  obtain ⟨c, tail, rfl⟩ := List.exists_cons_of_ne_nil hold
  subst hp
  have hprefix : (c :: tail).isPrefixOf (c :: tail ++ after) = true :=
    List.isPrefixOf_iff_prefix.mpr (List.prefix_append _ _)
  rw [replaceWholeWords, List.cons_append, strstrSplit, ← List.cons_append, if_pos hprefix,
    List.drop_left]
  rfl

theorem countWholeWords_zero : ∀ (fuel : ℕ) {before : Option Char} {p : List Char},
    countWholeWords old fuel before p = 0 → replaceWholeWords old new fuel before p = p
  | 0, _, _, _ => rfl
  | fuel + 1, before, p, h => by
      rw [countWholeWords] at h
      rw [replaceWholeWords]
      cases hstr : strstrSplit old p with
      | none => rfl
      | some parts =>
        simp only [hstr, Nat.add_eq_zero_iff, ite_eq_right_iff, one_ne_zero, imp_false] at h ⊢
        rw [if_neg h.1, countWholeWords_zero fuel h.2, ← strstrSplit_spec hstr]

/-- The second pass fills the size that the first one counted. -/
theorem length_replaceWholeWords : ∀ (fuel : ℕ) (before : Option Char) (p : List Char),
    (replaceWholeWords old new fuel before p).length +
        countWholeWords old fuel before p * old.length =
      p.length + countWholeWords old fuel before p * new.length
  | 0, _, _ => by rw [replaceWholeWords, countWholeWords, Nat.zero_mul, Nat.zero_mul]
  | fuel + 1, before, p => by
      rw [replaceWholeWords, countWholeWords]
      cases hstr : strstrSplit old p with
      | none => simp only [Nat.zero_mul]
      | some parts =>
        have ih := length_replaceWholeWords fuel old.getLast? parts.2
        have hp := congrArg List.length (strstrSplit_spec hstr)
        simp only [List.length_append] at hp ⊢
        split
        · rw [Nat.add_mul, Nat.add_mul, Nat.one_mul, Nat.one_mul]
          omega
        · rw [Nat.zero_add]
          omega

/-- The text that is scanned from the middle of a word, if the character before it is of one. -/
def replacedFrom (f : List Char → List Char) (before : Option Char) (p : List Char) : List Char :=
  if before.any isIdentChar then p.takeWhile isIdentChar ++ replaced isIdentChar f
    (p.dropWhile isIdentChar)
  else replaced isIdentChar f p

def oneWord (old new w : List Char) : List Char := if w = old then new else w

/-- An identifier is not empty and has only characters of words. -/
def IsIdentText (w : List Char) : Prop := w ≠ [] ∧ ∀ c ∈ w, isIdentChar c = true

theorem replacedFrom_skip {c : Char} {rest : List Char} (h : ¬old.isPrefixOf (c :: rest) = true)
    (before : Option Char) :
    replacedFrom (oneWord old new) before (c :: rest) =
      c :: replacedFrom (oneWord old new) (some c) rest := by
  rw [replacedFrom, replacedFrom]
  cases hc : isIdentChar c with
  | false => simp [hc, replaced_char hc]
  | true =>
    rw [if_pos (show (some c).any isIdentChar = true from hc)]
    split
    · simp [hc]
    have hne : c :: rest.takeWhile isIdentChar ≠ old := by
      rintro rfl
      refine h (List.isPrefixOf_iff_prefix.mpr ?_)
      rw [List.prefix_cons_inj]
      exact List.takeWhile_prefix _
    rw [replaced_word hc, oneWord, if_neg hne, List.cons_append]

theorem takeWhile_identifier {w : List Char} (hw : ∀ c ∈ w, isIdentChar c = true)
    (after : List Char) :
    (w ++ after).takeWhile isIdentChar = w ++ after.takeWhile isIdentChar ∧
      (w ++ after).dropWhile isIdentChar = after.dropWhile isIdentChar :=
  ⟨List.takeWhile_append_of_pos hw, List.dropWhile_append_of_pos hw⟩

theorem replacedFrom_occurrence (hold : IsIdentText old) {after : List Char}
    (before : Option Char) :
    replacedFrom (oneWord old new) before (old ++ after) =
      (if wholeWord before after then new else old) ++
        replacedFrom (oneWord old new) old.getLast? after := by
  have hlast : old.getLast?.any isIdentChar = true := by
    rw [List.getLast?_eq_some_getLast hold.1]
    exact hold.2 _ (List.getLast_mem hold.1)
  obtain ⟨htake, hdrop⟩ := takeWhile_identifier hold.2 after
  rw [replacedFrom, replacedFrom, if_pos hlast, htake, hdrop]
  split
  · rename_i hbefore
    rw [wholeWord, hbefore, if_neg (by simp), List.append_assoc]
  · rename_i hbefore
    obtain ⟨c, tail, rfl⟩ := List.exists_cons_of_ne_nil hold.1
    have hc : isIdentChar c = true := hold.2 c List.mem_cons_self
    rw [List.cons_append] at htake hdrop ⊢
    rw [List.takeWhile_cons_of_pos hc, List.cons_append, List.cons.injEq] at htake
    rw [List.dropWhile_cons_of_pos hc] at hdrop
    rw [replaced_word hc, htake.2, hdrop, ← List.cons_append, ← List.append_assoc]
    congr 1
    rw [wholeWord, Bool.eq_false_iff.mpr hbefore, Bool.not_false, Bool.true_and, oneWord]
    cases hafter : after with
    | nil => simp
    | cons d rest =>
      cases hd : isIdentChar d <;> simp [hd]

/-- The scan with its jumps is the replacement of words. -/
theorem replaceWholeWords_eq (hold : IsIdentText old) : ∀ (n : ℕ) {p : List Char}, p.length ≤ n →
    ∀ {fuel : ℕ} (before : Option Char), p.length ≤ fuel →
      replaceWholeWords old new fuel before p = replacedFrom (oneWord old new) before p
  | _, [], _, fuel, before, _ => by
      have hspec : replacedFrom (oneWord old new) before [] = [] := by
        rw [replacedFrom, List.takeWhile_nil, List.dropWhile_nil, IdentText.replaced_nil,
          List.nil_append, ite_self]
      rw [hspec]
      cases fuel <;> rfl
  | n + 1, c :: rest, hn, fuel + 1, before, hfuel => by
      rw [List.length_cons] at hn hfuel
      by_cases hprefix : old.isPrefixOf (c :: rest) = true
      · obtain ⟨after, hafter⟩ := List.isPrefixOf_iff_prefix.mp hprefix
        have hlen := congrArg List.length hafter
        rw [List.length_append, List.length_cons] at hlen
        have hpos := List.length_pos_iff.mpr hold.1
        rw [replaceWholeWords_occurrence hold.1 hafter.symm, ← hafter,
          replacedFrom_occurrence hold,
          replaceWholeWords_eq hold n (by omega) old.getLast? (by omega)]
      · rw [replaceWholeWords_skip hprefix, replacedFrom_skip hprefix,
          replaceWholeWords_eq hold n (by omega) (some c) (by omega)]

theorem stringReplaceWholeWord_eq (hold : IsIdentText old) (src : List Char) :
    stringReplaceWholeWord src old new = replaced isIdentChar (oneWord old new) src := by
  have h : replaceWholeWords old new src.length none src =
      replacedFrom (oneWord old new) none src :=
    replaceWholeWords_eq hold src.length (le_refl _) none (le_refl _)
  rw [stringReplaceWholeWord, if_neg hold.1]
  split
  · rename_i hcount
    rw [countWholeWords_zero _ hcount] at h
    exact h
  · exact h

end

/-! ## All words -/

def indexValue (idx : Option (List Char)) (w : List Char) : List Char :=
  match idx with
  | some n => if w = idxName then n else w
  | none => w

/-- The text that stands for a word: the argument of the first parameter of this name, or the
number of the copy. -/
def wordValue (args : List (List Char × List Char)) (idx : Option (List Char)) (w : List Char) :
    List Char :=
  ((args.find? fun arg => decide (arg.1 = w)).map Prod.snd).getD (indexValue idx w)

/-- No argument mentions a later parameter, nor `IDX` if that is replaced. -/
structure ArgsApart (args : List (List Char × List Char)) (idx : Option (List Char)) : Prop where

  params : ∀ arg ∈ args, IsIdentText arg.1

  later : args.Pairwise fun arg arg' => Avoids isIdentChar (· = arg'.1) arg.2

  index : idx.isSome → ∀ arg ∈ args, Avoids isIdentChar (· = idxName) arg.2

theorem idxName_identifier : IsIdentText idxName := ⟨by decide, by decide⟩

theorem ArgsApart.tail {arg : List Char × List Char} {args : List (List Char × List Char)}
    {idx : Option (List Char)} (h : ArgsApart (arg :: args) idx) : ArgsApart args idx where
  params a ha := h.params a (List.mem_cons_of_mem _ ha)
  later := (List.pairwise_cons.mp h.later).2
  index hidx a ha := h.index hidx a (List.mem_cons_of_mem _ ha)

/-- A word that is neither a parameter nor `IDX` stands for itself. -/
theorem wordValue_self {args : List (List Char × List Char)} {idx : Option (List Char)}
    {w : List Char} (hargs : ∀ arg ∈ args, w ≠ arg.1) (hidx : idx.isSome → w ≠ idxName) :
    wordValue args idx w = w := by
  have hfind : args.find? (fun arg => decide (arg.1 = w)) = none := by
    rw [List.find?_eq_none]
    intro arg harg h
    exact hargs arg harg (of_decide_eq_true h).symm
  rw [wordValue, hfind, Option.map_none, Option.getD_none]
  cases idx with
  | none => rfl
  | some n => exact if_neg (hidx rfl)

theorem replaced_wordValue_word {args : List (List Char × List Char)} {idx : Option (List Char)}
    {t w : List Char} (hw : .word w ∈ pieces isIdentChar isIdentChar t) :
    replaced isIdentChar (wordValue args idx) w = wordValue args idx w := by
  have hword := (split_pieces t).word hw
  rw [replaced, pieces_of_isWord hword, List.flatMap_singleton]
  rfl

/-- The parameters one after the other are replaced as if all words were replaced at once. -/
theorem substituteText_words {idx : Option (List Char)} :
    ∀ {args : List (List Char × List Char)}, ArgsApart args idx → ∀ t : List Char,
      substituteText args idx t = replaced isIdentChar (wordValue args idx) t
  | [], _, t => by
      cases idx with
      | none => exact (replaced_id t).symm
      | some n =>
        rw [substituteText, List.foldl_nil]
        exact stringReplaceWholeWord_eq idxName_identifier t
  | (param, text) :: args, h, t => by
      have hparam := h.params _ List.mem_cons_self
      have ih := substituteText_words h.tail
        (replaced isIdentChar (oneWord param text) t)
      have hstep : substituteText ((param, text) :: args) idx t =
          substituteText args idx (replaced isIdentChar (oneWord param text) t) := by
        rw [← stringReplaceWholeWord_eq hparam t]
        rfl
      rw [hstep, ih, replaced_replaced]
      refine replaced_congr fun w hw => ?_
      by_cases hwparam : param = w
      · -- The text of the argument is not replaced again.
        subst hwparam
        have hself : ∀ v, .word v ∈ pieces isIdentChar isIdentChar text →
            wordValue args idx v = v := by
          intro v hv
          refine wordValue_self (fun arg harg => ?_) fun hidx => ?_
          · exact (List.pairwise_cons.mp h.later).1 arg harg v hv
          · exact h.index hidx _ List.mem_cons_self v hv
        rw [oneWord, if_pos rfl, replaced_congr (g := id) hself, replaced_id, wordValue,
          List.find?_cons_of_pos (by simp)]
        rfl
      · rw [oneWord, if_neg (Ne.symm hwparam), replaced_wordValue_word hw, wordValue, wordValue,
          List.find?_cons_of_neg (by simpa using hwparam)]

/-- The width `WIDTH*IDX+x` with `a.b` for `WIDTH` in the third copy. -/
theorem substituteText_words_width :
    substituteText [("WIDTH".toList, "a.b".toList)] (some ['2']) "WIDTH*IDX+x".toList =
      "a.b*2+x".toList := by
  have hargs : ArgsApart [("WIDTH".toList, "a.b".toList)] (some ['2']) := by
    refine ⟨?_, List.pairwise_singleton _ _, ?_⟩
    · intro arg harg
      obtain rfl := List.mem_singleton.mp harg
      exact ⟨by decide, by decide⟩
    · intro _ arg harg w hw
      obtain rfl := List.mem_singleton.mp harg
      have hpieces : pieces isIdentChar isIdentChar "a.b".toList =
          [.word ['a'], .char '.', .word ['b']] := by decide +kernel
      rw [hpieces] at hw
      simp only [List.mem_cons, Piece.word.injEq, reduceCtorEq, List.not_mem_nil, or_false,
        false_or] at hw
      rcases hw with rfl | rfl <;> decide
  rw [substituteText_words hargs]
  decide +kernel

end JzHdl

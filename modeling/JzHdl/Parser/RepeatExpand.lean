import JzHdl.Parser.RepeatSpec

/-! # The expansion is the recursion

The two scanners of the source cut a text into the same directives, and a run
over the frame stack appends what the recursion gives for the region on top.
-/

namespace JzHdl

section

variable {c : Char} {rest text b e p q u v w : List Char}

/-! ## Suffixes -/

theorem upTo_append (u p : List Char) : upTo (u ++ p) p = u := by
  rw [upTo, List.length_append, Nat.add_sub_cancel, List.take_left]

theorem upTo_append_of_suffix (h : p <:+ text) : upTo text p ++ p = text := by
  obtain ⟨u, rfl⟩ := h
  rw [upTo_append]

theorem upTo_cons_of_suffix (h : p <:+ rest) : upTo (c :: rest) p = c :: upTo rest p := by
  obtain ⟨u, rfl⟩ := h
  rw [upTo_append, ← List.cons_append, upTo_append]

theorem lineTail_suffix (text : List Char) : lineTail text <:+ text := List.dropWhile_suffix _

theorem stringTail_suffix : ∀ text : List Char, stringTail text <:+ text
  | [] => List.suffix_rfl
  | [c] => by
      rw [stringTail]
      split
      · exact List.suffix_rfl
      · exact List.nil_suffix
  | c :: d :: rest => by
      rw [stringTail]
      split
      · exact List.suffix_rfl
      · split
        · exact ((stringTail_suffix rest).trans (List.suffix_cons _ _)).trans (List.suffix_cons _ _)
        · exact (stringTail_suffix (d :: rest)).trans (List.suffix_cons _ _)

theorem skipQuote_suffix (text : List Char) : skipQuote text <:+ text := by
  rw [skipQuote.eq_def]
  split
  · exact List.suffix_cons _ _
  · exact List.suffix_rfl

/-! ## Directives -/

theorem directiveAt_length (h : directiveAt w text = true) : w.length ≤ text.length := by
  rw [directiveAt, Bool.and_eq_true, List.isPrefixOf_iff_prefix] at h
  exact h.1.length_le

theorem directiveAt_split (h : directiveAt w text = true) : text = w ++ text.drop w.length := by
  rw [directiveAt, Bool.and_eq_true, List.isPrefixOf_iff_prefix] at h
  obtain ⟨t, rfl⟩ := h.1
  rw [List.drop_left]

theorem boundaryOk_append (he : e.head? = some '@') : boundaryOk (b ++ e) = boundaryOk b := by
  cases b with
  | nil =>
    cases e with
    | nil => cases he
    | cons d t =>
      obtain rfl := Option.some.inj he
      rfl
  | cons d t => rfl

/-- A directive is seen whether or not the text goes on with another one. -/
theorem directiveAt_append (he : e.head? = some '@') (hlen : w.length ≤ b.length) :
    directiveAt w (b ++ e) = directiveAt w b := by
  have hprefix : w.isPrefixOf (b ++ e) = w.isPrefixOf b := by
    rw [Bool.eq_iff_iff, List.isPrefixOf_iff_prefix, List.isPrefixOf_iff_prefix]
    constructor
    · exact fun h => List.prefix_of_prefix_length_le h (List.prefix_append b e) hlen
    · exact fun h => h.trans (List.prefix_append b e)
  rw [directiveAt, directiveAt, hprefix, List.drop_append_of_le_length hlen, boundaryOk_append he]

theorem directiveAt_trunc (he : e.head? = some '@') (h : directiveAt w b = true) :
    directiveAt w (b ++ e) = true := by
  rw [directiveAt_append he (directiveAt_length h)]
  exact h

theorem directiveAt_of_ne (hw : w = repeatWord ∨ w = endWord) (hc : c ≠ '@') :
    directiveAt w (c :: rest) = false := by
  rw [← Bool.not_eq_true]
  intro h
  rw [directiveAt, Bool.and_eq_true, List.isPrefixOf_iff_prefix] at h
  obtain ⟨t, ht⟩ := h.1
  rcases hw with rfl | rfl
  · exact hc (List.cons.inj ht).1.symm
  · exact hc (List.cons.inj ht).1.symm

theorem directiveAt_end_repeat (h : directiveAt endWord text = true) :
    directiveAt repeatWord text = false := by
  rw [← Bool.not_eq_true]
  intro h'
  have h1 := directiveAt_split h
  have h2 := directiveAt_split h'
  rw [h1] at h2
  simp [endWord, repeatWord] at h2

/-! ## Tokens of a text without block comments -/

theorem lex_nil (blocks : Bool) : lexSource blocks [] = [] := by rw [lexSource]

theorem lex_line (h : c = '/' ∧ rest.head? = some '/') : lexSource false (c :: rest) =
    (upTo (c :: rest) (lineTail rest)).map .text ++ lexSource false (lineTail rest) := by
  rw [lexSource, if_neg (by simp), if_pos h]

theorem lex_string : lexSource false ('"' :: rest) =
    (upTo ('"' :: rest) (skipQuote (stringTail rest))).map .text ++
      lexSource false (skipQuote (stringTail rest)) := by
  rw [lexSource, if_neg (by simp), if_neg (by simp), if_pos rfl]

theorem lex_rep (h : directiveAt repeatWord text = true) :
    lexSource false text = .rep :: lexSource false (text.drop 7) := by
  have ht := directiveAt_split h
  cases text with
  | nil => cases ht
  | cons c rest =>
    obtain rfl : c = '@' := (List.cons.inj ht).1
    rw [lexSource, if_neg (by simp), if_neg (by simp), if_neg (by decide), if_pos h]
    rfl

theorem lex_fin (h : directiveAt endWord text = true) :
    lexSource false text = .fin :: lexSource false (text.drop 4) := by
  have ht := directiveAt_split h
  have hrep := directiveAt_end_repeat h
  cases text with
  | nil => cases ht
  | cons c rest =>
    obtain rfl : c = '@' := (List.cons.inj ht).1
    rw [lexSource, if_neg (by simp), if_neg (by simp), if_neg (by decide), if_neg (by simp [hrep]),
      if_pos h]
    rfl

/-- A character at which nothing begins. -/
structure PlainChar (c : Char) (rest : List Char) : Prop where

  line : ¬ (c = '/' ∧ rest.head? = some '/')

  quote : c ≠ '"'

  rep : directiveAt repeatWord (c :: rest) = false

  fin : directiveAt endWord (c :: rest) = false

theorem PlainChar.lex (h : PlainChar c rest) : lexSource false (c :: rest) =
    .text c :: lexSource false rest := by
  rw [lexSource, if_neg (by simp), if_neg h.line, if_neg h.quote, if_neg (by simp [h.rep]),
    if_neg (by simp [h.fin])]

/-- The characters at which nothing can begin. -/
def Inert (c : Char) : Prop := c ≠ '/' ∧ c ≠ '"' ∧ c ≠ '@'

theorem Inert.plain (h : Inert c) (rest : List Char) : PlainChar c rest :=
  ⟨fun h' => h.1 h'.1, h.2.1, directiveAt_of_ne (.inl rfl) h.2.2,
    directiveAt_of_ne (.inr rfl) h.2.2⟩

theorem inert_of_isHspace (h : isHspace c = true) : Inert c := by
  refine ⟨?_, ?_, ?_⟩ <;> rintro rfl <;> revert h <;> decide

theorem inert_of_isDigit (h : c.isDigit = true) : Inert c := by
  refine ⟨?_, ?_, ?_⟩ <;> rintro rfl <;> revert h <;> decide

theorem lex_head (c : Char) (rest : List Char) : ∃ ts, lexSource false (c :: rest) = .text c :: ts ∨
    lexSource false (c :: rest) = .rep :: ts ∨ lexSource false (c :: rest) = .fin :: ts := by
  by_cases hline : c = '/' ∧ rest.head? = some '/'
  · refine ⟨(upTo rest (lineTail rest)).map .text ++ lexSource false (lineTail rest), .inl ?_⟩
    rw [lex_line hline, upTo_cons_of_suffix (lineTail_suffix rest)]
    rfl
  by_cases hquote : c = '"'
  · subst hquote
    refine ⟨(upTo rest (skipQuote (stringTail rest))).map .text ++
      lexSource false (skipQuote (stringTail rest)), .inl ?_⟩
    rw [lex_string, upTo_cons_of_suffix ((skipQuote_suffix _).trans (stringTail_suffix rest))]
    rfl
  by_cases hrep : directiveAt repeatWord (c :: rest) = true
  · exact ⟨_, .inr (.inl (lex_rep hrep))⟩
  by_cases hfin : directiveAt endWord (c :: rest) = true
  · exact ⟨_, .inr (.inr (lex_fin hfin))⟩
  · exact ⟨_, .inl (PlainChar.lex ⟨hline, hquote, by simpa using hrep, by simpa using hfin⟩)⟩

theorem is_head {f : Char → Bool} {ts : List RepeatToken} (hf : f c = false)
    (h : lexSource false (c :: rest) = .text c :: ts ∨ lexSource false (c :: rest) = .rep :: ts ∨
      lexSource false (c :: rest) = .fin :: ts) :
    ∃ t, lexSource false (c :: rest) = t :: ts ∧ t.is f = false := by
  rcases h with h | h | h
  · exact ⟨_, h, hf⟩
  · exact ⟨_, h, rfl⟩
  · exact ⟨_, h, rfl⟩

theorem lex_dropWhile {f : Char → Bool} (hf : ∀ c, f c = true → Inert c) : ∀ text : List Char,
    lexSource false (text.dropWhile f) = (lexSource false text).dropWhile (RepeatToken.is f)
  | [] => by rw [List.dropWhile_nil, lex_nil, List.dropWhile_nil]
  | c :: rest => by
      cases hc : f c with
      | true =>
        have hplain := (hf c hc).plain rest
        have htok : (RepeatToken.text c).is f = true := hc
        rw [List.dropWhile_cons_of_pos hc, hplain.lex, List.dropWhile_cons_of_pos htok]
        exact lex_dropWhile hf rest
      | false =>
        obtain ⟨ts, hts⟩ := lex_head c rest
        obtain ⟨t, ht, his⟩ := is_head hc hts
        rw [List.dropWhile_cons_of_neg (by simp [hc]), ht,
          List.dropWhile_cons_of_neg (by simp [his])]

theorem lex_takeWhile {f : Char → Bool} (hf : ∀ c, f c = true → Inert c) : ∀ text : List Char,
    (lexSource false text).takeWhile (RepeatToken.is f) = (text.takeWhile f).map .text
  | [] => by rw [lex_nil]; rfl
  | c :: rest => by
      cases hc : f c with
      | true =>
        have hplain := (hf c hc).plain rest
        have htok : (RepeatToken.text c).is f = true := hc
        rw [List.takeWhile_cons_of_pos hc, hplain.lex, List.takeWhile_cons_of_pos htok,
          lex_takeWhile hf rest]
        rfl
      | false =>
        obtain ⟨ts, hts⟩ := lex_head c rest
        obtain ⟨t, ht, his⟩ := is_head hc hts
        rw [List.takeWhile_cons_of_neg (by simp [hc]), ht,
          List.takeWhile_cons_of_neg (by simp [his])]
        rfl

/-! ## Directive lines -/

theorem lex_skipLineEnd (text : List Char) :
    lexSource false (skipNewline (skipHspace text)) = skipLineEnd (lexSource false text) := by
  rw [skipLineEnd, ← lex_dropWhile fun _ => inert_of_isHspace]
  change lexSource false (skipNewline (text.dropWhile isHspace)) = _
  generalize text.dropWhile isHspace = y
  cases y with
  | nil => rw [skipNewline, lex_nil]; simp
  | cons c rest =>
    by_cases hc : c = '\n'
    · subst hc
      have hplain : PlainChar '\n' rest := Inert.plain ⟨by decide, by decide, by decide⟩ rest
      rw [hplain.lex]
      rfl
    · have hskip : skipNewline (c :: rest) = c :: rest := by
        rw [skipNewline.eq_def]
        split
        · rename_i heq
          exact absurd (List.cons.inj heq).1 hc
        · rfl
      rw [hskip]
      split
      · rename_i ts heq
        obtain ⟨us, hus | hus | hus⟩ := lex_head c rest
        · rw [hus] at heq
          exact absurd (RepeatToken.text.inj (List.cons.inj heq).1) hc
        · rw [hus] at heq
          cases heq
        · rw [hus] at heq
          cases heq
      · rfl

/-- The count that is read from the text is the one of the tokens. -/
theorem directiveCount_lex (text : List Char) : directiveCount (lexSource false text) =
    (repeatCount text).map fun r => (r.1, lexSource false r.2) := by
  rw [directiveCount, repeatCount, ← lex_dropWhile fun _ => inert_of_isHspace,
    lex_takeWhile fun _ => inert_of_isDigit, ← lex_dropWhile fun _ => inert_of_isDigit,
    ← lex_skipLineEnd, List.foldl_map]
  by_cases h : (skipHspace text).takeWhile Char.isDigit = []
  · have hmap : ((skipHspace text).takeWhile Char.isDigit).map RepeatToken.text = [] := by
      rw [h]
      rfl
    rw [if_pos h]
    exact if_pos hmap
  · have hmap : ¬ ((skipHspace text).takeWhile Char.isDigit).map RepeatToken.text = [] :=
      fun h' => h (List.map_eq_nil_iff.mp h')
    rw [if_neg h]
    exact if_neg hmap

/-! ## Strings -/

theorem stringTail_stop (h : c = '"' ∨ c = '\n') : stringTail (c :: rest) = c :: rest := by
  cases rest with
  | nil => rw [stringTail, if_pos h]
  | cons d t => rw [stringTail, if_pos h]

theorem stringTail_step (h : ¬ (c = '"' ∨ c = '\n')) (hc : c ≠ '\\') (hrest : rest ≠ []) :
    stringTail (c :: rest) = stringTail rest := by
  cases rest with
  | nil => exact absurd rfl hrest
  | cons d t => rw [stringTail, if_neg h, if_neg hc]

/-- The literal ends at a quote or at the end of the line, whatever follows there. -/
theorem stringTail_split : ∀ (text : List Char) {c : Char} {q : List Char},
    stringTail text = c :: q → (c = '"' ∨ c = '\n') ∧
      ∃ v, text = v ++ c :: q ∧ ∀ s, stringTail (v ++ c :: s) = c :: s
  | [], _, _, h => by cases h
  | [a], c, q, h => by
      rw [stringTail] at h
      split at h
      · rename_i ha
        obtain ⟨rfl, rfl⟩ := List.cons.inj h
        exact ⟨ha, [], rfl, fun s => stringTail_stop ha⟩
      · cases h
  | a :: d :: rest, c, q, h => by
      rw [stringTail] at h
      split at h
      · rename_i ha
        obtain ⟨rfl, rfl⟩ := List.cons.inj h
        exact ⟨ha, [], rfl, fun s => stringTail_stop ha⟩
      · rename_i ha
        split at h
        · rename_i hesc
          obtain ⟨hc, v, hv, hs⟩ := stringTail_split rest h
          refine ⟨hc, a :: d :: v, by rw [hv]; rfl, fun s => ?_⟩
          rw [List.cons_append, List.cons_append, stringTail, if_neg ha, if_pos hesc]
          exact hs s
        · rename_i hesc
          obtain ⟨hc, v, hv, hs⟩ := stringTail_split (d :: rest) h
          refine ⟨hc, a :: v, by rw [hv]; rfl, fun s => ?_⟩
          rw [List.cons_append, stringTail_step ha hesc (by simp)]
          exact hs s

/-- A literal with the character that ends it. -/
theorem lex_string_stop (hc : c = '"' ∨ c = '\n')
    (hv : ∀ s, stringTail (v ++ c :: s) = c :: s) (s : List Char) :
    lexSource false ('"' :: (v ++ c :: s)) =
      ('"' :: v ++ [c]).map .text ++ lexSource false s := by
  rw [lex_string, hv]
  rcases hc with rfl | rfl
  · change (upTo ('"' :: (v ++ '"' :: s)) s).map .text ++ lexSource false s = _
    rw [show '"' :: (v ++ '"' :: s) = ('"' :: v ++ ['"']) ++ s by simp, upTo_append]
  · have hplain : PlainChar '\n' s := Inert.plain ⟨by decide, by decide, by decide⟩ s
    change (upTo ('"' :: (v ++ '\n' :: s)) ('\n' :: s)).map .text ++ lexSource false ('\n' :: s) = _
    rw [show '"' :: (v ++ '\n' :: s) = ('"' :: v) ++ '\n' :: s by simp, upTo_append, hplain.lex]
    simp

/-! ## The matching @end -/

theorem matchEnd_text (depth : ℕ) (tokens : List RepeatToken) : ∀ u : List Char,
    matchEnd depth (u.map .text ++ tokens) =
      (matchEnd depth tokens).map fun r => (u.map .text ++ r.1, r.2)
  | [] => by simp
  | c :: u => by
      rw [List.map_cons, List.cons_append, matchEnd, matchEnd_text depth tokens u, Option.map_map]
      rfl

/-- What the scan for the matching `@end` says of the tokens: nothing matches, or the text splits at
the `@end` that they have there. -/
def EndFound (depth : ℕ) (text : List Char) : Option (List Char) → Prop
  | none => matchEnd depth (lexSource false text) = none
  | some e => ∃ b e', text = b ++ e ∧ e = endWord ++ e' ∧
      matchEnd depth (lexSource false text) = some (lexSource false b, lexSource false e')

/-- The scan passes a part of the text whose tokens do not depend on where the body ends. -/
theorem EndFound.pass {depth depth' : ℕ} {U : List RepeatToken} {r : Option (List Char)}
    (htext : text = u ++ q) (hlex : lexSource false text = U ++ lexSource false q)
    (hmatch : ∀ ts, matchEnd depth (U ++ ts) = (matchEnd depth' ts).map fun r => (U ++ r.1, r.2))
    (htrunc : ∀ b e, q = b ++ e → e.head? = some '@' →
      lexSource false (u ++ b) = U ++ lexSource false b)
    (h : EndFound depth' q r) : EndFound depth text r := by
  cases r with
  | none =>
    rw [EndFound, hlex, hmatch, show matchEnd depth' (lexSource false q) = none from h]
    rfl
  | some e =>
    obtain ⟨b, e', hq, he, hfound⟩ := h
    have hhead : e.head? = some '@' := by rw [he]; rfl
    refine ⟨u ++ b, e', by rw [htext, hq, List.append_assoc], he, ?_⟩
    rw [hlex, hmatch, hfound, htrunc b e hq hhead]
    rfl

theorem lineTail_head (h : lineTail text = c :: q) : c = '\n' := by
  have := List.head?_dropWhile_not (p := (· != '\n')) text
  rw [show text.dropWhile (· != '\n') = c :: q from h] at this
  simpa using this

theorem lex_line_trunc (hline : c = '/' ∧ rest.head? = some '/') (hq : lineTail rest = b ++ e)
    (he : e.head? = some '@') : lexSource false (upTo (c :: rest) (lineTail rest) ++ b) =
      (upTo (c :: rest) (lineTail rest)).map .text ++ lexSource false b := by
  cases b with
  | nil =>
    cases e with
    | nil => cases he
    | cons d t =>
      have hd := lineTail_head hq
      obtain rfl := Option.some.inj he
      exact absurd hd (by decide)
  | cons d b =>
    obtain rfl : d = '\n' := lineTail_head (by rw [hq]; rfl)
    have hsuffix := lineTail_suffix rest
    have hrest : rest = upTo rest (lineTail rest) ++ lineTail rest :=
      (upTo_append_of_suffix hsuffix).symm
    have htake : upTo rest (lineTail rest) = rest.takeWhile (· != '\n') := by
      have hboth := List.takeWhile_append_dropWhile (p := (· != '\n')) (l := rest)
      exact List.append_cancel_right ((upTo_append_of_suffix hsuffix).trans hboth.symm)
    have hall : ∀ a ∈ upTo rest (lineTail rest), (a != '\n') = true := by
      rw [htake]
      exact fun a ha => List.mem_takeWhile_imp (p := (· != '\n')) ha
    have htail : lineTail (upTo rest (lineTail rest) ++ '\n' :: b) = '\n' :: b := by
      rw [lineTail, List.dropWhile_append_of_pos hall, List.dropWhile_cons_of_neg (by simp)]
    have hhead : (upTo rest (lineTail rest) ++ '\n' :: b).head? = some '/' := by
      have h2 := hline.2
      cases hu : upTo rest (lineTail rest) with
      | nil =>
        rw [hrest, hu, hq] at h2
        exact absurd (Option.some.inj h2) (by decide)
      | cons a u =>
        rw [hrest, hu, hq] at h2
        exact h2
    rw [upTo_cons_of_suffix hsuffix, List.cons_append, lex_line ⟨hline.1, hhead⟩, htail,
      upTo_cons_of_suffix ⟨_, rfl⟩, upTo_append]

/-! One lemma for each turn of the scan. -/

namespace EndFound

variable {depth : ℕ} {r : Option (List Char)}

theorem line (hline : c = '/' ∧ rest.head? = some '/') (h : EndFound depth (lineTail rest) r) :
    EndFound depth (c :: rest) r := by
  have hsuffix := (lineTail_suffix rest).trans (List.suffix_cons c rest)
  exact h.pass (upTo_append_of_suffix hsuffix).symm (lex_line hline)
    (fun ts => matchEnd_text depth ts _) fun b e hq he => lex_line_trunc hline hq he

theorem string (h : EndFound depth (stringTail rest).tail r) :
    EndFound depth ('"' :: rest) r := by
  cases hs : stringTail rest with
  | nil =>
    rw [hs] at h
    refine h.pass (u := '"' :: rest) (by simp) (U := ('"' :: rest).map .text) ?_
      (fun ts => matchEnd_text depth ts _) fun b e hq he => ?_
    · rw [lex_string, hs]
      simp [skipQuote, upTo]
    · have := congrArg List.length hq
      cases e with
      | nil => cases he
      | cons d t => simp at this
  | cons d q =>
    rw [hs] at h
    obtain ⟨hd, v, rfl, hv⟩ := stringTail_split rest hs
    refine h.pass (u := '"' :: v ++ [d]) (by simp) (lex_string_stop hd hv q)
      (fun ts => matchEnd_text depth ts _) fun b e hq he => ?_
    have := lex_string_stop hd hv b
    simpa using this

/-- A directive before the end of the body is seen without what follows the body, too. -/
theorem directive_trunc (hdir : directiveAt w text = true) (hq : text.drop w.length = b ++ e)
    (he : e.head? = some '@') : directiveAt w (w ++ b) = true := by
  have hsplit := directiveAt_split hdir
  rw [← directiveAt_append he (by simp), List.append_assoc, ← hq, ← hsplit]
  exact hdir

theorem rep (hrep : directiveAt repeatWord (c :: rest) = true)
    (h : EndFound (depth + 1) (rest.drop 6) r) : EndFound depth (c :: rest) r := by
  refine h.pass (directiveAt_split hrep) (lex_rep hrep) (U := [.rep]) (fun ts => ?_)
    fun b e hq he => ?_
  · rw [List.cons_append, List.nil_append, matchEnd]
    rfl
  · rw [lex_rep (directive_trunc hrep hq he)]
    rfl

theorem fin (hfin : directiveAt endWord (c :: rest) = true)
    (h : EndFound depth (rest.drop 3) r) : EndFound (depth + 1) (c :: rest) r := by
  refine h.pass (directiveAt_split hfin) (lex_fin hfin) (U := [.fin]) (fun ts => ?_)
    fun b e hq he => ?_
  · rw [List.cons_append, List.nil_append, matchEnd]
    rfl
  · rw [lex_fin (directive_trunc hfin hq he)]
    rfl

theorem here (hfin : directiveAt endWord (c :: rest) = true) :
    EndFound 0 (c :: rest) (some (c :: rest)) := by
  refine ⟨[], rest.drop 3, rfl, directiveAt_split hfin, ?_⟩
  rw [lex_fin hfin, matchEnd, lex_nil]
  rfl

theorem char (hplain : PlainChar c rest) (h : EndFound depth rest r) :
    EndFound depth (c :: rest) r := by
  refine h.pass (u := [c]) rfl hplain.lex (U := [.text c]) (fun ts => ?_) fun b e hq he => ?_
  · rw [List.cons_append, List.nil_append, matchEnd]
    rfl
  · have htrunc : ∀ {w}, directiveAt w (c :: rest) = false → directiveAt w (c :: b) = false := by
      intro w hw
      rw [← Bool.not_eq_true] at hw ⊢
      intro h
      have := directiveAt_trunc he h
      rw [List.cons_append, ← hq] at this
      exact hw this
    have hb : PlainChar c b := by
      refine ⟨fun h => hplain.line ⟨h.1, ?_⟩, hplain.quote, htrunc hplain.rep, htrunc hplain.fin⟩
      rw [hq]
      cases b with
      | nil => exact absurd h.2 (by simp)
      | cons d t => exact h.2
    exact hb.lex

end EndFound

/-- The two scanners agree on directives and on the end of a body. -/
theorem findMatchingEnd_lex (n : ℕ) : ∀ (text : List Char) (depth : ℕ), text.length ≤ n →
    EndFound depth text (findMatchingEnd (depth + 1) text) := by
  induction n with
  | zero =>
    intro text depth hlen
    obtain rfl := List.length_eq_zero_iff.mp (Nat.le_zero.mp hlen)
    rw [findMatchingEnd, EndFound, lex_nil, matchEnd]
  | succ n ih =>
    intro text depth hlen
    cases text with
    | nil => rw [findMatchingEnd, EndFound, lex_nil, matchEnd]
    | cons c rest =>
      rw [List.length_cons] at hlen
      rw [findMatchingEnd]
      split
      · rename_i hline
        have hle := length_lineTail_le rest
        exact .line hline (ih (lineTail rest) depth (by omega))
      split
      · rename_i hquote
        subst hquote
        have hle := length_stringTail_le rest
        exact .string (ih _ depth (by rw [List.length_tail]; omega))
      split
      · rename_i hrep
        exact .rep hrep (ih (rest.drop 6) (depth + 1) (by rw [List.length_drop]; omega))
      split
      · rename_i hfin
        cases depth with
        | zero =>
          rw [if_pos rfl]
          exact .here hfin
        | succ depth =>
          rw [if_neg (by omega), Nat.add_sub_cancel]
          exact .fin hfin (ih (rest.drop 3) depth (by rw [List.length_drop]; omega))
      · rename_i hline hquote hrep hfin
        exact .char ⟨hline, hquote, by simpa using hrep, by simpa using hfin⟩
          (ih rest depth (by omega))

end

end JzHdl

import JzHdl.Parser.LexGaps
import JzHdl.Parser.Repeat

/-! # The ends of strings and comments

The lexer and the expansion of `@repeat` both look for the ends of strings and
comments. The lexer ends a string at the next quotation mark and replaces escapes
later. The expansion steps over escaped characters, stops at a line feed and does not
know block comments.
-/

namespace JzHdl

/-! ## Round trips -/

/-- A text as it is written between quotation marks. -/
def escapeString (s : List Char) : List Char :=
  s.flatMap fun c =>
    if c = '"' then ['\\', '"'] else if c = '\\' then ['\\', '\\']
    else if c = '\n' then ['\\', 'n'] else [c]

/-- The written string is read as one token with the text, up to its closing quotation mark. -/
def RoundTrips (s : List Char) : Prop :=
  ∀ (st : LexerState) (after : List Char),
    st.rest = '"' :: escapeString s ++ ['"'] ++ after → st.stopLexing = false →
      Emits st .string s after

theorem decodeString_plain {c : Char} (hc : c ≠ '\\') (rest : List Char) :
    decodeString (c :: rest) = c :: decodeString rest := by
  rw [decodeString]
  exact fun _ _ h _ => hc h

@[simp] theorem decodeString_escape (s : List Char) : decodeString (escapeString s) = s := by
  induction s with
  | nil => rfl
  | cons c s ih =>
    rw [escapeString, List.flatMap_cons, ← escapeString]
    split
    · rename_i hc
      rw [List.cons_append, List.singleton_append, decodeString, if_pos (.inr rfl), ih, hc]
    · split
      · rename_i hc
        rw [List.cons_append, List.singleton_append, decodeString, if_pos (.inl rfl), ih, hc]
      · split
        · rename_i hc
          rw [List.cons_append, List.singleton_append, decodeString, if_neg (by decide),
            if_pos rfl, ih, hc]
        · rename_i hc _
          rw [List.singleton_append, decodeString_plain hc, ih]

theorem quote_mem_escape {s : List Char} : '"' ∈ escapeString s ↔ '"' ∈ s := by
  rw [escapeString, List.mem_flatMap]
  constructor
  · rintro ⟨c, hc, hmem⟩
    split at hmem
    · rename_i h
      exact h ▸ hc
    · split at hmem
      · simp at hmem
      · split at hmem
        · simp at hmem
        · rename_i h _ _
          exact absurd (List.mem_singleton.mp hmem).symm h
  · intro h
    exact ⟨'"', h, by simp⟩

theorem emitToken_rest (st : LexerState) (type : JZTokenType) (text : List Char)
    (loc : JZLocation) (num : Option JZNumericInfo) :
    (emitToken st type text loc num).rest = st.rest := by
  rw [emitToken]
  split <;> rfl

theorem lexOneToken_quote {st : LexerState} {content after : List Char} (h : '"' ∉ content)
    (hst : st.rest = '"' :: (content ++ '"' :: after)) (hstop : st.stopLexing = false) :
    (lexOneToken st).rest = after := by
  have hrest : st.rest = '"' :: content ++ ['"'] ++ after := by
    rw [hst]
    simp
  obtain ⟨next, loc, num, hstep, hnext, -, -⟩ := emits_string h hrest hstop
  rw [hstep, emitToken_rest, hnext]

/-- A text is split at its first quotation mark. -/
theorem exists_content {text : List Char} (h : '"' ∈ text) :
    ∃ content after, '"' ∉ content ∧ text = content ++ '"' :: after := by
  obtain ⟨content, after, heq, hnot⟩ := List.eq_append_cons_of_mem h
  exact ⟨content, after, hnot, heq⟩

theorem roundTrips_iff {s : List Char} : RoundTrips s ↔ '"' ∉ s := by
  constructor
  · intro h hmem
    obtain ⟨next, loc, num, hstep, hrest, -, -⟩ :=
      h (lexStart ('"' :: escapeString s ++ ['"'] ++ [])) [] rfl rfl
    -- The token ends at the first quotation mark, in front of the closing one.
    obtain ⟨content, after, hnot, heq⟩ := exists_content (quote_mem_escape.mpr hmem)
    have hquote := @lexOneToken_quote (lexStart ('"' :: escapeString s ++ ['"'] ++ [])) content
      (after ++ ['"']) hnot (by simp [lexStart, heq]) rfl
    rw [hstep, emitToken_rest, hrest] at hquote
    exact List.append_ne_nil_of_right_ne_nil _ (List.cons_ne_nil _ _) hquote.symm
  · intro h st after hst hstop
    have hemits := emits_string (mt quote_mem_escape.mp h) hst hstop
    rwa [decodeString_escape] at hemits

/-! ## Spans -/

inductive SpanKind | string | line | block
  deriving DecidableEq

/-- A string or a comment: the text from its first character on, and the text behind it. -/
structure SourceSpan where

  kind : SpanKind

  start : List Char

  stop : List Char

  deriving DecidableEq

/-- What the lexer takes from the front of a text: a blank, a comment or a token. The line feed
behind a line comment is no part of it. Nothing is taken if a string or a comment has no end. -/
def lexStep (c : Char) (tail : List Char) : Option (Option SourceSpan × List Char) :=
  let st := lexStart (c :: tail)
  if c = ' ' ∨ c = '\t' ∨ c = '\r' ∨ c = '\n' then some (none, tail)
  else if c = '/' ∧ tail.head? = some '/' then
    some (some ⟨.line, c :: tail, lineTail tail⟩, (skipLineComment (st.consume 2)).rest)
  else if c = '/' ∧ tail.head? = some '*' then
    match skipBlockComment (st.consume 2) st.loc with
    | (next, true) => some (some ⟨.block, c :: tail, next.rest⟩, next.rest)
    | (_, false) => none
  else if c = '"' then
    if '"' ∈ tail then
      some (some ⟨.string, c :: tail, (lexOneToken st).rest⟩, (lexOneToken st).rest)
    else none
  else some (none, (lexOneToken st).rest)

/-- The strings and comments of the lexer in front of the first one without an end. Each step
takes a character. -/
def lexSpans : ℕ → List Char → List SourceSpan
  | 0, _ => []
  | _, [] => []
  | fuel + 1, c :: tail =>
    match lexStep c tail with
    | none => []
    | some (span, rest) => span.toList ++ lexSpans fuel rest

/-- The strings and comments that `find_matching_end` steps over. -/
def repeatSpans (text : List Char) : List SourceSpan :=
  match text with
  | [] => []
  | c :: rest =>
    if c = '/' ∧ rest.head? = some '/' then
      ⟨.line, c :: rest, lineTail rest⟩ :: repeatSpans (lineTail rest)
    else if c = '"' then
      ⟨.string, c :: rest, (stringTail rest).tail⟩ :: repeatSpans (stringTail rest).tail
    else repeatSpans rest
termination_by text.length
decreasing_by
  · have := length_lineTail_le rest
    simp only [List.length_cons]
    omega
  · have := length_stringTail_le rest
    simp only [List.length_cons, List.length_tail]
    omega
  · simp

/-- Both scanners end every string and comment of the lexer at one place. -/
def ScannersAgree (source : List Char) : Prop :=
  ∀ span ∈ lexSpans source.length source, span ∈ repeatSpans source

/-- Whether the expansion ends the text of a string at its quotation mark: an escape takes the
next character with it, and a line feed ends the string. -/
def stringEnds (after : List Char) : List Char → Bool
  | [] => true
  | ['\\'] => after.isEmpty
  | '\\' :: _ :: rest => stringEnds after rest
  | c :: rest => c != '\n' && stringEnds after rest

/-- A line comment, or a string without a line feed and with no escape in front of its last
quotation mark. -/
def SourceSpan.Clean (span : SourceSpan) : Prop :=
  match span.kind with
  | .line => True
  | .block => False
  | .string => stringEnds span.stop (span.start.tail.takeWhile (· ≠ '"')) = true

/-! ## The expansion -/

theorem repeatSpans_plain {c : Char} {rest : List Char} (hquote : c ≠ '"')
    (hcomment : ¬ (c = '/' ∧ rest.head? = some '/')) :
    repeatSpans (c :: rest) = repeatSpans rest := by
  rw [repeatSpans, if_neg hcomment, if_neg hquote]

theorem repeatSpans_append {text : List Char} (h : ∀ c ∈ text, c ≠ '"' ∧ c ≠ '/')
    (after : List Char) : repeatSpans (text ++ after) = repeatSpans after := by
  induction text with
  | nil => rfl
  | cons c text ih =>
    obtain ⟨hquote, hslash⟩ := h c (List.mem_cons_self ..)
    rw [List.cons_append, repeatSpans_plain hquote fun hc => hslash hc.1]
    exact ih fun c hc => h c (List.mem_cons_of_mem _ hc)

theorem repeatSpans_start {span : SourceSpan} : ∀ text : List Char, span ∈ repeatSpans text →
    span.start.length ≤ text.length ∧ span.kind ≠ .block := by
  intro text
  induction text using repeatSpans.induct with
  | case1 =>
    intro h
    rw [repeatSpans] at h
    cases h
  | case2 c rest hcomment ih =>
    intro h
    rw [repeatSpans, if_pos hcomment] at h
    rcases List.mem_cons.mp h with rfl | h
    · exact ⟨le_rfl, nofun⟩
    · have hlen := length_lineTail_le rest
      obtain ⟨hstart, hkind⟩ := ih h
      exact ⟨by simp only [List.length_cons]; omega, hkind⟩
  | case3 rest hcomment ih =>
    intro h
    rw [repeatSpans, if_neg hcomment, if_pos rfl] at h
    rcases List.mem_cons.mp h with rfl | h
    · exact ⟨le_rfl, nofun⟩
    · have hlen := length_stringTail_le rest
      obtain ⟨hstart, hkind⟩ := ih h
      rw [List.length_tail] at hstart
      exact ⟨by simp only [List.length_cons]; omega, hkind⟩
  | case4 c rest hcomment hquote ih =>
    intro h
    rw [repeatSpans, if_neg hcomment, if_neg hquote] at h
    obtain ⟨hstart, hkind⟩ := ih h
    exact ⟨by simp only [List.length_cons]; omega, hkind⟩

/-- The search for an `@end` goes on behind a string or a comment. -/
theorem findMatchingEnd_span {text : List Char} {span : SourceSpan} {spans : List SourceSpan}
    (h : repeatSpans text = span :: spans) (hstart : span.start = text) (depth : ℕ) :
    findMatchingEnd depth text = findMatchingEnd depth span.stop ∧
      spans = repeatSpans span.stop := by
  cases text with
  | nil =>
    rw [repeatSpans] at h
    cases h
  | cons c rest =>
    rw [repeatSpans] at h
    rw [findMatchingEnd]
    split at h
    · rename_i hcomment
      rw [if_pos hcomment]
      cases h
      exact ⟨rfl, rfl⟩
    · rename_i hcomment
      rw [if_neg hcomment]
      split at h
      · rename_i hquote
        rw [if_pos hquote]
        cases h
        exact ⟨rfl, rfl⟩
      · have hmem : span ∈ repeatSpans rest := h ▸ List.mem_cons_self ..
        have hlen := (repeatSpans_start rest hmem).1
        rw [hstart, List.length_cons] at hlen
        omega

theorem stringTail_quote (after : List Char) : stringTail ('"' :: after) = '"' :: after := by
  cases after with
  | nil => rfl
  | cons d after => rw [stringTail, if_pos (.inl rfl)]

theorem stringTail_feed (after : List Char) : stringTail ('\n' :: after) = '\n' :: after := by
  cases after with
  | nil => rfl
  | cons d after => rw [stringTail, if_pos (.inr rfl)]

theorem stringTail_plain {c : Char} (hquote : c ≠ '"') (hfeed : c ≠ '\n') (hescape : c ≠ '\\')
    (rest : List Char) : stringTail (c :: rest) = stringTail rest := by
  have hends : ¬ (c = '"' ∨ c = '\n') := fun h => h.elim hquote hfeed
  cases rest with
  | nil => exact if_neg hends
  | cons d rest => rw [stringTail, if_neg hends, if_neg hescape]

theorem stringTail_content {content after : List Char} (h : '"' ∉ content) :
    (stringTail (content ++ '"' :: after)).tail = after ↔ stringEnds after content = true := by
  induction content using stringEnds.induct with
  | case1 => simp [stringTail_quote, stringEnds]
  | case2 =>
    -- The quotation mark is taken for an escaped one.
    rw [List.singleton_append, stringTail, if_neg (by decide), if_pos rfl, stringEnds,
      List.isEmpty_iff]
    constructor
    · intro heq
      have hlen := length_stringTail_le after
      have htail := congrArg List.length heq
      rw [List.length_tail] at htail
      exact List.eq_nil_of_length_eq_zero (by omega)
    · rintro rfl
      rfl
  | case3 c rest ih =>
    rw [List.cons_append, List.cons_append, stringTail, if_neg (by decide), if_pos rfl, stringEnds]
    exact ih fun hmem => h (List.mem_cons_of_mem _ (List.mem_cons_of_mem _ hmem))
  | case4 c rest hnot hpair ih =>
    have hescape : c ≠ '\\' := by
      intro hc
      cases rest with
      | nil => exact hnot hc rfl
      | cons d rest => exact hpair d rest hc rfl
    have hends : stringEnds after (c :: rest) = (c != '\n' && stringEnds after rest) :=
      stringEnds.eq_4 after c rest hnot hpair
    rw [List.cons_append, hends, Bool.and_eq_true, bne_iff_ne]
    by_cases hfeed : c = '\n'
    · constructor
      · intro heq
        rw [hfeed, stringTail_feed] at heq
        have hlen := congrArg List.length heq
        simp only [List.tail_cons, List.length_append, List.length_cons] at hlen
        omega
      · exact fun hclean => absurd hfeed hclean.1
    · have hquote : c ≠ '"' := fun hc => h (hc ▸ List.mem_cons_self ..)
      rw [stringTail_plain hquote hfeed hescape, ih fun hmem => h (List.mem_cons_of_mem _ hmem)]
      exact (and_iff_right hfeed).symm

theorem repeatSpans_lineTail (text : List Char) :
    repeatSpans (lineTail text) = repeatSpans (lineTail text).tail := by
  induction text with
  | nil => rfl
  | cons c text ih =>
    by_cases hc : c = '\n'
    · have hline : lineTail (c :: text) = c :: text := List.dropWhile_cons_of_neg (by simp [hc])
      rw [hline, hc]
      exact repeatSpans_plain (by decide) (by simp)
    · have hline : lineTail (c :: text) = lineTail text :=
        List.dropWhile_cons_of_pos (by simp [hc])
      rw [hline]
      exact ih

/-! ## The lexer -/

theorem consume_drop (st : LexerState) (count : ℕ) : (st.consume count).rest = st.rest.drop count :=
  rfl

/-- A step over a part of a word or of a number. -/
def PlainStep (text after : List Char) : Prop :=
  ∃ lexeme, lexeme ≠ [] ∧ text = lexeme ++ after ∧
    ((∀ c ∈ lexeme, c ≠ '"' ∧ c ≠ '/') ∨ lexeme = ['/'])

theorem PlainStep.of_front {text lexeme : List Char} (hpre : lexeme <+: text) (hne : lexeme ≠ [])
    (hplain : ∀ c ∈ lexeme, c ≠ '"' ∧ c ≠ '/') : PlainStep text (text.drop lexeme.length) := by
  obtain ⟨after, rfl⟩ := hpre
  exact ⟨lexeme, hne, by rw [List.drop_left], .inl hplain⟩

theorem isLiteralChar_plain {c : Char} (h : isLiteralChar c = true) : c ≠ '"' ∧ c ≠ '/' := by
  constructor
  · rintro rfl
    revert h
    decide
  · rintro rfl
    revert h
    decide

theorem lexNumeric_rest (st : LexerState) (lexeme : List Char) :
    (lexNumeric st lexeme).rest = st.rest.drop lexeme.length := by
  unfold lexNumeric
  split
  · rfl
  · rw [emitToken_rest, consume_drop]
  · rw [emitToken_rest, consume_drop]

theorem lexNumber_step {st : LexerState} {d : Char} {tail : List Char} (hst : st.rest = d :: tail)
    (hd : d.isDigit = true) : PlainStep st.rest (lexNumber st).rest := by
  have hstart : isLiteralChar d = true := isLiteralChar_of (isIdentifierChar_digit hd)
  have hne : st.rest.takeWhile isLiteralChar ≠ [] := by
    rw [hst, List.takeWhile_cons_of_pos hstart]
    exact List.cons_ne_nil _ _
  have hplain : ∀ c ∈ st.rest.takeWhile isLiteralChar, c ≠ '"' ∧ c ≠ '/' :=
    fun c hc => isLiteralChar_plain (List.mem_takeWhile_imp hc)
  have hnumeric : PlainStep st.rest (lexNumeric st (st.rest.takeWhile isLiteralChar)).rest := by
    rw [lexNumeric_rest]
    exact .of_front (List.takeWhile_prefix _) hne hplain
  unfold lexNumber
  dsimp only
  split
  · rename_i e more hdrop
    split
    · rw [emitToken_rest, consume_drop]
      refine .of_front ?_ (List.append_ne_nil_of_left_ne_nil hne _) ?_
      · have hsplit :=
          List.prefix_iff_eq_append.mp (List.takeWhile_prefix isLiteralChar (l := st.rest))
        obtain ⟨rest, hrest⟩ := List.takeWhile_prefix Char.isDigit (l := e :: more)
        rw [hdrop] at hsplit
        exact ⟨rest, by rw [List.append_assoc, List.cons_append, hrest, hsplit]⟩
      · intro c hc
        rcases List.mem_append.mp hc with hc | hc
        · exact hplain c hc
        · rcases List.mem_cons.mp hc with rfl | hc
          · decide
          · exact isLiteralChar_plain
              (isLiteralChar_of (isIdentifierChar_digit (List.mem_takeWhile_imp hc)))
    · exact hnumeric
  · exact hnumeric

theorem widthName_front {word rest : List Char} :
    ∃ field, widthName word rest = word ++ field ∧ field <+: rest ∧
      ∀ c ∈ field, c ≠ '"' ∧ c ≠ '/' := by
  unfold widthName
  split
  · rename_i more
    dsimp only
    split
    · refine ⟨'.' :: more.takeWhile isIdentifierChar, rfl, ?_, ?_⟩
      · exact List.cons_prefix_cons.mpr ⟨rfl, List.takeWhile_prefix _⟩
      · intro c hc
        rcases List.mem_cons.mp hc with rfl | hc
        · decide
        · exact isLiteralChar_plain (isLiteralChar_of (List.mem_takeWhile_imp hc))
    · exact ⟨[], (List.append_nil _).symm, List.nil_prefix, nofun⟩
  · exact ⟨[], (List.append_nil _).symm, List.nil_prefix, nofun⟩

theorem lexWord_step {st : LexerState} {c : Char} {tail : List Char} (hst : st.rest = c :: tail)
    (hc : isIdentifierStart c = true ∨ c = '@') : PlainStep st.rest (lexWord st c tail).rest := by
  have hcplain : c ≠ '"' ∧ c ≠ '/' := by
    rcases hc with hc | rfl
    · exact isLiteralChar_plain (isLiteralChar_of (isIdentifierChar_start hc))
    · decide
  have hword : ∀ x ∈ c :: tail.takeWhile isIdentifierChar, x ≠ '"' ∧ x ≠ '/' := by
    intro x hx
    rcases List.mem_cons.mp hx with rfl | hx
    · exact hcplain
    · exact isLiteralChar_plain (isLiteralChar_of (List.mem_takeWhile_imp hx))
  have hpre : c :: tail.takeWhile isIdentifierChar <+: st.rest := by
    rw [hst]
    exact List.cons_prefix_cons.mpr ⟨rfl, List.takeWhile_prefix _⟩
  obtain ⟨after, hafter⟩ := hpre
  unfold lexWord
  dsimp only
  obtain ⟨field, hwidth, hfield, hplain⟩ := @widthName_front (c :: tail.takeWhile isIdentifierChar)
    (st.rest.drop (c :: tail.takeWhile isIdentifierChar).length)
  rw [← hafter, List.drop_left] at hfield
  obtain ⟨more', rfl⟩ := hfield
  rw [hwidth]
  split
  · rename_i more hdrop
    rw [lexNumeric_rest]
    refine .of_front ?_ ?_ ?_
    · rw [← hafter, ← List.append_assoc, List.drop_left] at hdrop
      rw [← hafter, ← List.append_assoc, hdrop, List.prefix_append_right_inj]
      exact List.cons_prefix_cons.mpr ⟨rfl, List.takeWhile_prefix _⟩
    · simp
    · intro x hx
      rcases List.mem_append.mp hx with hx | hx
      · rcases List.mem_append.mp hx with hx | hx
        · exact hword x hx
        · exact hplain x hx
      · rcases List.mem_cons.mp hx with rfl | hx
        · decide
        · exact isLiteralChar_plain (List.mem_takeWhile_imp hx)
  · rw [emitToken_rest, consume_drop]
    exact .of_front ⟨_, hafter⟩ (List.cons_ne_nil _ _) hword

/-- The text of an operator at the front of a text. -/
def OperatorText (text : List Char) (op : String) : Prop :=
  op.toList <+: text ∧ op.toList ≠ [] ∧
    (op.toList.all (fun c => c != '"' && c != '/') = true ∨ op.toList = ['/'])

theorem operatorEquals_text (tail : List Char) :
    OperatorText ('=' :: tail) (operatorEquals tail).2 := by
  unfold operatorEquals
  split
  · exact ⟨⟨_, rfl⟩, by decide, .inl rfl⟩
  · split
    · exact ⟨⟨_, rfl⟩, by decide, .inl rfl⟩
    · exact ⟨⟨_, rfl⟩, by decide, .inl rfl⟩
  · split
    · exact ⟨⟨_, rfl⟩, by decide, .inl rfl⟩
    · exact ⟨⟨_, rfl⟩, by decide, .inl rfl⟩
  · exact ⟨⟨_, rfl⟩, by decide, .inl rfl⟩
  · split
    · exact ⟨⟨_, rfl⟩, by decide, .inl rfl⟩
    · exact ⟨⟨_, rfl⟩, by decide, .inl rfl⟩
  · split
    · exact ⟨⟨_, rfl⟩, by decide, .inl rfl⟩
    · exact ⟨⟨_, rfl⟩, by decide, .inl rfl⟩
  · exact ⟨⟨_, rfl⟩, by decide, .inl rfl⟩

theorem operatorLess_text (tail : List Char) :
    OperatorText ('<' :: tail) (operatorLess tail).2 := by
  unfold operatorLess
  split
  all_goals exact ⟨⟨_, rfl⟩, by decide, .inl rfl⟩

theorem operatorGreater_text (tail : List Char) :
    OperatorText ('>' :: tail) (operatorGreater tail).2 := by
  unfold operatorGreater
  split
  all_goals exact ⟨⟨_, rfl⟩, by decide, .inl rfl⟩

theorem operatorText_double {c d : Char} {tail : List Char} {one two : JZTokenType × String}
    (hone : one.2.toList = [c]) (htwo : two.2.toList = [c, d])
    (hc : (c != '"' && c != '/') = true) (hd : (d != '"' && d != '/') = true) :
    OperatorText (c :: tail) (if tail.head? = some d then two else one).2 := by
  split
  · rename_i hhead
    obtain ⟨rest, rfl⟩ := List.head?_eq_some_iff.mp hhead
    exact ⟨⟨rest, by rw [htwo]; rfl⟩, by rw [htwo]; exact List.cons_ne_nil _ _,
      .inl (by rw [htwo]; simp only [List.all_cons, hc, hd, List.all_nil, Bool.and_self])⟩
  · exact ⟨⟨tail, by rw [hone]; rfl⟩, by rw [hone]; exact List.cons_ne_nil _ _,
      .inl (by rw [hone]; simp only [List.all_cons, hc, List.all_nil, Bool.and_self])⟩

theorem operatorAt_text {c : Char} {tail : List Char} {type : JZTokenType} {text : String}
    (h : operatorAt c tail = some (type, text)) : OperatorText (c :: tail) text := by
  have hpair : ∀ {op : JZTokenType × String}, some op = some (type, text) →
      OperatorText (c :: tail) op.2 → OperatorText (c :: tail) text := by
    rintro op ⟨⟩ hop
    exact hop
  unfold operatorAt at h
  split at h
  all_goals try exact hpair h ⟨⟨_, rfl⟩, by decide, .inl rfl⟩
  · exact hpair h (operatorEquals_text tail)
  · exact hpair h (operatorText_double rfl rfl rfl rfl)
  · exact hpair h (operatorText_double rfl rfl rfl rfl)
  · exact hpair h (operatorText_double rfl rfl rfl rfl)
  · exact hpair h (operatorLess_text tail)
  · exact hpair h (operatorGreater_text tail)
  · exact hpair h ⟨⟨_, rfl⟩, by decide, .inr rfl⟩
  · cases h

theorem lexOperator_step {st : LexerState} {c : Char} {tail : List Char}
    (hst : st.rest = c :: tail) (hquote : c ≠ '"') :
    PlainStep st.rest (lexOperator st c tail).rest := by
  unfold lexOperator
  split
  · rename_i type text hop
    obtain ⟨hpre, hne, hplain⟩ := operatorAt_text hop
    rw [emitToken_rest, consume_drop]
    rw [← hst] at hpre
    obtain ⟨after, hafter⟩ := hpre
    refine ⟨text.toList, hne, by rw [← hafter, List.drop_left], hplain.imp_left fun hall => ?_⟩
    simpa using hall
  · rename_i hop
    rw [emitToken_rest, consume_drop]
    refine @PlainStep.of_front st.rest [c] ⟨tail, hst.symm⟩ (List.cons_ne_nil _ _) ?_
    intro x hx
    rw [List.mem_singleton.mp hx]
    refine ⟨hquote, ?_⟩
    rintro rfl
    cases hop

/-- A token that is no string is a part without quotation marks and comments. -/
theorem lexOneToken_step {c : Char} {tail : List Char} (hhead : TokenHead c tail)
    (hquote : c ≠ '"') :
    PlainStep (c :: tail) (lexOneToken (lexStart (c :: tail))).rest := by
  rw [@lexOneToken_eq (lexStart (c :: tail)) c tail rfl rfl hhead, if_neg hquote]
  split
  · rename_i hc
    exact @lexWord_step (lexStart (c :: tail)) c tail rfl hc
  · split
    · rename_i hc
      refine ⟨['\''], List.cons_ne_nil _ _, by rw [hc]; rfl, .inl ?_⟩
      intro x hx
      rw [List.mem_singleton.mp hx]
      decide
    · split
      · rename_i hc
        exact @lexNumber_step (lexStart (c :: tail)) c tail rfl hc
      · exact @lexOperator_step (lexStart (c :: tail)) c tail rfl hquote

theorem PlainStep.length_lt {text after : List Char} (h : PlainStep text after) :
    after.length < text.length := by
  obtain ⟨lexeme, hne, rfl, -⟩ := h
  have := List.length_pos_of_ne_nil hne
  rw [List.length_append]
  omega

theorem PlainStep.repeatSpans_eq {c : Char} {tail after : List Char}
    (h : PlainStep (c :: tail) after) (hhead : TokenHead c tail) : repeatSpans (c :: tail) = repeatSpans after := by
  obtain ⟨lexeme, hne, heq, hplain | rfl⟩ := h
  · rw [heq]
    exact repeatSpans_append hplain after
  · obtain ⟨rfl, rfl⟩ := List.cons.inj heq
    exact repeatSpans_plain (by decide) fun hc => (hhead.2 rfl).1 hc.2

/-! ## Agreement -/

/-- What a step of the lexer means for the expansion. -/
structure StepSpec (text : List Char) (span : Option SourceSpan) (rest : List Char) : Prop where

  length_lt : rest.length < text.length

  blank : span = none → repeatSpans text = repeatSpans rest

  start_eq : ∀ s ∈ span, s.start = text

  clean : ∀ s ∈ span, s.Clean → repeatSpans text = s :: repeatSpans rest

  dirty : ∀ s ∈ span, ¬ s.Clean → s ∉ repeatSpans text

theorem StepSpec.of_blank {text rest : List Char} (hlen : rest.length < text.length)
    (h : repeatSpans text = repeatSpans rest) : StepSpec text none rest :=
  ⟨hlen, fun _ => h, nofun, nofun, nofun⟩

theorem StepSpec.of_span {span : SourceSpan} {rest : List Char}
    (hlen : rest.length < span.start.length)
    (hclean : span.Clean → repeatSpans span.start = span :: repeatSpans rest)
    (hdirty : ¬ span.Clean → span ∉ repeatSpans span.start) :
    StepSpec span.start (some span) rest := by
  refine ⟨hlen, nofun, ?_, ?_, ?_⟩
  · rintro s ⟨⟩
    rfl
  · rintro s ⟨⟩ h
    exact hclean h
  · rintro s ⟨⟩ h
    exact hdirty h

theorem skipLineComment_rest (st : LexerState) :
    (skipLineComment st).rest = (lineTail st.rest).tail := by
  rw [skipLineComment]
  change st.rest.drop ((st.rest.takeWhile (· ≠ '\n')).length + 1) = _
  induction st.rest with
  | nil => rfl
  | cons c text ih =>
    by_cases hc : c = '\n'
    · rw [List.takeWhile_cons_of_neg (by simp [hc]), lineTail,
        List.dropWhile_cons_of_neg (by simp [hc])]
      rfl
    · rw [List.takeWhile_cons_of_pos (by simp [hc]), lineTail,
        List.dropWhile_cons_of_pos (by simp [hc])]
      exact ih

theorem line_spec {tail : List Char} (hhead : tail.head? = some '/') :
    StepSpec ('/' :: tail) (some ⟨.line, '/' :: tail, lineTail tail⟩)
      (skipLineComment ((lexStart ('/' :: tail)).consume 2)).rest := by
  obtain ⟨text, rfl⟩ := List.head?_eq_some_iff.mp hhead
  have hrest : ((lexStart ('/' :: '/' :: text)).consume 2).rest = text := rfl
  have hline : lineTail ('/' :: text) = lineTail text := List.dropWhile_cons_of_pos (by decide)
  rw [skipLineComment_rest, hrest, hline]
  refine @StepSpec.of_span ⟨.line, '/' :: '/' :: text, lineTail text⟩ _ ?_ ?_ ?_
  · have hlen := length_lineTail_le text
    simp only [List.length_cons, List.length_tail]
    omega
  · intro _
    change repeatSpans ('/' :: '/' :: text) = _
    rw [repeatSpans, if_pos ⟨rfl, rfl⟩, hline, repeatSpans_lineTail]
  · exact fun hdirty => absurd trivial hdirty

theorem length_skipBlockComment {st next : LexerState} {start : JZLocation} {closed : Bool}
    (h : skipBlockComment st start = (next, closed)) : next.rest.length ≤ st.rest.length := by
  unfold skipBlockComment at h
  split at h
  all_goals
    cases h
    exact (List.drop_suffix _ _).length_le

theorem string_spec {tail : List Char} (hmem : '"' ∈ tail) :
    StepSpec ('"' :: tail)
      (some ⟨.string, '"' :: tail, (lexOneToken (lexStart ('"' :: tail))).rest⟩)
      (lexOneToken (lexStart ('"' :: tail))).rest := by
  obtain ⟨content, after, hnot, rfl⟩ := exists_content hmem
  have htoken : (lexOneToken (lexStart ('"' :: (content ++ '"' :: after)))).rest = after :=
    lexOneToken_quote hnot rfl rfl
  have htake : (content ++ '"' :: after).takeWhile (· ≠ '"') = content := by
    refine takeWhile_append_stop (fun c hc => decide_eq_true ?_)
      (List.takeWhile_cons_of_neg (by decide))
    rintro rfl
    exact hnot hc
  have hrepeat : repeatSpans ('"' :: (content ++ '"' :: after)) =
      ⟨.string, '"' :: (content ++ '"' :: after), (stringTail (content ++ '"' :: after)).tail⟩ ::
        repeatSpans (stringTail (content ++ '"' :: after)).tail := by
    rw [repeatSpans, if_neg (by simp), if_pos rfl]
  rw [htoken]
  refine @StepSpec.of_span ⟨.string, '"' :: (content ++ '"' :: after), after⟩ _ ?_ ?_ ?_
  · simp only [List.length_cons, List.length_append]
    omega
  · intro hclean
    have hends : stringEnds after ((content ++ '"' :: after).takeWhile (· ≠ '"')) = true := hclean
    rw [htake] at hends
    rw [(stringTail_content hnot).mpr hends] at hrepeat
    exact hrepeat
  · intro hdirty hspan
    rw [hrepeat] at hspan
    rcases List.mem_cons.mp hspan with heq | hspan
    · have htail : after = (stringTail (content ++ '"' :: after)).tail :=
        congrArg SourceSpan.stop heq
      have hends := (stringTail_content hnot).mp htail.symm
      exact hdirty (show stringEnds after (List.takeWhile _ (content ++ '"' :: after)) = true from
        htake.symm ▸ hends)
    · have hlen := (repeatSpans_start _ hspan).1
      have htail := length_stringTail_le (content ++ '"' :: after)
      rw [List.length_tail, List.length_cons] at hlen
      omega

theorem lexStep_spec {c : Char} {tail rest : List Char} {span : Option SourceSpan}
    (h : lexStep c tail = some (span, rest)) : StepSpec (c :: tail) span rest := by
  unfold lexStep at h
  dsimp only at h
  split at h
  · rename_i hblank
    cases h
    refine .of_blank (Nat.lt_succ_self _) (repeatSpans_plain ?_ fun hc => ?_)
    · rcases hblank with rfl | rfl | rfl | rfl <;> decide
    · rcases hblank with rfl | rfl | rfl | rfl <;> exact absurd hc.1 (by decide)
  · rename_i hblank
    split at h
    · rename_i hcomment
      obtain ⟨rfl, hhead⟩ := hcomment
      cases h
      exact line_spec hhead
    · rename_i hline
      split at h
      · split at h
        · rename_i next hnext
          cases h
          have hlen := length_skipBlockComment hnext
          refine @StepSpec.of_span ⟨.block, c :: tail, next.rest⟩ _ ?_ nofun fun _ hmem => ?_
          · rw [consume_drop, List.length_drop] at hlen
            change next.rest.length < (c :: tail).length
            have hstart : (lexStart (c :: tail)).rest.length = tail.length + 1 := rfl
            rw [List.length_cons]
            omega
          · exact (repeatSpans_start _ hmem).2 rfl
        · cases h
      · rename_i hblock
        split at h
        · rename_i hquote
          subst hquote
          split at h
          · rename_i hmem
            cases h
            exact string_spec hmem
          · cases h
        · rename_i hquote
          cases h
          have hhead : TokenHead c tail := by
            refine ⟨?_, fun hc => ⟨fun ht => hline ⟨hc, ht⟩, fun ht => hblock ⟨hc, ht⟩⟩⟩
            simpa only [not_or] using hblank
          have hstep := lexOneToken_step hhead hquote
          exact .of_blank hstep.length_lt (hstep.repeatSpans_eq hhead)

theorem lexSpans_start {span : SourceSpan} : ∀ (fuel : ℕ) (text : List Char),
    span ∈ lexSpans fuel text → span.start.length ≤ text.length
  | 0, _ => by
      intro h
      rw [lexSpans] at h
      cases h
  | _ + 1, [] => by
      intro h
      rw [lexSpans] at h
      · cases h
      · nofun
  | fuel + 1, c :: tail => by
      intro h
      rw [lexSpans] at h
      split at h
      · cases h
      · rename_i found rest hstep
        have hspec := lexStep_spec hstep
        rcases List.mem_append.mp h with h | h
        · rw [hspec.start_eq span (Option.mem_toList.mp h)]
        · have hlen := lexSpans_start fuel rest h
          have hlt := hspec.length_lt
          omega

theorem agree_iff : ∀ (fuel : ℕ) (text : List Char),
    (∀ span ∈ lexSpans fuel text, span ∈ repeatSpans text) ↔
      ∀ span ∈ lexSpans fuel text, span.Clean
  | 0, _ => by
      rw [lexSpans]
      exact ⟨fun _ => nofun, fun _ => nofun⟩
  | _ + 1, [] => by
      rw [lexSpans]
      · exact ⟨fun _ => nofun, fun _ => nofun⟩
      · nofun
  | fuel + 1, c :: tail => by
      rw [lexSpans]
      split
      · exact ⟨fun _ => nofun, fun _ => nofun⟩
      · rename_i found rest hstep
        have hspec := lexStep_spec hstep
        cases found with
        | none =>
          rw [hspec.blank rfl]
          exact agree_iff fuel rest
        | some s =>
          rw [Option.toList_some, List.singleton_append, List.forall_mem_cons,
            List.forall_mem_cons]
          by_cases hclean : s.Clean
          · have hrepeat := hspec.clean s rfl hclean
            rw [← agree_iff fuel rest, hrepeat]
            refine and_congr (iff_of_true (List.mem_cons_self ..) hclean) ?_
            -- A later string or comment starts behind this one.
            refine forall₂_congr fun span hspan => ⟨fun h => ?_, List.mem_cons_of_mem _⟩
            refine (List.mem_cons.mp h).resolve_left ?_
            rintro rfl
            have hlen := lexSpans_start fuel rest hspan
            rw [hspec.start_eq span rfl] at hlen
            have hlt := hspec.length_lt
            omega
          · exact iff_of_false (fun h => hspec.dirty s rfl hclean h.1) fun h => hclean h.1

/-- A string survives if no quotation mark is in it, and the scanners agree if there are only line
comments and strings that end alike. -/
theorem stringScan_exact (s source : List Char) :
    (RoundTrips s ↔ '"' ∉ s) ∧
      (ScannersAgree source ↔ ∀ span ∈ lexSpans source.length source, span.Clean) :=
  ⟨roundTrips_iff, agree_iff _ _⟩

/-- The strings end at the second quotation mark for the lexer. For the expansion the first one
goes on to the third quotation mark. -/
theorem stringScan_differs :
    ¬ RoundTrips ['"'] ∧ ¬ ScannersAgree "\"a\\\" \"b\"".toList := by
  constructor
  · exact fun h => roundTrips_iff.mp h (List.mem_cons_self ..)
  · unfold ScannersAgree
    decide +kernel

end JzHdl

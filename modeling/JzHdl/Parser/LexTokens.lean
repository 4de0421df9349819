import JzHdl.Parser.Lexer
import Mathlib

/-! # Tokens at the front of a text

Each text of a token is found as that token if no longer lexeme begins where it
begins. The receive operator is found only if no letter of its suffixes is next.
-/

namespace JzHdl

/-- A statement about each character of a text is decided along the text. -/
local instance (priority := 2000) decidableTokenText {p : Char → Prop} [DecidablePred p]
    (text : List Char) : Decidable (∀ c ∈ text, p c) := List.decidableBAll p text

local instance (priority := 2000) decidableTokenHead {p : Char → Prop} [DecidablePred p]
    (head : Option Char) : Decidable (∀ c ∈ head, p c) := Option.decidableForallMem head

/-! ## The token grammar -/

def operators : List (JZTokenType × String) :=
  [(.lbrace, "\x7b"), (.rbrace, "\x7d"), (.lparen, "("), (.rparen, ")"), (.lbracket, "["),
    (.rbracket, "]"), (.semicolon, ";"), (.comma, ","), (.dot, "."), (.opAssign, "="),
    (.opAssignZ, "=z"), (.opAssignS, "=s"), (.opDrive, "=>"), (.opDriveZ, "=>z"),
    (.opDriveS, "=>s"), (.opLeZ, "<=z"), (.opLeS, "<=s"), (.opPlus, "+"), (.opMinus, "-"),
    (.opStar, "*"), (.opSlash, "/"), (.opPercent, "%"), (.opAmp, "&"), (.opPipe, "|"),
    (.opCaret, "^"), (.opTilde, "~"), (.opBang, "!"), (.opAndAnd, "&&"), (.opOrOr, "||"),
    (.opEq, "=="), (.opNeq, "!="), (.opLt, "<"), (.opLe, "<="), (.opGt, ">"), (.opGe, ">="),
    (.opShl, "<<"), (.opShr, ">>"), (.opAshr, ">>>"), (.opQuestion, "?"), (.opColon, ":"),
    (.other, "#")]

def isWord : List Char → Bool
  | [] => false
  | c :: rest => (isIdentifierChar c || c = '@') && rest.all isIdentifierChar

def startsDigit (text : List Char) : Bool := text.head?.elim false Char.isDigit

def isFraction (text : List Char) : Bool :=
  let whole := text.takeWhile isIdentifierChar
  match text.drop whole.length with
  | '.' :: part => startsDigit whole && startsDigit part && part.all isIdentifierChar
  | _ => false

/-- A number or a name, or a field of the configuration. -/
def isWidth (text : List Char) : Bool :=
  isWord text || (text.take 7 = "CONFIG.".toList && text.drop 7 ≠ [] &&
    (text.drop 7).all isIdentifierChar)

def isSized (text : List Char) : Bool :=
  let width := text.takeWhile (· ≠ '\'')
  match text.drop width.length with
  | '\'' :: tail => isWidth width && tail.all isLiteralChar
  | _ => false

/-- The shapes of words, numbers, literals, operators and the openings of comments. -/
def isLexeme (text : List Char) : Bool :=
  isWord text || isFraction text || isSized text ||
    operators.any (fun entry => entry.2.toList = text) || text = ['/', '/'] || text = ['/', '*']

/-- The text does not end inside of a word. -/
def endsWord (text rest : List Char) : Bool :=
  !(text.getLast?.elim false isIdentifierChar && wordAhead rest)

/-- No longer lexeme begins where the token begins. -/
def Splits (text rest : List Char) : Prop :=
  endsWord text rest = true ∧ ∀ n ≤ (text ++ rest).length, text.length < n →
    (isLexeme ((text ++ rest).take n) && endsWord ((text ++ rest).take n) ((text ++ rest).drop n)) =
      false

instance (text rest : List Char) : Decidable (Splits text rest) :=
  inferInstanceAs (Decidable (_ ∧ _))

/-- The texts of the language with the type and the text of their tokens. -/
inductive IsToken : List Char → JZTokenType → List Char → Prop

  | word {c : Char} {rest : List Char} (hc : isIdentifierStart c = true ∨ c = '@')
      (hrest : ∀ d ∈ rest, isIdentifierChar d = true) :
      IsToken (c :: rest) ((matchKeyword (c :: rest)).getD .identifier) (c :: rest)

  | number {d : Char} {rest : List Char} (hd : d.isDigit = true)
      (hrest : ∀ c ∈ rest, isIdentifierChar c = true) : IsToken (d :: rest) .number (d :: rest)

  | fraction {d e : Char} {whole part : List Char} (hd : d.isDigit = true)
      (hwhole : ∀ c ∈ whole, isIdentifierChar c = true) (he : e.isDigit = true)
      (hpart : ∀ c ∈ part, c.isDigit = true) :
      IsToken (d :: whole ++ '.' :: e :: part) .number (d :: whole ++ '.' :: e :: part)

  | sized {width value : List Char} {info : JZNumericInfo} (hwidth : isWidth width = true)
      (hvalue : ∀ c ∈ value, isIdentifierChar c = true)
      (hparse : parseNumericLiteral (width ++ '\'' :: value) = .ok (some info)) :
      IsToken (width ++ '\'' :: value) .sizedNumber (width ++ '\'' :: value)

  | string {content : List Char} (h : '"' ∉ content) :
      IsToken ('"' :: content ++ ['"']) .string (decodeString content)

  | operator {type : JZTokenType} {text : String} (h : (type, text) ∈ operators) :
      IsToken text.toList type text.toList

def receiveText : List Char := "<=".toList

/-- A token of the language with its text in the source. -/
structure SourceToken where

  text : List Char

  type : JZTokenType

  lexeme : List Char

  isToken : IsToken text type lexeme

/-! ## What may follow a token -/

theorem wordAhead_dropWhile (text : List Char) :
    wordAhead (text.dropWhile isIdentifierChar) = false := by
  induction text with
  | nil => rfl
  | cons c text ih =>
    by_cases hc : isIdentifierChar c = true
    · rwa [List.dropWhile_cons_of_pos hc]
    · rw [List.dropWhile_cons_of_neg hc]
      simpa [wordAhead] using hc

theorem wordAhead_dropLiteral (text : List Char) :
    wordAhead (text.dropWhile isLiteralChar) = false := by
  induction text with
  | nil => rfl
  | cons c text ih =>
    by_cases hc : isLiteralChar c = true
    · rwa [List.dropWhile_cons_of_pos hc]
    · rw [List.dropWhile_cons_of_neg hc]
      have hchar : isIdentifierChar c = false := by
        rw [isLiteralChar, Bool.or_eq_true, not_or] at hc
        simpa using hc.1
      simpa [wordAhead] using hchar

theorem endsWord_of_ahead {text rest : List Char} (h : wordAhead rest = false) :
    endsWord text rest = true := by
  rw [endsWord, h, Bool.and_false, Bool.not_false]

theorem isWord_append {text word : List Char} (h : isWord text = true)
    (hword : ∀ c ∈ word, isIdentifierChar c = true) : isWord (text ++ word) = true := by
  cases text with
  | nil => cases h
  | cons c text =>
    rw [isWord, Bool.and_eq_true] at h
    rw [List.cons_append, isWord, h.1, Bool.true_and, List.all_append, h.2, Bool.true_and,
      List.all_eq_true]
    exact hword

theorem tick_not_mem {text : List Char} (h : isWidth text = true) : '\'' ∉ text := by
  have hall : ∀ {word : List Char}, word.all isIdentifierChar = true → '\'' ∉ word :=
    fun hword hmem => absurd (List.all_eq_true.mp hword _ hmem) (by decide)
  rw [isWidth, Bool.or_eq_true] at h
  rcases h with h | h
  · cases text with
    | nil => cases h
    | cons c text =>
      rw [isWord, Bool.and_eq_true] at h
      intro hmem
      rcases List.mem_cons.mp hmem with rfl | hmem
      · exact absurd h.1 (by decide)
      · exact hall h.2 hmem
  · rw [Bool.and_eq_true, Bool.and_eq_true, decide_eq_true_iff] at h
    obtain ⟨⟨hfront, -⟩, hname⟩ := h
    rw [← List.take_append_drop 7 text, hfront]
    intro hmem
    rcases List.mem_append.mp hmem with hmem | hmem
    · exact absurd hmem (by decide)
    · exact hall hname hmem

theorem isSized_of {width tail : List Char} (hwidth : isWidth width = true)
    (htail : ∀ c ∈ tail, isLiteralChar c = true) : isSized (width ++ '\'' :: tail) = true := by
  have htake : (width ++ '\'' :: tail).takeWhile (· ≠ '\'') = width := by
    rw [List.takeWhile_append_of_pos, List.takeWhile_cons_of_neg (by decide), List.append_nil]
    exact fun c hc => decide_eq_true fun h => tick_not_mem hwidth (h ▸ hc)
  rw [isSized, htake, List.drop_left]
  change (isWidth width && tail.all isLiteralChar) = true
  rw [hwidth, Bool.true_and, List.all_eq_true]
  exact htail

theorem isFraction_of {whole part : List Char} (hwhole : ∀ c ∈ whole, isIdentifierChar c = true)
    (hd : startsDigit whole = true) (he : startsDigit part = true)
    (hpart : ∀ c ∈ part, isIdentifierChar c = true) : isFraction (whole ++ '.' :: part) = true := by
  have htake : (whole ++ '.' :: part).takeWhile isIdentifierChar = whole := by
    rw [List.takeWhile_append_of_pos hwhole, List.takeWhile_cons_of_neg (by decide),
      List.append_nil]
  rw [isFraction, htake, List.drop_left]
  change (startsDigit whole && startsDigit part && part.all isIdentifierChar) = true
  rw [hd, he, Bool.true_and, Bool.true_and, List.all_eq_true]
  exact hpart

theorem isLexeme_word {text : List Char} (h : isWord text = true) : isLexeme text = true := by
  simp [isLexeme, h]

theorem isLexeme_fraction {text : List Char} (h : isFraction text = true) :
    isLexeme text = true := by
  simp [isLexeme, h]

theorem isLexeme_sized {text : List Char} (h : isSized text = true) : isLexeme text = true := by
  simp [isLexeme, h]

theorem isLexeme_operator {type : JZTokenType} {text : String} (h : (type, text) ∈ operators) :
    isLexeme text.toList = true := by
  have hany : operators.any (fun entry => entry.2.toList = text.toList) = true :=
    List.any_eq_true.mpr ⟨_, h, decide_eq_true rfl⟩
  simp [isLexeme, hany]

theorem space_not_mem {text : List Char} (h : isLexeme text = true) : ' ' ∉ text := by
  have hall : ∀ {word : List Char}, word.all isIdentifierChar = true → ' ' ∉ word :=
    fun hword hmem => absurd (List.all_eq_true.mp hword _ hmem) (by decide)
  have hword : ∀ {word : List Char}, isWord word = true → ' ' ∉ word := by
    intro word hword hmem
    cases word with
    | nil => cases hmem
    | cons c word =>
      rw [isWord, Bool.and_eq_true] at hword
      rcases List.mem_cons.mp hmem with rfl | hmem
      · exact absurd hword.1 (by decide)
      · exact hall hword.2 hmem
  have hsplit : ∀ {p : Char → Bool} {c : Char} {part : List Char},
      text.drop (text.takeWhile p).length = c :: part → text = text.takeWhile p ++ c :: part :=
    fun {p _ _} heq => by
      rw [← heq]
      exact (List.prefix_iff_eq_append.mp (List.takeWhile_prefix p)).symm
  simp only [isLexeme, Bool.or_eq_true, decide_eq_true_eq] at h
  rcases h with ((((h | h) | h) | h) | h) | h
  · exact hword h
  · rw [isFraction] at h
    split at h
    · rename_i part heq
      rw [hsplit heq]
      simp only [Bool.and_eq_true] at h
      intro hmem
      rcases List.mem_append.mp hmem with hmem | hmem
      · exact absurd (List.mem_takeWhile_imp hmem) (by decide)
      · rcases List.mem_cons.mp hmem with heq | hmem
        · exact absurd heq (by decide)
        · exact hall h.2 hmem
    · cases h
  · rw [isSized] at h
    split at h
    · rename_i tail heq
      rw [hsplit heq]
      rw [Bool.and_eq_true, isWidth, Bool.or_eq_true] at h
      obtain ⟨hwidth, htail⟩ := h
      intro hmem
      rcases List.mem_append.mp hmem with hmem | hmem
      · rcases hwidth with hwidth | hwidth
        · exact hword hwidth hmem
        · rw [Bool.and_eq_true, Bool.and_eq_true, decide_eq_true_iff] at hwidth
          obtain ⟨⟨hfront, -⟩, hname⟩ := hwidth
          rw [← List.take_append_drop 7 (text.takeWhile _), hfront] at hmem
          rcases List.mem_append.mp hmem with hmem | hmem
          · exact absurd hmem (by decide)
          · exact hall hname hmem
      · rcases List.mem_cons.mp hmem with heq | hmem
        · exact absurd heq (by decide)
        · exact absurd (List.all_eq_true.mp htail _ hmem) (by decide)
    · cases h
  · obtain ⟨entry, hentry, htext⟩ := List.any_eq_true.mp h
    rw [← of_decide_eq_true htext]
    exact (by decide : ∀ entry ∈ operators, ' ' ∉ entry.2.toList) entry hentry
  · rw [h]
    decide
  · rw [h]
    decide

/-- Behind a token the text ends, or there is a blank, or no longer lexeme begins. -/
def Free (text after : List Char) : Prop :=
  after = [] ∨ after.head? = some ' ' ∨ Splits text after

theorem Free.endsWord {text after : List Char} (h : Free text after) :
    endsWord text after = true := by
  rcases h with rfl | h | h
  · exact endsWord_of_ahead rfl
  · exact endsWord_of_ahead (by rw [wordAhead, h]; decide)
  · exact h.1

theorem Free.no_longer {text after more rest : List Char} (h : Free text after)
    (hafter : after = more ++ rest) (hmore : more ≠ []) (hlexeme : isLexeme (text ++ more) = true)
    (hends : JzHdl.endsWord (text ++ more) rest = true) : False := by
  have hpos : 0 < more.length := List.length_pos_iff.mpr hmore
  rcases h with rfl | h | h
  · exact hmore (List.append_eq_nil_iff.mp hafter.symm).1
  · refine space_not_mem hlexeme (List.mem_append_right _ ?_)
    rw [hafter, List.head?_append_of_ne_nil _ hmore] at h
    exact List.mem_of_mem_head? h
  · have htext : text ++ after = (text ++ more) ++ rest := by rw [hafter, List.append_assoc]
    have hnone := h.2 (text ++ more).length (by rw [htext]; simp) (by simp; omega)
    rw [htext, List.take_left, List.drop_left, hlexeme, hends] at hnone
    cases hnone

theorem Free.word {text after : List Char} (h : Free text after) (hword : isWord text = true) :
    after.takeWhile isIdentifierChar = [] := by
  by_contra hne
  refine h.no_longer (List.takeWhile_append_dropWhile (p := isIdentifierChar)).symm hne
    (isLexeme_word (isWord_append hword fun c hc => List.mem_takeWhile_imp hc)) ?_
  exact endsWord_of_ahead (wordAhead_dropWhile after)

theorem Free.tick {text after more : List Char} (h : Free text after)
    (hwidth : isWidth text = true) : after ≠ '\'' :: more := by
  intro hafter
  refine @Free.no_longer text after ('\'' :: more.takeWhile isLiteralChar)
    (more.dropWhile isLiteralChar) h ?_ (List.cons_ne_nil _ _)
    (isLexeme_sized (isSized_of hwidth fun c hc => List.mem_takeWhile_imp hc))
    (endsWord_of_ahead (wordAhead_dropLiteral more))
  rw [List.cons_append, List.takeWhile_append_dropWhile, hafter]

theorem Free.number {text after : List Char} (h : Free text after) (hword : isWord text = true) :
    after.takeWhile isLiteralChar = [] := by
  cases after with
  | nil => rfl
  | cons c after =>
    have hchar : isIdentifierChar c = false := by
      by_contra hc
      have hnil := h.word hword
      rw [List.takeWhile_cons_of_pos (by simpa using hc)] at hnil
      cases hnil
    have htick : c ≠ '\'' := by
      rintro rfl
      exact h.tick (by rw [isWidth, hword, Bool.true_or]) rfl
    exact List.takeWhile_cons_of_neg (by simp [isLiteralChar, hchar, htick])

theorem Free.point {text after more : List Char} {d : Char} (h : Free text after)
    (hwhole : ∀ c ∈ text, isIdentifierChar c = true) (hstart : startsDigit text = true)
    (hd : d.isDigit = true) : after ≠ '.' :: d :: more := by
  intro hafter
  have hdword : isIdentifierChar d = true := by
    rw [isIdentifierChar, Char.isAlphanum, hd, Bool.or_true, Bool.true_or]
  refine @Free.no_longer text after ('.' :: d :: more.takeWhile isIdentifierChar)
    (more.dropWhile isIdentifierChar) h ?_ (List.cons_ne_nil _ _)
    (isLexeme_fraction (isFraction_of hwhole hstart hd ?_))
    (endsWord_of_ahead (wordAhead_dropWhile more))
  · rw [List.cons_append, List.cons_append, List.takeWhile_append_dropWhile, hafter]
  · intro c hc
    rcases List.mem_cons.mp hc with rfl | hc
    · exact hdword
    · exact List.mem_takeWhile_imp hc

theorem Free.config {after name more : List Char} (h : Free "CONFIG".toList after)
    (hne : name ≠ []) (hname : ∀ c ∈ name, isIdentifierChar c = true) :
    after ≠ '.' :: (name ++ '\'' :: more) := by
  intro hafter
  have hwidth : isWidth ("CONFIG".toList ++ '.' :: name) = true := by
    have hdrop : ("CONFIG".toList ++ '.' :: name).drop 7 = name := rfl
    have htake : ("CONFIG".toList ++ '.' :: name).take 7 = "CONFIG.".toList := rfl
    rw [isWidth, hdrop, htake, decide_eq_true rfl, decide_eq_true hne,
      List.all_eq_true.mpr hname]
    simp
  have hshape : isSized ("CONFIG".toList ++ ('.' :: (name ++ '\'' ::
      more.takeWhile isLiteralChar))) = true := by
    have hsized := isSized_of hwidth fun c (hc : c ∈ more.takeWhile isLiteralChar) =>
      List.mem_takeWhile_imp hc
    rwa [List.append_assoc] at hsized
  refine @Free.no_longer _ after ('.' :: (name ++ '\'' :: more.takeWhile isLiteralChar))
    (more.dropWhile isLiteralChar) h ?_ (List.cons_ne_nil _ _) (isLexeme_sized hshape)
    (endsWord_of_ahead (wordAhead_dropLiteral more))
  rw [hafter, List.cons_append, List.append_assoc, List.cons_append,
    List.takeWhile_append_dropWhile]

/-- A longer operator does not begin where a shorter one is found. -/
theorem Free.operator {text after more rest : List Char} (h : Free text after)
    {type : JZTokenType} {longer : String} (hmem : (type, longer) ∈ operators)
    (hafter : after = more ++ rest) (hmore : more ≠ []) (htext : text ++ more = longer.toList) :
    JzHdl.endsWord longer.toList rest = false := by
  by_contra hends
  refine h.no_longer hafter hmore (by rw [htext]; exact isLexeme_operator hmem) ?_
  rw [htext]
  simpa using hends

/-! ## One token -/

/-- A step emits the token, and the text behind the token is left. -/
def Emits (st : LexerState) (type : JZTokenType) (lexeme after : List Char) : Prop :=
  ∃ (next : LexerState) (loc : JZLocation) (num : Option JZNumericInfo),
    lexOneToken st = emitToken next type lexeme loc num ∧ next.rest = after ∧
      next.out = st.out ∧ next.stopLexing = false

theorem consume_rest {st : LexerState} {text after : List Char} (h : st.rest = text ++ after) :
    (st.consume text.length).rest = after := by
  rw [LexerState.consume, h, List.drop_left]

theorem skipBlanks_eq {st : LexerState} {fuel : ℕ} {c : Char} {tail : List Char}
    (h : st.rest = c :: tail) (hblank : c ≠ ' ' ∧ c ≠ '\t' ∧ c ≠ '\r' ∧ c ≠ '\n')
    (hcomment : c = '/' → tail.head? ≠ some '/' ∧ tail.head? ≠ some '*') :
    skipBlanks (fuel + 1) st = (st, true) := by
  obtain ⟨h₁, h₂, h₃, h₄⟩ := hblank
  rw [skipBlanks, h]
  dsimp only
  rw [if_neg (by simp [h₁, h₂, h₃, h₄]), if_neg fun hc => (hcomment hc.1).1 hc.2,
    if_neg fun hc => (hcomment hc.1).2 hc.2]

/-- The next character is not a blank and does not open a comment. -/
def TokenHead (c : Char) (tail : List Char) : Prop :=
  (c ≠ ' ' ∧ c ≠ '\t' ∧ c ≠ '\r' ∧ c ≠ '\n') ∧
    (c = '/' → tail.head? ≠ some '/' ∧ tail.head? ≠ some '*')

/-- One blank in front of a token changes nothing. -/
theorem emits_gap {st : LexerState} {type : JZTokenType} {lexeme after : List Char} {c : Char}
    {tail : List Char} (hgap : st.rest = ' ' :: c :: tail) (hstop : st.stopLexing = false)
    (hhead : TokenHead c tail) (h : Emits (st.consume 1) type lexeme after) :
    Emits st type lexeme after := by
  obtain ⟨next, loc, num, hstep, hrest, hout, hnextStop⟩ := h
  refine ⟨next, loc, num, ?_, hrest, hout, hnextStop⟩
  rw [← hstep]
  have hnext : (st.consume 1).rest = c :: tail := by
    rw [LexerState.consume, hgap]
    rfl
  have hskip : skipBlanks (st.rest.length + 1) st = (st.consume 1, true) := by
    rw [skipBlanks, hgap]
    dsimp only
    rw [if_pos (.inl rfl), List.length_cons, skipBlanks_eq hnext hhead.1 hhead.2]
  have hskip' : skipBlanks ((st.consume 1).rest.length + 1) (st.consume 1) =
      (st.consume 1, true) := skipBlanks_eq hnext hhead.1 hhead.2
  rw [lexOneToken, lexOneToken, hskip, hskip', hstop,
    show (st.consume 1).stopLexing = st.stopLexing from rfl, hstop, if_neg Bool.false_ne_true,
    if_neg Bool.false_ne_true]

/-- The branch of a step is chosen by the first character. -/
theorem lexOneToken_eq {st : LexerState} {c : Char} {tail : List Char} (h : st.rest = c :: tail)
    (hstop : st.stopLexing = false) (hhead : TokenHead c tail) :
    lexOneToken st =
      if c = '"' then lexString st tail
      else if isIdentifierStart c ∨ c = '@' then lexWord st c tail
      else if c = '\'' then
        (st.report st.loc "LIT_UNSIZED" "unsized literal (e.g. 'hFF) is not permitted").consume 1
      else if c.isDigit then lexNumber st
      else lexOperator st c tail := by
  rw [lexOneToken, hstop, if_neg Bool.false_ne_true, skipBlanks_eq h hhead.1 hhead.2]
  dsimp only
  rw [h]

theorem emits_consume {st : LexerState} {text lexeme after : List Char} (type : JZTokenType)
    (loc : JZLocation) (num : Option JZNumericInfo) (h : st.rest = text ++ after)
    (hstop : st.stopLexing = false)
    (hstep : lexOneToken st = emitToken (st.consume text.length) type lexeme loc num) :
    Emits st type lexeme after :=
  ⟨st.consume text.length, loc, num, hstep, consume_rest h, rfl, hstop⟩

theorem parseNumeric_plain {text : List Char} (h : '\'' ∉ text) :
    parseNumericLiteral text = .ok none := by
  have htake : text.takeWhile (· ≠ '\'') = text :=
    List.takeWhile_eq_self_iff.mpr fun c hc => decide_eq_true fun hc' => h (hc' ▸ hc)
  rw [parseNumericLiteral, htake, List.drop_length]

theorem takeWhile_append_stop {p : Char → Bool} {text after : List Char}
    (htext : ∀ c ∈ text, p c = true) (hafter : after.takeWhile p = []) :
    (text ++ after).takeWhile p = text := by
  rw [List.takeWhile_append_of_pos htext, hafter, List.append_nil]

section

variable {st : LexerState} {after : List Char}

theorem isIdentifierChar_start {c : Char} (h : isIdentifierStart c = true) :
    isIdentifierChar c = true := by
  rw [isIdentifierStart, Bool.or_eq_true] at h
  rw [isIdentifierChar, Char.isAlphanum, Bool.or_eq_true, Bool.or_eq_true]
  exact h.imp_left .inl

theorem lexOneToken_word {c : Char} {tail : List Char} (hc : isIdentifierStart c = true ∨ c = '@')
    (hst : st.rest = c :: tail) (hstop : st.stopLexing = false) :
    lexOneToken st = lexWord st c tail := by
  have hplain : ∀ x, isIdentifierStart x = false → x ≠ '@' → c ≠ x := by
    rintro x hx hat rfl
    rcases hc with hc | hc
    · rw [hc] at hx
      cases hx
    · exact hat hc
  have hhead : TokenHead c tail :=
    ⟨⟨hplain _ (by decide) (by decide), hplain _ (by decide) (by decide),
      hplain _ (by decide) (by decide), hplain _ (by decide) (by decide)⟩,
      fun h => absurd h (hplain _ (by decide) (by decide))⟩
  rw [lexOneToken_eq hst hstop hhead, if_neg (hplain _ (by decide) (by decide)), if_pos hc]

theorem emits_word {c : Char} {rest : List Char} (hc : isIdentifierStart c = true ∨ c = '@')
    (hrest : ∀ d ∈ rest, isIdentifierChar d = true) (hst : st.rest = c :: rest ++ after)
    (hstop : st.stopLexing = false) (hfree : Free (c :: rest) after) :
    Emits st ((matchKeyword (c :: rest)).getD .identifier) (c :: rest) after := by
  have hword : isWord (c :: rest) = true := by
    rw [isWord, Bool.and_eq_true, Bool.or_eq_true, decide_eq_true_iff, List.all_eq_true]
    exact ⟨hc.imp_left isIdentifierChar_start, hrest⟩
  have htake : (rest ++ after).takeWhile isIdentifierChar = rest :=
    takeWhile_append_stop hrest (hfree.word hword)
  have hdrop : st.rest.drop (c :: rest).length = after := by rw [hst, List.drop_left]
  have hwidth : widthName (c :: rest) after = c :: rest := by
    unfold widthName
    split
    · rename_i more
      refine if_neg fun h => ?_
      obtain ⟨hconfig, hne, htick⟩ := h
      rw [hconfig] at hfree
      have hsplit := List.prefix_iff_eq_append.mp
        (List.takeWhile_prefix isIdentifierChar (l := more))
      obtain ⟨tail, htail⟩ := List.head?_eq_some_iff.mp htick
      rw [htail] at hsplit
      exact hfree.config hne (fun c hc => List.mem_takeWhile_imp hc)
        (congrArg ('.' :: ·) hsplit.symm)
    · rfl
  have hcons : st.rest = c :: (rest ++ after) := hst
  refine emits_consume _ st.loc none hst hstop ?_
  rw [lexOneToken_word hc hcons hstop, lexWord, htake]
  rw [hdrop, hwidth, hdrop]
  split
  · rename_i more
    exact absurd rfl (hfree.tick (by rw [isWidth, hword, Bool.true_or]))
  · rfl

theorem isIdentifierStart_digit {d : Char} (h : d.isDigit = true) :
    isIdentifierStart d = false := by
  rw [Char.isDigit, Bool.and_eq_true, decide_eq_true_iff, decide_eq_true_iff] at h
  rw [isIdentifierStart, Char.isAlpha, Char.isUpper, Char.isLower]
  simp only [ge_iff_le, UInt32.le_iff_toNat_le] at h
  have hunder : d ≠ '_' := by
    rintro rfl
    exact absurd h.2 (by decide)
  simp only [Bool.or_eq_false_iff, Bool.and_eq_false_iff, decide_eq_false_iff_not, ge_iff_le,
    UInt32.le_iff_toNat_le]
  have hzero : '0'.val.toNat = 48 := rfl
  have hnine : '9'.val.toNat = 57 := rfl
  have hupper : 'A'.val.toNat = 65 := rfl
  have hlower : 'a'.val.toNat = 97 := rfl
  exact ⟨⟨by omega, by omega⟩, hunder⟩

/-- A digit leads to the branch for numbers. -/
theorem lexOneToken_digit {d : Char} {tail : List Char} (hd : d.isDigit = true)
    (hst : st.rest = d :: tail) (hstop : st.stopLexing = false) :
    lexOneToken st = lexNumber st := by
  have hplain : ∀ x : Char, x.isDigit = false → d ≠ x := by
    rintro x hx rfl
    rw [hd] at hx
    cases hx
  have hhead : TokenHead d tail :=
    ⟨⟨hplain _ (by decide), hplain _ (by decide), hplain _ (by decide), hplain _ (by decide)⟩,
      fun h => absurd h (hplain _ (by decide))⟩
  have hstart : ¬ (isIdentifierStart d = true ∨ d = '@') := by
    rw [isIdentifierStart_digit hd]
    simp [hplain '@' (by decide)]
  rw [lexOneToken_eq hst hstop hhead, if_neg (hplain _ (by decide)), if_neg hstart,
    if_neg (hplain _ (by decide)), if_pos hd]

theorem isIdentifierChar_digit {d : Char} (hd : d.isDigit = true) : isIdentifierChar d = true := by
  rw [isIdentifierChar, Char.isAlphanum, hd, Bool.or_true, Bool.true_or]

theorem isLiteralChar_of {c : Char} (h : isIdentifierChar c = true) : isLiteralChar c = true := by
  rw [isLiteralChar, h, Bool.true_or]

theorem tick_not_mem_of {text : List Char} (h : ∀ c ∈ text, isIdentifierChar c = true) :
    '\'' ∉ text := fun hmem => absurd (h _ hmem) (by decide)

theorem emits_number {d : Char} {rest : List Char} (hd : d.isDigit = true)
    (hrest : ∀ c ∈ rest, isIdentifierChar c = true) (hst : st.rest = d :: rest ++ after)
    (hstop : st.stopLexing = false) (hfree : Free (d :: rest) after) :
    Emits st .number (d :: rest) after := by
  have hall : ∀ c ∈ d :: rest, isIdentifierChar c = true :=
    List.forall_mem_cons.mpr ⟨isIdentifierChar_digit hd, hrest⟩
  have hword : isWord (d :: rest) = true := by
    rw [isWord, isIdentifierChar_digit hd, Bool.true_or, Bool.true_and, List.all_eq_true]
    exact hrest
  have htake : st.rest.takeWhile isLiteralChar = d :: rest := by
    rw [hst]
    exact takeWhile_append_stop (fun c hc => isLiteralChar_of (hall c hc)) (hfree.number hword)
  have hplain : lexNumeric st (d :: rest) =
      emitToken (st.consume (d :: rest).length) .number (d :: rest) st.loc none := by
    rw [lexNumeric, parseNumeric_plain (tick_not_mem_of hall)]
  refine emits_consume _ st.loc none hst hstop ?_
  rw [lexOneToken_digit hd hst hstop, lexNumber, htake]
  dsimp only
  rw [hst, List.drop_left]
  split
  · rename_i e more
    have he : e.isDigit = false := by
      by_contra hdigit
      exact hfree.point hall hd (by simpa using hdigit) rfl
    rw [he, Bool.false_and, if_neg Bool.false_ne_true, hplain]
  · rw [hplain]

theorem emits_fraction {d e : Char} {whole part : List Char} (hd : d.isDigit = true)
    (hwhole : ∀ c ∈ whole, isIdentifierChar c = true) (he : e.isDigit = true)
    (hpart : ∀ c ∈ part, c.isDigit = true)
    (hst : st.rest = d :: whole ++ '.' :: e :: part ++ after) (hstop : st.stopLexing = false)
    (hfree : Free (d :: whole ++ '.' :: e :: part) after) :
    Emits st .number (d :: whole ++ '.' :: e :: part) after := by
  have hall : ∀ c ∈ d :: whole, isIdentifierChar c = true :=
    List.forall_mem_cons.mpr ⟨isIdentifierChar_digit hd, hwhole⟩
  have hsplit : st.rest = (d :: whole) ++ '.' :: e :: (part ++ after) := by
    rw [hst, List.append_assoc]
    rfl
  have htake : st.rest.takeWhile isLiteralChar = d :: whole := by
    rw [hsplit]
    refine takeWhile_append_stop (fun c hc => isLiteralChar_of (hall c hc)) ?_
    exact List.takeWhile_cons_of_neg (by decide)
  have hstopDigit : after.takeWhile Char.isDigit = [] := by
    cases after with
    | nil => rfl
    | cons c after =>
      refine List.takeWhile_cons_of_neg fun hc => ?_
      have hends := hfree.endsWord
      have hlast : (d :: whole ++ '.' :: e :: part).getLast?.elim false isIdentifierChar = true := by
        obtain ⟨x, hx⟩ := Option.isSome_iff_exists.mp
          (List.getLast?_isSome.mpr (List.cons_ne_nil e part))
        have hmem := List.mem_of_mem_getLast? hx
        rw [show d :: whole ++ '.' :: e :: part = (d :: whole ++ ['.']) ++ e :: part by simp,
          List.getLast?_append_of_ne_nil _ (List.cons_ne_nil e part), hx]
        rcases List.mem_cons.mp hmem with rfl | hmem
        · exact isIdentifierChar_digit he
        · exact isIdentifierChar_digit (hpart x hmem)
      rw [endsWord, hlast, wordAhead, List.head?_cons, Option.elim_some,
        isIdentifierChar_digit hc] at hends
      cases hends
  have hdigits : (e :: (part ++ after)).takeWhile Char.isDigit = e :: part :=
    takeWhile_append_stop (List.forall_mem_cons.mpr ⟨he, hpart⟩) hstopDigit
  refine emits_consume _ st.loc none hst hstop ?_
  rw [lexOneToken_digit hd hsplit hstop, lexNumber, htake, hsplit, List.drop_left]
  change (if e.isDigit && !(d :: whole).contains '\'' then
    emitToken (st.consume (d :: whole ++ '.' :: (e :: (part ++ after)).takeWhile Char.isDigit).length)
      .number (d :: whole ++ '.' :: (e :: (part ++ after)).takeWhile Char.isDigit) st.loc none
    else lexNumeric st (d :: whole)) = _
  have htick : (d :: whole).contains '\'' = false := by
    simpa using tick_not_mem_of hall
  rw [he, htick, Bool.not_false, Bool.true_and, if_pos rfl, hdigits]

theorem sized_value_ne_nil {width value : List Char} {info : JZNumericInfo}
    (hwidth : isWidth width = true)
    (hparse : parseNumericLiteral (width ++ '\'' :: value) = .ok (some info)) : value ≠ [] := by
  rintro rfl
  have htake : (width ++ ['\'']).takeWhile (· ≠ '\'') = width := by
    rw [List.takeWhile_append_of_pos, List.takeWhile_cons_of_neg (by decide), List.append_nil]
    exact fun c hc => decide_eq_true fun h => tick_not_mem hwidth (h ▸ hc)
  rw [parseNumericLiteral, htake, List.drop_left] at hparse
  dsimp only at hparse
  split at hparse <;> cases hparse

theorem sized_follow {width value : List Char} (hwidth : isWidth width = true)
    (hvalue : ∀ c ∈ value, isIdentifierChar c = true) (hne : value ≠ [])
    (hfree : Free (width ++ '\'' :: value) after) : after.takeWhile isLiteralChar = [] := by
  cases after with
  | nil => rfl
  | cons c after =>
    have hchar : isIdentifierChar c = false := by
      by_contra hc
      have hends := hfree.endsWord
      have hlast : (width ++ '\'' :: value).getLast?.elim false isIdentifierChar = true := by
        obtain ⟨x, hx⟩ := Option.isSome_iff_exists.mp (List.getLast?_isSome.mpr hne)
        rw [show width ++ '\'' :: value = (width ++ ['\'']) ++ value by simp,
          List.getLast?_append_of_ne_nil _ hne, hx]
        exact hvalue x (List.mem_of_mem_getLast? hx)
      rw [endsWord, hlast, wordAhead, List.head?_cons, Option.elim_some,
        show isIdentifierChar c = true by simpa using hc] at hends
      cases hends
    have htick : c ≠ '\'' := by
      rintro rfl
      have hall : ∀ c ∈ value ++ '\'' :: after.takeWhile isLiteralChar, isLiteralChar c = true := by
        intro c hc
        rcases List.mem_append.mp hc with hc | hc
        · exact isLiteralChar_of (hvalue c hc)
        · rcases List.mem_cons.mp hc with rfl | hc
          · decide
          · exact List.mem_takeWhile_imp hc
      have hsized := isSized_of hwidth hall
      refine @Free.no_longer _ _ ('\'' :: after.takeWhile isLiteralChar)
        (after.dropWhile isLiteralChar) hfree ?_ (List.cons_ne_nil _ _) (isLexeme_sized ?_)
        (endsWord_of_ahead (wordAhead_dropLiteral after))
      · rw [List.cons_append, List.takeWhile_append_dropWhile]
      · rwa [List.append_assoc]
    exact List.takeWhile_cons_of_neg (by simp [isLiteralChar, hchar, htick])

/-- A width that is a name, or a field of the configuration, is found in front of the quote. -/
theorem lexWord_sized {c : Char} {tail width value : List Char}
    (hst : st.rest = width ++ '\'' :: (value ++ after))
    (hvalue : ∀ c ∈ value, isIdentifierChar c = true)
    (hfollow : after.takeWhile isLiteralChar = [])
    (hname : widthName (c :: tail.takeWhile isIdentifierChar)
      (st.rest.drop (c :: tail.takeWhile isIdentifierChar).length) = width) :
    lexWord st c tail = lexNumeric st (width ++ '\'' :: value) := by
  rw [lexWord, hname, hst, List.drop_left]
  change lexNumeric st (width ++ '\'' :: (value ++ after).takeWhile isLiteralChar) = _
  rw [takeWhile_append_stop (fun c hc => isLiteralChar_of (hvalue c hc)) hfollow]

theorem emits_sized {width value : List Char} {info : JZNumericInfo}
    (hwidth : isWidth width = true) (hvalue : ∀ c ∈ value, isIdentifierChar c = true)
    (hparse : parseNumericLiteral (width ++ '\'' :: value) = .ok (some info))
    (hst : st.rest = width ++ '\'' :: value ++ after) (hstop : st.stopLexing = false)
    (hfree : Free (width ++ '\'' :: value) after) :
    Emits st .sizedNumber (width ++ '\'' :: value) after := by
  have hfollow := sized_follow hwidth hvalue (sized_value_ne_nil hwidth hparse) hfree
  have hnumeric : lexNumeric st (width ++ '\'' :: value) =
      emitToken (st.consume (width ++ '\'' :: value).length) .sizedNumber
        (width ++ '\'' :: value) st.loc (some info) := by
    rw [lexNumeric, hparse]
  have hsplit : st.rest = width ++ '\'' :: (value ++ after) := by
    rw [hst, List.append_assoc]
    rfl
  refine emits_consume _ st.loc (some info) hst hstop ?_
  rw [← hnumeric]
  have hstartWord : ∀ {c : Char} {tail : List Char}, st.rest = c :: tail →
      isIdentifierStart c = true ∨ c = '@' →
      widthName (c :: tail.takeWhile isIdentifierChar)
        (st.rest.drop (c :: tail.takeWhile isIdentifierChar).length) = width →
      lexOneToken st = lexNumeric st (width ++ '\'' :: value) := by
    intro c tail hcons hc hname
    rw [lexOneToken_word hc hcons hstop]
    exact lexWord_sized hsplit hvalue hfollow hname
  rcases Bool.or_eq_true_iff.mp hwidth with hword | hconfig
  · cases width with
    | nil => cases hword
    | cons c word =>
      rw [isWord, Bool.and_eq_true] at hword
      obtain ⟨hc, hchars⟩ := hword
      rw [List.all_eq_true] at hchars
      have hcons : st.rest = c :: (word ++ '\'' :: (value ++ after)) := hsplit
      by_cases hd : c.isDigit = true
      · have hall : ∀ x ∈ c :: word ++ '\'' :: value, isLiteralChar x = true := by
          intro x hx
          rcases List.mem_append.mp hx with hx | hx
          · rcases List.mem_cons.mp hx with rfl | hx
            · exact isLiteralChar_of (isIdentifierChar_digit hd)
            · exact isLiteralChar_of (hchars x hx)
          · rcases List.mem_cons.mp hx with rfl | hx
            · decide
            · exact isLiteralChar_of (hvalue x hx)
        have htake : st.rest.takeWhile isLiteralChar = c :: word ++ '\'' :: value := by
          rw [hst]
          exact takeWhile_append_stop hall hfollow
        have htick : (c :: word ++ '\'' :: value).contains '\'' = true := by simp
        rw [lexOneToken_digit hd hcons hstop, lexNumber, htake]
        dsimp only
        split
        · rw [htick, Bool.not_true, Bool.and_false, if_neg Bool.false_ne_true]
        · rfl
      · have hstart : isIdentifierStart c = true ∨ c = '@' := by
          rw [Bool.or_eq_true, decide_eq_true_iff] at hc
          refine hc.imp_left fun hc => ?_
          rw [isIdentifierChar, Char.isAlphanum, Bool.or_eq_true, Bool.or_eq_true] at hc
          rw [isIdentifierStart, Bool.or_eq_true]
          exact hc.imp_left fun h => h.resolve_right hd
        have htake : (word ++ '\'' :: (value ++ after)).takeWhile isIdentifierChar = word :=
          takeWhile_append_stop hchars (List.takeWhile_cons_of_neg (by decide))
        refine hstartWord hcons hstart ?_
        rw [htake, hsplit, List.drop_left]
        rfl
  · rw [Bool.and_eq_true, Bool.and_eq_true, decide_eq_true_iff, decide_eq_true_iff,
      List.all_eq_true] at hconfig
    obtain ⟨⟨hfront, hne⟩, hname⟩ := hconfig
    obtain ⟨name, rfl⟩ : ∃ name, width = "CONFIG".toList ++ '.' :: name := by
      refine ⟨width.drop 7, ?_⟩
      conv_lhs => rw [← List.take_append_drop 7 width, hfront]
      rfl
    have hcons : st.rest = 'C' :: ("ONFIG".toList ++ '.' :: (name ++ '\'' :: (value ++ after))) := by
      rw [hsplit]
      simp
    refine hstartWord hcons (by decide) ?_
    have htake : ("ONFIG".toList ++ '.' :: (name ++ '\'' :: (value ++ after))).takeWhile
        isIdentifierChar = "ONFIG".toList :=
      takeWhile_append_stop (by decide) (List.takeWhile_cons_of_neg (by decide))
    have hnameTake : (name ++ '\'' :: (value ++ after)).takeWhile isIdentifierChar = name :=
      takeWhile_append_stop hname (List.takeWhile_cons_of_neg (by decide))
    have hdrop : st.rest.drop ('C' :: "ONFIG".toList).length =
        '.' :: (name ++ '\'' :: (value ++ after)) := by
      rw [hcons]
      rfl
    rw [htake, hdrop]
    change (if _ then _ else _) = _
    rw [hnameTake, if_pos ⟨rfl, hne, by rw [List.drop_left]; rfl⟩]
    rfl

theorem emits_string {content : List Char} (h : '"' ∉ content)
    (hst : st.rest = '"' :: content ++ ['"'] ++ after) (hstop : st.stopLexing = false) :
    Emits st .string (decodeString content) after := by
  have hcons : st.rest = '"' :: (content ++ '"' :: after) := by
    rw [hst]
    simp
  have htake : (content ++ '"' :: after).takeWhile (· ≠ '"') = content := by
    refine takeWhile_append_stop (fun c hc => decide_eq_true ?_)
      (List.takeWhile_cons_of_neg (by decide))
    rintro rfl
    exact h hc
  refine emits_consume .string st.loc none hst hstop ?_
  rw [lexOneToken_eq hcons hstop ⟨by decide, fun h => absurd h (by decide)⟩, if_pos rfl, lexString,
    htake, if_neg (by simp)]
  simp

/-! ## Operators -/

/-- A character that completes a longer operator does not follow. -/
theorem Free.no_head {text : List Char} {x : Char} (h : Free text after)
    (longer : JZTokenType × String) (hmem : longer ∈ operators)
    (htext : text ++ [x] = longer.2.toList)
    (hends : ∀ rest, JzHdl.endsWord longer.2.toList rest = true) : after.head? ≠ some x := by
  intro hhead
  obtain ⟨rest, rfl⟩ := List.head?_eq_some_iff.mp hhead
  have hfalse := @Free.operator text (x :: rest) [x] rest h longer.1 longer.2 hmem rfl
    (List.cons_ne_nil _ _) htext
  rw [hends] at hfalse
  cases hfalse

/-- A letter that completes a suffix is the beginning of a longer word. -/
theorem Free.suffix {text rest : List Char} {x : Char} (h : Free text (x :: rest))
    (longer : JZTokenType × String) (hmem : longer ∈ operators)
    (htext : text ++ [x] = longer.2.toList) (hx : isIdentifierChar x = true) :
    wordAhead rest = true := by
  have hfalse := @Free.operator text (x :: rest) [x] rest h longer.1 longer.2 hmem rfl
    (List.cons_ne_nil _ _) htext
  rw [JzHdl.endsWord, ← htext, List.getLast?_append_of_ne_nil _ (List.cons_ne_nil _ _),
    List.getLast?_singleton, Option.elim_some, hx, Bool.true_and, Bool.not_eq_false'] at hfalse
  exact hfalse

theorem operatorEquals_assign (h : Free ['='] after) :
    operatorEquals after = (.opAssign, "=") := by
  have heq : after.head? ≠ some '=' :=
    h.no_head (.opEq, "==") (by decide) rfl fun _ => rfl
  have hdrive : after.head? ≠ some '>' :=
    h.no_head (.opDrive, "=>") (by decide) rfl fun _ => rfl
  unfold operatorEquals
  split
  · exact absurd rfl heq
  · exact absurd rfl hdrive
  · exact absurd rfl hdrive
  · exact absurd rfl hdrive
  · exact if_pos (h.suffix (.opAssignZ, "=z") (by decide) rfl rfl)
  · exact if_pos (h.suffix (.opAssignS, "=s") (by decide) rfl rfl)
  · rfl

theorem operatorEquals_drive (h : Free ['=', '>'] after) :
    operatorEquals ('>' :: after) = (.opDrive, "=>") := by
  unfold operatorEquals
  split
  · rename_i heq
    exact absurd (List.cons.inj heq).1 (by decide)
  · rename_i rest heq
    obtain rfl := (List.cons.inj heq).2
    exact if_pos (h.suffix (.opDriveZ, "=>z") (by decide) rfl rfl)
  · rename_i rest heq
    obtain rfl := (List.cons.inj heq).2
    exact if_pos (h.suffix (.opDriveS, "=>s") (by decide) rfl rfl)
  · rfl
  · rename_i heq
    exact absurd (List.cons.inj heq).1 (by decide)
  · rename_i heq
    exact absurd (List.cons.inj heq).1 (by decide)
  · rename_i hnone _ _
    exact absurd rfl (hnone _)

theorem operatorLess_lt (h : Free ['<'] after) : operatorLess after = (.opLt, "<") := by
  have hshl : after.head? ≠ some '<' :=
    h.no_head (.opShl, "<<") (by decide) rfl fun _ => rfl
  have hle : after.head? ≠ some '=' :=
    h.no_head (.opLe, "<=") (by decide) rfl fun _ => rfl
  unfold operatorLess
  split
  · exact absurd rfl hshl
  · exact absurd rfl hle
  · exact absurd rfl hle
  · exact absurd rfl hle
  · rfl

theorem operatorLess_le (hz : after.head? ≠ some 'z') (hs : after.head? ≠ some 's') :
    operatorLess ('=' :: after) = (.opLe, "<=") := by
  unfold operatorLess
  split
  · rename_i heq
    exact absurd (List.cons.inj heq).1 (by decide)
  · rename_i heq
    exact absurd (by rw [(List.cons.inj heq).2]; rfl) hz
  · rename_i heq
    exact absurd (by rw [(List.cons.inj heq).2]; rfl) hs
  · rfl
  · rename_i hnone
    exact absurd rfl (hnone _)

theorem operatorGreater_gt (h : Free ['>'] after) : operatorGreater after = (.opGt, ">") := by
  have hshr : after.head? ≠ some '>' :=
    h.no_head (.opShr, ">>") (by decide) rfl fun _ => rfl
  have hge : after.head? ≠ some '=' :=
    h.no_head (.opGe, ">=") (by decide) rfl fun _ => rfl
  unfold operatorGreater
  split
  · exact absurd rfl hshr
  · exact absurd rfl hshr
  · exact absurd rfl hge
  · rfl

theorem operatorGreater_shr (h : Free ['>', '>'] after) :
    operatorGreater ('>' :: after) = (.opShr, ">>") := by
  have hashr : after.head? ≠ some '>' :=
    h.no_head (.opAshr, ">>>") (by decide) rfl fun _ => rfl
  unfold operatorGreater
  split
  · rename_i heq
    exact absurd (by rw [(List.cons.inj heq).2]; rfl) hashr
  · rfl
  · rename_i heq
    exact absurd (List.cons.inj heq).1 (by decide)
  · rename_i hnone _
    exact absurd rfl (hnone _)

theorem Free.no_comment {after : List Char} (hfree : Free ['/'] after) {c : Char}
    (hc : c = '/' ∨ c = '*') : after.head? ≠ some c := by
  intro hhead
  obtain ⟨rest, rfl⟩ := List.head?_eq_some_iff.mp hhead
  rcases hc with rfl | rfl
  · exact @Free.no_longer _ _ ['/'] rest hfree rfl (List.cons_ne_nil _ _) (by decide) rfl
  · exact @Free.no_longer _ _ ['*'] rest hfree rfl (List.cons_ne_nil _ _) (by decide) rfl

/-- The operator at the front is the one of the token. -/
theorem operatorAt_token {type : JZTokenType} {text : String} (h : (type, text) ∈ operators)
    (hfree : Free text.toList after)
    (hreceive : text = "<=" → after.head? ≠ some 'z' ∧ after.head? ≠ some 's') :
    ∃ c tail, text.toList = c :: tail ∧ operatorAt c (tail ++ after) = some (type, text) ∧
      TokenHead c (tail ++ after) := by
  have hplain : ∀ {c : Char} (tail : List Char), text.toList = c :: tail → c ≠ '/' →
      operatorAt c (tail ++ after) = some (type, text) →
      ∃ c tail, text.toList = c :: tail ∧ operatorAt c (tail ++ after) = some (type, text) ∧
        TokenHead c (tail ++ after) := by
    intro c tail htext hslash hop
    have hblank := (by decide : ∀ entry ∈ operators, ∀ c ∈ entry.2.toList.head?,
      c ≠ ' ' ∧ c ≠ '\t' ∧ c ≠ '\r' ∧ c ≠ '\n') _ h c (by rw [htext]; rfl)
    exact ⟨c, tail, htext, hop, hblank, fun hc => absurd hc hslash⟩
  have hahead : ∀ (word : List Char) {c : Char}, Free (word ++ [c]) after →
      isIdentifierChar c = true → wordAhead after = false := by
    intro word c hfree hc
    have hends := hfree.endsWord
    rw [endsWord, List.getLast?_append_of_ne_nil _ (List.cons_ne_nil _ _), List.getLast?_singleton,
      Option.elim_some, hc, Bool.true_and, Bool.not_eq_true'] at hends
    exact hends
  have hmem := h
  simp only [operators, List.mem_cons, Prod.mk.injEq, List.not_mem_nil, or_false] at h
  rcases h with
      ⟨rfl, rfl⟩ | ⟨rfl, rfl⟩ | ⟨rfl, rfl⟩ | ⟨rfl, rfl⟩ | ⟨rfl, rfl⟩ | ⟨rfl, rfl⟩ | ⟨rfl, rfl⟩ |
      ⟨rfl, rfl⟩ | ⟨rfl, rfl⟩ | ⟨rfl, rfl⟩ | ⟨rfl, rfl⟩ | ⟨rfl, rfl⟩ | ⟨rfl, rfl⟩ | ⟨rfl, rfl⟩ |
      ⟨rfl, rfl⟩ | ⟨rfl, rfl⟩ | ⟨rfl, rfl⟩ | ⟨rfl, rfl⟩ | ⟨rfl, rfl⟩ | ⟨rfl, rfl⟩ | ⟨rfl, rfl⟩ |
      ⟨rfl, rfl⟩ | ⟨rfl, rfl⟩ | ⟨rfl, rfl⟩ | ⟨rfl, rfl⟩ | ⟨rfl, rfl⟩ | ⟨rfl, rfl⟩ | ⟨rfl, rfl⟩ |
      ⟨rfl, rfl⟩ | ⟨rfl, rfl⟩ | ⟨rfl, rfl⟩ | ⟨rfl, rfl⟩ | ⟨rfl, rfl⟩ | ⟨rfl, rfl⟩ | ⟨rfl, rfl⟩ |
      ⟨rfl, rfl⟩ | ⟨rfl, rfl⟩ | ⟨rfl, rfl⟩ | ⟨rfl, rfl⟩ | ⟨rfl, rfl⟩ | ⟨rfl, rfl⟩
  -- The operators that no other one begins with are read off.
  all_goals try exact hplain _ rfl (by decide) rfl
  · exact hplain _ rfl (by decide) (congrArg some (operatorEquals_assign hfree))
  · have hz := hahead ['='] hfree rfl
    exact hplain ['z'] rfl (by decide) (congrArg some (by
      rw [List.singleton_append]
      exact if_neg fun h => Bool.false_ne_true (hz.symm.trans h)))
  · have hs := hahead ['='] hfree rfl
    exact hplain ['s'] rfl (by decide) (congrArg some (by
      rw [List.singleton_append]
      exact if_neg fun h => Bool.false_ne_true (hs.symm.trans h)))
  · exact hplain ['>'] rfl (by decide) (congrArg some (operatorEquals_drive hfree))
  · have hz := hahead ['=', '>'] hfree rfl
    exact hplain ['>', 'z'] rfl (by decide) (congrArg some
      (if_neg fun h => Bool.false_ne_true (hz.symm.trans h)))
  · have hs := hahead ['=', '>'] hfree rfl
    exact hplain ['>', 's'] rfl (by decide) (congrArg some
      (if_neg fun h => Bool.false_ne_true (hs.symm.trans h)))
  · have hcomment := fun c hc => Free.no_comment (c := c) hfree hc
    exact ⟨'/', [], rfl, rfl, by decide, fun _ => ⟨hcomment _ (.inl rfl), hcomment _ (.inr rfl)⟩⟩
  · exact hplain _ rfl (by decide) (congrArg some (if_neg
      (hfree.no_head (.opAndAnd, "&&") (by decide) rfl fun _ => rfl)))
  · exact hplain _ rfl (by decide) (congrArg some (if_neg
      (hfree.no_head (.opOrOr, "||") (by decide) rfl fun _ => rfl)))
  · exact hplain _ rfl (by decide) (congrArg some (if_neg
      (hfree.no_head (.opNeq, "!=") (by decide) rfl fun _ => rfl)))
  · exact hplain _ rfl (by decide) (congrArg some (operatorLess_lt hfree))
  · exact hplain ['='] rfl (by decide) (congrArg some
      (operatorLess_le (hreceive rfl).1 (hreceive rfl).2))
  · exact hplain _ rfl (by decide) (congrArg some (operatorGreater_gt hfree))
  · exact hplain ['>'] rfl (by decide) (congrArg some (operatorGreater_shr hfree))

theorem emits_operator {type : JZTokenType} {text : String} (h : (type, text) ∈ operators)
    (hfree : Free text.toList after)
    (hreceive : text = "<=" → after.head? ≠ some 'z' ∧ after.head? ≠ some 's')
    (hst : st.rest = text.toList ++ after) (hstop : st.stopLexing = false) :
    Emits st type text.toList after := by
  obtain ⟨c, tail, htext, hop, hhead⟩ := operatorAt_token h hfree hreceive
  have hcons : st.rest = c :: (tail ++ after) := by rw [hst, htext, List.cons_append]
  obtain ⟨hquote, hstart, htick, hdigit⟩ := (by decide : ∀ entry ∈ operators,
    ∀ c ∈ entry.2.toList.head?, c ≠ '"' ∧ ¬ (isIdentifierStart c = true ∨ c = '@') ∧ c ≠ '\'' ∧
      ¬ c.isDigit = true) _ h c (by rw [htext]; rfl)
  refine emits_consume type st.loc none hst hstop ?_
  rw [lexOneToken_eq hcons hstop hhead, if_neg hquote, if_neg hstart, if_neg htick, if_neg hdigit,
    lexOperator, hop]

/-- A step takes the token at the front, whatever kind it has. -/
theorem emits_token {token : SourceToken} (hst : st.rest = token.text ++ after)
    (hstop : st.stopLexing = false) (hfree : Free token.text after)
    (hreceive : token.text = receiveText → after.head? ≠ some 'z' ∧ after.head? ≠ some 's') :
    Emits st token.type token.lexeme after := by
  obtain ⟨text, type, lexeme, htoken⟩ := token
  dsimp only at hst hfree hreceive ⊢
  cases htoken with
  | word hc hrest => exact emits_word hc hrest hst hstop hfree
  | number hd hrest => exact emits_number hd hrest hst hstop hfree
  | fraction hd hwhole he hpart => exact emits_fraction hd hwhole he hpart hst hstop hfree
  | sized hwidth hvalue hparse => exact emits_sized hwidth hvalue hparse hst hstop hfree
  | string h => exact emits_string h hst hstop
  | operator h =>
    exact emits_operator h hfree (fun htext => hreceive (by rw [htext]; rfl)) hst hstop

end

/-! ## Heads and types -/

theorem tokenHead_plain {c : Char} {tail : List Char}
    (h : c ∉ [' ', '\t', '\r', '\n', '/']) : TokenHead c tail := by
  simp only [List.mem_cons, List.not_mem_nil, or_false, not_or] at h
  exact ⟨⟨h.1, h.2.1, h.2.2.1, h.2.2.2.1⟩, fun hc => absurd hc h.2.2.2.2⟩

theorem tokenHead_char {c : Char} {tail : List Char} (h : isIdentifierChar c = true ∨ c = '@') :
    TokenHead c tail := by
  refine tokenHead_plain fun hmem => ?_
  have hnone := (by decide : ∀ c ∈ [' ', '\t', '\r', '\n', '/'],
    ¬ (isIdentifierChar c = true ∨ c = '@')) c hmem
  exact hnone h

theorem token_head {token : SourceToken} {after : List Char} (hfree : Free token.text after) :
    ∃ c tail, token.text ++ after = c :: tail ∧ TokenHead c tail := by
  obtain ⟨text, type, lexeme, htoken⟩ := token
  dsimp only at hfree ⊢
  cases htoken with
  | word hc hrest =>
    exact ⟨_, _, rfl, tokenHead_char (hc.imp_left isIdentifierChar_start)⟩
  | number hd hrest => exact ⟨_, _, rfl, tokenHead_char (.inl (isIdentifierChar_digit hd))⟩
  | fraction hd hwhole he hpart =>
    exact ⟨_, _, rfl, tokenHead_char (.inl (isIdentifierChar_digit hd))⟩
  | @sized width _ _ hwidth =>
    rcases Bool.or_eq_true_iff.mp hwidth with hword | hconfig
    · cases width with
      | nil => cases hword
      | cons c word =>
        rw [isWord, Bool.and_eq_true, Bool.or_eq_true, decide_eq_true_iff] at hword
        exact ⟨_, _, rfl, tokenHead_char hword.1⟩
    · rw [Bool.and_eq_true, Bool.and_eq_true, decide_eq_true_iff] at hconfig
      have hwidth : width = "CONFIG.".toList ++ width.drop 7 := by
        conv_lhs => rw [← List.take_append_drop 7 width, hconfig.1.1]
      rw [hwidth]
      exact ⟨'C', _, rfl, tokenHead_char (.inl (by decide))⟩
  | string h => exact ⟨_, _, rfl, tokenHead_plain (by decide)⟩
  | @operator _ text h =>
    obtain ⟨c, tail, htext⟩ := List.exists_cons_of_ne_nil
      ((by decide : ∀ entry ∈ operators, entry.2.toList ≠ []) _ h)
    have hplain := (by decide : ∀ entry ∈ operators, ∀ c ∈ entry.2.toList.head?,
      c ∉ [' ', '\t', '\r', '\n', '/'] ∨ entry.2.toList = ['/']) _ h c (by rw [htext]; rfl)
    refine ⟨c, tail ++ after, by rw [htext, List.cons_append], ?_⟩
    rcases hplain with hplain | hslash
    · exact tokenHead_plain hplain
    · obtain ⟨rfl, rfl⟩ := List.cons.inj (htext.symm.trans hslash)
      rw [hslash] at hfree
      exact ⟨by decide, fun _ => ⟨hfree.no_comment (.inl rfl), hfree.no_comment (.inr rfl)⟩⟩

theorem SourceToken.type_ne_eof (token : SourceToken) : token.type ≠ .eof := by
  obtain ⟨text, type, lexeme, htoken⟩ := token
  dsimp only
  cases htoken with
  | @word c rest hc hrest =>
    intro h
    cases hkey : matchKeyword (c :: rest) with
    | none =>
      rw [hkey] at h
      cases h
    | some type =>
      rw [hkey, Option.getD_some] at h
      obtain ⟨entry, hentry, rfl⟩ := Option.map_eq_some_iff.mp hkey
      exact (by decide : ∀ entry ∈ keywords, entry.2 ≠ .eof) entry
        (List.mem_of_find?_eq_some hentry)
        h
  | number => exact fun h => by cases h
  | fraction => exact fun h => by cases h
  | sized => exact fun h => by cases h
  | string => exact fun h => by cases h
  | operator h => exact (by decide : ∀ entry ∈ operators, entry.1 ≠ .eof) _ h

theorem SourceToken.type_receive {token : SourceToken} (h : token.text = receiveText) :
    token.type = .opLe := by
  obtain ⟨text, type, lexeme, htoken⟩ := token
  dsimp only at h ⊢
  cases htoken with
  | word hc =>
    obtain ⟨rfl, -⟩ := List.cons.inj (h.trans (by rfl : receiveText = ['<', '=']))
    exact absurd hc (by decide)
  | number hd =>
    obtain ⟨rfl, -⟩ := List.cons.inj (h.trans (by rfl : receiveText = ['<', '=']))
    exact absurd hd (by decide)
  | fraction hd =>
    obtain ⟨rfl, -⟩ := List.cons.inj (h.trans (by rfl : receiveText = ['<', '=']))
    exact absurd hd (by decide)
  | sized =>
    have hmem : '\'' ∈ receiveText := by
      rw [← h]
      simp
    exact absurd hmem (by decide)
  | string =>
    obtain ⟨hquote, -⟩ := List.cons.inj (h.trans (by rfl : receiveText = ['<', '=']))
    exact absurd hquote (by decide)
  | operator hmem =>
    exact (by decide : ∀ entry ∈ operators, entry.2.toList = receiveText → entry.1 = .opLe) _ hmem h

section

variable {st : LexerState}

/-- A receive operator takes one of the letters of its suffixes from the word behind it. -/
theorem emits_receive {x : Char} {tail : List Char} (hx : x = 'z' ∨ x = 's')
    (hst : st.rest = receiveText ++ x :: tail) (hstop : st.stopLexing = false) :
    ∃ type lexeme, type ≠ .opLe ∧ type ≠ .eof ∧ Emits st type lexeme tail := by
  have hhead : TokenHead '<' ('=' :: x :: tail) := tokenHead_plain (by decide)
  have hstep := lexOneToken_eq (hst.trans (by rfl : _ = '<' :: '=' :: x :: tail)) hstop hhead
  rcases hx with rfl | rfl
  · exact ⟨.opLeZ, "<=z".toList, by decide, by decide,
      @emits_consume _ "<=z".toList _ _ .opLeZ st.loc none hst hstop hstep⟩
  · exact ⟨.opLeS, "<=s".toList, by decide, by decide,
      @emits_consume _ "<=s".toList _ _ .opLeS st.loc none hst hstop hstep⟩

theorem emitToken_out {next : LexerState} (h : next.out = st.out) (type : JZTokenType)
    (text : List Char) (loc : JZLocation) (num : Option JZNumericInfo) :
    st.out <+: (emitToken next type text loc num).out := by
  rw [emitToken, ← h]
  split
  · exact List.prefix_rfl
  · exact List.prefix_append _ _

theorem skipBlanks_out : ∀ (fuel : ℕ) (st : LexerState), (skipBlanks fuel st).1.out = st.out
  | 0, _ => rfl
  | fuel + 1, st => by
      have hreport : ∀ st, (reportInToken st).out = st.out := fun st => by
        rw [reportInToken]
        split <;> rfl
      rw [skipBlanks]
      split
      · rfl
      · split
        · exact skipBlanks_out fuel _
        · split
          · rw [skipBlanks_out fuel]
            exact hreport st
          · split
            · have hblock : ∀ st start, (skipBlockComment st start).1.out = st.out := by
                intro st start
                rw [skipBlockComment]
                split <;> rfl
              have hskip := hblock ((reportInToken st).consume 2) st.loc
              split
              · rename_i heq
                rw [heq] at hskip
                rw [skipBlanks_out fuel, hskip]
                exact hreport st
              · rename_i heq
                rw [heq] at hskip
                rw [hskip]
                exact hreport st
            · rfl

theorem lexNumeric_out (lexeme : List Char) : st.out <+: (lexNumeric st lexeme).out := by
  rw [lexNumeric]
  split
  · exact List.prefix_rfl
  · exact emitToken_out (by rfl) ..
  · exact emitToken_out (by rfl) ..

theorem lexOneToken_out (st : LexerState) : st.out <+: (lexOneToken st).out := by
  rw [lexOneToken]
  split
  · exact List.prefix_rfl
  · have hout := skipBlanks_out (st.rest.length + 1) st
    split
    · rename_i heq
      rw [heq] at hout
      rw [← hout]
    · rename_i next heq
      rw [heq] at hout
      rw [← hout]
      split
      · exact emitToken_out (by rfl) ..
      · split
        · rw [lexString]
          split
          · exact List.prefix_rfl
          · exact emitToken_out (by rfl) ..
        · split
          · rw [lexWord]
            split
            · exact lexNumeric_out _
            · exact emitToken_out (by rfl) ..
          · split
            · exact List.prefix_rfl
            · split
              · rw [lexNumber]
                split
                · split
                  · exact emitToken_out (by rfl) ..
                  · exact lexNumeric_out _
                · exact lexNumeric_out _
              · rw [lexOperator]
                split
                · exact emitToken_out (by rfl) ..
                · exact emitToken_out (by rfl) ..

theorem lexLoop_out : ∀ (fuel : ℕ) (st : LexerState), st.out <+: (lexLoop fuel st).out
  | 0, _ => List.prefix_rfl
  | fuel + 1, st => by
      rw [lexLoop]
      split
      · exact lexOneToken_out st
      · exact (lexOneToken_out st).trans (lexLoop_out fuel _)

end

end JzHdl

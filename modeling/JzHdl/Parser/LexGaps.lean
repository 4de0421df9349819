import JzHdl.Parser.LexTokens

/-! # Blanks between tokens

A blank between two tokens may be left out where no longer token begins. The
lexer then finds the same tokens, unless a receive operator stands directly in
front of a name that begins like one of its suffixes.
-/

namespace JzHdl

/-- A statement about each character of a text is decided along the text. -/
local instance (priority := 2000) decidableGapText {p : Char → Prop} [DecidablePred p]
    (text : List Char) : Decidable (∀ c ∈ text, p c) := List.decidableBAll p text

/-! ## Layouts -/

/-- The blank behind a token, if there is one. -/
def gapText (gap : Bool) (rest : List (SourceToken × Bool)) : List Char :=
  if gap && !rest.isEmpty then [' '] else []

/-- Tokens one after the other, with a blank behind those that have the flag. -/
def renderLayout : List (SourceToken × Bool) → List Char
  | [] => []
  | (token, gap) :: rest => token.text ++ (gapText gap rest ++ renderLayout rest)

/-- Blanks are left out only where no longer token begins. -/
def Legal : List (SourceToken × Bool) → Prop
  | [] => True
  | (token, gap) :: rest =>
    (gap = false → Splits token.text (renderLayout rest)) ∧ Legal rest

/-- The same tokens with a blank between any two of them. -/
def spaced (layout : List (SourceToken × Bool)) : List (SourceToken × Bool) :=
  layout.map fun entry => (entry.1, true)

/-- Among the first tokens, no receive operator stands in front of a name with one of the letters
of its suffixes. -/
def NoReceiveName : ℕ → List (SourceToken × Bool) → Prop
  | 0, _ => True
  | _, [] => True
  | n + 1, (token, gap) :: rest =>
    ¬ (token.text = receiveText ∧ gap = false ∧
      ((renderLayout rest).head? = some 'z' ∨ (renderLayout rest).head? = some 's')) ∧
      NoReceiveName n rest

/-- The types and the texts of the tokens. -/
def tokenViews (tokens : List LexToken) : List (JZTokenType × Option (List Char)) :=
  tokens.map fun token => (token.type, token.lexeme)

def SourceToken.view (token : SourceToken) : JZTokenType × Option (List Char) :=
  (token.type, if token.lexeme = [] then none else some token.lexeme)

/-- The tokens of a layout and the end of the text. -/
def layoutViews (layout : List (SourceToken × Bool)) : List (JZTokenType × Option (List Char)) :=
  layout.map (·.1.view) ++ [(.eof, none)]

/-! ## The loop -/

section

variable {st : LexerState}

/-- The blank in front of a token, if there is one. -/
def Gap (front : List Char) : Prop := front = [] ∨ front = [' ']

theorem gapText_gap (gap : Bool) (rest : List (SourceToken × Bool)) : Gap (gapText gap rest) := by
  rw [gapText]
  split
  · exact .inr rfl
  · exact .inl rfl

/-- What is behind the token of a legal layout does not make it longer. -/
theorem free_after {token : SourceToken} {gap : Bool} {rest : List (SourceToken × Bool)}
    (h : gap = false → Splits token.text (renderLayout rest)) :
    Free token.text (gapText gap rest ++ renderLayout rest) := by
  cases gap with
  | false =>
    rw [gapText, Bool.false_and, if_neg Bool.false_ne_true, List.nil_append]
    exact .inr (.inr (h rfl))
  | true =>
    cases rest with
    | nil => exact .inl rfl
    | cons entry rest => exact .inr (.inl rfl)

theorem emits_behind {type : JZTokenType} {lexeme after front text : List Char} {c : Char}
    {tail : List Char} (hfront : Gap front) (hst : st.rest = front ++ (text ++ after))
    (hstop : st.stopLexing = false) (hhead : text ++ after = c :: tail ∧ TokenHead c tail)
    (h : ∀ {st' : LexerState}, st'.rest = text ++ after → st'.stopLexing = false →
      Emits st' type lexeme after) : Emits st type lexeme after := by
  rcases hfront with rfl | rfl
  · exact h hst hstop
  · refine emits_gap ?_ hstop hhead.2 (h ?_ hstop)
    · rw [hst, hhead.1]
      rfl
    · rw [LexerState.consume, hst]
      rfl

theorem emitToken_full (type : JZTokenType) (text : List Char) (loc : JZLocation)
    (num : Option JZNumericInfo) (h : maxSourceTokens ≤ st.out.length) :
    (emitToken st type text loc num).out = st.out ∧
      (emitToken st type text loc num).stopLexing = true := by
  rw [emitToken, if_pos h]
  exact ⟨rfl, rfl⟩

theorem emitToken_room (type : JZTokenType) (text : List Char) (loc : JZLocation)
    (num : Option JZNumericInfo) (h : st.out.length < maxSourceTokens) :
    tokenViews (emitToken st type text loc num).out =
        tokenViews st.out ++ [(type, if text = [] then none else some text)] ∧
      (emitToken st type text loc num).rest = st.rest ∧
      (emitToken st type text loc num).stopLexing = st.stopLexing ∧
      atEof (emitToken st type text loc num) = decide (type = .eof) := by
  rw [emitToken, if_neg (by omega)]
  refine ⟨by simp [tokenViews], rfl, rfl, ?_⟩
  simp [atEof]

/-- The result of the loop, and that nothing is appended behind it. -/
def LoopEnds (st : LexerState) (views : List (JZTokenType × Option (List Char))) : Prop :=
  tokenViews st.out = views.take maxSourceTokens ∧
    (atEof st = true ∨ maxSourceTokens ≤ st.out.length)

theorem lexLoop_full {fuel : ℕ} {type : JZTokenType} {lexeme after : List Char}
    (hfull : st.out.length = maxSourceTokens) (h : Emits st type lexeme after)
    (views : List (JZTokenType × Option (List Char))) :
    LoopEnds (lexLoop (fuel + 1) st) (tokenViews st.out ++ views) := by
  obtain ⟨next, loc, num, hstep, hrest, hout, hnext⟩ := h
  have hnextFull : maxSourceTokens ≤ next.out.length := by rw [hout, hfull]
  obtain ⟨hsame, hstop⟩ := emitToken_full type lexeme loc num hnextFull
  rw [lexLoop, hstep, hstop, Bool.true_or, if_pos rfl, LoopEnds, hsame, hout]
  refine ⟨?_, .inr hfull.ge⟩
  rw [List.take_left' (by rw [tokenViews, List.length_map, hfull])]

theorem receive_gap {gap : Bool} {rest : List (SourceToken × Bool)} {x : Char} (hx : x ≠ ' ')
    (h : (gapText gap rest ++ renderLayout rest).head? = some x) :
    gap = false ∧ (renderLayout rest).head? = some x := by
  cases gap with
  | false => exact ⟨rfl, by rwa [gapText, Bool.false_and, if_neg Bool.false_ne_true] at h⟩
  | true =>
    cases rest with
    | nil => cases h
    | cons entry rest => exact absurd (Option.some.inj h).symm hx

theorem gapText_nil {gap : Bool} {rest : List (SourceToken × Bool)} (h : rest = []) :
    gapText gap rest = [] := by
  rw [h, gapText, List.isEmpty_nil, Bool.not_true, Bool.and_false, if_neg Bool.false_ne_true]

section

variable {token : SourceToken} {gap : Bool} {rest : List (SourceToken × Bool)} {front : List Char}

/-- A letter of a suffix stands directly behind the token, which is a receive operator. -/
def ReceiveName (token : SourceToken) (gap : Bool) (rest : List (SourceToken × Bool)) : Prop :=
  token.text = receiveText ∧ gap = false ∧
    ((renderLayout rest).head? = some 'z' ∨ (renderLayout rest).head? = some 's')

theorem emits_first (hgap : Gap front) (hst : st.rest = front ++ renderLayout ((token, gap) :: rest))
    (hstop : st.stopLexing = false) (hlegal : Legal ((token, gap) :: rest))
    (hreceive : ¬ ReceiveName token gap rest) :
    Emits st token.type token.lexeme (gapText gap rest ++ renderLayout rest) := by
  have hfree := free_after hlegal.1
  obtain ⟨c, tail, hhead⟩ := token_head hfree
  refine emits_behind hgap hst hstop hhead fun hst hstop =>
    emits_token hst hstop hfree fun htext => ⟨fun hz => ?_, fun hs => ?_⟩
  · obtain ⟨hfalse, hhead⟩ := receive_gap (by decide) hz
    exact hreceive ⟨htext, hfalse, .inl hhead⟩
  · obtain ⟨hfalse, hhead⟩ := receive_gap (by decide) hs
    exact hreceive ⟨htext, hfalse, .inr hhead⟩

theorem emits_first_receive (hgap : Gap front)
    (hst : st.rest = front ++ renderLayout ((token, gap) :: rest)) (hstop : st.stopLexing = false)
    (hreceive : ReceiveName token gap rest) :
    ∃ type lexeme after, type ≠ .opLe ∧ type ≠ .eof ∧ Emits st type lexeme after := by
  obtain ⟨htext, rfl, hhead⟩ := hreceive
  obtain ⟨x, hx, hfirst⟩ : ∃ x, (x = 'z' ∨ x = 's') ∧ (renderLayout rest).head? = some x := by
    rcases hhead with hz | hs
    · exact ⟨_, .inl rfl, hz⟩
    · exact ⟨_, .inr rfl, hs⟩
  obtain ⟨tail, htail⟩ := List.head?_eq_some_iff.mp hfirst
  rw [renderLayout, gapText, Bool.false_and, if_neg Bool.false_ne_true, List.nil_append, htext,
    htail] at hst
  have hne : ∀ {st' : LexerState}, st'.rest = receiveText ++ x :: tail → st'.stopLexing = false →
      ∃ type lexeme, type ≠ .opLe ∧ type ≠ .eof ∧ Emits st' type lexeme tail :=
    emits_receive hx
  rcases hgap with rfl | rfl
  · obtain ⟨type, lexeme, hle, heof, hemits⟩ := hne hst hstop
    exact ⟨type, lexeme, tail, hle, heof, hemits⟩
  · have hnext : (st.consume 1).rest = receiveText ++ x :: tail := by
      rw [LexerState.consume, hst]
      rfl
    obtain ⟨type, lexeme, hle, heof, hemits⟩ := hne hnext hstop
    exact ⟨type, lexeme, tail, hle, heof,
      @emits_gap _ _ _ _ '<' ('=' :: x :: tail) hst hstop (tokenHead_plain (by decide)) hemits⟩

/-- A step that finds a token appends it, if there is room, and the loop goes on behind it. -/
theorem lexLoop_step (fuel : ℕ) {type : JZTokenType} {lexeme after : List Char}
    (hroom : st.out.length < maxSourceTokens) (heof : type ≠ .eof) (h : Emits st type lexeme after) :
    ∃ next : LexerState, lexLoop (fuel + 1) st = lexLoop fuel next ∧ next.rest = after ∧
      next.stopLexing = false ∧
      tokenViews next.out = tokenViews st.out ++
        [(type, if lexeme = [] then none else some lexeme)] := by
  obtain ⟨next, loc, num, hstep, hrest, hout, hnext⟩ := h
  have hnextRoom : next.out.length < maxSourceTokens := by rwa [hout]
  obtain ⟨hviews, hafter, hnextStop, hend⟩ := emitToken_room type lexeme loc num hnextRoom
  refine ⟨_, ?_, hafter.trans hrest, hnextStop.trans hnext, by rw [hviews, hout]⟩
  rw [lexLoop, hstep, hnextStop, hnext, hend, decide_eq_false heof, Bool.or_self,
    if_neg Bool.false_ne_true]

end

/-- The loop finds the tokens of a layout and the end of the text. -/
theorem lexLoop_layout : ∀ (layout : List (SourceToken × Bool)) (fuel : ℕ) {st : LexerState}
    {front : List Char}, Gap front → (layout = [] → front = []) →
      st.rest = front ++ renderLayout layout → st.stopLexing = false → Legal layout →
      NoReceiveName (maxSourceTokens - st.out.length) layout → st.out.length ≤ maxSourceTokens →
      layout.length < fuel →
      LoopEnds (lexLoop fuel st)
        (tokenViews st.out ++ layoutViews layout)
  | [], fuel + 1, st, front, _, hfront, hst, hstop, _, _, hcount, _ => by
      obtain rfl := hfront rfl
      have hrest : st.rest = [] := hst
      have hstep : lexOneToken st = emitToken st .eof [] st.loc none := by
        rw [lexOneToken, hstop, if_neg Bool.false_ne_true, hrest, skipBlanks, hrest]
        dsimp only
        rw [hrest]
      rcases Nat.lt_or_eq_of_le hcount with hroom | hfull
      · obtain ⟨hviews, -, -, heof⟩ := emitToken_room .eof [] st.loc none hroom
        rw [lexLoop, hstep, heof, decide_eq_true rfl, Bool.or_true, if_pos rfl, LoopEnds, hviews,
          heof]
        refine ⟨?_, .inl (decide_eq_true rfl)⟩
        rw [List.take_of_length_le (by simp [tokenViews, layoutViews]; omega)]
        rfl
      · exact lexLoop_full hfull ⟨st, st.loc, none, hstep, rfl, rfl, hstop⟩ _
  | (token, gap) :: rest, fuel + 1, st, front, hgap, _, hst, hstop, hlegal, hreceive, hcount,
      hfuel => by
      rcases Nat.lt_or_eq_of_le hcount with hroom | hfull
      · have hbudget : maxSourceTokens - st.out.length =
            (maxSourceTokens - (st.out.length + 1)) + 1 := by omega
        rw [hbudget, NoReceiveName] at hreceive
        obtain ⟨next, hloop, hrest, hnext, hviews⟩ := lexLoop_step fuel hroom
          token.type_ne_eof (emits_first hgap hst hstop hlegal hreceive.1)
        have hlength : next.out.length = st.out.length + 1 := by
          have hcong := congrArg List.length hviews
          simpa [tokenViews] using hcong
        rw [List.length_cons] at hfuel
        have ih := lexLoop_layout rest fuel (gapText_gap gap rest) gapText_nil hrest hnext hlegal.2
          (by rw [hlength]; exact hreceive.2) (by omega) (by omega : rest.length < fuel)
        rw [hviews, List.append_assoc] at ih
        rw [hloop]
        exact ih
      · by_cases hbad : ReceiveName token gap rest
        · obtain ⟨type, lexeme, after, -, -, hemits⟩ := emits_first_receive hgap hst hstop hbad
          exact lexLoop_full hfull hemits _
        · exact lexLoop_full hfull (emits_first hgap hst hstop hlegal hbad) _

/-- A cut receive operator is found with another type. -/
theorem lexLoop_differs : ∀ (layout : List (SourceToken × Bool)) (fuel : ℕ) {st : LexerState}
    {front : List Char}, Gap front → st.rest = front ++ renderLayout layout →
      st.stopLexing = false → Legal layout →
      ¬ NoReceiveName (maxSourceTokens - st.out.length) layout → layout.length < fuel →
      ∃ i < maxSourceTokens, ∃ view, (tokenViews (lexLoop fuel st).out)[i]? = some view ∧
        (tokenViews st.out ++ layoutViews layout)[i]? ≠ some view
  | [], _, st, _, _, _, _, _, hbad, _ => by
      refine absurd ?_ hbad
      cases maxSourceTokens - st.out.length <;> trivial
  | (token, gap) :: rest, fuel + 1, st, front, hgap, hst, hstop, hlegal, hbad, hfuel => by
      have hroom : st.out.length < maxSourceTokens := by
        by_contra hfull
        rw [show maxSourceTokens - st.out.length = 0 by omega] at hbad
        exact hbad trivial
      by_cases hreceive : ReceiveName token gap rest
      · obtain ⟨type, lexeme, after, hle, heof, hemits⟩ :=
          emits_first_receive hgap hst hstop hreceive
        obtain ⟨next, hloop, -, -, hviews⟩ := lexLoop_step fuel hroom heof hemits
        obtain ⟨more, hmore⟩ := lexLoop_out fuel next
        have hpos : (tokenViews st.out).length = st.out.length := List.length_map _
        refine ⟨st.out.length, hroom, (type, if lexeme = [] then none else some lexeme), ?_, ?_⟩
        · rw [hloop, ← hmore, tokenViews, List.map_append, ← tokenViews, hviews, List.append_assoc,
            List.getElem?_append_right hpos.le, hpos, Nat.sub_self]
          rfl
        · rw [List.getElem?_append_right hpos.le, hpos, Nat.sub_self]
          intro hsame
          have htype := congrArg (Option.map Prod.fst) hsame
          exact hle ((Option.some.inj htype).symm.trans (token.type_receive hreceive.1))
      · rw [show maxSourceTokens - st.out.length =
          (maxSourceTokens - (st.out.length + 1)) + 1 by omega, NoReceiveName] at hbad
        obtain ⟨next, hloop, hrest, hnext, hviews⟩ := lexLoop_step fuel hroom
          token.type_ne_eof (emits_first hgap hst hstop hlegal hreceive)
        have hlength : next.out.length = st.out.length + 1 := by
          have hcong := congrArg List.length hviews
          simpa [tokenViews] using hcong
        rw [List.length_cons] at hfuel
        obtain ⟨i, hi, view, hview, hne⟩ := lexLoop_differs rest fuel (gapText_gap gap rest) hrest hnext hlegal.2
          (fun h => hbad ⟨hreceive, by rwa [hlength] at h⟩) (by omega : rest.length < fuel)
        rw [hviews, List.append_assoc] at hne
        exact ⟨i, hi, view, by rw [hloop]; exact hview, hne⟩

end

/-! ## Whole sources -/

theorem text_ne_nil (token : SourceToken) : token.text ≠ [] := by
  obtain ⟨c, tail, htext, -⟩ := @token_head token [] (.inl rfl)
  rw [List.append_nil] at htext
  rw [htext]
  exact List.cons_ne_nil c tail

theorem length_le_render : ∀ layout : List (SourceToken × Bool),
    layout.length ≤ (renderLayout layout).length
  | [] => Nat.le_refl 0
  | (token, gap) :: rest => by
      have hpos := List.length_pos_iff.mpr (text_ne_nil token)
      have hrest := length_le_render rest
      rw [renderLayout, List.length_append, List.length_append, List.length_cons]
      omega

theorem spaced_legal : ∀ layout, Legal (spaced layout)
  | [] => trivial
  | _ :: rest => ⟨fun h => Bool.noConfusion h, spaced_legal rest⟩

theorem spaced_noReceive : ∀ n layout, NoReceiveName n (spaced layout)
  | 0, _ => trivial
  | _ + 1, [] => trivial
  | n + 1, _ :: rest => ⟨fun h => Bool.noConfusion h.2.1, spaced_noReceive n rest⟩

/-- The state in front of the text. -/
def lexStart (source : List Char) : LexerState where
  rest := source
  loc := ⟨1, 1⟩
  out := []
  diagnostics := []
  stopLexing := false
  lastTokenEnd := none

theorem jzLexSource_out (source : List Char) :
    (lexLoop (source.length + 2) (lexStart source)).out <+: (jzLexSource source).1 := by
  rw [jzLexSource]
  change _ <+: (if _ then _ else _ : LexerState).out
  split
  · exact List.prefix_rfl
  · exact emitToken_out (by rfl) ..

/-- Without a cut receive operator, the tokens of a layout are found. -/
theorem jzLexSource_layout {layout : List (SourceToken × Bool)} (hlegal : Legal layout)
    (hreceive : NoReceiveName maxSourceTokens layout) :
    tokenViews (jzLexSource (renderLayout layout)).1 =
      (layoutViews layout).take maxSourceTokens := by
  have hlength := length_le_render layout
  obtain ⟨hviews, hend⟩ := @lexLoop_layout layout ((renderLayout layout).length + 2)
    (lexStart (renderLayout layout)) [] (.inl rfl) (fun _ => rfl) rfl rfl hlegal hreceive
    (Nat.zero_le _) (by omega)
  rw [show layoutViews layout = tokenViews (lexStart (renderLayout layout)).out ++
    layoutViews layout from rfl, ← hviews, jzLexSource]
  change tokenViews (if _ then _ else _ : LexerState).out = _
  rw [if_pos]
  · rfl
  · rw [Bool.or_eq_true, decide_eq_true_iff]
    exact hend

/-- Leaving blanks out changes nothing exactly when no receive operator stands directly in front
of a name that begins like one of its suffixes. -/
theorem lex_gaps_iff {layout : List (SourceToken × Bool)} (hlegal : Legal layout) :
    tokenViews (jzLexSource (renderLayout layout)).1 =
        tokenViews (jzLexSource (renderLayout (spaced layout))).1 ↔
      NoReceiveName maxSourceTokens layout := by
  have hspaced : tokenViews (jzLexSource (renderLayout (spaced layout))).1 =
      (layoutViews layout).take maxSourceTokens := by
    rw [jzLexSource_layout (spaced_legal layout) (spaced_noReceive _ layout), layoutViews, spaced, List.map_map]
    rfl
  rw [hspaced]
  refine ⟨fun hsame => ?_, jzLexSource_layout hlegal⟩
  by_contra hbad
  have hlength := length_le_render layout
  obtain ⟨i, hi, view, hview, hne⟩ := @lexLoop_differs layout ((renderLayout layout).length + 2)
    (lexStart (renderLayout layout)) [] (.inl rfl) rfl rfl hlegal hbad (by omega)
  obtain ⟨more, hmore⟩ := jzLexSource_out (renderLayout layout)
  have hfound : (tokenViews (jzLexSource (renderLayout layout)).1)[i]? = some view := by
    rw [← hmore, tokenViews, List.map_append, ← tokenViews,
      List.getElem?_append_left (List.getElem?_eq_some_iff.mp hview).1]
    exact hview
  rw [hsame, List.getElem?_take_of_lt hi] at hfound
  exact hne hfound

def wordToken (c : Char) (rest : List Char)
    (h : isIdentifierStart c = true ∧ ∀ d ∈ rest, isIdentifierChar d = true) : SourceToken :=
  ⟨_, _, _, .word (.inl h.1) h.2⟩

def operatorToken (type : JZTokenType) (text : String) (h : (type, text) ∈ operators) :
    SourceToken := ⟨_, _, _, .operator h⟩

def assignLayout : List (SourceToken × Bool) :=
  [(wordToken 'a' [] (by decide), false), (operatorToken .opAssign "=" (by decide), false),
    (wordToken 's' "ignal".toList (by decide), false),
    (operatorToken .semicolon ";" (by decide), false)]

theorem lex_gaps_signal : tokenViews (jzLexSource "a=signal;".toList).1 =
    tokenViews (jzLexSource "a = signal ;".toList).1 :=
  (@lex_gaps_iff assignLayout ⟨fun _ => by decide +kernel, fun _ => by decide +kernel,
    fun _ => by decide +kernel, fun _ => by decide +kernel, trivial⟩).mpr
    ⟨by decide, by decide, by decide, by decide, trivial⟩

def receiveLayout : List (SourceToken × Bool) :=
  [(wordToken 'a' [] (by decide), false), (operatorToken .opLe "<=" (by decide), false),
    (wordToken 's' "el".toList (by decide), false)]

/-- The blanks around the operator may be left out, but then its suffix is read. -/
theorem receive_cut : Legal receiveLayout ∧ renderLayout receiveLayout = "a<=sel".toList ∧
    (jzLexSource (renderLayout receiveLayout)).1.map (·.lexeme) =
      [some "a".toList, some "<=s".toList, some "el".toList, none] ∧
    tokenViews (jzLexSource (renderLayout receiveLayout)).1 ≠
      tokenViews (jzLexSource (renderLayout (spaced receiveLayout))).1 :=
  ⟨⟨fun _ => by decide +kernel, fun _ => by decide +kernel, fun _ => by decide +kernel, trivial⟩,
    by decide +kernel, by decide +kernel, by decide +kernel⟩

end JzHdl

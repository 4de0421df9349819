import JzHdl.Parser.RepeatRun

/-! # Expanded sources

The text that the expansion returns is the one of the recursion, its buffers
stay within the limit on every turn, and a bad block leaves nothing.
-/

namespace JzHdl

/-! ## Text outside blocks -/

theorem strstr_of_suffix {word t : List Char} (h : strstr word t = true) :
    ∀ u : List Char, strstr word (u ++ t) = true
  | [] => h
  | c :: u => by
      rw [List.cons_append, strstr, strstr_of_suffix h u, Bool.or_true]

theorem strstr_of_isPrefixOf {word text : List Char} (h : word.isPrefixOf text = true) :
    strstr word text = true := by
  cases text with
  | nil => exact h
  | cons c rest => rw [strstr, h, Bool.true_or]

theorem blockTail_suffix : ∀ text : List Char, blockTail text <:+ text
  | [] => List.suffix_rfl
  | c :: rest => by
      rw [blockTail.eq_def]
      split
      · exact List.nil_suffix
      · rename_i heq
        rw [heq]
        exact (List.suffix_cons _ _).trans (List.suffix_cons _ _)
      · rename_i heq
        obtain ⟨rfl, rfl⟩ := List.cons.inj heq
        exact (blockTail_suffix rest).trans (List.suffix_cons c rest)

def RepeatToken.chars : RepeatToken → List Char
  | .text c => [c]
  | .rep => repeatWord
  | .fin => endWord

theorem flatMap_chars_text (u : List Char) :
    (u.map RepeatToken.text).flatMap RepeatToken.chars = u := by
  induction u with
  | nil => rfl
  | cons c u ih => rw [List.map_cons, List.flatMap_cons, ih]; rfl

/-- The tokens of a text are the text. -/
theorem flatMap_chars_lexSource (blocks : Bool) (text : List Char) :
    (lexSource blocks text).flatMap RepeatToken.chars = text := by
  induction text using lexSource.induct blocks with
  | case1 => rw [lexSource, List.flatMap_nil]
  | case2 c rest h ih =>
    rw [lexSource, if_pos h, List.flatMap_append, flatMap_chars_text, ih]
    have hsuffix := (blockTail_suffix rest.tail).trans (List.tail_suffix rest)
    exact upTo_append_of_suffix (hsuffix.trans (List.suffix_cons c rest))
  | case3 c rest hblock h ih =>
    rw [lexSource, if_neg hblock, if_pos h, List.flatMap_append, flatMap_chars_text, ih]
    exact upTo_append_of_suffix ((lineTail_suffix rest).trans (List.suffix_cons c rest))
  | case4 rest hblock hline ih =>
    rw [lexSource, if_neg hblock, if_neg hline, if_pos rfl, List.flatMap_append,
      flatMap_chars_text, ih]
    have hsuffix := (skipQuote_suffix _).trans (stringTail_suffix rest)
    exact upTo_append_of_suffix (hsuffix.trans (List.suffix_cons _ rest))
  | case5 c rest hblock hline hquote h ih =>
    rw [lexSource, if_neg hblock, if_neg hline, if_neg hquote, if_pos h, List.flatMap_cons, ih]
    exact (directiveAt_split h).symm
  | case6 c rest hblock hline hquote hrep h ih =>
    rw [lexSource, if_neg hblock, if_neg hline, if_neg hquote, if_neg hrep, if_pos h,
      List.flatMap_cons, ih]
    exact (directiveAt_split h).symm
  | case7 c rest hblock hline hquote hrep hfin ih =>
    rw [lexSource, if_neg hblock, if_neg hline, if_neg hquote, if_neg hrep, if_neg hfin,
      List.flatMap_cons, ih]
    rfl

/-- A source without the word has no block. -/
theorem strstr_of_rep_mem {blocks : Bool} {text : List Char}
    (h : RepeatToken.rep ∈ lexSource blocks text) : strstr repeatWord text = true := by
  obtain ⟨pre, post, hsplit⟩ := List.append_of_mem h
  have htext := flatMap_chars_lexSource blocks text
  rw [hsplit, List.flatMap_append, List.flatMap_cons] at htext
  rw [← htext]
  refine strstr_of_suffix (strstr_of_isPrefixOf ?_) _
  rw [List.isPrefixOf_iff_prefix]
  exact List.prefix_append _ _

section

variable {limits : ExpansionLimits} {tokens : List RepeatToken}

theorem expandTokens_of_no_rep : ∀ {tokens : List RepeatToken}, (∀ t ∈ tokens, t ≠ .rep) →
    expandTokens limits tokens = some (tokens.flatMap RepeatToken.chars)
  | [], _ => by rw [expandTokens, List.flatMap_nil]
  | .text c :: rest, h => by
      rw [expandTokens, expandTokens_of_no_rep fun t ht => h t (List.mem_cons_of_mem _ ht)]
      rfl
  | .fin :: rest, h => by
      rw [expandTokens, expandTokens_of_no_rep fun t ht => h t (List.mem_cons_of_mem _ ht)]
      rfl
  | .rep :: rest, h => absurd rfl (h .rep List.mem_cons_self)

/-! ## Bad blocks -/

/-- What a block may not be: one without a count, with one that is zero or above the limit, or
without its `@end`. -/
def BadBlock (limits : ExpansionLimits) (rest : List RepeatToken) : Prop :=
  ∀ count line, directiveCount rest = some (count, line) →
    count = 0 ∨ limits.repeatMaxCount < count ∨ matchEnd 0 line = none

theorem expandTokens_bad {rest : List RepeatToken} (hbad : BadBlock limits rest) :
    ∀ {pre : List RepeatToken}, (∀ t ∈ pre, t ≠ .rep) →
      expandTokens limits (pre ++ .rep :: rest) = none
  | [], _ => by
      rw [List.nil_append, expandTokens_rep]
      cases hcount : directiveCount rest with
      | none => rfl
      | some r =>
        rw [Option.bind_some]
        split
        · rfl
        · rename_i hok
          rcases hbad r.1 r.2 hcount with h | h | h
          · exact absurd (.inl h) hok
          · exact absurd (.inr h) hok
          · rw [h]
            rfl
  | .text c :: pre, h => by
      rw [List.cons_append, expandTokens,
        expandTokens_bad hbad fun t ht => h t (List.mem_cons_of_mem _ ht)]
      rfl
  | .fin :: pre, h => by
      rw [List.cons_append, expandTokens,
        expandTokens_bad hbad fun t ht => h t (List.mem_cons_of_mem _ ht)]
      rfl
  | .rep :: pre, h => absurd rfl (h .rep List.mem_cons_self)

/-! ## Buffers on the way -/

/-- The stack after so many turns, as long as the run goes on. -/
def expandAfter (limits : ExpansionLimits) : ℕ → List RepeatFrame → Option (List RepeatFrame)
  | 0, stack => some stack
  | n + 1, stack =>
    match expandStep limits stack with
    | .next stack => expandAfter limits n stack
    | _ => none

def BuffersWithin (limits : ExpansionLimits) (stack : List RepeatFrame) : Prop :=
  ∀ frame ∈ stack, frame.out.length ≤ limits.repeatMaxBytes

theorem BuffersWithin.cons {frame : RepeatFrame} {stack : List RepeatFrame}
    (hframe : frame.out.length ≤ limits.repeatMaxBytes) (h : BuffersWithin limits stack) :
    BuffersWithin limits (frame :: stack) := by
  rintro f (_ | ⟨_, hf⟩)
  · exact hframe
  · exact h f hf

variable {frame child : RepeatFrame} {p : List Char} {stack stack' : List RepeatFrame}

theorem copyUpTo_within (h : BuffersWithin limits (frame :: stack))
    (hstep : copyUpTo limits frame p stack = .next stack') : BuffersWithin limits stack' := by
  rw [copyUpTo] at hstep
  split at hstep
  · cases hstep
  · rename_i happ
    obtain rfl := RepeatStep.next.inj hstep
    exact .cons (sbAppendLimited_within (h frame List.mem_cons_self) happ)
      fun f hf => h f (List.mem_cons_of_mem _ hf)

theorem pushBody_within (h : BuffersWithin limits (frame :: stack))
    (hstep : pushBody limits frame p stack = .next stack') : BuffersWithin limits stack' := by
  unfold pushBody at hstep
  split at hstep
  · cases hstep
  · split at hstep
    · cases hstep
    · split at hstep
      · cases hstep
      · split at hstep
        · cases hstep
        · obtain rfl := RepeatStep.next.inj hstep
          exact .cons (Nat.zero_le _) (.cons (h frame List.mem_cons_self)
            fun f hf => h f (List.mem_cons_of_mem _ hf))

theorem popBody_within (h : BuffersWithin limits stack)
    (hstep : popBody limits child stack = .next stack') : BuffersWithin limits stack' := by
  unfold popBody at hstep
  split at hstep
  · cases hstep
  · rename_i parent rest
    split at hstep
    · cases hstep
    · split at hstep
      · cases hstep
      · rename_i happ
        rw [appendCopies_eq] at happ
        obtain rfl := RepeatStep.next.inj hstep
        exact .cons (sbAppendLimited_within (h parent List.mem_cons_self) happ)
          fun f hf => h f (List.mem_cons_of_mem _ hf)

/-- A turn keeps every buffer within the limit. -/
theorem expandStep_within (h : BuffersWithin limits stack)
    (hstep : expandStep limits stack = .next stack') : BuffersWithin limits stack' := by
  cases stack with
  | nil => cases hstep
  | cons frame stack =>
    unfold expandStep at hstep
    dsimp only at hstep
    split at hstep
    · exact popBody_within (fun f hf => h f (List.mem_cons_of_mem _ hf)) hstep
    · split at hstep
      · exact copyUpTo_within h hstep
      · split at hstep
        · exact copyUpTo_within h hstep
        · split at hstep
          · exact pushBody_within h hstep
          · exact copyUpTo_within h hstep

theorem expandAfter_within : ∀ {n : ℕ} {stack : List RepeatFrame}, BuffersWithin limits stack →
    expandAfter limits n stack = some stack' → BuffersWithin limits stack'
  | 0, _, h, hrun => by
      obtain rfl := Option.some.inj hrun
      exact h
  | n + 1, stack, h, hrun => by
      rw [expandAfter] at hrun
      split at hrun
      · rename_i hstep
        exact expandAfter_within (expandStep_within h hstep) hrun
      · cases hrun

end

/-! ## The expansion -/

theorem expandRun_source (limits : ExpansionLimits) (source : List Char) :
    expandRun limits (2 * source.length + 1) [⟨source, [], none⟩] =
      expandSource limits (lexSource false source) := by
  have hrun := run_region limits source.length source le_rfl [] []
  have hout : regionOut limits [] source = expandSource limits (lexSource false source) := by
    rw [regionOut, expandSource, withinLimit_eq]
  rw [hout] at hrun
  cases hexpand : expandSource limits (lexSource false source) with
  | none =>
    rw [hexpand] at hrun
    exact hrun _
  | some out =>
    rw [hexpand] at hrun
    obtain ⟨n, hn, hlead⟩ := hrun
    obtain ⟨k, hk⟩ := Nat.exists_eq_add_of_le hn
    rw [hk, Nat.add_assoc, hlead, expandRun]
    rfl

/-- A source is expanded as the recursion has it where no block comment hides a directive, a quote
or the start of a comment. Only a source that goes through the loop is held to the limit. -/
theorem jzRepeatExpand_eq (limits : ExpansionLimits) (source : List Char)
    (hblocks : lexSource true source = lexSource false source) :
    jzRepeatExpand limits source = (if strstr repeatWord source
        then withinLimit limits (expandTokens limits (lexSource true source))
        else expandTokens limits (lexSource true source)) ∧
      (∀ n stack, expandAfter limits n [⟨source, [], none⟩] = some stack →
        BuffersWithin limits stack) ∧
      ∀ pre rest, lexSource true source = pre ++ .rep :: rest → (∀ t ∈ pre, t ≠ .rep) →
        BadBlock limits rest → jzRepeatExpand limits source = none := by
  have heq : jzRepeatExpand limits source = if strstr repeatWord source
      then withinLimit limits (expandTokens limits (lexSource true source))
      else expandTokens limits (lexSource true source) := by
    rw [jzRepeatExpand]
    split
    · rw [expandRun_source, hblocks]
      rfl
    · rename_i hword
      have hnone : ∀ t ∈ lexSource true source, t ≠ RepeatToken.rep := by
        rintro t ht rfl
        exact hword (strstr_of_rep_mem ht)
      rw [expandTokens_of_no_rep hnone, flatMap_chars_lexSource]
  refine ⟨heq, fun n stack hrun => ?_, fun pre rest hsplit hpre hbad => ?_⟩
  · refine expandAfter_within ?_ hrun
    rintro f (_ | ⟨_, hf⟩)
    · exact Nat.zero_le _
    · cases hf
  · rw [heq, hsplit, expandTokens_bad hbad hpre]
    split <;> rfl

theorem jzRepeatExpand_eq_nested :
    lexSource true "@repeat 2 a@repeat 2 IDX@end@end".toList =
        lexSource false "@repeat 2 a@repeat 2 IDX@end@end".toList ∧
      jzRepeatExpand ⟨10, 100⟩ "@repeat 2 a@repeat 2 IDX@end@end".toList =
        some ['a', '0', '1', 'a', '0', '1'] ∧
      jzRepeatExpand ⟨10, 100⟩ "@repeat 2 a@repeat 2 IDX@end@end".toList =
        withinLimit ⟨10, 100⟩ (expandTokens ⟨10, 100⟩
          (lexSource true "@repeat 2 a@repeat 2 IDX@end@end".toList)) := by
  have hblocks : lexSource true "@repeat 2 a@repeat 2 IDX@end@end".toList =
      lexSource false "@repeat 2 a@repeat 2 IDX@end@end".toList := by decide +kernel
  refine ⟨hblocks, by decide +kernel, ?_⟩
  have heq := (jzRepeatExpand_eq ⟨10, 100⟩ _ hblocks).1
  exact heq.trans (if_pos (by decide +kernel))

/-- A text without a block is returned beyond the limit, the text after an `@end` loses its spaces,
and an inner block makes a word out of the text of the outer one. -/
theorem jzRepeatExpand_as_designed :
    jzRepeatExpand ⟨10, 1⟩ ['a', 'b'] = some ['a', 'b'] ∧
      jzRepeatExpand ⟨10, 100⟩ "@repeat 1 a@end b".toList = some ['a', 'b'] ∧
      jzRepeatExpand ⟨10, 100⟩ "@repeat 2 ID@repeat 1 X@end@end".toList = some ['0', '1'] := by
  decide +kernel

end JzHdl

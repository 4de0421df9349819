import JzHdl.Parser.RepeatExpand

/-! # Runs over the frame stack

A region on top of the stack is expanded as the recursion has it, within twice
as many turns as it has characters, and no buffer on the way outgrows the limit.
-/

namespace JzHdl

/-! ## Buffers -/

section

variable {maxBytes : ℕ} {out u v : List Char}

theorem sbAppendLimited_append (maxBytes : ℕ) (out u v : List Char) :
    sbAppendLimited maxBytes out (u ++ v) =
      (sbAppendLimited maxBytes out u).bind fun out => sbAppendLimited maxBytes out v := by
  cases u with
  | nil => rfl
  | cons c u =>
    have hne : ∀ {x : List Char}, c :: x ≠ [] := by simp
    rw [sbAppendLimited, List.cons_append, if_neg hne, sbAppendLimited, if_neg hne]
    by_cases hu : maxBytes < out.length + (c :: u).length
    · have huv : maxBytes < out.length + (c :: (u ++ v)).length := by
        simp only [List.length_cons, List.length_append] at hu ⊢
        omega
      rw [if_pos huv, if_pos hu, Option.bind_none]
    · rw [if_neg hu, Option.bind_some, sbAppendLimited]
      by_cases hv : v = []
      · rw [if_pos hv, hv, List.append_nil, if_neg hu]
      · have hlen : out.length + (c :: (u ++ v)).length = (out ++ c :: u).length + v.length := by
          simp only [List.length_cons, List.length_append]
          omega
        rw [if_neg hv, hlen, List.append_assoc, List.cons_append]

theorem appendPieces_eq (maxBytes : ℕ) : ∀ (pieces : List (List Char)) (out : List Char),
    appendPieces maxBytes out pieces = sbAppendLimited maxBytes out pieces.flatten
  | [], _ => rfl
  | piece :: rest, out => by
      rw [List.flatten_cons, sbAppendLimited_append, appendPieces, List.foldlM_cons]
      exact Option.bind_congr fun out' _ => appendPieces_eq maxBytes rest out'

/-- The pieces of a copy are the body with its words `IDX` replaced. -/
theorem flatten_idxPieces (idx : ℕ) : ∀ (n : ℕ) (body : List Char) (afterWord : Bool)
    (left : Option Char), body.length ≤ n → (afterWord = false ↔ NoWordChar left) →
    (idxPieces idx afterWord body).flatten = replaceIdx idx left body := by
  intro n
  induction n with
  | zero =>
    intro body afterWord left hlen _
    obtain rfl := List.length_eq_zero_iff.mp (Nat.le_zero.mp hlen)
    rw [idxPieces, replaceIdx, List.flatten_nil]
  | succ n ih =>
    intro body afterWord left hlen hleft
    cases body with
    | nil => rw [idxPieces, replaceIdx, List.flatten_nil]
    | cons c rest =>
      rw [List.length_cons] at hlen
      have hbound : boundaryOk (rest.drop 2) = true ↔
          NoWordChar ((c :: rest).drop 3).head? := by
        rw [show (c :: rest).drop 3 = rest.drop 2 from rfl]
        cases rest.drop 2 with
        | nil => simp [boundaryOk, NoWordChar]
        | cons d t => simp [boundaryOk, NoWordChar]
      have hword : (c = 'I' ∧ afterWord = false ∧ ['D', 'X'].isPrefixOf rest ∧
          boundaryOk (rest.drop 2)) ↔ ((c :: rest).take 3 = ['I', 'D', 'X'] ∧ NoWordChar left ∧
            NoWordChar ((c :: rest).drop 3).head?) := by
        have hpre : ['D', 'X'].isPrefixOf rest = true ↔ rest.take 2 = ['D', 'X'] := by
          rw [List.isPrefixOf_iff_prefix, List.prefix_iff_eq_take]
          exact eq_comm
        rw [hleft, hbound, hpre, List.take_succ_cons]
        simp only [List.cons.injEq]
        tauto
      rw [idxPieces, replaceIdx]
      by_cases h : (c :: rest).take 3 = ['I', 'D', 'X'] ∧ NoWordChar left ∧
          NoWordChar ((c :: rest).drop 3).head?
      · rw [if_pos (hword.mpr h), if_pos h, List.flatten_cons]
        congr 1
        refine ih _ _ _ (by rw [List.length_drop]; omega) ?_
        simp [NoWordChar, isWordChar]
      · rw [if_neg (fun h' => h (hword.mp h')), if_neg h, List.flatten_cons, List.singleton_append]
        congr 1
        exact ih rest _ _ (by omega) (by simp [NoWordChar])

theorem appendCopies_eq (maxBytes count : ℕ) (out body : List Char) :
    appendCopies maxBytes count out body =
      sbAppendLimited maxBytes out (bodyCopies count body) := by
  rw [appendCopies, bodyCopies]
  generalize List.range count = indices
  induction indices generalizing out with
  | nil => rfl
  | cons i rest ih =>
    rw [List.foldlM_cons, List.flatMap_cons, sbAppendLimited_append, appendPieces_eq,
      flatten_idxPieces i _ body false none le_rfl (by simp [NoWordChar])]
    exact Option.bind_congr fun out' _ => ih out'

theorem sbAppendLimited_nil (maxBytes : ℕ) (text : List Char) :
    sbAppendLimited maxBytes [] text =
      if text.length ≤ maxBytes then some text else none := by
  rw [sbAppendLimited]
  by_cases h : text = []
  · subst h
    rw [if_pos rfl]
    exact (if_pos (Nat.zero_le _)).symm
  · rw [if_neg h, List.length_nil, Nat.zero_add, List.nil_append]
    by_cases hlt : maxBytes < text.length
    · rw [if_pos hlt, if_neg (by omega)]
    · rw [if_neg hlt, if_pos (by omega)]

theorem sbAppendLimited_within {text : List Char} (hout : out.length ≤ maxBytes)
    (h : sbAppendLimited maxBytes out text = some v) : v.length ≤ maxBytes := by
  rw [sbAppendLimited] at h
  split at h
  · obtain rfl := Option.some.inj h
    exact hout
  · split at h
    · cases h
    · obtain rfl := Option.some.inj h
      rw [List.length_append]
      omega

end

/-! ## The recursion by cases -/

section

variable (limits : ExpansionLimits)

theorem expandTokens_text (tokens : List RepeatToken) : ∀ u : List Char,
    expandTokens limits (u.map .text ++ tokens) =
      (expandTokens limits tokens).map fun out => u ++ out
  | [] => by simp
  | c :: u => by
      rw [List.map_cons, List.cons_append, expandTokens, expandTokens_text tokens u, Option.map_map]
      rfl

theorem withinLimit_eq (r : Option (List Char)) :
    withinLimit limits r = r.bind fun out => sbAppendLimited limits.repeatMaxBytes [] out := by
  cases r with
  | none => rfl
  | some out =>
    rw [Option.bind_some, sbAppendLimited_nil, withinLimit, Option.filter]
    simp

theorem expandTokens_rep (rest : List RepeatToken) : expandTokens limits (.rep :: rest) =
    (directiveCount rest).bind fun r =>
      if r.1 = 0 ∨ limits.repeatMaxCount < r.1 then none
      else (matchEnd 0 r.2).bind fun s =>
        (withinLimit limits (expandTokens limits s.1)).bind fun out =>
          (expandTokens limits (skipLineEnd s.2)).map fun tail => bodyCopies r.1 out ++ tail := by
  rw [expandTokens]
  split
  · rename_i h
    rw [h, Option.bind_none]
  · rename_i count line h
    rw [h, Option.bind_some]
    dsimp only
    split
    · rfl
    · split
      · rename_i h'
        rw [h', Option.bind_none]
      · rename_i body after h'
        rw [h', Option.bind_some]
        dsimp only
        cases withinLimit limits (expandTokens limits body) with
        | none => rfl
        | some out =>
          cases expandTokens limits (skipLineEnd after) with
          | none => rfl
          | some tail => rfl

end

/-! ## Runs -/

section

variable {limits : ExpansionLimits} {s s' s'' : List RepeatFrame} {n m : ℕ}

/-- Every run from the stack fails. -/
def Fails (limits : ExpansionLimits) (s : List RepeatFrame) : Prop :=
  ∀ fuel, expandRun limits fuel s = none

/-- A run from the first stack comes to the second in so many turns. -/
def Leads (limits : ExpansionLimits) (n : ℕ) (s s' : List RepeatFrame) : Prop :=
  ∀ fuel, expandRun limits (n + fuel) s = expandRun limits fuel s'

theorem expandRun_mono : ∀ {fuel : ℕ} {s : List RepeatFrame} {out : List Char},
    expandRun limits fuel s = some out → ∀ k, expandRun limits (fuel + k) s = some out
  | 0, _, _, h, _ => by cases h
  | fuel + 1, s, out, h, k => by
      rw [Nat.add_right_comm, expandRun]
      rw [expandRun] at h
      split at h
      · exact expandRun_mono h k
      · exact h
      · cases h

theorem Leads.refl (s : List RepeatFrame) : Leads limits 0 s s := fun fuel => by rw [Nat.zero_add]

theorem Leads.trans (h : Leads limits n s s') (h' : Leads limits m s' s'') :
    Leads limits (n + m) s s'' := fun fuel => by rw [Nat.add_assoc, h, h']

theorem Leads.step (h : expandStep limits s = .next s') : Leads limits 1 s s' := fun fuel => by
  rw [Nat.add_comm, expandRun, h]

theorem Fails.step (h : expandStep limits s = .fail) : Fails limits s
  | 0 => rfl
  | fuel + 1 => by rw [expandRun, h]

theorem Leads.fails (h : Leads limits n s s') (h' : Fails limits s') : Fails limits s := by
  intro fuel
  cases hrun : expandRun limits fuel s with
  | none => rfl
  | some out =>
    have hmono := expandRun_mono hrun n
    rw [Nat.add_comm, h, h'] at hmono
    cases hmono

/-- The top frame comes to the end of its region with the result, or the run fails. -/
def RunsTo (limits : ExpansionLimits) (turns : ℕ) (frame : RepeatFrame) (stack : List RepeatFrame) :
    Option (List Char) → Prop
  | none => Fails limits (frame :: stack)
  | some out => ∃ n ≤ turns, Leads limits n (frame :: stack) (⟨[], out, none⟩ :: stack)

theorem RunsTo.after {frame frame' : RepeatFrame} {stack : List RepeatFrame} {turns turns' : ℕ}
    {r : Option (List Char)} (hlead : Leads limits n (frame :: stack) (frame' :: stack))
    (hturns : n + turns' ≤ turns) (h : RunsTo limits turns' frame' stack r) :
    RunsTo limits turns frame stack r := by
  cases r with
  | none => exact hlead.fails h
  | some out =>
    obtain ⟨k, hk, hout⟩ := h
    exact ⟨n + k, by omega, hlead.trans hout⟩

/-- What the buffer of a region becomes. -/
def regionOut (limits : ExpansionLimits) (out text : List Char) : Option (List Char) :=
  (expandTokens limits (lexSource false text)).bind fun tail =>
    sbAppendLimited limits.repeatMaxBytes out tail

/-- A turn that copies a part of the text. -/
theorem RunsTo.copy {text u q out : List Char} {stack : List RepeatFrame} (htext : text = u ++ q)
    (hu : u ≠ []) (hstep : expandStep limits (⟨text, out, none⟩ :: stack) =
      copyUpTo limits ⟨text, out, none⟩ q stack)
    (hexpand : expandTokens limits (lexSource false text) =
      (expandTokens limits (lexSource false q)).map fun tail => u ++ tail)
    (h : ∀ out, RunsTo limits (2 * q.length) ⟨q, out, none⟩ stack (regionOut limits out q)) :
    RunsTo limits (2 * text.length) ⟨text, out, none⟩ stack (regionOut limits out text) := by
  have hresult : regionOut limits out text =
      (sbAppendLimited limits.repeatMaxBytes out u).bind fun out => regionOut limits out q := by
    rw [regionOut, hexpand]
    unfold regionOut
    cases expandTokens limits (lexSource false q) with
    | none => simp
    | some tail =>
      simp only [Option.map_some, Option.bind_some]
      exact sbAppendLimited_append _ _ _ _
  have hlen : text.length = u.length + q.length := by rw [htext, List.length_append]
  have hpos := List.length_pos_iff.mpr hu
  have htake : text.take (text.length - q.length) = u := by
    rw [htext]
    exact upTo_append u q
  rw [copyUpTo, htake] at hstep
  rw [hresult]
  cases happ : sbAppendLimited limits.repeatMaxBytes out u with
  | none =>
    rw [happ] at hstep
    exact Fails.step hstep
  | some out' =>
    rw [happ] at hstep
    exact (h out').after (Leads.step hstep) (by omega)

end

/-! ## Blocks -/

theorem length_skipLine_le (text : List Char) :
    (skipNewline (skipHspace text)).length ≤ text.length := by
  have h := (List.dropWhile_suffix (l := text) isHspace).length_le
  rw [skipNewline.eq_def]
  split
  · rename_i heq
    rw [show text.dropWhile isHspace = _ from heq, List.length_cons] at h
    omega
  · exact h

theorem length_repeatCount {text line : List Char} {count : ℕ}
    (h : repeatCount text = some (count, line)) : line.length ≤ text.length := by
  rw [repeatCount] at h
  split at h
  · cases h
  · obtain ⟨-, rfl⟩ := Prod.mk.inj (Option.some.inj h)
    refine (length_skipLine_le _).trans ?_
    exact ((List.dropWhile_suffix _).length_le).trans (List.dropWhile_suffix _).length_le

section

variable {limits : ExpansionLimits} {out text : List Char}

/-- A block, as the source goes through it. -/
theorem regionOut_rep (h : directiveAt repeatWord text = true) : regionOut limits out text =
    (repeatCount (text.drop 7)).bind fun r =>
      if r.1 = 0 ∨ limits.repeatMaxCount < r.1 then none
      else (findMatchingEnd 1 r.2).bind fun e =>
        (regionOut limits [] (upTo r.2 e)).bind fun body =>
          (sbAppendLimited limits.repeatMaxBytes out (bodyCopies r.1 body)).bind fun out =>
            regionOut limits out (skipNewline (skipHspace (e.drop 4))) := by
  rw [regionOut, lex_rep h, expandTokens_rep, directiveCount_lex]
  cases repeatCount (text.drop 7) with
  | none => rfl
  | some r =>
    rw [Option.map_some, Option.bind_some, Option.bind_some]
    dsimp only
    split
    · rfl
    · have hfound := findMatchingEnd_lex r.2.length r.2 0 le_rfl
      cases hend : findMatchingEnd 1 r.2 with
      | none =>
        rw [hend] at hfound
        rw [show matchEnd 0 (lexSource false r.2) = none from hfound]
        rfl
      | some e =>
        rw [hend] at hfound
        obtain ⟨b, e', hbody, he, hmatch⟩ := hfound
        have hdrop : e.drop 4 = e' := by
          rw [he]
          rfl
        rw [hmatch, Option.bind_some, Option.bind_some, hbody, upTo_append, hdrop, withinLimit_eq,
          ← lex_skipLineEnd]
        unfold regionOut
        cases (expandTokens limits (lexSource false b)).bind fun tail =>
            sbAppendLimited limits.repeatMaxBytes [] tail with
        | none => rfl
        | some body =>
          rw [Option.bind_some, Option.bind_some]
          cases expandTokens limits (lexSource false (skipNewline (skipHspace e'))) with
          | none => simp
          | some tail =>
            simp only [Option.map_some, Option.bind_some]
            exact sbAppendLimited_append _ _ _ _

theorem expandStep_rep {c : Char} {rest : List Char} {stack : List RepeatFrame}
    (h : directiveAt repeatWord (c :: rest) = true) :
    expandStep limits (⟨c :: rest, out, none⟩ :: stack) =
      pushBody limits ⟨c :: rest, out, none⟩ (rest.drop 6) stack := by
  obtain rfl : c = '@' := by
    by_contra hc
    rw [directiveAt_of_ne (.inl rfl) hc] at h
    cases h
  rw [expandStep]
  dsimp only
  rw [if_neg (by simp), if_neg (by decide), if_pos h]

/-- An `@end` that the run meets is copied like any other text. -/
theorem expandTokens_plain {c : Char} {rest : List Char}
    (hline : ¬ (c = '/' ∧ rest.head? = some '/')) (hquote : c ≠ '"')
    (hrep : directiveAt repeatWord (c :: rest) = false) :
    expandTokens limits (lexSource false (c :: rest)) =
      (expandTokens limits (lexSource false rest)).map fun tail => [c] ++ tail := by
  cases hfin : directiveAt endWord (c :: rest) with
  | false =>
    rw [PlainChar.lex ⟨hline, hquote, hrep, hfin⟩, expandTokens]
    rfl
  | true =>
    have hsplit := directiveAt_split hfin
    obtain ⟨rfl, hrest⟩ := List.cons.inj hsplit
    have he : Inert 'e' := ⟨by decide, by decide, by decide⟩
    have hn : Inert 'n' := ⟨by decide, by decide, by decide⟩
    have hd : Inert 'd' := ⟨by decide, by decide, by decide⟩
    have hlex : lexSource false rest = (['e', 'n', 'd'].map .text) ++
        lexSource false (rest.drop 3) := by
      conv_lhs => rw [hrest]
      change lexSource false ('e' :: 'n' :: 'd' :: rest.drop 3) = _
      rw [(he.plain _).lex, (hn.plain _).lex, (hd.plain _).lex]
      rfl
    rw [lex_fin hfin, expandTokens, hlex, expandTokens_text, Option.map_map]
    rfl

end

/-- A block: its body is run on a frame of its own, and the copies go to the frame below. -/
theorem RunsTo.block {limits : ExpansionLimits} {c : Char} {rest out : List Char}
    {stack : List RepeatFrame} (hrep : directiveAt repeatWord (c :: rest) = true)
    (ih : ∀ text : List Char, text.length ≤ rest.length → ∀ (out : List Char)
      (stack : List RepeatFrame),
        RunsTo limits (2 * text.length) ⟨text, out, none⟩ stack (regionOut limits out text)) :
    RunsTo limits (2 * (c :: rest).length) ⟨c :: rest, out, none⟩ stack
      (regionOut limits out (c :: rest)) := by
  have hstep : expandStep limits (⟨c :: rest, out, none⟩ :: stack) =
      pushBody limits ⟨c :: rest, out, none⟩ (rest.drop 6) stack := expandStep_rep hrep
  have hdrop : (c :: rest).drop 7 = rest.drop 6 := rfl
  rw [regionOut_rep hrep, hdrop]
  unfold pushBody at hstep
  cases hcount : repeatCount (rest.drop 6) with
  | none =>
    rw [hcount] at hstep
    exact Fails.step hstep
  | some r =>
    obtain ⟨count, line⟩ := r
    have hle := length_repeatCount hcount
    rw [List.length_drop] at hle
    rw [hcount] at hstep
    rw [Option.bind_some]
    dsimp only at hstep ⊢
    by_cases hbad : count = 0 ∨ limits.repeatMaxCount < count
    · rw [if_pos hbad]
      rcases hbad with hzero | hmax
      · rw [if_pos hzero] at hstep
        exact Fails.step hstep
      · rw [if_pos hmax, ite_self] at hstep
        exact Fails.step hstep
    rw [if_neg hbad]
    rw [if_neg (fun h => hbad (.inl h)), if_neg (fun h => hbad (.inr h))] at hstep
    cases hend : findMatchingEnd 1 line with
    | none =>
      rw [hend] at hstep
      exact Fails.step hstep
    | some e =>
      have hfound := findMatchingEnd_lex line.length line 0 le_rfl
      rw [hend] at hfound hstep
      obtain ⟨b, e', hline', he, -⟩ := hfound
      have hlens : line.length = b.length + (4 + e'.length) := by
        rw [hline', he, List.length_append, List.length_append]
        rfl
      have hafter := length_skipLine_le e'
      have htail : e.drop 4 = e' := by
        rw [he]
        rfl
      have hbody : upTo line e = b := by rw [hline', upTo_append]
      rw [upTo] at hbody
      dsimp only at hstep
      rw [hbody] at hstep
      rw [Option.bind_some, upTo, hbody, htail]
      have hpush := Leads.step hstep
      have hregion := ih b (by omega) [] (⟨c :: rest, out, some (count, e)⟩ :: stack)
      cases hr : regionOut limits [] b with
      | none =>
        rw [hr] at hregion
        exact hpush.fails hregion
      | some body =>
        rw [hr] at hregion
        obtain ⟨k, hk, hlead⟩ := hregion
        have hpop : expandStep limits (⟨[], body, none⟩ ::
            ⟨c :: rest, out, some (count, e)⟩ :: stack) =
            match appendCopies limits.repeatMaxBytes count out body with
            | none => .fail
            | some out => .next (⟨skipNewline (skipHspace (e.drop 4)), out, none⟩ :: stack) :=
          rfl
        rw [appendCopies_eq, htail] at hpop
        rw [Option.bind_some]
        cases happ : sbAppendLimited limits.repeatMaxBytes out (bodyCopies count body) with
        | none =>
          rw [happ] at hpop
          exact (hpush.trans hlead).fails (Fails.step hpop)
        | some out' =>
          rw [happ] at hpop
          rw [Option.bind_some]
          exact (ih _ (by omega) out' stack).after
            ((hpush.trans hlead).trans (Leads.step hpop)) (by
              rw [List.length_cons]
              omega)

/-- A region runs to the end with what the recursion gives, or the run fails with it. -/
theorem run_region (limits : ExpansionLimits) (n : ℕ) : ∀ text : List Char, text.length ≤ n →
    ∀ (out : List Char) (stack : List RepeatFrame),
      RunsTo limits (2 * text.length) ⟨text, out, none⟩ stack (regionOut limits out text) := by
  induction n with
  | zero =>
    intro text hlen out stack
    obtain rfl := List.length_eq_zero_iff.mp (Nat.le_zero.mp hlen)
    rw [regionOut, lex_nil, expandTokens]
    exact ⟨0, le_rfl, Leads.refl _⟩
  | succ n ih =>
    intro text hlen out stack
    cases text with
    | nil =>
      rw [regionOut, lex_nil, expandTokens]
      exact ⟨0, Nat.zero_le _, Leads.refl _⟩
    | cons c rest =>
      rw [List.length_cons] at hlen
      by_cases hline : c = '/' ∧ rest.head? = some '/'
      · have hsuffix := (lineTail_suffix rest).trans (List.suffix_cons c rest)
        have hle := length_lineTail_le rest
        refine RunsTo.copy (upTo_append_of_suffix hsuffix).symm ?_ (if_pos hline) ?_
          fun out => ih _ (by omega) out stack
        · rw [upTo_cons_of_suffix (lineTail_suffix rest)]
          exact List.cons_ne_nil _ _
        · rw [lex_line hline, expandTokens_text]
      by_cases hquote : c = '"'
      · subst hquote
        have hsub := (skipQuote_suffix _).trans (stringTail_suffix rest)
        have hle := hsub.length_le
        refine RunsTo.copy (upTo_append_of_suffix (hsub.trans (List.suffix_cons _ _))).symm ?_ ?_ ?_
          fun out => ih _ (by omega) out stack
        · rw [upTo_cons_of_suffix hsub]
          exact List.cons_ne_nil _ _
        · rw [expandStep]
          dsimp only
          rw [if_neg hline, if_pos rfl]
        · rw [lex_string, expandTokens_text]
      cases hrep : directiveAt repeatWord (c :: rest) with
      | false =>
        refine RunsTo.copy (u := [c]) rfl (List.cons_ne_nil _ _) ?_
          (expandTokens_plain hline hquote hrep) fun out => ih rest (by omega) out stack
        rw [expandStep]
        dsimp only
        rw [if_neg hline, if_neg hquote, hrep, if_neg Bool.false_ne_true]
      | true => exact RunsTo.block hrep fun text htext => ih text (by omega)

end JzHdl

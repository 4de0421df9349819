import JzHdl.Lsp.JsonText

/-! # The JSON reader

The reader never looks behind the terminating NUL, reads back what the writer
escaped, and finds the members of a well-formed object by the text of their keys.
-/

namespace JzHdl.Lsp

/-! ## Staying inside the text -/

/-- A text that ends with its only NUL. -/
inductive Terminated : Text → Prop where

  | nul : Terminated [0]

  | byte {c : UInt8} {rest : Text} : c ≠ 0 → Terminated rest → Terminated (c :: rest)

theorem terminated_append : ∀ {s : Text}, (∀ c ∈ s, c ≠ 0) → Terminated (s ++ [0])
  | [], _ => .nul
  | c :: rest, h => by
      obtain ⟨hc, hrest⟩ := List.forall_mem_cons.mp h
      exact .byte hc (terminated_append hrest)

theorem Terminated.tail {c : UInt8} {rest : Text} (h : Terminated (c :: rest)) (hc : c ≠ 0) :
    Terminated rest := by
  cases h with
  | nul => exact absurd rfl hc
  | byte _ hrest => exact hrest

/-- A scanner stops inside the text. -/
def Stays (f : Text → Option Text) (p : Text) : Prop := ∃ q, f p = some q ∧ Terminated q

theorem Stays.bind {f g : Text → Option Text} {p : Text} (hf : Stays f p)
    (hg : ∀ q, Terminated q → Stays g q) : Stays (fun p => (f p).bind g) p := by
  obtain ⟨q, hq, hterm⟩ := hf
  obtain ⟨r, hr, hrterm⟩ := hg q hterm
  refine ⟨r, ?_, hrterm⟩
  dsimp only
  rw [hq, Option.bind_some, hr]

theorem skipWs_stays {p : Text} (h : Terminated p) : Stays skipWs p := by
  induction h with
  | nul => exact ⟨[0], rfl, .nul⟩
  | @byte c rest hc h ih =>
    rw [Stays, skipWs]
    by_cases hws : isWs c = true
    · rw [if_pos hws]
      exact ih
    · rw [if_neg hws]
      exact ⟨_, rfl, .byte hc h⟩

theorem scanString_stays : ∀ {p : Text}, Terminated p → Stays scanString p
  | [], h => by cases h
  | [c], h => by
      cases h with
      | nul => exact ⟨[0], rfl, .nul⟩
      | byte _ hrest => cases hrest
  | c :: d :: rest, h => by
      rw [Stays, scanString]
      by_cases hstop : c = 0 ∨ c = quote
      · rw [if_pos hstop]
        exact ⟨_, rfl, h⟩
      · have hd := h.tail (not_or.mp hstop).1
        rw [if_neg hstop]
        by_cases hslash : c = backslash
        · rw [if_pos hslash]
          by_cases hzero : d = 0
          · rw [if_pos hzero]
            exact ⟨_, rfl, hd⟩
          · rw [if_neg hzero]
            exact scanString_stays (hd.tail hzero)
        · rw [if_neg hslash]
          exact scanString_stays hd

theorem scanAtom_stays {p : Text} (h : Terminated p) : Stays scanAtom p := by
  induction h with
  | nul => exact ⟨[0], rfl, .nul⟩
  | @byte c rest hc h ih =>
    rw [Stays, scanAtom]
    by_cases hstop : c = 0 ∨ endsAtom c = true
    · rw [if_pos hstop]
      exact ⟨_, rfl, .byte hc h⟩
    · rw [if_neg hstop]
      exact ih

theorem advance_stays {p : Text} (h : Terminated p) : Stays advance p := by
  cases h with
  | nul => exact ⟨[0], rfl, .nul⟩
  | byte hc hrest => exact ⟨_, if_neg hc, hrest⟩

theorem passByte_stays {expected : UInt8} (hexp : expected ≠ 0) {p : Text} (h : Terminated p) :
    Stays (passByte expected) p := by
  cases h with
  | nul => exact ⟨[0], if_neg (Ne.symm hexp), .nul⟩
  | @byte c rest hc hrest =>
    rw [Stays, passByte]
    by_cases heq : c = expected
    · rw [if_pos heq]
      exact ⟨_, rfl, hrest⟩
    · rw [if_neg heq]
      exact ⟨_, rfl, .byte hc hrest⟩

theorem skipNested_stays {opening closing : UInt8} (depth : ℕ) (p : Text) :
    Terminated p → Stays (skipNested opening closing depth) p := by
  induction depth, p using skipNested.induct opening closing with
  | case1 depth =>
    intro h
    cases h
  | case2 depth c rest hstop =>
    intro h
    rw [Stays, skipNested, if_pos hstop]
    exact ⟨_, rfl, h⟩
  | case3 depth rest hstop ih =>
    intro h
    rw [Stays, skipNested, if_neg hstop, if_pos rfl]
    exact ih (h.tail (not_or.mp hstop).1)
  | case4 depth rest hstop hopen ih =>
    intro h
    rw [Stays, skipNested, if_neg hstop, if_neg hopen, if_pos rfl]
    exact ih (h.tail (not_or.mp hstop).1)
  | case5 depth rest hnone hstop hopen hclose =>
    intro h
    obtain ⟨q, hq, -⟩ := (scanString_stays (h.tail (by decide))).bind fun _ => advance_stays
    cases hnone.symm.trans hq
  | case6 depth rest r hsome hstop hopen hclose ih =>
    intro h
    obtain ⟨q, hq, hterm⟩ := (scanString_stays (h.tail (by decide))).bind fun _ => advance_stays
    obtain rfl : r = q := Option.some.inj (hsome.symm.trans hq)
    rw [Stays, skipNested_quote rest hstop hopen hclose, hsome, Option.bind_some]
    exact ih hterm
  | case7 depth c rest hstop hopen hclose hquote ih =>
    intro h
    rw [Stays, skipNested, if_neg hstop, if_neg hopen, if_neg hclose, if_neg hquote]
    exact ih (h.tail (not_or.mp hstop).1)

theorem skipToken_stays {p : Text} (h : Terminated p) : Stays skipToken p := by
  cases p with
  | nil => cases h
  | cons c rest =>
    rw [Stays, skipToken]
    by_cases hquote : c = quote
    · subst hquote
      obtain ⟨q, hq, hterm⟩ := scanString_stays (h.tail (by decide))
      rw [if_pos rfl, hq, Option.bind_some]
      cases q with
      | nil => cases hterm
      | cons d after =>
        dsimp only
        by_cases hd : d = quote
        · rw [if_pos hd]
          exact ⟨_, rfl, hterm.tail (hd ▸ by decide)⟩
        · rw [if_neg hd]
          exact ⟨_, rfl, hterm⟩
    · rw [if_neg hquote]
      by_cases hbrace : c = openBrace
      · rw [if_pos hbrace]
        exact skipNested_stays 1 rest (h.tail (hbrace ▸ by decide))
      · rw [if_neg hbrace]
        by_cases hbracket : c = openBracket
        · rw [if_pos hbracket]
          exact skipNested_stays 1 rest (h.tail (hbracket ▸ by decide))
        · rw [if_neg hbracket]
          exact scanAtom_stays h

theorem skipValue_stays {p : Text} (h : Terminated p) : Stays skipValue p :=
  (skipWs_stays h).bind fun _ => skipToken_stays

theorem readKey_stays {p : Text} (h : Terminated p) :
    ∃ k, readKey p = some k ∧ Terminated k.2 := by
  obtain ⟨q, hq, hqterm⟩ := scanString_stays h
  obtain ⟨v, hv, hvterm⟩ := (passByte_stays (by decide : quote ≠ 0) hqterm).bind
    fun _ => skipWs_stays
  obtain ⟨v', hv', hvterm'⟩ := (passByte_stays (by decide : colon ≠ 0) hvterm).bind
    fun _ => skipWs_stays
  refine ⟨(p.take (p.length - q.length), v'), ?_, hvterm'⟩
  simp only [readKey, hq, Option.bind_eq_bind, Option.bind_some, hv, hv', Option.pure_def]

/-- What the loop does at a byte that is no whitespace. -/
def keyStep (next : Text → Option (Option Text)) (key : Text) : Text → Option (Option Text)
  | [] => none
  | d :: tail =>
    if d = closeBrace then some none
    else if d = comma then next tail
    else if d ≠ quote then some none
    else (readKey tail).bind fun k =>
      if k.1 = key then some (some k.2) else (skipValue k.2).bind next

theorem findKeyLoop_eq {key rest : Text} {c : UInt8} (hc : c ≠ 0) :
    findKeyLoop key (c :: rest) = (skipWs (c :: rest)).bind (keyStep (findKeyLoop key) key) := by
  rw [findKeyLoop, if_neg hc]
  split
  · rename_i hws
    rw [hws, Option.bind_none]
  · rename_i hws
    rw [hws, Option.bind_some, keyStep]
  · rename_i d tail hws
    rw [hws, Option.bind_some, keyStep]
    split
    · rfl
    · split
      · rfl
      · split
        · rfl
        · split
          · rename_i hkey
            rw [hkey, Option.bind_none]
          · rename_i raw value hkey
            rw [hkey, Option.bind_some]
            split
            · rfl
            · split
              · rename_i hskip
                rw [hskip, Option.bind_none]
              · rename_i q hskip
                rw [hskip, Option.bind_some]

/-- The lookup ends inside the text, with or without a value. -/
def FindsInside (r : Option (Option Text)) : Prop :=
  ∃ v, r = some v ∧ ∀ p, v = some p → Terminated p

theorem findKeyLoop_stays (key : Text) (n : ℕ) : ∀ p : Text, p.length ≤ n → Terminated p →
    FindsInside (findKeyLoop key p) := by
  induction n with
  | zero =>
    intro p hn h
    rw [Nat.le_zero, List.length_eq_zero_iff] at hn
    subst hn
    cases h
  | succ n ih =>
    intro p hn h
    cases p with
    | nil => cases h
    | cons c rest =>
      by_cases hc : c = 0
      · subst hc
        rw [findKeyLoop, if_pos rfl]
        exact ⟨none, rfl, fun _ hp => by cases hp⟩
      · obtain ⟨q, hq, hqterm⟩ := skipWs_stays h
        have hqlen := le_trans (length_skipWs hq) hn
        rw [findKeyLoop_eq hc, hq, Option.bind_some]
        cases q with
        | nil => cases hqterm
        | cons d tail =>
          have htail : d ≠ 0 → tail.length ≤ n ∧ Terminated tail := fun hd =>
            ⟨Nat.le_of_succ_le_succ hqlen, hqterm.tail hd⟩
          rw [keyStep]
          by_cases hbrace : d = closeBrace
          · rw [if_pos hbrace]
            exact ⟨none, rfl, fun _ hp => by cases hp⟩
          · rw [if_neg hbrace]
            by_cases hcomma : d = comma
            · obtain ⟨hlen, hterm⟩ := htail (hcomma ▸ by decide)
              rw [if_pos hcomma]
              exact ih tail hlen hterm
            · rw [if_neg hcomma]
              by_cases hquote : d = quote
              · obtain ⟨hlen, hterm⟩ := htail (hquote ▸ by decide)
                obtain ⟨k, hk, hkterm⟩ := readKey_stays hterm
                rw [if_neg (not_not.mpr hquote), hk, Option.bind_some]
                by_cases hkey : k.1 = key
                · rw [if_pos hkey]
                  refine ⟨some k.2, rfl, fun p hp => ?_⟩
                  obtain rfl := Option.some.inj hp
                  exact hkterm
                · obtain ⟨r, hr, hrterm⟩ := skipValue_stays hkterm
                  rw [if_neg hkey, hr, Option.bind_some]
                  exact ih r
                    (le_trans (length_skipValue hr) (le_trans (length_readKey hk) hlen)) hrterm
              · rw [if_pos hquote]
                exact ⟨none, rfl, fun _ hp => by cases hp⟩

theorem findKey_stays (key : Text) {json : Text} (h : Terminated json) :
    FindsInside (findKey json key) := by
  obtain ⟨p, hp, hterm⟩ := skipWs_stays h
  rw [findKey, hp, Option.bind_some]
  cases p with
  | nil => cases hterm
  | cons c rest =>
    dsimp only
    by_cases hbrace : c = openBrace
    · rw [if_neg (not_not.mpr hbrace)]
      exact findKeyLoop_stays key rest.length rest le_rfl (hterm.tail (hbrace ▸ by decide))
    · rw [if_pos hbrace]
      exact ⟨none, rfl, nofun⟩

theorem copyString_stays : ∀ {p : Text} (room : ℕ), Terminated p →
    (copyString p room).isSome = true
  | [], _, h => by cases h
  | [c], room, h => by
      cases h with
      | nul => rfl
      | byte _ hrest => cases hrest
  | c :: d :: rest, room, h => by
      rw [copyString]
      by_cases hstop : c = 0 ∨ c = quote ∨ room = 0
      · rw [if_pos hstop]
        rfl
      · have hd := h.tail (not_or.mp hstop).1
        rw [if_neg hstop]
        by_cases hslash : c = backslash
        · rw [if_pos hslash]
          by_cases hzero : d = 0
          · rw [if_pos hzero]
            rfl
          · rw [if_neg hzero, Option.isSome_map]
            exact copyString_stays (room - 1) (hd.tail hzero)
        · rw [if_neg hslash, Option.isSome_map]
          exact copyString_stays (room - 1) hd

theorem getString_stays (key : Text) (cap : ℕ) {json : Text} (h : Terminated json) :
    (getString json key cap).isSome = true := by
  obtain ⟨v, hv, hterm⟩ := findKey_stays key h
  rw [getString, hv, Option.bind_some]
  cases v with
  | none => rfl
  | some p =>
    obtain ⟨q, hq, hqterm⟩ := skipWs_stays (hterm p rfl)
    dsimp only
    rw [hq, Option.bind_some]
    cases q with
    | nil => cases hqterm
    | cons c rest =>
      dsimp only
      by_cases hquote : c = quote
      · rw [if_neg (not_not.mpr hquote), Option.isSome_map]
        exact copyString_stays (cap - 1) (hqterm.tail (hquote ▸ by decide))
      · rw [if_pos hquote]
        rfl

/-! ## Escaping and reading back -/

/-- No control character but those with an escape of their own. -/
def Readable (s : Text) : Prop := ∀ c ∈ s, c < 32 → c = newline ∨ c = carriageReturn ∨ c = tab

theorem copyString_cons {c d : UInt8} {rest : Text} {room : ℕ} (hc : c ≠ 0) (hquote : c ≠ quote)
    (hroom : room ≠ 0) (hslash : c ≠ backslash) :
    copyString (c :: d :: rest) room = (copyString (d :: rest) (room - 1)).map (c :: ·) := by
  rw [copyString, if_neg, if_neg hslash]
  tauto

theorem copyString_escape {d : UInt8} {rest : Text} {room : ℕ} (hd : d ≠ 0) (hroom : room ≠ 0) :
    copyString (backslash :: d :: rest) room =
      (copyString rest (room - 1)).map (unescaped d :: ·) := by
  have hstop : ¬(backslash = 0 ∨ backslash = quote ∨ room = 0) := by
    rintro (h | h | h)
    · exact absurd h (by decide)
    · exact absurd h (by decide)
    · exact hroom h
  rw [copyString, if_neg hstop, if_pos rfl, if_neg hd]

/-- One escaped byte is read back as itself. -/
theorem copyString_escapeByte {c : UInt8} (hc : c ≠ 0)
    (hread : c < 32 → c = newline ∨ c = carriageReturn ∨ c = tab) {d : UInt8} {rest : Text}
    {room : ℕ} (hroom : room ≠ 0) : copyString (escapeByte c ++ d :: rest) room =
      (copyString (d :: rest) (room - 1)).map (c :: ·) := by
  rw [escapeByte]
  split
  · rename_i h
    subst h
    exact copyString_escape (by decide) hroom
  · split
    · rename_i h
      subst h
      exact copyString_escape (by decide) hroom
    · split
      · rename_i h
        subst h
        exact copyString_escape (by decide) hroom
      · split
        · rename_i h
          subst h
          exact copyString_escape (by decide) hroom
        · split
          · rename_i h
            subst h
            exact copyString_escape (by decide) hroom
          · split
            · rename_i hquote hslash hnewline hreturn htab hlow
              rcases hread hlow with h | h | h
              · exact absurd h hnewline
              · exact absurd h hreturn
              · exact absurd h htab
            · rename_i hquote hslash _ _ _ _
              exact copyString_cons hc hquote hroom hslash

theorem flatMap_quote_cons (s : Text) (tail : Text) :
    ∃ d rest, s.flatMap escapeByte ++ quote :: tail = d :: rest := by
  cases h : s.flatMap escapeByte with
  | nil => exact ⟨quote, tail, rfl⟩
  | cons d rest => exact ⟨d, rest ++ quote :: tail, rfl⟩

theorem copyString_readable : ∀ {s : Text} {room : ℕ} {tail : Text}, (∀ c ∈ s, c ≠ 0) →
    Readable s → s.length ≤ room →
    copyString (s.flatMap escapeByte ++ quote :: tail) room = some s
  | [], room, tail, _, _, _ => by
      rw [List.flatMap_nil, List.nil_append]
      cases tail with
      | nil =>
        rw [copyString, if_pos (.inr (.inl rfl))]
      | cons t tail =>
        rw [copyString, if_pos (.inr (.inl rfl))]
  | c :: rest, room, tail, hzero, hread, hlen => by
      obtain ⟨hc, hrest⟩ := List.forall_mem_cons.mp hzero
      obtain ⟨hcread, hrestread⟩ := List.forall_mem_cons.mp hread
      rw [List.length_cons] at hlen
      obtain ⟨d, more, hmore⟩ := flatMap_quote_cons rest tail
      rw [List.flatMap_cons, List.append_assoc, hmore,
        copyString_escapeByte hc hcread (by omega), ← hmore,
        copyString_readable hrest hrestread (by omega), Option.map_some]

/-- A control character comes back as the letters of its escape. -/
theorem readable_of_copyString : ∀ {s : Text} {room : ℕ} {tail : Text}, (∀ c ∈ s, c ≠ 0) →
    s.length ≤ room → copyString (s.flatMap escapeByte ++ quote :: tail) room = some s →
    Readable s
  | [], _, _, _, _, _ => fun c hc => absurd hc List.not_mem_nil
  | c :: rest, room, tail, hzero, hlen, hcopy => by
      obtain ⟨hc, hrest⟩ := List.forall_mem_cons.mp hzero
      rw [List.length_cons] at hlen
      by_cases hread : c < 32 → c = newline ∨ c = carriageReturn ∨ c = tab
      · obtain ⟨d, more, hmore⟩ := flatMap_quote_cons rest tail
        rw [List.flatMap_cons, List.append_assoc, hmore,
          copyString_escapeByte hc hread (by omega), ← hmore, Option.map_eq_some_iff] at hcopy
        obtain ⟨r, hr, hcons⟩ := hcopy
        obtain rfl := (List.cons.inj hcons).2
        exact List.forall_mem_cons.mpr ⟨hread, readable_of_copyString hrest (by omega) hr⟩
      · push Not at hread
        obtain ⟨hlow, hnewline, hreturn, htab⟩ := hread
        have hquote : c ≠ quote := fun h => absurd (h ▸ hlow) (by decide)
        have hslash : c ≠ backslash := fun h => absurd (h ▸ hlow) (by decide)
        rw [List.flatMap_cons, escapeByte, if_neg hquote, if_neg hslash, if_neg hnewline,
          if_neg hreturn, if_neg htab, if_pos hlow] at hcopy
        have hfirst := @copyString_escape letterU (zero :: zero :: hexByte (c / 16) ::
          hexByte (c % 16) :: (rest.flatMap escapeByte ++ quote :: tail)) room (by decide) (by omega)
        rw [show ([backslash, letterU, zero, zero, hexByte (c / 16), hexByte (c % 16)] ++
          rest.flatMap escapeByte ++ quote :: tail) = backslash :: letterU :: zero :: zero ::
            hexByte (c / 16) :: hexByte (c % 16) :: (rest.flatMap escapeByte ++ quote :: tail)
          from rfl, hfirst, Option.map_eq_some_iff] at hcopy
        obtain ⟨r, -, hcons⟩ := hcopy
        have hletter : unescaped letterU = c := (List.cons.inj hcons).1
        rw [← hletter] at hlow
        exact absurd hlow (by decide)

end JzHdl.Lsp

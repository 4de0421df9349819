import JzHdl.Lsp.JsonReader

/-! # JSON objects

Well-formed values with arbitrary nesting and whitespace, and the members of an
object. The lookup compares the text of a key as it stands between its quotes.
-/

namespace JzHdl.Lsp

/-! ## Values -/

def WsText (w : Text) : Prop := ∀ c ∈ w, isWs c = true

/-- The inside of a string. A backslash takes the next byte with it. -/
inductive RawString : Text → Prop where

  | nil : RawString []

  | plain {c : UInt8} {rest : Text} : c ≠ 0 → c ≠ quote → c ≠ backslash → RawString rest →
      RawString (c :: rest)

  | escape {c : UInt8} {rest : Text} : c ≠ 0 → RawString rest →
      RawString (backslash :: c :: rest)

/-- A number or a name. -/
def IsAtom (t : Text) : Prop :=
  t ≠ [] ∧ ∀ c ∈ t, c ≠ 0 ∧ endsAtom c = false ∧ c ≠ quote ∧ c ≠ openBrace ∧ c ≠ openBracket

inductive Part | value | items | members

/-- Well-formed text: a value, the inside of an array or the inside of an object. -/
inductive Json : Part → Text → Prop where

  | string {raw : Text} : RawString raw → Json .value (quote :: (raw ++ [quote]))

  | atom {t : Text} : IsAtom t → Json .value t

  | array {body : Text} : Json .items body → Json .value (openBracket :: (body ++ [closeBracket]))

  | object {body : Text} : Json .members body → Json .value (openBrace :: (body ++ [closeBrace]))

  | noItems {w : Text} : WsText w → Json .items w

  | item {a v b : Text} : WsText a → Json .value v → WsText b → Json .items (a ++ v ++ b)

  | moreItems {a v b rest : Text} : WsText a → Json .value v → WsText b → Json .items rest →
      Json .items (a ++ v ++ b ++ comma :: rest)

  | noMembers {w : Text} : WsText w → Json .members w

  | member {a k b c v d : Text} : WsText a → RawString k → WsText b → WsText c → Json .value v →
      WsText d → Json .members (a ++ quote :: (k ++ [quote]) ++ b ++ colon :: c ++ v ++ d)

  | moreMembers {a k b c v d rest : Text} : WsText a → RawString k → WsText b → WsText c →
      Json .value v → WsText d → Json .members rest →
      Json .members (a ++ quote :: (k ++ [quote]) ++ b ++ colon :: c ++ v ++ d ++ comma :: rest)

/-! ## Scanning strings -/

theorem scanString_plain {c : UInt8} {p : Text} (hc : c ≠ 0) (hquote : c ≠ quote)
    (hslash : c ≠ backslash) (hp : p ≠ []) : scanString (c :: p) = scanString p := by
  cases p with
  | nil => exact absurd rfl hp
  | cons d rest =>
    rw [scanString, if_neg, if_neg hslash]
    tauto

theorem scanString_escape {c : UInt8} (hc : c ≠ 0) (p : Text) :
    scanString (backslash :: c :: p) = scanString p := by
  rw [scanString, if_neg (by decide), if_pos rfl, if_neg hc]

theorem scanString_quote (rest : Text) : scanString (quote :: rest) = some (quote :: rest) := by
  cases rest with
  | nil => rfl
  | cons d rest => rw [scanString, if_pos (.inr rfl)]

theorem scanString_raw {raw : Text} (h : RawString raw) (rest : Text) :
    scanString (raw ++ quote :: rest) = some (quote :: rest) := by
  induction h with
  | nil => exact scanString_quote rest
  | plain hc hquote hslash _ ih =>
    rw [List.cons_append, scanString_plain hc hquote hslash (by simp), ih]
  | escape hc _ ih => rw [List.cons_append, List.cons_append, scanString_escape hc, ih]

/-! ## Skipping nested text -/

/-- The brackets of one kind. -/
def IsPair (opening closing : UInt8) : Prop :=
  opening = openBrace ∧ closing = closeBrace ∨ opening = openBracket ∧ closing = closeBracket

/-- Skipping passes a text without a change of depth. -/
def Transparent (opening closing : UInt8) (t : Text) : Prop :=
  ∀ (depth : ℕ) (rest : Text), 0 < depth →
    skipNested opening closing depth (t ++ rest) = skipNested opening closing depth rest

section

variable {opening closing : UInt8}

theorem Transparent.append {s t : Text} (hs : Transparent opening closing s)
    (ht : Transparent opening closing t) : Transparent opening closing (s ++ t) := by
  intro depth rest hdepth
  rw [List.append_assoc, hs depth _ hdepth, ht depth _ hdepth]

theorem transparent_byte {c : UInt8} (hc : c ≠ 0) (hquote : c ≠ quote) (hopen : c ≠ opening)
    (hclose : c ≠ closing) : Transparent opening closing [c] := by
  intro depth rest hdepth
  have hstop : ¬(c = 0 ∨ depth = 0) := by
    rintro (h | h)
    · exact hc h
    · omega
  rw [List.singleton_append, skipNested, if_neg hstop, if_neg hopen, if_neg hclose, if_neg hquote]

theorem transparent_bytes {t : Text} (h : ∀ c ∈ t, Transparent opening closing [c]) :
    Transparent opening closing t := by
  induction t with
  | nil => exact fun _ _ _ => rfl
  | cons c rest ih =>
    obtain ⟨hc, hrest⟩ := List.forall_mem_cons.mp h
    exact hc.append (ih hrest)

variable (hpair : IsPair opening closing)

/-- A byte that is neither a quote nor a bracket. -/
def Ordinary (c : UInt8) : Prop :=
  c ≠ 0 ∧ c ≠ quote ∧ c ≠ openBrace ∧ c ≠ closeBrace ∧ c ≠ openBracket ∧ c ≠ closeBracket

instance (c : UInt8) : Decidable (Ordinary c) :=
  inferInstanceAs (Decidable (c ≠ 0 ∧ c ≠ quote ∧ c ≠ openBrace ∧ c ≠ closeBrace ∧
    c ≠ openBracket ∧ c ≠ closeBracket))

include hpair

theorem transparent_ordinary {c : UInt8} (h : Ordinary c) : Transparent opening closing [c] := by
  obtain ⟨hc, hquote, h1, h2, h3, h4⟩ := h
  rcases hpair with ⟨rfl, rfl⟩ | ⟨rfl, rfl⟩
  · exact transparent_byte hc hquote h1 h2
  · exact transparent_byte hc hquote h3 h4

theorem transparent_string {raw : Text} (h : RawString raw) :
    Transparent opening closing (quote :: (raw ++ [quote])) := by
  intro depth rest hdepth
  have hstop : ¬(quote = 0 ∨ depth = 0) := by
    rintro (h | h)
    · exact absurd h (by decide)
    · omega
  have hne : quote ≠ opening ∧ quote ≠ closing := by
    rcases hpair with ⟨rfl, rfl⟩ | ⟨rfl, rfl⟩ <;> decide
  rw [List.cons_append, List.append_assoc, List.singleton_append,
    skipNested_quote _ hstop hne.1 hne.2, scanString_raw h, Option.bind_some, advance,
    if_neg (by decide), Option.bind_some]

/-- Brackets of either kind around a transparent text. -/
theorem transparent_brackets {o c : UInt8} (hoc : IsPair o c) {body : Text}
    (h : Transparent opening closing body) :
    Transparent opening closing (o :: (body ++ [c])) := by
  by_cases hsame : o = opening
  · have hclosing : c = closing := by
      rcases hpair with ⟨rfl, rfl⟩ | ⟨rfl, rfl⟩ <;> rcases hoc with ⟨h1, rfl⟩ | ⟨h1, rfl⟩
      · rfl
      · exact absurd (h1.symm.trans hsame) (by decide)
      · exact absurd (h1.symm.trans hsame) (by decide)
      · rfl
    subst hsame hclosing
    intro depth rest hdepth
    have hne : ¬(o = 0 ∨ depth = 0) ∧ ¬(c = 0 ∨ depth + 1 = 0) ∧ c ≠ o := by
      rcases hoc with ⟨rfl, rfl⟩ | ⟨rfl, rfl⟩
      · exact ⟨by rintro (h | h); exact absurd h (by decide); omega,
          by rintro (h | h); exact absurd h (by decide); omega, by decide⟩
      · exact ⟨by rintro (h | h); exact absurd h (by decide); omega,
          by rintro (h | h); exact absurd h (by decide); omega, by decide⟩
    rw [List.cons_append, List.append_assoc, skipNested, if_neg hne.1, if_pos rfl,
      h (depth + 1) _ (Nat.succ_pos depth), List.singleton_append, skipNested, if_neg hne.2.1,
      if_neg hne.2.2, if_pos rfl, Nat.add_sub_cancel]
  · have hbytes : Transparent opening closing [o] ∧ Transparent opening closing [c] := by
      rcases hpair with ⟨rfl, rfl⟩ | ⟨rfl, rfl⟩ <;> rcases hoc with ⟨rfl, rfl⟩ | ⟨rfl, rfl⟩
      · exact absurd rfl hsame
      · exact ⟨transparent_byte (by decide) (by decide) (by decide) (by decide),
          transparent_byte (by decide) (by decide) (by decide) (by decide)⟩
      · exact ⟨transparent_byte (by decide) (by decide) (by decide) (by decide),
          transparent_byte (by decide) (by decide) (by decide) (by decide)⟩
      · exact absurd rfl hsame
    exact hbytes.1.append (h.append hbytes.2)

theorem transparent_ws {w : Text} (h : WsText w) : Transparent opening closing w := by
  refine transparent_bytes fun c hc => transparent_ordinary hpair ?_
  have hws := h c hc
  simp only [isWs, Bool.or_eq_true, beq_iff_eq] at hws
  rcases hws with ((rfl | rfl) | rfl) | rfl <;> decide

theorem transparent_atom {t : Text} (h : IsAtom t) : Transparent opening closing t := by
  refine transparent_bytes fun c hc => transparent_ordinary hpair ?_
  obtain ⟨hzero, hends, hquote, hbrace, hbracket⟩ := h.2 c hc
  simp only [endsAtom, Bool.or_eq_false_iff, beq_eq_false_iff_ne] at hends
  exact ⟨hzero, hquote, hbrace, hends.1.1.2, hbracket, hends.1.2⟩

/-- Strings, arrays and objects inside are passed without a change of depth. -/
theorem Json.transparent {part : Part} {t : Text} (h : Json part t) :
    Transparent opening closing t := by
  have hcomma := transparent_ordinary hpair (by decide : Ordinary comma)
  have hcolon := transparent_ordinary hpair (by decide : Ordinary colon)
  have hws : ∀ {w : Text}, WsText w → Transparent opening closing w := transparent_ws hpair
  induction h with
  | string hraw => exact transparent_string hpair hraw
  | atom hatom => exact transparent_atom hpair hatom
  | array _ ih => exact transparent_brackets hpair (.inr ⟨rfl, rfl⟩) ih
  | object _ ih => exact transparent_brackets hpair (.inl ⟨rfl, rfl⟩) ih
  | noItems hw => exact hws hw
  | item ha _ hb ih => exact ((hws ha).append ih).append (hws hb)
  | moreItems ha _ hb _ ih ihrest =>
    exact (((hws ha).append ih).append (hws hb)).append (hcomma.append ihrest)
  | noMembers hw => exact hws hw
  | member ha hk hb hc _ hd ih =>
    exact (((((hws ha).append (transparent_string hpair hk)).append (hws hb)).append
      (hcolon.append (hws hc))).append ih).append (hws hd)
  | moreMembers ha hk hb hc _ hd _ ih ihrest =>
    exact ((((((hws ha).append (transparent_string hpair hk)).append (hws hb)).append
      (hcolon.append (hws hc))).append ih).append (hws hd)).append (hcomma.append ihrest)

end

/-! ## Skipping values -/

/-- A text that goes on with something that ends a number. -/
def Delimited (rest : Text) : Prop := ∃ c more, rest = c :: more ∧ (c = 0 ∨ endsAtom c = true)

theorem delimited_ws {w rest : Text} (hw : WsText w) (h : Delimited rest) :
    Delimited (w ++ rest) := by
  cases w with
  | nil => exact h
  | cons c more =>
    have hc := hw c (List.mem_cons_self ..)
    refine ⟨c, more ++ rest, rfl, .inr ?_⟩
    rw [endsAtom, hc, Bool.or_true]

theorem skipWs_ws {w rest : Text} {c : UInt8} (hw : WsText w) (hc : isWs c = false) :
    skipWs (w ++ c :: rest) = some (c :: rest) := by
  induction w with
  | nil => rw [List.nil_append, skipWs, hc, if_neg Bool.false_ne_true]
  | cons d more ih =>
    obtain ⟨hd, hmore⟩ := List.forall_mem_cons.mp hw
    rw [List.cons_append, skipWs, if_pos hd, ih hmore]

theorem scanAtom_atom {t rest : Text} (h : ∀ c ∈ t, c ≠ 0 ∧ endsAtom c = false)
    (hrest : Delimited rest) : scanAtom (t ++ rest) = some rest := by
  induction t with
  | nil =>
    obtain ⟨c, more, rfl, hc⟩ := hrest
    rw [List.nil_append, scanAtom, if_pos hc]
  | cons c more ih =>
    obtain ⟨⟨hzero, hends⟩, hmore⟩ := List.forall_mem_cons.mp h
    have hgo : ¬(c = 0 ∨ endsAtom c = true) := by
      rw [hends]
      simpa using hzero
    rw [List.cons_append, scanAtom, if_neg hgo, ih hmore]

theorem Json.value_head {t : Text} (h : Json .value t) :
    ∃ c rest, t = c :: rest ∧ c ≠ 0 ∧ isWs c = false := by
  cases h with
  | string => exact ⟨_, _, rfl, by decide, by decide⟩
  | array => exact ⟨_, _, rfl, by decide, by decide⟩
  | object => exact ⟨_, _, rfl, by decide, by decide⟩
  | atom hatom =>
    obtain ⟨hne, hall⟩ := hatom
    obtain ⟨c, rest, rfl⟩ := List.exists_cons_of_ne_nil hne
    obtain ⟨hzero, hends, -⟩ := hall c (List.mem_cons_self ..)
    simp only [endsAtom, Bool.or_eq_false_iff] at hends
    exact ⟨c, rest, rfl, hzero, hends.2⟩

theorem skipNested_done (opening closing : UInt8) {rest : Text} (h : rest ≠ []) :
    skipNested opening closing 0 rest = some rest := by
  obtain ⟨c, more, rfl⟩ := List.exists_cons_of_ne_nil h
  rw [skipNested, if_pos (.inr rfl)]

theorem skipNested_brackets {o c : UInt8} (hoc : IsPair o c) {part : Part} {body rest : Text}
    (h : Json part body) (hrest : rest ≠ []) :
    skipNested o c 1 (body ++ c :: rest) = some rest := by
  have hne : ¬(c = 0 ∨ 1 = 0) ∧ c ≠ o := by
    rcases hoc with ⟨rfl, rfl⟩ | ⟨rfl, rfl⟩ <;> exact ⟨by decide, by decide⟩
  rw [h.transparent hoc 1 _ Nat.one_pos, skipNested, if_neg hne.1, if_neg hne.2, if_pos rfl,
    skipNested_done o c hrest]

/-- A well-formed value is skipped exactly. -/
theorem skipToken_value {t rest : Text} (h : Json .value t) (hrest : Delimited rest) :
    skipToken (t ++ rest) = some rest := by
  have hne : rest ≠ [] := by
    obtain ⟨c, more, rfl, -⟩ := hrest
    exact List.cons_ne_nil _ _
  cases h with
  | string hraw =>
    rw [List.cons_append, List.append_assoc, List.singleton_append, skipToken, if_pos rfl,
      scanString_raw hraw, Option.bind_some]
    exact if_pos rfl
  | array hbody =>
    rw [List.cons_append, List.append_assoc, List.singleton_append, skipToken,
      if_neg (by decide), if_neg (by decide), if_pos rfl,
      skipNested_brackets (.inr ⟨rfl, rfl⟩) hbody hne]
  | object hbody =>
    rw [List.cons_append, List.append_assoc, List.singleton_append, skipToken,
      if_neg (by decide), if_pos rfl, skipNested_brackets (.inl ⟨rfl, rfl⟩) hbody hne]
  | atom hatom =>
    obtain ⟨hnil, hall⟩ := hatom
    have hscan := scanAtom_atom (fun c hc => ⟨(hall c hc).1, (hall c hc).2.1⟩) hrest
    obtain ⟨c, more, rfl⟩ := List.exists_cons_of_ne_nil hnil
    obtain ⟨-, -, hquote, hbrace, hbracket⟩ := hall c (List.mem_cons_self ..)
    rw [List.cons_append, skipToken, if_neg hquote, if_neg hbrace, if_neg hbracket]
    exact hscan

theorem skipValue_value {t rest : Text} (h : Json .value t) (hrest : Delimited rest) :
    skipValue (t ++ rest) = some rest := by
  have htoken := skipToken_value h hrest
  obtain ⟨c, more, rfl, -, hws⟩ := h.value_head
  have hskip : skipWs (c :: more ++ rest) = some (c :: more ++ rest) :=
    skipWs_ws (fun _ h => absurd h List.not_mem_nil) hws
  rw [skipValue, hskip, Option.bind_some, htoken]

/-! ## Members -/

/-- A member of an object with the whitespace around its parts. -/
structure Member where

  lead : Text

  key : Text

  afterKey : Text

  beforeValue : Text

  value : Text

  trail : Text

  lead_ws : WsText lead

  key_raw : RawString key

  afterKey_ws : WsText afterKey

  beforeValue_ws : WsText beforeValue

  value_json : Json .value value

  trail_ws : WsText trail

namespace Member

/-- The text from the value on. -/
def fromValue (m : Member) (tail : Text) : Text := m.value ++ (m.trail ++ tail)

def fromKey (m : Member) (tail : Text) : Text :=
  m.key ++ quote :: (m.afterKey ++ colon :: (m.beforeValue ++ m.fromValue tail))

def text (m : Member) (tail : Text) : Text := m.lead ++ quote :: m.fromKey tail

end Member

/-- The members behind the first one. -/
def moreMembers : List Member → Text → Text
  | [], tail => tail
  | m :: rest, tail => comma :: m.text (moreMembers rest tail)

def membersText : List Member → Text → Text
  | [], tail => tail
  | m :: rest, tail => m.text (moreMembers rest tail)

/-- The text from the value of the first selected member on. -/
def lookupIn (sel : Member → Bool) : List Member → Text → Option Text
  | [], _ => none
  | m :: rest, tail =>
    if sel m then some (m.fromValue (moreMembers rest tail)) else lookupIn sel rest tail

/-- A well-formed object, with anything but a NUL in front of its end. -/
structure JsonObject where

  lead : Text

  members : List Member

  blank : Text

  trailing : Text

  lead_ws : WsText lead

  blank_ws : WsText blank

namespace JsonObject

/-- What follows the members. -/
def tail (o : JsonObject) : Text := o.blank ++ closeBrace :: (o.trailing ++ [0])

def text (o : JsonObject) : Text := o.lead ++ openBrace :: membersText o.members o.tail

def lookup (o : JsonObject) (sel : Member → Bool) : Option Text := lookupIn sel o.members o.tail

end JsonObject

/-! ## The lookup -/

section

variable {key : Text}

theorem fromValue_head (m : Member) (tail : Text) :
    ∃ c rest, m.fromValue tail = c :: rest ∧ isWs c = false := by
  obtain ⟨c, rest, hv, -, hws⟩ := m.value_json.value_head
  exact ⟨c, rest ++ (m.trail ++ tail), by rw [Member.fromValue, hv, List.cons_append], hws⟩

theorem readKey_member (m : Member) (tail : Text) :
    readKey (m.fromKey tail) = some (m.key, m.fromValue tail) := by
  obtain ⟨c, rest, hv, hws⟩ := fromValue_head m tail
  have hscan := scanString_raw m.key_raw
    (m.afterKey ++ colon :: (m.beforeValue ++ m.fromValue tail))
  have hcolon : skipWs (m.afterKey ++ colon :: (m.beforeValue ++ m.fromValue tail)) =
      some (colon :: (m.beforeValue ++ m.fromValue tail)) := skipWs_ws m.afterKey_ws (by decide)
  have hvalue : skipWs (m.beforeValue ++ m.fromValue tail) = some (m.fromValue tail) := by
    rw [hv]
    exact skipWs_ws m.beforeValue_ws hws
  rw [Member.fromKey, readKey, hscan]
  simp only [Option.bind_eq_bind, Option.bind_some, passByte, if_true, hcolon, hvalue,
    Option.pure_def, Option.some.injEq, Prod.mk.injEq, and_true]
  rw [List.length_append, Nat.add_sub_cancel, List.take_left]

theorem findKeyLoop_ws {w rest : Text} {c : UInt8} (hw : WsText w) (hws : isWs c = false)
    (hc : c ≠ 0) : findKeyLoop key (w ++ c :: rest) = keyStep (findKeyLoop key) key (c :: rest) := by
  have hskip : skipWs (w ++ c :: rest) = some (c :: rest) := skipWs_ws hw hws
  cases w with
  | nil =>
    rw [List.nil_append] at hskip ⊢
    rw [findKeyLoop_eq hc, hskip, Option.bind_some]
  | cons d more =>
    have hd : d ≠ 0 := by
      rintro rfl
      exact absurd (hw 0 (List.mem_cons_self ..)) (by decide)
    rw [List.cons_append] at hskip ⊢
    rw [findKeyLoop_eq hd, hskip, Option.bind_some]

/-- One member: its value is returned, or it is skipped. -/
theorem findKeyLoop_member (m : Member) {tail : Text} (htail : Delimited tail) :
    findKeyLoop key (m.text tail) =
      if m.key = key then some (some (m.fromValue tail)) else findKeyLoop key (m.trail ++ tail) := by
  have hskip := skipValue_value m.value_json (delimited_ws m.trail_ws htail)
  rw [Member.text, findKeyLoop_ws m.lead_ws (by decide) (by decide), keyStep,
    if_neg (by decide), if_neg (by decide), if_neg (by decide), readKey_member, Option.bind_some]
  dsimp only
  rw [Member.fromValue, hskip, Option.bind_some]

theorem delimited_moreMembers {tail : Text} (htail : Delimited tail) :
    ∀ ms : List Member, Delimited (moreMembers ms tail)
  | [] => htail
  | _ :: _ => ⟨comma, _, rfl, .inr (by decide)⟩

theorem findKeyLoop_end {w rest : Text} (hw : WsText w) :
    findKeyLoop key (w ++ closeBrace :: rest) = some none := by
  rw [findKeyLoop_ws hw (by decide) (by decide), keyStep, if_pos rfl]

theorem wsText_append {a b : Text} (ha : WsText a) (hb : WsText b) : WsText (a ++ b) := by
  intro c hc
  rcases List.mem_append.mp hc with h | h
  · exact ha c h
  · exact hb c h

theorem findKeyLoop_moreMembers (o : JsonObject) : ∀ (ms : List Member) {w : Text}, WsText w →
    findKeyLoop key (w ++ moreMembers ms o.tail) =
      some (lookupIn (fun m => decide (m.key = key)) ms o.tail)
  | [], w, hw => by
      rw [moreMembers, JsonObject.tail, ← List.append_assoc,
        findKeyLoop_end (wsText_append hw o.blank_ws), lookupIn]
  | m :: rest, w, hw => by
      have htail : Delimited o.tail := delimited_ws o.blank_ws ⟨_, _, rfl, .inr (by decide)⟩
      have hmember := @findKeyLoop_member key m _ (delimited_moreMembers htail rest)
      rw [moreMembers, findKeyLoop_ws hw (by decide) (by decide), keyStep, if_neg (by decide),
        if_pos rfl, hmember, lookupIn, findKeyLoop_moreMembers o rest m.trail_ws]
      by_cases hkey : m.key = key
      · rw [if_pos hkey, if_pos (decide_eq_true hkey)]
      · rw [if_neg hkey, if_neg (by simpa using hkey)]

/-- The lookup finds the first member whose key text is the key. -/
theorem findKey_object (o : JsonObject) :
    findKey o.text key = some (o.lookup fun m => decide (m.key = key)) := by
  rw [findKey, JsonObject.text, skipWs_ws o.lead_ws (by decide), Option.bind_some]
  dsimp only
  rw [if_neg (not_not.mpr rfl), JsonObject.lookup]
  cases hms : o.members with
  | nil => rw [membersText, JsonObject.tail, findKeyLoop_end o.blank_ws, lookupIn]
  | cons m rest =>
    have htail : Delimited o.tail := delimited_ws o.blank_ws ⟨_, _, rfl, .inr (by decide)⟩
    rw [membersText, findKeyLoop_member m (delimited_moreMembers htail rest), lookupIn,
      findKeyLoop_moreMembers o rest m.trail_ws]
    by_cases hkey : m.key = key
    · rw [if_pos hkey, if_pos (decide_eq_true hkey)]
    · rw [if_neg hkey, if_neg (by simpa using hkey)]

end

/-! ## Keys with escapes -/

def hexDigitOf (c : UInt8) : Option ℕ :=
  if 48 ≤ c ∧ c ≤ 57 then some (c.toNat - 48)
  else if 97 ≤ c ∧ c ≤ 102 then some (c.toNat - 87)
  else if 65 ≤ c ∧ c ≤ 70 then some (c.toNat - 55)
  else none

/-- Four hexadecimal digits and the text behind them. -/
def hexQuad : Text → Option (ℕ × Text)
  | a :: b :: c :: d :: rest => do
    let w ← hexDigitOf a
    let x ← hexDigitOf b
    let y ← hexDigitOf c
    let z ← hexDigitOf d
    return (w * 4096 + x * 256 + y * 16 + z, rest)
  | _ => none

/-- The second half of a surrogate pair. -/
def lowSurrogate : Text → Option (ℕ × Text)
  | b :: u :: rest =>
    if b = backslash ∧ u = letterU then
      (hexQuad rest).filter fun low => 0xDC00 ≤ low.1 ∧ low.1 < 0xE000
    else none
  | _ => none

/-- The code point behind a `u` escape. -/
def codePoint (p : Text) : Option (ℕ × Text) :=
  (hexQuad p).map fun high =>
    if 0xD800 ≤ high.1 ∧ high.1 < 0xDC00 then
      match lowSurrogate high.2 with
      | some low => (0x10000 + (high.1 - 0xD800) * 1024 + (low.1 - 0xDC00), low.2)
      | none => high
    else high

/-- The byte of a one-letter escape. -/
def escapeLetter (c : UInt8) : UInt8 :=
  if c = letterN then newline
  else if c = letterR then carriageReturn
  else if c = letterT then tab
  else if c = 98 then 8
  else if c = 102 then 12
  else c

/-- The bytes that the inside of a string stands for; the number bounds its length. -/
def decodeString : ℕ → Text → Text
  | 0, _ => []
  | _ + 1, [] => []
  | _ + 1, [c] => [c]
  | n + 1, c :: d :: rest =>
    if c ≠ backslash then c :: decodeString n (d :: rest)
    else if d = letterU then
      match codePoint rest with
      | some (code, more) => String.utf8EncodeChar (Char.ofNat code) ++ decodeString n more
      | none => d :: decodeString n rest
    else escapeLetter d :: decodeString n rest

/-- A member has a key when its key text denotes it. -/
def Member.hasKey (key : Text) (m : Member) : Bool := decodeString m.key.length m.key == key

/-- The text between the quotes of the key is the key. -/
def Member.rawKey (key : Text) (m : Member) : Bool := decide (m.key = key)

theorem length_fromValue (m : Member) (t : Text) : t.length ≤ (m.fromValue t).length := by
  rw [Member.fromValue, List.length_append, List.length_append]
  omega

theorem length_lookupIn {sel : Member → Bool} {tail t : Text} : ∀ {ms : List Member},
    lookupIn sel ms tail = some t → t.length ≤ (moreMembers ms tail).length
  | [], h => by cases h
  | m :: rest, h => by
      have htext : (m.fromValue (moreMembers rest tail)).length ≤
          (moreMembers (m :: rest) tail).length := by
        rw [moreMembers, Member.text, Member.fromKey]
        simp only [List.length_cons, List.length_append]
        omega
      rw [lookupIn] at h
      split at h
      · cases h
        exact htext
      · exact le_trans (length_lookupIn h) (le_trans (length_fromValue m _) htext)

/-- A later member has less text behind it. -/
theorem lookupIn_ne {m : Member} {rest : List Member} {tail : Text} {sel : Member → Bool} :
    lookupIn sel rest tail ≠ some (m.fromValue (moreMembers rest tail)) := by
  intro h
  have hle := length_lookupIn h
  obtain ⟨c, more, hv, -⟩ := m.value_json.value_head
  rw [Member.fromValue, hv] at hle
  simp only [List.length_cons, List.length_append] at hle
  omega

/-- Two selections find the same text just when they find the same member. -/
theorem lookupIn_eq_iff {p q : Member → Bool} {tail : Text} : ∀ {ms : List Member},
    lookupIn p ms tail = lookupIn q ms tail ↔ ms.findIdx? p = ms.findIdx? q
  | [] => iff_of_true rfl rfl
  | m :: rest => by
      have ih := @lookupIn_eq_iff p q tail rest
      rw [lookupIn, lookupIn, List.findIdx?_cons, List.findIdx?_cons]
      cases hp : p m with
      | true =>
        cases hq : q m with
        | true => simp only [if_true]
        | false =>
          simp only [if_true, Bool.false_eq_true, if_false]
          refine iff_of_false (Ne.symm lookupIn_ne) fun h => ?_
          obtain ⟨i, -, hi⟩ := Option.map_eq_some_iff.mp h.symm
          cases hi
      | false =>
        cases hq : q m with
        | true =>
          simp only [if_true, Bool.false_eq_true, if_false]
          refine iff_of_false lookupIn_ne fun h => ?_
          obtain ⟨i, -, hi⟩ := Option.map_eq_some_iff.mp h
          cases hi
        | false =>
          simp only [Bool.false_eq_true, if_false]
          rw [ih]
          exact (Option.map_injective (Nat.succ_injective)).eq_iff.symm

/-- The text of an escaped string is read back as the string, if nothing in it is unreadable. -/
theorem getString_object (o : JsonObject) {key s rest : Text} {cap : ℕ} (hzero : ∀ c ∈ s, c ≠ 0)
    (hcap : s.length < cap) (hvalue : o.lookup (Member.rawKey key) = some (appendEscaped s ++ rest)) :
    getString o.text key cap = some (some s) ↔ Readable s := by
  have hfind : findKey o.text key = some (some (appendEscaped s ++ rest)) :=
    (findKey_object o).trans (congrArg some hvalue)
  rw [getString, hfind, Option.bind_some, appendEscaped, List.cons_append, List.append_assoc,
    List.singleton_append]
  dsimp only
  rw [skipWs, if_neg (by decide), Option.bind_some]
  dsimp only
  rw [if_neg (not_not.mpr rfl), Option.map_eq_some_iff]
  constructor
  · rintro ⟨t, hcopy, ht⟩
    obtain rfl := Option.some.inj ht
    exact readable_of_copyString hzero (by omega) hcopy
  · intro hread
    exact ⟨s, copyString_readable hzero hread (by omega), rfl⟩

/-- An escaped string is read back exactly when it has no control character besides newline,
carriage return and tab. The lookup finds the member with a key exactly when no escape in a key
text hides or feigns it. No text makes the reader look behind its end. -/
theorem jsonReader_iff (o : JsonObject) (key : Text) (cap : ℕ) :
    (∀ s rest : Text, (∀ c ∈ s, c ≠ 0) → s.length < cap →
      o.lookup (Member.rawKey key) = some (appendEscaped s ++ rest) →
        (getString o.text key cap = some (some s) ↔ Readable s)) ∧
    (findKey o.text key = some (o.lookup (Member.hasKey key)) ↔
      o.members.findIdx? (Member.rawKey key) = o.members.findIdx? (Member.hasKey key)) ∧
    (∀ json : Text, (∀ c ∈ json, c ≠ 0) →
      (findKey (json ++ [0]) key).isSome = true ∧ (skipValue (json ++ [0])).isSome = true ∧
        (getString (json ++ [0]) key cap).isSome = true) := by
  refine ⟨fun s rest hzero hcap hvalue => getString_object o hzero hcap hvalue, ?_,
    fun json hzero => ?_⟩
  · have hfind : findKey o.text key = some (o.lookup (Member.rawKey key)) := findKey_object o
    rw [hfind, Option.some.injEq]
    exact lookupIn_eq_iff
  · have hterm := terminated_append hzero
    obtain ⟨v, hv, -⟩ := findKey_stays key hterm
    obtain ⟨q, hq, -⟩ := skipValue_stays hterm
    exact ⟨by rw [hv]; rfl, by rw [hq]; rfl, getString_stays key cap hterm⟩

/-- Facts about all bytes of a text are checked byte by byte. -/
local instance (priority := 2000) decidableBytes {p : UInt8 → Prop} [DecidablePred p]
    (t : Text) : Decidable (∀ c ∈ t, p c) := List.decidableBAll p t

namespace JsonExample

/-- The object whose only member `k` is a string. -/
def object (raw : Text) (h : RawString raw) : JsonObject where
  lead := []
  members := [
    { lead := []
      key := [107]
      afterKey := []
      beforeValue := [32]
      value := quote :: (raw ++ [quote])
      trail := []
      lead_ws := nofun
      key_raw := .plain (by decide) (by decide) (by decide) .nil
      afterKey_ws := nofun
      beforeValue_ws := by rw [WsText]; decide
      value_json := .string h
      trail_ws := nofun }]
  blank := []
  trailing := []
  lead_ws := nofun
  blank_ws := nofun

theorem rawQuote : RawString ([quote, newline].flatMap escapeByte) :=
  .escape (by decide) (.escape (by decide) .nil)

theorem rawControl : RawString ([1].flatMap escapeByte) :=
  .escape (by decide) (.plain (by decide) (by decide) (by decide)
    (.plain (by decide) (by decide) (by decide) (.plain (by decide) (by decide) (by decide)
      (.plain (by decide) (by decide) (by decide) .nil))))

end JsonExample

open JsonExample in
/-- A quote and a newline survive. -/
theorem jsonReader_quote : getString (object _ rawQuote).text [107] 16 =
    some (some [quote, newline]) :=
  ((jsonReader_iff (object _ rawQuote) [107] 16).1 [quote, newline] [closeBrace, 0] (by decide)
    (by decide) rfl).mpr (by rw [Readable]; decide)

open JsonExample in
/-- The control character 1 comes back as the letters of its escape. -/
theorem control_not_readBack : ¬∀ (o : JsonObject) (key s rest : Text) (cap : ℕ),
    (∀ c ∈ s, c ≠ 0) → s.length < cap →
      o.lookup (Member.rawKey key) = some (appendEscaped s ++ rest) →
        getString o.text key cap = some (some s) := by
  intro h
  have hread := h (object _ rawControl) [107] [1] [closeBrace, 0] 16 (by decide) (by decide) rfl
  have hcontrol := (getString_object (object _ rawControl) (by decide) (by decide) rfl).mp hread
  rw [Readable] at hcontrol
  revert hcontrol
  decide

end JzHdl.Lsp

import JzHdl.Ir.MifWrites

/-! # MIF sections

The text of a content section lists statements, with blanks and comments between their
parts. Loading the file applies the writes of the statements in order.
-/

namespace JzHdl

open ByteCodec

/-- A statement about each character of a text is decided along the text. -/
local instance (priority := 2000) decidableSectionText {p : Char → Prop} [DecidablePred p]
    (text : List Char) : Decidable (∀ c ∈ text, p c) := List.decidableBAll p text

/-! ## Texts -/

/-- A text with comments. They are left out, apart from the end of a line. -/
inductive Commented : List Char → List Char → Prop

  | nil : Commented [] []

  | char {c : Char} {plain text : List Char} (hpercent : c ≠ '%')
      (hline : ¬ (c = '-' ∧ text.head? = some '-')) (h : Commented plain text) :
      Commented (c :: plain) (c :: text)

  | block {comment plain text : List Char} (hcomment : '%' ∉ comment) (h : Commented plain text) :
      Commented plain ('%' :: (comment ++ '%' :: text))

  | line {c : Char} {comment plain text : List Char}
      (hcomment : ∀ x ∈ comment, x ≠ '\n' ∧ x ≠ '\r') (hc : c = '\n' ∨ c = '\r')
      (h : Commented plain text) : Commented (c :: plain) ('-' :: '-' :: (comment ++ c :: text))

/-- A text of blanks. -/
def Blank (text : List Char) : Prop := ∀ c ∈ text, isBoundSpace c = true

def isTokenGap (c : Char) : Bool := isBoundSpace c || c = ','

/-- Tokens between blanks and commas. -/
inductive TokensText : List (List Char) → List Char → Prop

  | nil {gap : List Char} (hgap : ∀ c ∈ gap, isTokenGap c = true) : TokensText [] gap

  | cons {gap token rest : List Char} {tokens : List (List Char)}
      (hgap : ∀ c ∈ gap, isTokenGap c = true) (hne : token ≠ [])
      (htoken : ∀ c ∈ token, isTokenGap c = false) (hend : ∀ c ∈ rest.head?, isTokenGap c = true)
      (h : TokensText tokens rest) : TokensText (token :: tokens) (gap ++ (token ++ rest))

/-- The text of a statement, up to its semicolon. -/
inductive StatementText (radix : MemInitRadix) : MifStatement → List Char → Prop

  | plain {addr : ℕ} {left number right data : List Char} {tokens : List (List Char)}
      (hleft : Blank left) (hnumber : Denotes radix number addr) (hright : Blank right)
      (hne : tokens ≠ []) (hdata : TokensText tokens data) :
      StatementText radix (.plain addr tokens) (left ++ (number ++ right) ++ ':' :: data)

  | range {first last : ℕ} {left l₁ n₁ r₁ l₂ n₂ r₂ right data : List Char}
      {tokens : List (List Char)} (hleft : Blank left) (hl₁ : Blank l₁)
      (hn₁ : Denotes radix n₁ first) (hr₁ : Blank r₁) (hl₂ : Blank l₂) (hn₂ : Denotes radix n₂ last)
      (hr₂ : Blank r₂) (hright : Blank right) (hle : first ≤ last) (hne : tokens ≠ [])
      (hdata : TokensText tokens data) : StatementText radix (.range first last tokens)
        (left ++ (('[' :: (l₁ ++ (n₁ ++ r₁) ++ '.' :: '.' :: (l₂ ++ (n₂ ++ r₂)) ++ [']'])) ++
          right) ++ ':' :: data)

/-- Statements that end with semicolons. -/
inductive SectionText (radix : MemInitRadix) : List MifStatement → List Char → Prop

  | nil {gap : List Char} (hgap : Blank gap) : SectionText radix [] gap

  | cons {stmt : MifStatement} {stmts : List MifStatement} {text rest : List Char}
      (hstmt : StatementText radix stmt text) (hsemi : ';' ∉ text)
      (h : SectionText radix stmts rest) : SectionText radix (stmt :: stmts) (text ++ ';' :: rest)

/-- A file with a content section, where comments may stand anywhere. -/
structure MifSource (addrRadix dataRadix : MemInitRadix) (w d : ℕ) (stmts : List MifStatement)
    (contents : List Char) where

  body : List Char

  statements : SectionText addrRadix stmts body

  commented : Commented (mifText addrRadix dataRadix w d body) contents

  /-- The section is not glued to its first keyword. -/
  apart : ∀ c ∈ body.head?, memInitIsIdentChar c = false

  /-- The closing keyword is the first one. -/
  open_end : findKeywordCi "END".toList none body = none

  noZero : '\x00' ∉ body

theorem Commented.strip {plain text : List Char} (h : Commented plain text) :
    stripMifComments text false false = plain := by
  have hblock : ∀ {comment : List Char} (rest : List Char), '%' ∉ comment →
      stripMifComments (comment ++ '%' :: rest) true false = stripMifComments rest false false := by
    intro comment rest hcomment
    induction comment with
    | nil => rw [List.nil_append, stripMifComments, if_pos rfl]; rfl
    | cons c comment ih =>
      have hc : c ≠ '%' := fun hc => hcomment (hc ▸ List.mem_cons_self)
      rw [List.cons_append, stripMifComments, if_pos rfl, decide_eq_true hc,
        ih fun hc => hcomment (List.mem_cons_of_mem _ hc)]
  have hline : ∀ {comment : List Char} {c : Char} (rest : List Char),
      (∀ x ∈ comment, x ≠ '\n' ∧ x ≠ '\r') → (c = '\n' ∨ c = '\r') →
        stripMifComments (comment ++ c :: rest) false true =
          c :: stripMifComments rest false false := by
    intro comment c rest hcomment hc
    induction comment with
    | nil =>
      rw [List.nil_append, stripMifComments, if_neg Bool.false_ne_true, if_pos rfl, if_pos hc]
    | cons x comment ih =>
      obtain ⟨hn, hr⟩ := hcomment x List.mem_cons_self
      rw [List.cons_append, stripMifComments, if_neg Bool.false_ne_true, if_pos rfl,
        if_neg (by simp [hn, hr]), ih fun y hy => hcomment y (List.mem_cons_of_mem _ hy)]
  induction h with
  | nil => rfl
  | char hpercent hminus h ih =>
    rw [stripMifComments, if_neg Bool.false_ne_true, if_neg Bool.false_ne_true, if_neg hpercent,
      if_neg hminus, ih]
  | block hcomment h ih =>
    rw [stripMifComments, if_neg Bool.false_ne_true, if_neg Bool.false_ne_true, if_pos rfl,
      hblock _ hcomment, ih]
  | line hcomment hc h ih =>
    rw [stripMifComments, if_neg Bool.false_ne_true, if_neg Bool.false_ne_true,
      if_neg (by decide), if_pos ⟨rfl, rfl⟩, stripMifComments, if_neg Bool.false_ne_true,
      if_pos rfl, if_neg (by decide), hline _ hcomment hc, ih]

/-! ## Tokens -/

theorem memInitTokens_gap {gap : List Char} (hgap : ∀ c ∈ gap, isTokenGap c = true)
    (rest : List Char) : memInitTokens (gap ++ rest) = memInitTokens rest := by
  induction gap with
  | nil => rfl
  | cons c gap ih =>
    have hc := hgap c List.mem_cons_self
    rw [isTokenGap, Bool.or_eq_true, decide_eq_true_iff] at hc
    rw [List.cons_append, memInitTokens.eq_def]
    dsimp only
    rw [if_pos hc, ih fun x hx => hgap x (List.mem_cons_of_mem _ hx)]

theorem memInitTokens_token {rest : List Char} (hend : ∀ c ∈ rest.head?, isTokenGap c = true) :
    ∀ {token : List Char}, token ≠ [] → (∀ c ∈ token, isTokenGap c = false) →
      memInitTokens (token ++ rest) = token :: memInitTokens rest
  | [], h, _ => absurd rfl h
  | [c], _, h => by
      have hc := h c List.mem_cons_self
      rw [isTokenGap, Bool.or_eq_false_iff, decide_eq_false_iff_not] at hc
      rw [List.singleton_append, memInitTokens.eq_def]
      dsimp only
      rw [if_neg (by simp [hc.1, hc.2])]
      cases rest with
      | nil => rfl
      | cons x rest =>
        have hx := hend x rfl
        rw [isTokenGap, Bool.or_eq_true, decide_eq_true_iff] at hx
        dsimp only
        rw [if_pos hx]
  | c :: x :: token, _, h => by
      have hc := h c List.mem_cons_self
      have hx := h x (by simp)
      rw [isTokenGap, Bool.or_eq_false_iff, decide_eq_false_iff_not] at hc hx
      have ih := memInitTokens_token hend (List.cons_ne_nil x token) fun y hy =>
        h y (List.mem_cons_of_mem _ hy)
      rw [List.cons_append] at ih ⊢
      rw [List.cons_append, memInitTokens, if_neg (by simp [hc.1, hc.2]),
        if_neg (by simp [hx.1, hx.2]), ih]

theorem TokensText.tokens {tokens : List (List Char)} {text : List Char}
    (h : TokensText tokens text) : memInitTokens text = tokens := by
  induction h with
  | nil hgap =>
    have hskip := memInitTokens_gap hgap []
    rwa [List.append_nil] at hskip
  | cons hgap hne htoken hend h ih =>
    rw [memInitTokens_gap hgap, memInitTokens_token hend hne htoken, ih]

theorem TokensText.solid {tokens : List (List Char)} {text : List Char}
    (h : TokensText tokens text) : ∀ token ∈ tokens, ∀ c ∈ token, isBoundSpace c = false := by
  induction h with
  | nil hgap => exact fun _ ht => absurd ht List.not_mem_nil
  | cons hgap hne htoken hend h ih =>
    intro token ht c hc
    rcases List.mem_cons.mp ht with rfl | ht
    · exact (Bool.or_eq_false_iff.mp (htoken c hc)).1
    · exact ih token ht c hc

theorem memInitTokens_back {gap : List Char} (hgap : Blank gap) : ∀ text : List Char,
    memInitTokens (text ++ gap) = memInitTokens text
  | [] => by
      have hskip := memInitTokens_gap (fun c hc => Bool.or_eq_true_iff.mpr (.inl (hgap c hc))) []
      rwa [List.append_nil] at hskip
  | [c] => by
      rw [List.singleton_append]
      cases gap with
      | nil => rfl
      | cons x gap =>
        have hnone := memInitTokens_back hgap []
        rw [List.nil_append, show memInitTokens [] = [] from rfl] at hnone
        have hx : isBoundSpace x = true ∨ x = ',' := .inl (hgap x List.mem_cons_self)
        rw [memInitTokens.eq_def (c :: x :: gap)]
        dsimp only
        rw [if_pos hx, hnone]
        rfl
  | c :: x :: text => by
      have ih := memInitTokens_back hgap (x :: text)
      rw [List.cons_append] at ih
      rw [List.cons_append, List.cons_append, memInitTokens, memInitTokens, ih]

theorem blank_takeWhile (text : List Char) : Blank (text.takeWhile isBoundSpace) :=
  fun _ hc => List.mem_takeWhile_imp hc

theorem memInitTokens_rtrim (text : List Char) :
    memInitTokens (text.reverse.dropWhile isBoundSpace).reverse = memInitTokens text := by
  have hsplit : text = (text.reverse.dropWhile isBoundSpace).reverse ++
      (text.reverse.takeWhile isBoundSpace).reverse := by
    rw [← List.reverse_append, List.takeWhile_append_dropWhile, List.reverse_reverse]
  have hback := @memInitTokens_back (text.reverse.takeWhile isBoundSpace).reverse
    (fun c hc => blank_takeWhile _ c (List.mem_reverse.mp hc))
    (text.reverse.dropWhile isBoundSpace).reverse
  rw [← hsplit] at hback
  exact hback.symm

theorem memInitTokens_trim (text : List Char) :
    memInitTokens (trimSpan text) = memInitTokens text := by
  rw [trimSpan, memInitTokens_rtrim]
  have hfront := @memInitTokens_gap (text.takeWhile isBoundSpace)
    (fun c hc => Bool.or_eq_true_iff.mpr (.inl (blank_takeWhile text c hc)))
    (text.dropWhile isBoundSpace)
  rw [List.takeWhile_append_dropWhile] at hfront
  exact hfront.symm

/-! ## Statements -/

theorem dropWhile_append_stop {p : Char → Bool} {c : Char} (hc : p c = false) (rest : List Char) :
    ∀ text : List Char, (text ++ c :: rest).dropWhile p = text.dropWhile p ++ c :: rest
  | [] => by rw [List.nil_append, List.dropWhile_cons_of_neg (by simp [hc])]; rfl
  | x :: text => by
      rw [List.cons_append, List.dropWhile_cons, List.dropWhile_cons, dropWhile_append_stop hc]
      split <;> rfl

theorem trimSpan_stop {c : Char} (hc : isBoundSpace c = false) (left right : List Char) :
    trimSpan (left ++ c :: right) =
      left.dropWhile isBoundSpace ++ c :: (right.reverse.dropWhile isBoundSpace).reverse := by
  rw [trimSpan, dropWhile_append_stop hc, List.reverse_append, List.reverse_cons,
    List.append_assoc, List.singleton_append, dropWhile_append_stop hc, List.reverse_append,
    List.reverse_cons, List.reverse_reverse, List.append_assoc, List.singleton_append]

section

variable {radix : MemInitRadix} {text : List Char} {n : ℕ}

theorem Denotes.char (h : Denotes radix text n) : ∀ c ∈ text, boundDigit c < 16 ∨ c = '_' := by
  intro c hc
  by_cases hline : c = '_'
  · exact .inr hline
  · exact .inl ((wholeDigits_digits h.2 c (List.mem_filter.mpr ⟨hc, by simp [hline]⟩)).trans_le
      radix.base_le)

theorem Denotes.solid (h : Denotes radix text n) : Solid text := by
  refine ⟨?_, fun c hc => ?_⟩
  · rintro rfl
    exact h.1 rfl
  · rcases h.char c hc with hdigit | rfl
    · exact (boundDigit_plain hdigit).1
    · decide

theorem memInitParseUnsignedValue_denotes (h : Denotes radix text n) :
    memInitParseUnsignedValue radix text = some (min (2 ^ 64 - 1) n) := by
  rw [memInitParseUnsignedValue]
  split
  · exact absurd ‹_› h.1
  · rename_i rest heq
    have hdigit := wholeDigits_digits h.2 '-' (by rw [heq]; exact List.mem_cons_self)
    exact absurd (hdigit.trans_le radix.base_le) (by decide)
  · exact strtoullWhole_digits radix.base_le h.1 h.2

theorem Denotes.without (h : Denotes radix text n) {c : Char} (hdigit : 16 ≤ boundDigit c)
    (hline : c ≠ '_') : c ∉ text := fun hc => (h.char c hc).elim (by omega) hline

theorem Blank.without (h : Blank text) {c : Char} (hc : isBoundSpace c = false) : c ∉ text := by
  intro hmem
  rw [h c hmem] at hc
  cases hc

theorem splitDots_append {front : List Char} (hfront : '.' ∉ front) (rest : List Char) :
    mifAddresses.splitDots (front ++ '.' :: '.' :: rest) = some (front, rest) := by
  induction front with
  | nil => rfl
  | cons c front ih =>
    have hc : c ≠ '.' := fun hc => hfront (hc ▸ List.mem_cons_self)
    rw [List.cons_append, mifAddresses.splitDots,
      ih fun hmem => hfront (List.mem_cons_of_mem _ hmem)]
    · rfl
    · exact fun _ heq _ => hc heq

/-- A statement is read as its addresses and its tokens. -/
theorem mifEntry_split {k w d : ℕ} {addrRadix dataRadix : MemInitRadix}
    {left spec right : List Char} {first last : ℕ} {isRange : Bool} (hcolon : ':' ∉ left)
    (hspec : trimSpan (left.dropWhile isBoundSpace) = spec)
    (haddr : mifAddresses addrRadix spec = .ok (first, last, isRange)) (blob : Bytes) :
    mifEntry k w d addrRadix dataRadix (left ++ ':' :: right) blob =
      storeEntry k w d dataRadix first last isRange (memInitTokens right) blob := by
  have hbefore : ∀ c ∈ left.dropWhile isBoundSpace, decide (c ≠ ':') = true := fun c hc =>
    decide_eq_true fun heq => hcolon (heq ▸ List.dropWhile_subset _ hc)
  rw [mifEntry, trimSpan_stop (by decide), if_pos (by simp), List.takeWhile_append_of_pos hbefore,
    List.takeWhile_cons_of_neg (by decide), List.append_nil, hspec, haddr,
    List.dropWhile_append_of_pos hbefore, List.dropWhile_cons_of_neg (by decide), List.drop_one,
    List.tail_cons, memInitTokens_trim, memInitTokens_rtrim]

end

/-! ## Applied statements -/

section

variable {k w d : ℕ} {addrRadix dataRadix : MemInitRadix}
  (hw : w ≤ 8 * k) (hd : d ≤ memInitMifDepth)
include hw hd

theorem applies_plainEntry_saturated {tokens : List (List Char)} (hne : tokens ≠ [])
    (hsolid : ∀ token ∈ tokens, ∀ c ∈ token, isBoundSpace c = false)
    {blob : Bytes} (hblob : blob.length = k * d) (addr : ℕ) :
    Applies k w d dataRadix (consecutiveWrites addr tokens) blob
      (storeEntry k w d dataRadix (min (2 ^ 64 - 1) addr) (min (2 ^ 64 - 1) addr) false tokens
        blob) := by
  have happlies := @applies_plainEntry k w d dataRadix hw tokens hne hsolid blob hblob
  rcases Nat.le_total addr (2 ^ 64 - 1) with hle | hge
  · rw [Nat.min_eq_right hle]
    exact happlies addr
  · rw [Nat.min_eq_left hge]
    have hdepth : memInitMifDepth < 2 ^ 64 - 1 := by decide
    obtain ⟨token, rest, rfl⟩ := List.exists_cons_of_ne_nil hne
    have hfirst : ∀ addr, (addr, token) ∈ consecutiveWrites addr (token :: rest) := fun addr =>
      List.mem_cons_self
    exact .of_bad ⟨_, hfirst addr, .inl (by dsimp only; omega)⟩
      ((happlies (2 ^ 64 - 1)).fails ⟨_, hfirst _, .inl (by dsimp only; omega)⟩)

theorem applies_rangeEntry_saturated {tokens : List (List Char)} (hne : tokens ≠ [])
    (hsolid : ∀ token ∈ tokens, ∀ c ∈ token, isBoundSpace c = false)
    {blob : Bytes} (hblob : blob.length = k * d) {first last : ℕ} (hle : first ≤ last) :
    Applies k w d dataRadix (cycleWrites tokens 0 first (last + 1 - first)) blob
      (storeEntry k w d dataRadix (min (2 ^ 64 - 1) first) (min (2 ^ 64 - 1) last) true tokens
        blob) := by
  have happlies := @applies_rangeEntry k w d dataRadix hw tokens hne hsolid hd blob hblob
  rcases Nat.le_total last (2 ^ 64 - 1) with hlast | hge
  · rw [Nat.min_eq_right hlast, Nat.min_eq_right (hle.trans hlast)]
    exact happlies hle
  · rw [Nat.min_eq_left hge]
    have hdepth : memInitMifDepth < 2 ^ 64 - 1 := by decide
    have hwrite : ∀ {first last : ℕ}, first ≤ last →
        (last, tokens.getD ((0 + (last - first)) % tokens.length) []) ∈
          cycleWrites tokens 0 first (last + 1 - first) := by
      intro first last hle
      refine mem_cycleWrites.mpr ⟨last - first, by omega, ?_⟩
      rw [Nat.add_sub_cancel' hle]
    exact .of_bad ⟨_, hwrite hle, .inl (by dsimp only; omega)⟩
      ((happlies (Nat.min_le_left (2 ^ 64 - 1) first)).fails
        ⟨_, hwrite (Nat.min_le_left _ _), .inl (by dsimp only; omega)⟩)

omit hw hd in
theorem mifAddresses_range {radix : MemInitRadix} {first last : ℕ}
    {l₁ n₁ r₁ l₂ n₂ r₂ : List Char} (hl₁ : Blank l₁) (hn₁ : Denotes radix n₁ first) (hr₁ : Blank r₁)
    (hl₂ : Blank l₂) (hn₂ : Denotes radix n₂ last) (hr₂ : Blank r₂) (hle : first ≤ last) :
    mifAddresses radix ('[' :: (l₁ ++ (n₁ ++ r₁) ++ '.' :: '.' :: (l₂ ++ (n₂ ++ r₂)) ++ [']'])) =
      .ok (min (2 ^ 64 - 1) first, min (2 ^ 64 - 1) last, true) := by
  have hpoint : '.' ∉ l₁ ++ (n₁ ++ r₁) := by
    simp only [List.mem_append, not_or]
    exact ⟨hl₁.without (by decide), hn₁.without (by decide) (by decide), hr₁.without (by decide)⟩
  have hlast : ('[' :: (l₁ ++ (n₁ ++ r₁) ++ '.' :: '.' :: (l₂ ++ (n₂ ++ r₂)) ++ [']'])).getLast? =
      some ']' := by
    rw [← List.cons_append, List.getLast?_concat]
  have hlong : 2 < ('[' :: (l₁ ++ (n₁ ++ r₁) ++ '.' :: '.' :: (l₂ ++ (n₂ ++ r₂)) ++
      [']'])).length := by
    simp only [List.length_cons, List.length_append]
    omega
  rw [mifAddresses, if_neg (not_or.mpr ⟨by omega, not_not.mpr hlast⟩), List.dropLast_concat,
    splitDots_append hpoint]
  dsimp only
  rw [hn₁.solid.trimSpan_pad l₁ r₁ hl₁ hr₁, hn₂.solid.trimSpan_pad l₂ r₂ hl₂ hr₂,
    memInitParseUnsignedValue_denotes hn₁, memInitParseUnsignedValue_denotes hn₂]
  dsimp only
  rw [if_neg (by omega)]

/-- The loader applies the writes of a statement. -/
theorem applies_mifEntry {stmt : MifStatement} {text : List Char}
    (h : StatementText addrRadix stmt text) {blob : Bytes} (hblob : blob.length = k * d) :
    Applies k w d dataRadix stmt.writes blob
      (mifEntry k w d addrRadix dataRadix text blob) := by
  cases h with
  | plain hleft hnumber hright hne hdata =>
    rename_i addr left number right data tokens
    have hcolon : ':' ∉ left ++ (number ++ right) := by
      simp only [List.mem_append, not_or]
      exact ⟨hleft.without (by decide), hnumber.without (by decide) (by decide),
        hright.without (by decide)⟩
    have hspec : trimSpan ((left ++ (number ++ right)).dropWhile isBoundSpace) = number := by
      rw [dropSpaces hleft fun c hc => ?_]
      · exact hnumber.solid.trimSpan_pad [] right (by simp) hright
      · rw [List.head?_append_of_ne_nil _ hnumber.solid.1] at hc
        exact hnumber.solid.2 c (List.mem_of_mem_head? hc)
    have haddr : mifAddresses addrRadix number =
        .ok (min (2 ^ 64 - 1) addr, min (2 ^ 64 - 1) addr, false) := by
      unfold mifAddresses
      split
      · exact absurd List.mem_cons_self (hnumber.without (c := '[') (by decide) (by decide))
      · rw [memInitParseUnsignedValue_denotes hnumber]
    rw [mifEntry_split hcolon hspec haddr, hdata.tokens]
    exact applies_plainEntry_saturated hw hd hne hdata.solid hblob addr
  | range hleft hl₁ hn₁ hr₁ hl₂ hn₂ hr₂ hright hle hne hdata =>
    rename_i first last left l₁ n₁ r₁ l₂ n₂ r₂ right data tokens
    set inner := l₁ ++ (n₁ ++ r₁) ++ '.' :: '.' :: (l₂ ++ (n₂ ++ r₂)) with hinner
    have hcolon : ':' ∉ left ++ (('[' :: (inner ++ [']'])) ++ right) := by
      simp only [hinner, List.mem_append, List.mem_cons, not_or]
      exact ⟨hleft.without (by decide), ⟨⟨by decide, ⟨⟨hl₁.without (by decide),
        hn₁.without (by decide) (by decide), hr₁.without (by decide)⟩, by decide, by decide,
        hl₂.without (by decide), hn₂.without (by decide) (by decide), hr₂.without (by decide)⟩,
        by decide, by simp⟩, hright.without (by decide)⟩⟩
    have hspec : trimSpan ((left ++ (('[' :: (inner ++ [']'])) ++ right)).dropWhile isBoundSpace) =
        '[' :: (inner ++ [']']) := by
      rw [dropSpaces hleft fun c hc => ?_]
      · refine @trimSpan_pad [] right _ (by simp) hright (List.cons_ne_nil _ _) ?_ ?_
        · intro c hc
          obtain rfl : '[' = c := Option.some.inj hc
          decide
        · intro c hc
          rw [← List.cons_append, List.getLast?_concat] at hc
          obtain rfl : ']' = c := Option.some.inj hc
          decide
      · obtain rfl : '[' = c := Option.some.inj hc
        decide
    rw [mifEntry_split hcolon hspec (mifAddresses_range hl₁ hn₁ hr₁ hl₂ hn₂ hr₂ hle), hdata.tokens]
    exact applies_rangeEntry_saturated hw hd hne hdata.solid hblob hle

omit hw hd in
theorem splitStatements_ne_nil : ∀ text : List Char, splitStatements text ≠ []
  | [] => List.cons_ne_nil _ _
  | c :: text => by
      rw [splitStatements]
      split
      · exact List.cons_ne_nil _ _
      · split <;> exact List.cons_ne_nil _ _

omit hw hd in
theorem mifEntries_cons (text : List Char) (rest : List (List Char)) (blob : Bytes) :
    mifEntries k w d addrRadix dataRadix (text :: rest) blob =
      (mifEntry k w d addrRadix dataRadix text blob).bind
        (mifEntries k w d addrRadix dataRadix rest) := by
  rw [mifEntries]
  cases mifEntry k w d addrRadix dataRadix text blob <;> rfl

/-- The loader applies the writes of the statements in order. -/
theorem applies_mifEntries {stmts : List MifStatement} {body : List Char}
    (h : SectionText addrRadix stmts body) {blob : Bytes} (hblob : blob.length = k * d) :
    Applies k w d dataRadix (stmts.flatMap MifStatement.writes) blob
      (mifEntries k w d addrRadix dataRadix (splitStatements (body ++ ['\n'])).dropLast blob) := by
  induction h generalizing blob with
  | nil hgap =>
    rename_i gap
    have hsemi : ';' ∉ gap ++ ['\n'] := by
      rw [List.mem_append, not_or]
      exact ⟨hgap.without (by decide), by decide⟩
    rw [splitStatements_single hsemi]
    exact .nil
  | cons hstmt hsemi h ih =>
    rename_i stmt stmts text rest
    have hsplit : splitStatements (text ++ ';' :: rest ++ ['\n']) =
        text :: splitStatements (rest ++ ['\n']) := by
      rw [List.append_assoc, List.cons_append, splitStatements_append hsemi]
    obtain ⟨piece, pieces, hpieces⟩ : ∃ piece pieces,
        splitStatements (rest ++ ['\n']) = piece :: pieces :=
      List.exists_cons_of_ne_nil (splitStatements_ne_nil _)
    have hentry : Applies k w d dataRadix stmt.writes blob
        (mifEntry k w d addrRadix dataRadix text blob) := applies_mifEntry hw hd hstmt hblob
    rw [List.flatMap_cons, hsplit, hpieces, List.dropLast_cons_cons, ← hpieces,
      mifEntries_cons]
    exact hentry.seq fun blob' hlen => ih (hlen.trans hblob)

end

/-! ## Whole files -/

section

variable {w d : ℕ} {addrRadix dataRadix : MemInitRadix} {stmts : List MifStatement}
  {contents : List Char}

theorem MifSource.noZero_text (source : MifSource addrRadix dataRadix w d stmts contents) :
    ∀ c ∈ mifText addrRadix dataRadix w d source.body, c ≠ '\x00' := by
  have hradix : ∀ radix : MemInitRadix, ∀ c ∈ radix.text, c ≠ '\x00' := by
    intro radix
    cases radix <;> decide
  have hnumber : ∀ n, ∀ c ∈ numberText .dec n, c ≠ '\x00' := fun n =>
    numberText_all (P := (· ≠ '\x00')) (by decide)
  have hbody : ∀ c ∈ source.body, c ≠ '\x00' := fun c hc heq => source.noZero (heq ▸ hc)
  simp only [mifText, mifField, List.forall_mem_append, List.forall_mem_cons]
  and_intros
  all_goals
    first
    | decide
    | exact hnumber _
    | exact hradix _
    | exact hbody

/-- Loading a file applies the writes of its statements to an empty memory. -/
theorem MifSource.applies (source : MifSource addrRadix dataRadix w d stmts contents)
    (hd : d ≤ memInitMifDepth) (hwidth : w < 2 ^ 31) (hfile : contents.length ≤ memInitFileBytes) :
    Applies ((w + 7) / 8) w d dataRadix (stmts.flatMap MifStatement.writes)
      (zeros ((w + 7) / 8 * d))
      (lowerMifMemInit ((w + 7) / 8) w d contents (zeros ((w + 7) / 8 * d))) := by
  rw [lowerMif_mifText hd hwidth hfile source.commented.strip source.noZero_text source.apart
    source.open_end]
  exact applies_mifEntries (by omega) hd source.statements List.length_replicate

theorem getD_mem_cycle {tokens : List (List Char)} (hne : tokens ≠ []) (i : ℕ) :
    tokens.getD (i % tokens.length) [] ∈ tokens := by
  have hlt := Nat.mod_lt i (List.length_pos_of_ne_nil hne)
  rw [List.getD_eq_getElem _ _ hlt]
  exact List.getElem_mem hlt

theorem MifStatement.writes_tokens {stmt : MifStatement} (hne : stmt.tokens ≠ []) :
    ∀ p ∈ stmt.writes, p.2 ∈ stmt.tokens := by
  rintro ⟨x, token⟩ hp
  cases stmt with
  | plain addr tokens => exact List.mem_of_getElem? (mem_consecutiveWrites.mp hp).2
  | range first last tokens =>
    obtain ⟨i, -, heq⟩ := mem_cycleWrites.mp hp
    cases heq
    exact getD_mem_cycle hne _

theorem SectionText.tokens_ne_nil {radix : MemInitRadix} {body : List Char}
    (h : SectionText radix stmts body) : ∀ stmt ∈ stmts, stmt.tokens ≠ [] := by
  induction h with
  | nil hgap => exact fun _ hs => absurd hs List.not_mem_nil
  | cons hstmt hsemi h ih =>
    intro stmt hs
    rcases List.mem_cons.mp hs with rfl | hs
    · cases hstmt with
      | plain _ _ _ hne _ => exact hne
      | range _ _ _ _ _ _ _ _ _ hne _ => exact hne
    · exact ih stmt hs

end

/-! ## Exact sections -/

section

variable (w d : ℕ) (radix : MemInitRadix) (stmts : List MifStatement)

/-- A word behind the memory is addressed, or a token is no number that fits. -/
def AsksTooMuch : Prop :=
  ∃ stmt ∈ stmts, (∃ p ∈ stmt.writes, d ≤ p.1) ∨ ∃ token ∈ stmt.tokens, ¬ TokenFits w radix token

/-- Loading fails if the statements ask for too much, and else every word has the number of the last
token that is written to it, or zero. -/
structure LoadsSection (result : Except MemInitError Bytes) : Prop where

  fails : AsksTooMuch w d radix stmts → ∃ e, result = .error e

  loads : ¬ AsksTooMuch w d radix stmts → ∃ blob, result = .ok blob ∧
    blob.length = (w + 7) / 8 * d ∧ ∀ x < d, wordAt ((w + 7) / 8) x blob =
      (lastToken (stmts.flatMap MifStatement.writes) x).elim 0 (tokenWord w radix)

/-- The loader stops at a write of the section. -/
def StopsLoading : Prop := ∃ stmt ∈ stmts, ∃ p ∈ stmt.writes, BadWrite w d radix p

/-- Every token fits, and no number that stays in the memory is changed on the way. -/
structure KeepsNumbers : Prop where

  fits : ∀ stmt ∈ stmts, ∀ token ∈ stmt.tokens, TokenFits w radix token

  keeps : ∀ x < d, ∀ token ∈ lastToken (stmts.flatMap MifStatement.writes) x,
    KeepsNumber w radix token

end

theorem wordAt_zeros (k x n : ℕ) : wordAt k x (zeros n) = 0 := by
  rw [wordAt, zeros, List.drop_replicate, List.take_replicate, ← zeros, ← bigEndian_zero]
  exact ofBigEndian_bigEndian _ 0 (Nat.pow_pos (by decide))

/-- A section is loaded as it asks for if and only if the loader stops at it, or if every token fits
and every number that stays is kept. -/
theorem mifSection_exact {w d : ℕ} {addrRadix dataRadix : MemInitRadix} {stmts : List MifStatement}
    {contents : List Char} (source : MifSource addrRadix dataRadix w d stmts contents)
    (hd : d ≤ memInitMifDepth) (hwidth : w < 2 ^ 31) (hfile : contents.length ≤ memInitFileBytes) :
    LoadsSection w d dataRadix stmts
        (lowerMifMemInit ((w + 7) / 8) w d contents (zeros ((w + 7) / 8 * d))) ↔
      StopsLoading w d dataRadix stmts ∨ KeepsNumbers w d dataRadix stmts := by
  have happlies := source.applies hd hwidth hfile
  have htokens := source.statements.tokens_ne_nil
  by_cases hstops : StopsLoading w d dataRadix stmts
  · obtain ⟨stmt, hs, p, hp, hbad⟩ := hstops
    have herror := happlies.fails ⟨p, List.mem_flatMap.mpr ⟨stmt, hs, hp⟩, hbad⟩
    refine iff_of_true ⟨fun _ => herror, fun hfits => absurd ?_ hfits⟩
      (.inl ⟨stmt, hs, p, hp, hbad⟩)
    -- The loader only stops where it is asked for too much.
    refine ⟨stmt, hs, ?_⟩
    rcases hbad with hbad | hnone
    · exact .inl ⟨p, hp, hbad⟩
    · refine .inr ⟨p.2, stmt.writes_tokens (htokens stmt hs) p hp, fun hfit => ?_⟩
      obtain ⟨n, hn, -⟩ := hfit.loaded
      rw [hnone] at hn
      cases hn
  · rw [or_iff_right hstops]
    have hgood : ∀ p ∈ stmts.flatMap MifStatement.writes, ¬ BadWrite w d dataRadix p := by
      intro p hp hbad
      obtain ⟨stmt, hs, hp⟩ := List.mem_flatMap.mp hp
      exact hstops ⟨stmt, hs, p, hp, hbad⟩
    obtain ⟨blob, hok, hlen, hwords⟩ := happlies.loads hgood
    simp only [wordAt_zeros] at hwords
    have hword : ∀ x, ∀ token ∈ lastToken (stmts.flatMap MifStatement.writes) x,
        TokenFits w dataRadix token → ((loadedWord w dataRadix token).getD 0 =
          tokenWord w dataRadix token ↔ KeepsNumber w dataRadix token) := by
      intro x token _ hfit
      obtain ⟨n, hn, hiff⟩ := hfit.loaded
      rw [hn]
      exact hiff
    have hwritten : ∀ {x : ℕ}, ∀ token ∈ lastToken (stmts.flatMap MifStatement.writes) x,
        ∃ stmt ∈ stmts, token ∈ stmt.tokens := by
      intro x token htoken
      obtain ⟨stmt, hs, hp⟩ := List.mem_flatMap.mp (lastToken_mem htoken)
      exact ⟨stmt, hs, stmt.writes_tokens (htokens stmt hs) _ hp⟩
    rw [hok]
    constructor
    · intro h
      have hfits : ¬ AsksTooMuch w d dataRadix stmts := by
        intro hbad
        obtain ⟨e, he⟩ := h.fails hbad
        cases he
      have hall : ∀ stmt ∈ stmts, ∀ token ∈ stmt.tokens, TokenFits w dataRadix token := by
        intro stmt hs token ht
        by_contra hfit
        exact hfits ⟨stmt, hs, .inr ⟨token, ht, hfit⟩⟩
      refine ⟨hall, fun x hx token htoken => ?_⟩
      obtain ⟨blob', heq, -, hexact⟩ := h.loads hfits
      obtain rfl := Except.ok.inj heq
      obtain ⟨stmt, hs, ht⟩ := hwritten token htoken
      have hsame := (hwords x hx).symm.trans (hexact x hx)
      rw [htoken] at hsame
      exact (hword x token htoken (hall stmt hs token ht)).mp hsame
    · rintro ⟨hall, hkeeps⟩
      have hfits : ¬ AsksTooMuch w d dataRadix stmts := by
        rintro ⟨stmt, hs, ⟨p, hp, hbad⟩ | ⟨token, ht, hfit⟩⟩
        · exact hgood p (List.mem_flatMap.mpr ⟨stmt, hs, hp⟩) (.inl hbad)
        · exact hfit (hall stmt hs token ht)
      refine ⟨fun hbad => absurd hbad hfits, fun _ => ⟨blob, rfl, ?_, fun x hx => ?_⟩⟩
      · rw [hlen]
        exact List.length_replicate
      · rw [hwords x hx]
        cases htoken : lastToken (stmts.flatMap MifStatement.writes) x with
        | none => rfl
        | some token =>
          obtain ⟨stmt, hs, ht⟩ := hwritten token htoken
          exact (hword x token htoken (hall stmt hs token ht)).mpr (hkeeps x hx token htoken)

theorem commented_plain : ∀ {text : List Char}, (∀ c ∈ text, c ≠ '%' ∧ c ≠ '-') →
    Commented text text
  | [], _ => .nil
  | c :: _, h =>
      .char (h c List.mem_cons_self).1 (fun hc => (h c List.mem_cons_self).2 hc.1)
        (commented_plain fun x hx => h x (List.mem_cons_of_mem _ hx))

/-- A section of one statement, for a decimal number of hundreds. -/
def hundreds (digit : Char) : List Char :=
  [' '] ++ (['0'] ++ [' ']) ++ ':' :: ([' '] ++ ([digit, '0', '0'] ++ [])) ++ ';' :: []

def hundreds_source {digit : Char} (hdigit : digit = '2' ∨ digit = '3') :
    MifSource .hex .dec 8 1 [.plain 0 [[digit, '0', '0']]]
      (mifText .hex .dec 8 1 (hundreds digit)) where
  body := hundreds digit
  statements := .cons (.plain (by unfold Blank; decide) (by unfold Denotes; decide +kernel)
    (by unfold Blank; decide) (List.cons_ne_nil _ _)
    (.cons (by decide) (List.cons_ne_nil _ _) (by rcases hdigit with rfl | rfl <;> decide)
      (by simp) (.nil (by simp))))
    (by rcases hdigit with rfl | rfl <;> decide) (.nil (by simp [Blank]))
  commented := commented_plain (by rcases hdigit with rfl | rfl <;> decide +kernel)
  apart := by
    intro c hc
    obtain rfl : ' ' = c := Option.some.inj hc
    decide
  open_end := by rcases hdigit with rfl | rfl <;> decide
  noZero := by rcases hdigit with rfl | rfl <;> decide

theorem mifSection_exact_byte : LoadsSection 8 1 .dec [.plain 0 ["200".toList]]
      (lowerMifMemInit 1 8 1 (mifText .hex .dec 8 1 (hundreds '2')) (zeros 1)) ↔
    StopsLoading 8 1 .dec [.plain 0 ["200".toList]] ∨
      KeepsNumbers 8 1 .dec [.plain 0 ["200".toList]] :=
  mifSection_exact (hundreds_source (.inl rfl)) (by decide) (by decide) (by decide +kernel)

/-- A decimal number that does not fit is cut, where the same number in digits of another radix is
refused. -/
theorem mifSection_cut : ∃ contents,
    Nonempty (MifSource .hex .dec 8 1 [.plain 0 ["300".toList]] contents) ∧
      lowerMifMemInit 1 8 1 contents (zeros 1) = .ok [44] ∧
      ¬ LoadsSection 8 1 .dec [.plain 0 ["300".toList]]
        (lowerMifMemInit 1 8 1 contents (zeros 1)) := by
  have hloaded : lowerMifMemInit 1 8 1 (mifText .hex .dec 8 1 (hundreds '3')) (zeros 1) =
      .ok [44] := by decide +kernel
  refine ⟨mifText .hex .dec 8 1 (hundreds '3'), ⟨hundreds_source (.inr rfl)⟩, hloaded, fun h => ?_⟩
  have hbad : AsksTooMuch 8 1 .dec [.plain 0 ["300".toList]] := by
    refine ⟨_, List.mem_singleton_self _, .inr ⟨_, List.mem_singleton_self _, ?_⟩⟩
    rintro ⟨v, hv, -, hhigh⟩
    have hnumber : tokenNumber .dec "300".toList = some 300 := by decide +kernel
    rw [hnumber] at hv
    obtain rfl := Option.some.inj hv
    exact absurd hhigh (by decide)
  obtain ⟨e, he⟩ := h.fails hbad
  rw [hloaded] at he
  cases he

end JzHdl

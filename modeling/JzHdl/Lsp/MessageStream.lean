import JzHdl.Lsp.JsonText
import Mathlib.Data.List.TakeWhile
import Mathlib.Data.Nat.Digits.Lemmas

/-! # The stream of messages

The header lines and bodies in which messages arrive at the language server. The peer may pause
between the bytes of a header, but not inside a body.
-/

namespace JzHdl.Lsp

/-! ## The input -/

/-- What is seen on the input: a byte, or that none came for a quarter of a second. -/
inductive Arrival

  | byte (c : UInt8)

  | pause
  deriving DecidableEq

abbrev Input := List Arrival

/-- `fgets` with room for so many bytes. It waits, and it is empty at the end of the input. -/
def fgets : ℕ → Input → Text × Input
  | _, [] => ([], [])
  | 0, input => ([], input)
  | room + 1, .pause :: rest => fgets (room + 1) rest
  | room + 1, .byte c :: rest =>
    if c = newline then ([c], rest) else (c :: (fgets room rest).1, (fgets room rest).2)

def lspReadBodyExact : ℕ → Input → Option (Text × Input)
  | 0, input => some ([], input)
  | n + 1, .byte c :: rest => (lspReadBodyExact n rest).map fun out => (c :: out.1, out.2)
  | _ + 1, _ => none

def cString (line : Text) : Text := line.takeWhile fun c => decide (c ≠ 0)

def isBlankByte (c : UInt8) : Bool := decide (c = 32) || decide (c = tab)

def isSpaceByte (c : UInt8) : Bool := decide (c = 32) || (decide (9 ≤ c) && decide (c ≤ 13))

def isDigitByte (c : UInt8) : Bool := decide (48 ≤ c) && decide (c ≤ 57)

def decimalValue (digits : Text) : ℕ := Nat.ofDigits 10 (digits.reverse.map fun c => c.toNat - 48)

/-- The sign that `strtoul` takes, and the text behind it. -/
def signOf : Text → Bool × Text
  | 45 :: rest => (true, rest)
  | 43 :: rest => (false, rest)
  | text => (false, text)

/-- `strtoul` with the text that is left, unless there is no number or it is out of range. -/
def strtoul (text : Text) : Option (ℕ × Text) :=
  let (negate, text) := signOf (text.dropWhile isSpaceByte)
  let n := decimalValue (text.takeWhile isDigitByte)
  if text.takeWhile isDigitByte = [] ∨ 2 ^ 64 ≤ n then none
  else some (if negate then (2 ^ 64 - n) % 2 ^ 64 else n, text.dropWhile isDigitByte)

def lspMaxContentLength : ℕ := 16 * 1024 * 1024

def isLineBlank (c : UInt8) : Bool :=
  isBlankByte c || decide (c = carriageReturn) || decide (c = newline)

/-- The length in a header line behind the name of the field, or nothing if it is invalid. -/
def contentLength (value : Text) : Option ℕ :=
  match strtoul (value.dropWhile isBlankByte) with
  | none => none
  | some (parsed, rest) =>
    if lspMaxContentLength < parsed ∨ rest.dropWhile isLineBlank ≠ [] then none else some parsed

/-- `Content-Length:`. -/
def lengthField : Text :=
  [67, 111, 110, 116, 101, 110, 116, 45, 76, 101, 110, 103, 116, 104, 58]

def isBlankLine (line : Text) : Bool :=
  decide (line = [carriageReturn, newline]) || decide (line = [newline])

/-- The header lines up to a blank one. A line is taken in pieces of at most 255 bytes. The first
number bounds the pieces, the second is the length that stood last. -/
def readHeaders : ℕ → Option ℕ → Input → Option (ℕ × Input)
  | 0, _, _ => none
  | fuel + 1, length, input =>
    match fgets 255 input with
    | ([], _) => none
    | (c :: line, rest) =>
      let header := cString (c :: line)
      if isBlankLine header then length.map fun n => (n, rest)
      else if lengthField.isPrefixOf header then
        match contentLength (header.drop 15) with
        | none => none
        | some n => readHeaders fuel (some n) rest
      else readHeaders fuel length rest

/-- A piece takes a byte at least. -/
def lspIoReadMessage (input : Input) : Option (Text × Input) :=
  (readHeaders (input.length + 1) none input).bind fun h => lspReadBodyExact h.1 h.2

def digitByte (d : ℕ) : UInt8 := UInt8.ofNat (48 + d)

def decimal (n : ℕ) : Text :=
  if n = 0 then [48] else (Nat.digits 10 n).reverse.map digitByte

def lspIoWriteMessage (json : Text) : Text :=
  lengthField ++ 32 :: decimal json.length ++ [carriageReturn, newline, carriageReturn, newline] ++
    json

/-- The messages that are read one after the other, until there is none. -/
def messages : ℕ → Input → List Text
  | 0, _ => []
  | fuel + 1, input =>
    match lspIoReadMessage input with
    | none => []
    | some (message, rest) => message :: messages fuel rest

/-! ## Lines -/

/-- The text arrives with pauses before its bytes. -/
inductive Spread : Text → Input → Prop

  | nil : Spread [] []

  | byte {c : UInt8} {text : Text} {input : Input} (h : Spread text input) :
      Spread (c :: text) (.byte c :: input)

  | pause {c : UInt8} {text : Text} {input : Input} (h : Spread (c :: text) input) :
      Spread (c :: text) (.pause :: input)

theorem Spread.of_bytes : ∀ text : Text, Spread text (text.map .byte)
  | [] => .nil
  | _ :: text => .byte (of_bytes text)

theorem fgets_spread {text : Text} {input : Input} (h : Spread text input) :
    ∀ {line : Text} {room : ℕ}, text = line ++ [newline] → newline ∉ line → line.length < room →
      ∀ tail, fgets room (input ++ tail) = (line ++ [newline], tail) := by
  induction h with
  | nil => exact fun heq => absurd heq.symm (by simp)
  | @byte c text input _ ih =>
    intro line room heq hline hroom tail
    obtain ⟨room, rfl⟩ := Nat.exists_eq_add_of_lt hroom
    rw [List.cons_append, fgets]
    cases line with
    | nil =>
      obtain ⟨rfl, rfl⟩ := List.cons.inj heq
      rename_i hspread
      cases hspread
      rw [if_pos rfl]
      rfl
    | cons d line =>
      obtain ⟨rfl, rfl⟩ := List.cons.inj heq
      have hc : c ≠ newline := fun hc => hline (by rw [← hc]; exact List.mem_cons_self)
      rw [if_neg hc, ih rfl (fun hmem => hline (List.mem_cons_of_mem _ hmem))
          (by rw [List.length_cons]; omega) tail]
      rfl
  | pause _ ih =>
    intro line room heq hline hroom tail
    obtain ⟨room, rfl⟩ := Nat.exists_eq_add_of_lt hroom
    rw [List.cons_append, fgets]
    exact ih heq hline hroom tail

/-! ## Numbers -/

theorem toNat_digitByte {d : ℕ} (h : d < 10) : (digitByte d).toNat = 48 + d := by
  rw [digitByte, UInt8.toNat_ofNat']
  omega

theorem isDigitByte_digitByte {d : ℕ} (h : d < 10) : isDigitByte (digitByte d) = true := by
  have htoNat := toNat_digitByte h
  simp only [isDigitByte, Bool.and_eq_true, decide_eq_true_eq, UInt8.le_iff_toNat_le, htoNat]
  change 48 ≤ 48 + d ∧ 48 + d ≤ 57
  omega

theorem isDigitByte_decimal {n : ℕ} : ∀ c ∈ decimal n, isDigitByte c = true := by
  intro c hc
  rw [decimal] at hc
  split at hc
  · obtain rfl := List.mem_singleton.mp hc
    decide
  · obtain ⟨d, hd, rfl⟩ := List.mem_map.mp hc
    exact isDigitByte_digitByte (Nat.digits_lt_base (by decide) (List.mem_reverse.mp hd))

theorem decimal_ne_nil {n : ℕ} : decimal n ≠ [] := by
  rw [decimal]
  split
  · exact List.cons_ne_nil _ _
  · rename_i hn
    rw [Ne, List.map_eq_nil_iff, List.reverse_eq_nil_iff, Nat.digits_eq_nil_iff_eq_zero]
    exact hn

theorem decimalValue_decimal (n : ℕ) : decimalValue (decimal n) = n := by
  rw [decimal]
  split
  · rename_i hn
    rw [hn]
    rfl
  · have hdigits : (Nat.digits 10 n).map ((fun c : UInt8 => c.toNat - 48) ∘ digitByte) =
        Nat.digits 10 n := by
      refine (List.map_congr_left fun d hd => ?_).trans (List.map_id _)
      rw [Function.comp_apply, toNat_digitByte (Nat.digits_lt_base (by decide) hd)]
      exact Nat.add_sub_cancel_left _ _
    rw [decimalValue, ← List.map_reverse, List.reverse_reverse, List.map_map, hdigits,
      Nat.ofDigits_digits]

theorem isDigitByte_not_space {c : UInt8} (h : isDigitByte c = true) :
    isSpaceByte c = false ∧ c ≠ 45 ∧ c ≠ 43 ∧ isBlankByte c = false ∧ c ≠ 0 ∧ c ≠ newline := by
  simp only [isDigitByte, Bool.and_eq_true, decide_eq_true_eq, UInt8.le_iff_toNat_le] at h
  have hne : ∀ d : UInt8, d.toNat < 48 → c ≠ d := by
    rintro d hd rfl
    exact absurd h.1 (by change ¬ 48 ≤ c.toNat; omega)
  simp only [isSpaceByte, isBlankByte, Bool.or_eq_false_iff, Bool.and_eq_false_iff,
    decide_eq_false_iff_not, UInt8.le_iff_toNat_le]
  refine ⟨⟨hne _ (by decide), .inr ?_⟩, hne _ (by decide), hne _ (by decide),
    ⟨hne _ (by decide), hne _ (by decide)⟩, hne _ (by decide), hne _ (by decide)⟩
  change ¬ c.toNat ≤ 13
  have h48 : 48 ≤ c.toNat := h.1
  omega

theorem contentLength_decimal {n : ℕ} (hn : n ≤ lspMaxContentLength) :
    contentLength (32 :: decimal n ++ [carriageReturn, newline]) = some n := by
  obtain ⟨c, digits, hdecimal⟩ := List.exists_cons_of_ne_nil (@decimal_ne_nil n)
  obtain ⟨hspace, hminus, hplus, hblank, -⟩ :=
    isDigitByte_not_space (isDigitByte_decimal c (hdecimal ▸ List.mem_cons_self))
  have hstart : ∀ (p : UInt8 → Bool), p c = false → ∀ rest : Text,
      (decimal n ++ rest).dropWhile p = decimal n ++ rest := by
    intro p hp rest
    rw [hdecimal, List.cons_append, List.dropWhile_cons_of_neg (by simp [hp])]
  have hsign : ∀ rest : Text, signOf (decimal n ++ rest) = (false, decimal n ++ rest) := by
    intro rest
    rw [hdecimal, List.cons_append, signOf]
    · exact fun _ h => hminus (List.cons.inj h).1
    · exact fun _ h => hplus (List.cons.inj h).1
  have hn64 : n < 2 ^ 64 := by
    rw [lspMaxContentLength] at hn
    omega
  have hstrtoul : strtoul (decimal n ++ [carriageReturn, newline]) =
      some (n, [carriageReturn, newline]) := by
    rw [strtoul, hstart _ hspace, hsign]
    simp only [List.takeWhile_append_of_pos isDigitByte_decimal,
      List.dropWhile_append_of_pos isDigitByte_decimal]
    rw [show [carriageReturn, newline].takeWhile isDigitByte = [] by decide,
      show [carriageReturn, newline].dropWhile isDigitByte = [carriageReturn, newline] by decide,
      List.append_nil, decimalValue_decimal, if_neg (not_or.mpr ⟨decimal_ne_nil, by omega⟩)]
    rfl
  rw [contentLength, List.cons_append, List.dropWhile_cons_of_pos (by decide), hstart _ hblank,
    hstrtoul]
  exact if_neg (not_or.mpr ⟨by omega, by decide⟩)

/-! ## Frames -/

/-- A line of a header, without its line end, and how it arrives. -/
structure HeaderLine where

  text : Text

  input : Input

  plain : ∀ c ∈ text, c ≠ newline ∧ c ≠ 0

  short : text.length < 255

  arrives : Spread (text ++ [newline]) input

namespace HeaderLine

variable (l : HeaderLine)

/-- A line of another field. -/
def Other : Prop :=
  isBlankLine (l.text ++ [newline]) = false ∧
    lengthField.isPrefixOf (l.text ++ [newline]) = false

theorem fgets_input (tail : Input) : fgets 255 (l.input ++ tail) = (l.text ++ [newline], tail) :=
  fgets_spread l.arrives rfl (fun hmem => (l.plain _ hmem).1 rfl) l.short tail

theorem cString_line : cString (l.text ++ [newline]) = l.text ++ [newline] := by
  refine List.takeWhile_eq_self_iff.mpr fun c hc => ?_
  rcases List.mem_append.mp hc with hc | hc
  · exact decide_eq_true (l.plain c hc).2
  · obtain rfl := List.mem_singleton.mp hc
    decide

theorem input_pos : 0 < l.input.length := by
  have harrives := l.arrives
  cases hinput : l.input with
  | nil =>
    rw [hinput] at harrives
    generalize htext : l.text ++ [newline] = text at harrives
    cases harrives
    simp at htext
  | cons => exact Nat.succ_pos _

theorem readHeaders_input (fuel : ℕ) (length : Option ℕ) (tail : Input) :
    readHeaders (fuel + 1) length (l.input ++ tail) =
      if isBlankLine (l.text ++ [newline]) then length.map fun n => (n, tail)
      else if lengthField.isPrefixOf (l.text ++ [newline]) then
        match contentLength ((l.text ++ [newline]).drop 15) with
        | none => none
        | some n => readHeaders fuel (some n) tail
      else readHeaders fuel length tail := by
  rw [readHeaders, l.fgets_input]
  obtain ⟨c, line, hline⟩ := List.exists_cons_of_ne_nil
    (List.append_ne_nil_of_right_ne_nil l.text (List.cons_ne_nil newline []))
  have hcString := l.cString_line
  rw [hline] at hcString ⊢
  simp only [hcString]

end HeaderLine

theorem readHeaders_others (fuel : ℕ) (length : Option ℕ) (tail : Input) :
    ∀ {lines : List HeaderLine}, (∀ l ∈ lines, l.Other) →
      readHeaders (lines.length + fuel) length (lines.flatMap HeaderLine.input ++ tail) =
        readHeaders fuel length tail
  | [], _ => by rw [List.length_nil, Nat.zero_add, List.flatMap_nil, List.nil_append]
  | l :: lines, h => by
      obtain ⟨hother, hrest⟩ := List.forall_mem_cons.mp h
      rw [List.length_cons, Nat.add_right_comm, List.flatMap_cons, List.append_assoc,
        l.readHeaders_input, hother.1, hother.2, if_neg Bool.false_ne_true,
        if_neg Bool.false_ne_true, readHeaders_others fuel length tail hrest]

theorem length_le_input : ∀ lines : List HeaderLine,
    lines.length ≤ (lines.flatMap HeaderLine.input).length
  | [] => Nat.zero_le _
  | l :: lines => by
      have hpos := l.input_pos
      have hrest := length_le_input lines
      rw [List.flatMap_cons, List.length_append, List.length_cons]
      omega

/-- A message as a peer writes it. Other fields may stand around the length. -/
structure Frame where

  before : List HeaderLine

  length : HeaderLine

  after : List HeaderLine

  blank : HeaderLine

  body : Text

  others : ∀ l ∈ before ++ after, l.Other

  announced : length.text = lengthField ++ 32 :: decimal body.length ++ [carriageReturn]

  ended : blank.text = [carriageReturn]

  fits : body.length ≤ lspMaxContentLength

namespace Frame

variable (f : Frame)

def header : List HeaderLine := f.before ++ f.length :: (f.after ++ [f.blank])

/-- Nothing pauses in the body. -/
def input : Input := f.header.flatMap HeaderLine.input ++ f.body.map .byte

theorem readHeaders_header (fuel : ℕ) (tail : Input) :
    readHeaders (f.header.length + fuel) none (f.header.flatMap HeaderLine.input ++ tail) =
      some (f.body.length, tail) := by
  have hbefore := fun l hl => f.others l (List.mem_append_left _ hl)
  have hafter := fun l hl => f.others l (List.mem_append_right _ hl)
  have hfuel : f.header.length + fuel =
      f.before.length + ((f.after.length + (fuel + 1)) + 1) := by
    simp only [header, List.length_append, List.length_cons, List.length_nil]
    omega
  have hlength : readHeaders ((f.after.length + (fuel + 1)) + 1) none
      (f.length.input ++ (f.after.flatMap HeaderLine.input ++ (f.blank.input ++ tail))) =
        readHeaders (f.after.length + (fuel + 1)) (some f.body.length)
          (f.after.flatMap HeaderLine.input ++ (f.blank.input ++ tail)) := by
    have hvalue : (f.length.text ++ [newline]).drop 15 =
        32 :: decimal f.body.length ++ [carriageReturn, newline] := by
      rw [f.announced, List.append_assoc, List.append_assoc]
      exact List.drop_left' rfl
    have hfield : lengthField.isPrefixOf (f.length.text ++ [newline]) = true := by
      rw [f.announced, List.append_assoc, List.append_assoc, List.isPrefixOf_iff_prefix]
      exact List.prefix_append _ _
    have hblank : isBlankLine (f.length.text ++ [newline]) = false := by
      rw [f.announced]
      rfl
    rw [f.length.readHeaders_input, hblank, hfield, if_neg Bool.false_ne_true, if_pos rfl, hvalue,
      contentLength_decimal f.fits]
  rw [hfuel, header, List.flatMap_append, List.flatMap_cons, List.flatMap_append,
    List.flatMap_singleton, List.append_assoc, List.append_assoc, List.append_assoc,
    readHeaders_others _ _ _ hbefore, hlength, readHeaders_others _ _ _ hafter,
    f.blank.readHeaders_input, f.ended]
  rfl

end Frame

theorem lspReadBodyExact_bytes (tail : Input) :
    ∀ body : Text, lspReadBodyExact body.length (body.map .byte ++ tail) = some (body, tail)
  | [] => by rw [List.length_nil, lspReadBodyExact, List.map_nil, List.nil_append]
  | c :: body => by
      rw [List.length_cons, List.map_cons, List.cons_append, lspReadBodyExact,
        lspReadBodyExact_bytes tail body]
      rfl

theorem lspIoReadMessage_frame (f : Frame) (tail : Input) :
    lspIoReadMessage (f.input ++ tail) = some (f.body, tail) := by
  obtain ⟨fuel, hfuel⟩ := Nat.exists_eq_add_of_le (length_le_input f.header)
  have hlength : (f.input ++ tail).length + 1 =
      f.header.length + (fuel + (f.body.length + tail.length) + 1) := by
    rw [Frame.input, List.length_append, List.length_append, List.length_map, hfuel]
    omega
  rw [lspIoReadMessage, hlength, Frame.input, List.append_assoc, f.readHeaders_header,
    Option.bind_some, lspReadBodyExact_bytes]

/-- A line that arrives without a pause. -/
def HeaderLine.written (text : Text) (plain : ∀ c ∈ text, c ≠ newline ∧ c ≠ 0)
    (short : text.length < 255) : HeaderLine :=
  ⟨text, (text ++ [newline]).map .byte, plain, short, .of_bytes _⟩

/-- The line of a length is short and has no special bytes. -/
theorem announcement_plain {n : ℕ} (hn : n ≤ lspMaxContentLength) :
    (∀ c ∈ lengthField ++ 32 :: decimal n ++ [carriageReturn], c ≠ newline ∧ c ≠ 0) ∧
      (lengthField ++ 32 :: decimal n ++ [carriageReturn]).length < 255 := by
  constructor
  · intro c hc
    simp only [List.mem_append, List.mem_cons, List.mem_nil_iff, or_false] at hc
    rcases hc with (hc | rfl | hc) | rfl
    · have hall : (lengthField.all fun c => decide (c ≠ newline ∧ c ≠ 0)) = true := by decide
      exact of_decide_eq_true (List.all_eq_true.mp hall c hc)
    · decide
    · obtain ⟨-, -, -, -, hzero, hline⟩ := isDigitByte_not_space (isDigitByte_decimal c hc)
      exact ⟨hline, hzero⟩
    · decide
  · have hdigits : (decimal n).length ≤ 200 := by
      rw [decimal]
      split
      · decide
      · rw [List.length_map, List.length_reverse]
        exact (Nat.digits_length_le_iff (by decide) _).mpr (lt_of_le_of_lt hn (by decide))
    rw [List.length_append, List.length_append, List.length_cons]
    change 15 + _ + 1 < 255
    omega

/-- A message that the server writes is a frame. -/
def Frame.written (json : Text) (fits : json.length ≤ lspMaxContentLength) : Frame where
  before := []
  length := .written _ (announcement_plain fits).1 (announcement_plain fits).2
  after := []
  blank := .written [carriageReturn] (List.forall_mem_singleton.mpr (by decide)) (by decide)
  body := json
  others := by simp
  announced := rfl
  ended := rfl
  fits := fits

theorem Frame.written_input (json : Text) (fits : json.length ≤ lspMaxContentLength) :
    (Frame.written json fits).input = (lspIoWriteMessage json).map .byte := by
  simp [Frame.input, Frame.header, Frame.written, HeaderLine.written, lspIoWriteMessage]

theorem fgets_suffix : ∀ (room : ℕ) (input : Input), (fgets room input).2 <:+ input
  | _, [] => by rw [fgets]
  | 0, c :: input => by
      rw [fgets]
      exact List.cons_ne_nil _ _
  | room + 1, .pause :: rest => by
      rw [fgets]
      exact (fgets_suffix _ rest).trans (List.suffix_cons _ _)
  | room + 1, .byte c :: rest => by
      rw [fgets]
      split
      · exact List.suffix_cons _ _
      · exact (fgets_suffix room rest).trans (List.suffix_cons _ _)

theorem contentLength_le {value : Text} {n : ℕ} (h : contentLength value = some n) :
    n ≤ lspMaxContentLength := by
  rw [contentLength] at h
  split at h
  · cases h
  split at h
  · cases h
  · rename_i hvalid
    exact Option.some.inj h ▸ not_lt.mp (not_or.mp hvalid).1

theorem readHeaders_sound : ∀ {fuel : ℕ} {length : Option ℕ} {input rest : Input} {n : ℕ},
    (∀ k, length = some k → k ≤ lspMaxContentLength) →
      readHeaders fuel length input = some (n, rest) → rest <:+ input ∧ n ≤ lspMaxContentLength
  | fuel + 1, length, input, rest, n, hlength, h => by
      have hsuffix := fgets_suffix 255 input
      rw [readHeaders] at h
      split at h
      · cases h
      rename_i hline
      rw [hline] at hsuffix
      dsimp only at h hsuffix
      split at h
      · obtain ⟨k, hk, heq⟩ := Option.map_eq_some_iff.mp h
        obtain ⟨rfl, rfl⟩ := Prod.mk.inj heq
        exact ⟨hsuffix, hlength k hk⟩
      split at h
      · split at h
        · cases h
        · rename_i hvalue
          have ih := readHeaders_sound
            (fun k hk => Option.some.inj hk ▸ contentLength_le hvalue) h
          exact ⟨ih.1.trans hsuffix, ih.2⟩
      · have ih := readHeaders_sound hlength h
        exact ⟨ih.1.trans hsuffix, ih.2⟩

theorem lspReadBodyExact_sound : ∀ {n : ℕ} {input rest : Input} {body : Text},
    lspReadBodyExact n input = some (body, rest) → input = body.map .byte ++ rest ∧ body.length = n
  | 0, input, rest, body, h => by
      obtain ⟨rfl, rfl⟩ := Prod.mk.inj (Option.some.inj h)
      exact ⟨rfl, rfl⟩
  | n + 1, .byte c :: input, rest, body, h => by
      obtain ⟨⟨body', rest'⟩, hrec, heq⟩ := Option.map_eq_some_iff.mp h
      obtain ⟨rfl, rfl⟩ := Prod.mk.inj heq
      obtain ⟨rfl, rfl⟩ := lspReadBodyExact_sound hrec
      exact ⟨rfl, rfl⟩

/-- Bodies that lie one behind the other in an input, each without a pause and not too long. -/
inductive Holds : Input → List Text → Prop

  | nil {input : Input} : Holds input []

  | cons {head rest : Input} {body : Text} {bodies : List Text} (h : Holds rest bodies)
      (fits : body.length ≤ lspMaxContentLength) :
      Holds (head ++ body.map .byte ++ rest) (body :: bodies)

/-- Nothing is read that did not arrive, whatever the input is. -/
theorem messages_hold : ∀ (fuel : ℕ) (input : Input), Holds input (messages fuel input)
  | 0, _ => .nil
  | fuel + 1, input => by
      rw [messages]
      split
      · exact .nil
      · rename_i message rest hread
        obtain ⟨⟨n, behind⟩, hheaders, hbody⟩ := Option.bind_eq_some_iff.mp hread
        obtain ⟨⟨head, rfl⟩, hn⟩ := readHeaders_sound (fun _ h => by cases h) hheaders
        obtain ⟨rfl, hlength⟩ := lspReadBodyExact_sound hbody
        rw [← List.append_assoc]
        exact .cons (messages_hold fuel rest) (hlength.trans_le hn)

end JzHdl.Lsp

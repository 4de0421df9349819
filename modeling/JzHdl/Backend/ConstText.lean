import JzHdl.Backend.Alias
import JzHdl.Lib.IdentText
import JzHdl.Parser.Lexer

/-! # Constant texts of connections

The instance builder writes a constant or a concatenation as a text, and the backend
goes over that text again to give the signals in it their canonical names. Both work
in buffers of a fixed size, and the second cannot tell a name from a literal's tail.
-/

namespace JzHdl

open IdentText

/-- A module with the names of its signals. -/
structure NamedModule where

  module : IRModule

  name : module.SignalIndex → Option (List Char)

namespace NamedModule

variable (m : NamedModule)

def findSignalByName (name : List Char) : Option m.module.SignalIndex :=
  if name = [] then none
  else (List.finRange m.module.signals.length).find? fun i => m.name i == some name

/-- The name of the canonical signal, or the text itself when it names no signal. -/
def emitName (name : List Char) : List Char :=
  match m.findSignalByName name with
  | none => name
  | some i =>
    match m.module.findSignalById m.module.signals[i].id with
    | none => name
    | some canon => (m.name canon).getD name

/-- The loop of `canonicalize_const_expr`. A name is cut to 255 characters, and one that does not
fit is left out. -/
def canonLoop (bufSize : ℕ) (out : List Char) : List Char → List Char
  | [] => out
  | c :: rest =>
    if out.length < bufSize - 1 then
      if isIdentifierStart c then
        let emitted := m.emitName ((c :: rest.takeWhile isIdentifierChar).take 255)
        canonLoop bufSize
          (if out.length + emitted.length < bufSize then out ++ emitted else out)
          (rest.dropWhile isIdentifierChar)
      else canonLoop bufSize (out ++ [c]) rest
    else out
termination_by text => text.length
decreasing_by
  · exact Nat.lt_succ_of_le (List.length_dropWhile_le isIdentifierChar rest)
  · simp

def canonicalizeConstExpr (text : List Char) : List Char := m.canonLoop 1024 [] text

end NamedModule

/-! ## The builder -/

inductive ConstElem where

  | literal (text : List Char)

  | signal (name : List Char)

namespace ConstElem

def source : ConstElem → List Char
  | .literal text => text
  | .signal name => name

/-- What an element should become. -/
def renamed (m : NamedModule) : ConstElem → List Char
  | .literal text => text
  | .signal name => m.emitName name

end ConstElem

/-- The loop that fills `concat_buf`. It stops at the first element without room. -/
def concatLoop (buf : List Char) (first : Bool) : List (List Char) → List Char
  | [] => buf ++ ['\x7d']
  | t :: rest =>
    let buf := if first then buf else buf ++ [',', ' ']
    if 512 ≤ buf.length + t.length + 2 then buf ++ ['\x7d']
    else concatLoop (buf ++ t) false rest

/-- A connection whose text is kept: a literal, or a concatenation of literals and signals. -/
inductive ConstRhs where

  | literal (text : List Char)

  | concat (elems : List ConstElem)

/-- A concatenation written out. -/
def joined : List (List Char) → List Char
  | [] => ['\x7b', '\x7d']
  | t :: rest => '\x7b' :: (t ++ (rest.flatMap fun u => [',', ' '] ++ u) ++ ['\x7d'])

namespace ConstRhs

/-- `const_expr` of the connection. -/
def constExpr : ConstRhs → List Char
  | .literal text => text
  | .concat elems => concatLoop ['\x7b'] true (elems.map ConstElem.source)

/-- The text with exactly the signal names replaced. -/
def renamed (m : NamedModule) : ConstRhs → List Char
  | .literal text => text
  | .concat elems => joined (elems.map (ConstElem.renamed m))

def elems : ConstRhs → List ConstElem
  | .literal text => [.literal text]
  | .concat elems => elems

end ConstRhs

/-! ## Pieces -/

abbrev textPieces (text : List Char) : List (Piece Char) :=
  pieces isIdentifierStart isIdentifierChar text

abbrev IsIdentifier (w : List Char) : Prop := IsWord isIdentifierStart isIdentifierChar w

namespace NamedModule

variable (m : NamedModule)

/-- What the scan makes of a piece, room permitting. -/
def emitPiece : Piece Char → Piece Char
  | .char c => .char c
  | .word w => .word (m.emitName (w.take 255))

/-- The pieces that find room behind `n` characters. -/
def keptPieces (bufSize : ℕ) : ℕ → List (Piece Char) → List (Piece Char)
  | _, [] => []
  | n, .char c :: ps => if n < bufSize - 1 then .char c :: keptPieces bufSize (n + 1) ps else []
  | n, .word w :: ps =>
    if n < bufSize - 1 then
      if n + (m.emitName (w.take 255)).length < bufSize then
        .word (m.emitName (w.take 255)) ::
          keptPieces bufSize (n + (m.emitName (w.take 255)).length) ps
      else keptPieces bufSize n ps
    else []

theorem canonLoop_eq (bufSize : ℕ) (l : List Char) : ∀ out : List Char,
    m.canonLoop bufSize out l = out ++ text (m.keptPieces bufSize out.length (textPieces l)) := by
  induction l using pieces.induct isIdentifierStart isIdentifierChar with
  | case1 =>
    intro out
    rw [canonLoop, textPieces, pieces_nil, keptPieces, text_nil, List.append_nil]
  | case2 c rest hc ih =>
    intro out
    have hpieces : textPieces (c :: rest) = .word (c :: rest.takeWhile isIdentifierChar) ::
        textPieces (rest.dropWhile isIdentifierChar) := by rw [textPieces, pieces, if_pos hc]
    rw [canonLoop, hpieces, keptPieces]
    split
    · dsimp only
      split
      · rw [ih, text_word, List.length_append, List.append_assoc]
      · rw [ih]
    · rw [text_nil, List.append_nil]
  | case3 c rest hc ih =>
    intro out
    have hpieces : textPieces (c :: rest) = .char c :: textPieces rest := by
      rw [textPieces, pieces, if_neg hc]
    rw [canonLoop, hpieces, keptPieces]
    split
    · rw [ih, text_char, List.length_append, List.append_assoc]
      rfl
    · rw [text_nil, List.append_nil]

theorem length_keptPieces_le (bufSize : ℕ) : ∀ (ps : List (Piece Char)) (n : ℕ),
    (m.keptPieces bufSize n ps).length ≤ ps.length
  | [], _ => le_rfl
  | .char c :: ps, n => by
      rw [keptPieces]
      split
      · exact Nat.succ_le_succ (length_keptPieces_le bufSize ps _)
      · exact Nat.zero_le _
  | .word w :: ps, n => by
      rw [keptPieces]
      split
      · split
        · exact Nat.succ_le_succ (length_keptPieces_le bufSize ps _)
        · exact (length_keptPieces_le bufSize ps n).trans (Nat.le_succ _)
      · exact Nat.zero_le _

/-- When no piece is lost all of them are emitted and the text has room. -/
theorem keptPieces_eq_of_length {bufSize : ℕ} : ∀ {ps : List (Piece Char)} {n : ℕ},
    n ≤ bufSize - 1 → (m.keptPieces bufSize n ps).length = ps.length →
      m.keptPieces bufSize n ps = ps.map m.emitPiece ∧
        n + (text (ps.map m.emitPiece)).length ≤ bufSize - 1
  | [], n, hn, _ => ⟨rfl, hn⟩
  | .char c :: ps, n, hn, h => by
      rw [keptPieces] at h ⊢
      split at h
      · rename_i hroom
        rw [if_pos hroom]
        obtain ⟨heq, hlen⟩ := keptPieces_eq_of_length (by omega) (Nat.succ.inj h)
        refine ⟨by rw [heq]; rfl, ?_⟩
        simp only [List.map_cons, emitPiece, text_char, List.length_cons]
        omega
      · simp at h
  | .word w :: ps, n, hn, h => by
      rw [keptPieces] at h ⊢
      split at h
      · rename_i hroom
        rw [if_pos hroom]
        split at h
        · rename_i hfit
          rw [if_pos hfit]
          obtain ⟨heq, hlen⟩ := keptPieces_eq_of_length (by omega) (Nat.succ.inj h)
          refine ⟨by rw [heq]; rfl, ?_⟩
          simp only [List.map_cons, emitPiece, text_word, List.length_append]
          omega
        · have := m.length_keptPieces_le bufSize ps n
          simp only [List.length_cons] at h
          omega
      · simp at h

theorem keptPieces_of_room {bufSize : ℕ} : ∀ {ps : List (Piece Char)} {n : ℕ},
    n + (text (ps.map m.emitPiece)).length ≤ bufSize - 1 → (∀ w, .word w ∈ ps →
      m.emitName (w.take 255) ≠ []) → m.keptPieces bufSize n ps = ps.map m.emitPiece
  | [], _, _, _ => rfl
  | .char c :: ps, n, h, hne => by
      simp only [List.map_cons, emitPiece, text_char, List.length_cons] at h
      rw [keptPieces, if_pos (by omega), keptPieces_of_room (by omega)
        fun w hw => hne w (List.mem_cons_of_mem _ hw)]
      rfl
  | .word w :: ps, n, h, hne => by
      have hpos := List.length_pos_of_ne_nil (hne w List.mem_cons_self)
      simp only [List.map_cons, emitPiece, text_word, List.length_append] at h
      rw [keptPieces, if_pos (by omega), if_pos (by omega), keptPieces_of_room (by omega)
        fun w hw => hne w (List.mem_cons_of_mem _ hw)]
      rfl

/-- Signal names are identifiers, as the lexer makes them. -/
def NamesOk : Prop := ∀ i name, m.name i = some name → IsIdentifier name

variable {m}

theorem isIdentifier_take {w : List Char} (h : IsIdentifier w) : IsIdentifier (w.take 255) := by
  obtain ⟨c, rest, rfl, hc, hrest⟩ := h
  exact ⟨c, rest.take 254, rfl, hc, fun x hx => hrest x (List.mem_of_mem_take hx)⟩

theorem NamesOk.emitName (h : m.NamesOk) {w : List Char} (hw : IsIdentifier w) :
    IsIdentifier (m.emitName w) := by
  rw [NamedModule.emitName]
  split
  · exact hw
  · split
    · exact hw
    · rename_i canon _
      cases hname : m.name canon with
      | none => exact hw
      | some name => exact h canon name hname

theorem stops_keptPieces (bufSize : ℕ) {ps : List (Piece Char)} (n : ℕ)
    (h : Split isIdentifierStart isIdentifierChar ps) (hstop : Stops isIdentifierChar (text ps)) :
    Stops isIdentifierChar (text (m.keptPieces bufSize n ps)) := by
  match ps, h with
  | [], _ => exact hstop
  | .char c :: ps, _ =>
    rw [keptPieces]
    split
    · exact hstop
    · trivial
  | .word w :: ps, ⟨⟨c, rest, hw, hc, _⟩, _, _⟩ =>
    subst hw
    have hpart : isIdentifierChar c = false := hstop
    have hstart : isIdentifierChar c = true := by
      simp only [isIdentifierStart, isIdentifierChar, Char.isAlphanum, Bool.or_eq_true,
        decide_eq_true_eq] at hc ⊢
      tauto
    rw [hstart] at hpart
    cases hpart

/-- What is kept could be the split of a text. -/
theorem NamesOk.split_keptPieces (hm : m.NamesOk) (bufSize : ℕ) :
    ∀ {ps : List (Piece Char)} (n : ℕ), Split isIdentifierStart isIdentifierChar ps →
      Split isIdentifierStart isIdentifierChar (m.keptPieces bufSize n ps)
  | [], _, _ => trivial
  | .char c :: ps, n, ⟨hc, h⟩ => by
      rw [keptPieces]
      split
      · exact ⟨hc, hm.split_keptPieces bufSize _ h⟩
      · trivial
  | .word w :: ps, n, ⟨hw, hstop, h⟩ => by
      rw [keptPieces]
      split
      · split
        · exact ⟨hm.emitName (isIdentifier_take hw), stops_keptPieces bufSize _ h hstop,
            hm.split_keptPieces bufSize _ h⟩
        · exact hm.split_keptPieces bufSize n h
      · trivial

/-- The scan of a text with as many pieces as its target is right when every piece is and the
target has room. -/
theorem NamesOk.canonicalize_iff (hm : m.NamesOk) {source target : List Char}
    (hlen : (textPieces source).length = (textPieces target).length) :
    m.canonicalizeConstExpr source = target ↔
      (textPieces source).map m.emitPiece = textPieces target ∧ target.length ≤ 1023 := by
  rw [canonicalizeConstExpr, canonLoop_eq, List.nil_append, List.length_nil]
  constructor
  · intro h
    have hkept : m.keptPieces 1024 0 (textPieces source) = textPieces target := by
      rw [← h, textPieces, textPieces,
        pieces_text (hm.split_keptPieces 1024 0 (split_pieces source))]
    obtain ⟨heq, hroom⟩ := m.keptPieces_eq_of_length (Nat.zero_le _) (by rw [hkept, hlen])
    refine ⟨heq.symm.trans hkept, ?_⟩
    rw [← heq, h] at hroom
    omega
  · rintro ⟨heq, hroom⟩
    have htext : text ((textPieces source).map m.emitPiece) = target := by rw [heq, text_pieces]
    rw [m.keptPieces_of_room (by rw [htext]; omega) fun w hw => ?_, htext]
    obtain ⟨c, rest, h, -, -⟩ := hm.emitName (isIdentifier_take (split_pieces source |>.word hw))
    rw [h]
    exact List.cons_ne_nil c rest

/-- A text with fewer pieces cannot become the target. -/
theorem NamesOk.canonicalize_ne (hm : m.NamesOk) {source target : List Char}
    (hlen : (textPieces source).length < (textPieces target).length) :
    m.canonicalizeConstExpr source ≠ target := by
  rw [canonicalizeConstExpr, canonLoop_eq, List.nil_append, List.length_nil]
  intro h
  have hkept : m.keptPieces 1024 0 (textPieces source) = textPieces target := by
    rw [← h, textPieces, textPieces, pieces_text (hm.split_keptPieces 1024 0 (split_pieces source))]
  have hle := m.length_keptPieces_le 1024 (textPieces source) 0
  rw [hkept] at hle
  omega

end NamedModule

/-! ## Concatenations -/

theorem stops_separator (rest : List (List Char)) : Stops isIdentifierChar
    ((rest.flatMap fun u => [',', ' '] ++ u) ++ ['\x7d']) := by
  cases rest with
  | nil => exact (by decide : isIdentifierChar '\x7d' = false)
  | cons u rest => exact (by decide : isIdentifierChar ',' = false)

/-- The pieces of the elements with those of the separators. -/
def joinPieces : List (List (Piece Char)) → List (Piece Char)
  | [] => [.char '\x7b', .char '\x7d']
  | ps :: rest => .char '\x7b' ::
      (ps ++ (rest.flatMap fun qs => [.char ',', .char ' '] ++ qs) ++ [.char '\x7d'])

theorem textPieces_separated : ∀ rest : List (List Char),
    textPieces ((rest.flatMap fun u => [',', ' '] ++ u) ++ ['\x7d']) =
      ((rest.map textPieces).flatMap fun qs => [.char ',', .char ' '] ++ qs) ++ [.char '\x7d']
  | [] => by
      change textPieces ['\x7d'] = _
      rw [textPieces, pieces_char (by decide), pieces_nil]
      rfl
  | u :: rest => by
      have hu : ((u :: rest).flatMap fun u => [',', ' '] ++ u) ++ ['\x7d'] =
          ',' :: ' ' :: (u ++ ((rest.flatMap fun u => [',', ' '] ++ u) ++ ['\x7d'])) := by simp
      rw [hu, textPieces, pieces_char (by decide), pieces_char (by decide),
        pieces_append u (stops_separator rest), ← textPieces, ← textPieces,
        textPieces_separated rest]
      simp

theorem textPieces_joined : ∀ ts : List (List Char),
    textPieces (joined ts) = joinPieces (ts.map textPieces)
  | [] => by
      change textPieces ['\x7b', '\x7d'] = _
      rw [textPieces, pieces_char (by decide), pieces_char (by decide), pieces_nil]
      rfl
  | t :: rest => by
      rw [joined, textPieces, pieces_char (by decide), List.append_assoc,
        pieces_append t (stops_separator rest), ← textPieces, ← textPieces,
        textPieces_separated rest, List.map_cons, joinPieces, List.append_assoc]

theorem concatLoop_fits : ∀ (ts : List (List Char)) (buf : List Char),
    buf.length + (ts.flatMap fun u => [',', ' '] ++ u).length ≤ 509 →
      concatLoop buf false ts = buf ++ ((ts.flatMap fun u => [',', ' '] ++ u) ++ ['\x7d'])
  | [], buf, _ => rfl
  | t :: rest, buf, h => by
      simp only [List.flatMap_cons, List.length_append, List.length_cons, List.length_nil] at h
      rw [concatLoop]
      simp only [Bool.false_eq_true, if_false]
      rw [if_neg (by simp; omega), concatLoop_fits rest _ (by
        simp only [List.length_append, List.length_cons, List.length_nil]
        omega)]
      simp

/-- A text that was cut has fewer pieces than the whole. -/
theorem concatLoop_cut : ∀ (ts : List (List Char)) (buf : List Char), (∀ t ∈ ts, t ≠ []) →
    buf.length ≤ 509 → 509 < buf.length + (ts.flatMap fun u => [',', ' '] ++ u).length →
      ∃ x, concatLoop buf false ts = buf ++ x ∧ Stops isIdentifierChar x ∧
        (textPieces x).length <
          (textPieces ((ts.flatMap fun u => [',', ' '] ++ u) ++ ['\x7d'])).length
  | [], buf, _, hle, hlt => by
      simp only [List.flatMap_nil, List.length_nil] at hlt
      omega
  | t :: rest, buf, hne, hle, hlt => by
      have hfull : ((t :: rest).flatMap fun u => [',', ' '] ++ u) ++ ['\x7d'] =
          ',' :: ' ' :: (t ++ ((rest.flatMap fun u => [',', ' '] ++ u) ++ ['\x7d'])) := by simp
      have hcount : (textPieces
          (((t :: rest).flatMap fun u => [',', ' '] ++ u) ++ ['\x7d'])).length =
            (textPieces t).length +
              (textPieces ((rest.flatMap fun u => [',', ' '] ++ u) ++ ['\x7d'])).length + 2 := by
        rw [hfull, textPieces, pieces_char (by decide), pieces_char (by decide),
          pieces_append t (stops_separator rest)]
        simp
      have ht : 0 < (textPieces t).length :=
        List.length_pos_of_ne_nil (pieces_ne_nil (hne t List.mem_cons_self))
      rw [concatLoop]
      simp only [Bool.false_eq_true, if_false]
      by_cases hroom : 512 ≤ (buf ++ [',', ' ']).length + t.length + 2
      · rw [if_pos hroom]
        refine ⟨[',', ' ', '\x7d'], by simp, (by decide : isIdentifierChar ',' = false), ?_⟩
        have hlast : 0 < (textPieces
            ((rest.flatMap fun u => [',', ' '] ++ u) ++ ['\x7d'])).length :=
          List.length_pos_of_ne_nil (pieces_ne_nil (by simp))
        rw [hcount, textPieces, pieces_char (by decide), pieces_char (by decide),
          pieces_char (by decide), pieces_nil]
        simp only [List.length_cons, List.length_nil]
        omega
      · rw [if_neg hroom]
        simp only [List.length_append, List.length_cons, List.length_nil] at hroom
        simp only [List.flatMap_cons, List.length_append, List.length_cons, List.length_nil] at hlt
        obtain ⟨x, heq, hstop, hless⟩ := concatLoop_cut rest (buf ++ [',', ' '] ++ t)
          (fun u hu => hne u (List.mem_cons_of_mem t hu)) (by simp; omega) (by
            simp only [List.length_append, List.length_cons, List.length_nil]
            omega)
        refine ⟨',' :: ' ' :: (t ++ x), by rw [heq]; simp,
          (by decide : isIdentifierChar ',' = false), ?_⟩
        rw [hcount, textPieces, pieces_char (by decide), pieces_char (by decide),
          pieces_append t hstop, ← textPieces, ← textPieces]
        simp only [List.length_cons, List.length_append]
        omega

/-- The builder writes the whole concatenation when it has at most 510 characters. -/
theorem concatLoop_joined {ts : List (List Char)} (h : (joined ts).length ≤ 510) :
    concatLoop ['\x7b'] true ts = joined ts := by
  cases ts with
  | nil => rfl
  | cons t rest =>
    simp only [joined, List.length_cons, List.length_append, List.length_nil] at h
    rw [concatLoop]
    simp only [if_true]
    rw [if_neg (by simp; omega), concatLoop_fits rest _ (by
      simp only [List.length_append, List.length_cons, List.length_nil]
      omega)]
    simp [joined]

theorem concatLoop_joined_cut {ts : List (List Char)} (hne : ∀ t ∈ ts, t ≠ [])
    (h : 510 < (joined ts).length) :
    (textPieces (concatLoop ['\x7b'] true ts)).length < (textPieces (joined ts)).length := by
  cases ts with
  | nil => simp [joined] at h
  | cons t rest =>
    have hcount : (textPieces (joined (t :: rest))).length = (textPieces t).length +
        (textPieces ((rest.flatMap fun u => [',', ' '] ++ u) ++ ['\x7d'])).length + 1 := by
      rw [joined, textPieces, pieces_char (by decide), List.append_assoc,
        pieces_append t (stops_separator rest)]
      simp
    have ht : 0 < (textPieces t).length :=
      List.length_pos_of_ne_nil (pieces_ne_nil (hne t List.mem_cons_self))
    simp only [joined, List.length_cons, List.length_append, List.length_nil] at h
    rw [concatLoop, hcount]
    simp only [if_true]
    by_cases hroom : 512 ≤ ['\x7b'].length + t.length + 2
    · have hlast : 0 < (textPieces
          ((rest.flatMap fun u => [',', ' '] ++ u) ++ ['\x7d'])).length :=
        List.length_pos_of_ne_nil (pieces_ne_nil (by simp))
      rw [if_pos hroom, List.singleton_append, textPieces, pieces_char (by decide),
        pieces_char (by decide), pieces_nil]
      simp only [List.length_cons, List.length_nil]
      omega
    · rw [if_neg hroom]
      simp only [List.length_cons, List.length_nil] at hroom
      obtain ⟨x, heq, hstop, hless⟩ := concatLoop_cut rest (['\x7b'] ++ t)
        (fun u hu => hne u (List.mem_cons_of_mem t hu)) (by simp; omega) (by
          simp only [List.length_append, List.length_cons, List.length_nil]
          omega)
      rw [heq, List.append_assoc, List.singleton_append, textPieces, pieces_char (by decide),
        pieces_append t hstop, ← textPieces, ← textPieces]
      simp only [List.length_cons, List.length_append]
      omega

/-! ## Elements -/

section

variable {m : NamedModule}

/-- Literals are not empty and the other elements are identifiers, as the lexer makes them. -/
def ConstElem.Ok : ConstElem → Prop
  | .literal text => text ≠ []
  | .signal name => IsIdentifier name

theorem ConstElem.Ok.source_ne_nil : ∀ {e : ConstElem}, e.Ok → e.source ≠ []
  | .literal _, h => h
  | .signal _, ⟨c, rest, h, _, _⟩ => by
      rw [source, h]
      exact List.cons_ne_nil c rest

theorem ConstElem.Ok.length_renamed (hm : m.NamesOk) : ∀ {e : ConstElem}, e.Ok →
    (textPieces e.source).length = (textPieces (e.renamed m)).length
  | .literal _, _ => rfl
  | .signal name, h => by
      rw [source, renamed, textPieces, textPieces, pieces_of_isWord h,
        pieces_of_isWord (hm.emitName h)]
      rfl

/-- The scan of one element gives what the element should become. -/
def ConstElem.Kept (m : NamedModule) : ConstElem → Prop
  | .literal text => ∀ w, .word w ∈ textPieces text → m.emitName (w.take 255) = w
  | .signal name => m.emitName (name.take 255) = m.emitName name

theorem ConstElem.Ok.kept_iff (hm : m.NamesOk) : ∀ {e : ConstElem}, e.Ok →
    ((textPieces e.source).map m.emitPiece = textPieces (e.renamed m) ↔ e.Kept m)
  | .literal t, _ => by
      change (textPieces t).map m.emitPiece = textPieces t ↔ _
      rw [Kept, ← List.map_id (textPieces t), List.map_map, List.map_inj_left, List.map_id]
      constructor
      · intro h w hw
        have hpiece := h (.word w) hw
        simpa [NamedModule.emitPiece] using hpiece
      · intro h p hp
        cases p with
        | char c => rfl
        | word w => simp [NamedModule.emitPiece, h w hp]
  | .signal name, h => by
      rw [source, renamed, Kept, textPieces, textPieces, pieces_of_isWord h,
        pieces_of_isWord (hm.emitName h)]
      simp [NamedModule.emitPiece]

theorem append_eq_iff {a b c d : List (Piece Char)} (h : a.length = b.length) :
    a ++ c = b ++ d ↔ a = b ∧ c = d := by
  constructor
  · intro heq
    exact List.append_inj heq h
  · rintro ⟨rfl, rfl⟩
    rfl

theorem flatMap_separated_inj {f g : ConstElem → List (Piece Char)} {tail : List (Piece Char)} :
    ∀ {es : List ConstElem}, (∀ e ∈ es, (f e).length = (g e).length) →
    (((es.map f).flatMap fun qs => [.char ',', .char ' '] ++ qs) ++ tail =
        ((es.map g).flatMap fun qs => [.char ',', .char ' '] ++ qs) ++ tail ↔
      ∀ e ∈ es, f e = g e)
  | [], _ => by simp
  | e :: es, hlen => by
      have ih := @flatMap_separated_inj f g tail es fun u hu =>
        hlen u (List.mem_cons_of_mem e hu)
      simp only [List.map_cons, List.flatMap_cons, List.append_assoc, List.cons_append,
        List.nil_append, List.cons.injEq, true_and, List.forall_mem_cons] at ih ⊢
      rw [append_eq_iff (hlen e List.mem_cons_self), ih]

theorem joinPieces_inj {f g : ConstElem → List (Piece Char)} {es : List ConstElem}
    (hlen : ∀ e ∈ es, (f e).length = (g e).length) :
    joinPieces (es.map f) = joinPieces (es.map g) ↔ ∀ e ∈ es, f e = g e := by
  cases es with
  | nil => simp
  | cons e es =>
    simp only [List.map_cons, joinPieces, List.append_assoc, List.cons.injEq, true_and,
      List.forall_mem_cons]
    rw [append_eq_iff (hlen e List.mem_cons_self), flatMap_separated_inj fun u hu =>
      hlen u (List.mem_cons_of_mem e hu)]

theorem length_separated {f g : ConstElem → List (Piece Char)} : ∀ {es : List ConstElem},
    (∀ e ∈ es, (f e).length = (g e).length) →
    ((es.map f).flatMap fun qs => [.char ',', .char ' '] ++ qs).length =
      ((es.map g).flatMap fun qs => [.char ',', .char ' '] ++ qs).length
  | [], _ => rfl
  | e :: es, hlen => by
      have hrest := @length_separated f g es fun u hu =>
        hlen u (List.mem_cons_of_mem e hu)
      simp only [List.map_cons, List.flatMap_cons, List.length_append]
      rw [hlen e List.mem_cons_self, hrest]

theorem length_joinPieces {f g : ConstElem → List (Piece Char)} {es : List ConstElem}
    (hlen : ∀ e ∈ es, (f e).length = (g e).length) :
    (joinPieces (es.map f)).length = (joinPieces (es.map g)).length := by
  cases es with
  | nil => rfl
  | cons e es =>
    simp only [List.map_cons, joinPieces, List.length_cons, List.length_append]
    rw [hlen e List.mem_cons_self, length_separated fun u hu =>
      hlen u (List.mem_cons_of_mem e hu)]

theorem map_joinPieces (pss : List (List (Piece Char))) :
    (joinPieces pss).map m.emitPiece = joinPieces (pss.map (List.map m.emitPiece)) := by
  cases pss with
  | nil => rfl
  | cons ps rest =>
    simp only [joinPieces, List.map_cons, List.map_append, List.map_flatMap, List.map_nil,
      List.flatMap_map, NamedModule.emitPiece]

end

/-- What both passes need of a connection: room in both buffers, and no literal tail or cut name
that is a signal of another name. -/
structure ConstRhs.Fits (m : NamedModule) (rhs : ConstRhs) : Prop where

  builder : ∀ elems, rhs = .concat elems → (joined (elems.map ConstElem.source)).length ≤ 510

  kept : ∀ e ∈ rhs.elems, e.Kept m

  room : (rhs.renamed m).length ≤ 1023

/-- The emitted text has exactly the signal names replaced when both buffers hold it and no word
of a literal and no cut name stands for another signal. -/
theorem canonicalizeConstExpr_exact {m : NamedModule} (hm : m.NamesOk) {rhs : ConstRhs}
    (hrhs : ∀ e ∈ rhs.elems, e.Ok) :
    m.canonicalizeConstExpr rhs.constExpr = rhs.renamed m ↔ rhs.Fits m := by
  cases rhs with
  | literal t =>
    have hok : (ConstElem.literal t).Ok := hrhs _ (List.mem_singleton.mpr rfl)
    rw [ConstRhs.constExpr, ConstRhs.renamed, hm.canonicalize_iff rfl]
    constructor
    · rintro ⟨hkept, hroom⟩
      refine ⟨fun _ h => (by cases h), fun e he => ?_, hroom⟩
      rw [List.mem_singleton.mp he]
      exact (hok.kept_iff hm).mp hkept
    · intro h
      exact ⟨(hok.kept_iff hm).mpr (h.kept _ (List.mem_singleton.mpr rfl)), h.room⟩
  | concat elems =>
    have hlen : ∀ e ∈ elems, (textPieces e.source).length =
        (textPieces (e.renamed m)).length := fun e he => (hrhs e he).length_renamed hm
    have hlen' : ∀ e ∈ elems, ((textPieces e.source).map m.emitPiece).length =
        (textPieces (e.renamed m)).length := fun e he => by rw [List.length_map, hlen e he]
    have hpieces : (textPieces (joined (elems.map ConstElem.source))).length =
        (textPieces (joined (elems.map (ConstElem.renamed m)))).length := by
      rw [textPieces_joined, textPieces_joined, List.map_map, List.map_map]
      exact length_joinPieces hlen
    rw [ConstRhs.constExpr, ConstRhs.renamed]
    by_cases hfit : (joined (elems.map ConstElem.source)).length ≤ 510
    · rw [concatLoop_joined hfit, hm.canonicalize_iff hpieces, textPieces_joined,
        textPieces_joined, map_joinPieces, List.map_map, List.map_map, List.map_map]
      have hall := @joinPieces_inj (fun e => (textPieces e.source).map m.emitPiece)
        (fun e => textPieces (e.renamed m)) elems hlen'
      constructor
      · rintro ⟨hkept, hroom⟩
        refine ⟨fun es h => by cases h; exact hfit, fun e he => ?_, hroom⟩
        exact ((hrhs e he).kept_iff hm).mp (hall.mp hkept e he)
      · intro h
        exact ⟨hall.mpr fun e he => ((hrhs e he).kept_iff hm).mpr (h.kept e he), h.room⟩
    · refine iff_of_false (hm.canonicalize_ne ?_) fun h => hfit (h.builder elems rfl)
      rw [← hpieces]
      refine concatLoop_joined_cut (fun t ht => ?_) (by omega)
      obtain ⟨e, he, rfl⟩ := List.mem_map.mp ht
      exact (hrhs e he).source_ne_nil

namespace ConstTextExample

/-- A port `y` that is an alias of the net `b10`. -/
def module : NamedModule where

  module :=
    { signals := [⟨0, .port .portOut, 1⟩, ⟨1, .net, 1⟩]
      memories := []
      clockDomains := []
      asyncBlock := .assignment
        { lhsSignalId := 0
          rhs := .signalRef 1 1
          kind := .alias
          isSliced := false
          lhsMsb := 0
          lhsLsb := 0 } }

  name := fun i => some (if i.val = 0 then ['y'] else ['b', '1', '0'])

theorem isIdentifier_b10 : IsIdentifier ['b', '1', '0'] := by
  refine ⟨'b', ['1', '0'], rfl, by decide, ?_⟩
  rintro c (_ | ⟨_, _ | ⟨_, hc⟩⟩)
  · decide
  · decide
  · cases hc

theorem namesOk : module.NamesOk := by
  intro i name h
  cases h
  split
  · exact ⟨'y', [], rfl, by decide, by simp⟩
  · exact isIdentifier_b10

def pair : ConstRhs := .concat [.signal ['b', '1', '0'], .literal ['2', '\'', 'b', '0', '1']]

theorem pair_ok : ∀ e ∈ pair.elems, e.Ok := by
  intro e he
  rcases List.mem_cons.mp he with rfl | he
  · exact isIdentifier_b10
  · rw [List.mem_singleton.mp he]
    exact List.cons_ne_nil _ _

end ConstTextExample

open ConstTextExample in
theorem canonicalizeConstExpr_exact_pair : module.NamesOk ∧ (∀ e ∈ pair.elems, e.Ok) ∧
    (module.canonicalizeConstExpr pair.constExpr = pair.renamed module ↔ pair.Fits module) :=
  ⟨namesOk, pair_ok, canonicalizeConstExpr_exact namesOk pair_ok⟩

open ConstTextExample in
/-- The literal `2'b10` becomes `2'y`. -/
theorem canonicalizeConstExpr_renames_literal :
    module.canonicalizeConstExpr (ConstRhs.literal ['2', '\'', 'b', '1', '0']).constExpr =
        ['2', '\'', 'y'] ∧
      (ConstRhs.literal ['2', '\'', 'b', '1', '0']).renamed module =
        ['2', '\'', 'b', '1', '0'] := by
  decide +kernel

end JzHdl

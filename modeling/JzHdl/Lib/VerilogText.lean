import Mathlib.Data.Nat.Notation
import Mathlib.Order.Lattice
import Mathlib.Order.Nat

/-! # Self-determined widths of Verilog expressions

A reader of expression texts that finds the bit length an expression has by
itself. A grammar in levels describes the same texts. Every text of it is
read with the width it gives, and a text has at most one width.
-/

namespace JzHdl.VerilogText

inductive OpSym
  | plus | minus | star | slash | percent
  | shl | shr | ashr
  | lt | gt | le | ge | eq | neq
  | amp | caret | bar | ampAmp | barBar
  | tilde | bang | tildeAmp | tildeBar | tildeCaret
  deriving DecidableEq, Repr

/-- The words of an expression. A sized constant keeps what follows its tick. -/
inductive Tok where

  | decimal (n : ℕ)

  | sized (width : ℕ) (digits : String)

  | ident (name : String)

  | sym (s : OpSym)

  | signed | lparen | rparen | lbrace | rbrace | lbrack | rbrack | comma | question | colon
  deriving DecidableEq

namespace OpSym

/-- How tightly a binary operator binds, 0 for the symbols that are none. -/
def level : OpSym → ℕ
  | star | slash | percent => 12
  | plus | minus => 11
  | shl | shr | ashr => 10
  | lt | gt | le | ge => 9
  | eq | neq => 8
  | amp => 7
  | caret => 6
  | bar => 5
  | ampAmp => 4
  | barBar => 3
  | tilde | bang | tildeAmp | tildeBar | tildeCaret => 0

def isUnary : OpSym → Bool
  | plus | minus | tilde | bang | amp | bar | caret | tildeAmp | tildeBar | tildeCaret => true
  | _ => false

/-- The width of a unary operation: reductions and negations of truth have one bit. -/
def unaryWidth (s : OpSym) (w : ℕ) : ℕ :=
  match s with
  | plus | minus | tilde => w
  | _ => 1

/-- The width of a binary operation over the widths of its operands. -/
def binaryWidth (s : OpSym) (l r : ℕ) : ℕ :=
  match s with
  | shl | shr | ashr => l
  | lt | gt | le | ge | eq | neq | ampAmp | barBar => 1
  | _ => max l r

theorem level_le (s : OpSym) : s.level ≤ 12 := by cases s <;> decide

/-- Operators of one level may be grouped to either side without a change of width. -/
theorem binaryWidth_assoc {s s' : OpSym} (h : s.level = s'.level) (a b c : ℕ) :
    s'.binaryWidth (s.binaryWidth a b) c = s.binaryWidth a (s'.binaryWidth b c) := by
  cases s <;> cases s' <;> simp [level] at h <;> simp [binaryWidth, max_assoc]

end OpSym

/-- What a bit select may be applied to. -/
inductive Base where

  | value

  | const (n : ℕ)

  | vector

  | memory
  deriving DecidableEq

/-- The width of what was read, and whether its selects are those of the language. -/
structure Sized where

  width : ℕ

  base : Base

  legal : Bool

namespace Sized

def value (width : ℕ) (legal : Bool) : Sized := ⟨width, .value, legal⟩

def closed (a : Sized) : Sized := value a.width a.legal

def select (a i : Sized) : Sized :=
  match a.base with
  | .memory => ⟨a.width, .vector, i.legal⟩
  | .vector => value 1 (a.legal && i.legal)
  | _ => value 1 false

def range (a i j : Sized) : Sized :=
  match a.base, i.base, j.base with
  | .vector, .const msb, .const lsb => value (msb + 1 - lsb) a.legal
  | _, _, _ => value 1 false

def unary (s : OpSym) (a : Sized) : Sized := value (s.unaryWidth a.width) a.legal

def binary (s : OpSym) (a b : Sized) : Sized :=
  value (s.binaryWidth a.width b.width) (a.legal && b.legal)

def ternary (c t f : Sized) : Sized :=
  value (max t.width f.width) (c.legal && t.legal && f.legal)

def join (a b : Sized) : Sized := value (a.width + b.width) (a.legal && b.legal)

def times (count a : Sized) : Sized :=
  match count.base with
  | .const n => value (n * a.width) a.legal
  | _ => value 0 false

end Sized

/-! ## The reader -/

section

variable (names : String → Sized)

mutual

def readExpr : ℕ → List Tok → Option (Sized × List Tok)
  | 0, _ => none
  | n + 1, ts =>
    match readBinary n 2 ts with
    | some (c, .question :: ts₁) =>
      match readExpr n ts₁ with
      | some (t, .colon :: ts₂) =>
        match readExpr n ts₂ with
        | some (f, ts₃) => some (.ternary c t f, ts₃)
        | none => none
      | _ => none
    | r => r

def readBinary : ℕ → ℕ → List Tok → Option (Sized × List Tok)
  | 0, _, _ => none
  | n + 1, m, ts =>
    match readUnary n ts with
    | some (l, ts₁) => readLoop n m l ts₁
    | none => none

def readLoop : ℕ → ℕ → Sized → List Tok → Option (Sized × List Tok)
  | 0, _, _, _ => none
  | n + 1, m, l, .sym s :: ts =>
    if m ≤ s.level then
      match readBinary n (s.level + 1) ts with
      | some (r, ts₁) => readLoop n m (.binary s l r) ts₁
      | none => none
    else some (l, .sym s :: ts)
  | _ + 1, _, l, ts => some (l, ts)

def readUnary : ℕ → List Tok → Option (Sized × List Tok)
  | 0, _ => none
  | n + 1, .sym s :: ts =>
    if s.isUnary then
      match readUnary n ts with
      | some (a, ts₁) => some (.unary s a, ts₁)
      | none => none
    else none
  | n + 1, .decimal k :: ts => readSelects n ⟨32, .const k, true⟩ ts
  | n + 1, .sized w _ :: ts => readSelects n (.value w true) ts
  | n + 1, .ident x :: ts => readSelects n (names x) ts
  | n + 1, .lparen :: ts =>
    match readExpr n ts with
    | some (a, .rparen :: ts₁) => readSelects n a.closed ts₁
    | _ => none
  | n + 1, .signed :: .lparen :: ts =>
    match readExpr n ts with
    | some (a, .rparen :: ts₁) => readSelects n a.closed ts₁
    | _ => none
  | n + 1, .lbrace :: ts =>
    match readExpr n ts with
    | some (a, .lbrace :: ts₁) =>
      match readItems n ts₁ with
      | some (b, .rbrace :: ts₂) => readSelects n (.times a b) ts₂
      | _ => none
    | some (a, ts₁) =>
      match readTail n a.closed ts₁ with
      | some (b, ts₂) => readSelects n b ts₂
      | none => none
    | none =>
      match ts with
      | .rbrace :: ts₁ => readSelects n (.value 0 false) ts₁
      | _ => none
  | _ + 1, _ => none

/-- The selects after a primary. -/
def readSelects : ℕ → Sized → List Tok → Option (Sized × List Tok)
  | 0, _, _ => none
  | n + 1, a, .lbrack :: ts =>
    match readExpr n ts with
    | some (i, .rbrack :: ts₁) => readSelects n (a.select i) ts₁
    | some (i, .colon :: ts₁) =>
      match readExpr n ts₁ with
      | some (j, .rbrack :: ts₂) => readSelects n (a.range i j) ts₂
      | _ => none
    | _ => none
  | _ + 1, a, ts => some (a, ts)

/-- The items of a concatenation up to its closing brace. -/
def readItems : ℕ → List Tok → Option (Sized × List Tok)
  | 0, _ => none
  | n + 1, ts =>
    match readExpr n ts with
    | some (a, ts₁) => readTail n a.closed ts₁
    | none => none

def readTail : ℕ → Sized → List Tok → Option (Sized × List Tok)
  | 0, _, _ => none
  | n + 1, a, .comma :: ts =>
    match readExpr n ts with
    | some (b, ts₁) => readTail n (a.join b) ts₁
    | none => none
  | _ + 1, a, .rbrace :: ts => some (a, ts)
  | _ + 1, _, _ => none

end

/-- From some amount of fuel on, `f` returns `r`. -/
def Eventually {β : Type} (f : ℕ → Option β) (r : β) : Prop := ∃ k, ∀ n, k ≤ n → f n = some r

/-- The text is an expression of that width to the last word. -/
def HasWidth (ts : List Tok) (w : ℕ) : Prop :=
  ∃ a : Sized, Eventually (fun n => readExpr names n ts) (a, []) ∧ a.legal = true ∧ a.width = w

end

variable {names : String → Sized}

namespace Eventually

variable {β γ : Type} {f : ℕ → Option β} {r r' : β}

theorem unique (h : Eventually f r) (h' : Eventually f r') : r = r' := by
  obtain ⟨k, hk⟩ := h
  obtain ⟨k', hk'⟩ := h'
  have heq := (hk (max k k') (le_max_left k k')).symm.trans (hk' (max k k') (le_max_right k k'))
  injection heq

/-- A call that only hands on to `g`. -/
theorem tail {g : ℕ → Option β} (hg : Eventually g r) (hf : ∀ n, f (n + 1) = g n) :
    Eventually f r := by
  obtain ⟨k, hk⟩ := hg
  refine ⟨k + 1, fun n hn => ?_⟩
  obtain ⟨m, rfl⟩ : ∃ m, n = m + 1 := ⟨n - 1, by omega⟩
  rw [hf, hk m (by omega)]

/-- A call that goes on as `g` with what the call of `h` returns. -/
theorem bind {x : γ} {h : ℕ → Option γ} {g : ℕ → Option β} (hh : Eventually h x)
    (hg : Eventually g r) (hf : ∀ n, h n = some x → f (n + 1) = g n) : Eventually f r := by
  obtain ⟨k, hk⟩ := hh
  obtain ⟨k', hk'⟩ := hg
  refine ⟨max k k' + 1, fun n hn => ?_⟩
  obtain ⟨m, rfl⟩ : ∃ m, n = m + 1 := ⟨n - 1, by omega⟩
  rw [hf m (hk m (by omega)), hk' m (by omega)]

/-- What a call does once the call of `h` has returned. -/
theorem after {x : γ} {h : ℕ → Option γ} {g : ℕ → Option β} (hh : Eventually h x)
    (hg : Eventually g r) (hf : ∀ n, h n = some x → f n = g n) : Eventually f r := by
  obtain ⟨k, hk⟩ := hh
  obtain ⟨k', hk'⟩ := hg
  refine ⟨max k k', fun n hn => ?_⟩
  rw [hf n (hk n (by omega)), hk' n (by omega)]

theorem const (r : β) : Eventually (fun _ => some r) r := ⟨0, fun _ _ => rfl⟩

end Eventually

theorem HasWidth.unique {ts : List Tok} {w w' : ℕ} (h : HasWidth names ts w)
    (h' : HasWidth names ts w') : w = w' := by
  obtain ⟨a, ha, -, rfl⟩ := h
  obtain ⟨a', ha', -, rfl⟩ := h'
  have heq := ha.unique ha'
  rw [(Prod.mk.inj heq).1]

/-! ## The grammar -/

/--
The texts at each level: lists at 0, expressions at 1, the binary operators at
their own, operands of operators at 13 and primaries at 14.
-/
inductive Phrase (names : String → Sized) : ℕ → List Tok → Sized → Prop where

  | decimal (n : ℕ) : Phrase names 14 [.decimal n] ⟨32, .const n, true⟩

  | sized (w : ℕ) (digits : String) : Phrase names 14 [.sized w digits] (.value w true)

  | ident (x : String) : Phrase names 14 [.ident x] (names x)

  | paren {ts : List Tok} {a : Sized} (h : Phrase names 1 ts a) :
      Phrase names 14 (.lparen :: (ts ++ [.rparen])) a.closed

  | signed {ts : List Tok} {a : Sized} (h : Phrase names 1 ts a) :
      Phrase names 14 (.signed :: .lparen :: (ts ++ [.rparen])) a.closed

  | empty : Phrase names 14 [.lbrace, .rbrace] (.value 0 false)

  | concat {ts : List Tok} {a : Sized} (h : Phrase names 0 ts a) :
      Phrase names 14 (.lbrace :: (ts ++ [.rbrace])) a

  | replicate (n : ℕ) {ts : List Tok} {a : Sized} (h : Phrase names 0 ts a) :
      Phrase names 14 (.lbrace :: .decimal n :: .lbrace :: (ts ++ [.rbrace, .rbrace]))
        (.value (n * a.width) a.legal)

  | select {ts is : List Tok} {a i : Sized} (h : Phrase names 14 ts a)
      (hi : Phrase names 1 is i) :
      Phrase names 14 (ts ++ .lbrack :: (is ++ [.rbrack])) (a.select i)

  | range (msb lsb : ℕ) {ts : List Tok} {a : Sized} (h : Phrase names 14 ts a) :
      Phrase names 14 (ts ++ [.lbrack, .decimal msb, .colon, .decimal lsb, .rbrack])
        (a.range ⟨32, .const msb, true⟩ ⟨32, .const lsb, true⟩)

  | unary {s : OpSym} (hs : s.isUnary = true) {ts : List Tok} {a : Sized}
      (h : Phrase names 13 ts a) : Phrase names 13 (.sym s :: ts) (.unary s a)

  | binary (s : OpSym) {l r : List Tok} {a b : Sized} (hs : 2 ≤ s.level)
      (hl : Phrase names s.level l a) (hr : Phrase names (s.level + 1) r b) :
      Phrase names s.level (l ++ .sym s :: r) (.binary s a b)

  | ternary {c t f : List Tok} {a b d : Sized} (hc : Phrase names 2 c a)
      (ht : Phrase names 1 t b) (hf : Phrase names 1 f d) :
      Phrase names 1 (c ++ .question :: (t ++ .colon :: f)) (.ternary a b d)

  | list {ts : List Tok} {a : Sized} (h : Phrase names 1 ts a) : Phrase names 0 ts a.closed

  | cons {ts ts' : List Tok} {a b : Sized} (h : Phrase names 0 ts a)
      (h' : Phrase names 1 ts' b) : Phrase names 0 (ts ++ .comma :: ts') (a.join b)

  | up {k : ℕ} {ts : List Tok} {a : Sized} (hk : 1 ≤ k) (h : Phrase names (k + 1) ts a) :
      Phrase names k ts a

/-! ## Every derived text is read -/

/-- No operator of level `m` or above stands first, and no select. -/
def Below (m : ℕ) : List Tok → Prop
  | .sym s :: _ => s.level < m
  | .lbrack :: _ => False
  | _ => True

/-- Nothing that continues an expression stands first. -/
def Closed : List Tok → Prop
  | .sym s :: _ => s.level < 2
  | .lbrack :: _ | .question :: _ => False
  | _ => True

theorem Below.mono {m n : ℕ} (hmn : m ≤ n) : ∀ {ts : List Tok}, Below m ts → Below n ts
  | .sym _ :: _, h => Nat.lt_of_lt_of_le h hmn
  | .lbrack :: _, h => h.elim
  | [], _ | .decimal _ :: _, _ | .sized .. :: _, _ | .ident _ :: _, _ | .signed :: _, _
  | .lparen :: _, _ | .rparen :: _, _ | .lbrace :: _, _ | .rbrace :: _, _ | .rbrack :: _, _
  | .comma :: _, _ | .question :: _, _ | .colon :: _, _ => trivial

theorem Below.unary {m : ℕ} : ∀ {ts : List Tok}, Below m ts → Below 13 ts
  | .sym s :: _, _ => Nat.lt_succ_of_le s.level_le
  | .lbrack :: _, h => h.elim
  | [], _ | .decimal _ :: _, _ | .sized .. :: _, _ | .ident _ :: _, _ | .signed :: _, _
  | .lparen :: _, _ | .rparen :: _, _ | .lbrace :: _, _ | .rbrace :: _, _ | .rbrack :: _, _
  | .comma :: _, _ | .question :: _, _ | .colon :: _, _ => trivial

theorem Closed.below : ∀ {ts : List Tok}, Closed ts → Below 2 ts
  | .sym _ :: _, h => h
  | .lbrack :: _, h | .question :: _, h => h.elim
  | [], _ | .decimal _ :: _, _ | .sized .. :: _, _ | .ident _ :: _, _ | .signed :: _, _
  | .lparen :: _, _ | .rparen :: _, _ | .lbrace :: _, _ | .rbrace :: _, _ | .rbrack :: _, _
  | .comma :: _, _ | .colon :: _, _ => trivial

theorem readSelects_stop {m : ℕ} (a : Sized) {ts : List Tok} (h : Below m ts) :
    Eventually (fun n => readSelects names n a ts) (a, ts) :=
  (Eventually.const _).tail fun n => by
    cases ts with
    | nil => simp only [readSelects]
    | cons t ts => cases t <;> first | exact h.elim | simp only [readSelects]

theorem readLoop_stop {m : ℕ} (a : Sized) {ts : List Tok} (h : Below m ts) :
    Eventually (fun n => readLoop names n m a ts) (a, ts) :=
  (Eventually.const _).tail fun n => by
    cases ts with
    | nil => simp only [readLoop]
    | cons t ts =>
      cases t with
      | sym s => simp only [readLoop, if_neg (Nat.not_le.mpr h)]
      | _ => simp only [readLoop]

/-- How a derived text reads at each of the places where it can stand. -/
structure Reads (names : String → Sized) (k : ℕ) (ts : List Tok) (a : Sized) : Prop where

  primary : 14 ≤ k → ∀ (rest : List Tok) (r : Sized × List Tok),
    Eventually (fun n => readSelects names n a rest) r →
    Eventually (fun n => readUnary names n (ts ++ rest)) r

  unary : 13 ≤ k → ∀ rest : List Tok, Below 13 rest →
    Eventually (fun n => readUnary names n (ts ++ rest)) (a, rest)

  binary : 2 ≤ k → ∀ (m : ℕ) (rest : List Tok) (r : Sized × List Tok), m ≤ k →
    Below (k + 1) rest → Eventually (fun n => readLoop names n m a rest) r →
    Eventually (fun n => readBinary names n m (ts ++ rest)) r

  expr : 1 ≤ k → ∀ rest : List Tok, Closed rest →
    Eventually (fun n => readExpr names n (ts ++ rest)) (a, rest)

  items : k = 0 → ∀ (rest : List Tok) (r : Sized × List Tok), Closed rest →
    (∀ ts', rest ≠ .lbrace :: ts') → Eventually (fun n => readTail names n a rest) r →
    ∃ (b : Sized) (rest₁ : List Tok), (∀ ts', rest₁ ≠ .lbrace :: ts') ∧
      Eventually (fun n => readExpr names n (ts ++ rest)) (b, rest₁) ∧
      Eventually (fun n => readTail names n b.closed rest₁) r

namespace Reads

variable {k : ℕ} {ts : List Tok} {a : Sized}

theorem of_expr (hk : k = 1) (h : ∀ rest : List Tok, Closed rest →
    Eventually (fun n => readExpr names n (ts ++ rest)) (a, rest)) : Reads names k ts a :=
  ⟨fun _ => by omega, fun _ => by omega, fun _ => by omega, fun _ => h, fun _ => by omega⟩

theorem of_binary (hk : k ≤ 12) (hk2 : 2 ≤ k) (h : ∀ (m : ℕ) (rest : List Tok)
    (r : Sized × List Tok), m ≤ k → Below (k + 1) rest →
    Eventually (fun n => readLoop names n m a rest) r →
    Eventually (fun n => readBinary names n m (ts ++ rest)) r) : Reads names k ts a := by
  refine ⟨fun _ => by omega, fun _ => by omega, fun _ => h, fun _ rest hrest => ?_,
    fun _ => by omega⟩
  have hb := h 2 rest (a, rest) hk2 (hrest.below.mono (by omega)) (readLoop_stop a hrest.below)
  refine hb.bind (Eventually.const _) fun n hn => ?_
  simp only [readExpr, hn]
  cases rest with
  | nil => rfl
  | cons t rest => cases t <;> first | exact hrest.elim | rfl

theorem of_unary (hk : 13 ≤ k) (hk14 : k ≤ 13) (h : ∀ rest : List Tok, Below 13 rest →
    Eventually (fun n => readUnary names n (ts ++ rest)) (a, rest)) : Reads names k ts a := by
  have hb : ∀ (m : ℕ) (rest : List Tok) (r : Sized × List Tok), Below 13 rest →
      Eventually (fun n => readLoop names n m a rest) r →
      Eventually (fun n => readBinary names n m (ts ++ rest)) r := fun m rest r hrest hr =>
    (h rest hrest).bind hr fun n hn => by simp only [readBinary, hn]
  have he := (of_binary (k := 12) (by omega) (by omega)
    fun m rest r _ hrest hr => hb m rest r hrest hr).expr
  exact ⟨fun _ => by omega, fun _ => h, fun _ m rest r _ hrest hr => hb m rest r hrest.unary hr,
    fun _ => he (by omega), fun _ => by omega⟩

theorem of_primary (hk : k = 14) (h : ∀ (rest : List Tok) (r : Sized × List Tok),
    Eventually (fun n => readSelects names n a rest) r →
    Eventually (fun n => readUnary names n (ts ++ rest)) r) : Reads names k ts a := by
  have hu : Reads names 13 ts a := of_unary (by omega) (by omega) fun rest hrest =>
    h rest _ (readSelects_stop a hrest)
  exact ⟨fun _ => h, fun _ => hu.unary (by omega),
    fun _ m rest r _ hrest hr => (hu.unary (by omega) rest hrest.unary).bind hr fun n hn => by
      simp only [readBinary, hn],
    fun _ => hu.expr (by omega), fun _ => by omega⟩

/-- What reads at one level reads at the level below it. -/
theorem up (hk : 1 ≤ k) (h : Reads names (k + 1) ts a) : Reads names k ts a := by
  refine ⟨fun hle => h.primary (by omega), fun hle => h.unary (by omega),
    fun hle m rest r hm hrest hr => h.binary (by omega) m rest r (by omega)
      (hrest.mono (by omega)) hr, fun _ => h.expr (by omega), fun _ => by omega⟩

end Reads

theorem reads_decimal (names : String → Sized) (n : ℕ) :
    Reads names 14 [.decimal n] ⟨32, .const n, true⟩ :=
  .of_primary rfl fun _ _ hr => hr.tail fun _ => rfl

/-- Every text of the grammar is read as the grammar sizes it. -/
theorem Phrase.reads {k : ℕ} {ts : List Tok} {a : Sized} (h : Phrase names k ts a) :
    Reads names k ts a := by
  induction h with
  | decimal n | sized w digits | ident x =>
    exact .of_primary rfl fun rest r hr => hr.tail fun n => rfl
  | paren _ ih =>
    refine .of_primary rfl fun rest r hr => ?_
    refine (ih.expr (by omega) (.rparen :: rest) trivial).bind hr fun n hn => ?_
    simp only [List.cons_append, List.append_assoc, List.nil_append, readUnary, hn]
  | signed _ ih =>
    refine .of_primary rfl fun rest r hr => ?_
    refine (ih.expr (by omega) (.rparen :: rest) trivial).bind hr fun n hn => ?_
    simp only [List.cons_append, List.append_assoc, List.nil_append, readUnary, hn]
  | empty =>
    refine .of_primary rfl fun rest r hr => hr.tail fun n => ?_
    have hnone : readExpr names n (.rbrace :: rest) = none := by
      cases n with
      | zero => rfl
      | succ n =>
        cases n with
        | zero => rfl
        | succ n => cases n <;> simp only [readExpr, readBinary, readUnary]
    simp only [List.cons_append, List.nil_append, readUnary, hnone]
  | @concat ts a _ ih =>
    refine .of_primary rfl fun rest r hr => ?_
    obtain ⟨b, rest₁, hne, hb, ht⟩ := ih.items rfl (.rbrace :: rest) (a, rest) trivial
      (fun _ h => nomatch h) ((Eventually.const _).tail fun n => by simp only [readTail])
    have hnext : Eventually (fun n =>
        match readTail names n b.closed rest₁ with
        | some (b', ts₂) => readSelects names n b' ts₂
        | none => none) r := ht.after hr fun n hn => by simp only [hn]
    refine hb.bind hnext fun n hn => ?_
    simp only [List.cons_append, List.append_assoc, List.nil_append, readUnary, hn]
  | @replicate k ts a _ ih =>
    refine .of_primary rfl fun rest r hr => ?_
    obtain ⟨b, rest₁, hne, hb, ht⟩ := ih.items rfl (.rbrace :: .rbrace :: rest)
      (a, .rbrace :: rest) trivial (fun _ h => nomatch h)
      ((Eventually.const _).tail fun n => by simp only [readTail])
    have hcount := (reads_decimal names k).expr (by omega)
      (.lbrace :: (ts ++ .rbrace :: .rbrace :: rest)) trivial
    have hitems : Eventually (fun n => readItems names n (ts ++ .rbrace :: .rbrace :: rest))
        (a, .rbrace :: rest) := hb.bind ht fun n hn => by simp only [readItems, hn]
    have hnext : Eventually (fun n =>
        match readItems names n (ts ++ .rbrace :: .rbrace :: rest) with
        | some (b, .rbrace :: ts₂) => readSelects names n (.times ⟨32, .const k, true⟩ b) ts₂
        | _ => none) r := hitems.after hr fun n hn => by simp only [hn, Sized.times]
    refine hcount.bind hnext fun n hn => ?_
    simp only [List.cons_append, List.append_assoc, List.nil_append] at hn ⊢
    simp only [readUnary, hn]
  | select _ _ ih ihi =>
    refine .of_primary rfl fun rest r hr => ?_
    simp only [List.append_assoc, List.cons_append, List.nil_append]
    refine ih.primary (by omega) _ r ?_
    refine (ihi.expr (by omega) (.rbrack :: rest) trivial).bind hr fun n hn => ?_
    simp only [readSelects, hn]
  | @range msb lsb ts a _ ih =>
    refine .of_primary rfl fun rest r hr => ?_
    simp only [List.append_assoc, List.cons_append, List.nil_append]
    refine ih.primary (by omega) _ r ?_
    have hmsb := (reads_decimal names msb).expr (by omega)
      (.colon :: .decimal lsb :: .rbrack :: rest) trivial
    have hlsb := (reads_decimal names lsb).expr (by omega) (.rbrack :: rest) trivial
    have hnext : Eventually (fun n =>
        match readExpr names n ([.decimal lsb] ++ .rbrack :: rest) with
        | some (j, .rbrack :: ts₂) =>
          readSelects names n (a.range ⟨32, .const msb, true⟩ j) ts₂
        | _ => none) r := hlsb.after hr fun n hn => by simp only [hn]
    refine hmsb.bind hnext fun n hn => ?_
    simp only [List.cons_append, List.nil_append] at hn ⊢
    simp only [readSelects, hn]
  | unary hs _ ih =>
    refine .of_unary (by omega) (by omega) fun rest hrest => ?_
    refine (ih.unary (by omega) rest hrest).bind (Eventually.const _) fun n hn => ?_
    simp only [List.cons_append, readUnary, if_pos hs, hn]
  | @binary s l r a b hs _ _ ihl ihr =>
    have hle := s.level_le
    refine .of_binary hle hs fun m rest x hm hrest hx => ?_
    rw [List.append_assoc]
    refine ihl.binary hs m (.sym s :: (r ++ rest)) x hm (Nat.lt_succ_self _) ?_
    have hr : Eventually (fun n => readBinary names n (s.level + 1) (r ++ rest)) (b, rest) :=
      ihr.binary (by omega) (s.level + 1) rest _ (le_refl _) (hrest.mono (by omega))
        (readLoop_stop b hrest)
    refine hr.bind hx fun n hn => ?_
    simp only [readLoop, if_pos hm, hn]
  | @ternary c t f a b d _ _ _ ihc iht ihf =>
    refine .of_expr rfl fun rest hrest => ?_
    simp only [List.append_assoc, List.cons_append]
    have hc : Eventually (fun n => readBinary names n 2
        (c ++ .question :: (t ++ .colon :: (f ++ rest))))
        (a, .question :: (t ++ .colon :: (f ++ rest))) :=
      ihc.binary (by omega) 2 _ _ (le_refl _) trivial (readLoop_stop (m := 2) a trivial)
    have ht := iht.expr (by omega) (.colon :: (f ++ rest)) trivial
    have hf := ihf.expr (by omega) rest hrest
    have harm : Eventually (fun n =>
        match readExpr names n (f ++ rest) with
        | some (f, ts₃) => some (.ternary a b f, ts₃)
        | none => none) (Sized.ternary a b d, rest) :=
      hf.after (Eventually.const _) fun n hn => by simp only [hn]
    have hnext : Eventually (fun n =>
        match readExpr names n (t ++ .colon :: (f ++ rest)) with
        | some (t, .colon :: ts₂) =>
          match readExpr names n ts₂ with
          | some (f, ts₃) => some (.ternary a t f, ts₃)
          | none => none
        | _ => none) (Sized.ternary a b d, rest) :=
      ht.after harm fun n hn => by simp only [hn]
    exact hc.bind hnext fun n hn => by simp only [readExpr, hn]
  | list _ ih =>
    refine ⟨fun _ => by omega, fun _ => by omega, fun _ => by omega, fun _ => by omega,
      fun _ rest r hrest hne hr => ?_⟩
    exact ⟨_, rest, hne, ih.expr (by omega) rest hrest, hr⟩
  | @cons ts ts' a b _ _ ih ih' =>
    refine ⟨fun _ => by omega, fun _ => by omega, fun _ => by omega, fun _ => by omega,
      fun _ rest r hrest hne hr => ?_⟩
    rw [List.append_assoc, List.cons_append]
    refine ih.items rfl (.comma :: (ts' ++ rest)) r trivial (fun _ h => nomatch h) ?_
    exact (ih'.expr (by omega) rest hrest).bind hr fun n hn => by simp only [readTail, hn]
  | up hk _ ih => exact ih.up hk

/-- A derived expression has the width it is derived with. -/
theorem Phrase.hasWidth {ts : List Tok} {a : Sized} (h : Phrase names 1 ts a)
    (hlegal : a.legal = true) : HasWidth names ts a.width := by
  have hread := h.reads.expr (by omega) [] trivial
  rw [List.append_nil] at hread
  exact ⟨a, hread, hlegal, rfl⟩

/-- A derived expression has no other width, and none at all where a select is illegal. -/
theorem Phrase.hasWidth_iff {ts : List Tok} {a : Sized} {w : ℕ} (h : Phrase names 1 ts a) :
    HasWidth names ts w ↔ a.legal = true ∧ a.width = w := by
  constructor
  · rintro ⟨b, hb, hlegal, rfl⟩
    have hread := h.reads.expr (by omega) [] trivial
    rw [List.append_nil] at hread
    rw [(Prod.mk.inj (hread.unique hb)).1]
    exact ⟨hlegal, rfl⟩
  · rintro ⟨hlegal, rfl⟩
    exact h.hasWidth hlegal

end JzHdl.VerilogText

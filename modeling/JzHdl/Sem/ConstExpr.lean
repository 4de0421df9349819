import JzHdl.Lib.LeftChain
import Mathlib.Data.Nat.Basic

/-! # Constant expressions

The tokens of a constant expression, its grammar, and the recursive descent that
evaluates while it reads. What values are and how identifiers are resolved is a
parameter: the two evaluators of the source differ in nothing else.
-/

namespace JzHdl

open LeftChain

inductive ConstToken
  | int (digits : List ℕ)
  | ident (name : List Char)
  | plus | minus | star | slash | percent
  | lparen | rparen
  | eqeq | neq | lt | le | gt | ge
  | shl | shr | ashr
  | andAnd | orOr
  deriving DecidableEq, Repr

inductive ConstOp
  | mul | div | mod
  | add | sub
  | shl | shr | ashr
  | lt | le | gt | ge
  | eq | ne
  | and | or
  deriving DecidableEq, Repr

inductive ConstExpr where

  | int (digits : List ℕ)

  | ident (name : List Char)

  | clog2 (e : ConstExpr)

  | paren (e : ConstExpr)

  | pos (e : ConstExpr)

  | neg (e : ConstExpr)

  | binary (op : ConstOp) (l r : ConstExpr)

def clog2Name : List Char := ['c', 'l', 'o', 'g', '2']

/-! ## The grammar -/

/-- The binary operators of a level, from the multiplicative ones up to `||`. -/
def opsAt : ℕ → ConstToken → Option ConstOp
  | 1, .star => some .mul
  | 1, .slash => some .div
  | 1, .percent => some .mod
  | 2, .plus => some .add
  | 2, .minus => some .sub
  | 3, .shl => some .shl
  | 3, .shr => some .shr
  | 3, .ashr => some .ashr
  | 4, .lt => some .lt
  | 4, .le => some .le
  | 4, .gt => some .gt
  | 4, .ge => some .ge
  | 5, .eqeq => some .eq
  | 5, .neq => some .ne
  | 6, .andAnd => some .and
  | 7, .orOr => some .or
  | _, _ => none

/-- The documented grammar: level 0 is `unary`, level 7 is `expr`. -/
inductive Derives : ℕ → ConstExpr → List ConstToken → Prop

  | int (digits : List ℕ) : Derives 0 (.int digits) [.int digits]

  | ident {name : List Char} : name ≠ clog2Name → Derives 0 (.ident name) [.ident name]

  | clog2 {e : ConstExpr} {ts : List ConstToken} : Derives 7 e ts →
      Derives 0 (.clog2 e) (.ident clog2Name :: .lparen :: (ts ++ [.rparen]))

  | paren {e : ConstExpr} {ts : List ConstToken} : Derives 7 e ts →
      Derives 0 (.paren e) (.lparen :: (ts ++ [.rparen]))

  | pos {e : ConstExpr} {ts : List ConstToken} : Derives 0 e ts → Derives 0 (.pos e) (.plus :: ts)

  | neg {e : ConstExpr} {ts : List ConstToken} : Derives 0 e ts → Derives 0 (.neg e) (.minus :: ts)

  | operand {k : ℕ} {e : ConstExpr} {ts : List ConstToken} : Derives k e ts → Derives (k + 1) e ts

  | binary {k : ℕ} {l r : ConstExpr} {ts us : List ConstToken} {t : ConstToken} {op : ConstOp} :
      Derives (k + 1) l ts → opsAt (k + 1) t = some op → Derives k r us →
      Derives (k + 1) (.binary op l r) (ts ++ t :: us)

/-! ## The parser -/

/-- What an evaluator does with the parts of an expression. -/
structure ConstSemantics (σ ε V : Type) where

  int : List ℕ → V

  ident : List Char → Run σ ε V

  clog2 : V → Run σ ε V

  neg : V → V

  binary : ConstOp → V → V → Run σ ε V

  /-- A syntax error or a nesting beyond the limit. -/
  error : ε

section

variable {σ ε V : Type} (S : ConstSemantics σ ε V)

def ConstSemantics.fail {W : Type} : Run σ ε W := throw S.error

def ConstSemantics.level (ops : ConstToken → Option ConstOp) :
    Level ConstToken ConstOp ConstExpr V σ ε := ⟨ops, .binary, S.binary⟩

def parseBracketed (expr : Parser ConstToken σ ε V) : Parser ConstToken σ ε V := fun ts => do
  let (v, rest) ← expr ts
  match rest with
  | .rparen :: rest => pure (v, rest)
  | _ => S.fail

def parsePrimary (expr : Parser ConstToken σ ε V) : Parser ConstToken σ ε V
  | .int digits :: ts => pure (S.int digits, ts)
  | .ident name :: ts =>
    if name = clog2Name then
      match ts with
      | .lparen :: ts => do
        let (arg, rest) ← parseBracketed S expr ts
        let v ← S.clog2 arg
        pure (v, rest)
      | _ => S.fail
    else do
      let v ← S.ident name
      pure (v, ts)
  | .lparen :: ts => parseBracketed S expr ts
  | _ => S.fail

variable (unary : Parser ConstToken σ ε V)

def parseMultiplicative : Parser ConstToken σ ε V := chain (S.level (opsAt 1)) unary

def parseAdditive : Parser ConstToken σ ε V := chain (S.level (opsAt 2)) (parseMultiplicative S unary)

def parseShift : Parser ConstToken σ ε V := chain (S.level (opsAt 3)) (parseAdditive S unary)

def parseRelational : Parser ConstToken σ ε V := chain (S.level (opsAt 4)) (parseShift S unary)

def parseEquality : Parser ConstToken σ ε V := chain (S.level (opsAt 5)) (parseRelational S unary)

def parseLogicalAnd : Parser ConstToken σ ε V := chain (S.level (opsAt 6)) (parseEquality S unary)

def parseLogicalOr : Parser ConstToken σ ε V := chain (S.level (opsAt 7)) (parseLogicalAnd S unary)

/-- `room` is what is left of the nesting limit. A sign or a bracket takes one. -/
def parseUnary : ℕ → Parser ConstToken σ ε V
  | 0, .plus :: _ | 0, .minus :: _ => S.fail
  | 0, ts => parsePrimary S (fun _ => S.fail) ts
  | room + 1, .plus :: ts => parseUnary room ts
  | room + 1, .minus :: ts => do
    let (v, rest) ← parseUnary room ts
    pure (S.neg v, rest)
  | room + 1, ts => parsePrimary S (parseLogicalOr S (parseUnary room)) ts

def parseExpr : ℕ → Parser ConstToken σ ε V
  | 0 => fun _ => S.fail
  | room + 1 => parseLogicalOr S (parseUnary S room)

/-- The parser of a level over a parser of unary expressions. -/
def ladder : ℕ → Parser ConstToken σ ε V
  | 0 => unary
  | k + 1 => chain (S.level (opsAt (k + 1))) (ladder k)

/-! ## Evaluation of a tree -/

/-- Evaluate a tree with the nesting that is left. -/
def evalTree : ConstExpr → ℕ → Run σ ε V
  | .int digits, _ => pure (S.int digits)
  | .ident name, _ => S.ident name
  | .clog2 _, 0 | .paren _, 0 | .pos _, 0 | .neg _, 0 => S.fail
  | .clog2 e, room + 1 => do
    let v ← evalTree e room
    S.clog2 v
  | .paren e, room + 1 | .pos e, room + 1 => evalTree e room
  | .neg e, room + 1 => do
    let v ← evalTree e room
    pure (S.neg v)
  | .binary op l r, room => do
    let a ← evalTree l room
    let b ← evalTree r room
    S.binary op a b

theorem evalTree_evaluates (ops : ConstToken → Option ConstOp) (room : ℕ) :
    Evaluates (S.level ops) fun e => evalTree S e room := fun _ _ _ => by
  simp only [ConstSemantics.level, evalTree]

/-! ## Levels -/

/-- The level of a token as an operator. -/
def ConstToken.level : ConstToken → ℕ
  | .star | .slash | .percent => 1
  | .plus | .minus => 2
  | .shl | .shr | .ashr => 3
  | .lt | .le | .gt | .ge => 4
  | .eqeq | .neq => 5
  | .andAnd => 6
  | .orOr => 7
  | _ => 0

theorem opsAt_level {k : ℕ} {t : ConstToken} (h : opsAt k t ≠ none) : t.level = k ∧ 0 < k := by
  unfold opsAt at h
  split at h <;> first | exact ⟨rfl, by decide⟩ | exact absurd rfl h

/-- The next token is no operator of a level up to `k`. -/
def StopsAt (k : ℕ) (ts : List ConstToken) : Prop :=
  ∀ t ts', ts = t :: ts' → ∀ j ≤ k, opsAt j t = none

theorem stopsAt_op {k : ℕ} {t : ConstToken} (h : opsAt (k + 1) t ≠ none) (ts : List ConstToken) :
    StopsAt k (t :: ts) := by
  rintro _ _ ⟨rfl, rfl⟩ j hj
  by_contra hne
  have h1 := (opsAt_level h).1
  have h2 := (opsAt_level hne).1
  omega

theorem endsChain_iff {k : ℕ} {ts : List ConstToken} :
    EndsChain (S.level (opsAt (k + 1))) (StopsAt k) ts ↔ StopsAt (k + 1) ts := by
  constructor
  · rintro ⟨hstop, hend⟩ t ts' rfl j hj
    rcases Nat.lt_or_eq_of_le hj with hlt | rfl
    · exact hstop t ts' rfl j (by omega)
    · exact hend t ts' rfl
  · intro h
    exact ⟨fun t ts' heq j hj => h t ts' heq j (by omega), fun t ts' heq => h t ts' heq _ le_rfl⟩

theorem derives_succ_iff {k : ℕ} {e : ConstExpr} {ts : List ConstToken} :
    Derives (k + 1) e ts ↔ Chain (S.level (opsAt (k + 1))) (Derives k) e ts := by
  constructor
  · generalize hn : k + 1 = n
    intro h
    induction h with
    | int | ident | clog2 | paren | pos | neg => cases hn
    | operand h _ =>
      cases hn
      exact .one h
    | binary _ hop hr ih _ =>
      cases hn
      exact .more (ih rfl) hop hr
  · intro h
    induction h with
    | one h => exact .operand h
    | more _ hop hr ih => exact .binary ih hop hr

variable {S} {unary}

theorem ladder_complete {room : ℕ}
    (hu : Complete unary (Derives 0) (fun e => evalTree S e room) (StopsAt 0)) :
    ∀ k, Complete (ladder S unary k) (Derives k) (fun e => evalTree S e room) (StopsAt k)
  | 0 => hu
  | k + 1 => by
      have hchain := chain_complete (ladder_complete hu k) (evalTree_evaluates S (opsAt (k + 1)) room)
        (fun t ts h => stopsAt_op h ts)
      intro e used rest h hstop
      exact hchain e used rest ((derives_succ_iff S).mp h) ((endsChain_iff S).mpr hstop)

theorem ladder_sound {room : ℕ} (hu : Sound unary (Derives 0) fun e => evalTree S e room) :
    ∀ k, Sound (ladder S unary k) (Derives k) fun e => evalTree S e room
  | 0 => hu
  | k + 1 => by
      intro ts s v rest s' h
      obtain ⟨e, used, hts, he, hv⟩ := chain_sound (ladder_sound hu k)
        (evalTree_evaluates S (opsAt (k + 1)) room) ts s v rest s' h
      exact ⟨e, used, hts, (derives_succ_iff S).mpr he, hv⟩

/-! ## Unary expressions -/

theorem fail_ok {W : Type} {s : σ} {r : W × σ} : (S.fail : Run σ ε W) s ≠ .ok r := by
  intro h
  change Except.error S.error = Except.ok r at h
  cases h

/-- A parser of a whole expression inside brackets, where `room` is left of the nesting limit. -/
def evalInside (S : ConstSemantics σ ε V) (e : ConstExpr) : ℕ → Run σ ε V
  | 0 => S.fail
  | room + 1 => evalTree S e room

theorem parseUnary_primary (S : ConstSemantics σ ε V) (room : ℕ) {ts : List ConstToken}
    (hplus : ∀ ts', ts ≠ .plus :: ts') (hminus : ∀ ts', ts ≠ .minus :: ts') :
    parseUnary S room ts = parsePrimary S (parseExpr S room) ts := by
  cases room with
  | zero => rw [parseUnary.eq_3 _ _ hplus hminus]; rfl
  | succ room => rw [parseUnary.eq_6 _ _ _ hplus hminus]; rfl

theorem parseExpr_complete {room : ℕ}
    (hu : ∀ r, room = r + 1 →
      Complete (parseUnary S r) (Derives 0) (fun e => evalTree S e r) (StopsAt 0)) :
    Complete (parseExpr S room) (Derives 7) (fun e => evalInside S e room) (StopsAt 7) := by
  cases room with
  | zero => exact fun _ _ _ _ _ => rfl
  | succ r => exact ladder_complete (hu r rfl) 7

theorem parseExpr_sound {room : ℕ}
    (hu : ∀ r, room = r + 1 → Sound (parseUnary S r) (Derives 0) fun e => evalTree S e r) :
    Sound (parseExpr S room) (Derives 7) fun e => evalInside S e room := by
  cases room with
  | zero => exact fun _ _ _ _ _ h => absurd h fail_ok
  | succ r => exact ladder_sound (hu r rfl) 7

theorem stopsAt_rparen (k : ℕ) (ts : List ConstToken) : StopsAt k (.rparen :: ts) := by
  rintro _ _ ⟨rfl, rfl⟩ j _
  by_contra hne
  obtain ⟨h, hpos⟩ := opsAt_level hne
  rw [← h] at hpos
  exact absurd hpos (lt_irrefl 0)

theorem parseBracketed_complete {room : ℕ} {expr : Parser ConstToken σ ε V}
    (hx : Complete expr (Derives 7) (fun e => evalInside S e room) (StopsAt 7)) {e : ConstExpr}
    {ts : List ConstToken} (h : Derives 7 e ts) (rest : List ConstToken) :
    parseBracketed S expr (ts ++ .rparen :: rest) =
      (fun v => (v, rest)) <$> evalInside S e room := by
  unfold parseBracketed
  rw [hx e ts (.rparen :: rest) h (stopsAt_rparen 7 rest)]
  simp only [map_eq_pure_bind, bind_assoc, pure_bind]

theorem stopsAt_zero (ts : List ConstToken) : StopsAt 0 ts := by
  intro t ts' _ j hj
  obtain rfl := Nat.le_zero.mp hj
  by_contra hne
  exact absurd (opsAt_level hne).2 (lt_irrefl 0)

/-- The signs of a primary expression are inside its brackets. -/
def Unsigned : ConstExpr → Prop
  | .pos _ | .neg _ => False
  | _ => True

theorem parsePrimary_complete {room : ℕ}
    (hx : Complete (parseExpr S room) (Derives 7) (fun e => evalInside S e room) (StopsAt 7))
    {e : ConstExpr} {ts : List ConstToken} (h : Derives 0 e ts) (hunsigned : Unsigned e)
    (rest : List ConstToken) :
    parseUnary S room (ts ++ rest) = (fun v => (v, rest)) <$> evalTree S e room := by
  cases h with
  | int digits => rw [parseUnary_primary S room (by simp) (by simp)]; rfl
  | ident hname =>
    rw [parseUnary_primary S room (by simp) (by simp)]
    simp only [List.cons_append, List.nil_append, parsePrimary, if_neg hname, evalTree,
      map_eq_pure_bind]
  | clog2 h =>
    rw [parseUnary_primary S room (by simp) (by simp)]
    simp only [List.cons_append, List.append_assoc, List.nil_append, parsePrimary, if_true,
      parseBracketed_complete hx h]
    cases room with
    | zero => rfl
    | succ room => simp only [evalInside, evalTree, map_eq_pure_bind, bind_assoc, pure_bind]
  | paren h =>
    rw [parseUnary_primary S room (by simp) (by simp)]
    simp only [List.cons_append, List.append_assoc, List.nil_append, parsePrimary,
      parseBracketed_complete hx h]
    cases room with
    | zero => rfl
    | succ room => simp only [evalInside, evalTree]
  | pos _ => exact absurd hunsigned id
  | neg _ => exact absurd hunsigned id

theorem parseUnary_complete (S : ConstSemantics σ ε V) : ∀ room,
    Complete (parseUnary S room) (Derives 0) (fun e => evalTree S e room) (StopsAt 0) := by
  intro room
  induction room with
  | zero =>
    have hx := @parseExpr_complete σ ε V S 0 (fun r hr => absurd hr (Nat.succ_ne_zero r).symm)
    intro e used rest h _
    cases h with
    | pos h => rfl
    | neg h => rfl
    | int digits => exact parsePrimary_complete hx (.int digits) trivial rest
    | ident hname => exact parsePrimary_complete hx (.ident hname) trivial rest
    | clog2 h => exact parsePrimary_complete hx (.clog2 h) trivial rest
    | paren h => exact parsePrimary_complete hx (.paren h) trivial rest
  | succ room ih =>
    have hx := @parseExpr_complete σ ε V S (room + 1) (fun r hr => by cases hr; exact ih)
    intro e used rest h _
    cases h with
    | @pos e ts h => exact ih e ts rest h (stopsAt_zero rest)
    | @neg e ts h =>
      have hread := ih e ts rest h (stopsAt_zero rest)
      simp only [List.cons_append, parseUnary, hread, evalTree, map_eq_pure_bind, bind_assoc,
        pure_bind]
    | int digits => exact parsePrimary_complete hx (.int digits) trivial rest
    | ident hname => exact parsePrimary_complete hx (.ident hname) trivial rest
    | clog2 h => exact parsePrimary_complete hx (.clog2 h) trivial rest
    | paren h => exact parsePrimary_complete hx (.paren h) trivial rest

theorem parseBracketed_sound {room : ℕ} {expr : Parser ConstToken σ ε V}
    (hx : Sound expr (Derives 7) fun e => evalInside S e room) {ts rest : List ConstToken} {s s' : σ}
    {v : V} (h : parseBracketed S expr ts s = .ok ((v, rest), s')) :
    ∃ e used, ts = used ++ .rparen :: rest ∧ Derives 7 e used ∧ evalInside S e room s = .ok (v, s') := by
  obtain ⟨⟨w, rest'⟩, s₁, hread, hclose⟩ := bind_ok.mp h
  obtain ⟨e, used, rfl, he, hv⟩ := hx ts s w rest' s₁ hread
  rcases rest' with _ | ⟨t, rest'⟩
  · exact absurd hclose fail_ok
  · cases t with
    | rparen =>
      obtain ⟨heq, rfl⟩ := pure_ok.mp hclose
      cases heq
      exact ⟨e, used, rfl, he, hv⟩
    | _ => exact absurd hclose fail_ok

theorem parsePrimary_sound {room : ℕ} {expr : Parser ConstToken σ ε V}
    (hx : Sound expr (Derives 7) fun e => evalInside S e room) {ts rest : List ConstToken} {s s' : σ}
    {v : V} (h : parsePrimary S expr ts s = .ok ((v, rest), s')) :
    ∃ e used, ts = used ++ rest ∧ Derives 0 e used ∧ evalTree S e room s = .ok (v, s') := by
  have hinside : ∀ {e : ConstExpr} {w : V} {s₁ : σ}, evalInside S e room s = .ok (w, s₁) →
      ∃ r, room = r + 1 ∧ evalTree S e r s = .ok (w, s₁) := by
    intro e w s₁ he
    cases room with
    | zero => exact absurd he fail_ok
    | succ r => exact ⟨r, rfl, he⟩
  rcases ts with _ | ⟨t, ts⟩
  · exact absurd h fail_ok
  · cases t with
    | int digits =>
      obtain ⟨heq, rfl⟩ := pure_ok.mp h
      cases heq
      exact ⟨.int digits, [.int digits], rfl, .int digits, rfl⟩
    | ident name =>
      unfold parsePrimary at h
      dsimp only at h
      by_cases hname : name = clog2Name
      · subst hname
        rw [if_pos rfl] at h
        rcases ts with _ | ⟨t, ts⟩
        · exact absurd h fail_ok
        · cases t with
          | lparen =>
            obtain ⟨⟨arg, rest'⟩, s₁, hread, hcall⟩ := bind_ok.mp h
            obtain ⟨w, s₂, hlog, hret⟩ := bind_ok.mp hcall
            obtain ⟨heq, rfl⟩ := pure_ok.mp hret
            cases heq
            obtain ⟨e, used, rfl, he, hv⟩ := parseBracketed_sound hx hread
            obtain ⟨r, rfl, hv'⟩ := hinside hv
            refine ⟨.clog2 e, .ident clog2Name :: .lparen :: (used ++ [.rparen]), by simp,
              .clog2 he, ?_⟩
            rw [evalTree]
            exact bind_ok.mpr ⟨arg, s₁, hv', hlog⟩
          | _ => exact absurd h fail_ok
      · rw [if_neg hname] at h
        obtain ⟨w, s₁, hid, hret⟩ := bind_ok.mp h
        obtain ⟨heq, rfl⟩ := pure_ok.mp hret
        cases heq
        exact ⟨.ident name, [.ident name], rfl, .ident hname, hid⟩
    | lparen =>
      obtain ⟨e, used, rfl, he, hv⟩ := parseBracketed_sound hx h
      obtain ⟨r, rfl, hv'⟩ := hinside hv
      exact ⟨.paren e, .lparen :: (used ++ [.rparen]), by simp, .paren he, hv'⟩
    | _ => exact absurd h fail_ok

theorem parseUnary_sound (S : ConstSemantics σ ε V) : ∀ room,
    Sound (parseUnary S room) (Derives 0) fun e => evalTree S e room := by
  intro room
  induction room with
  | zero =>
    have hx := @parseExpr_sound σ ε V S 0 (fun r hr => absurd hr (Nat.succ_ne_zero r).symm)
    intro ts s v rest s' h
    by_cases hplus : ∃ ts', ts = .plus :: ts'
    · obtain ⟨ts', rfl⟩ := hplus
      exact absurd h fail_ok
    · by_cases hminus : ∃ ts', ts = .minus :: ts'
      · obtain ⟨ts', rfl⟩ := hminus
        exact absurd h fail_ok
      · rw [parseUnary_primary S 0 (not_exists.mp hplus) (not_exists.mp hminus)] at h
        exact parsePrimary_sound hx h
  | succ room ih =>
    have hx := @parseExpr_sound σ ε V S (room + 1) (fun r hr => by cases hr; exact ih)
    intro ts s v rest s' h
    by_cases hplus : ∃ ts', ts = .plus :: ts'
    · obtain ⟨ts', rfl⟩ := hplus
      obtain ⟨e, used, rfl, he, hv⟩ := ih ts' s v rest s' h
      exact ⟨.pos e, .plus :: used, rfl, .pos he, hv⟩
    · by_cases hminus : ∃ ts', ts = .minus :: ts'
      · obtain ⟨ts', rfl⟩ := hminus
        rw [parseUnary] at h
        obtain ⟨⟨w, rest'⟩, s₁, hread, hret⟩ := bind_ok.mp h
        obtain ⟨heq, rfl⟩ := pure_ok.mp hret
        cases heq
        obtain ⟨e, used, rfl, he, hv⟩ := ih ts' s w _ s₁ hread
        refine ⟨.neg e, .minus :: used, rfl, .neg he, ?_⟩
        simp only [evalTree]
        exact bind_ok.mpr ⟨w, s₁, hv, pure_ok.mpr ⟨rfl, rfl⟩⟩
      · rw [parseUnary_primary S _ (not_exists.mp hplus) (not_exists.mp hminus)] at h
        exact parsePrimary_sound hx h

/-! ## Whole expressions -/

/-- Read a whole token list; trailing tokens are an error. -/
def parseWhole (S : ConstSemantics σ ε V) (limit : ℕ) (ts : List ConstToken) : Run σ ε V := do
  let (v, rest) ← parseExpr S limit ts
  match rest with
  | [] => pure v
  | _ => S.fail

theorem stopsAt_nil (k : ℕ) : StopsAt k [] := by rintro _ _ ⟨⟩

theorem parseWhole_complete (S : ConstSemantics σ ε V) (limit : ℕ) {e : ConstExpr}
    {ts : List ConstToken} (h : Derives 7 e ts) :
    parseWhole S limit ts = evalInside S e limit := by
  have hread := @parseExpr_complete σ ε V S limit (fun r _ => parseUnary_complete S r)
    e ts [] h (stopsAt_nil 7)
  rw [List.append_nil] at hread
  simp only [parseWhole, hread, map_eq_pure_bind, bind_assoc, pure_bind, bind_pure]

theorem parseWhole_sound {limit : ℕ} {ts : List ConstToken} {s s' : σ} {v : V}
    (h : parseWhole S limit ts s = .ok (v, s')) :
    ∃ e, Derives 7 e ts ∧ evalInside S e limit s = .ok (v, s') := by
  obtain ⟨⟨w, rest⟩, s₁, hread, hend⟩ := bind_ok.mp h
  obtain ⟨e, used, rfl, he, hv⟩ := @parseExpr_sound σ ε V S limit
    (fun r _ => parseUnary_sound S r) ts s w rest s₁ hread
  cases rest with
  | nil =>
    obtain ⟨rfl, rfl⟩ := pure_ok.mp hend
    rw [List.append_nil]
    exact ⟨e, he, hv⟩
  | cons t rest => exact absurd hend fail_ok

/-! ## Errors of the parser -/

variable {Inv : σ → Prop} {E : ε → Prop}

variable (S Inv E) in
/-- The names in a token list resolve with the invariant or fail as expected. -/
def Resolves (ts : List ConstToken) : Prop :=
  ∀ name, .ident name ∈ ts → name ≠ clog2Name → Yields Inv E (S.ident name) fun _ => True

theorem Resolves.tail {t : ConstToken} {ts : List ConstToken} (h : Resolves S Inv E (t :: ts)) :
    Resolves S Inv E ts := fun name hn => h name (List.mem_cons_of_mem _ hn)

variable (S Inv E) in
/-- The errors of the evaluator apart from those of names. -/
structure FailsAs : Prop where

  error : E S.error

  clog2 : ∀ v, Yields Inv E (S.clog2 v) fun _ => True

  binary : ∀ op a b, Yields Inv E (S.binary op a b) fun _ => True

theorem parseBracketed_yields (hS : FailsAs S Inv E) {expr : Parser ConstToken σ ε V}
    (hx : ∀ ts, Resolves S Inv E ts → Yields Inv E (expr ts) fun r => Resolves S Inv E r.2)
    {ts : List ConstToken} (h : Resolves S Inv E ts) :
    Yields Inv E (parseBracketed S expr ts) fun r => Resolves S Inv E r.2 := by
  refine (hx ts h).bind ?_
  rintro ⟨v, rest⟩ hr
  rcases rest with _ | ⟨t, rest⟩
  · exact .throw hS.error
  · cases t with
    | rparen => exact .pure hr.tail
    | _ => exact .throw hS.error

theorem parsePrimary_yields (hS : FailsAs S Inv E) {expr : Parser ConstToken σ ε V}
    (hx : ∀ ts, Resolves S Inv E ts → Yields Inv E (expr ts) fun r => Resolves S Inv E r.2)
    {ts : List ConstToken} (h : Resolves S Inv E ts) :
    Yields Inv E (parsePrimary S expr ts) fun r => Resolves S Inv E r.2 := by
  rcases ts with _ | ⟨t, ts⟩
  · exact .throw hS.error
  · cases t with
    | int digits => exact .pure h.tail
    | ident name =>
      unfold parsePrimary
      dsimp only
      split
      · rcases ts with _ | ⟨t, ts⟩
        · exact .throw hS.error
        · cases t with
          | lparen =>
            exact (parseBracketed_yields hS hx h.tail.tail).bind fun r hr =>
              (hS.clog2 r.1).bind fun v _ => .pure hr
          | _ => exact .throw hS.error
      · rename_i hname
        exact (h name List.mem_cons_self hname).bind fun v _ => .pure h.tail
    | lparen => exact parseBracketed_yields hS hx h.tail
    | _ => exact .throw hS.error

theorem ladder_yields (hS : FailsAs S Inv E)
    (hu : ∀ ts, Resolves S Inv E ts → Yields Inv E (unary ts) fun r => Resolves S Inv E r.2) :
    ∀ k ts, Resolves S Inv E ts → Yields Inv E (ladder S unary k ts) fun r => Resolves S Inv E r.2
  | 0 => hu
  | k + 1 => fun ts h =>
    chain_yields (fun _ _ => Resolves.tail) (ladder_yields hS hu k) hS.binary ts h

theorem parseUnary_yields (hS : FailsAs S Inv E) : ∀ room ts, Resolves S Inv E ts →
    Yields Inv E (parseUnary S room ts) fun r => Resolves S Inv E r.2 := by
  intro room
  induction room with
  | zero =>
    intro ts h
    by_cases hplus : ∃ ts', ts = .plus :: ts'
    · obtain ⟨ts', rfl⟩ := hplus
      exact .throw hS.error
    · by_cases hminus : ∃ ts', ts = .minus :: ts'
      · obtain ⟨ts', rfl⟩ := hminus
        exact .throw hS.error
      · rw [parseUnary_primary S 0 (not_exists.mp hplus) (not_exists.mp hminus)]
        exact parsePrimary_yields hS (fun _ _ => .throw hS.error) h
  | succ room ih =>
    intro ts h
    by_cases hplus : ∃ ts', ts = .plus :: ts'
    · obtain ⟨ts', rfl⟩ := hplus
      exact ih ts' h.tail
    · by_cases hminus : ∃ ts', ts = .minus :: ts'
      · obtain ⟨ts', rfl⟩ := hminus
        exact (ih ts' h.tail).bind fun r hr => .pure hr
      · rw [parseUnary_primary S _ (not_exists.mp hplus) (not_exists.mp hminus)]
        exact parsePrimary_yields hS (ladder_yields hS ih 7) h

theorem parseWhole_yields (hS : FailsAs S Inv E) (limit : ℕ) {ts : List ConstToken}
    (h : Resolves S Inv E ts) : Yields Inv E (parseWhole S limit ts) fun _ => True := by
  have hx : Yields Inv E (parseExpr S limit ts) fun r => Resolves S Inv E r.2 := by
    cases limit with
    | zero => exact .throw hS.error
    | succ room => exact ladder_yields hS (parseUnary_yields hS room) 7 ts h
  refine hx.bind ?_
  rintro ⟨v, rest⟩ -
  cases rest with
  | nil => exact .pure trivial
  | cons t rest => exact .throw hS.error

end

end JzHdl

import Mathlib.Data.Nat.Basic
import Mathlib.Tactic.Common

/-! # Operator precedence

Printing a tree of operators with parentheses chosen by comparing levels, and
reading it back by precedence climbing. Binary operators associate to the left
and the ternary operator to the right. The printer parenthesises an operand
only when its level is strictly lower than the level around it.
-/

namespace Precedence

variable {L S U B : Type}

inductive Tree (L U B : Type) where

  | leaf (x : L)

  | unary (op : U) (e : Tree L U B)

  | binary (op : B) (l r : Tree L U B)

  | ternary (c t f : Tree L U B)

  | group (es : List (Tree L U B))

inductive Token (L S : Type) where
  | leaf (x : L)
  | sym (s : S)
  | lparen | rparen | lbrace | rbrace | comma | question | colon
  deriving DecidableEq, Repr

/-- Operators with their symbols and levels. A symbol may be unary and binary. -/
structure Operators (S U B : Type) where

  unarySym : U → S

  binarySym : B → S

  asUnary : S → Option U

  asBinary : S → Option B

  level : B → ℕ

  unaryLevel : ℕ

  asUnary_unarySym : ∀ op, asUnary (unarySym op) = some op

  asBinary_binarySym : ∀ op, asBinary (binarySym op) = some op

  one_lt_level : ∀ op, 1 < level op

  one_lt_unaryLevel : 1 < unaryLevel

  level_lt_unaryLevel : ∀ op, level op < unaryLevel

/-! ## Printing -/

def paren (b : Prop) [Decidable b] (ts : List (Token L S)) : List (Token L S) :=
  if b then .lparen :: (ts ++ [.rparen]) else ts

namespace Operators

variable (G : Operators S U B)

def prec : Tree L U B → ℕ
  | .leaf _ | .group _ => G.unaryLevel + 1
  | .unary .. => G.unaryLevel
  | .binary op .. => G.level op
  | .ternary .. => 1

mutual

/-- The tokens of a tree without parentheses of its own. -/
def body : Tree L U B → List (Token L S)
  | .leaf x => [.leaf x]
  | .unary op e => .sym (G.unarySym op) :: paren (G.prec e < G.unaryLevel) (body e)
  | .binary op l r =>
    paren (G.prec l < G.level op) (body l) ++
      .sym (G.binarySym op) :: paren (G.prec r < G.level op) (body r)
  | .ternary c t f =>
    paren (G.prec c < 1) (body c) ++ .question :: (paren (G.prec t < 1) (body t) ++
      .colon :: paren (G.prec f < 1) (body f))
  | .group es => .lbrace :: items es

/-- The members of a group up to and with the closing brace. -/
def items : List (Tree L U B) → List (Token L S)
  | [] => [.rbrace]
  | [e] => body e ++ [.rbrace]
  | e :: e' :: es => body e ++ .comma :: items (e' :: es)

end

def print (e : Tree L U B) (p : ℕ) : List (Token L S) := paren (G.prec e < p) (G.body e)

/-! ## Reading -/

mutual

def parseExpr : ℕ → List (Token L S) → Option (Tree L U B × List (Token L S))
  | 0, _ => none
  | fuel + 1, ts =>
    match parseBinary fuel 0 ts with
    | some (c, .question :: ts₁) =>
      match parseExpr fuel ts₁ with
      | some (t, .colon :: ts₂) => (parseExpr fuel ts₂).map fun r => (.ternary c t r.1, r.2)
      | _ => none
    | r => r

/-- An operand followed by operators whose level is at least `m`. -/
def parseBinary : ℕ → ℕ → List (Token L S) → Option (Tree L U B × List (Token L S))
  | 0, _, _ => none
  | fuel + 1, m, ts =>
    match parseUnary fuel ts with
    | some (l, ts₁) => parseLoop fuel m l ts₁
    | none => none

def parseLoop :
    ℕ → ℕ → Tree L U B → List (Token L S) → Option (Tree L U B × List (Token L S))
  | 0, _, _, _ => none
  | fuel + 1, m, l, .sym s :: ts₁ =>
    match G.asBinary s with
    | some op =>
      if m ≤ G.level op then
        match parseBinary fuel (G.level op + 1) ts₁ with
        | some (r, ts₂) => parseLoop fuel m (.binary op l r) ts₂
        | none => none
      else some (l, .sym s :: ts₁)
    | none => some (l, .sym s :: ts₁)
  | _ + 1, _, l, ts => some (l, ts)

def parseUnary : ℕ → List (Token L S) → Option (Tree L U B × List (Token L S))
  | 0, _ => none
  | _ + 1, .leaf x :: ts₁ => some (.leaf x, ts₁)
  | fuel + 1, .sym s :: ts₁ =>
    match G.asUnary s with
    | some op => (parseUnary fuel ts₁).map fun r => (.unary op r.1, r.2)
    | none => none
  | fuel + 1, .lparen :: ts₁ =>
    match parseExpr fuel ts₁ with
    | some (e, .rparen :: ts₂) => some (e, ts₂)
    | _ => none
  | _ + 1, .lbrace :: .rbrace :: ts₁ => some (.group [], ts₁)
  | fuel + 1, .lbrace :: ts₁ => (parseItems fuel ts₁).map fun r => (.group r.1, r.2)
  | _ + 1, _ => none

def parseItems : ℕ → List (Token L S) → Option (List (Tree L U B) × List (Token L S))
  | 0, _ => none
  | fuel + 1, ts =>
    match parseExpr fuel ts with
    | some (e, .comma :: ts₁) => (parseItems fuel ts₁).map fun r => (e :: r.1, r.2)
    | some (e, .rbrace :: ts₁) => some ([e], ts₁)
    | _ => none

end

/-- The tree a whole token list reads as. -/
def parse (ts : List (Token L S)) : Option (Tree L U B) :=
  match G.parseExpr (4 * ts.length + 2) ts with
  | some (e, []) => some e
  | _ => none

/-! ## Trees that survive -/

mutual

/--
No right operand of a binary operator has the operator's own level at its root,
and no condition of a ternary operator is a ternary operator.
-/
def Grouped : Tree L U B → Prop
  | .leaf _ => True
  | .unary _ e => Grouped e
  | .binary op l r => Grouped l ∧ Grouped r ∧ G.prec r ≠ G.level op
  | .ternary c t f => Grouped c ∧ Grouped t ∧ Grouped f ∧ G.prec c ≠ 1
  | .group es => GroupedAll es

def GroupedAll : List (Tree L U B) → Prop
  | [] => True
  | e :: es => Grouped e ∧ GroupedAll es

end

/-! ## Reading what was printed -/

variable {G}

/-- No operator of level `m` or more stands at the head of the rest. -/
def Below (m : ℕ) : List (Token L S) → Prop
  | .sym s :: _ => ∀ op, G.asBinary s = some op → G.level op < m
  | _ => True

/-- What may follow a whole expression. -/
def Closed : List (Token L S) → Prop
  | .sym s :: _ => G.asBinary s = none
  | .question :: _ => False
  | _ => True

theorem Below.mono {m n : ℕ} {ts : List (Token L S)} (h : Below (G := G) m ts) (hmn : m ≤ n) :
    Below (G := G) n ts := by
  cases ts with
  | nil => trivial
  | cons t ts =>
    cases t with
    | sym s => exact fun op hop => lt_of_lt_of_le (h op hop) hmn
    | _ => trivial

theorem Closed.below {ts : List (Token L S)} (h : Closed (G := G) ts) (m : ℕ) :
    Below (G := G) m ts := by
  cases ts with
  | nil => trivial
  | cons t ts =>
    cases t with
    | sym s =>
      intro op hop
      rw [show G.asBinary s = none from h] at hop
      cases hop
    | _ => trivial

theorem below_binarySym (op : B) (ts : List (Token L S)) :
    Below (G := G) (G.level op + 1) (.sym (G.binarySym op) :: ts) := by
  intro op' hop
  rw [G.asBinary_binarySym] at hop
  cases hop
  exact Nat.lt_succ_self _

/-- The loop ends where no operator of its level follows. -/
theorem parseLoop_stop {m fuel : ℕ} (l : Tree L U B) {ts : List (Token L S)}
    (h : Below (G := G) m ts) (hf : 0 < fuel) : G.parseLoop fuel m l ts = some (l, ts) := by
  obtain ⟨fuel, rfl⟩ := Nat.exists_eq_succ_of_ne_zero (Nat.pos_iff_ne_zero.mp hf)
  cases ts with
  | nil => simp only [parseLoop]
  | cons t ts =>
    cases t with
    | sym s =>
      simp only [parseLoop]
      cases hop : G.asBinary s with
      | none => rfl
      | some op => exact if_neg (Nat.not_le.mpr (h op hop))
    | _ => simp only [parseLoop]

theorem prec_pos (e : Tree L U B) : 1 ≤ G.prec e := by
  have hu := G.one_lt_unaryLevel
  cases e with
  | binary op l r => exact Nat.le_of_lt (G.one_lt_level op)
  | ternary c t f => exact Nat.le_refl 1
  | leaf x => simp only [prec]; omega
  | unary op e => simp only [prec]; omega
  | group es => simp only [prec]; omega

theorem body_length_pos (e : Tree L U B) : 0 < (G.body (S := S) e).length := by
  cases e with
  | binary op l r => simp only [body, List.length_append, List.length_cons]; omega
  | ternary c t f => simp only [body, List.length_append, List.length_cons]; omega
  | _ => simp [body]

theorem paren_pos {b : Prop} [Decidable b] (h : b) (ts : List (Token L S)) :
    paren b ts = .lparen :: (ts ++ [.rparen]) := if_pos h

theorem paren_neg {b : Prop} [Decidable b] (h : ¬ b) (ts : List (Token L S)) :
    paren b ts = ts := if_neg h

/-- Starting with something other than a closing brace. -/
def Opens (ts : List (Token L S)) : Prop := ∃ t rest, ts = t :: rest ∧ t ≠ .rbrace

theorem Opens.append {ts : List (Token L S)} (h : Opens ts) (more : List (Token L S)) :
    Opens (ts ++ more) := by
  obtain ⟨t, rest, rfl, ht⟩ := h
  exact ⟨t, rest ++ more, rfl, ht⟩

theorem Opens.paren {ts : List (Token L S)} (h : Opens ts) (b : Prop) [Decidable b] :
    Opens (paren b ts) := by
  by_cases hb : b
  · rw [paren_pos hb]
    exact ⟨.lparen, _, rfl, by simp⟩
  · rwa [paren_neg hb]

theorem body_opens : ∀ e : Tree L U B, Opens (G.body (S := S) e)
  | .leaf x => by rw [body]; exact ⟨.leaf x, [], rfl, by simp⟩
  | .unary op e => by rw [body]; exact ⟨.sym (G.unarySym op), _, rfl, by simp⟩
  | .binary op l r => by rw [body]; exact ((body_opens l).paren _).append _
  | .ternary c t f => by rw [body]; exact ((body_opens c).paren _).append _
  | .group es => by rw [body]; exact ⟨.lbrace, G.items es, rfl, by simp⟩

theorem items_opens (e : Tree L U B) (es : List (Tree L U B)) :
    Opens (G.items (S := S) (e :: es)) := by
  cases es with
  | nil => rw [items]; exact (body_opens e).append _
  | cons e' es => rw [items]; exact (body_opens e).append _

/-- How the tokens of one tree read, at each of the three places it can stand. -/
structure Reads (G : Operators S U B) (e : Tree L U B) : Prop where

  unary : G.unaryLevel ≤ G.prec e → ∀ (rest : List (Token L S)) (fuel : ℕ),
    4 * (G.body (S := S) e).length - 3 ≤ fuel →
    G.parseUnary fuel (G.body e ++ rest) = some (e, rest)

  binary : 1 < G.prec e → ∀ (m : ℕ) (rest : List (Token L S)) (k : ℕ) r, m ≤ G.prec e →
    Below (G := G) (G.prec e + 1) rest →
    (∀ fuel, k ≤ fuel → G.parseLoop fuel m e rest = r) → ∀ fuel,
    4 * (G.body (S := S) e).length + k ≤ fuel →
    G.parseBinary fuel m (G.body e ++ rest) = r

  expr : ∀ (rest : List (Token L S)) (fuel : ℕ), Closed (G := G) rest →
    4 * (G.body (S := S) e).length + 2 ≤ fuel →
    G.parseExpr fuel (G.body e ++ rest) = some (e, rest)

namespace Reads

variable {e : Tree L U B}

theorem of_expr (hp : G.prec e = 1)
    (h : ∀ (rest : List (Token L S)) (fuel : ℕ), Closed (G := G) rest →
      4 * (G.body (S := S) e).length + 2 ≤ fuel →
      G.parseExpr fuel (G.body e ++ rest) = some (e, rest)) : Reads G e := by
  have hu := G.one_lt_unaryLevel
  exact ⟨fun hle => by omega, fun hlt => by omega, h⟩

/-- An operand at the binary place is a whole expression where nothing follows. -/
theorem expr_of_binary
    (h : ∀ (m : ℕ) (rest : List (Token L S)) (k : ℕ) r, m ≤ G.prec e →
      Below (G := G) (G.prec e + 1) rest →
      (∀ fuel, k ≤ fuel → G.parseLoop fuel m e rest = r) → ∀ fuel,
      4 * (G.body (S := S) e).length + k ≤ fuel →
      G.parseBinary fuel m (G.body e ++ rest) = r)
    (rest : List (Token L S)) (fuel : ℕ) (hclosed : Closed (G := G) rest)
    (hfuel : 4 * (G.body (S := S) e).length + 2 ≤ fuel) :
    G.parseExpr fuel (G.body e ++ rest) = some (e, rest) := by
  obtain ⟨fuel, rfl⟩ : ∃ n, fuel = n + 1 := ⟨fuel - 1, by omega⟩
  have hbin := h 0 rest 1 (some (e, rest)) (Nat.zero_le _) (hclosed.below _)
    (fun n hn => parseLoop_stop e (hclosed.below 0) hn) fuel (by omega)
  simp only [parseExpr, hbin]
  cases rest with
  | nil => rfl
  | cons t ts =>
    cases t with
    | question => exact hclosed.elim
    | _ => rfl

theorem of_binary (hpu : G.prec e < G.unaryLevel)
    (h : ∀ (m : ℕ) (rest : List (Token L S)) (k : ℕ) r, m ≤ G.prec e →
      Below (G := G) (G.prec e + 1) rest →
      (∀ fuel, k ≤ fuel → G.parseLoop fuel m e rest = r) → ∀ fuel,
      4 * (G.body (S := S) e).length + k ≤ fuel →
      G.parseBinary fuel m (G.body e ++ rest) = r) : Reads G e :=
  ⟨fun hle => by omega, fun _ => h, expr_of_binary h⟩

theorem of_unary
    (h : ∀ (rest : List (Token L S)) (fuel : ℕ), 4 * (G.body (S := S) e).length - 3 ≤ fuel →
      G.parseUnary fuel (G.body e ++ rest) = some (e, rest)) : Reads G e := by
  have hbinary : ∀ (m : ℕ) (rest : List (Token L S)) (k : ℕ) r, m ≤ G.prec e →
      Below (G := G) (G.prec e + 1) rest →
      (∀ fuel, k ≤ fuel → G.parseLoop fuel m e rest = r) → ∀ fuel,
      4 * (G.body (S := S) e).length + k ≤ fuel →
      G.parseBinary fuel m (G.body e ++ rest) = r := by
    intro m rest k r _ _ hloop fuel hfuel
    have hlen := body_length_pos (G := G) (S := S) e
    obtain ⟨fuel, rfl⟩ : ∃ n, fuel = n + 1 := ⟨fuel - 1, by omega⟩
    simp only [parseBinary, h rest fuel (by omega)]
    exact hloop fuel (by omega)
  exact ⟨fun _ => h, fun _ => hbinary, expr_of_binary hbinary⟩

/-- A parenthesised tree reads as a primary. -/
theorem parseUnary_paren (h : Reads (S := S) G e) (rest : List (Token L S)) (fuel : ℕ)
    (hfuel : 4 * (G.body (S := S) e).length + 3 ≤ fuel) :
    G.parseUnary fuel (.lparen :: (G.body e ++ [.rparen]) ++ rest) = some (e, rest) := by
  obtain ⟨fuel, rfl⟩ : ∃ n, fuel = n + 1 := ⟨fuel - 1, by omega⟩
  have hexpr := h.expr (.rparen :: rest) fuel trivial (by omega)
  rw [List.cons_append, List.append_assoc]
  simp only [parseUnary, List.cons_append, List.nil_append, hexpr]

/-- An operand of a unary operator. -/
theorem print_unary (h : Reads (S := S) G e) (rest : List (Token L S)) (fuel : ℕ)
    (hfuel : 4 * (paren (L := L) (S := S) (G.prec e < G.unaryLevel) (G.body e)).length - 3 ≤ fuel) :
    G.parseUnary fuel (paren (G.prec e < G.unaryLevel) (G.body e) ++ rest) = some (e, rest) := by
  by_cases hp : G.prec e < G.unaryLevel
  · simp only [paren_pos hp, List.length_cons, List.length_append] at hfuel ⊢
    exact h.parseUnary_paren rest fuel (by omega)
  · rw [paren_neg hp] at hfuel ⊢
    exact h.unary (Nat.le_of_not_lt hp) rest fuel hfuel

/-- An operand printed at level `q`, read where operators of level `m` are taken. -/
theorem print_binary (h : Reads (S := S) G e) {q m : ℕ} (hq : 1 < q) (hm : m ≤ q)
    {rest : List (Token L S)} (hrest : Below (G := G) (q + 1) rest) {k : ℕ} {r}
    (hloop : ∀ fuel, k ≤ fuel → G.parseLoop fuel m e rest = r) (fuel : ℕ)
    (hfuel : 4 * (paren (L := L) (S := S) (G.prec e < q) (G.body e)).length + k ≤ fuel) :
    G.parseBinary fuel m (paren (G.prec e < q) (G.body e) ++ rest) = r := by
  by_cases hp : G.prec e < q
  · simp only [paren_pos hp, List.length_cons, List.length_append, List.length_nil] at hfuel ⊢
    obtain ⟨fuel, rfl⟩ : ∃ n, fuel = n + 1 := ⟨fuel - 1, by omega⟩
    simp only [parseBinary, h.parseUnary_paren rest fuel (by omega)]
    exact hloop fuel (by omega)
  · rw [paren_neg hp] at hfuel ⊢
    have hle := Nat.le_of_not_lt hp
    exact h.binary (Nat.lt_of_lt_of_le hq hle) m rest k r (Nat.le_trans hm hle)
      (hrest.mono (by omega)) hloop fuel hfuel

/-- An operand printed at a level no operator has. -/
theorem print_expr (h : Reads (S := S) G e) {rest : List (Token L S)} (fuel : ℕ) (p : ℕ)
    (hrest : Closed (G := G) rest)
    (hfuel : 4 * (G.print (S := S) e p).length + 2 ≤ fuel) :
    G.parseExpr fuel (G.print e p ++ rest) = some (e, rest) := by
  unfold print at hfuel ⊢
  by_cases hp : G.prec e < p
  · simp only [paren_pos hp, List.length_cons, List.length_append, List.length_nil] at hfuel ⊢
    obtain ⟨fuel, rfl⟩ : ∃ n, fuel = n + 2 := ⟨fuel - 2, by omega⟩
    have hloop : G.parseLoop fuel 0 e rest = some (e, rest) :=
      parseLoop_stop e (hrest.below 0) (by omega)
    simp only [parseExpr, parseBinary, h.parseUnary_paren rest fuel (by omega), hloop]
    cases rest with
    | nil => rfl
    | cons t ts =>
      cases t with
      | question => exact hrest.elim
      | _ => rfl
  · rw [paren_neg hp] at hfuel ⊢
    exact h.expr rest fuel hrest hfuel

end Reads

mutual

/-- A grouped tree is read back from its tokens. -/
theorem reads : ∀ e : Tree L U B, G.Grouped e → Reads (S := S) G e
  | .leaf x, _ => by
    refine Reads.of_unary fun rest fuel hfuel => ?_
    obtain ⟨fuel, rfl⟩ : ∃ n, fuel = n + 1 := ⟨fuel - 1, by
      simp only [body, List.length_cons, List.length_nil] at hfuel; omega⟩
    simp only [body, List.cons_append, List.nil_append, parseUnary]
  | .unary op e, h => by
    have he := reads e h
    refine Reads.of_unary fun rest fuel hfuel => ?_
    simp only [body, List.length_cons] at hfuel
    obtain ⟨fuel, rfl⟩ : ∃ n, fuel = n + 1 := ⟨fuel - 1, by omega⟩
    simp only [body, List.cons_append, parseUnary, G.asUnary_unarySym,
      he.print_unary rest fuel (by omega), Option.map_some]
  | .binary op l r, ⟨hl, hr, hne⟩ => by
    have hl := reads l hl
    have hr := reads r hr
    have hop := G.one_lt_level op
    refine Reads.of_binary (G.level_lt_unaryLevel op) ?_
    intro m rest k res hm hrest hloop fuel hfuel
    -- the right operand stands at the operator's level, but is not of that level itself
    have hright : ∀ fuel, 4 * (paren (L := L) (S := S) (G.prec r < G.level op)
        (G.body r)).length + 1 ≤ fuel →
        G.parseBinary fuel (G.level op + 1)
          (paren (G.prec r < G.level op) (G.body r) ++ rest) = some (r, rest) := by
      intro fuel hfuel
      have heq : (G.prec r < G.level op) = (G.prec r < G.level op + 1) := by
        apply propext; omega
      simp only [heq] at hfuel ⊢
      exact hr.print_binary (q := G.level op + 1) (by omega) (Nat.le_refl _) (hrest.mono (by simp only [prec]; omega))
        (fun n hn => parseLoop_stop r hrest hn) fuel hfuel
    simp only [body, List.length_append, List.length_cons] at hfuel
    simp only [body, List.append_assoc, List.cons_append]
    refine hl.print_binary hop hm (below_binarySym op _)
      (k := 4 * (paren (L := L) (S := S) (G.prec r < G.level op) (G.body r)).length + 2 + k)
      ?_ fuel (by omega)
    intro n hn
    obtain ⟨n, rfl⟩ : ∃ j, n = j + 1 := ⟨n - 1, by omega⟩
    simp only [parseLoop, G.asBinary_binarySym]
    rw [if_pos (show m ≤ G.level op from hm), hright n (by omega)]
    exact hloop n (by omega)
  | .ternary c t f, ⟨hc, ht, hf, hne⟩ => by
    have hc := reads c hc
    have ht := reads t ht
    have hf := reads f hf
    have h1 := fun e : Tree L U B => prec_pos (G := G) e
    refine Reads.of_expr rfl fun rest fuel hrest hfuel => ?_
    simp only [body, paren_neg (Nat.not_lt.mpr (h1 _)), List.length_append,
      List.length_cons] at hfuel ⊢
    obtain ⟨fuel, rfl⟩ : ∃ n, fuel = n + 1 := ⟨fuel - 1, by omega⟩
    have hcond : G.parseBinary fuel 0 (G.body c ++ .question :: (G.body t ++
        .colon :: (G.body f ++ rest))) =
        some (c, .question :: (G.body t ++ .colon :: (G.body f ++ rest))) := by
      have hlt : 1 < G.prec c := by have := h1 c; omega
      refine hc.binary hlt 0 (.question :: _) 1 _ (Nat.zero_le _) trivial ?_ fuel (by omega)
      exact fun n hn => parseLoop_stop c trivial hn
    have htrue := ht.expr (.colon :: (G.body f ++ rest)) fuel trivial (by omega)
    have hfalse := hf.expr rest fuel hrest (by omega)
    simp only [List.append_assoc, List.cons_append, parseExpr, hcond, htrue, hfalse,
      Option.map_some]
  | .group [], _ => by
    refine Reads.of_unary fun rest fuel hfuel => ?_
    simp only [body, items, List.length_cons, List.length_nil] at hfuel
    obtain ⟨fuel, rfl⟩ : ∃ n, fuel = n + 1 := ⟨fuel - 1, by omega⟩
    simp only [body, items, List.cons_append, List.nil_append, parseUnary]
  | .group (e :: es), h => by
    have hes := reads_items (e :: es) h (by simp)
    obtain ⟨t, ts, htoks, hne⟩ := items_opens (G := G) (S := S) e es
    refine Reads.of_unary fun rest fuel hfuel => ?_
    simp only [body, List.length_cons] at hfuel
    obtain ⟨fuel, rfl⟩ : ∃ n, fuel = n + 1 := ⟨fuel - 1, by omega⟩
    have hitems := hes rest fuel (by omega)
    simp only [body, htoks, List.cons_append] at hitems ⊢
    cases t with
    | rbrace => exact absurd rfl hne
    | _ => simp only [parseUnary, hitems, Option.map_some]

theorem reads_items : ∀ es : List (Tree L U B), G.GroupedAll es → es ≠ [] →
    ∀ (rest : List (Token L S)) (fuel : ℕ), 4 * (G.items (S := S) es).length - 1 ≤ fuel →
    G.parseItems fuel (G.items es ++ rest) = some (es, rest)
  | [], _, hne, _, _, _ => absurd rfl hne
  | [e], h, _, rest, fuel, hfuel => by
    have he := reads e h.1
    simp only [items, List.length_append, List.length_cons, List.length_nil] at hfuel
    obtain ⟨fuel, rfl⟩ : ∃ n, fuel = n + 1 := ⟨fuel - 1, by omega⟩
    have hexpr := he.expr (.rbrace :: rest) fuel trivial (by omega)
    simp only [items, List.append_assoc, List.cons_append, List.nil_append, parseItems, hexpr]
  | e :: e' :: es, h, _, rest, fuel, hfuel => by
    have he := reads e h.1
    have hes := reads_items (e' :: es) h.2 (by simp)
    simp only [items, List.length_append, List.length_cons] at hfuel
    obtain ⟨fuel, rfl⟩ : ∃ n, fuel = n + 1 := ⟨fuel - 1, by omega⟩
    have hexpr := he.expr (.comma :: (G.items (e' :: es) ++ rest)) fuel trivial (by omega)
    have hitems := hes rest fuel (by omega)
    simp only [items, List.append_assoc, List.cons_append, parseItems, hexpr, hitems,
      Option.map_some]

end

/-- Reading is inverse to printing on grouped trees, whatever the level around. -/
theorem parse_print {e : Tree L U B} (h : G.Grouped e) (p : ℕ) :
    G.parse (G.print (S := S) e p) = some e := by
  have hexpr := (reads (S := S) e h).print_expr (4 * (G.print (S := S) e p).length + 2) p
    (show Closed [] from trivial) (Nat.le_refl _)
  rw [List.append_nil] at hexpr
  simp only [parse, hexpr]

/-! ## What the tokens of any tree read as -/

variable (G)

/-- A binary node whose right operand is taken apart along operators of its level. -/
def attach (op : B) (l : Tree L U B) : Tree L U B → Tree L U B
  | .binary op' x y =>
    if G.level op' = G.level op then .binary op' (attach op l x) y
    else .binary op l (.binary op' x y)
  | r => .binary op l r

/-- A ternary node whose condition is taken apart along ternary operators. -/
def attachTernary (t f : Tree L U B) : Tree L U B → Tree L U B
  | .ternary c₁ t₁ f₁ => .ternary c₁ t₁ (attachTernary t f f₁)
  | c => .ternary c t f

mutual

/-- The tree with the grouping its tokens carry. -/
def regroup : Tree L U B → Tree L U B
  | .leaf x => .leaf x
  | .unary op e => .unary op (regroup e)
  | .binary op l r => G.attach op (regroup l) (regroup r)
  | .ternary c t f => attachTernary (regroup t) (regroup f) (regroup c)
  | .group es => .group (regroupAll es)

def regroupAll : List (Tree L U B) → List (Tree L U B)
  | [] => []
  | e :: es => regroup e :: regroupAll es

end

variable {G}

theorem prec_binary (op : B) (l r : Tree L U B) : G.prec (.binary op l r) = G.level op := rfl

theorem prec_attach (op : B) (l r : Tree L U B) : G.prec (G.attach op l r) = G.level op := by
  cases r with
  | binary op' x y =>
    unfold attach
    split
    · assumption
    · rfl
  | _ => rfl

theorem body_attach (op : B) (l : Tree L U B) :
    ∀ r, G.body (S := S) (G.attach op l r) = G.body (.binary op l r)
  | .binary op' x y => by
    unfold attach
    split
    · rename_i hlevel
      have ih := body_attach op l x
      have hp := prec_attach (G := G) op l x
      simp only [body, prec_binary, hp, hlevel, paren_neg (Nat.lt_irrefl _)] at ih ⊢
      rw [ih]
      simp only [List.append_assoc, List.cons_append]
    · rfl
  | .leaf _ | .unary .. | .ternary .. | .group _ => rfl

theorem grouped_attach {op : B} {l : Tree L U B} (hl : G.Grouped l) :
    ∀ {r}, G.Grouped r → G.Grouped (G.attach op l r)
  | .binary op' x y, h => by
    unfold attach
    split
    · exact ⟨grouped_attach hl h.1, h.2.1, h.2.2⟩
    · rename_i hlevel
      exact ⟨hl, h, hlevel⟩
  | .leaf _, h => ⟨hl, h, by
      have := G.level_lt_unaryLevel op; simp only [prec]; omega⟩
  | .unary .., h => ⟨hl, h, by
      have := G.level_lt_unaryLevel op; simp only [prec]; omega⟩
  | .ternary .., h => ⟨hl, h, by
      have := G.one_lt_level op; simp only [prec]; omega⟩
  | .group _, h => ⟨hl, h, by
      have := G.level_lt_unaryLevel op; simp only [prec]; omega⟩

theorem prec_attachTernary (t f c : Tree L U B) : G.prec (attachTernary t f c) = 1 := by
  cases c <;> rfl

theorem body_ternary (c t f : Tree L U B) :
    G.body (S := S) (.ternary c t f) =
      G.body c ++ .question :: (G.body t ++ .colon :: G.body f) := by
  have h1 := fun e : Tree L U B => Nat.not_lt.mpr (prec_pos (G := G) e)
  simp only [body, paren_neg (h1 _)]

theorem body_attachTernary (t f : Tree L U B) :
    ∀ c, G.body (S := S) (attachTernary t f c) = G.body (.ternary c t f)
  | .ternary c₁ t₁ f₁ => by
    have ih := body_attachTernary t f f₁
    simp only [attachTernary, body_ternary] at ih ⊢
    rw [ih]
    simp only [List.append_assoc, List.cons_append]
  | .leaf _ | .unary .. | .binary .. | .group _ => rfl

theorem grouped_attachTernary {t f : Tree L U B} (ht : G.Grouped t) (hf : G.Grouped f) :
    ∀ {c}, G.Grouped c → G.Grouped (attachTernary t f c)
  | .ternary _ _ _, h => ⟨h.1, h.2.1, grouped_attachTernary ht hf h.2.2.1, h.2.2.2⟩
  | .leaf _, h => ⟨h, ht, hf, by have := G.one_lt_unaryLevel; simp only [prec]; omega⟩
  | .unary .., h => ⟨h, ht, hf, by have := G.one_lt_unaryLevel; simp only [prec]; omega⟩
  | .binary op _ _, h => ⟨h, ht, hf, by have := G.one_lt_level op; simp only [prec]; omega⟩
  | .group _, h => ⟨h, ht, hf, by have := G.one_lt_unaryLevel; simp only [prec]; omega⟩

theorem prec_regroup (e : Tree L U B) : G.prec (G.regroup e) = G.prec e := by
  cases e with
  | binary op l r => exact prec_attach op _ _
  | ternary c t f => exact prec_attachTernary _ _ _
  | _ => simp only [regroup, prec]

mutual

theorem body_regroup : ∀ e : Tree L U B, G.body (S := S) (G.regroup e) = G.body e
  | .leaf _ => rfl
  | .unary op e => by simp only [regroup, body, body_regroup e, prec_regroup]
  | .binary op l r => by
    simp only [regroup, body_attach, body, body_regroup l, body_regroup r, prec_regroup]
  | .ternary c t f => by
    simp only [regroup, body_attachTernary, body_ternary, body_regroup c, body_regroup t,
      body_regroup f]
  | .group es => by simp only [regroup, body, items_regroup es]

theorem items_regroup : ∀ es : List (Tree L U B),
    G.items (S := S) (G.regroupAll es) = G.items es
  | [] => rfl
  | [e] => by simp only [regroupAll, items, body_regroup e]
  | e :: e' :: es => by
    have ih := items_regroup (e' :: es)
    simp only [regroupAll] at ih
    simp only [regroupAll, items, body_regroup e, ih]

end

mutual

theorem grouped_regroup : ∀ e : Tree L U B, G.Grouped (G.regroup e)
  | .leaf _ => trivial
  | .unary _ e => grouped_regroup e
  | .binary _ l r => grouped_attach (grouped_regroup l) (grouped_regroup r)
  | .ternary c t f =>
    grouped_attachTernary (grouped_regroup t) (grouped_regroup f) (grouped_regroup c)
  | .group es => groupedAll_regroup es

theorem groupedAll_regroup : ∀ es : List (Tree L U B), G.GroupedAll (G.regroupAll es)
  | [] => trivial
  | e :: es => ⟨grouped_regroup e, groupedAll_regroup es⟩

end

/-- The tokens of any tree read as its regrouping. -/
theorem parse_print_regroup (e : Tree L U B) (p : ℕ) :
    G.parse (G.print (S := S) e p) = some (G.regroup e) := by
  have hprint : G.print (S := S) e p = G.print (G.regroup e) p := by
    simp only [print, prec_regroup, body_regroup]
  rw [hprint]
  exact parse_print (grouped_regroup e) p

/-- The grouped trees are exactly the ones that survive. -/
theorem parse_print_iff (e : Tree L U B) (p : ℕ) :
    G.parse (G.print (S := S) e p) = some e ↔ G.Grouped e := by
  constructor
  · intro h
    rw [parse_print_regroup, Option.some.injEq] at h
    exact h ▸ grouped_regroup e
  · exact fun h => parse_print h p

end Operators

end Precedence

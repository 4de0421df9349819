import Mathlib.Data.List.Basic

/-! # Parsing SELECT

The parser of a SELECT statement, over the parsers of expressions and of
statement lists, and the source text of the arms it reads.
-/

namespace JzHdl

/-- The tokens a SELECT statement is made of; every other token is opaque. -/
inductive SelectToken (τ : Type*) where

  | kwSelect | kwCase | kwDefault

  | lparen | rparen | lbrace | rbrace | semicolon

  | other (t : τ)

/-- A CASE or DEFAULT node with its statements. A CASE without braces has no statements. -/
inductive AstArm (ε σ : Type*) where

  | caseArm (value : ε) (body : List σ)

  | defaultArm (body : List σ)

structure AstSelect (ε σ : Type*) where

  selector : ε

  arms : List (AstArm ε σ)

section

variable {τ ε σ : Type*}

/-- A parser either fails with an error or returns a result and the remaining tokens. -/
abbrev TokenParser (τ α : Type*) := List (SelectToken τ) → Option (α × List (SelectToken τ))

variable (parseExpression : TokenParser τ ε) (parseStatementList : TokenParser τ (List σ))

/-- The arms up to the closing brace. The number of tokens bounds the number of rounds. -/
def parseSelectArms : ℕ → Bool → TokenParser τ (List (AstArm ε σ))
  | 0, _, _ => none
  | _ + 1, _, [] => none
  | fuel + 1, sawDefault, tok :: rest =>
    match tok with
    | .rbrace => some ([], rest)
    | .semicolon => parseSelectArms fuel sawDefault rest
    | .kwCase =>
      (parseExpression rest).bind fun (value, toks) =>
        match toks with
        | .lbrace :: toks =>
          (parseStatementList toks).bind fun (body, toks) =>
            (parseSelectArms fuel sawDefault toks).map fun (arms, toks) =>
              (.caseArm value body :: arms, toks)
        | .semicolon :: toks =>
          (parseSelectArms fuel sawDefault toks).map fun (arms, toks) =>
            (.caseArm value [] :: arms, toks)
        | toks =>
          (parseSelectArms fuel sawDefault toks).map fun (arms, toks) =>
            (.caseArm value [] :: arms, toks)
    | .kwDefault =>
      if sawDefault then none
      else
        match rest with
        | .lbrace :: toks =>
          (parseStatementList toks).bind fun (body, toks) =>
            (parseSelectArms fuel true toks).map fun (arms, toks) =>
              (.defaultArm body :: arms, toks)
        | _ => none
    | _ => none

/-- `parse_select_stmt`. -/
def parseSelectStmt : TokenParser τ (AstSelect ε σ)
  | .kwSelect :: .lparen :: toks =>
    (parseExpression toks).bind fun (selector, toks) =>
      match toks with
      | .rparen :: .lbrace :: toks =>
        (parseSelectArms parseExpression parseStatementList (toks.length + 1) false toks).map
          fun (arms, toks) => (⟨selector, arms⟩, toks)
      | _ => none
  | _ => none

end

/-! ## Source text -/

/-- An arm as written: a CASE without a body is a naked label. -/
inductive SourceArm (ε σ : Type*) where

  | caseArm (value : ε) (body : Option (List σ))

  | defaultArm (body : List σ)

namespace SourceArm

variable {τ ε σ : Type*}

def isDefault : SourceArm ε σ → Bool
  | .caseArm .. => false
  | .defaultArm _ => true

/-- The node that the parser builds. -/
def ast : SourceArm ε σ → AstArm ε σ
  | .caseArm value body => .caseArm value (body.getD [])
  | .defaultArm body => .defaultArm body

/-- The tokens of an arm followed by a number of semicolons. -/
def render (expr : ε → List (SelectToken τ)) (stmts : List σ → List (SelectToken τ)) :
    SourceArm ε σ → List (SelectToken τ)
  | .caseArm value none => .kwCase :: expr value
  | .caseArm value (some body) => .kwCase :: expr value ++ .lbrace :: stmts body ++ [.rbrace]
  | .defaultArm body => .kwDefault :: .lbrace :: stmts body ++ [.rbrace]

end SourceArm

/-- A SELECT statement as written; each arm is followed by some semicolons. -/
structure SourceSelect (ε σ : Type*) where

  selector : ε

  arms : List (SourceArm ε σ × ℕ)

  oneDefault : (arms.filter fun a => a.1.isDefault).length ≤ 1

section

variable {τ ε σ : Type*} (expr : ε → List (SelectToken τ)) (stmts : List σ → List (SelectToken τ))

def renderArms : List (SourceArm ε σ × ℕ) → List (SelectToken τ)
  | [] => [.rbrace]
  | (arm, semis) :: rest =>
    arm.render expr stmts ++ (List.replicate semis .semicolon ++ renderArms rest)

def SourceSelect.render (src : SourceSelect ε σ) : List (SelectToken τ) :=
  .kwSelect :: .lparen :: expr src.selector ++ .rparen :: .lbrace :: renderArms expr stmts src.arms

def SourceSelect.ast (src : SourceSelect ε σ) : AstSelect ε σ :=
  ⟨src.selector, src.arms.map fun a => a.1.ast⟩

/-- The tokens that end an expression of a SELECT statement. -/
def SelectToken.EndsExpr : SelectToken τ → Prop
  | .rparen | .lbrace | .rbrace | .semicolon | .kwCase | .kwDefault => True
  | .kwSelect | .lparen | .other _ => False

/-- The parsers of the parts read back what is written, up to the token that ends it. -/
structure ReadsBack (parseExpression : TokenParser τ ε)
    (parseStatementList : TokenParser τ (List σ)) : Prop where

  expr : ∀ e tok rest, tok.EndsExpr →
    parseExpression (expr e ++ tok :: rest) = some (e, tok :: rest)

  stmts : ∀ body rest, parseStatementList (stmts body ++ .rbrace :: rest) = some (body, rest)

variable {expr stmts} {parseExpression : TokenParser τ ε}
  {parseStatementList : TokenParser τ (List σ)}

theorem parseSelectArms_semis {fuel : ℕ} {saw : Bool} (n : ℕ) (toks : List (SelectToken τ)) :
    parseSelectArms parseExpression parseStatementList (n + fuel) saw
        (List.replicate n .semicolon ++ toks) =
      parseSelectArms parseExpression parseStatementList fuel saw toks := by
  induction n with
  | zero => simp
  | succ n ih =>
    rw [Nat.add_right_comm, List.replicate_succ, List.cons_append, parseSelectArms]
    exact ih

theorem renderArms_head (arms : List (SourceArm ε σ × ℕ)) (rest : List (SelectToken τ)) :
    ∃ tok toks, renderArms expr stmts arms ++ rest = tok :: toks ∧
      (tok = .rbrace ∨ tok = .kwCase ∨ tok = .kwDefault) := by
  cases arms with
  | nil => exact ⟨.rbrace, rest, rfl, .inl rfl⟩
  | cons a arms =>
    obtain ⟨arm, semis⟩ := a
    rcases arm with ⟨value, _ | body⟩ | body
    · exact ⟨.kwCase, _, rfl, .inr (.inl rfl)⟩
    · exact ⟨.kwCase, _, rfl, .inr (.inl rfl)⟩
    · exact ⟨.kwDefault, _, rfl, .inr (.inr rfl)⟩

def armRounds : List (SourceArm ε σ × ℕ) → ℕ
  | [] => 1
  | (_, semis) :: rest => 1 + semis + armRounds rest

theorem armRounds_le (arms : List (SourceArm ε σ × ℕ)) :
    armRounds arms ≤ (renderArms expr stmts arms).length := by
  induction arms with
  | nil => simp [armRounds, renderArms]
  | cons a arms ih =>
    obtain ⟨arm, semis⟩ := a
    have hpos : 1 ≤ (arm.render expr stmts).length := by
      rcases arm with ⟨value, _ | body⟩ | body <;> simp [SourceArm.render]
    simp only [armRounds, renderArms, List.length_append, List.length_replicate]
    omega

theorem parseSelectArms_skip {fuel : ℕ} {saw : Bool} {n : ℕ} (hn : n ≤ fuel)
    (toks : List (SelectToken τ)) :
    parseSelectArms parseExpression parseStatementList fuel saw
        (List.replicate n .semicolon ++ toks) =
      parseSelectArms parseExpression parseStatementList (fuel - n) saw toks := by
  obtain ⟨k, rfl⟩ := Nat.exists_eq_add_of_le hn
  rw [parseSelectArms_semis, Nat.add_sub_cancel_left]

/-- The arms are read back with their statements; a naked label has none. -/
theorem parseSelectArms_render (h : ReadsBack expr stmts parseExpression parseStatementList)
    (rest : List (SelectToken τ)) : ∀ (arms : List (SourceArm ε σ × ℕ)) (fuel : ℕ) (saw : Bool),
    armRounds arms ≤ fuel →
    saw.toNat + (arms.filter fun a => a.1.isDefault).length ≤ 1 →
    parseSelectArms parseExpression parseStatementList fuel saw
      (renderArms expr stmts arms ++ rest) = some (arms.map fun a => a.1.ast, rest)
  | [], 0, _, hf, _ | _ :: _, 0, _, hf, _ => by simp only [armRounds] at hf; omega
  | [], fuel + 1, _, _, _ => rfl
  | (arm, semis) :: arms, fuel + 1, saw, hf, hd => by
      rw [armRounds] at hf
      have htail : ∀ saw' : Bool, saw'.toNat + (arms.filter fun a => a.1.isDefault).length ≤ 1 →
          ∀ n, n ≤ semis → parseSelectArms parseExpression parseStatementList fuel saw'
            (List.replicate n .semicolon ++ (renderArms expr stmts arms ++ rest)) =
              some (arms.map fun a => a.1.ast, rest) := by
        intro saw' hs n hn
        rw [parseSelectArms_skip (by omega)]
        exact parseSelectArms_render h rest arms _ saw' (by omega) hs
      rcases arm with ⟨value, body⟩ | body
      · have hkeep : saw.toNat + (arms.filter fun a => a.1.isDefault).length ≤ 1 := by
          simpa [SourceArm.isDefault] using hd
        cases body with
        | some body =>
          simp only [renderArms, SourceArm.render, List.cons_append, List.append_assoc,
            List.nil_append, parseSelectArms, h.expr value .lbrace _ trivial, Option.bind_some,
            h.stmts, htail saw hkeep semis (Nat.le_refl _), Option.map_some,
            List.map_cons]
          rfl
        | none =>
          cases semis with
          | zero =>
            obtain ⟨tok, toks, heq, hend⟩ := @renderArms_head _ _ _ expr stmts arms rest
            have htail' := htail saw hkeep 0 (Nat.le_refl _)
            simp only [List.replicate_zero, List.nil_append, heq] at htail'
            simp only [renderArms, SourceArm.render, List.cons_append, List.replicate_zero,
              List.nil_append, List.append_assoc, heq]
            have hends : tok.EndsExpr := by rcases hend with rfl | rfl | rfl <;> trivial
            have hexpr := h.expr value tok toks hends
            rcases hend with rfl | rfl | rfl <;>
            · simp only [parseSelectArms, hexpr, Option.bind_some, htail', Option.map_some,
                List.map_cons]
              rfl
          | succ semis =>
            simp only [renderArms, SourceArm.render, List.cons_append, List.append_assoc,
              List.replicate_succ, parseSelectArms, h.expr value .semicolon _ trivial,
              Option.bind_some, htail saw hkeep semis (by omega), Option.map_some, List.map_cons]
            rfl
      · have hcount : saw = false ∧ (arms.filter fun a => a.1.isDefault).length = 0 := by
          rw [List.filter_cons_of_pos (by rfl), List.length_cons] at hd
          cases saw with
          | false => exact ⟨rfl, by simpa using hd⟩
          | true =>
            rw [Bool.toNat_true] at hd
            omega
        obtain ⟨rfl, hnone⟩ := hcount
        have hlater : (true : Bool).toNat + (arms.filter fun a => a.1.isDefault).length ≤ 1 := by
          rw [hnone]
          decide
        simp only [renderArms, SourceArm.render, List.cons_append, List.append_assoc,
          List.nil_append, parseSelectArms, Bool.false_eq_true, if_false, h.stmts, Option.bind_some,
          htail true hlater semis (Nat.le_refl _), Option.map_some,
            List.map_cons]
        rfl

/-- A SELECT statement is read back up to its braces: a naked label and an arm with empty braces
give the same node. -/
theorem parseSelectStmt_render (h : ReadsBack expr stmts parseExpression parseStatementList)
    (src : SourceSelect ε σ) (rest : List (SelectToken τ)) :
    parseSelectStmt parseExpression parseStatementList (src.render expr stmts ++ rest) =
      some (src.ast, rest) := by
  have hrounds := @armRounds_le _ _ _ expr stmts src.arms
  have hfuel : armRounds src.arms ≤ (renderArms expr stmts src.arms ++ rest).length + 1 := by
    rw [List.length_append]
    omega
  have harms := parseSelectArms_render h rest src.arms _ false hfuel
    (by simpa using src.oneDefault)
  simp only [SourceSelect.render, List.cons_append, List.append_assoc, parseSelectStmt,
    h.expr src.selector .rparen _ trivial, Option.bind_some, harms, Option.map_some]
  rfl

end

end JzHdl

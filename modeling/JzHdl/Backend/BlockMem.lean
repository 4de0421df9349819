import JzHdl.Backend.EmitExpr

/-! # Extraction of block memory writes

The backend takes the writes to block memories out of a clock domain. Each one
is recorded with the conditions above it, flattened to one condition and the
selector and label of the innermost `SELECT`, and printed under a guard.
-/

namespace JzHdl

open Precedence

def jzMaxIrDepth : ℕ := 512

/-! ## Reads of block memories -/

/-- A test that is only made when the one before it failed, with its depth flag. -/
def orElse (a b : Bool × Bool) : Bool × Bool := if a.1 then a else (b.1, a.2 || b.2)

/-- Below the depth limit the test goes on, at the limit it fails and raises the flag. -/
def withinDepth (room : ℕ) (f : ℕ → Bool × Bool) : Bool × Bool :=
  match room with
  | 0 => (false, true)
  | room + 1 => f room

section

variable (isBlock : String → Bool)

mutual

/-- Whether an expression reads a block memory, and whether the depth limit was met. -/
def exprHasBlockMemRead : IRExpr → ℕ → Bool × Bool
  | .null, _ => (false, false)
  | .memRead name _ _, room => withinDepth room fun _ => (isBlock name, false)
  | .ternary c t f, room => withinDepth room fun room =>
      orElse (exprHasBlockMemRead c room)
        (orElse (exprHasBlockMemRead t room) (exprHasBlockMemRead f room))
  | .binary op l r _, room => withinDepth room fun room =>
      if (infixText op).isSome then orElse (exprHasBlockMemRead l room) (exprHasBlockMemRead r room)
      else (false, false)
  | .unary _ e _, room => withinDepth room fun room => exprHasBlockMemRead e room
  | .concat es, room => withinDepth room fun room => exprsHaveBlockMemRead es room
  | .literal .., room | .signalRef .., room | .slice .., room | .sliceExpr .., room
  | .intrinsic .., room => withinDepth room fun _ => (false, false)

def exprsHaveBlockMemRead : List IRExpr → ℕ → Bool × Bool
  | [], _ => (false, false)
  | e :: es, room => orElse (exprHasBlockMemRead e room) (exprsHaveBlockMemRead es room)

end

/-! ## Accesses -/

/-- The guard of an access: a condition, and a selector with its label. -/
structure GuardCtx where

  condition : Option IRExpr

  selectSelector : Option IRExpr

  caseValue : Option IRExpr

structure BlockMemAccess where

  stmt : IRStmt

  isWrite : Bool

  memName : String

  guard : GuardCtx

def andWith (cond : Option IRExpr) (e : IRExpr) : IRExpr :=
  match cond with
  | some c => .binary .logicalAnd c e 1
  | none => e

namespace GuardCtx

variable (ctx : GuardCtx)

def thenCtx (c : IRExpr) : GuardCtx := { ctx with condition := some (andWith ctx.condition c) }

def elseCtx (c : IRExpr) : GuardCtx :=
  { ctx with condition := some (andWith ctx.condition (.unary .logicalNot c 1)) }

/-- The outer label is merged into the condition; a default arm has no label. -/
def caseCtx (selector caseValue : IRExpr) : GuardCtx where
  condition :=
    match ctx.selectSelector, ctx.caseValue with
    | some s, some v => some (andWith ctx.condition (.binary .eq s v 1))
    | _, _ => ctx.condition
  selectSelector := some selector
  caseValue := if caseValue.isNull then none else some caseValue

end GuardCtx

/-- The recorded accesses, and whether the depth limit was met. -/
abbrev Collected := List BlockMemAccess × Bool

def Collected.append (a b : Collected) : Collected := (a.1 ++ b.1, a.2 || b.2)

def Collected.within (room : ℕ) (f : ℕ → Collected) : Collected :=
  match room with
  | 0 => ([], true)
  | room + 1 => f room

mutual

/-- `collect_block_mem_accesses_internal`; `room` is what is left of the depth limit. -/
def collectAccesses : IRStmt → GuardCtx → ℕ → Collected
  | .null, _, _ => ([], false)
  | .memWrite name address data, ctx, room => Collected.within room fun _ =>
      (if isBlock name then [⟨.memWrite name address data, true, name, ctx⟩] else [], false)
  | .assignment a, ctx, room => Collected.within room fun _ =>
      let reads := exprHasBlockMemRead isBlock a.rhs jzMaxIrDepth
      let accesses := match a.rhs with
        | .memRead name _ _ =>
          if reads.1 && isBlock name then [⟨.assignment a, false, name, ctx⟩] else []
        | _ => []
      (accesses, reads.2)
  | .block stmts, ctx, room => Collected.within room fun room => collectBlock stmts ctx room
  | .ifStmt c t elif e, ctx, room => Collected.within room fun room =>
      (collectAccesses t (ctx.thenCtx c) room).append
        ((collectAccesses elif ctx room).append (collectAccesses e (ctx.elseCtx c) room))
  | .select selector cases, ctx, room => Collected.within room fun room =>
      collectCases selector cases ctx room

def collectCases (selector : IRExpr) : List (IRExpr × IRStmt) → GuardCtx → ℕ → Collected
  | [], _, _ => ([], false)
  | (v, body) :: rest, ctx, room =>
    (collectAccesses body (ctx.caseCtx selector v) room).append
      (collectCases selector rest ctx room)

def collectBlock : List IRStmt → GuardCtx → ℕ → Collected
  | [], _, _ => ([], false)
  | stmt :: rest, ctx, room =>
    (collectAccesses stmt ctx room).append (collectBlock rest ctx room)

end

/-- `collect_block_mem_accesses`: a tree beyond the depth limit records nothing at all. -/
def collectBlockMemAccesses (stmt : IRStmt) : List BlockMemAccess :=
  let r := collectAccesses isBlock stmt ⟨none, none, none⟩ jzMaxIrDepth
  if r.2 then [] else r.1

end

/-- The text of a guard; the parts are printed without parentheses around them. -/
def emitBsramCondition (ectx : EmitContext) (g : GuardCtx) : List VerilogToken :=
  match g.condition, g.selectSelector, g.caseValue with
  | some c, some s, some v =>
    emitExpr ectx c ++ .sym "&&" :: (emitExpr ectx s ++ .sym "==" :: emitExpr ectx v)
  | none, some s, some v => emitExpr ectx s ++ .sym "==" :: emitExpr ectx v
  | some c, _, _ => emitExpr ectx c
  | none, _, _ => []

def GuardCtx.hasCondition (g : GuardCtx) : Bool :=
  (g.selectSelector.isSome && g.caseValue.isSome) || g.condition.isSome

/-! ## Reading a guard -/

theorem infixText_and : (infixText .logicalAnd).isSome = true := rfl

theorem infixText_or : (infixText .logicalOr).isSome = true := rfl

/-- A meaning of the operators in which the logical ones are what they are in Verilog. -/
structure Valuation where

  Value : Type

  leaf : String → Value

  unary : IRUnaryOp → Value → Value

  binary : InfixOp → Value → Value → Value

  ternary : Value → Value → Value → Value

  group : List Value → Value

  truth : Value → Bool

  truth_and : ∀ a b, truth (binary ⟨.logicalAnd, infixText_and⟩ a b) = (truth a && truth b)

  truth_or : ∀ a b, truth (binary ⟨.logicalOr, infixText_or⟩ a b) = (truth a || truth b)

  truth_not : ∀ a, truth (unary .logicalNot a) = !truth a

namespace Valuation

variable (V : Valuation)

mutual

def eval : Tree String IRUnaryOp InfixOp → V.Value
  | .leaf x => V.leaf x
  | .unary op e => V.unary op (eval e)
  | .binary op l r => V.binary op (eval l) (eval r)
  | .ternary c t f => V.ternary (eval c) (eval t) (eval f)
  | .group es => V.group (evalAll es)

def evalAll : List (Tree String IRUnaryOp InfixOp) → List V.Value
  | [] => []
  | e :: es => eval e :: evalAll es

end

variable (ectx : EmitContext)

/-- Whether a condition of the tree holds. -/
def holds (e : IRExpr) : Bool := V.truth (V.eval (shape ectx e))

/-- Whether the text of a guard holds. Without a guard the write always happens. -/
def guardHolds (g : GuardCtx) : Option Bool :=
  if g.hasCondition then (verilog.parse (emitBsramCondition ectx g)).map fun e => V.truth (V.eval e)
  else some true

end Valuation

/-! ## Execution -/

section

variable (isBlock : String → Bool) (V : Valuation) (ectx : EmitContext)

/-- Whether a label is the default or equals the selector. -/
def labelMatches (selector caseValue : IRExpr) : Bool :=
  caseValue.isNull || V.holds ectx (.binary .eq selector caseValue 1)

def elifTaken : IRStmt → Bool
  | .ifStmt c _ elif _ => V.holds ectx c || elifTaken elif
  | _ => false

mutual

/-- The block memory writes that executing the tree reaches, in order. -/
def execWrites : IRStmt → List IRStmt
  | .null | .assignment _ => []
  | .memWrite name address data =>
    if isBlock name then [.memWrite name address data] else []
  | .block stmts => execWritesBlock stmts
  | .ifStmt c t elif e =>
    if V.holds ectx c then execWrites t
    else if elifTaken V ectx elif then execWritesElif elif else execWrites e
  | .select selector cases => execWritesCases selector cases

/-- The arm of an elif chain that is taken. -/
def execWritesElif : IRStmt → List IRStmt
  | .ifStmt c t elif _ => if V.holds ectx c then execWrites t else execWritesElif elif
  | _ => []

def execWritesCases (selector : IRExpr) : List (IRExpr × IRStmt) → List IRStmt
  | [] => []
  | (v, body) :: rest =>
    if labelMatches V ectx selector v then execWrites body else execWritesCases selector rest

def execWritesBlock : List IRStmt → List IRStmt
  | [] => []
  | stmt :: rest => execWrites stmt ++ execWritesBlock rest

end

mutual

/-- Every block memory write of the tree with whether it is reached, given whether the tree is. -/
def reachedWrites : IRStmt → Bool → List (IRStmt × Bool)
  | .null, _ | .assignment _, _ => []
  | .memWrite name address data, on =>
    if isBlock name then [(.memWrite name address data, on)] else []
  | .block stmts, on => reachedBlock stmts on
  | .ifStmt c t elif e, on =>
    reachedWrites t (on && V.holds ectx c) ++ (reachedElif elif (on && !V.holds ectx c) ++
      reachedWrites e (on && !V.holds ectx c && !elifTaken V ectx elif))
  | .select selector cases, on => reachedCases selector cases on

/-- The else block of a chain's inner link and anything but an `IF` are never reached. -/
def reachedElif : IRStmt → Bool → List (IRStmt × Bool)
  | .ifStmt c t elif e, on =>
    reachedWrites t (on && V.holds ectx c) ++ (reachedElif elif (on && !V.holds ectx c) ++
      reachedWrites e false)
  | .null, _ | .assignment _, _ => []
  | .memWrite name address data, _ =>
    if isBlock name then [(.memWrite name address data, false)] else []
  | .block stmts, _ => reachedBlock stmts false
  | .select selector cases, _ => reachedCases selector cases false

def reachedCases (selector : IRExpr) : List (IRExpr × IRStmt) → Bool → List (IRStmt × Bool)
  | [], _ => []
  | (v, body) :: rest, on =>
    reachedWrites body (on && labelMatches V ectx selector v) ++
      reachedCases selector rest (on && !labelMatches V ectx selector v)

def reachedBlock : List IRStmt → Bool → List (IRStmt × Bool)
  | [], _ => []
  | stmt :: rest, on => reachedWrites stmt on ++ reachedBlock rest on

end

end

end JzHdl

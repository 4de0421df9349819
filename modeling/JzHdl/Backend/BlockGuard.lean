import JzHdl.Backend.BlockMem

/-! # Guards of extracted writes

A recorded guard holds exactly when its write is reached, as long as every arm
with a write is the one taken whenever its own label holds, and the expressions
of the guard keep their grouping when they are printed one after another.
-/

namespace JzHdl

open Precedence

section

variable (isBlock : String → Bool)

/-! ## The writes of a tree -/

mutual

def blockWrites : IRStmt → List IRStmt
  | .null | .assignment _ => []
  | .memWrite name address data =>
    if isBlock name then [.memWrite name address data] else []
  | .block stmts => blockWritesAll stmts
  | .ifStmt _ t elif e => blockWrites t ++ (blockWrites elif ++ blockWrites e)
  | .select _ cases => blockWritesCases cases

def blockWritesCases : List (IRExpr × IRStmt) → List IRStmt
  | [] => []
  | (_, body) :: rest => blockWrites body ++ blockWritesCases rest

def blockWritesAll : List IRStmt → List IRStmt
  | [] => []
  | stmt :: rest => blockWrites stmt ++ blockWritesAll rest

end

mutual

/-- The tree and the expressions it assigns stay within the depth limit. -/
def Within : IRStmt → ℕ → Prop
  | .null, _ => True
  | .memWrite .., room => 0 < room
  | .assignment a, room => 0 < room ∧ (exprHasBlockMemRead isBlock a.rhs jzMaxIrDepth).2 = false
  | .block stmts, room => 0 < room ∧ WithinAll stmts (room - 1)
  | .ifStmt _ t elif e, room =>
    0 < room ∧ Within t (room - 1) ∧ Within elif (room - 1) ∧ Within e (room - 1)
  | .select _ cases, room => 0 < room ∧ WithinCases cases (room - 1)

def WithinCases : List (IRExpr × IRStmt) → ℕ → Prop
  | [], _ => True
  | (_, body) :: rest, room => Within body room ∧ WithinCases rest room

def WithinAll : List IRStmt → ℕ → Prop
  | [], _ => True
  | stmt :: rest, room => Within stmt room ∧ WithinAll rest room

end

section

variable (P : GuardCtx → Prop)

mutual

/-- A property of the guard of every block memory write. -/
def AtWrites : IRStmt → GuardCtx → Prop
  | .null, _ | .assignment _, _ => True
  | .memWrite name _ _, g => isBlock name → P g
  | .block stmts, g => AtWritesAll stmts g
  | .ifStmt c t elif e, g =>
    AtWrites t (g.thenCtx c) ∧ AtWrites elif g ∧ AtWrites e (g.elseCtx c)
  | .select selector cases, g => AtWritesCases selector cases g

def AtWritesCases (selector : IRExpr) : List (IRExpr × IRStmt) → GuardCtx → Prop
  | [], _ => True
  | (v, body) :: rest, g =>
    AtWrites body (g.caseCtx selector v) ∧ AtWritesCases selector rest g

def AtWritesAll : List IRStmt → GuardCtx → Prop
  | [], _ => True
  | stmt :: rest, g => AtWrites stmt g ∧ AtWritesAll rest g

end

end

section

variable (V : Valuation) (ectx : EmitContext)

mutual

/--
Whenever the own label of an arm with a write holds, that arm is the one taken:
no arm before it. An `ELSE` has the first condition of its chain as label.
-/
def ArmsTaken : IRStmt → Bool → Prop
  | .null, _ | .assignment _, _ | .memWrite .., _ => True
  | .block stmts, on => ArmsTakenAll stmts on
  | .ifStmt c t elif e, on =>
    ArmsTaken t (on && V.holds ectx c) ∧ ElifTaken on elif (on && !V.holds ectx c) ∧
      (blockWrites isBlock e = [] ∨
        (on && !V.holds ectx c) = (on && !V.holds ectx c && !elifTaken V ectx elif) ∧
          ArmsTaken e (on && !V.holds ectx c && !elifTaken V ectx elif))
  | .select selector cases, on => CasesTaken selector on cases on

/-- The links of an elif chain under a guard `g`, of which `on` is left. -/
def ElifTaken (g : Bool) : IRStmt → Bool → Prop
  | .ifStmt c t elif e, on =>
    (blockWrites isBlock t = [] ∨
      (g && V.holds ectx c) = (on && V.holds ectx c) ∧ ArmsTaken t (on && V.holds ectx c)) ∧
    ElifTaken g elif (on && !V.holds ectx c) ∧
    (blockWrites isBlock e = [] ∨ (g && !V.holds ectx c) = false ∧ ArmsTaken e false)
  | .null, _ | .assignment _, _ => True
  | .memWrite name _ _, _ => isBlock name → g = false
  | .block stmts, _ => g = false ∧ ArmsTakenAll stmts false
  | .select selector cases, _ => g = false ∧ CasesTaken selector false cases false

def CasesTaken (selector : IRExpr) (g : Bool) : List (IRExpr × IRStmt) → Bool → Prop
  | [], _ => True
  | (v, body) :: rest, on =>
    (blockWrites isBlock body = [] ∨
      (g && labelMatches V ectx selector v) = (on && labelMatches V ectx selector v) ∧
        ArmsTaken body (on && labelMatches V ectx selector v)) ∧
    CasesTaken selector g rest (on && !labelMatches V ectx selector v)

def ArmsTakenAll : List IRStmt → Bool → Prop
  | [], _ => True
  | stmt :: rest, on => ArmsTaken stmt on ∧ ArmsTakenAll rest on

end

end

end

/-! ## What a guard says -/

/-- The expression that a guard stands for. -/
def GuardCtx.expr (g : GuardCtx) : Option IRExpr :=
  match g.selectSelector, g.caseValue with
  | some s, some v => some (andWith g.condition (.binary .eq s v 1))
  | _, _ => g.condition

namespace Valuation

variable {V : Valuation} {ectx : EmitContext}

def optHolds (V : Valuation) (ectx : EmitContext) (e : Option IRExpr) : Bool :=
  e.elim true (V.holds ectx)

theorem holds_andWith (cond : Option IRExpr) (e : IRExpr) :
    V.holds ectx (andWith cond e) = (V.optHolds ectx cond && V.holds ectx e) := by
  cases cond with
  | none => rfl
  | some c =>
    simp only [andWith, holds, shape_binary (show (infixText .logicalAnd).isSome from rfl), eval]
    exact V.truth_and _ _

theorem holds_not (c : IRExpr) : V.holds ectx (.unary .logicalNot c 1) = !V.holds ectx c := by
  simp only [holds, shape, eval]
  exact V.truth_not _

theorem optHolds_expr (g : GuardCtx) : V.optHolds ectx g.expr =
    match g.selectSelector, g.caseValue with
    | some s, some v => V.optHolds ectx g.condition && V.holds ectx (.binary .eq s v 1)
    | _, _ => V.optHolds ectx g.condition := by
  unfold GuardCtx.expr
  split
  · simp only [optHolds, Option.elim_some, holds_andWith]
  · rfl

theorem optHolds_thenCtx (g : GuardCtx) (c : IRExpr) :
    V.optHolds ectx (g.thenCtx c).expr = (V.optHolds ectx g.expr && V.holds ectx c) := by
  rw [optHolds_expr, optHolds_expr]
  simp only [GuardCtx.thenCtx]
  split <;> simp only [optHolds, Option.elim_some, holds_andWith, Bool.and_right_comm]

theorem optHolds_elseCtx (g : GuardCtx) (c : IRExpr) :
    V.optHolds ectx (g.elseCtx c).expr = (V.optHolds ectx g.expr && !V.holds ectx c) := by
  rw [← holds_not]
  exact optHolds_thenCtx g _

theorem optHolds_caseCtx (g : GuardCtx) (selector v : IRExpr) :
    V.optHolds ectx (g.caseCtx selector v).expr =
      (V.optHolds ectx g.expr && labelMatches V ectx selector v) := by
  have hcond : V.optHolds ectx (g.caseCtx selector v).condition = V.optHolds ectx g.expr := by
    rw [optHolds_expr]
    rcases g with ⟨cond, _ | s, _ | w⟩
    · rfl
    · rfl
    · rfl
    · simp only [GuardCtx.caseCtx, optHolds, Option.elim_some, holds_andWith]
  rw [optHolds_expr, labelMatches, ← hcond]
  by_cases hv : v.isNull = true
  · simp [GuardCtx.caseCtx, hv]
  · simp [GuardCtx.caseCtx, hv]

end Valuation

/-! ## Recording -/

section

variable {isBlock : String → Bool} {V : Valuation} {ectx : EmitContext}

/-- The recorded writes. -/
def Collected.writes (r : Collected) : List BlockMemAccess := r.1.filter (·.isWrite)

theorem Collected.writes_append (a b : Collected) : (a.append b).writes = a.writes ++ b.writes :=
  List.filter_append ..

theorem Collected.within_pos {room : ℕ} (h : 0 < room) (f : ℕ → Collected) :
    Collected.within room f = f (room - 1) := by
  obtain ⟨room, rfl⟩ : ∃ n, room = n + 1 := ⟨room - 1, by omega⟩
  rfl

/-- A read is recorded, but it is not a write. -/
theorem writes_assignment (a : IRAssignment) (g : GuardCtx) {room : ℕ} (h : 0 < room) :
    (collectAccesses isBlock (.assignment a) g room).writes = [] := by
  unfold collectAccesses Collected.writes
  rw [Collected.within_pos h]
  cases a.rhs with
  | memRead name _ _ =>
    simp only
    split <;> simp
  | _ => rfl

theorem map_if_singleton {α β : Type} (b : Bool) (f : α → β) (x : α) :
    (if b then [x] else []).map f = if b then [f x] else [] := by
  cases b <;> rfl

theorem writes_memWrite (name : String) (address data : IRExpr) (g : GuardCtx) {room : ℕ}
    (h : 0 < room) : (collectAccesses isBlock (.memWrite name address data) g room).writes =
      if isBlock name then [⟨.memWrite name address data, true, name, g⟩] else [] := by
  unfold collectAccesses Collected.writes
  rw [Collected.within_pos h]
  simp only
  split <;> simp

mutual

/-- Within the depth limit every write is recorded once, in order. -/
theorem collect_writes : ∀ (stmt : IRStmt) (g : GuardCtx) (room : ℕ), Within isBlock stmt room →
    (collectAccesses isBlock stmt g room).writes.map (·.stmt) = blockWrites isBlock stmt ∧
      (collectAccesses isBlock stmt g room).2 = false
  | .null, g, room, _ => ⟨rfl, rfl⟩
  | .assignment a, g, room, h => by
    refine ⟨by rw [writes_assignment a g h.1]; rfl, ?_⟩
    rw [collectAccesses, Collected.within_pos h.1]
    exact h.2
  | .memWrite name address data, g, room, h => by
    refine ⟨by rw [writes_memWrite name address data g h, map_if_singleton]; rfl, ?_⟩
    rw [collectAccesses, Collected.within_pos h]
  | .block stmts, g, room, h => by
    rw [collectAccesses, Collected.within_pos h.1]
    exact collect_writesBlock stmts g _ h.2
  | .ifStmt c t elif e, g, room, h => by
    obtain ⟨hpos, ht, helif, he⟩ := h
    have ht := collect_writes t (g.thenCtx c) _ ht
    have helif := collect_writes elif g _ helif
    have he := collect_writes e (g.elseCtx c) _ he
    rw [collectAccesses, Collected.within_pos hpos]
    refine ⟨?_, ?_⟩
    · simp only [Collected.writes_append, List.map_append, ht.1, helif.1, he.1, blockWrites]
    · simp only [Collected.append, ht.2, helif.2, he.2, Bool.or_self]
  | .select selector cases, g, room, h => by
    rw [collectAccesses, Collected.within_pos h.1]
    exact collect_writesCases selector cases g _ h.2

theorem collect_writesCases (selector : IRExpr) : ∀ (cases : List (IRExpr × IRStmt))
    (g : GuardCtx) (room : ℕ), WithinCases isBlock cases room →
    (collectCases isBlock selector cases g room).writes.map (·.stmt) =
        blockWritesCases isBlock cases ∧
      (collectCases isBlock selector cases g room).2 = false
  | [], g, room, _ => ⟨rfl, rfl⟩
  | (v, body) :: rest, g, room, h => by
    have hbody := collect_writes body (g.caseCtx selector v) _ h.1
    have hrest := collect_writesCases selector rest g _ h.2
    refine ⟨?_, ?_⟩
    · simp only [collectCases, Collected.writes_append, List.map_append, hbody.1, hrest.1,
        blockWritesCases]
    · simp only [collectCases, Collected.append, hbody.2, hrest.2, Bool.or_self]

theorem collect_writesBlock : ∀ (stmts : List IRStmt) (g : GuardCtx) (room : ℕ),
    WithinAll isBlock stmts room →
    (collectBlock isBlock stmts g room).writes.map (·.stmt) = blockWritesAll isBlock stmts ∧
      (collectBlock isBlock stmts g room).2 = false
  | [], g, room, _ => ⟨rfl, rfl⟩
  | stmt :: rest, g, room, h => by
    have hstmt := collect_writes stmt g _ h.1
    have hrest := collect_writesBlock rest g _ h.2
    refine ⟨?_, ?_⟩
    · simp only [collectBlock, Collected.writes_append, List.map_append, hstmt.1, hrest.1,
        blockWritesAll]
    · simp only [collectBlock, Collected.append, hstmt.2, hrest.2, Bool.or_self]

end

mutual

theorem reached_writes : ∀ (stmt : IRStmt) (on : Bool),
    (reachedWrites isBlock V ectx stmt on).map Prod.fst = blockWrites isBlock stmt
  | .null, _ | .assignment _, _ => rfl
  | .memWrite name address data, on => map_if_singleton _ _ _
  | .block stmts, on => reached_writesBlock stmts on
  | .ifStmt c t elif e, on => by
    simp only [reachedWrites, blockWrites, List.map_append, reached_writes t,
      reached_writesElif elif, reached_writes e]
  | .select selector cases, on => reached_writesCases selector cases on

theorem reached_writesElif : ∀ (stmt : IRStmt) (on : Bool),
    (reachedElif isBlock V ectx stmt on).map Prod.fst = blockWrites isBlock stmt
  | .null, _ | .assignment _, _ => rfl
  | .memWrite name address data, on => map_if_singleton _ _ _
  | .block stmts, on => reached_writesBlock stmts false
  | .ifStmt c t elif e, on => by
    simp only [reachedElif, blockWrites, List.map_append, reached_writes t,
      reached_writesElif elif, reached_writes e]
  | .select selector cases, on => reached_writesCases selector cases false

theorem reached_writesCases (selector : IRExpr) : ∀ (cases : List (IRExpr × IRStmt)) (on : Bool),
    (reachedCases isBlock V ectx selector cases on).map Prod.fst = blockWritesCases isBlock cases
  | [], _ => rfl
  | (v, body) :: rest, on => by
    simp only [reachedCases, blockWritesCases, List.map_append, reached_writes body,
      reached_writesCases selector rest]

theorem reached_writesBlock : ∀ (stmts : List IRStmt) (on : Bool),
    (reachedBlock isBlock V ectx stmts on).map Prod.fst = blockWritesAll isBlock stmts
  | [], _ => rfl
  | stmt :: rest, on => by
    simp only [reachedBlock, blockWritesAll, List.map_append, reached_writes stmt,
      reached_writesBlock rest]

end

/-! ## Reaching -/

/-- The writes marked as reached. -/
def marked (ws : List (IRStmt × Bool)) : List IRStmt := (ws.filter (·.2)).map Prod.fst

theorem marked_append (a b : List (IRStmt × Bool)) : marked (a ++ b) = marked a ++ marked b := by
  simp only [marked, List.filter_append, List.map_append]

/-- A chain of which no condition holds takes no arm. -/
theorem execWritesElif_untaken : ∀ (stmt : IRStmt), elifTaken V ectx stmt = false →
    execWritesElif isBlock V ectx stmt = []
  | .ifStmt c t elif e, h => by
    simp only [elifTaken, Bool.or_eq_false_iff] at h
    simp only [execWritesElif, h.1, Bool.false_eq_true, if_false]
    exact execWritesElif_untaken elif h.2
  | .null, _ | .assignment _, _ | .memWrite .., _ | .block _, _ | .select .., _ => rfl

mutual

theorem marked_reached : ∀ (stmt : IRStmt) (on : Bool),
    marked (reachedWrites isBlock V ectx stmt on) =
      if on then execWrites isBlock V ectx stmt else []
  | .null, on | .assignment _, on => by cases on <;> rfl
  | .memWrite name address data, on => by
    unfold reachedWrites execWrites
    cases on <;> cases isBlock name <;> rfl
  | .block stmts, on => marked_reachedBlock stmts on
  | .ifStmt c t elif e, on => by
    simp only [reachedWrites, execWrites, marked_append, marked_reached t, marked_reached e,
      marked_reachedElif elif]
    cases on <;> cases V.holds ectx c <;> cases hel : elifTaken V ectx elif <;> simp
    exact execWritesElif_untaken elif hel
  | .select selector cases, on => marked_reachedCases selector cases on

theorem marked_reachedElif : ∀ (stmt : IRStmt) (on : Bool),
    marked (reachedElif isBlock V ectx stmt on) =
      if on then execWritesElif isBlock V ectx stmt else []
  | .null, on | .assignment _, on => by cases on <;> rfl
  | .memWrite name address data, on => by
    unfold reachedElif execWritesElif
    cases on <;> cases isBlock name <;> rfl
  | .block stmts, on => by
    have h := marked_reachedBlock stmts false
    simpa [reachedElif, execWritesElif] using h
  | .ifStmt c t elif e, on => by
    simp only [reachedElif, execWritesElif, marked_append, marked_reached t, marked_reached e,
      marked_reachedElif elif]
    cases on <;> cases V.holds ectx c <;> simp
  | .select selector cases, on => by
    have h := marked_reachedCases selector cases false
    simpa [reachedElif, execWritesElif] using h

theorem marked_reachedCases (selector : IRExpr) : ∀ (cases : List (IRExpr × IRStmt)) (on : Bool),
    marked (reachedCases isBlock V ectx selector cases on) =
      if on then execWritesCases isBlock V ectx selector cases else []
  | [], on => by cases on <;> rfl
  | (v, body) :: rest, on => by
    simp only [reachedCases, execWritesCases, marked_append, marked_reached body,
      marked_reachedCases selector rest]
    cases on <;> cases labelMatches V ectx selector v <;> simp

theorem marked_reachedBlock : ∀ (stmts : List IRStmt) (on : Bool),
    marked (reachedBlock isBlock V ectx stmts on) =
      if on then execWritesBlock isBlock V ectx stmts else []
  | [], on => by cases on <;> rfl
  | stmt :: rest, on => by
    simp only [reachedBlock, execWritesBlock, marked_append, marked_reached stmt,
      marked_reachedBlock rest]
    cases on <;> simp

end

/-! ## Guards and reaching -/

/-- A recorded write with what its guard says. -/
def guardedWrite (V : Valuation) (ectx : EmitContext) (a : BlockMemAccess) : IRStmt × Bool :=
  (a.stmt, V.optHolds ectx a.guard.expr)

theorem writes_nil_of_blockWrites {stmt : IRStmt} {g : GuardCtx} {room : ℕ}
    (h : Within isBlock stmt room) (hnone : blockWrites isBlock stmt = []) :
    (collectAccesses isBlock stmt g room).writes = [] := by
  have hmap := (collect_writes stmt g room h).1
  rw [hnone] at hmap
  exact List.map_eq_nil_iff.mp hmap

theorem reached_nil_of_blockWrites {stmt : IRStmt} {on : Bool}
    (hnone : blockWrites isBlock stmt = []) : reachedWrites isBlock V ectx stmt on = [] := by
  have hmap := @reached_writes isBlock V ectx stmt on
  rw [hnone] at hmap
  exact List.map_eq_nil_iff.mp hmap

mutual

/-- The guards say what executing the tree does when the tree's own guard does. -/
theorem guarded_writes : ∀ (stmt : IRStmt) (g : GuardCtx) (room : ℕ) (on : Bool),
    Within isBlock stmt room → ArmsTaken isBlock V ectx stmt on →
    V.optHolds ectx g.expr = on →
    (collectAccesses isBlock stmt g room).writes.map (guardedWrite V ectx) =
      reachedWrites isBlock V ectx stmt on
  | .null, g, room, on, _, _, _ => rfl
  | .assignment a, g, room, on, h, _, _ => by rw [writes_assignment a g h.1]; rfl
  | .memWrite name address data, g, room, on, h, _, hg => by
    rw [writes_memWrite name address data g h, map_if_singleton, guardedWrite, hg]
    rfl
  | .block stmts, g, room, on, h, harms, hg => by
    rw [collectAccesses, Collected.within_pos h.1]
    exact guarded_writesBlock stmts g _ on h.2 harms hg
  | .ifStmt c t elif e, g, room, on, h, harms, hg => by
    obtain ⟨hpos, ht, helif, he⟩ := h
    obtain ⟨hat, haelif, hae⟩ := harms
    have hthen := guarded_writes t (g.thenCtx c) _ _ ht hat
      (by rw [Valuation.optHolds_thenCtx, hg])
    have hchain := guarded_writesElif elif g _ on _ helif haelif hg
    have helse : (collectAccesses isBlock e (g.elseCtx c) (room - 1)).writes.map
        (guardedWrite V ectx) = reachedWrites isBlock V ectx e
          (on && !V.holds ectx c && !elifTaken V ectx elif) := by
      rcases hae with hnone | ⟨heq, hae⟩
      · rw [writes_nil_of_blockWrites he hnone, reached_nil_of_blockWrites hnone, List.map_nil]
      · exact guarded_writes e (g.elseCtx c) _ _ he hae
          (by rw [Valuation.optHolds_elseCtx, hg, ← heq])
    rw [collectAccesses, Collected.within_pos hpos]
    simp only [Collected.writes_append, List.map_append, hthen, hchain, helse, reachedWrites]
  | .select selector cases, g, room, on, h, harms, hg => by
    rw [collectAccesses, Collected.within_pos h.1]
    exact guarded_writesCases selector cases g _ on on h.2 harms hg

theorem guarded_writesElif : ∀ (stmt : IRStmt) (g : GuardCtx) (room : ℕ) (gOn on : Bool),
    Within isBlock stmt room → ElifTaken isBlock V ectx gOn stmt on →
    V.optHolds ectx g.expr = gOn →
    (collectAccesses isBlock stmt g room).writes.map (guardedWrite V ectx) =
      reachedElif isBlock V ectx stmt on
  | .null, g, room, gOn, on, _, _, _ => rfl
  | .assignment a, g, room, gOn, on, h, _, _ => by rw [writes_assignment a g h.1]; rfl
  | .memWrite name address data, g, room, gOn, on, h, harms, hg => by
    rw [writes_memWrite name address data g h, map_if_singleton, guardedWrite, hg]
    unfold reachedElif
    by_cases hb : isBlock name = true
    · rw [if_pos hb, if_pos hb, harms hb]
    · rw [if_neg hb, if_neg hb]
  | .block stmts, g, room, gOn, on, h, ⟨hoff, harms⟩, hg => by
    rw [collectAccesses, Collected.within_pos h.1]
    exact guarded_writesBlock stmts g _ false h.2 harms (hg.trans hoff)
  | .ifStmt c t elif e, g, room, gOn, on, h, harms, hg => by
    obtain ⟨hpos, ht, helif, he⟩ := h
    obtain ⟨hat, haelif, hae⟩ := harms
    have hthen : (collectAccesses isBlock t (g.thenCtx c) (room - 1)).writes.map
        (guardedWrite V ectx) = reachedWrites isBlock V ectx t (on && V.holds ectx c) := by
      rcases hat with hnone | ⟨heq, hat⟩
      · rw [writes_nil_of_blockWrites ht hnone, reached_nil_of_blockWrites hnone, List.map_nil]
      · exact guarded_writes t (g.thenCtx c) _ _ ht hat
          (by rw [Valuation.optHolds_thenCtx, hg, heq])
    have hchain := guarded_writesElif elif g _ gOn _ helif haelif hg
    have helse : (collectAccesses isBlock e (g.elseCtx c) (room - 1)).writes.map
        (guardedWrite V ectx) = reachedWrites isBlock V ectx e false := by
      rcases hae with hnone | ⟨heq, hae⟩
      · rw [writes_nil_of_blockWrites he hnone, reached_nil_of_blockWrites hnone, List.map_nil]
      · exact guarded_writes e (g.elseCtx c) _ _ he hae
          (by rw [Valuation.optHolds_elseCtx, hg, heq])
    rw [collectAccesses, Collected.within_pos hpos]
    simp only [Collected.writes_append, List.map_append, hthen, hchain, helse, reachedElif]
  | .select selector cases, g, room, gOn, on, h, ⟨hoff, harms⟩, hg => by
    rw [collectAccesses, Collected.within_pos h.1]
    exact guarded_writesCases selector cases g _ false false h.2 harms (hg.trans hoff)

theorem guarded_writesCases (selector : IRExpr) : ∀ (cases : List (IRExpr × IRStmt))
    (g : GuardCtx) (room : ℕ) (gOn on : Bool), WithinCases isBlock cases room →
    CasesTaken isBlock V ectx selector gOn cases on → V.optHolds ectx g.expr = gOn →
    (collectCases isBlock selector cases g room).writes.map (guardedWrite V ectx) =
      reachedCases isBlock V ectx selector cases on
  | [], g, room, gOn, on, _, _, _ => rfl
  | (v, body) :: rest, g, room, gOn, on, h, ⟨harm, harms⟩, hg => by
    have hrest := guarded_writesCases selector rest g room gOn _ h.2 harms hg
    have hbody : (collectAccesses isBlock body (g.caseCtx selector v) room).writes.map
        (guardedWrite V ectx) =
        reachedWrites isBlock V ectx body (on && labelMatches V ectx selector v) := by
      rcases harm with hnone | ⟨heq, harm⟩
      · rw [writes_nil_of_blockWrites h.1 hnone, reached_nil_of_blockWrites hnone, List.map_nil]
      · exact guarded_writes body (g.caseCtx selector v) _ _ h.1 harm
          (by rw [Valuation.optHolds_caseCtx, hg, heq])
    simp only [collectCases, Collected.writes_append, List.map_append, hbody, hrest, reachedCases]

theorem guarded_writesBlock : ∀ (stmts : List IRStmt) (g : GuardCtx) (room : ℕ) (on : Bool),
    WithinAll isBlock stmts room → ArmsTakenAll isBlock V ectx stmts on →
    V.optHolds ectx g.expr = on →
    (collectBlock isBlock stmts g room).writes.map (guardedWrite V ectx) =
      reachedBlock isBlock V ectx stmts on
  | [], g, room, on, _, _, _ => rfl
  | stmt :: rest, g, room, on, h, ⟨harm, harms⟩, hg => by
    simp only [collectBlock, Collected.writes_append, List.map_append, reachedBlock,
      guarded_writes stmt g room on h.1 harm hg, guarded_writesBlock rest g room on h.2 harms hg]

end

mutual

theorem atWrites_collect {P : GuardCtx → Prop} : ∀ (stmt : IRStmt) (g : GuardCtx) (room : ℕ),
    Within isBlock stmt room → AtWrites isBlock P stmt g →
    ∀ a ∈ (collectAccesses isBlock stmt g room).writes, P a.guard
  | .null, g, room, _, _, a, ha => by cases ha
  | .assignment a, g, room, h, _, b, hb => by
    rw [writes_assignment a g h.1] at hb
    cases hb
  | .memWrite name address data, g, room, h, hp, a, ha => by
    rw [writes_memWrite name address data g h] at ha
    by_cases hb : isBlock name = true
    · rw [if_pos hb, List.mem_singleton] at ha
      exact ha ▸ hp hb
    · rw [if_neg hb] at ha
      cases ha
  | .block stmts, g, room, h, hp, a, ha => by
    rw [collectAccesses, Collected.within_pos h.1] at ha
    exact atWrites_collectBlock stmts g _ h.2 hp a ha
  | .ifStmt c t elif e, g, room, ⟨hpos, ht, helif, he⟩, ⟨hpt, hpelif, hpe⟩, a, ha => by
    rw [collectAccesses, Collected.within_pos hpos] at ha
    simp only [Collected.writes_append, List.mem_append] at ha
    rcases ha with ha | ha | ha
    · exact atWrites_collect t _ _ ht hpt a ha
    · exact atWrites_collect elif _ _ helif hpelif a ha
    · exact atWrites_collect e _ _ he hpe a ha
  | .select selector cases, g, room, h, hp, a, ha => by
    rw [collectAccesses, Collected.within_pos h.1] at ha
    exact atWrites_collectCases selector cases g _ h.2 hp a ha

theorem atWrites_collectCases {P : GuardCtx → Prop} (selector : IRExpr) :
    ∀ (cases : List (IRExpr × IRStmt)) (g : GuardCtx) (room : ℕ), WithinCases isBlock cases room →
    AtWritesCases isBlock P selector cases g →
    ∀ a ∈ (collectCases isBlock selector cases g room).writes, P a.guard
  | [], g, room, _, _, a, ha => by cases ha
  | (v, body) :: rest, g, room, h, hp, a, ha => by
    simp only [collectCases, Collected.writes_append, List.mem_append] at ha
    rcases ha with ha | ha
    · exact atWrites_collect body _ _ h.1 hp.1 a ha
    · exact atWrites_collectCases selector rest g room h.2 hp.2 a ha

theorem atWrites_collectBlock {P : GuardCtx → Prop} :
    ∀ (stmts : List IRStmt) (g : GuardCtx) (room : ℕ), WithinAll isBlock stmts room →
    AtWritesAll isBlock P stmts g →
    ∀ a ∈ (collectBlock isBlock stmts g room).writes, P a.guard
  | [], g, room, _, _, a, ha => by cases ha
  | stmt :: rest, g, room, h, hp, a, ha => by
    simp only [collectBlock, Collected.writes_append, List.mem_append] at ha
    rcases ha with ha | ha
    · exact atWrites_collect stmt g room h.1 hp.1 a ha
    · exact atWrites_collectBlock rest g room h.2 hp.2 a ha

end

end

/-! ## The text of a guard -/

/-- Regrouping does not change a printed conjunction, disjunction or negation. -/
def SoundText : IRExpr → Prop
  | .binary .logicalAnd l r _ => SoundText l ∧ SoundText r
  | .binary .logicalOr l r _ => SoundText l ∧ SoundText r
  | .unary .logicalNot e _ => SoundText e
  | e => LeftNested e

/-- The expressions of a guard read back from its text. -/
structure GuardCtx.Readable (g : GuardCtx) : Prop where

  condition : ∀ c, g.condition = some c → Plain c ∧ SoundText c

  label : ∀ s v, g.selectSelector = some s → g.caseValue = some v →
    (Plain s ∧ LeftNested s ∧ 8 ≤ exprPrecedence s) ∧
    (Plain v ∧ LeftNested v ∧ 8 < exprPrecedence v) ∧
    ∀ c, g.condition = some c → 4 ≤ exprPrecedence c

namespace Valuation

variable {V : Valuation} {ectx : EmitContext}

theorem regroup_of_leftNested {e : IRExpr} (h : Plain e) (hn : LeftNested e) :
    verilog.regroup (shape ectx e) = shape ectx e := by
  have hgrouped : verilog.Grouped (shape ectx e) := (grouped_shape_iff e h).mpr hn
  have hback := Operators.parse_print (S := String) hgrouped 0
  rw [Operators.parse_print_regroup] at hback
  exact Option.some.inj hback

theorem eq_of_level {op : InfixOp} {b : IRBinaryOp} (hb : b = .logicalAnd ∨ b = .logicalOr)
    (h : binaryPrecedence op.1 = binaryPrecedence b) : op.1 = b := by
  obtain ⟨op, hop⟩ := op
  rcases hb with rfl | rfl <;> cases op <;> simp_all [binaryPrecedence]

/-- Taking a right operand apart keeps the truth of an associative operator. -/
theorem truth_attach {op : InfixOp} (f : Bool → Bool → Bool)
    (hassoc : ∀ a b c, f (f a b) c = f a (f b c))
    (hlevel : ∀ op' : InfixOp, verilog.level op' = verilog.level op → op' = op)
    (htruth : ∀ a b, V.truth (V.binary op a b) = f (V.truth a) (V.truth b))
    (l : Tree String IRUnaryOp InfixOp) : ∀ r, V.truth (V.eval (verilog.attach op l r)) =
      f (V.truth (V.eval l)) (V.truth (V.eval r))
  | .binary op' x y => by
    unfold Operators.attach
    split
    · rename_i heq
      obtain rfl := hlevel op' heq
      simp only [eval, htruth, truth_attach f hassoc hlevel htruth l x, hassoc]
    · exact htruth _ _
  | .leaf _ | .unary .. | .ternary .. | .group _ => htruth _ _

theorem truth_regroup : ∀ (e : IRExpr), Plain e → SoundText e →
    V.truth (V.eval (verilog.regroup (shape ectx e))) = V.holds ectx e := by
  intro e
  induction e using SoundText.induct with
  | case1 l r w ihl ihr =>
    intro h hb
    rw [holds, shape_binary rfl]
    simp only [Operators.regroup, eval]
    rw [truth_attach and Bool.and_assoc _ V.truth_and, V.truth_and, ihl h.2.1 hb.1, ihr h.2.2 hb.2]
    · rfl
    · exact fun op' heq => Subtype.ext (eq_of_level (.inl rfl) heq)
  | case2 l r w ihl ihr =>
    intro h hb
    rw [holds, shape_binary rfl]
    simp only [Operators.regroup, eval]
    rw [truth_attach or Bool.or_assoc _ V.truth_or, V.truth_or, ihl h.2.1 hb.1, ihr h.2.2 hb.2]
    · rfl
    · exact fun op' heq => Subtype.ext (eq_of_level (.inr rfl) heq)
  | case3 e w ih =>
    intro h hb
    simp only [holds, shape, Operators.regroup, eval, V.truth_not, ih h hb]
  | case4 e h1 h2 h3 =>
    intro h hb
    rw [regroup_of_leftNested h, holds]
    unfold SoundText at hb
    split at hb
    · exact absurd rfl (h1 _ _ _)
    · exact absurd rfl (h2 _ _ _)
    · exact absurd rfl (h3 _ _)
    · exact hb

/-- The text of one expression that reads back has the truth of the expression. -/
theorem parse_emitExpr {e : IRExpr} (h : Plain e) (hb : SoundText e) :
    (verilog.parse (emitExpr ectx e)).map (fun t => V.truth (V.eval t)) =
      some (V.holds ectx e) := by
  rw [emitExpr, emitExprInternal_eq_print e h, Operators.parse_print_regroup, Option.map_some,
    truth_regroup e h hb]

/-- An expression is printed without parentheses at any level up to its own. -/
theorem emitExprInternal_of_le {e : IRExpr} (h : Plain e) {p : ℕ} (hp : p ≤ exprPrecedence e) :
    emitExprInternal ectx e p = emitExpr ectx e := by
  rw [emitExpr, emitExprInternal_eq_print e h, emitExprInternal_eq_print e h, Operators.print,
    Operators.print, prec_shape h, Operators.paren_neg (by omega), Operators.paren_neg (by omega)]

theorem emitExpr_eq {s v : IRExpr} (hs : Plain s) (hsp : 8 ≤ exprPrecedence s) (hv : Plain v)
    (hvp : 8 < exprPrecedence v) : emitExpr ectx (.binary .eq s v 1) =
      emitExpr ectx s ++ .sym "==" :: emitExpr ectx v := by
  rw [← emitExprInternal_of_le hs hsp, ← emitExprInternal_of_le hv hvp.le]
  rfl

theorem emitExpr_and {c e : IRExpr} (hc : Plain c) (hcp : 4 ≤ exprPrecedence c) (he : Plain e)
    (hep : 4 ≤ exprPrecedence e) : emitExpr ectx (.binary .logicalAnd c e 1) =
      emitExpr ectx c ++ .sym "&&" :: emitExpr ectx e := by
  rw [← emitExprInternal_of_le hc hcp, ← emitExprInternal_of_le he hep]
  rfl

/-- The text of a readable guard says what the guard stands for. -/
theorem guardHolds_eq {g : GuardCtx} (h : g.Readable) :
    V.guardHolds ectx g = some (V.optHolds ectx g.expr) := by
  obtain ⟨hcond, hlabel⟩ := h
  have hguard : ∀ e, g.expr = some e → g.hasCondition = true →
      emitBsramCondition ectx g = emitExpr ectx e → Plain e → SoundText e →
      V.guardHolds ectx g = some (V.optHolds ectx g.expr) := by
    intro e he hhas htext hplain hback
    rw [guardHolds, if_pos hhas, htext, parse_emitExpr hplain hback, he]
    rfl
  rcases g with ⟨_ | c, _ | s, _ | v⟩
  · rfl
  · rfl
  · rfl
  · obtain ⟨⟨hs, hsn, hsp⟩, ⟨hv, hvn, hvp⟩, -⟩ := hlabel s v rfl rfl
    exact hguard _ rfl rfl (emitExpr_eq hs hsp hv hvp).symm ⟨rfl, hs, hv⟩
      ⟨hsn, hvn, by simp only [binaryPrecedence]; omega⟩
  · obtain ⟨hc, hb⟩ := hcond c rfl
    exact hguard c rfl rfl rfl hc hb
  · obtain ⟨hc, hb⟩ := hcond c rfl
    exact hguard c rfl rfl rfl hc hb
  · obtain ⟨hc, hb⟩ := hcond c rfl
    exact hguard c rfl rfl rfl hc hb
  · obtain ⟨⟨hs, hsn, hsp⟩, ⟨hv, hvn, hvp⟩, hcp⟩ := hlabel s v rfl rfl
    obtain ⟨hc, hb⟩ := hcond c rfl
    have heq : Plain (.binary .eq s v 1) := ⟨rfl, hs, hv⟩
    refine hguard _ rfl rfl ?_ ⟨rfl, hc, heq⟩ ⟨hb, hsn, hvn, by simp only [binaryPrecedence]; omega⟩
    rw [andWith, emitExpr_and hc (hcp c rfl) heq (by simp [exprPrecedence, binaryPrecedence]),
      emitExpr_eq hs hsp hv hvp]
    rfl

end Valuation

namespace ElifExample

def conditions : EmitContext where
  signalName id := [some "a", some "b"].getD id none
  lowered _ _ := []

/-- Truth values, with every operator but the logical ones constant. -/
def both : Valuation where
  Value := Bool
  leaf _ := true
  unary op a := if op = .logicalNot then !a else a
  binary op a b := if op.1 = .logicalAnd then a && b else if op.1 = .logicalOr then a || b else true
  ternary _ t _ := t
  group _ := true
  truth := id
  truth_and _ _ := rfl
  truth_or _ _ := rfl
  truth_not _ := rfl

def write : IRStmt := .memWrite "ram" (.signalRef 2 4) (.signalRef 3 8)

/-- `IF (a) { IF (b) { ram.w[..] <= ..; } }` -/
def nested : IRStmt :=
  .ifStmt (.signalRef 0 1) (.ifStmt (.signalRef 1 1) write .null .null) .null .null

/-- `IF (a) { } ELIF (b) { ram.w[..] <= ..; }` -/
def chain : IRStmt :=
  .ifStmt (.signalRef 0 1) (.block []) (.ifStmt (.signalRef 1 1) write .null .null) .null

end ElifExample

end JzHdl

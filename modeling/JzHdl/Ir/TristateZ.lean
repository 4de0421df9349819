import JzHdl.Ir.Syntax
import JzHdl.Sim.Bits

/-! # Replacing high impedance

The last phase of the tri-state transform replaces every `z` literal that its walk
reaches and then clears the flag of each signal whose assignments it sees no `z` in.
The walk does not reach every place of an expression or a statement.
-/

namespace JzHdl

open BitWords

inductive IRTristateDefault | gnd | vcc
  deriving DecidableEq, Repr

structure TristateSignal extends IRSignal where

  canBeZ : Bool

structure TristateModule where

  signals : List TristateSignal

  asyncBlock : IRStmt

def defaultValueForWidth (mode : IRTristateDefault) (width : ℕ) : Word :=
  match mode with
  | .gnd => 0
  | .vcc => if 64 ≤ width then BitVec.allOnes 64 else ((1 : Word) <<< width) - 1

/-- A `z` literal with the default in its first word. -/
def replaceLiteral (mode : IRTristateDefault) (lit : IRLiteral) : IRLiteral :=
  { words := Words.set .zero 0 (defaultValueForWidth mode lit.width)
    width := lit.width
    isZ := false }

namespace IRBinaryOp

/-- The binary kinds that the walks of the transform list. -/
def isListed : IRBinaryOp → Bool
  | .usub | .ssub | .umin | .umax | .smin | .smax => false
  | _ => true

end IRBinaryOp

namespace IRIntrinsicOp

/-- The intrinsics that the replacement lists. -/
def isListed : IRIntrinsicOp → Bool
  | .uadd | .sadd | .umul | .smul | .gbit | .sbit | .gslice | .sslice => true
  | _ => false

end IRIntrinsicOp

section

variable (mode : IRTristateDefault)

mutual

def replaceZInExpr : IRExpr → IRExpr
  | .literal lit width =>
    if lit.isZ then .literal (replaceLiteral mode lit) width else .literal lit width
  | .unary op operand width => .unary op (replaceZInExpr operand) width
  | .binary op left right width =>
    if op.isListed then .binary op (replaceZInExpr left) (replaceZInExpr right) width
    else .binary op left right width
  | .ternary condition trueVal falseVal =>
    .ternary (replaceZInExpr condition) (replaceZInExpr trueVal) (replaceZInExpr falseVal)
  | .concat operands => .concat (replaceZInExprs operands)
  | .intrinsic op source index value elementWidth width =>
    if op.isListed then
      .intrinsic op (replaceZInExpr source) (replaceZInExpr index) (replaceZInExpr value)
        elementWidth width
    else .intrinsic op source index value elementWidth width
  | .memRead memoryName address width => .memRead memoryName (replaceZInExpr address) width
  | .null => .null
  | .signalRef signalId width => .signalRef signalId width
  | .slice signalId msb lsb width => .slice signalId msb lsb width
  | .sliceExpr baseExpr msb lsb => .sliceExpr baseExpr msb lsb

def replaceZInExprs : List IRExpr → List IRExpr
  | [] => []
  | e :: rest => replaceZInExpr e :: replaceZInExprs rest

end

mutual

def replaceZInStmt (excluded : List ℕ) : IRStmt → IRStmt
  | .null => .null
  | .assignment assign =>
    if assign.lhsSignalId ∈ excluded then .assignment assign
    else .assignment { assign with rhs := replaceZInExpr mode assign.rhs }
  | .ifStmt condition thenBlock elifChain elseBlock =>
    .ifStmt condition (replaceZInStmt excluded thenBlock) (replaceZInStmt excluded elifChain)
      (replaceZInStmt excluded elseBlock)
  | .select selector cases => .select selector (replaceZInCases excluded cases)
  | .block stmts => .block (replaceZInStmts excluded stmts)
  | .memWrite memoryName address data => .memWrite memoryName address (replaceZInExpr mode data)

def replaceZInCases (excluded : List ℕ) : List (IRExpr × IRStmt) → List (IRExpr × IRStmt)
  | [] => []
  | (value, body) :: rest => (value, replaceZInStmt excluded body) :: replaceZInCases excluded rest

def replaceZInStmts (excluded : List ℕ) : List IRStmt → List IRStmt
  | [] => []
  | stmt :: rest => replaceZInStmt excluded stmt :: replaceZInStmts excluded rest

end

end

/-! ## Detection -/

mutual

/-- `expr_has_z`, which lists fewer kinds than the replacement. -/
def exprHasZ : IRExpr → Bool
  | .literal lit _ => lit.isZ
  | .unary _ operand _ => exprHasZ operand
  | .binary op left right _ => op.isListed && (exprHasZ left || exprHasZ right)
  | .ternary condition trueVal falseVal =>
    exprHasZ condition || exprHasZ trueVal || exprHasZ falseVal
  | .concat operands => exprsHaveZ operands
  | .null | .signalRef .. | .slice .. | .sliceExpr .. | .intrinsic .. | .memRead .. => false

def exprsHaveZ : List IRExpr → Bool
  | [] => false
  | e :: rest => exprHasZ e || exprsHaveZ rest

end

mutual

def stmtSignalStillHasZ (signalId : ℕ) : IRStmt → Bool
  | .assignment assign => decide (assign.lhsSignalId = signalId) && exprHasZ assign.rhs
  | .block stmts => stmtsSignalStillHasZ signalId stmts
  | .ifStmt _ thenBlock elifChain elseBlock =>
    stmtSignalStillHasZ signalId thenBlock || stmtSignalStillHasZ signalId elifChain ||
      stmtSignalStillHasZ signalId elseBlock
  | .select _ cases => casesSignalStillHasZ signalId cases
  | .null | .memWrite .. => false

def casesSignalStillHasZ (signalId : ℕ) : List (IRExpr × IRStmt) → Bool
  | [] => false
  | (_, body) :: rest => stmtSignalStillHasZ signalId body || casesSignalStillHasZ signalId rest

def stmtsSignalStillHasZ (signalId : ℕ) : List IRStmt → Bool
  | [] => false
  | stmt :: rest => stmtSignalStillHasZ signalId stmt || stmtsSignalStillHasZ signalId rest

end

/-! ## The phase -/

namespace TristateModule

def isInoutPort (sig : TristateSignal) : Bool :=
  match sig.kind with
  | .port .portInout => true
  | _ => false

/-- The identifiers of the INOUT ports, whose assignments keep their `z`. -/
def excluded (mod : TristateModule) : List ℕ := (mod.signals.filter isInoutPort).map fun s => s.id

def updateSignal (block : IRStmt) (sig : TristateSignal) : TristateSignal :=
  if sig.canBeZ && !block.isNull && !stmtSignalStillHasZ sig.id block then
    { sig with canBeZ := false }
  else sig

def updateCanBeZ (mod : TristateModule) : TristateModule :=
  { mod with signals := mod.signals.map (updateSignal mod.asyncBlock) }

/-- Phase 2 on one module. A module without an asynchronous block is left as it is. -/
def replacePhase (mode : IRTristateDefault) (mod : TristateModule) : TristateModule :=
  if mod.asyncBlock.isNull then mod
  else updateCanBeZ { mod with asyncBlock := replaceZInStmt mode mod.excluded mod.asyncBlock }

end TristateModule

/-- `jz_ir_tristate_transform`. The phases before the replacement and the checks that can fail
afterwards are parameters. Without a default nothing is done. -/
def jzIrTristateTransform (mode : Option IRTristateDefault)
    (earlier : List TristateModule → Option (List TristateModule))
    (accepted : List TristateModule → List TristateModule → Bool)
    (design : List TristateModule) : Option (List TristateModule) :=
  match mode with
  | none => some design
  | some d =>
    match earlier design with
    | none => none
    | some working =>
      if accepted working (working.map (TristateModule.replacePhase d)) then
        some (working.map (TristateModule.replacePhase d))
      else none

/-! ## Places with a `z` -/

mutual

/-- Some literal of the expression is `z`. -/
def exprZ : IRExpr → Bool
  | .literal lit _ => lit.isZ
  | .unary _ operand _ => exprZ operand
  | .binary _ left right _ => exprZ left || exprZ right
  | .ternary condition trueVal falseVal => exprZ condition || exprZ trueVal || exprZ falseVal
  | .concat operands => exprsZ operands
  | .sliceExpr baseExpr _ _ => exprZ baseExpr
  | .intrinsic _ source index value _ _ => exprZ source || exprZ index || exprZ value
  | .memRead _ address _ => exprZ address
  | .null | .signalRef .. | .slice .. => false

def exprsZ : List IRExpr → Bool
  | [] => false
  | e :: rest => exprZ e || exprsZ rest

end

mutual

/-- Some literal that the replacement does not reach is `z`. -/
def exprHiddenZ : IRExpr → Bool
  | .unary _ operand _ => exprHiddenZ operand
  | .binary op left right _ =>
    if op.isListed then exprHiddenZ left || exprHiddenZ right else exprZ left || exprZ right
  | .ternary condition trueVal falseVal =>
    exprHiddenZ condition || exprHiddenZ trueVal || exprHiddenZ falseVal
  | .concat operands => exprsHiddenZ operands
  | .sliceExpr baseExpr _ _ => exprZ baseExpr
  | .intrinsic op source index value _ _ =>
    if op.isListed then exprHiddenZ source || exprHiddenZ index || exprHiddenZ value
    else exprZ source || exprZ index || exprZ value
  | .memRead _ address _ => exprHiddenZ address
  | .null | .literal .. | .signalRef .. | .slice .. => false

def exprsHiddenZ : List IRExpr → Bool
  | [] => false
  | e :: rest => exprHiddenZ e || exprsHiddenZ rest

end

mutual

/-- The `z` literals that the replacement reaches. -/
def exprReachedZ : IRExpr → List IRLiteral
  | .literal lit _ => if lit.isZ then [lit] else []
  | .unary _ operand _ => exprReachedZ operand
  | .binary op left right _ =>
    if op.isListed then exprReachedZ left ++ exprReachedZ right else []
  | .ternary condition trueVal falseVal =>
    exprReachedZ condition ++ exprReachedZ trueVal ++ exprReachedZ falseVal
  | .concat operands => exprsReachedZ operands
  | .intrinsic op source index value _ _ =>
    if op.isListed then exprReachedZ source ++ exprReachedZ index ++ exprReachedZ value else []
  | .memRead _ address _ => exprReachedZ address
  | .null | .signalRef .. | .slice .. | .sliceExpr .. => []

def exprsReachedZ : List IRExpr → List IRLiteral
  | [] => []
  | e :: rest => exprReachedZ e ++ exprsReachedZ rest

end

section

variable (excluded : List ℕ)

mutual

/-- Some expression that the statement evaluates has a `z`, the assignments to the excluded
signals apart. -/
def stmtZ : IRStmt → Bool
  | .null => false
  | .assignment assign => decide (assign.lhsSignalId ∉ excluded) && exprZ assign.rhs
  | .ifStmt condition thenBlock elifChain elseBlock =>
    exprZ condition || stmtZ thenBlock || stmtZ elifChain || stmtZ elseBlock
  | .select selector cases => exprZ selector || casesZ cases
  | .block stmts => stmtsZ stmts
  | .memWrite _ address data => exprZ address || exprZ data

def casesZ : List (IRExpr × IRStmt) → Bool
  | [] => false
  | (value, body) :: rest => exprZ value || stmtZ body || casesZ rest

def stmtsZ : List IRStmt → Bool
  | [] => false
  | stmt :: rest => stmtZ stmt || stmtsZ rest

end

mutual

/-- The same for the places that the replacement does not reach. -/
def stmtHiddenZ : IRStmt → Bool
  | .null => false
  | .assignment assign => decide (assign.lhsSignalId ∉ excluded) && exprHiddenZ assign.rhs
  | .ifStmt condition thenBlock elifChain elseBlock =>
    exprZ condition || stmtHiddenZ thenBlock || stmtHiddenZ elifChain || stmtHiddenZ elseBlock
  | .select selector cases => exprZ selector || casesHiddenZ cases
  | .block stmts => stmtsHiddenZ stmts
  | .memWrite _ address data => exprZ address || exprHiddenZ data

def casesHiddenZ : List (IRExpr × IRStmt) → Bool
  | [] => false
  | (value, body) :: rest => exprZ value || stmtHiddenZ body || casesHiddenZ rest

def stmtsHiddenZ : List IRStmt → Bool
  | [] => false
  | stmt :: rest => stmtHiddenZ stmt || stmtsHiddenZ rest

end

mutual

def stmtReachedZ : IRStmt → List IRLiteral
  | .null => []
  | .assignment assign =>
    if assign.lhsSignalId ∈ excluded then [] else exprReachedZ assign.rhs
  | .ifStmt _ thenBlock elifChain elseBlock =>
    stmtReachedZ thenBlock ++ stmtReachedZ elifChain ++ stmtReachedZ elseBlock
  | .select _ cases => casesReachedZ cases
  | .block stmts => stmtsReachedZ stmts
  | .memWrite _ _ data => exprReachedZ data

def casesReachedZ : List (IRExpr × IRStmt) → List IRLiteral
  | [] => []
  | (_, body) :: rest => stmtReachedZ body ++ casesReachedZ rest

def stmtsReachedZ : List IRStmt → List IRLiteral
  | [] => []
  | stmt :: rest => stmtReachedZ stmt ++ stmtsReachedZ rest

end

end

/-! ## What the replacement leaves -/

section

variable {mode : IRTristateDefault} {excluded : List ℕ}

mutual

theorem exprZ_replace : ∀ e : IRExpr, exprZ (replaceZInExpr mode e) = exprHiddenZ e
  | .null | .signalRef .. | .slice .. | .sliceExpr .. => rfl
  | .literal lit width => by
      rw [replaceZInExpr]
      split
      · rfl
      · rename_i h
        simpa [exprZ, exprHiddenZ] using h
  | .unary op e width => exprZ_replace e
  | .binary op l r width => by
      rw [replaceZInExpr, exprHiddenZ]
      split
      · rw [exprZ, exprZ_replace l, exprZ_replace r]
      · rfl
  | .ternary c t f => by
      rw [replaceZInExpr, exprZ, exprHiddenZ, exprZ_replace c, exprZ_replace t, exprZ_replace f]
  | .concat es => exprsZ_replace es
  | .intrinsic op a b c ew width => by
      rw [replaceZInExpr, exprHiddenZ]
      split
      · rw [exprZ, exprZ_replace a, exprZ_replace b, exprZ_replace c]
      · rfl
  | .memRead name e width => exprZ_replace e

theorem exprsZ_replace : ∀ es : List IRExpr,
    exprsZ (replaceZInExprs mode es) = exprsHiddenZ es
  | [] => rfl
  | e :: es => by
      rw [replaceZInExprs, exprsZ, exprsHiddenZ, exprZ_replace e, exprsZ_replace es]

end

mutual

theorem exprHasZ_replace : ∀ e : IRExpr, exprHasZ (replaceZInExpr mode e) = false
  | .null | .signalRef .. | .slice .. | .sliceExpr .. | .memRead .. => rfl
  | .literal lit width => by
      rw [replaceZInExpr]
      split
      · rfl
      · rename_i h
        simpa [exprHasZ] using h
  | .unary op e width => exprHasZ_replace e
  | .binary op l r width => by
      rw [replaceZInExpr]
      split
      · rw [exprHasZ, exprHasZ_replace l, exprHasZ_replace r, Bool.or_self, Bool.and_false]
      · rename_i h
        rw [exprHasZ, Bool.eq_false_of_not_eq_true h, Bool.false_and]
  | .ternary c t f => by
      rw [replaceZInExpr, exprHasZ, exprHasZ_replace c, exprHasZ_replace t, exprHasZ_replace f]
      rfl
  | .concat es => exprsHaveZ_replace es
  | .intrinsic op a b c ew width => by
      rw [replaceZInExpr]
      split <;> rfl

theorem exprsHaveZ_replace : ∀ es : List IRExpr, exprsHaveZ (replaceZInExprs mode es) = false
  | [] => rfl
  | e :: es => by
      rw [replaceZInExprs, exprsHaveZ, exprHasZ_replace e, exprsHaveZ_replace es, Bool.or_self]

end

mutual

theorem stmtZ_replace : ∀ stmt : IRStmt,
    stmtZ excluded (replaceZInStmt mode excluded stmt) = stmtHiddenZ excluded stmt
  | .null => rfl
  | .assignment a => by
      rw [replaceZInStmt, stmtHiddenZ]
      split
      · rename_i h
        simp [stmtZ, h]
      · rw [stmtZ, exprZ_replace]
  | .ifStmt c t ec e => by
      rw [replaceZInStmt, stmtZ, stmtHiddenZ, stmtZ_replace t, stmtZ_replace ec, stmtZ_replace e]
  | .select sel cases => by
      rw [replaceZInStmt, stmtZ, stmtHiddenZ, casesZ_replace cases]
  | .block stmts => stmtsZ_replace stmts
  | .memWrite name addr data => by
      rw [replaceZInStmt, stmtZ, stmtHiddenZ, exprZ_replace]

theorem casesZ_replace : ∀ cases : List (IRExpr × IRStmt),
    casesZ excluded (replaceZInCases mode excluded cases) = casesHiddenZ excluded cases
  | [] => rfl
  | (value, body) :: rest => by
      rw [replaceZInCases, casesZ, casesHiddenZ, stmtZ_replace body, casesZ_replace rest]

theorem stmtsZ_replace : ∀ stmts : List IRStmt,
    stmtsZ excluded (replaceZInStmts mode excluded stmts) = stmtsHiddenZ excluded stmts
  | [] => rfl
  | stmt :: rest => by
      rw [replaceZInStmts, stmtsZ, stmtsHiddenZ, stmtZ_replace stmt, stmtsZ_replace rest]

end

mutual

theorem stillHasZ_replace {id : ℕ} (hid : id ∉ excluded) : ∀ stmt : IRStmt,
    stmtSignalStillHasZ id (replaceZInStmt mode excluded stmt) = false
  | .null | .memWrite .. => rfl
  | .assignment a => by
      rw [replaceZInStmt]
      split
      · rename_i h
        have hne : a.lhsSignalId ≠ id := fun heq => hid (heq ▸ h)
        rw [stmtSignalStillHasZ, decide_eq_false hne, Bool.false_and]
      · rw [stmtSignalStillHasZ, exprHasZ_replace, Bool.and_false]
  | .ifStmt c t ec e => by
      rw [replaceZInStmt, stmtSignalStillHasZ, stillHasZ_replace hid t, stillHasZ_replace hid ec,
        stillHasZ_replace hid e]
      rfl
  | .select sel cases => casesStillHaveZ_replace hid cases
  | .block stmts => stmtsStillHaveZ_replace hid stmts

theorem casesStillHaveZ_replace {id : ℕ} (hid : id ∉ excluded) :
    ∀ cases : List (IRExpr × IRStmt),
      casesSignalStillHasZ id (replaceZInCases mode excluded cases) = false
  | [] => rfl
  | (value, body) :: rest => by
      rw [replaceZInCases, casesSignalStillHasZ, stillHasZ_replace hid body,
        casesStillHaveZ_replace hid rest, Bool.or_self]

theorem stmtsStillHaveZ_replace {id : ℕ} (hid : id ∉ excluded) : ∀ stmts : List IRStmt,
    stmtsSignalStillHasZ id (replaceZInStmts mode excluded stmts) = false
  | [] => rfl
  | stmt :: rest => by
      rw [replaceZInStmts, stmtsSignalStillHasZ, stillHasZ_replace hid stmt,
        stmtsStillHaveZ_replace hid rest, Bool.or_self]

end

theorem isNull_replace (stmt : IRStmt) :
    (replaceZInStmt mode excluded stmt).isNull = stmt.isNull := by
  cases stmt with
  | assignment a =>
    rw [replaceZInStmt]
    split <;> rfl
  | _ => rfl

end

/-! ## One module -/

theorem bit_firstWord (word : Word) (k : ℕ) :
    (Words.set (.zero : SimWords) 0 word).bit k = word.getLsbD k := by
  rw [Words.bit, Words.get_set]
  by_cases hk : k < 64
  · have h0 : k / 64 = 0 := by omega
    have h1 : k % 64 = k := by omega
    simp [h0, h1]
  · have h0 : k / 64 ≠ 0 := by omega
    have hge : word.getLsbD k = false := BitVec.getLsbD_of_ge _ _ (by omega)
    simp [h0, hge]

/-- Every bit of the literal has the default. -/
def DefaultBits (mode : IRTristateDefault) (lit : IRLiteral) : Prop :=
  ∀ k < lit.width, (replaceLiteral mode lit).words.bit k = decide (mode = .vcc)

theorem defaultBits_iff {mode : IRTristateDefault} {lit : IRLiteral} :
    DefaultBits mode lit ↔ mode = .gnd ∨ lit.width ≤ 64 := by
  cases mode with
  | gnd =>
    refine iff_of_true (fun k _ => ?_) (.inl rfl)
    simp [replaceLiteral, bit_firstWord, defaultValueForWidth]
  | vcc =>
    simp only [DefaultBits, replaceLiteral, bit_firstWord, defaultValueForWidth, decide_true,
      reduceCtorEq, false_or]
    constructor
    · intro h
      by_contra hw
      have hbit := h 64 (by omega)
      rw [BitVec.getLsbD_of_ge _ _ le_rfl] at hbit
      cases hbit
    · intro hw k hk
      split
      · simp only [BitVec.getLsbD_allOnes, decide_eq_true_eq]
        omega
      · rw [getLsbD_low_ones (by omega), decide_eq_true hk]

namespace TristateModule

/-- No evaluated expression has a `z` outside the assignments to INOUT ports, and only those ports
may be `z`. -/
structure Clean (mod : TristateModule) : Prop where

  noZ : stmtZ mod.excluded mod.asyncBlock = false

  flags : ∀ sig ∈ mod.signals, sig.id ∉ mod.excluded → sig.canBeZ = false

/-- Every literal that is replaced gets the default in all its bits. -/
def Defaulted (mode : IRTristateDefault) (mod : TristateModule) : Prop :=
  ∀ lit ∈ stmtReachedZ mod.excluded mod.asyncBlock, lit.width ≤ 256 → DefaultBits mode lit

/-- What the phase needs: no `z` out of its reach, no wide literal for VCC, and a block to look
at when there are flags to clear. -/
structure Ready (mode : IRTristateDefault) (mod : TristateModule) : Prop where

  reached : stmtHiddenZ mod.excluded mod.asyncBlock = false

  narrow : mode = .gnd ∨ ∀ lit ∈ stmtReachedZ mod.excluded mod.asyncBlock,
    lit.width ≤ 64 ∨ 256 < lit.width

  block : mod.asyncBlock.isNull = true →
    ∀ sig ∈ mod.signals, sig.id ∉ mod.excluded → sig.canBeZ = false

section

variable {mode : IRTristateDefault} {mod : TristateModule}

@[simp] theorem updateSignal_id (block : IRStmt) (sig : TristateSignal) :
    (updateSignal block sig).id = sig.id := by
  rw [updateSignal]
  split <;> rfl

@[simp] theorem isInoutPort_updateSignal (block : IRStmt) (sig : TristateSignal) :
    isInoutPort (updateSignal block sig) = isInoutPort sig := by
  rw [updateSignal]
  split <;> rfl

theorem updateCanBeZ_excluded (mod : TristateModule) :
    mod.updateCanBeZ.excluded = mod.excluded := by
  simp only [excluded, updateCanBeZ, List.filter_map, List.map_map, Function.comp_def,
    isInoutPort_updateSignal, updateSignal_id]

theorem defaulted_iff : mod.Defaulted mode ↔ mode = .gnd ∨
    ∀ lit ∈ stmtReachedZ mod.excluded mod.asyncBlock, lit.width ≤ 64 ∨ 256 < lit.width := by
  simp only [Defaulted, defaultBits_iff]
  by_cases hmode : mode = .gnd
  · simp [hmode]
  · simp only [hmode, false_or]
    refine forall₂_congr fun lit _ => ?_
    omega

theorem replacePhase_clean_iff : (mod.replacePhase mode).Clean ↔
    stmtHiddenZ mod.excluded mod.asyncBlock = false ∧
      (mod.asyncBlock.isNull = true →
        ∀ sig ∈ mod.signals, sig.id ∉ mod.excluded → sig.canBeZ = false) := by
  rw [replacePhase]
  by_cases hnull : mod.asyncBlock.isNull = true
  · have hblock : mod.asyncBlock = .null := by
      cases hb : mod.asyncBlock <;> simp [hb, IRStmt.isNull] at hnull ⊢
    rw [if_pos hnull]
    constructor
    · intro h
      exact ⟨by rw [hblock]; rfl, fun _ => h.flags⟩
    · rintro ⟨-, hflags⟩
      exact ⟨by rw [hblock]; rfl, hflags hnull⟩
  · rw [if_neg hnull]
    have hexcluded : excluded { mod with
        asyncBlock := replaceZInStmt mode mod.excluded mod.asyncBlock } = mod.excluded := rfl
    constructor
    · intro h
      refine ⟨?_, fun h => absurd h hnull⟩
      have hz := h.noZ
      rw [updateCanBeZ_excluded, hexcluded] at hz
      exact stmtZ_replace mod.asyncBlock ▸ hz
    · rintro ⟨hhidden, -⟩
      constructor
      · rw [updateCanBeZ_excluded, hexcluded]
        exact (stmtZ_replace mod.asyncBlock).trans hhidden
      · intro sig hsig hid
        rw [updateCanBeZ_excluded, hexcluded] at hid
        obtain ⟨old, -, rfl⟩ := List.mem_map.mp hsig
        rw [updateSignal_id] at hid
        rw [updateSignal]
        dsimp only
        rw [isNull_replace, stillHasZ_replace hid, Bool.eq_false_of_not_eq_true hnull]
        cases hz : old.canBeZ <;> simp [hz]

/-- One module after the phase. -/
theorem replacePhase_iff : (mod.replacePhase mode).Clean ∧ mod.Defaulted mode ↔
    mod.Ready mode := by
  rw [replacePhase_clean_iff, defaulted_iff]
  constructor
  · rintro ⟨⟨hreached, hblock⟩, hnarrow⟩
    exact ⟨hreached, hnarrow, hblock⟩
  · rintro ⟨hreached, hnarrow, hblock⟩
    exact ⟨⟨hreached, hblock⟩, hnarrow⟩

end

end TristateModule

/-! ## A design -/

/-- The design that the replacement meets: without a default that is the design itself. -/
def MeetsPhase (mode : Option IRTristateDefault)
    (earlier : List TristateModule → Option (List TristateModule))
    (design working : List TristateModule) : Prop :=
  match mode with
  | none => working = design
  | some _ => earlier design = some working

def ReplacedWell (mode : Option IRTristateDefault) (working done : List TristateModule) : Prop :=
  (∀ mod ∈ done, mod.Clean) ∧ ∀ d, mode = some d → ∀ mod ∈ working, mod.Defaulted d

/-- Without a default the design must be free of `z` already. -/
def ReadyFor (mode : Option IRTristateDefault) (working : List TristateModule) : Prop :=
  match mode with
  | none => ∀ mod ∈ working, mod.Clean
  | some d => ∀ mod ∈ working, mod.Ready d

/-- No `z` survives the transform exactly when every module is ready for its last phase. -/
theorem tristateTransform_exact {mode : Option IRTristateDefault}
    {earlier : List TristateModule → Option (List TristateModule)}
    {accepted : List TristateModule → List TristateModule → Bool}
    {design done : List TristateModule}
    (h : jzIrTristateTransform mode earlier accepted design = some done) :
    ∃ working, MeetsPhase mode earlier design working ∧
      (ReplacedWell mode working done ↔ ReadyFor mode working) := by
  cases mode with
  | none =>
    cases h
    refine ⟨design, rfl, fun h => h.1, fun h => ⟨h, ?_⟩⟩
    rintro d ⟨⟩
  | some d =>
    rw [jzIrTristateTransform] at h
    cases hworking : earlier design with
    | none => simp [hworking] at h
    | some working =>
      rw [hworking] at h
      dsimp only at h
      split at h
      · cases h
        refine ⟨working, hworking, ?_⟩
        constructor
        · rintro ⟨hclean, hdefault⟩ mod hmod
          exact TristateModule.replacePhase_iff.mp
            ⟨hclean _ (List.mem_map_of_mem hmod), hdefault d rfl mod hmod⟩
        · intro hready
          refine ⟨fun mod hmod => ?_, ?_⟩
          · obtain ⟨old, hold, rfl⟩ := List.mem_map.mp hmod
            exact (TristateModule.replacePhase_iff.mpr (hready old hold)).1
          · rintro _ ⟨⟩ mod hmod
            exact (TristateModule.replacePhase_iff.mpr (hready mod hmod)).2
      · cases h

namespace TristateExample

def z (width : ℕ) : IRExpr := .literal ⟨.zero, width, true⟩ width

def assign (id : ℕ) (rhs : IRExpr) : IRStmt :=
  .assignment
    { lhsSignalId := id, rhs, kind := .drive, isSliced := false, lhsMsb := 0, lhsLsb := 0 }

/-- One net that is driven by a single expression. -/
def module (rhs : IRExpr) : TristateModule :=
  { signals := [⟨⟨0, .net, 8⟩, true⟩], asyncBlock := .block [assign 0 rhs] }

end TristateExample

open TristateExample in
theorem tristateTransform_exact_ternary :
    jzIrTristateTransform (some .gnd) some (fun _ _ => true)
        [module (.ternary (.signalRef 1 1) (.signalRef 2 8) (z 8))] =
      some [(module (.ternary (.signalRef 1 1) (.signalRef 2 8) (z 8))).replacePhase .gnd] ∧
    ∃ working, MeetsPhase (some .gnd) some
        [module (.ternary (.signalRef 1 1) (.signalRef 2 8) (z 8))] working ∧
      (ReplacedWell (some .gnd) working
          [(module (.ternary (.signalRef 1 1) (.signalRef 2 8) (z 8))).replacePhase .gnd] ↔
        ReadyFor (some .gnd) working) :=
  ⟨rfl, @tristateTransform_exact (some .gnd) some (fun _ _ => true) _ _ rfl⟩

open TristateExample in
/-- The operand of `POPCOUNT` keeps its `z`. -/
theorem tristateTransform_keeps_z :
    ∃ done, jzIrTristateTransform (some .gnd) some (fun _ _ => true)
        [module (.intrinsic .popcount (z 8) .null .null 0 8)] = some done ∧
      ¬ ReplacedWell (some .gnd) [module (.intrinsic .popcount (z 8) .null .null 0 8)] done := by
  refine ⟨_, rfl, fun h => ?_⟩
  have hz := (h.1 _ (List.mem_singleton.mpr rfl)).noZ
  revert hz
  decide

end JzHdl

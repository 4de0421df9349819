import JzHdl.Sim.EvalWidth
import Mathlib.Data.Nat.Size

/-! # One width for every expression

The checker, the code generator and the evaluator agree on the width of an
expression, and it is the one of the language. The exceptions are concatenations
that the checker does not read to the end and replications.
-/

namespace JzHdl

/-! ## Agreement -/

section

variable (scope : ExprScope)

/-- Every signal of a state has the width that it is declared with. -/
def ExprScope.Fits (m : IRModule) (s : CtxState) : Prop :=
  ∀ name sym, scope.lookup name = some sym → sym.kind = .signal →
    ∀ id ∈ sym.id, ∀ i ∈ m.sigIndex id, (s.signals i).current.width = sym.width

/-- Expressions whose width is inferred are lowered to IR of that width, have values of that width
and the width of the language. -/
def WidthsAgree (e : ExprNode) : Prop :=
  0 < inferExprType scope e →
    inferExprType scope e = prescribedWidth scope e ∧
    ∃ b, irBuildNode scope 0 e = some b ∧ b.width = inferExprType scope e ∧
      ∀ m s, scope.Fits m s → (simEvalExpr m s b.ir).width = inferExprType scope e

/-! ## The condition -/

/-- The number of nested expressions that are lowered. -/
def ExprNode.depth : ExprNode → ℕ
  | .literal _ | .specialDriver _ | .identifier _ | .lit .. | .compileTime .. => 1
  | .unary _ e | .single _ e | .b2oh e _ => e.depth + 1
  | .binary _ a b | .pair _ a b | .gbit a b | .gslice a b _ => max a.depth b.depth + 1
  | .ternary a b c | .sbit a b c | .sslice a b _ c => max a.depth (max b.depth c.depth) + 1
  | .concat es => depths es + 1
  | .replicate _ e => e.depth + 1
  | .slice base _ _ => base.depth + 1
where
  depths : List ExprNode → ℕ
    | [] => 0
    | e :: rest => max e.depth (depths rest)

/-- A name stands for a signal or a constant. -/
def NameResolves (name : List Char) : Prop :=
  match scope.lookup name with
  | some ⟨.signal, id, _⟩ => id.isSome = true
  | _ => (scope.evalConst name).isSome = true

def LitFits (width value : ExprNode) : Prop :=
  ∃ w v, evalLitConst scope width = some w ∧ evalLitConst scope value = some v ∧ 0 < w ∧
    w < 2 ^ 31 ∧ 0 ≤ v

mutual

/-- Every concatenation has at most 16 elements and 256 bits, a replication is as wide as its count
next to its element, names and constant operands have values, and every width is an `int`. -/
def Supported : ExprNode → Prop
  | .literal text => inferLiteralType text < 2 ^ 31
  | .specialDriver _ => True
  | .identifier name => NameResolves scope name ∧ prescribedWidth scope (.identifier name) < 2 ^ 31
  | .unary _ e => Supported e
  | .binary op a b =>
      Supported a ∧ Supported b ∧ binaryPrescribed op (prescribedWidth scope a) < 2 ^ 31
  | .ternary a b c => Supported a ∧ Supported b ∧ Supported c
  | .concat es =>
      es ≠ [] ∧ es.length ≤ 16 ∧ SupportedAll es ∧ (prescribedWidths scope es).sum ≤ 256
  | .replicate count e => Supported e ∧ inferLiteralType count + prescribedWidth scope e =
      prescribedWidth scope (.replicate count e) ∧ prescribedWidth scope (.replicate count e) ≤ 256
  | .slice base msb lsb => (sliceBounds scope msb lsb).isSome = true ∧
      sliceLiteralWidth msb lsb < 2 ^ 31 ∧
      match base with
      | .identifier name => (scope.lookup name).isSome = true
      | base => Supported base
  | .lit width value => LitFits scope width value
  | .compileTime .. => False
  | .pair op a b => Supported a ∧ Supported b ∧
      pairPrescribed op (prescribedWidth scope a) (prescribedWidth scope b) < 2 ^ 31
  | .single op a => Supported a ∧ singlePrescribed op (prescribedWidth scope a) < 2 ^ 31
  | .gbit a b | .gslice a b _ => Supported a ∧ Supported b
  | .sbit a b c | .sslice a b _ c => Supported a ∧ Supported b ∧ Supported c
  | .b2oh a width => Supported a ∧ b2ohWidth scope width < 2 ^ 31

def SupportedAll : List ExprNode → Prop
  | [] => True
  | e :: rest => Supported e ∧ SupportedAll rest

end

end

/-! ## Operators -/

theorem size_eq_clog (n : ℕ) : n.size = Nat.clog 2 (n + 1) := by
  refine le_antisymm ?_ ?_
  · rw [Nat.size_le]
    have h := Nat.le_pow_clog (by decide : 1 < 2) (n + 1)
    omega
  · rw [Nat.clog_le_iff_le_pow (by decide)]
    have h := Nat.lt_size_self n
    omega

theorem jzTypeUnary_eq {op : NodeUnaryOp} {w : ℕ} (h : 0 < jzTypeUnary op w) :
    jzTypeUnary op w = (if op = .logNot then 1 else w) := by
  cases op with
  | logNot =>
    rw [jzTypeUnary] at h ⊢
    split at h
    · rename_i hw
      rw [if_pos hw, if_pos rfl]
    · omega
  | pos | neg | bitNot => rw [jzTypeUnary, if_neg (by decide)]; exact nofun

theorem jzTypeBinary_eq {op : NodeBinaryOp} {l r : ℕ} (h : 0 < jzTypeBinary op l r) :
    jzTypeBinary op l r = binaryPrescribed op l := by
  cases op <;> simp only [jzTypeBinary, binaryPrescribed] at h ⊢ <;> grind

theorem jzTypeBinary_bit {op : NodeBinaryOp} {l r : ℕ} (hbit : op.isBit = true)
    (h : 0 < jzTypeBinary op l r) : jzTypeBinary op l r = 1 := by
  rw [jzTypeBinary_eq h]
  cases op <;> first | rfl | simp [NodeBinaryOp.isBit] at hbit

theorem pairWidth_eq {op : PairBuiltin} {l r : ℕ} (hbound : pairPrescribed op l r < 2 ^ 31)
    (h : 0 < pairWidth op l r) : pairWidth op l r = pairPrescribed op l r := by
  cases op <;> simp only [pairWidth, pairPrescribed] at h hbound ⊢
  all_goals first | rfl | exact Nat.mod_eq_of_lt (by omega) | skip
  all_goals
    split at h
    · rename_i hle
      rw [if_pos hle]
      omega
    · omega

theorem singleWidth_eq {op : SingleBuiltin} {w : ℕ} (hbound : singlePrescribed op w < 2 ^ 31)
    (h : 0 < singleWidth op w) : singleWidth op w = singlePrescribed op w := by
  cases op with
  | oh2b | prienc =>
    rw [singleWidth] at h ⊢
    split at h
    · omega
    · rename_i hw
      rw [if_neg hw, singlePrescribed, size_eq_clog, Nat.sub_add_cancel (by omega)]
  | lzc | popcount => exact size_eq_clog w
  | abs =>
    rw [singleWidth] at h ⊢
    split at h
    · omega
    · rename_i hw
      rw [if_neg hw]
      exact Nat.mod_eq_of_lt (by rw [singlePrescribed] at hbound; omega)
  | reverse => rfl
  | bswap =>
    rw [singleWidth] at h ⊢
    split at h
    · omega
    · rename_i hw
      rw [if_neg hw]
      rfl
  | reduceAnd | reduceOr | reduceXor =>
    rw [singleWidth] at h ⊢
    split at h
    · omega
    · rename_i hw
      rw [if_neg hw]
      rfl

theorem ternaryWidth_eq {c t f : ℕ} {tp fp : Bool} (h : 0 < ternaryWidth c t f tp fp) :
    ternaryWidth c t f tp fp = (if tp then f else t) ∧
      (tp = false → t = ternaryWidth c t f tp fp) ∧ (fp = false → f = ternaryWidth c t f tp fp) := by
  cases tp <;> cases fp <;> simp only [ternaryWidth] at h ⊢ <;> grind

theorem intWidth_eq {w : ℕ} (h : w < 2 ^ 31) : intWidth w = w := if_pos h

/-! ## Leaves -/

/-- The decoded width of a literal is the inferred one. -/
theorem decode_width {evalConst : List Char → Option ℕ} {text : List Char} {lit : IRLiteral}
    (hdecode : irDecodeSizedLiteral evalConst text = some lit) (h : 0 < inferLiteralType text) :
    lit.width = inferLiteralType text := by
  rw [irDecodeSizedLiteral] at hdecode
  rcases hspan : text.span (· ≠ tick) with ⟨width, rest⟩
  rw [hspan] at hdecode
  rcases rest with _ | ⟨c, _ | ⟨baseCh, value⟩⟩
  · cases hdecode
  · cases hdecode
  · rw [inferLiteralType, hspan] at h ⊢
    dsimp only at hdecode h ⊢
    split at h
    · omega
    · rename_i hwidth
      rw [if_neg hwidth] at hdecode ⊢
      rcases hdeclared : parseSimplePositiveInt width with _ | declared
      · simp [hdeclared] at h
      · rcases hbase : numericBase baseCh with _ | base
        · simp [hdeclared, hbase] at h
        · simp only [hdeclared, hbase, Option.some_or] at hdecode h ⊢
          split at h
          · omega
          · rename_i hvalue
            split at h
            · rename_i hok
              rw [if_neg hvalue, if_pos hok]
              rw [if_neg hvalue] at hdecode
              split at hdecode
              · obtain ⟨d, -, rfl⟩ := Option.map_eq_some_iff.mp hdecode
                rfl
              · cases hdecode
            · omega

section

variable {scope : ExprScope} {depth : ℕ}

/-- A built node agrees with the width that the checker infers. -/
structure Agrees (scope : ExprScope) (e : ExprNode) (b : BuiltExpr) : Prop where

  bound : inferExprType scope e < 2 ^ 31

  prescribed : inferExprType scope e = prescribedWidth scope e

  width : b.width = inferExprType scope e

  value : ∀ m s, scope.Fits m s → (simEvalExpr m s b.ir).width = inferExprType scope e

/-- A node is built, and it agrees when its width is inferred. -/
def Builds (scope : ExprScope) (depth : ℕ) (e : ExprNode) : Prop :=
  ∃ b, irBuildNode scope depth e = some b ∧ (0 < inferExprType scope e → Agrees scope e b)

theorem Builds.widthsAgree {e : ExprNode} (h : Builds scope 0 e) : WidthsAgree scope e := by
  intro hpos
  obtain ⟨b, hb, hagree⟩ := h
  have ha := hagree hpos
  exact ⟨ha.prescribed, b, hb, ha.width, ha.value⟩

theorem builds_literal {text : List Char} (hd : depth < maxIrExprDepth)
    (h : inferLiteralType text < 2 ^ 31) : Builds scope depth (.literal text) := by
  refine ⟨_, by rw [irBuildNode, if_neg (not_le.mpr hd)], fun hpos => ?_⟩
  rw [inferExprType] at hpos
  have hint := intWidth_eq h
  rcases hdecode : irDecodeSizedLiteral (fun w => (scope.evalConst w).map fun v =>
      v.toNat % 2 ^ 32) text with _ | lit
  · refine ⟨by rwa [inferExprType], by rw [inferExprType, prescribedWidth], ?_, fun m s _ => ?_⟩
    · simp only [buildLiteral, inferExprType, irBuildLiteral, hdecode, BuiltExpr.node, hint]
    · simp only [buildLiteral, inferExprType, irBuildLiteral, hdecode, BuiltExpr.node, hint]
      exact width_evalLiteral rfl hpos _
  · have hwidth := decode_width hdecode hpos
    refine ⟨by rwa [inferExprType], by rw [inferExprType, prescribedWidth], ?_, fun m s _ => ?_⟩
    · simp only [buildLiteral, inferExprType, irBuildLiteral, hdecode, BuiltExpr.node, hint]
      exact if_neg (by omega)
    · simp only [buildLiteral, inferExprType, irBuildLiteral, hdecode, BuiltExpr.node, hint]
      exact width_evalLiteral hwidth hpos _

theorem builds_specialDriver {vcc : Bool} (hd : depth < maxIrExprDepth) :
    Builds scope depth (.specialDriver vcc) := by
  refine ⟨_, by rw [irBuildNode, if_neg (not_le.mpr hd)], fun hpos => ?_⟩
  rw [inferExprType] at hpos
  omega

theorem builds_constant {name : List Char} {v : ℤ}
    (hbuild : irBuildNode scope depth (.identifier name) = (scope.evalConst name).map fun v =>
      let w := if inferExprType scope (.identifier name) = 0 then max 1 v.natAbs.size
        else inferExprType scope (.identifier name)
      let word := BitVec.ofInt 64 v
      let masked := if 64 ≤ w then word else word &&& (((1 : BitWords.Word) <<< w) - 1)
      .node (.literal ⟨BitWords.Words.set .zero 0 masked, intWidth w, false⟩ (intWidth w))
        (intWidth w))
    (hv : scope.evalConst name = some v)
    (hbound : inferExprType scope (.identifier name) < 2 ^ 31) :
    Builds scope depth (.identifier name) := by
  refine ⟨_, by rw [hbuild, hv]; rfl, fun hpos => ⟨hbound, ?_, ?_, fun m s _ => ?_⟩⟩
  · exact inferExprType_identifier scope name
  · simp only [BuiltExpr.node]
    rw [if_neg (by omega), intWidth_eq hbound]
  · simp only [BuiltExpr.node, simEvalExpr]
    refine width_evalLiteral ?_ hpos _
    dsimp only
    rw [if_neg (by omega), intWidth_eq hbound]

theorem builds_identifier {name : List Char} (hd : depth < maxIrExprDepth)
    (h : NameResolves scope name) (hbound : prescribedWidth scope (.identifier name) < 2 ^ 31) :
    Builds scope depth (.identifier name) := by
  have hinfer := inferExprType_identifier scope name
  have hnode : irBuildNode scope depth (.identifier name) =
      buildIdentifier scope name (inferExprType scope (.identifier name)) := by
    rw [irBuildNode, if_neg (not_le.mpr hd)]
  rw [← hinfer] at hbound
  rw [NameResolves] at h
  rw [buildIdentifier] at hnode
  rcases hlookup : scope.lookup name with _ | ⟨kind, id, w⟩
  · rw [hlookup] at h hnode
    obtain ⟨v, hv⟩ := Option.isSome_iff_exists.mp h
    exact builds_constant hnode hv hbound
  · rw [hlookup] at h hnode
    cases kind with
    | const =>
      obtain ⟨v, hv⟩ := Option.isSome_iff_exists.mp h
      exact builds_constant hnode hv hbound
    | other =>
      obtain ⟨v, hv⟩ := Option.isSome_iff_exists.mp h
      exact builds_constant hnode hv hbound
    | signal =>
      obtain ⟨n, rfl⟩ := Option.isSome_iff_exists.mp h
      refine ⟨_, hnode, fun hpos => ⟨hbound, hinfer, intWidth_eq hbound, fun m s hfits => ?_⟩⟩
      have hw : inferExprType scope (.identifier name) = w := by
        rw [inferExprType, hlookup]
        rfl
      rw [BuiltExpr.node, simEvalExpr, evalSignal]
      cases hindex : m.sigIndex n with
      | none => exact (widthOr_of_pos (by rwa [intWidth_eq hbound]) _).trans (intWidth_eq hbound)
      | some i => exact (hfits name _ hlookup rfl n rfl i hindex).trans hw.symm

theorem builds_lit {width value : ExprNode} (hd : depth < maxIrExprDepth)
    (h : LitFits scope width value) : Builds scope depth (.lit width value) := by
  obtain ⟨w, v, hw, hv, hpos, hlt, hnn⟩ := h
  have hbuild : irBuildNode scope depth (.lit width value) = buildLit scope width value := by
    rw [irBuildNode, if_neg (not_le.mpr hd)]
  rw [buildLit, hw, hv] at hbuild
  dsimp only at hbuild
  rw [if_neg (by omega)] at hbuild
  refine ⟨_, hbuild, fun hinfer => ?_⟩
  have hwidth : inferExprType scope (.lit width value) = w.toNat := by
    rw [inferExprType, litWidth, hw, hv] at hinfer ⊢
    dsimp only at hinfer ⊢
    split at hinfer
    · omega
    · rename_i hc
      rw [if_neg hc]
      split at hinfer
      · omega
      · rename_i hc'
        rw [if_neg hc']
  rw [hwidth] at hinfer
  refine ⟨by omega, by rw [inferExprType, prescribedWidth], hwidth.symm, fun m s _ => ?_⟩
  rw [hwidth, BuiltExpr.node, simEvalExpr]
  exact width_evalLiteral rfl hinfer _

/-! ## Operators of a node -/

theorem builds_unary {op : NodeUnaryOp} {operand : ExprNode} (hd : depth < maxIrExprDepth)
    (h : Builds scope (depth + 1) operand) : Builds scope depth (.unary op operand) := by
  obtain ⟨b, hb, hagree⟩ := h
  refine ⟨buildUnary op b (inferExprType scope (.unary op operand)), ?_, fun hpos => ?_⟩
  · rw [irBuildNode, if_neg (not_le.mpr hd), hb]
    rfl
  · have htype : inferExprType scope (.unary op operand) =
        jzTypeUnary op (inferExprType scope operand) := by rw [inferExprType]
    have hoperand : 0 < inferExprType scope operand := by
      refine Nat.pos_of_ne_zero fun h0 => ?_
      rw [htype, h0] at hpos
      cases op <;> simp [jzTypeUnary] at hpos
    have ha := hagree hoperand
    have heq := jzTypeUnary_eq (htype ▸ hpos)
    have hbound : inferExprType scope (.unary op operand) < 2 ^ 31 := by
      rw [htype, heq]
      split
      · decide
      · exact ha.bound
    have hint := intWidth_eq hbound
    refine ⟨hbound, by rw [htype, heq, prescribedWidth, ha.prescribed], ?_, fun m s hfits => ?_⟩
    · cases op with
      | pos => exact ha.width.trans htype.symm
      | neg | bitNot | logNot => exact hint
    · cases op with
      | pos => exact (ha.value m s hfits).trans htype.symm
      | neg | bitNot =>
        rw [buildUnary, hint, BuiltExpr.node, simEvalExpr]
        refine width_evalUnary hpos (fun h => ?_) _
        cases h
      | logNot =>
        rw [buildUnary, hint, BuiltExpr.node, simEvalExpr]
        exact width_evalUnary hpos (fun _ => htype.trans heq) _

theorem builds_binary {op : NodeBinaryOp} {left right : ExprNode} (hd : depth < maxIrExprDepth)
    (hl : Builds scope (depth + 1) left) (hr : Builds scope (depth + 1) right)
    (hop : binaryPrescribed op (prescribedWidth scope left) < 2 ^ 31) :
    Builds scope depth (.binary op left right) := by
  obtain ⟨l, hbl, hal⟩ := hl
  obtain ⟨r, hbr, -⟩ := hr
  refine ⟨_, by rw [irBuildNode, if_neg (not_le.mpr hd), hbl, hbr], fun hpos => ?_⟩
  have hknown : ¬ (inferExprType scope left = 0 ∨ inferExprType scope right = 0) := fun h => by
    rw [inferExprType, if_pos h] at hpos
    omega
  have htype : inferExprType scope (.binary op left right) =
      jzTypeBinary op (inferExprType scope left) (inferExprType scope right) := by
    rw [inferExprType, if_neg hknown]
  have ha := hal (by omega)
  have heq := jzTypeBinary_eq (htype ▸ hpos)
  rw [← ha.prescribed, ← heq, ← htype] at hop
  have hint := intWidth_eq hop
  refine ⟨hop, by rw [htype, heq, prescribedWidth, ha.prescribed], hint, fun m s _ => ?_⟩
  rw [BuiltExpr.node, hint, simEvalExpr]
  exact width_evalBinary hpos (fun hbit => htype.trans (jzTypeBinary_bit hbit (htype ▸ hpos))) _ _

theorem builds_pair {op : PairBuiltin} {left right : ExprNode} (hd : depth < maxIrExprDepth)
    (hl : Builds scope (depth + 1) left) (hr : Builds scope (depth + 1) right)
    (hop : pairPrescribed op (prescribedWidth scope left) (prescribedWidth scope right) < 2 ^ 31) :
    Builds scope depth (.pair op left right) := by
  obtain ⟨l, hbl, hal⟩ := hl
  obtain ⟨r, hbr, har⟩ := hr
  refine ⟨_, by rw [irBuildNode, if_neg (not_le.mpr hd), hbl, hbr], fun hpos => ?_⟩
  have hknown : ¬ (inferExprType scope left = 0 ∨ inferExprType scope right = 0) := fun h => by
    rw [inferExprType, if_pos h] at hpos
    omega
  have htype : inferExprType scope (.pair op left right) =
      pairWidth op (inferExprType scope left) (inferExprType scope right) := by
    rw [inferExprType, if_neg hknown]
  rw [← (hal (by omega)).prescribed, ← (har (by omega)).prescribed] at hop
  have heq := pairWidth_eq hop (htype ▸ hpos)
  have hbound : inferExprType scope (.pair op left right) < 2 ^ 31 := by rwa [htype, heq]
  have hint := intWidth_eq hbound
  refine ⟨hbound, ?_, hint, fun m s _ => ?_⟩
  · rw [htype, heq, prescribedWidth, (hal (by omega)).prescribed, (har (by omega)).prescribed]
  · rw [BuiltExpr.node, hint]
    exact width_buildPair m s op hpos _ _

theorem singleWidth_zero (op : SingleBuiltin) : singleWidth op 0 = 0 := by
  cases op <;> rfl

theorem builds_single {op : SingleBuiltin} {source : ExprNode} (hd : depth < maxIrExprDepth)
    (h : Builds scope (depth + 1) source)
    (hop : singlePrescribed op (prescribedWidth scope source) < 2 ^ 31) :
    Builds scope depth (.single op source) := by
  obtain ⟨b, hb, hagree⟩ := h
  refine ⟨_, by rw [irBuildNode, if_neg (not_le.mpr hd), hb]; rfl, fun hpos => ?_⟩
  have htype : inferExprType scope (.single op source) =
      singleWidth op (inferExprType scope source) := by rw [inferExprType]
  have hsource : 0 < inferExprType scope source := by
    refine Nat.pos_of_ne_zero fun h0 => ?_
    rw [htype, h0, singleWidth_zero] at hpos
    omega
  have ha := hagree hsource
  rw [← ha.prescribed] at hop
  have heq := singleWidth_eq hop (htype ▸ hpos)
  have hbound : inferExprType scope (.single op source) < 2 ^ 31 := by rwa [htype, heq]
  have hint := intWidth_eq hbound
  refine ⟨hbound, by rw [htype, heq, prescribedWidth, ha.prescribed], hint, fun m s hfits => ?_⟩
  have hvalue := ha.value m s hfits
  dsimp only
  rw [BuiltExpr.node, hint, simEvalExpr]
  exact width_single op (by omega) (by rw [hvalue, htype]) hpos _ _

/-- A branch of a ternary has its width; GND and VCC take it over. -/
theorem width_branch {e : ExprNode} {b : BuiltExpr} {w : ℕ} (hw : 0 < w)
    (hb : irBuildNode scope depth e = some b)
    (h : e.isSpecialDriver = false → inferExprType scope e = w ∧ Agrees scope e b)
    {m : IRModule} {s : CtxState} (hfits : scope.Fits m s) :
    (simEvalExpr m s (b.propagate w).ir).width = w := by
  cases hspecial : e.isSpecialDriver with
  | false =>
    obtain ⟨hinfer, ha⟩ := h hspecial
    have hknown : ¬ (0 < w ∧ b.width = 0 ∧ b.polymorphic = true) := fun hc => by
      have hwidth := ha.width
      omega
    rw [BuiltExpr.propagate, if_neg hknown, ha.value m s hfits, hinfer]
  | true =>
    cases e with
    | specialDriver vcc =>
      rw [irBuildNode] at hb
      split at hb
      · cases hb
      · cases hb
        rw [BuiltExpr.propagate, if_pos ⟨hw, rfl, rfl⟩]
        exact width_evalLiteral rfl hw _
    | _ => cases hspecial

theorem builds_ternary {condition trueVal falseVal : ExprNode} (hd : depth < maxIrExprDepth)
    (hc : Builds scope (depth + 1) condition) (ht : Builds scope (depth + 1) trueVal)
    (hf : Builds scope (depth + 1) falseVal) :
    Builds scope depth (.ternary condition trueVal falseVal) := by
  obtain ⟨c, hbc, -⟩ := hc
  obtain ⟨t, hbt, hat⟩ := ht
  obtain ⟨f, hbf, haf⟩ := hf
  refine ⟨_, by rw [irBuildNode, if_neg (not_le.mpr hd), hbc, hbt, hbf], fun hpos => ?_⟩
  have htype : inferExprType scope (.ternary condition trueVal falseVal) =
      ternaryWidth (inferExprType scope condition) (inferExprType scope trueVal)
        (inferExprType scope falseVal) trueVal.isSpecialDriver falseVal.isSpecialDriver := by
    rw [inferExprType]
  obtain ⟨heq, htrue, hfalse⟩ := ternaryWidth_eq (htype ▸ hpos)
  rw [← htype] at heq htrue hfalse
  have hagreeT : trueVal.isSpecialDriver = false → Agrees scope trueVal t := fun h =>
    hat (by rw [htrue h]; exact hpos)
  have hagreeF : falseVal.isSpecialDriver = false → Agrees scope falseVal f := fun h =>
    haf (by rw [hfalse h]; exact hpos)
  have hresult : inferExprType scope (.ternary condition trueVal falseVal) < 2 ^ 31 ∧
      inferExprType scope (.ternary condition trueVal falseVal) =
        prescribedWidth scope (.ternary condition trueVal falseVal) := by
    rw [prescribedWidth]
    cases htp : trueVal.isSpecialDriver with
    | false =>
      rw [← htrue htp, ← (hagreeT htp).prescribed]
      exact ⟨(hagreeT htp).bound, rfl⟩
    | true =>
      have hfp : falseVal.isSpecialDriver = false := by
        by_contra hne
        rw [Bool.not_eq_false] at hne
        rw [htype, htp, hne, ternaryWidth] at hpos
        split at hpos <;> simp at hpos
      rw [← hfalse hfp, ← (hagreeF hfp).prescribed]
      exact ⟨(hagreeF hfp).bound, rfl⟩
  have hint := intWidth_eq hresult.1
  refine ⟨hresult.1, hresult.2, hint, fun m s hfits => ?_⟩
  rw [BuiltExpr.node, hint, simEvalExpr]
  exact width_simValTernary _ (width_branch hpos hbt (fun h => ⟨htrue h, hagreeT h⟩) hfits)
    (width_branch hpos hbf (fun h => ⟨hfalse h, hagreeF h⟩) hfits)

theorem builds_gbit {source index : ExprNode} (hd : depth < maxIrExprDepth)
    (hs : Builds scope (depth + 1) source) (hi : Builds scope (depth + 1) index) :
    Builds scope depth (.gbit source index) := by
  obtain ⟨b, hb, -⟩ := hs
  obtain ⟨i, hbi, -⟩ := hi
  refine ⟨_, by rw [irBuildNode, if_neg (not_le.mpr hd), hb, hbi], fun hpos => ?_⟩
  have hone : inferExprType scope (.gbit source index) = 1 := by
    rw [inferExprType] at hpos ⊢
    split at hpos
    · omega
    · rename_i h
      rw [if_neg h]
  refine ⟨by rw [hone]; decide, by rw [hone, prescribedWidth], by rw [hone]; rfl, fun m s _ => ?_⟩
  rw [hone]
  exact width_gbit _ _ _ _

theorem builds_sbit {source index set : ExprNode} (hd : depth < maxIrExprDepth)
    (hs : Builds scope (depth + 1) source) (hi : Builds scope (depth + 1) index)
    (hv : Builds scope (depth + 1) set) : Builds scope depth (.sbit source index set) := by
  obtain ⟨b, hb, hagree⟩ := hs
  obtain ⟨i, hbi, -⟩ := hi
  obtain ⟨v, hbv, -⟩ := hv
  refine ⟨_, by rw [irBuildNode, if_neg (not_le.mpr hd), hb, hbi, hbv], fun hpos => ?_⟩
  have htype : inferExprType scope (.sbit source index set) = inferExprType scope source := by
    rw [inferExprType]
  have ha := hagree (htype ▸ hpos)
  have hbound : inferExprType scope (.sbit source index set) < 2 ^ 31 := htype ▸ ha.bound
  refine ⟨hbound, by rw [htype, prescribedWidth, ha.prescribed], intWidth_eq hbound,
    fun m s hfits => ?_⟩
  exact (width_sbit _ _ _ _ _).trans ((ha.value m s hfits).trans htype.symm)

theorem builds_sslice {source index width value : ExprNode} (hd : depth < maxIrExprDepth)
    (hs : Builds scope (depth + 1) source) (hi : Builds scope (depth + 1) index)
    (hv : Builds scope (depth + 1) value) :
    Builds scope depth (.sslice source index width value) := by
  obtain ⟨b, hb, hagree⟩ := hs
  obtain ⟨i, hbi, -⟩ := hi
  obtain ⟨v, hbv, -⟩ := hv
  refine ⟨_, by rw [irBuildNode, if_neg (not_le.mpr hd), hb, hbi, hbv], fun hpos => ?_⟩
  have htype : inferExprType scope (.sslice source index width value) =
      inferExprType scope source := by rw [inferExprType]
  have ha := hagree (htype ▸ hpos)
  have hbound : inferExprType scope (.sslice source index width value) < 2 ^ 31 :=
    htype ▸ ha.bound
  refine ⟨hbound, by rw [htype, prescribedWidth, ha.prescribed], intWidth_eq hbound,
    fun m s hfits => ?_⟩
  have hvalue := ha.value m s hfits
  exact (width_sslice (by rw [hvalue]; exact htype ▸ hpos) _ _ _ _).trans (hvalue.trans htype.symm)

theorem builds_gslice {source index width : ExprNode} (hd : depth < maxIrExprDepth)
    (hs : Builds scope (depth + 1) source) (hi : Builds scope (depth + 1) index) :
    Builds scope depth (.gslice source index width) := by
  obtain ⟨b, hb, -⟩ := hs
  obtain ⟨i, hbi, -⟩ := hi
  refine ⟨_, by rw [irBuildNode, if_neg (not_le.mpr hd), hb, hbi], fun hpos => ?_⟩
  rw [inferExprType] at hpos
  omega

theorem builds_b2oh {index width : ExprNode} (hd : depth < maxIrExprDepth)
    (hi : Builds scope (depth + 1) index) (hw : b2ohWidth scope width < 2 ^ 31) :
    Builds scope depth (.b2oh index width) := by
  obtain ⟨b, hb, -⟩ := hi
  refine ⟨_, by rw [irBuildNode, if_neg (not_le.mpr hd), hb]; rfl, fun hpos => ?_⟩
  have htype : inferExprType scope (.b2oh index width) = b2ohWidth scope width := by
    rw [inferExprType]
  have hbound : inferExprType scope (.b2oh index width) < 2 ^ 31 := by rwa [htype]
  have hint := intWidth_eq hbound
  refine ⟨hbound, by rw [htype, prescribedWidth], hint, fun m s _ => ?_⟩
  dsimp only
  rw [BuiltExpr.node, hint]
  exact width_b2oh _ _ _ _ hpos

/-! ## Slices -/

theorem simpleDigits_lt : ∀ {text : List Char} {value : ℕ} {sawDigit : Bool} {n : ℕ},
    simpleDigits value sawDigit text = some n → value < 2 ^ 32 → n < 2 ^ 32
  | [], value, sawDigit, n, h, hv => by
    rw [simpleDigits] at h
    split at h
    · cases h
      exact hv
    · cases h
  | c :: rest, value, sawDigit, n, h, hv => by
    rw [simpleDigits] at h
    split at h
    · exact simpleDigits_lt h hv
    · split at h
      · cases h
      · split at h
        · cases h
        · rename_i hdigit hlimit
          exact simpleDigits_lt h (by omega)

theorem sliceLiteralWidth_bounds {msb lsb : ExprNode} (h : 0 < sliceLiteralWidth msb lsb) :
    ∃ hi lo, sliceBounds scope msb lsb = some (hi, lo) ∧ lo ≤ hi ∧
      sliceLiteralWidth msb lsb = hi - lo + 1 := by
  rw [sliceLiteralWidth.eq_def] at h ⊢
  split at h
  · rename_i msbText lsbText
    rcases hm : parseSimpleNonnegativeInt msbText with _ | hi
    · simp [hm] at h
    · rcases hl : parseSimpleNonnegativeInt lsbText with _ | lo
      · simp [hm, hl] at h
      · have hlt : hi < 2 ^ 32 := simpleDigits_lt hm (by decide)
        simp only [hm, hl] at h ⊢
        split at h
        · omega
        · rename_i hle
          refine ⟨hi, lo, ?_, by omega, ?_⟩
          · rw [sliceBounds, irEvalSliceBound, irEvalSliceBound, hm, hl]
          · rw [if_neg hle]
            omega
  · omega

/-- A slice has the width of its bounds, whatever it is a slice of. -/
theorem builds_slice {base msb lsb : ExprNode} (hd : depth < maxIrExprDepth)
    (hbounds : (sliceBounds scope msb lsb).isSome = true)
    (hwidth : sliceLiteralWidth msb lsb < 2 ^ 31)
    (hbase : match base with
      | .identifier name => (scope.lookup name).isSome = true
      | base => Builds scope (depth + 1) base) :
    Builds scope depth (.slice base msb lsb) := by
  obtain ⟨⟨hi, lo⟩, hb⟩ := Option.isSome_iff_exists.mp hbounds
  have htype : inferExprType scope (.slice base msb lsb) = sliceLiteralWidth msb lsb := by
    rw [inferExprType]
  have hbound : inferExprType scope (.slice base msb lsb) < 2 ^ 31 := by rwa [htype]
  have hint := intWidth_eq hbound
  have hslice : 0 < inferExprType scope (.slice base msb lsb) →
      lo ≤ hi ∧ inferExprType scope (.slice base msb lsb) = hi - lo + 1 := by
    intro hpos
    obtain ⟨hi', lo', hb', hle, heq⟩ := @sliceLiteralWidth_bounds scope _ _ (htype ▸ hpos)
    rw [hb] at hb'
    cases hb'
    exact ⟨hle, htype.trans heq⟩
  have hprescribed := inferExprType_slice scope base msb lsb
  split at hbase
  · rename_i name
    obtain ⟨sym, hsym⟩ := Option.isSome_iff_exists.mp hbase
    have hnode : irBuildNode scope depth (.slice (.identifier name) msb lsb) =
        buildSignalSlice scope name (hi, lo)
          (inferExprType scope (.slice (.identifier name) msb lsb)) := by
      rw [irBuildNode, if_neg (not_le.mpr hd), hb]
      rfl
    rw [buildSignalSlice, hsym] at hnode
    refine ⟨_, hnode, fun hpos => ⟨hbound, hprescribed, hint, fun m s _ => ?_⟩⟩
    obtain ⟨hle, heq⟩ := hslice hpos
    simp only [BuiltExpr.node, simEvalExpr]
    split
    · rw [hint]
      exact widthOr_of_pos hpos _
    · rw [width_simValSlice _ hle, heq]
  · rename_i hname
    obtain ⟨b, hbuilt, -⟩ := hbase
    have hnode : irBuildNode scope depth (.slice base msb lsb) =
        some (.node (.sliceExpr b.ir hi lo) (intWidth (hi + 1 - lo))) := by
      rw [irBuildNode, if_neg (not_le.mpr hd), hb, Option.bind_some]
      split
      · rename_i name
        exact (hname name rfl).elim
      · rw [hbuilt]
        rfl
    refine ⟨_, hnode, fun hpos => ?_⟩
    obtain ⟨hle, heq⟩ := hslice hpos
    have hsub : hi + 1 - lo = inferExprType scope (.slice base msb lsb) := by omega
    refine ⟨hbound, hprescribed, ?_, fun m s _ => ?_⟩
    · rw [hsub]
      exact hint
    · rw [BuiltExpr.node, simEvalExpr, width_simValSlice _ hle, heq]

/-! ## Concatenations -/

/-- All elements are built, and they agree when all their widths are inferred. -/
def BuildsAll (scope : ExprScope) (depth : ℕ) (es : List ExprNode) : Prop :=
  ∃ bs, irBuildNodes scope depth es = some bs ∧
    (0 ∉ inferExprTypes scope es → inferExprTypes scope es = prescribedWidths scope es ∧
      ∀ m s, scope.Fits m s →
        (simEvalExprs m s (bs.map BuiltExpr.ir)).map SimValue.width = inferExprTypes scope es)

theorem buildsAll_nil : BuildsAll scope depth [] :=
  ⟨[], rfl, fun _ => ⟨rfl, fun _ _ _ => rfl⟩⟩

theorem buildsAll_cons {e : ExprNode} {rest : List ExprNode} (he : Builds scope depth e)
    (hrest : BuildsAll scope depth rest) : BuildsAll scope depth (e :: rest) := by
  obtain ⟨b, hb, hagree⟩ := he
  obtain ⟨bs, hbs, hagrees⟩ := hrest
  refine ⟨b :: bs, by rw [irBuildNodes, hb, hbs], fun hpos => ?_⟩
  rw [inferExprTypes, List.mem_cons, not_or] at hpos
  have ha := hagree (Nat.pos_of_ne_zero fun h => hpos.1 h.symm)
  obtain ⟨hprescribed, hvalues⟩ := hagrees hpos.2
  refine ⟨by rw [inferExprTypes, prescribedWidths, ha.prescribed, hprescribed],
    fun m s hfits => ?_⟩
  rw [List.map_cons, simEvalExprs, List.map_cons, ha.value m s hfits, hvalues m s hfits,
    inferExprTypes]

theorem builds_concat {es : List ExprNode} (hd : depth < maxIrExprDepth) (hne : es ≠ [])
    (hlen : es.length ≤ 16) (hall : BuildsAll scope (depth + 1) es)
    (hsum : (prescribedWidths scope es).sum ≤ 256) : Builds scope depth (.concat es) := by
  obtain ⟨bs, hbs, hagrees⟩ := hall
  refine ⟨_, by rw [irBuildNode, if_neg (not_or.mpr ⟨not_le.mpr hd, hne⟩), hbs]; rfl,
    fun hpos => ?_⟩
  have htake : (inferExprTypes scope es).take 16 = inferExprTypes scope es :=
    List.take_of_length_le (by rw [length_inferExprTypes]; exact hlen)
  have hknown : 0 ∉ inferExprTypes scope es := fun h => by
    rw [inferExprType, htake, if_pos h] at hpos
    omega
  obtain ⟨hprescribed, hvalues⟩ := hagrees hknown
  rw [← hprescribed] at hsum
  have htype : inferExprType scope (.concat es) = (inferExprTypes scope es).sum := by
    rw [inferExprType, htake, if_neg hknown, jzTypeConcat, if_pos (by omega)]
  have hbound : inferExprType scope (.concat es) < 2 ^ 31 := by
    rw [htype]
    omega
  refine ⟨hbound, by rw [htype, prescribedWidth, hprescribed], intWidth_eq hbound,
    fun m s hfits => ?_⟩
  have hvals := hvalues m s hfits
  have hshort : (simEvalExprs m s (bs.map BuiltExpr.ir)).length ≤ 64 := by
    have hl := congrArg List.length hvals
    rw [List.length_map, length_inferExprTypes] at hl
    omega
  simp only [BuiltExpr.node, simEvalExpr]
  rw [List.take_of_length_le hshort, htype, width_simValConcat (by rw [hvals]; exact hsum), hvals]

theorem ExprNode.depth_pos (e : ExprNode) : 0 < e.depth := by
  cases e <;> simp [ExprNode.depth]

/-- A replication is lowered to its count next to its element. -/
theorem builds_replicate {count : List Char} {element : ExprNode} (hd : depth + 1 < maxIrExprDepth)
    (h : Builds scope (depth + 1) element)
    (hwidth : inferLiteralType count + prescribedWidth scope element =
      prescribedWidth scope (.replicate count element))
    (hsum : prescribedWidth scope (.replicate count element) ≤ 256) :
    Builds scope depth (.replicate count element) := by
  obtain ⟨b, hb, hagree⟩ := h
  obtain ⟨c, hc, hagreeC⟩ := @builds_literal scope (depth + 1) count hd (by omega)
  rw [irBuildNode, if_neg (not_le.mpr hd)] at hc
  rw [inferExprType] at hc hagreeC
  cases hc
  refine ⟨_, by rw [irBuildNode, if_neg (not_le.mpr hd), hb]; rfl, fun hpos => ?_⟩
  have hknown : ¬ (inferLiteralType count = 0 ∨ inferExprType scope element = 0) := fun h => by
    rw [inferExprType, if_pos h] at hpos
    omega
  have ha := hagree (by omega)
  rw [← ha.prescribed] at hwidth
  have htype : inferExprType scope (.replicate count element) =
      inferLiteralType count + inferExprType scope element := by
    rw [inferExprType, if_neg hknown, jzTypeConcat, if_pos (by simp; omega)]
    simp
  have hbound : inferExprType scope (.replicate count element) < 2 ^ 31 := by
    rw [htype]
    omega
  refine ⟨hbound, htype.trans hwidth, intWidth_eq hbound, fun m s hfits => ?_⟩
  have hcount := (hagreeC (by omega)).value m s hfits
  rw [inferExprType] at hcount
  have hvals : [simEvalExpr m s (buildLiteral scope count (inferLiteralType count)).ir,
      simEvalExpr m s b.ir].map SimValue.width =
        [inferLiteralType count, inferExprType scope element] := by
    rw [List.map_cons, List.map_cons, List.map_nil, hcount, ha.value m s hfits]
  simp only [BuiltExpr.node, simEvalExpr, simEvalExprs, List.take_succ_cons, List.take_nil]
  rw [width_simValConcat (by rw [hvals]; simp; omega), hvals, htype]
  simp

end

/-! ## All expressions -/

section

variable (scope : ExprScope)

mutual

theorem builds_supported : ∀ (e : ExprNode) (depth : ℕ), Supported scope e →
    depth + e.depth ≤ maxIrExprDepth → Builds scope depth e
  | .literal text, depth, h, hd => by
    rw [ExprNode.depth] at hd
    rw [Supported] at h
    exact builds_literal (by omega) h
  | .specialDriver vcc, depth, _, hd => by
    rw [ExprNode.depth] at hd
    exact builds_specialDriver (by omega)
  | .identifier name, depth, h, hd => by
    rw [ExprNode.depth] at hd
    rw [Supported] at h
    exact builds_identifier (by omega) h.1 h.2
  | .unary op operand, depth, h, hd => by
    rw [ExprNode.depth] at hd
    rw [Supported] at h
    exact builds_unary (by omega) (builds_supported operand _ h (by omega))
  | .binary op left right, depth, h, hd => by
    rw [ExprNode.depth] at hd
    rw [Supported] at h
    exact builds_binary (by omega) (builds_supported left _ h.1 (by omega))
      (builds_supported right _ h.2.1 (by omega)) h.2.2
  | .ternary condition trueVal falseVal, depth, h, hd => by
    rw [ExprNode.depth] at hd
    rw [Supported] at h
    exact builds_ternary (by omega) (builds_supported condition _ h.1 (by omega))
      (builds_supported trueVal _ h.2.1 (by omega)) (builds_supported falseVal _ h.2.2 (by omega))
  | .concat es, depth, h, hd => by
    rw [ExprNode.depth] at hd
    rw [Supported] at h
    obtain ⟨hne, hlen, hall, hsum⟩ := h
    exact builds_concat (by omega) hne hlen (buildsAll_supported es _ hall (by omega)) hsum
  | .replicate count element, depth, h, hd => by
    rw [ExprNode.depth] at hd
    rw [Supported] at h
    exact builds_replicate (by have := element.depth_pos; omega)
      (builds_supported element _ h.1 (by omega)) h.2.1 h.2.2
  | .slice base msb lsb, depth, h, hd => by
    rw [ExprNode.depth] at hd
    rw [Supported.eq_def] at h
    refine builds_slice (by omega) h.1 h.2.1 ?_
    have hbase := h.2.2
    split
    · exact hbase
    · exact builds_supported base _ (by simpa using hbase) (by omega)
  | .lit width value, depth, h, hd => by
    rw [ExprNode.depth] at hd
    rw [Supported] at h
    exact builds_lit (by omega) h
  | .compileTime .., _, h, _ => by
    rw [Supported] at h
    exact h.elim
  | .pair op left right, depth, h, hd => by
    rw [ExprNode.depth] at hd
    rw [Supported] at h
    exact builds_pair (by omega) (builds_supported left _ h.1 (by omega))
      (builds_supported right _ h.2.1 (by omega)) h.2.2
  | .single op source, depth, h, hd => by
    rw [ExprNode.depth] at hd
    rw [Supported] at h
    exact builds_single (by omega) (builds_supported source _ h.1 (by omega)) h.2
  | .gbit source index, depth, h, hd => by
    rw [ExprNode.depth] at hd
    rw [Supported] at h
    exact builds_gbit (by omega) (builds_supported source _ h.1 (by omega))
      (builds_supported index _ h.2 (by omega))
  | .sbit source index set, depth, h, hd => by
    rw [ExprNode.depth] at hd
    rw [Supported] at h
    exact builds_sbit (by omega) (builds_supported source _ h.1 (by omega))
      (builds_supported index _ h.2.1 (by omega)) (builds_supported set _ h.2.2 (by omega))
  | .gslice source index _, depth, h, hd => by
    rw [ExprNode.depth] at hd
    rw [Supported] at h
    exact builds_gslice (by omega) (builds_supported source _ h.1 (by omega))
      (builds_supported index _ h.2 (by omega))
  | .sslice source index _ value, depth, h, hd => by
    rw [ExprNode.depth] at hd
    rw [Supported] at h
    exact builds_sslice (by omega) (builds_supported source _ h.1 (by omega))
      (builds_supported index _ h.2.1 (by omega)) (builds_supported value _ h.2.2 (by omega))
  | .b2oh index width, depth, h, hd => by
    rw [ExprNode.depth] at hd
    rw [Supported] at h
    exact builds_b2oh (by omega) (builds_supported index _ h.1 (by omega)) h.2

theorem buildsAll_supported : ∀ (es : List ExprNode) (depth : ℕ), SupportedAll scope es →
    depth + ExprNode.depth.depths es ≤ maxIrExprDepth → BuildsAll scope depth es
  | [], _, _, _ => buildsAll_nil
  | e :: rest, depth, h, hd => by
    rw [ExprNode.depth.depths] at hd
    rw [SupportedAll] at h
    exact buildsAll_cons (builds_supported e _ h.1 (by omega))
      (buildsAll_supported rest _ h.2 (by omega))

end

/-- Checker, code generator, evaluator and language agree on the width of every expression in which
no concatenation has more than 16 elements and no replication has another width than its count next
to its element. -/
theorem supported_widthsAgree (e : ExprNode) (h : Supported scope e)
    (hd : e.depth ≤ maxIrExprDepth) : WidthsAgree scope e :=
  (builds_supported scope e 0 h (by omega)).widthsAgree

theorem sum_take_lt {widths : List ℕ} {n : ℕ} (hlen : n < widths.length) (hpos : 0 ∉ widths) :
    (widths.take n).sum < widths.sum := by
  obtain ⟨w, rest, hdrop⟩ := List.exists_cons_of_ne_nil
    (List.ne_nil_of_length_pos (l := widths.drop n) (by rw [List.length_drop]; omega))
  have hsplit : (widths.take n).sum + (widths.drop n).sum = widths.sum := by
    rw [← List.sum_append, List.take_append_drop]
  have hw : w ≠ 0 := fun h => hpos (List.mem_of_mem_drop (i := n) (by rw [hdrop, h]; simp))
  rw [hdrop, List.sum_cons] at hsplit
  omega

/-- Among concatenations of known parts the widths agree up to 16 elements only. -/
theorem concat_widthsAgree_iff {es : List ExprNode} (hall : SupportedAll scope es)
    (hd : (ExprNode.concat es).depth ≤ maxIrExprDepth) (hne : es ≠ [])
    (hsum : (prescribedWidths scope es).sum ≤ 256) (hknown : 0 ∉ inferExprTypes scope es) :
    WidthsAgree scope (.concat es) ↔ es.length ≤ 16 := by
  constructor
  · intro h
    by_contra hlong
    rw [not_le] at hlong
    rw [ExprNode.depth] at hd
    obtain ⟨_, -, hagrees⟩ := buildsAll_supported scope es 0 hall (by omega)
    obtain ⟨hprescribed, -⟩ := hagrees hknown
    have hlt := sum_take_lt (by rw [length_inferExprTypes]; exact hlong) hknown
    have hfirst : 0 ∉ (inferExprTypes scope es).take 16 := fun h => hknown (List.mem_of_mem_take h)
    rw [← hprescribed] at hsum
    have hinfer : inferExprType scope (.concat es) = ((inferExprTypes scope es).take 16).sum := by
      rw [inferExprType, if_neg hfirst, jzTypeConcat, if_pos (by omega)]
    have hpos : 0 < inferExprType scope (.concat es) := by
      have hzero := @sum_take_lt ((inferExprTypes scope es).take 16) 0
        (by rw [List.length_take, length_inferExprTypes]; omega) hfirst
      rw [hinfer]
      simpa using hzero
    have heq := (h hpos).1
    rw [hinfer, prescribedWidth, ← hprescribed] at heq
    omega
  · intro hlen
    rw [ExprNode.depth] at hd
    exact (builds_concat (by omega) hne hlen (buildsAll_supported scope es 1 hall (by omega))
      hsum).widthsAgree

/-- A replication of a known width is right only by chance. -/
theorem replicate_widthsAgree_iff {count : List Char} {element : ExprNode}
    (h : Supported scope element) (hd : (ExprNode.replicate count element).depth ≤ maxIrExprDepth)
    (hcount : 0 < inferLiteralType count) (helement : 0 < inferExprType scope element)
    (hsum : inferLiteralType count + prescribedWidth scope element ≤ 256) :
    WidthsAgree scope (.replicate count element) ↔
      inferLiteralType count + prescribedWidth scope element =
        prescribedWidth scope (.replicate count element) := by
  rw [ExprNode.depth] at hd
  constructor
  · intro hagree
    obtain ⟨_, -, hbuilt⟩ := builds_supported scope element 0 h (by omega)
    rw [← (hbuilt helement).prescribed] at hsum ⊢
    have htype : inferExprType scope (.replicate count element) =
        inferLiteralType count + inferExprType scope element := by
      rw [inferExprType, if_neg (by omega), jzTypeConcat, if_pos (by simp; omega)]
      simp
    rw [← htype]
    exact (hagree (by omega)).1
  · intro hwidth
    have hpos := element.depth_pos
    exact (builds_replicate (by omega) (builds_supported scope element 1 h (by omega)) hwidth
      (by omega)).widthsAgree

/-- A module with a signal of one bit. -/
def oneBitScope : ExprScope where
  lookup := fun _ => some ⟨.signal, some 0, 1⟩
  evalConst := fun _ => none

/-- Of 17 bits the checker sees 16. -/
theorem seventeen_elements_disagree :
    ¬ WidthsAgree oneBitScope (.concat (List.replicate 17 (.identifier ['a']))) := fun h => by
  have hinfer : inferExprType oneBitScope (.concat (List.replicate 17 (.identifier ['a']))) = 16 := by
    decide +kernel
  have hprescribed :
      prescribedWidth oneBitScope (.concat (List.replicate 17 (.identifier ['a']))) = 17 := by
    decide +kernel
  have heq := (h (by rw [hinfer]; decide)).1
  rw [hinfer, hprescribed] at heq
  exact absurd heq (by decide)

/-- Two bits side by side. -/
theorem two_elements_agree : Supported oneBitScope (.concat [.identifier ['a'], .identifier ['b']]) ∧
    WidthsAgree oneBitScope (.concat [.identifier ['a'], .identifier ['b']]) := by
  have h : Supported oneBitScope (.concat [.identifier ['a'], .identifier ['b']]) := by
    simp [Supported, SupportedAll, NameResolves, oneBitScope, prescribedWidth, prescribedWidths]
  exact ⟨h, supported_widthsAgree _ _ h (by decide)⟩

end

end JzHdl

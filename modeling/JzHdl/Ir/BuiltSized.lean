import JzHdl.Ir.ExprWidths
import JzHdl.Sim.Representation

/-! # Lowered expressions are sized

The IR of an expression declares the width that the checker infers, and none of
its bitwise nodes is narrower than its operands.
-/

namespace JzHdl

open BitWords

/-- The module declares the signals of the scope with their widths. -/
def ExprScope.Declared (scope : ExprScope) (m : IRModule) : Prop :=
  ∀ name sym, scope.lookup name = some sym → sym.kind = .signal →
    ∀ id ∈ sym.id, ∀ sig ∈ m.signalOf id, sig.width = sym.width

/-- A built node is sized, and it has the inferred width if there is one. -/
structure SizedNode (scope : ExprScope) (m : IRModule) (e : ExprNode) (b : BuiltExpr) : Prop where

  sized : Sized m b.ir

  width : 0 < inferExprType scope e → exprWidth m b.ir = inferExprType scope e

/-- Whatever is built of a node is sized. -/
def BuildsSized (scope : ExprScope) (m : IRModule) (depth : ℕ) (e : ExprNode) : Prop :=
  ∀ b, irBuildNode scope depth e = some b → SizedNode scope m e b

section

variable {scope : ExprScope} {m : IRModule} {depth : ℕ}

/-! ## Widths of nodes -/

theorem le_widthOr_intWidth {t x : ℕ} (h : 0 < t → x = t) : x ≤ widthOr (intWidth t) x := by
  rw [intWidth]
  split
  · rw [widthOr]
    split
    · rename_i hpos
      exact (h hpos).le
    · exact le_rfl
  · exact le_rfl

theorem widthOr_intWidth (t : ℕ) : widthOr (intWidth t) t = t := by
  rw [intWidth]
  split
  · rw [widthOr, ite_self]
  · rfl

theorem exprWidth_literal {lit : IRLiteral} {w t : ℕ} (h : lit.width = t) (hpos : 0 < t) :
    exprWidth m (.literal lit w) = t := by
  rw [exprWidth, if_neg (by omega), h]

theorem binaryOpWidth_built {op : NodeBinaryOp} {t l r : ℕ} (hpos : 0 < t)
    (hbit : op.isBit = true → t = 1) : binaryOpWidth (irMapBinaryKind op) t l r = t := by
  cases op with
  | eq | neq | lt | le | gt | ge | logAnd | logOr => exact (hbit rfl).symm
  | _ => exact widthOr_of_pos hpos _

theorem exprWidth_buildPair (op : PairBuiltin) {t : ℕ} (l r : IRExpr) (hpos : 0 < t) :
    exprWidth m (buildPair op l r t) = t := by
  cases op <;> exact widthOr_of_pos hpos _

theorem intrinsicWidth_single (op : SingleBuiltin) {t w i : ℕ} (hw : t = singleWidth op w)
    (hpos : 0 < t) : intrinsicWidth op.intrinsicOp 0 t w i = t := by
  have hor := widthOr_of_pos hpos 1
  cases op with
  | oh2b | prienc | lzc | abs | popcount => exact hor
  | reverse =>
    change max (widthOr t 1) (max 1 w) = t
    rw [singleWidth] at hw
    omega
  | bswap =>
    change max (widthOr t 1) (max 8 w) = t
    rw [singleWidth] at hw
    split at hw <;> omega
  | reduceAnd | reduceOr | reduceXor =>
    rw [singleWidth] at hw
    split at hw
    · omega
    · exact hw.symm

/-! ## Literals and names -/

theorem sized_buildLiteral (text : List Char) :
    Sized m (buildLiteral scope text (inferLiteralType text)).ir ∧
      (0 < inferLiteralType text → inferLiteralType text < 2 ^ 31 →
        exprWidth m (buildLiteral scope text (inferLiteralType text)).ir =
          inferLiteralType text) := by
  simp only [buildLiteral, BuiltExpr.node, irBuildLiteral]
  split
  · rename_i lit hdecode
    exact ⟨trivial, fun hpos _ => exprWidth_literal (decode_width hdecode hpos) hpos⟩
  · exact ⟨trivial, fun hpos hlt => exprWidth_literal (intWidth_eq hlt) hpos⟩

theorem sized_constant {name : List Char} {t : ℕ} {f : ℤ → BuiltExpr} {b : BuiltExpr}
    (ht : t = inferExprType scope (.identifier name)) (hlt : t < 2 ^ 31)
    (hf : ∀ v, ∃ words, (f v).ir = .literal ⟨words, intWidth (if t = 0 then max 1 v.natAbs.size
      else t), false⟩ (intWidth (if t = 0 then max 1 v.natAbs.size else t)))
    (hb : (scope.evalConst name).map f = some b) : SizedNode scope m (.identifier name) b := by
  obtain ⟨v, -, rfl⟩ := Option.map_eq_some_iff.mp hb
  obtain ⟨words, hir⟩ := hf v
  constructor
  · rw [hir]
    trivial
  · intro hpos
    rw [← ht] at hpos ⊢
    rw [hir, if_neg (by omega), intWidth_eq hlt]
    exact exprWidth_literal rfl hpos

theorem sized_identifier (hdecl : scope.Declared m) {name : List Char} {b : BuiltExpr}
    (hlt : inferExprType scope (.identifier name) < 2 ^ 31)
    (hb : buildIdentifier scope name (inferExprType scope (.identifier name)) = some b) :
    SizedNode scope m (.identifier name) b := by
  rw [buildIdentifier] at hb
  split at hb
  · rename_i id w hlookup
    obtain rfl := Option.some.inj hb
    refine ⟨trivial, fun hpos => ?_⟩
    have hw : inferExprType scope (.identifier name) = w := by
      rw [inferExprType, hlookup]
      rfl
    change exprWidth m (.signalRef id _) = _
    rw [exprWidth]
    cases hsig : m.signalOf id with
    | none => exact (widthOr_of_pos (by rwa [intWidth_eq hlt]) _).trans (intWidth_eq hlt)
    | some sig => exact (hdecl name _ hlookup rfl id rfl sig hsig).trans hw.symm
  · cases hb
  · exact sized_constant rfl hlt (fun v => ⟨_, rfl⟩) hb

/-! ## Operators -/

theorem sized_unary {op : NodeUnaryOp} {operand : ExprNode}
    (h : BuildsSized scope m (depth + 1) operand) :
    BuildsSized scope m depth (.unary op operand) := by
  intro b hb
  rw [irBuildNode] at hb
  split at hb
  · cases hb
  · obtain ⟨o, ho, rfl⟩ := Option.map_eq_some_iff.mp hb
    have hso := h o ho
    have htype : inferExprType scope (.unary op operand) =
        jzTypeUnary op (inferExprType scope operand) := by rw [inferExprType]
    have hsame : op ≠ .logNot → inferExprType scope (.unary op operand) =
        inferExprType scope operand := fun hop => by
      cases op with
      | logNot => exact absurd rfl hop
      | pos | neg | bitNot => rw [htype]; rfl
    cases op with
    | pos =>
      refine ⟨hso.sized, fun hpos => ?_⟩
      rw [hsame (by simp)] at hpos ⊢
      exact hso.width hpos
    | neg | bitNot =>
      have heq := hsame (by simp)
      have hwidth : 0 < inferExprType scope operand → exprWidth m o.ir =
          inferExprType scope operand := hso.width
      rw [← heq] at hwidth
      refine ⟨fun _ => le_widthOr_intWidth hwidth, fun hpos => ?_⟩
      change widthOr (intWidth _) (exprWidth m o.ir) = _
      rw [hwidth hpos, widthOr_intWidth]
    | logNot =>
      refine ⟨(fun h => by cases h), fun hpos => ?_⟩
      rw [htype] at hpos ⊢
      exact ((jzTypeUnary_eq hpos).trans (if_pos rfl)).symm

theorem sized_binary {op : NodeBinaryOp} {left right : ExprNode}
    (hl : BuildsSized scope m (depth + 1) left) (hr : BuildsSized scope m (depth + 1) right)
    (hlt : inferExprType scope (.binary op left right) < 2 ^ 31) :
    BuildsSized scope m depth (.binary op left right) := by
  intro b hb
  rw [irBuildNode] at hb
  split at hb
  · cases hb
  split at hb
  · rename_i l r hbl hbr
    obtain rfl := Option.some.inj hb
    have hint := intWidth_eq hlt
    have hsl := hl l hbl
    have hsr := hr r hbr
    have hknown : 0 < inferExprType scope (.binary op left right) →
        0 < inferExprType scope left ∧ 0 < inferExprType scope right ∧
          inferExprType scope (.binary op left right) =
            jzTypeBinary op (inferExprType scope left) (inferExprType scope right) := by
      intro hpos
      rw [inferExprType] at hpos ⊢
      split at hpos
      · omega
      · rename_i h
        exact ⟨by omega, by omega, if_neg h⟩
    constructor
    · intro hset
      refine le_widthOr_intWidth fun hpos => ?_
      obtain ⟨hlpos, hrpos, htype⟩ := hknown hpos
      rw [hsl.width hlpos, hsr.width hrpos]
      rw [htype] at hpos ⊢
      cases op <;> first | exact hset.elim | skip
      all_goals
        rw [jzTypeBinary] at hpos ⊢
        split at hpos
        · omega
        · rename_i heq
          rw [if_neg heq, not_not.mp heq, max_self]
    · intro hpos
      obtain ⟨-, -, htype⟩ := hknown hpos
      change binaryOpWidth _ (intWidth _) _ _ = _
      rw [hint]
      exact binaryOpWidth_built hpos fun hbit =>
        htype.trans (jzTypeBinary_bit hbit (htype ▸ hpos))
  · cases hb

/-! ## Branches -/

theorem sized_propagate {b : BuiltExpr} (h : Sized m b.ir) (w : ℕ) :
    Sized m (b.propagate w).ir := by
  rw [BuiltExpr.propagate]
  split
  · split
    · trivial
    · exact h
  · exact h

/-- A branch of a ternary has its width; GND and VCC take it over. -/
theorem exprWidth_branch {e : ExprNode} {b : BuiltExpr} {w : ℕ} (hw : 0 < w)
    (hb : irBuildNode scope depth e = some b) (hbw : e.isSpecialDriver = false → b.width ≠ 0)
    (h : e.isSpecialDriver = false → exprWidth m b.ir = w) :
    exprWidth m (b.propagate w).ir = w := by
  cases hspecial : e.isSpecialDriver with
  | false =>
    rw [BuiltExpr.propagate, if_neg fun hc => hbw hspecial hc.2.1]
    exact h hspecial
  | true =>
    cases e with
    | specialDriver vcc =>
      rw [irBuildNode] at hb
      split at hb
      · cases hb
      · cases hb
        rw [BuiltExpr.propagate, if_pos ⟨hw, rfl, rfl⟩]
        exact exprWidth_literal rfl hw
    | _ => cases hspecial

theorem sized_ternary {condition trueVal falseVal : ExprNode}
    (ht : BuildsSized scope m (depth + 1) trueVal) (hf : BuildsSized scope m (depth + 1) falseVal)
    (hat : Builds scope (depth + 1) trueVal) (haf : Builds scope (depth + 1) falseVal)
    (hlt : inferExprType scope (.ternary condition trueVal falseVal) < 2 ^ 31) :
    BuildsSized scope m depth (.ternary condition trueVal falseVal) := by
  intro b hb
  rw [irBuildNode] at hb
  split at hb
  · cases hb
  split at hb
  · rename_i c t f hbc hbt hbf
    obtain rfl := Option.some.inj hb
    have hint := intWidth_eq hlt
    refine ⟨⟨sized_propagate (ht t hbt).sized _, sized_propagate (hf f hbf).sized _⟩,
      fun hpos => ?_⟩
    have htype : inferExprType scope (.ternary condition trueVal falseVal) =
        ternaryWidth (inferExprType scope condition) (inferExprType scope trueVal)
          (inferExprType scope falseVal) trueVal.isSpecialDriver falseVal.isSpecialDriver := by
      rw [inferExprType]
    obtain ⟨-, htrue, hfalse⟩ := ternaryWidth_eq (htype ▸ hpos)
    rw [← htype] at htrue hfalse
    have hbranch : ∀ {e : ExprNode} {b : BuiltExpr}, irBuildNode scope (depth + 1) e = some b →
        BuildsSized scope m (depth + 1) e → Builds scope (depth + 1) e →
        (e.isSpecialDriver = false → inferExprType scope e =
          inferExprType scope (.ternary condition trueVal falseVal)) →
        exprWidth m (b.propagate (inferExprType scope (.ternary condition trueVal falseVal))).ir =
          inferExprType scope (.ternary condition trueVal falseVal) := by
      intro e b hbe hs hagree hinfer
      refine exprWidth_branch hpos hbe (fun hspecial => ?_) fun hspecial => ?_
      · obtain ⟨b', hb', ha⟩ := hagree
        rw [hbe] at hb'
        obtain rfl := Option.some.inj hb'
        rw [(ha (by rw [hinfer hspecial]; exact hpos)).width, hinfer hspecial]
        omega
      · rw [(hs b hbe).width (by rw [hinfer hspecial]; exact hpos), hinfer hspecial]
    change max (exprWidth m (t.propagate _).ir) (exprWidth m (f.propagate _).ir) = _
    rw [hint, hbranch hbt ht hat htrue, hbranch hbf hf haf hfalse, max_self]
  · cases hb

/-! ## Intrinsics -/

theorem sized_pair {op : PairBuiltin} {left right : ExprNode}
    (hl : BuildsSized scope m (depth + 1) left)
    (hlt : inferExprType scope (.pair op left right) < 2 ^ 31) :
    BuildsSized scope m depth (.pair op left right) := by
  intro b hb
  rw [irBuildNode] at hb
  split at hb
  · cases hb
  split at hb
  · rename_i l r hbl hbr
    obtain rfl := Option.some.inj hb
    have hsl := (hl l hbl).sized
    constructor
    · cases op <;> first | exact hsl | exact fun h => by cases h
    · intro hpos
      change exprWidth m (buildPair op l.ir r.ir (intWidth _)) = _
      rw [intWidth_eq hlt]
      exact exprWidth_buildPair op _ _ hpos
  · cases hb

theorem sized_single {op : SingleBuiltin} {source : ExprNode}
    (h : BuildsSized scope m (depth + 1) source)
    (hlt : inferExprType scope (.single op source) < 2 ^ 31) :
    BuildsSized scope m depth (.single op source) := by
  intro b hb
  rw [irBuildNode] at hb
  split at hb
  · cases hb
  · obtain ⟨o, ho, rfl⟩ := Option.map_eq_some_iff.mp hb
    have hso := h o ho
    refine ⟨hso.sized, fun hpos => ?_⟩
    have htype : inferExprType scope (.single op source) =
        singleWidth op (inferExprType scope source) := by rw [inferExprType]
    have hsource : 0 < inferExprType scope source := by
      refine Nat.pos_of_ne_zero fun h0 => ?_
      rw [htype, h0, singleWidth_zero] at hpos
      omega
    change intrinsicWidth op.intrinsicOp 0 (intWidth _) (exprWidth m o.ir) _ = _
    rw [intWidth_eq hlt, hso.width hsource]
    exact intrinsicWidth_single op htype hpos

/-- The builtins that are lowered to an intrinsic of their source. -/
theorem sized_intrinsic {e : ExprNode} {b : BuiltExpr} {op : IRIntrinsicOp}
    {ir index value : IRExpr} {ew w : ℕ} (hir : b.ir = .intrinsic op ir index value ew w)
    (hs : Sized m ir)
    (hwidth : 0 < inferExprType scope e →
      intrinsicWidth op ew w (exprWidth m ir) (exprWidth m index) = inferExprType scope e) :
    SizedNode scope m e b := by
  constructor
  · rw [hir]
    exact hs
  · rw [hir]
    exact hwidth

theorem sized_gbit {source index : ExprNode} (h : BuildsSized scope m (depth + 1) source) :
    BuildsSized scope m depth (.gbit source index) := by
  intro b hb
  rw [irBuildNode] at hb
  split at hb
  · cases hb
  split at hb
  · rename_i o i ho hi
    obtain rfl := Option.some.inj hb
    refine sized_intrinsic rfl (h o ho).sized fun hpos => ?_
    rw [inferExprType] at hpos ⊢
    split at hpos
    · omega
    · rename_i hknown
      exact (if_neg hknown).symm
  · cases hb

theorem sized_sbit {source index set : ExprNode} (h : BuildsSized scope m (depth + 1) source) :
    BuildsSized scope m depth (.sbit source index set) := by
  intro b hb
  rw [irBuildNode] at hb
  split at hb
  · cases hb
  split at hb
  · rename_i o i v ho hi hv
    obtain rfl := Option.some.inj hb
    have htype : inferExprType scope (.sbit source index set) = inferExprType scope source := by
      rw [inferExprType]
    refine sized_intrinsic rfl (h o ho).sized fun hpos => ?_
    rw [htype] at hpos ⊢
    exact (h o ho).width hpos
  · cases hb

theorem sized_sslice {source index width value : ExprNode}
    (h : BuildsSized scope m (depth + 1) source) :
    BuildsSized scope m depth (.sslice source index width value) := by
  intro b hb
  rw [irBuildNode] at hb
  split at hb
  · cases hb
  split at hb
  · rename_i o i v ho hi hv
    obtain rfl := Option.some.inj hb
    have htype : inferExprType scope (.sslice source index width value) =
        inferExprType scope source := by rw [inferExprType]
    refine sized_intrinsic rfl (h o ho).sized fun hpos => ?_
    rw [htype] at hpos ⊢
    change max 1 (exprWidth m o.ir) = _
    rw [(h o ho).width hpos]
    omega
  · cases hb

theorem sized_gslice {source index width : ExprNode}
    (h : BuildsSized scope m (depth + 1) source) :
    BuildsSized scope m depth (.gslice source index width) := by
  intro b hb
  rw [irBuildNode] at hb
  split at hb
  · cases hb
  split at hb
  · rename_i o i ho hi
    obtain rfl := Option.some.inj hb
    refine sized_intrinsic rfl (h o ho).sized fun hpos => ?_
    rw [inferExprType] at hpos
    omega
  · cases hb

theorem sized_b2oh {index width : ExprNode} (h : BuildsSized scope m (depth + 1) index)
    (hlt : inferExprType scope (.b2oh index width) < 2 ^ 31) :
    BuildsSized scope m depth (.b2oh index width) := by
  intro b hb
  rw [irBuildNode] at hb
  split at hb
  · cases hb
  · obtain ⟨o, ho, rfl⟩ := Option.map_eq_some_iff.mp hb
    refine sized_intrinsic rfl (h o ho).sized fun hpos => ?_
    change widthOr (intWidth _) 1 = _
    rw [intWidth_eq hlt]
    exact widthOr_of_pos hpos 1

/-! ## Slices and concatenations -/

theorem sized_slice {base msb lsb : ExprNode}
    (hlt : inferExprType scope (.slice base msb lsb) < 2 ^ 31) :
    BuildsSized scope m depth (.slice base msb lsb) := by
  intro b hb
  rw [irBuildNode] at hb
  split at hb
  · cases hb
  obtain ⟨⟨hi, lo⟩, hbounds, hb⟩ := Option.bind_eq_some_iff.mp hb
  have htype : inferExprType scope (.slice base msb lsb) = sliceLiteralWidth msb lsb := by
    rw [inferExprType]
  have hslice : 0 < inferExprType scope (.slice base msb lsb) →
      max 1 (hi + 1 - lo) = inferExprType scope (.slice base msb lsb) := by
    intro hpos
    obtain ⟨hi', lo', hb', hle, heq⟩ := @sliceLiteralWidth_bounds scope _ _ (htype ▸ hpos)
    rw [hbounds] at hb'
    obtain ⟨rfl, rfl⟩ := Prod.mk.inj (Option.some.inj hb')
    rw [htype, heq]
    omega
  split at hb
  · obtain ⟨sym, -, rfl⟩ := Option.map_eq_some_iff.mp hb
    refine ⟨trivial, fun hpos => ?_⟩
    change exprWidth m (.slice _ _ _ (intWidth _)) = _
    rw [exprWidth, intWidth_eq hlt]
    split
    · exact widthOr_of_pos hpos _
    · exact hslice hpos
  · obtain ⟨o, -, rfl⟩ := Option.map_eq_some_iff.mp hb
    exact ⟨trivial, hslice⟩

theorem exprWidths_built : ∀ {es : List ExprNode} {bs : List BuiltExpr},
    (∀ e ∈ es, BuildsSized scope m depth e) → irBuildNodes scope depth es = some bs →
    0 ∉ inferExprTypes scope es →
    exprWidths m (bs.map BuiltExpr.ir) = inferExprTypes scope es
  | [], bs, _, hbs, _ => by
      obtain rfl := Option.some.inj hbs
      rfl
  | e :: rest, bs, hall, hbs, hpos => by
      rw [irBuildNodes] at hbs
      split at hbs
      · rename_i b bs' hb hbs'
        obtain rfl := Option.some.inj hbs
        rw [inferExprTypes, List.mem_cons, not_or] at hpos
        rw [List.map_cons, exprWidths, inferExprTypes,
          (hall e List.mem_cons_self b hb).width (Nat.pos_of_ne_zero fun h => hpos.1 h.symm),
          exprWidths_built (fun e he => hall e (List.mem_cons_of_mem _ he)) hbs' hpos.2]
      · cases hbs

theorem sized_concat {es : List ExprNode} (hall : ∀ e ∈ es, BuildsSized scope m (depth + 1) e)
    (hlen : es.length ≤ 16)
    (hsum : 0 < inferExprType scope (.concat es) → (inferExprTypes scope es).sum ≤ 256) :
    BuildsSized scope m depth (.concat es) := by
  intro b hb
  rw [irBuildNode] at hb
  split at hb
  · cases hb
  obtain ⟨bs, hbs, rfl⟩ := Option.map_eq_some_iff.mp hb
  refine ⟨trivial, fun hpos => ?_⟩
  have hle := hsum hpos
  have htake : (inferExprTypes scope es).take 16 = inferExprTypes scope es :=
    List.take_of_length_le (by rw [length_inferExprTypes]; exact hlen)
  have hknown : 0 ∉ inferExprTypes scope es := fun h => by
    rw [inferExprType, htake, if_pos h] at hpos
    omega
  have hwidths := exprWidths_built hall hbs hknown
  have hshort : (exprWidths m (bs.map BuiltExpr.ir)).take 64 = inferExprTypes scope es := by
    rw [hwidths]
    exact List.take_of_length_le (by rw [length_inferExprTypes]; omega)
  change exprWidth m (.concat _) = _
  rw [exprWidth, hshort, inferExprType, htake, if_neg hknown, jzTypeConcat, if_pos (by omega)]
  omega

theorem sized_replicate {count : List Char} {element : ExprNode}
    (h : BuildsSized scope m (depth + 1) element)
    (hsum : 0 < inferExprType scope (.replicate count element) →
      inferExprType scope (.replicate count element) ≤ 256) :
    BuildsSized scope m depth (.replicate count element) := by
  intro b hb
  rw [irBuildNode] at hb
  split at hb
  · cases hb
  obtain ⟨o, ho, rfl⟩ := Option.map_eq_some_iff.mp hb
  refine ⟨trivial, fun hpos => ?_⟩
  have hle := hsum hpos
  have htype : inferExprType scope (.replicate count element) =
      if inferLiteralType count = 0 ∨ inferExprType scope element = 0 then 0
      else jzTypeConcat [inferLiteralType count, inferExprType scope element] := by
    rw [inferExprType]
  split at htype
  · omega
  · rename_i hknown
    rw [jzTypeConcat] at htype
    split at htype
    · simp only [List.sum_cons, List.sum_nil, Nat.add_zero] at htype
      have hcount := (@sized_buildLiteral scope m count).2 (by omega) (by omega)
      change exprWidth m (.concat [_, _]) = _
      rw [exprWidth, exprWidths, exprWidths, exprWidths, hcount, (h o ho).width (by omega)]
      simp only [List.take_succ_cons, List.take_nil, List.sum_cons, List.sum_nil, Nat.add_zero]
      omega
    · omega

end

/-! ## All expressions -/

section

variable {scope : ExprScope} {m : IRModule}

theorem inferred_lt {e : ExprNode} {depth : ℕ} (h : Builds scope depth e) :
    inferExprType scope e < 2 ^ 31 := by
  obtain ⟨b, -, hagree⟩ := h
  by_cases h0 : inferExprType scope e = 0
  · rw [h0]
    decide
  · exact (hagree (by omega)).bound

mutual

theorem built_sized (hdecl : scope.Declared m) : ∀ (e : ExprNode) (depth : ℕ), Supported scope e →
    depth + e.depth ≤ maxIrExprDepth → BuildsSized scope m depth e
  | .literal text, depth, h, hd => by
    have hlt := inferred_lt (builds_supported scope (.literal text) depth h hd)
    intro b hb
    rw [irBuildNode] at hb
    split at hb
    · cases hb
    · obtain rfl := Option.some.inj hb
      rw [inferExprType] at hlt
      refine ⟨?_, fun hpos => ?_⟩
      · rw [inferExprType]
        exact (sized_buildLiteral text).1
      · rw [inferExprType] at hpos ⊢
        exact (sized_buildLiteral text).2 hpos hlt
  | .specialDriver vcc, depth, _, _ => by
    intro b hb
    rw [irBuildNode] at hb
    split at hb
    · cases hb
    · obtain rfl := Option.some.inj hb
      refine ⟨trivial, fun hpos => ?_⟩
      rw [inferExprType] at hpos
      omega
  | .identifier name, depth, h, hd => by
    have hlt := inferred_lt (builds_supported scope (.identifier name) depth h hd)
    intro b hb
    rw [irBuildNode] at hb
    split at hb
    · cases hb
    · exact sized_identifier hdecl hlt hb
  | .unary op operand, depth, h, hd => by
    rw [ExprNode.depth] at hd
    rw [Supported] at h
    exact sized_unary (built_sized hdecl operand _ h (by omega))
  | .binary op left right, depth, h, hd => by
    have hlt := inferred_lt (builds_supported scope (.binary op left right) depth h hd)
    rw [ExprNode.depth] at hd
    rw [Supported] at h
    exact sized_binary (built_sized hdecl left _ h.1 (by omega))
      (built_sized hdecl right _ h.2.1 (by omega)) hlt
  | .ternary condition trueVal falseVal, depth, h, hd => by
    have hlt := inferred_lt
      (builds_supported scope (.ternary condition trueVal falseVal) depth h hd)
    rw [ExprNode.depth] at hd
    rw [Supported] at h
    exact sized_ternary (built_sized hdecl trueVal _ h.2.1 (by omega))
      (built_sized hdecl falseVal _ h.2.2 (by omega))
      (builds_supported scope trueVal _ h.2.1 (by omega))
      (builds_supported scope falseVal _ h.2.2 (by omega)) hlt
  | .concat es, depth, h, hd => by
    rw [ExprNode.depth] at hd
    rw [Supported] at h
    obtain ⟨-, hlen, hall, hsum⟩ := h
    refine sized_concat (builtAll_sized hdecl es _ hall (by omega)) hlen fun hpos => ?_
    obtain ⟨_, _, hagrees⟩ := buildsAll_supported scope es (depth + 1) hall (by omega)
    have htake : (inferExprTypes scope es).take 16 = inferExprTypes scope es :=
      List.take_of_length_le (by rw [length_inferExprTypes]; exact hlen)
    have hknown : 0 ∉ inferExprTypes scope es := fun h => by
      rw [inferExprType, htake, if_pos h] at hpos
      omega
    rw [(hagrees hknown).1]
    exact hsum
  | .replicate count element, depth, h, hd => by
    obtain ⟨_, _, hagree⟩ := builds_supported scope (.replicate count element) depth h hd
    rw [ExprNode.depth] at hd
    rw [Supported] at h
    refine sized_replicate (built_sized hdecl element _ h.1 (by omega)) fun hpos => ?_
    rw [(hagree hpos).prescribed]
    exact h.2.2
  | .slice base msb lsb, depth, h, hd =>
    sized_slice (inferred_lt (builds_supported scope (.slice base msb lsb) depth h hd))
  | .lit width value, depth, h, hd => by
    rw [Supported] at h
    obtain ⟨w, v, hw, hv, hpos, hlt, hnn⟩ := h
    intro b hb
    rw [irBuildNode] at hb
    split at hb
    · cases hb
    rw [buildLit, hw, hv] at hb
    dsimp only at hb
    rw [if_neg (by omega)] at hb
    obtain rfl := Option.some.inj hb
    refine ⟨trivial, fun hinfer => ?_⟩
    rw [inferExprType, litWidth, hw, hv] at hinfer ⊢
    dsimp only at hinfer ⊢
    split at hinfer
    · omega
    split at hinfer
    · omega
    rename_i hc hc'
    rw [if_neg hc, if_neg hc']
    exact exprWidth_literal rfl hinfer
  | .compileTime .., _, h, _ => by
    rw [Supported] at h
    exact h.elim
  | .pair op left right, depth, h, hd => by
    have hlt := inferred_lt (builds_supported scope (.pair op left right) depth h hd)
    rw [ExprNode.depth] at hd
    rw [Supported] at h
    exact sized_pair (built_sized hdecl left _ h.1 (by omega)) hlt
  | .single op source, depth, h, hd => by
    have hlt := inferred_lt (builds_supported scope (.single op source) depth h hd)
    rw [ExprNode.depth] at hd
    rw [Supported] at h
    exact sized_single (built_sized hdecl source _ h.1 (by omega)) hlt
  | .gbit source index, depth, h, hd => by
    rw [ExprNode.depth] at hd
    rw [Supported] at h
    exact sized_gbit (built_sized hdecl source _ h.1 (by omega))
  | .sbit source index set, depth, h, hd => by
    rw [ExprNode.depth] at hd
    rw [Supported] at h
    exact sized_sbit (built_sized hdecl source _ h.1 (by omega))
  | .gslice source index _, depth, h, hd => by
    rw [ExprNode.depth] at hd
    rw [Supported] at h
    exact sized_gslice (built_sized hdecl source _ h.1 (by omega))
  | .sslice source index _ value, depth, h, hd => by
    rw [ExprNode.depth] at hd
    rw [Supported] at h
    exact sized_sslice (built_sized hdecl source _ h.1 (by omega))
  | .b2oh index width, depth, h, hd => by
    have hlt := inferred_lt (builds_supported scope (.b2oh index width) depth h hd)
    rw [ExprNode.depth] at hd
    rw [Supported] at h
    exact sized_b2oh (built_sized hdecl index _ h.1 (by omega)) hlt

theorem builtAll_sized (hdecl : scope.Declared m) : ∀ (es : List ExprNode) (depth : ℕ),
    SupportedAll scope es → depth + ExprNode.depth.depths es ≤ maxIrExprDepth →
      ∀ e ∈ es, BuildsSized scope m depth e
  | [], _, _, _ => by simp
  | e :: rest, depth, h, hd => by
    rw [ExprNode.depth.depths] at hd
    rw [SupportedAll] at h
    exact List.forall_mem_cons.mpr ⟨built_sized hdecl e _ h.1 (by omega),
      builtAll_sized hdecl rest _ h.2 (by omega)⟩

end

/-- The module of the scope with one bit. -/
def oneBitModule : IRModule := ⟨[⟨0, .net, 1⟩], [], [], .null⟩

theorem oneBitScope_declared : oneBitScope.Declared oneBitModule := by
  intro name sym hname _ id hid sig hsig
  obtain rfl := Option.some.inj hname
  obtain rfl := Option.some.inj hid
  obtain rfl := Option.some.inj hsig
  rfl

end

end JzHdl

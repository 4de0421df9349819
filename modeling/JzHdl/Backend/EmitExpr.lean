import JzHdl.Ir.Syntax
import JzHdl.Lib.Precedence

/-! # Emission of expressions

The Verilog backend prints an expression below the precedence of its context.
An operand is parenthesised when its own precedence is strictly lower, on the
left and on the right alike. The text is kept as the list of its tokens.
-/

namespace JzHdl

open BitWords Precedence

abbrev VerilogToken := Token String String

/-- The operator text of the kinds that are printed between their operands. -/
def infixText : IRBinaryOp → Option String
  | .add => some "+"
  | .sub => some "-"
  | .mul => some "*"
  | .div => some "/"
  | .mod => some "%"
  | .and => some "&"
  | .or => some "|"
  | .xor => some "^"
  | .shl => some "<<"
  | .shr => some ">>"
  | .ashr => some ">>>"
  | .eq => some "=="
  | .neq => some "!="
  | .lt => some "<"
  | .gt => some ">"
  | .lte => some "<="
  | .gte => some ">="
  | .logicalAnd => some "&&"
  | .logicalOr => some "||"
  | .usub | .ssub | .umin | .umax | .smin | .smax => none

def unaryText : IRUnaryOp → String
  | .not => "~"
  | .neg => "-"
  | .logicalNot => "!"

def binaryPrecedence : IRBinaryOp → ℕ
  | .mul | .div | .mod => 12
  | .add | .sub => 11
  | .shl | .shr | .ashr => 10
  | .lt | .gt | .lte | .gte => 9
  | .eq | .neq => 8
  | .and => 7
  | .xor => 6
  | .or => 5
  | .logicalAnd => 4
  | .logicalOr => 3
  | .usub | .ssub => 11
  | .umin | .umax | .smin | .smax => 14

def intrinsicPrecedence : IRIntrinsicOp → ℕ
  | .umul | .smul => 12
  | .uadd | .sadd => 11
  | .gbit | .sbit | .gslice | .sslice | .oh2b | .b2oh | .prienc | .lzc
  | .abs | .popcount | .reverse | .bswap | .reduceAnd | .reduceOr | .reduceXor => 14

def exprPrecedence : IRExpr → ℕ
  | .literal .. | .signalRef .. | .concat .. | .slice .. | .sliceExpr .. => 14
  | .unary .. => 13
  | .binary op .. => binaryPrecedence op
  | .intrinsic op .. => intrinsicPrecedence op
  | .ternary .. => 1
  | .null | .memRead .. => 0

def emitLiteral (lit : IRLiteral) : String :=
  if lit.width = 0 then toString (lit.words.get 0).toNat
  else if lit.isZ then
    toString lit.width ++ "'b" ++ String.ofList (List.replicate lit.width 'z')
  else
    toString lit.width ++ "'b" ++ String.ofList
      ((List.range lit.width).reverse.map fun i => if lit.words.bit i then '1' else '0')

/--
What the printer looks up in the module, and the text of the kinds that are
lowered to longer expressions.
-/
structure EmitContext where

  signalName : ℕ → Option String

  lowered : IRExpr → ℕ → List VerilogToken

namespace EmitContext

variable (ctx : EmitContext)

def signalText (signalId : ℕ) : String := (ctx.signalName signalId).getD "1'b0"

def sliceText (signalId msb lsb : ℕ) : String :=
  let name := (ctx.signalName signalId).getD "/*slice*/1'b0"
  if msb = lsb then name ++ "[" ++ toString msb ++ "]"
  else name ++ "[" ++ toString msb ++ ":" ++ toString lsb ++ "]"

end EmitContext

/-- The mask that keeps the low `width` bits. -/
def maskText (width : ℕ) : String :=
  if 1 < width then "\x7b" ++ toString width ++ "\x7b1'b1\x7d\x7d" else "1'b1"

mutual

def emitExprInternal (ctx : EmitContext) : IRExpr → ℕ → List VerilogToken
  | .null, _ => [.leaf "1'b0"]
  | .literal lit _, p => paren (14 < p) [.leaf (emitLiteral lit)]
  | .signalRef signalId _, p => paren (14 < p) [.leaf (ctx.signalText signalId)]
  | .unary op e _, p => paren (13 < p) (.sym (unaryText op) :: emitExprInternal ctx e 13)
  | .binary op l r w, p =>
    match infixText op with
    | some text => paren (binaryPrecedence op < p)
        (emitExprInternal ctx l (binaryPrecedence op) ++
          .sym text :: emitExprInternal ctx r (binaryPrecedence op))
    | none => ctx.lowered (.binary op l r w) p
  | .ternary c t f, p => paren (1 < p)
      (emitExprInternal ctx c 1 ++ .question :: (emitExprInternal ctx t 1 ++
        .colon :: emitExprInternal ctx f 1))
  | .concat es, p => paren (14 < p) (.lbrace :: emitOperands ctx es)
  | .slice signalId msb lsb _, p => paren (14 < p) [.leaf (ctx.sliceText signalId msb lsb)]
  | .sliceExpr e msb lsb, p => paren (14 < p)
      ([.lparen, .lparen, .lparen] ++ emitExprInternal ctx e 0 ++
        [.rparen, .sym ">>", .leaf (toString lsb), .rparen, .sym "&",
          .leaf (maskText (msb - lsb + 1)), .rparen])
  | .intrinsic op s i v ew w, p => ctx.lowered (.intrinsic op s i v ew w) p
  | .memRead name address w, p => ctx.lowered (.memRead name address w) p

/-- The operands of a concatenation, separated by commas, and the closing brace. -/
def emitOperands (ctx : EmitContext) : List IRExpr → List VerilogToken
  | [] => [.rbrace]
  | [e] => emitExprInternal ctx e 0 ++ [.rbrace]
  | e :: e' :: es => emitExprInternal ctx e 0 ++ .comma :: emitOperands ctx (e' :: es)

end

def emitExpr (ctx : EmitContext) (e : IRExpr) : List VerilogToken := emitExprInternal ctx e 0

/-! ## The operators of the target -/

/-- The binary operators that are printed between their operands. -/
abbrev InfixOp := { op : IRBinaryOp // (infixText op).isSome }

def InfixOp.text (op : InfixOp) : String := (infixText op.1).get op.2

def verilogUnary : String → Option IRUnaryOp
  | "~" => some .not
  | "-" => some .neg
  | "!" => some .logicalNot
  | _ => none

def verilogBinary : String → Option InfixOp
  | "+" => some ⟨.add, rfl⟩
  | "-" => some ⟨.sub, rfl⟩
  | "*" => some ⟨.mul, rfl⟩
  | "/" => some ⟨.div, rfl⟩
  | "%" => some ⟨.mod, rfl⟩
  | "&" => some ⟨.and, rfl⟩
  | "|" => some ⟨.or, rfl⟩
  | "^" => some ⟨.xor, rfl⟩
  | "<<" => some ⟨.shl, rfl⟩
  | ">>" => some ⟨.shr, rfl⟩
  | ">>>" => some ⟨.ashr, rfl⟩
  | "==" => some ⟨.eq, rfl⟩
  | "!=" => some ⟨.neq, rfl⟩
  | "<" => some ⟨.lt, rfl⟩
  | ">" => some ⟨.gt, rfl⟩
  | "<=" => some ⟨.lte, rfl⟩
  | ">=" => some ⟨.gte, rfl⟩
  | "&&" => some ⟨.logicalAnd, rfl⟩
  | "||" => some ⟨.logicalOr, rfl⟩
  | _ => none

/-- The operators of the target language at the levels the printer lists. -/
def verilog : Operators String IRUnaryOp InfixOp where
  unarySym := unaryText
  binarySym := InfixOp.text
  asUnary := verilogUnary
  asBinary := verilogBinary
  level op := binaryPrecedence op.1
  unaryLevel := 13
  asUnary_unarySym op := by cases op <;> rfl
  asBinary_binarySym := by
    rintro ⟨op, h⟩
    cases op <;> first | rfl | cases h
  one_lt_level := by
    rintro ⟨op, h⟩
    cases op <;> simp [binaryPrecedence]
  one_lt_unaryLevel := by decide
  level_lt_unaryLevel := by
    rintro ⟨op, h⟩
    cases op <;> simp [infixText] at h <;> simp [binaryPrecedence]

/-! ## Expressions without lowering -/

mutual

/-- Built from literals, signals, slices, concatenations and operators. -/
def Plain : IRExpr → Prop
  | .literal .. | .signalRef .. | .slice .. => True
  | .unary _ e _ => Plain e
  | .binary op l r _ => (infixText op).isSome ∧ Plain l ∧ Plain r
  | .ternary c t f => Plain c ∧ Plain t ∧ Plain f
  | .concat es => PlainAll es
  | .null | .sliceExpr .. | .intrinsic .. | .memRead .. => False

def PlainAll : List IRExpr → Prop
  | [] => True
  | e :: es => Plain e ∧ PlainAll es

end

mutual

/-- The operators, operands and grouping of an expression over the texts of its leaves. -/
def shape (ctx : EmitContext) : IRExpr → Tree String IRUnaryOp InfixOp
  | .literal lit _ => .leaf (emitLiteral lit)
  | .signalRef signalId _ => .leaf (ctx.signalText signalId)
  | .slice signalId msb lsb _ => .leaf (ctx.sliceText signalId msb lsb)
  | .unary op e _ => .unary op (shape ctx e)
  | .binary op l r _ =>
    if h : (infixText op).isSome then .binary ⟨op, h⟩ (shape ctx l) (shape ctx r)
    else .leaf "1'b0"
  | .ternary c t f => .ternary (shape ctx c) (shape ctx t) (shape ctx f)
  | .concat es => .group (shapeAll ctx es)
  | .null | .sliceExpr .. | .intrinsic .. | .memRead .. => .leaf "1'b0"

def shapeAll (ctx : EmitContext) : List IRExpr → List (Tree String IRUnaryOp InfixOp)
  | [] => []
  | e :: es => shape ctx e :: shapeAll ctx es

end

mutual

/--
No binary operator has a right operand of its own precedence, and no ternary
operator has a ternary condition.
-/
def LeftNested : IRExpr → Prop
  | .unary _ e _ => LeftNested e
  | .binary op l r _ => LeftNested l ∧ LeftNested r ∧ exprPrecedence r ≠ binaryPrecedence op
  | .ternary c t f =>
    LeftNested c ∧ LeftNested t ∧ LeftNested f ∧ exprPrecedence c ≠ exprPrecedence (.ternary c t f)
  | .concat es => LeftNestedAll es
  | _ => True

def LeftNestedAll : List IRExpr → Prop
  | [] => True
  | e :: es => LeftNested e ∧ LeftNestedAll es

end

variable {ctx : EmitContext}

theorem shape_binary {op : IRBinaryOp} (h : (infixText op).isSome) (l r : IRExpr) (w : ℕ) :
    shape ctx (.binary op l r w) = .binary ⟨op, h⟩ (shape ctx l) (shape ctx r) := by
  simp only [shape, h, dite_true]

theorem prec_shape : ∀ {e : IRExpr}, Plain e → verilog.prec (shape ctx e) = exprPrecedence e
  | .literal .., _ | .signalRef .., _ | .slice .., _ | .concat _, _ => rfl
  | .unary .., _ | .ternary .., _ => rfl
  | .binary op l r _, h => by
    rw [shape_binary h.1]
    rfl

mutual

/-- The printer is the precedence printer of the shape. -/
theorem emitExprInternal_eq_print :
    ∀ (e : IRExpr), Plain e → ∀ p, emitExprInternal ctx e p = verilog.print (shape ctx e) p
  | .literal .., _, p | .signalRef .., _, p | .slice .., _, p => rfl
  | .unary op e _, h, p => by
    have he := emitExprInternal_eq_print e h 13
    simp only [emitExprInternal, he, shape, Operators.print, Operators.body]
    rfl
  | .binary op l r _, ⟨hop, hl, hr⟩, p => by
    obtain ⟨text, htext⟩ := Option.isSome_iff_exists.mp hop
    have hsym : verilog.binarySym ⟨op, hop⟩ = text := by
      simp only [verilog, InfixOp.text, htext, Option.get_some]
    rw [shape_binary hop]
    simp only [emitExprInternal, htext, Operators.print, Operators.body, hsym,
      emitExprInternal_eq_print l hl, emitExprInternal_eq_print r hr]
    rfl
  | .ternary c t f, ⟨hc, ht, hf⟩, p => by
    simp only [emitExprInternal, shape, Operators.print, Operators.body,
      emitExprInternal_eq_print c hc, emitExprInternal_eq_print t ht,
      emitExprInternal_eq_print f hf]
    rfl
  | .concat es, h, p => by
    simp only [emitExprInternal, shape, Operators.print, Operators.body,
      emitOperands_eq_items es h]
    rfl

theorem emitOperands_eq_items : ∀ (es : List IRExpr), PlainAll es →
    emitOperands ctx es = verilog.items (shapeAll ctx es)
  | [], _ => rfl
  | [e], h => by
    simp only [emitOperands, shapeAll, Operators.items, emitExprInternal_eq_print e h.1,
      Operators.print]
    rfl
  | e :: e' :: es, h => by
    have ih := emitOperands_eq_items (e' :: es) h.2
    simp only [shapeAll] at ih
    simp only [emitOperands, shapeAll, Operators.items, emitExprInternal_eq_print e h.1, ih,
      Operators.print]
    rfl

end

mutual

theorem grouped_shape_iff :
    ∀ (e : IRExpr), Plain e → (verilog.Grouped (shape ctx e) ↔ LeftNested e)
  | .literal .., _ | .signalRef .., _ | .slice .., _ => by
    simp only [shape, Operators.Grouped, LeftNested]
  | .unary op e _, h => by
    simpa only [shape, Operators.Grouped, LeftNested] using grouped_shape_iff e h
  | .binary op l r _, ⟨hop, hl, hr⟩ => by
    rw [shape_binary hop]
    simp only [Operators.Grouped, LeftNested, grouped_shape_iff l hl, grouped_shape_iff r hr,
      prec_shape hr]
    rfl
  | .ternary c t f, ⟨hc, ht, hf⟩ => by
    simp only [shape, Operators.Grouped, LeftNested, grouped_shape_iff c hc,
      grouped_shape_iff t ht, grouped_shape_iff f hf, prec_shape hc, exprPrecedence]
  | .concat es, h => by
    simpa only [shape, Operators.Grouped, LeftNested] using groupedAll_shape_iff es h

theorem groupedAll_shape_iff : ∀ (es : List IRExpr), PlainAll es →
    (verilog.GroupedAll (shapeAll ctx es) ↔ LeftNestedAll es)
  | [], _ => by simp only [shapeAll, Operators.GroupedAll, LeftNestedAll]
  | e :: es, h => by
    simp only [shapeAll, Operators.GroupedAll, LeftNestedAll, grouped_shape_iff e h.1,
      groupedAll_shape_iff es h.2]

end

/--
The text of an expression reads as the expression exactly when no operand sits
to the right of an operator of its own precedence or under a ternary condition.
-/
theorem emitExprInternal_reparse_iff (ctx : EmitContext) {e : IRExpr} (h : Plain e) (p : ℕ) :
    verilog.parse (emitExprInternal ctx e p) = some (shape ctx e) ↔ LeftNested e := by
  rw [emitExprInternal_eq_print e h, Operators.parse_print_iff, grouped_shape_iff e h]

def letters : EmitContext where
  signalName id := [some "a", some "b", some "c"].getD id none
  lowered _ _ := []

/-- A chain to the left keeps its grouping inside a product. -/
theorem emitExprInternal_reparse_leftChain :
    let chain := IRExpr.binary .sub (.binary .sub (.signalRef 0 8) (.signalRef 1 8) 8)
      (.signalRef 2 8) 8
    (Plain chain ∧ LeftNested chain) ∧
      verilog.parse (emitExprInternal letters chain 12) = some (shape letters chain) := by
  have hplain : Plain (.binary .sub (.binary .sub (.signalRef 0 8) (.signalRef 1 8) 8)
      (.signalRef 2 8) 8) := by simp [Plain, infixText]
  have hnested : LeftNested (.binary .sub (.binary .sub (.signalRef 0 8) (.signalRef 1 8) 8)
      (.signalRef 2 8) 8) := by
    simp [LeftNested, exprPrecedence, binaryPrecedence]
  exact ⟨⟨hplain, hnested⟩, (emitExprInternal_reparse_iff letters hplain 12).mpr hnested⟩

/-- A difference of a difference reads as a chain to the left. -/
theorem emitExpr_sub_sub :
    let e := IRExpr.binary .sub (.signalRef 0 8)
      (.binary .sub (.signalRef 1 8) (.signalRef 2 8) 8) 8
    Plain e ∧ emitExpr letters e = [.leaf "a", .sym "-", .leaf "b", .sym "-", .leaf "c"] ∧
      verilog.parse (emitExpr letters e) ≠ some (shape letters e) := by
  refine ⟨by simp [Plain, infixText], by decide +kernel, fun h => ?_⟩
  have hread : verilog.parse (emitExpr letters (.binary .sub (.signalRef 0 8)
      (.binary .sub (.signalRef 1 8) (.signalRef 2 8) 8) 8)) =
      some (.binary ⟨.sub, rfl⟩ (.binary ⟨.sub, rfl⟩ (.leaf "a") (.leaf "b")) (.leaf "c")) := rfl
  rw [hread, Option.some.injEq, shape_binary rfl] at h
  injection h with _ hleft _
  cases hleft

end JzHdl

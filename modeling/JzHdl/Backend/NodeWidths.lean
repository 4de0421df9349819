import JzHdl.Backend.PrintedWidth

/-! # Widths of printed operands

What the text of a node contributes to a text around it, over the declared
widths of its operands. Where all parts of an operand are printed with their
widths, its text has this form in every context, also as an amount that stands
without parentheses.
-/

namespace JzHdl

open VerilogText EmitNode

namespace IRNode

def children : IRNode → List IRNode
  | literal .. | specialDriver .. | signalRef .. | slice .. | memPort .. => []
  | unary _ e _ | sliceExpr e _ _ _ | memRead _ _ e _ | single _ e _ | b2oh e _ => [e]
  | binary _ l r _ | pair _ l r _ => [l, r]
  | gbit l r _ | gslice l r _ _ => [l, r]
  | ternary c t f _ => [c, t, f]
  | sbit s i v _ | sslice s i v _ _ => [s, i, v]
  | concat es _ => es

/-- `s` occurs in `e`. -/
inductive Sub : IRNode → IRNode → Prop where

  | refl (e : IRNode) : Sub e e

  | child {s c e : IRNode} (h : Sub s c) (hc : c ∈ e.children) : Sub s e

theorem forall_sub {P : IRNode → Prop} {e : IRNode} (he : P e)
    (h : ∀ c ∈ e.children, ∀ s, Sub s c → P s) : ∀ s, Sub s e → P s := by
  intro s hs
  cases hs with
  | refl => exact he
  | child hs hc => exact h _ hc s hs

theorem forall_sub_leaf {P : IRNode → Prop} {id w : ℕ} (h : P (.signalRef id w)) :
    ∀ s, Sub s (.signalRef id w) → P s :=
  forall_sub h nofun

/-- What holds of a node and of two operands without operands of their own. -/
theorem forall_sub_pair {P : IRNode → Prop} {e l r : IRNode} (hchildren : e.children = [l, r])
    (he : P e) (hl : ∀ s, Sub s l → P s) (hr : ∀ s, Sub s r → P s) : ∀ s, Sub s e → P s := by
  refine forall_sub he fun c hc => ?_
  rw [hchildren] at hc
  rcases List.mem_cons.mp hc with rfl | hc
  · exact hl
  · rcases List.mem_cons.mp hc with rfl | hc
    · exact hr
    · cases hc

theorem sizeOf_child {c e : IRNode} (h : c ∈ e.children) : sizeOf c < sizeOf e := by
  cases e with
  | concat es w =>
    have hlt := List.sizeOf_lt_of_mem (show c ∈ es from h)
    simp only [concat.sizeOf_spec]
    omega
  | _ => simp only [children, List.mem_cons, List.not_mem_nil, or_false] at h <;> grind

theorem induct {motive : IRNode → Prop}
    (h : ∀ e, (∀ c ∈ e.children, motive c) → motive e) (e : IRNode) : motive e :=
  h e fun c hc =>
    have := sizeOf_child hc
    induct h c
termination_by sizeOf e

end IRNode

/-! ## The width of a template -/

/-- An operand in the context of level `p`, where `σ` is its text without one. -/
def operand (e : IRNode) (p : ℕ) (σ : Spread) : Spread :=
  if EmitNode.exprPrecedence e < p then .tight e.width true else σ

/-- The width of a padded operand, where `σ` is its text with a select after it. -/
def paddedSized (arg : IRNode) (σ : Spread) (targetWidth : ℕ) (signExtend : Bool) : Sized :=
  if arg.width = 0 ∨ targetWidth ≤ arg.width then .value arg.width true
  else if signExtend = true ∧ msbToken arg = none then
    .value ((targetWidth - arg.width) * σ.width + arg.width) σ.legal
  else .value targetWidth true

def pairSpread (op : PairBuiltin) (w : ℕ) (left right : ℕ → Bool → Sized) : Spread :=
  let wider (target : ℕ) (signed : Bool) : Spread :=
    .tight (max (left target signed).width (right target signed).width)
      ((left target signed).legal && (right target signed).legal)
  if w = 0 then .tight 1 true
  else match op with
    | .uadd | .usub | .umin | .umax => wider w false
    | .sadd | .ssub | .smin | .smax => wider w true
    | .smul => if w / 2 = 0 then .tight 0 false else wider (w / 2) true
    -- An unsigned product is printed with half of its width, which no declaration has.
    | .umul => .tight 0 false

/-- The text leaves a conditional operator open. -/
def loose : IRNode → Bool
  | .unary _ e _ => if EmitNode.exprPrecedence e < 13 then false else loose e
  | .binary op l r _ =>
    (if EmitNode.exprPrecedence l < infixPrecedence op then false else loose l) ||
      (if EmitNode.exprPrecedence r < infixPrecedence op then false else loose r)
  | .ternary .. => true
  | .single op e w => (singleSpread op w e.width).loose
  | _ => false

/-- The width of an operand of `n` bits shifted by the amount `e` without parentheses: operators
that bind more loosely than the shift apply to its result. -/
def lead : IRNode → ℕ → ℕ
  | .binary op l r w, n =>
    if loose (.binary op l r w) then w
    else if infixPrecedence op < 10 then
      (infixSym op).binaryWidth
        (if EmitNode.exprPrecedence l < infixPrecedence op then n else lead l n)
        r.width
    else n
  | e, n => if loose e then e.width else n

section

variable (scope : EmitScope)

def memorySpread : MemoryText → Spread
  | .missing => .tight 1 true
  | .intermediate name | .array name _ => .tight (scope.declaredWidth name) true

mutual

/-- What the text of an expression contributes, over the declared widths of its operands. -/
def spread : IRNode → Spread
  | .literal lit _ => .tight (if lit.width = 0 then 32 else lit.width) true
  | .specialDriver _ w => .tight (if 0 < w then w else 1) true
  | .signalRef id _ => .tight ((scope.signalName id).elim 1 scope.declaredWidth) true
  | .unary op e _ => (operand e 13 (spread e)).unary (unarySym op)
  | .binary op l r _ => .binary (infixSym op) (operand l (infixPrecedence op) (spread l))
      (operand r (infixPrecedence op) (spread r))
  | .ternary c t f _ =>
    .ternary (operand c 1 (spread c)) t.width true (operand f 1 (spread f))
  | .concat es _ => .tight (es.map IRNode.width).sum (!es.isEmpty)
  | .slice id msb lsb _ =>
    .tight (if msb = lsb then 1 else msb + 1 - lsb) (scope.signalName id).isSome
  | .sliceExpr e msb lsb _ => .tight (max e.width (max 1 (msb + 1 - lsb))) true
  | .memRead memory port _ _ | .memPort memory port _ =>
    memorySpread scope (scope.memoryText memory port)
  | .pair op l r w =>
    pairSpread op w (paddedSized l (selected l 10)) (paddedSized r (selected r 10))
  | .single op e w => singleSpread op w e.width
  | .b2oh e w => .tight (if w = 0 then 1 else max (lead e w) w) true
  | .gbit e i _ =>
    .tight (max (max (operand e 10 (spread e)).arms (lead i (operand e 10 (spread e)).tail)) 1) true
  | .gslice e _ ew w => .tight (max e.width (if ew = 0 then max w 1 else ew)) true
  | .sbit e i v w =>
    .tight (if w = 0 then 1 else max e.width (max (w * v.width) (lead i w))) true
  | .sslice e i v ew w =>
    let elem := if ew = 0 then v.width else ew
    .tight (if w = 0 ∨ elem = 0 then 1 else
      max e.width (max (lead i elem) (lead i (paddedSized v (.tight 1 true) w false).width))) true

/-- The text of an expression in the context of level `p` with a select after it. -/
def selected : IRNode → ℕ → Spread
  | .signalRef id _, _ => .tight 1 (scope.signalName id).isSome
  | .unary op e _, _ => (selected e 13).unary (unarySym op)
  | .binary op l r _, p =>
    if infixPrecedence op < p then .tight 1 false
    else .binary (infixSym op) (operand l (infixPrecedence op) (spread l))
      (selected r (infixPrecedence op))
  | _, _ => .tight 1 false

end

/-- The level at which the text of an expression binds by itself. -/
def binds : IRNode → ℕ
  | .ternary .. => 2
  | .binary op .. => infixPrecedence op
  | _ => 13

/-- The expression is printed as `spread` says, with its declared width. -/
def Exact (e : IRNode) : Prop :=
  Spreads scope.decl (binds e) (EmitNode.emitExpr scope.toEmitNames e) (spread scope e) ∧
    (spread scope e).legal = true ∧ (spread scope e).width = e.width

def Deep (e : IRNode) : Prop := ∀ s, IRNode.Sub s e → Exact scope s

end

/-! ## Operands -/

theorem infixSym_level (op : InfixKind) : (infixSym op).level = infixPrecedence op := by
  cases op <;> rfl

theorem infixPrecedence_bounds (op : InfixKind) :
    2 ≤ infixPrecedence op ∧ infixPrecedence op ≤ 12 := by
  cases op <;> decide

theorem two_le_binds (e : IRNode) : 2 ≤ binds e ∧ binds e ≤ 13 := by
  cases e with
  | binary op =>
    have := infixPrecedence_bounds op
    exact ⟨this.1, by simp only [binds]; omega⟩
  | _ => simp [binds]

/-- An operand that is printed without parentheses binds as tightly as its context. -/
theorem le_binds {e : IRNode} {q : ℕ} (hq : 2 ≤ q) (hq13 : q ≤ 13)
    (h : q ≤ EmitNode.exprPrecedence e) :
    q ≤ binds e := by
  cases e with
  | ternary | memRead | memPort | binary =>
    simp only [EmitNode.exprPrecedence, binds] at h ⊢
    omega
  | _ => exact hq13

theorem emitExpr_binary (names : EmitNames) (op : InfixKind) (l r : IRNode) (w : ℕ) :
    EmitNode.emitExpr names (.binary op l r w) =
      EmitNode.emitExprInternal names l (infixPrecedence op) ++
        .sym (infixSym op) :: EmitNode.emitExprInternal names r (infixPrecedence op) := by
  simp [EmitNode.emitExpr, EmitNode.emitExprInternal, EmitNode.paren]

theorem paren_zero (n : ℕ) (ts : List Tok) : EmitNode.paren (n < 0) ts = ts := by
  rw [EmitNode.paren, if_neg (Nat.not_lt_zero n)]

variable {scope : EmitScope}

theorem Deep.exact {e : IRNode} (h : Deep scope e) : Exact scope e := h e (.refl e)

theorem Deep.child {e c : IRNode} (h : Deep scope e) (hc : c ∈ e.children) : Deep scope c :=
  fun s hs => h s (.child hs hc)

theorem operand_loose (e : IRNode) (p : ℕ) (σ : Spread) :
    (operand e p σ).loose = if EmitNode.exprPrecedence e < p then false else σ.loose := by
  unfold operand
  split <;> rfl

theorem spread_loose : ∀ e : IRNode, (spread scope e).loose = loose e
  | .unary op e _ => by
    have ih := spread_loose e
    rw [spread, loose, ← ih, ← operand_loose]
    rcases h : (operand e 13 (spread scope e)).loose <;> simp [Spread.unary, Spread.tight, h]
  | .binary op l r _ => by
    have ihl := spread_loose l
    have ihr := spread_loose r
    rw [spread, loose, ← ihl, ← ihr, ← operand_loose, ← operand_loose]
    rcases h : (operand r (infixPrecedence op) (spread scope r)).loose <;>
      simp [Spread.binary, h]
  | .ternary .. => rfl
  | .single .. => rfl
  | .pair op _ _ w => by
    rw [spread]
    unfold pairSpread
    dsimp only
    split
    · rfl
    · cases op <;> first | rfl | (dsimp only; split <;> rfl)
  | .memRead memory port _ _ | .memPort memory port _ => by
    rw [spread]
    cases scope.memoryText memory port <;> rfl
  | .literal .. | .specialDriver .. | .signalRef .. | .concat .. | .slice .. | .sliceExpr ..
  | .b2oh .. | .gbit .. | .gslice .. | .sbit .. | .sslice .. => rfl

namespace Exact

variable {e : IRNode}

theorem prints_self (h : Exact scope e) :
    Prints scope.decl (EmitNode.emitExpr scope.toEmitNames e) e.width := by
  obtain ⟨a, ha, hwidth, hlegal⟩ := h.1.closed (two_le_binds e).1
  exact ⟨a, ha, hwidth.trans h.2.2, hlegal.trans h.2.1⟩

theorem prints (h : Exact scope e) (p : ℕ) :
    Prints scope.decl (EmitNode.emitExprInternal scope.toEmitNames e p) e.width := by
  rw [emitExprInternal_eq, EmitNode.paren]
  split
  · exact .of_phrase (by omega) h.prints_self.group
  · exact h.prints_self

theorem spreads (h : Exact scope e) {p q : ℕ} (hq : 2 ≤ q) (hq13 : q ≤ 13) (hqp : q ≤ max p 2) :
    Spreads scope.decl q (EmitNode.emitExprInternal scope.toEmitNames e p)
      (operand e p (spread scope e)) := by
  rw [emitExprInternal_eq, EmitNode.paren, operand]
  split
  · exact spreads_value (by omega) (by omega) h.prints_self.group
  · rename_i hp
    refine h.1.weaken (by omega) ?_
    have := two_le_binds e
    by_cases hq2 : q = 2
    · omega
    · exact le_binds hq hq13 (by omega)

theorem operand_width (h : Exact scope e) (p : ℕ) :
    (operand e p (spread scope e)).width = e.width := by
  unfold operand
  split
  · simp [Spread.width, Spread.tight]
  · exact h.2.2

theorem operand_legal (h : Exact scope e) (p : ℕ) :
    (operand e p (spread scope e)).legal = true := by
  unfold operand
  split
  · rfl
  · exact h.2.1

end Exact

/-! ## Amounts without parentheses -/

/-- The operator of a shift. -/
def IsShift (s : OpSym) : Prop := s = .shl ∨ s = .shr

theorem IsShift.level {s : OpSym} (h : IsShift s) : s.level = 10 := by
  rcases h with rfl | rfl <;> rfl

theorem IsShift.width {s : OpSym} (h : IsShift s) (a b : ℕ) : s.binaryWidth a b = a := by
  rcases h with rfl | rfl <;> rfl

section

variable {s : OpSym} {l : List Tok} {a : Sized}

/-- An amount that binds as tightly as the shift. -/
theorem shift_tight (hs : IsShift s) (hl : Phrase scope.decl 10 l a) {r : List Tok} {b : Sized}
    (hr : Phrase scope.decl 10 r b) :
    Phrase scope.decl 10 (l ++ .sym s :: r) (.value a.width (a.legal && b.legal)) := by
  have hlevel := hs.level
  have hout := (hlevel ▸ hl : Phrase scope.decl s.level l a).binary_right (by omega) hr hlevel.symm
  rw [hlevel] at hout
  simpa only [Sized.binary, Sized.value, hs.width] using hout

theorem lead_of_tight {e : IRNode} (hbinds : 10 ≤ binds e) (hloose : loose e = false) (n : ℕ) :
    lead e n = n := by
  cases e with
  | binary op l r w =>
    simp only [binds] at hbinds
    rw [lead, if_neg (by rw [hloose]; decide), if_neg (by omega)]
  | _ => simp [lead, hloose]

theorem lead_of_loose {e : IRNode} (hloose : loose e = true) (n : ℕ) : lead e n = e.width := by
  cases e <;> simp [lead, hloose, IRNode.width]

theorem shift_lead (hs : IsShift s) (hl : Phrase scope.decl 10 l a) : ∀ e : IRNode,
    Deep scope e → loose e = false →
    ∃ c, Phrase scope.decl (min 10 (binds e))
        (l ++ .sym s :: EmitNode.emitExpr scope.toEmitNames e) c ∧
      c.width = lead e a.width ∧ c.legal = a.legal := by
  intro e
  induction e using IRNode.induct with
  | h e ih =>
    intro hdeep hloose
    by_cases hbinds : 10 ≤ binds e
    · obtain ⟨b, hb, -, hlegal, -⟩ := hdeep.exact.1.of_tight (by rw [spread_loose, hloose])
      rw [min_eq_left hbinds, lead_of_tight hbinds hloose]
      refine ⟨_, shift_tight hs hl (hb.weaken (by omega) hbinds), rfl, ?_⟩
      rw [Sized.value, hlegal, hdeep.exact.2.1, Bool.and_true]
    · cases e with
      | binary op l' r w =>
        simp only [binds] at hbinds
        have hp := infixPrecedence_bounds op
        have hl' : Deep scope l' := hdeep.child (by simp [IRNode.children])
        have hr : Deep scope r := hdeep.child (by simp [IRNode.children])
        have hloose' := hloose
        simp only [loose, Bool.or_eq_false_iff] at hloose'
        -- The shift takes the left operand, the operator what comes out and the right operand.
        have hleft : ∃ c, Phrase scope.decl (infixPrecedence op)
            (l ++ .sym s :: EmitNode.emitExprInternal scope.toEmitNames l' (infixPrecedence op)) c ∧
            c.width = (if EmitNode.exprPrecedence l' < infixPrecedence op then a.width
              else lead l' a.width) ∧ c.legal = a.legal := by
          rw [emitExprInternal_eq, EmitNode.paren]
          split
          · have hout := shift_tight hs hl
              (hl'.exact.prints_self.group.weaken (by omega) (show 10 ≤ 14 by omega))
            refine ⟨_, hout.weaken (by omega) (by omega), rfl, ?_⟩
            rw [Sized.value, Sized.value, Bool.and_true]
          · rename_i hprec
            obtain ⟨c, hc, hout⟩ := ih l' (by simp [IRNode.children]) hl'
              (by simpa [hprec] using hloose'.1)
            exact ⟨c, hc.weaken (by omega)
              (le_min (by omega) (le_binds hp.1 (by omega) (by omega))), hout⟩
        obtain ⟨c, hc, hwidth, hlegal⟩ := hleft
        obtain ⟨d, hd, hdwidth, hdlegal, -⟩ := (hr.exact.spreads hp.1 (by omega)
          (le_max_left (infixPrecedence op) 2)).of_tight
            (by rw [operand_loose, spread_loose]; exact hloose'.2)
        have hlevel := infixSym_level op
        have hout := (hlevel ▸ hc : Phrase scope.decl (infixSym op).level _ c).binary_right
          (by omega) hd hlevel.symm
        rw [hr.exact.operand_width] at hdwidth
        rw [hr.exact.operand_legal] at hdlegal
        refine ⟨.binary (infixSym op) c d, ?_, ?_, ?_⟩
        · rw [emitExpr_binary, min_eq_right (by simp only [binds]; omega), binds, ← hlevel]
          rw [List.append_assoc, List.cons_append, hlevel] at hout
          rw [hlevel]
          exact hout
        · rw [lead, if_neg (by rw [hloose]; decide), if_pos (by omega)]
          simp only [Sized.binary, Sized.value, hwidth, hdwidth]
        · simp only [Sized.binary, Sized.value, hlegal, hdlegal, Bool.and_true]
      | ternary => cases hloose
      | _ => exact absurd (by simp [binds]) hbinds

/-- A shift by an amount without parentheses. -/
theorem prints_shift (hs : IsShift s) {σ : Spread} (hσ : Spreads scope.decl 10 l σ)
    (hlegal : σ.legal = true) {e : IRNode} (he : Deep scope e) :
    Prints scope.decl (l ++ .sym s :: EmitNode.emitExpr scope.toEmitNames e)
      (max σ.arms (lead e σ.tail)) := by
  induction hσ with
  | @tight l a hl =>
    rcases hloose : loose e with _ | _
    · obtain ⟨c, hc, hwidth, hclegal⟩ := shift_lead hs hl e he hloose
      have := two_le_binds e
      refine ⟨c, hc.weaken (le_refl 1) (by omega), ?_, hclegal.trans hlegal⟩
      simpa [Spread.tight] using hwidth
    · have hlevel := hs.level
      have hout := he.exact.1.prepend_loose (by omega)
        (hlevel ▸ hl : Phrase scope.decl s.level l a) (two_le_binds e).1
        (by rw [spread_loose, hloose])
      obtain ⟨c, hc, hwidth, hclegal⟩ := hout
      refine ⟨c, hc, ?_, ?_⟩
      · rw [hwidth, he.exact.2.2, lead_of_loose hloose]
        simp [Spread.tight]
      · rw [hclegal, he.exact.2.1, Bool.and_true]
        exact hlegal
  | @chain c t f a b σ hc ht hf ih =>
    simp only [Bool.and_eq_true] at hlegal
    obtain ⟨d, hd, hwidth, hdlegal⟩ := ih hlegal.2
    refine ⟨.ternary a b d, ?_, ?_, ?_⟩
    · rw [List.append_assoc, List.cons_append, List.append_assoc, List.cons_append]
      exact .ternary (hc.weaken (by omega) (by omega)) ht hd
    · simp only [Sized.ternary, Sized.value, hwidth, max_assoc]
    · simp only [Sized.ternary, Sized.value, hlegal.1.1, hlegal.1.2, hdlegal, Bool.and_self]

end

/-! ## Templates with an amount -/

namespace Deep

variable {e i v : IRNode} {w : ℕ}

theorem shifted_group (hs : IsShift s) {l : List Tok} (he : Deep scope e)
    (hl : Phrase scope.decl 14 l (.value w true)) :
    Phrase scope.decl 14 (group (l ++ .sym s :: EmitNode.emitExpr scope.toEmitNames e))
      (.value (lead e w) true) := by
  have hout := prints_shift hs (spreads_value (by omega) (by omega) hl) rfl he
  simpa [Spread.tight, Sized.value] using hout.group

/-- A source in a conjunction with the complement of a mask. -/
theorem cleared (he : Deep scope e) {mask : List Tok}
    (hm : Phrase scope.decl 14 mask (.value w true)) :
    Phrase scope.decl 14 (group (EmitNode.emitExprInternal scope.toEmitNames e 7 ++
      .sym .amp :: .sym .tilde :: mask)) (.value (max e.width w) true) := by
  have hnot : Phrase scope.decl 13 (.sym .tilde :: mask) (.value w true) :=
    .unary rfl (hm.weaken (by omega) (show 13 ≤ 14 by omega))
  have hand := Spreads.binary (s := .amp) (by decide)
    (he.exact.spreads (by decide) (by decide) (le_max_left 7 2))
    (.tight (hnot.weaken (by decide) (show OpSym.amp.level ≤ 13 by decide)))
  obtain ⟨c, hc, hwidth, hlegal⟩ := hand.closed (by decide)
  have hself := he.exact.operand_width 7
  have hall := he.exact.operand_legal 7
  refine Prints.group ⟨c, hc, ?_, ?_⟩
  · rw [hwidth, ← hself]
    simp [Spread.binary, Spread.tight, Spread.width, Sized.value, OpSym.binaryWidth, max_assoc]
  · rw [hlegal]
    simpa [Spread.binary, Spread.tight, Sized.value] using hall

theorem b2oh (he : Deep scope e) (w : ℕ) :
    Phrase scope.decl 14 (emitB2oh w (EmitNode.emitExpr scope.toEmitNames e))
      (.value (if w = 0 then 1 else max (lead e w) w) true) := by
  rw [emitB2oh]
  split
  · exact phrase_zeroBit
  · obtain ⟨a, ha, -, hlegal⟩ := he.exact.prints_self
    have hnum : Phrase scope.decl (OpSym.lt.level + 1) [.sized w ("d" ++ toString w)]
        (.value w true) := phrase_sized (by decide) (by decide) w _
    obtain ⟨c, hc, -, hclegal⟩ := Phrase.append (by decide) hnum (appends_lt w) ha (le_refl 1)
    have hcond := phrase_group (hc.weaken (le_refl 1) (by decide))
    have harm := he.shifted_group (.inl rfl) (Phrase.sized w "b1")
    have hout := phrase_group (.ternary (hcond.weaken (by omega) (by omega))
      (harm.weaken (by omega) (by omega)) (phrase_sized (le_refl 1) (by omega) w "b0"))
    simpa [Sized.ternary, Sized.value, hclegal, hlegal] using hout

theorem gbit (he : Deep scope e) (hi : Deep scope i) :
    Phrase scope.decl 14 (maskedShift (EmitNode.emitExprInternal scope.toEmitNames e 10)
      (EmitNode.emitExpr scope.toEmitNames i) [oneBit])
      (.value (max (max (operand e 10 (spread scope e)).arms
        (lead i (operand e 10 (spread scope e)).tail)) 1) true) := by
  obtain ⟨c, hc, hwidth, hlegal⟩ := prints_shift (.inr rfl)
    (he.exact.spreads (by decide) (by decide) (le_max_left 10 2)) (he.exact.operand_legal 10) hi
  have hout := phrase_masked hc phrase_oneBit
  rw [hwidth, hlegal] at hout
  exact hout

theorem gslice (he : Deep scope e) (hi : Deep scope i) (ew w : ℕ) :
    Phrase scope.decl 14 (emitGslice ew w (EmitNode.emitExprInternal scope.toEmitNames e 10)
      (EmitNode.emitExprInternal scope.toEmitNames i 12))
      (.value (max e.width (if ew = 0 then max w 1 else ew)) true) := by
  have helem : (if ew = 0 then (if 0 < w then w else 1) else ew) =
      if ew = 0 then max w 1 else ew := by
    split
    · split <;> omega
    · rfl
  rw [emitGslice, helem]
  generalize (if ew = 0 then max w 1 else ew) = elem
  have hamount : ∃ b, Phrase scope.decl 14 (group
      (if elem = 1 then EmitNode.emitExprInternal scope.toEmitNames i 12
        else EmitNode.emitExprInternal scope.toEmitNames i 12 ++ .sym .star :: [.decimal elem])) b ∧
      b.legal = true := by
    split
    · exact ⟨_, (hi.exact.prints 12).group, rfl⟩
    · have hmul := Spreads.binary (s := .star) (by decide)
        (hi.exact.spreads (by decide) (by decide) (le_max_left 12 2))
        (.tight ((Phrase.decimal elem).weaken (by decide)
          (show OpSym.star.level ≤ 14 by decide)))
      obtain ⟨c, hc, -, hlegal⟩ := hmul.closed (by decide)
      refine ⟨_, phrase_group hc, ?_⟩
      rw [Sized.value, hlegal]
      simpa [Spread.binary, Spread.tight] using hi.exact.operand_legal 12
  obtain ⟨b, hb, hblegal⟩ := hamount
  obtain ⟨c, hc, hwidth, hlegal⟩ := spreads_shr
    (he.exact.spreads (by decide) (by decide) (le_max_left 10 2)) hb
  have hout := phrase_masked hc
    (phrase_replicated elem phrase_oneBit)
  rw [hwidth, hlegal, he.exact.operand_width, he.exact.operand_legal, hblegal] at hout
  exact hout

theorem sbit (he : Deep scope e) (hi : Deep scope i) (hv : Deep scope v) (w : ℕ) :
    Phrase scope.decl 14 (emitSbit w (EmitNode.emitExprInternal scope.toEmitNames e 7)
      (EmitNode.emitExpr scope.toEmitNames i) (EmitNode.emitExpr scope.toEmitNames v))
      (.value (if w = 0 then 1 else max e.width (max (w * v.width) (lead i w))) true) := by
  rw [emitSbit]
  split
  · exact phrase_zeroBit
  · have hbit := hi.shifted_group (.inl rfl) (Phrase.sized w
      ("b" ++ String.ofList (List.replicate (w - 1) '0' ++ ['1'])))
    obtain ⟨a, ha, hwidth, hlegal⟩ := hv.exact.prints_self
    have hvalue : Phrase scope.decl 14 (.lbrace :: .decimal w :: .lbrace ::
        (EmitNode.emitExpr scope.toEmitNames v ++ [.rbrace, .rbrace]))
        (.value (w * v.width) true) := by
      have hout := Phrase.replicate w (.list ha)
      simpa only [Sized.closed, Sized.value, hwidth, hlegal] using hout
    have hput := phrase_infix (s := .amp) (by decide) hvalue hbit
    have hout := phrase_infix (s := .bar) (by decide) (he.cleared hbit)
      (phrase_group (hput.weaken (by omega) (by omega)))
    have hmax : max (max e.width (lead i w)) (max (w * v.width) (lead i w)) =
        max e.width (max (w * v.width) (lead i w)) := by omega
    simp only [OpSym.binaryWidth, Sized.value, hmax] at hout
    exact hout

/-- A value padded with zeros. -/
theorem padded_zero (hv : Deep scope v) (w : ℕ) : Prints scope.decl
    (emitPaddedExpr v (EmitNode.emitExprInternal scope.toEmitNames v 10) w false)
    (paddedSized v (.tight 1 true) w false).width := by
  rw [emitPaddedExpr, paddedSized]
  split
  · exact hv.exact.prints 10
  · rename_i hpad
    have hitems : List.Forall₂ (Prints scope.decl)
        [replicated (w - v.width) zeroBit, EmitNode.emitExprInternal scope.toEmitNames v 10]
        [w - v.width, v.width] :=
      .cons (.of_phrase (by omega) (phrase_replicated _ phrase_zeroBit))
        (.cons (hv.exact.prints 10) .nil)
    have hout := phrase_braces hitems (List.cons_ne_nil _ _)
    have hsum : [w - v.width, v.width].sum = w := by simp; omega
    rw [hsum] at hout
    simp only [Bool.false_eq_true, false_and, if_false]
    exact .of_phrase (by omega) hout

theorem sslice (he : Deep scope e) (hi : Deep scope i) (hv : Deep scope v) (w elem : ℕ) :
    Phrase scope.decl 14 (emitSslice w elem (EmitNode.emitExprInternal scope.toEmitNames e 7)
      (EmitNode.emitExpr scope.toEmitNames i)
      (emitPaddedExpr v (EmitNode.emitExprInternal scope.toEmitNames v 10) w false))
      (.value (if w = 0 ∨ elem = 0 then 1 else max e.width (max (lead i elem)
        (lead i (paddedSized v (.tight 1 true) w false).width))) true) := by
  rw [emitSslice]
  split
  · exact phrase_zeroBit
  · have hmask := hi.shifted_group (.inl rfl) (phrase_replicated elem phrase_oneBit)
    have hput := hi.shifted_group (.inl rfl) (hv.padded_zero w).group
    have hand := Phrase.binary .amp (by decide)
      (hput.weaken (by decide) (show OpSym.amp.level ≤ 14 by decide))
      (hmask.weaken (by decide) (show OpSym.amp.level + 1 ≤ 14 by decide))
    have hout := Phrase.binary .bar (by decide)
      ((he.cleared hmask).weaken (by decide) (show OpSym.bar.level ≤ 14 by decide))
      (hand.weaken (by decide) (show OpSym.bar.level + 1 ≤ OpSym.amp.level by decide))
    have hgroup := phrase_group (hout.weaken (by decide) (by decide))
    generalize (paddedSized v (.tight 1 true) w false).width = padded at hgroup ⊢
    have hmax : max (max e.width (lead i elem)) (max (lead i padded) (lead i elem)) =
        max e.width (max (lead i elem) (lead i padded)) := by omega
    simp only [Sized.binary, Sized.value, OpSym.binaryWidth, Bool.and_self, hmax] at hgroup
    exact hgroup

end Deep

end JzHdl

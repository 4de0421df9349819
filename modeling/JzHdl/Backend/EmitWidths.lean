import JzHdl.Backend.PaddedWidths

/-! # Declared and printed widths

An expression is printed with the width it is declared with, and so are all its
parts, when this holds at every node of it. The condition at one node compares
its declared width with that of its template over the declared widths of the
operands.
-/

namespace JzHdl

open VerilogText EmitNode

variable {scope : EmitScope}

/-! ## One node -/

/-- The widths that the builder gives to the intrinsics with two operands. -/
def BuiltPair : IRNode → Prop
  | .pair op l r w => w = pairPrescribed op l.width r.width ∧ 0 < l.width ∧ 0 < r.width
  | _ => True

theorem emitOperands_eq_map (names : EmitNames) : ∀ es : List IRNode,
    EmitNode.emitOperands names es = es.map (EmitNode.emitExpr names)
  | [] => rfl
  | e :: es => by
    rw [EmitNode.emitOperands, emitOperands_eq_map names es]
    rfl

theorem forall₂_prints : ∀ {operands : List IRNode}, (∀ e ∈ operands, Deep scope e) →
    List.Forall₂ (Prints scope.decl) (operands.map (EmitNode.emitExpr scope.toEmitNames))
      (operands.map IRNode.width)
  | [], _ => .nil
  | e :: _, h => .cons (h e List.mem_cons_self).exact.prints_self
      (forall₂_prints fun e' he' => h e' (List.mem_cons_of_mem e he'))

/-- An unsigned product is printed with a width that it is not declared with. -/
theorem umul_not_hasWidth {l r : IRNode} {w : ℕ} (hl : Deep scope l) (hr : Deep scope r)
    (hb : BuiltPair (.pair .umul l r w)) :
    ∃ a, Phrase scope.decl 1 (EmitNode.emitExpr scope.toEmitNames (.pair .umul l r w)) a ∧
      a.width ≠ w := by
  obtain ⟨rfl, hl0, hr0⟩ := hb
  simp only [pairPrescribed]
  have hhalf : 2 * max l.width r.width / 2 = max l.width r.width := by omega
  have hpos : 0 < max l.width r.width := by omega
  obtain ⟨a, ha, hwidth⟩ := umul_width hl hr (le_max_left l.width r.width)
    (le_max_right l.width r.width) hpos
  refine ⟨a, ?_, by omega⟩
  rw [EmitNode.emitExpr, EmitNode.emitExprInternal, paren_zero]
  unfold emitPair
  dsimp only
  rw [if_neg (by omega), hhalf, if_neg (by omega)]
  exact ha

theorem pair_spreads {op : PairBuiltin} {l r : IRNode} {w : ℕ} (hl : Deep scope l)
    (hr : Deep scope r) (hb : BuiltPair (.pair op l r w)) (hop : op ≠ .umul) :
    ∃ σ, Spreads scope.decl 13 (EmitNode.emitExpr scope.toEmitNames (.pair op l r w)) σ ∧
      SameSpread σ (spread scope (.pair op l r w)) := by
  obtain ⟨rfl, hl0, hr0⟩ := hb
  have hpos : pairPrescribed op l.width r.width ≠ 0 := by
    cases op <;> simp only [pairPrescribed] <;> omega
  rw [EmitNode.emitExpr, EmitNode.emitExprInternal, paren_zero, spread]
  unfold emitPair pairSpread
  dsimp only
  rw [if_neg hpos, if_neg hpos]
  cases op with
  | umul => exact absurd rfl hop
  | uadd | sadd =>
    exact additive_spreads hl hr (.inl rfl) _ _ hl0 hr0 (by simp only [pairPrescribed]; omega)
      (by simp only [pairPrescribed]; omega)
  | usub | ssub =>
    exact additive_spreads hl hr (.inr rfl) _ _ hl0 hr0 (by simp only [pairPrescribed]; omega)
      (by simp only [pairPrescribed]; omega)
  | smul =>
    have hhalf : pairPrescribed .smul l.width r.width / 2 ≠ 0 := by
      simp only [pairPrescribed]
      omega
    dsimp only
    rw [if_neg hhalf, if_neg hhalf]
    exact product_spreads hl hr _
  | umin | umax => exact extremum_spreads hl hr rfl _ false
  | smin | smax => exact extremum_spreads hl hr rfl _ true

theorem phrase_sliceMask (n : ℕ) :
    Phrase scope.decl 14 (sliceMask n) (.value (max 1 n) true) := by
  rw [sliceMask]
  split
  · rw [max_eq_right (by omega)]
    exact phrase_replicated n phrase_oneBit
  · rw [max_eq_left (by omega)]
    exact phrase_oneBit

/-- Every expression other than an unsigned product is printed as `spread` says. -/
theorem emitExpr_spreads {e : IRNode} (hc : ∀ c ∈ e.children, Deep scope c) (hb : BuiltPair e)
    (hop : ∀ l r w, e ≠ .pair .umul l r w) :
    ∃ σ, Spreads scope.decl (binds e) (EmitNode.emitExpr scope.toEmitNames e) σ ∧
      SameSpread σ (spread scope e) := by
  have hvalue : ∀ {ts : List Tok} {n : ℕ} {b : Bool}, Phrase scope.decl 14 ts (.value n b) →
      ∃ σ, Spreads scope.decl 13 ts σ ∧ SameSpread σ (.tight n b) := fun h =>
    ⟨_, .tight (h.weaken (by omega) (by omega)), SameSpread.refl _⟩
  have hprimary : ∀ {ts : List Tok} {a : Sized}, Phrase scope.decl 14 ts a →
      ∃ σ, Spreads scope.decl 13 ts σ ∧ SameSpread σ (.tight a.width a.legal) := fun h =>
    ⟨_, .tight (h.weaken (by omega) (by omega)), SameSpread.refl _⟩
  have hvector : ∀ {name : String}, scope.isMemory name = false →
      Phrase scope.decl 14 [.ident name] ⟨scope.declaredWidth name, .vector, true⟩ := fun h =>
    scope.decl_vector h ▸ .ident _
  cases e with
  | literal lit w =>
    rw [EmitNode.emitExpr, EmitNode.emitExprInternal, paren_zero, EmitNode.emitLiteral, spread]
    split
    · exact hprimary (.decimal _)
    · split
      · exact hvalue (.sized lit.width _)
      · exact hvalue (.sized lit.width _)
  | specialDriver vcc w =>
    rw [EmitNode.emitExpr, EmitNode.emitExprInternal, paren_zero, spread]
    cases vcc
    · exact hvalue (phrase_replicated _ phrase_zeroBit)
    · exact hvalue (phrase_replicated _ phrase_oneBit)
  | signalRef id w =>
    rw [EmitNode.emitExpr, EmitNode.emitExprInternal, paren_zero, spread]
    rcases hname : scope.signalName id with _ | name
    · exact hvalue phrase_zeroBit
    · exact hprimary (hvector (scope.signal_vector hname))
  | unary op x w =>
    have hx := (hc x (by simp [IRNode.children])).exact
    rw [EmitNode.emitExpr, EmitNode.emitExprInternal, paren_zero, spread]
    exact ⟨_, spreads_unaryText op (hx.spreads (by omega) (by omega) (le_max_left 13 2)),
      SameSpread.refl _⟩
  | binary op l r w =>
    have hl := (hc l (by simp [IRNode.children])).exact
    have hr := (hc r (by simp [IRNode.children])).exact
    have hq := infixPrecedence_bounds op
    have hlevel := infixSym_level op
    have hle := le_max_left (infixPrecedence op) 2
    have hout := Spreads.binary (s := infixSym op) (by omega)
      (by rw [hlevel]; exact hl.spreads hq.1 (by omega) hle)
      (by rw [hlevel]; exact hr.spreads hq.1 (by omega) hle)
    rw [hlevel] at hout
    rw [emitExpr_binary, spread]
    exact ⟨_, hout, SameSpread.refl _⟩
  | ternary c t f w =>
    have hcond := (hc c (by simp [IRNode.children])).exact
    have harm := (hc t (by simp [IRNode.children])).exact
    have hlast := (hc f (by simp [IRNode.children])).exact
    obtain ⟨b, hbt, hwidth, hlegal⟩ := harm.prints 1
    have hout := Spreads.ternary
      (hcond.spreads (p := 1) (le_refl 2) (by omega) (le_max_right 1 2)) hbt
      (hlast.spreads (p := 1) (le_refl 2) (by omega) (le_max_right 1 2))
    rw [hwidth, hlegal] at hout
    rw [EmitNode.emitExpr, EmitNode.emitExprInternal, paren_zero, spread]
    exact ⟨_, hout, SameSpread.refl _⟩
  | concat es w =>
    rw [EmitNode.emitExpr, EmitNode.emitExprInternal, paren_zero, spread, emitOperands_eq_map]
    cases es with
    | nil => exact hvalue .empty
    | cons x es => exact hvalue (phrase_braces (forall₂_prints hc) (List.cons_ne_nil _ _))
  | slice id msb lsb w =>
    rw [EmitNode.emitExpr, EmitNode.emitExprInternal, paren_zero, spread]
    rcases phrase_slice scope id msb lsb with h | ⟨hnone, h⟩
    · exact hvalue h
    · obtain ⟨σ, hσ, hagrees⟩ := hprimary h
      exact ⟨σ, hσ, SameSpread.of_illegal hagrees.1 hnone⟩
  | sliceExpr x msb lsb w =>
    have hx := (hc x (by simp [IRNode.children])).exact
    rw [EmitNode.emitExpr, EmitNode.emitExprInternal, paren_zero, spread]
    have hbase : Spreads scope.decl 10 (group (EmitNode.emitExprInternal scope.toEmitNames x 0))
        (.tight x.width true) := spreads_value (by omega) (by omega) hx.prints_self.group
    have hout := phrase_maskedShift lsb hbase (phrase_sliceMask (msb + 1 - lsb))
    have hself : (Spread.tight x.width true).width = x.width := by
      simp [Spread.tight, Spread.width]
    rw [hself] at hout
    exact hvalue hout
  | memRead memory port x w =>
    have hx := (hc x (by simp [IRNode.children])).exact
    rw [EmitNode.emitExpr, EmitNode.emitExprInternal, paren_zero, spread]
    rcases hmemory : scope.memoryText memory port with _ | name | ⟨name, address⟩
    · exact hvalue phrase_zeroBit
    · exact hprimary (hvector (scope.intermediate_vector hmemory))
    · have hident : Phrase scope.decl 14 [.ident name] ⟨scope.declaredWidth name, .memory, false⟩ :=
        scope.decl_memory (scope.array_memory hmemory) ▸ .ident name
      obtain ⟨i, hi, -, hlegal⟩ := hx.prints_self
      have hout := hprimary (hident.select hi)
      simp only [Sized.select, hlegal] at hout
      exact hout
  | memPort memory port w =>
    rw [EmitNode.emitExpr, EmitNode.emitExprInternal, paren_zero, spread]
    rcases hmemory : scope.memoryText memory port with _ | name | ⟨name, address⟩
    · exact hvalue phrase_zeroBit
    · exact hprimary (hvector (scope.intermediate_vector hmemory))
    · have hident : Phrase scope.decl 14 [.ident name] ⟨scope.declaredWidth name, .memory, false⟩ :=
        scope.decl_memory (scope.array_memory hmemory) ▸ .ident name
      have haddress : Prints scope.decl [address.elim zeroBit .ident]
          (address.elim 1 scope.declaredWidth) := by
        rcases address with _ | address
        · exact .of_phrase (by omega) phrase_zeroBit
        · exact ⟨_, (hvector (scope.address_vector hmemory)).weaken (le_refl 1) (by omega),
            rfl, rfl⟩
      obtain ⟨i, hi, -, hlegal⟩ := haddress
      have hout := hprimary (hident.select hi)
      simp only [Sized.select, hlegal] at hout
      exact hout
  | pair op l r w =>
    exact pair_spreads (hc l (by simp [IRNode.children])) (hc r (by simp [IRNode.children])) hb
      fun h => hop l r w (by rw [h])
  | single op x w =>
    have hx := (hc x (by simp [IRNode.children])).exact
    rw [EmitNode.emitExpr, EmitNode.emitExprInternal, paren_zero, spread]
    exact ⟨_, spreads_single op (hx.prints 0) (hx.spreads (by omega) (by omega) (le_max_left 10 2))
      (hx.operand_width 10) (hx.operand_legal 10), SameSpread.refl _⟩
  | b2oh x w =>
    rw [EmitNode.emitExpr, EmitNode.emitExprInternal, paren_zero, spread]
    exact hvalue ((hc x (by simp [IRNode.children])).b2oh w)
  | gbit x i w =>
    rw [EmitNode.emitExpr, EmitNode.emitExprInternal, paren_zero, spread]
    exact hvalue ((hc x (by simp [IRNode.children])).gbit (hc i (by simp [IRNode.children])))
  | gslice x i ew w =>
    rw [EmitNode.emitExpr, EmitNode.emitExprInternal, paren_zero, spread]
    exact hvalue ((hc x (by simp [IRNode.children])).gslice (hc i (by simp [IRNode.children])) ew w)
  | sbit x i v w =>
    rw [EmitNode.emitExpr, EmitNode.emitExprInternal, paren_zero, spread]
    exact hvalue ((hc x (by simp [IRNode.children])).sbit (hc i (by simp [IRNode.children]))
      (hc v (by simp [IRNode.children])) w)
  | sslice x i v ew w =>
    rw [EmitNode.emitExpr, EmitNode.emitExprInternal, paren_zero, spread]
    exact hvalue ((hc x (by simp [IRNode.children])).sslice (hc i (by simp [IRNode.children]))
      (hc v (by simp [IRNode.children])) w _)

/-! ## Whole expressions -/

/-- The declared width of the node is that of its template over the declared widths of its
operands, and its sign bits are selected from names. -/
def Fits (scope : EmitScope) (e : IRNode) : Prop :=
  (spread scope e).legal = true ∧ (spread scope e).width = e.width

theorem Fits.exact {e : IRNode} (hc : ∀ c ∈ e.children, Deep scope c) (hb : BuiltPair e)
    (h : Fits scope e) : Exact scope e := by
  by_cases hop : ∃ l r w, e = .pair .umul l r w
  · obtain ⟨l, r, w, rfl⟩ := hop
    obtain ⟨hlegal, -⟩ := h
    obtain ⟨rfl, hl0, hr0⟩ := hb
    rw [spread] at hlegal
    unfold pairSpread at hlegal
    dsimp only at hlegal
    rw [if_neg (by simp only [pairPrescribed]; omega)] at hlegal
    cases hlegal
  · obtain ⟨σ, hσ, hagrees⟩ := emitExpr_spreads hc hb fun l r w he => hop ⟨l, r, w, he⟩
    rw [hagrees.2 (hagrees.1.trans h.1)] at hσ
    exact ⟨hσ, h⟩

/-- Over operands that are printed with their widths, a node is exactly when it fits. -/
theorem hasWidth_iff_fits {e : IRNode} (hc : ∀ c ∈ e.children, Deep scope c) (hb : BuiltPair e) :
    HasWidth scope.decl (EmitNode.emitExpr scope.toEmitNames e) e.width ↔ Fits scope e := by
  constructor
  · intro h
    by_cases hop : ∃ l r w, e = .pair .umul l r w
    · obtain ⟨l, r, w, rfl⟩ := hop
      obtain ⟨a, ha, hne⟩ := umul_not_hasWidth (hc l (by simp [IRNode.children]))
        (hc r (by simp [IRNode.children])) hb
      exact absurd (ha.hasWidth_iff.mp h).2 hne
    · obtain ⟨σ, hσ, hagrees⟩ := emitExpr_spreads hc hb fun l r w he => hop ⟨l, r, w, he⟩
      obtain ⟨a, ha, hwidth, hlegal⟩ := hσ.closed (two_le_binds e).1
      obtain ⟨halegal, hawidth⟩ := ha.hasWidth_iff.mp h
      have hσlegal := hlegal.symm.trans halegal
      rw [hagrees.2 hσlegal] at hwidth hσlegal
      exact ⟨hσlegal, hwidth.symm.trans hawidth⟩
  · intro h
    obtain ⟨a, ha, hwidth, hlegal⟩ := (h.exact hc hb).prints_self
    exact ha.hasWidth_iff.mpr ⟨hlegal, hwidth⟩

theorem deep_of {e : IRNode} (hc : ∀ c ∈ e.children, Deep scope c) (he : Exact scope e) :
    Deep scope e := by
  intro s hs
  cases hs with
  | refl => exact he
  | child h hmem => exact hc _ hmem s h

/-- Every node fits where every node is printed with its declared width, and the other way round:
the text of each part of an expression has its declared width exactly when each part fits. -/
theorem emitExpr_width_iff (scope : EmitScope) (e : IRNode)
    (hb : ∀ s, IRNode.Sub s e → BuiltPair s) :
    (∀ s, IRNode.Sub s e → HasWidth scope.decl (EmitNode.emitExpr scope.toEmitNames s) s.width) ↔
      ∀ s, IRNode.Sub s e → Fits scope s := by
  have hfits : ∀ e : IRNode, (∀ s, IRNode.Sub s e → BuiltPair s) →
      (∀ s, IRNode.Sub s e → Fits scope s) → Deep scope e := by
    intro e
    induction e using IRNode.induct with
    | h e ih =>
      intro hb h
      have hc : ∀ c ∈ e.children, Deep scope c := fun c hmem =>
        ih c hmem (fun s hs => hb s (.child hs hmem)) fun s hs => h s (.child hs hmem)
      exact deep_of hc ((h e (.refl e)).exact hc (hb e (.refl e)))
  have hwidths : ∀ e : IRNode, (∀ s, IRNode.Sub s e → BuiltPair s) →
      (∀ s, IRNode.Sub s e → HasWidth scope.decl (EmitNode.emitExpr scope.toEmitNames s) s.width) →
      Deep scope e := by
    intro e
    induction e using IRNode.induct with
    | h e ih =>
      intro hb h
      have hc : ∀ c ∈ e.children, Deep scope c := fun c hmem =>
        ih c hmem (fun s hs => hb s (.child hs hmem)) fun s hs => h s (.child hs hmem)
      have hself := (hasWidth_iff_fits hc (hb e (.refl e))).mp (h e (.refl e))
      exact deep_of hc (hself.exact hc (hb e (.refl e)))
  constructor
  · intro h s hs
    exact (hwidths e hb h s hs).2
  · intro h s hs
    obtain ⟨a, ha, hwidth, hlegal⟩ := (hfits e hb h s hs).prints_self
    exact ha.hasWidth_iff.mpr ⟨hlegal, hwidth⟩

/-- Two bytes and a short index. -/
def byteScope : EmitScope where
  signalName id := [some "a", some "b", some "i"].getD id none
  memoryText _ _ := .missing
  declaredWidth name := if name = "i" then 3 else 8
  isMemory _ := false
  signal_vector _ := rfl
  intermediate_vector _ := rfl
  array_memory h := nomatch h
  address_vector _ := rfl

/-- A widening sum in front of a byte is printed with 17 bits. -/
theorem emitExpr_width_sum :
    let sum := IRNode.pair .uadd (.signalRef 0 8) (.signalRef 1 8) 9
    let e := IRNode.concat [sum, .signalRef 0 8] 17
    ∀ s, IRNode.Sub s e →
      HasWidth byteScope.decl (EmitNode.emitExpr byteScope.toEmitNames s) s.width := by
  intro sum e
  have hbuilt : ∀ s, IRNode.Sub s e → BuiltPair s :=
    IRNode.forall_sub_pair rfl trivial
      (IRNode.forall_sub_pair rfl ⟨rfl, by decide, by decide⟩ (IRNode.forall_sub_leaf trivial)
        (IRNode.forall_sub_leaf trivial))
      (IRNode.forall_sub_leaf trivial)
  have hfits : ∀ s, IRNode.Sub s e → Fits byteScope s :=
    IRNode.forall_sub_pair rfl ⟨rfl, rfl⟩
      (IRNode.forall_sub_pair rfl ⟨rfl, rfl⟩ (IRNode.forall_sub_leaf ⟨rfl, rfl⟩)
        (IRNode.forall_sub_leaf ⟨rfl, rfl⟩))
      (IRNode.forall_sub_leaf ⟨rfl, rfl⟩)
  exact (emitExpr_width_iff byteScope e hbuilt).mpr hfits

/-- A bit taken from a byte is printed with eight bits, and the byte after it is shifted. -/
theorem gbit_printed_wide :
    let bit := IRNode.gbit (.signalRef 0 8) (.signalRef 2 3) 1
    let e := IRNode.concat [bit, .signalRef 1 8] 9
    (∀ s, IRNode.Sub s e → BuiltPair s) ∧
      ¬ HasWidth byteScope.decl (EmitNode.emitExpr byteScope.toEmitNames bit) bit.width ∧
      ¬ HasWidth byteScope.decl (EmitNode.emitExpr byteScope.toEmitNames e) e.width := by
  intro bit e
  have hname : ∀ {id w : ℕ}, Fits byteScope (.signalRef id w) →
      Deep byteScope (.signalRef id w) := fun h =>
    deep_of nofun (h.exact nofun trivial)
  have hbit : Prints byteScope.decl (EmitNode.emitExpr byteScope.toEmitNames bit) 8 := by
    obtain ⟨σ, hσ, hagrees⟩ := @emitExpr_spreads byteScope bit
      (List.forall_mem_cons.mpr ⟨hname ⟨rfl, rfl⟩, List.forall_mem_cons.mpr
        ⟨hname ⟨rfl, rfl⟩, nofun⟩⟩) trivial nofun
    obtain ⟨a, ha, hwidth, hlegal⟩ := hσ.closed (two_le_binds bit).1
    rw [hagrees.2 hagrees.1] at hwidth hlegal
    exact ⟨a, ha, hwidth, hlegal⟩
  have hpair : Prints byteScope.decl (EmitNode.emitExpr byteScope.toEmitNames e) 16 :=
    .of_phrase (by omega) (phrase_braces (.cons hbit
      (.cons (hname ⟨rfl, rfl⟩).exact.prints_self .nil)) (List.cons_ne_nil _ _))
  refine ⟨IRNode.forall_sub_pair rfl trivial
    (IRNode.forall_sub_pair rfl trivial (IRNode.forall_sub_leaf trivial)
      (IRNode.forall_sub_leaf trivial)) (IRNode.forall_sub_leaf trivial), ?_, ?_⟩
  · intro h
    obtain ⟨a, ha, hwidth, hlegal⟩ := hbit
    cases hwidth.symm.trans (ha.hasWidth_iff.mp h).2
  · intro h
    obtain ⟨a, ha, hwidth, hlegal⟩ := hpair
    cases hwidth.symm.trans (ha.hasWidth_iff.mp h).2

end JzHdl

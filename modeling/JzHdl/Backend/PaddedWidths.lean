import JzHdl.Backend.NodeWidths

/-! # Widths of padded operands

A sign extension selects the top bit of the text of its operand. The select
belongs to the last name of that text, and is illegal where there is none. From
this follow the widths of the intrinsics with two operands.
-/

namespace JzHdl

open VerilogText EmitNode

variable {scope : EmitScope}

/-! ## Unary operators and selects -/

theorem unarySym_isUnary (op : IRUnaryOp) : (unarySym op).isUnary = true := by
  cases op <;> rfl

/-- The complement of a reduction is a reduction of its own. -/
theorem phrase_complement {names : String → Sized} {s s' : OpSym} {ts : List Tok} {a : Sized}
    (hs : s'.isUnary = true) (hout : ∀ b, Sized.unary s' b = .unary .tilde (.unary s b))
    (h : Phrase names 13 (.sym s :: ts) a) :
    Phrase names 13 (.sym s' :: ts) (.unary .tilde a) := by
  obtain ⟨b, hb, rfl⟩ := h.unary_inv
  rw [← hout]
  exact .unary hs hb

theorem phrase_unaryText {names : String → Sized} (op : IRUnaryOp) {ts : List Tok} {a : Sized}
    (h : Phrase names 13 ts a) :
    Phrase names 13 (EmitNode.unaryText (unarySym op) ts) (.unary (unarySym op) a) := by
  have hplain : Phrase names 13 (.sym (unarySym op) :: ts) (.unary (unarySym op) a) :=
    .unary (unarySym_isUnary op) h
  unfold EmitNode.unaryText
  split
  · rename_i ts' hop
    rw [hop]
    exact phrase_complement rfl (fun _ => rfl) h
  · rename_i ts' hop
    rw [hop]
    exact phrase_complement rfl (fun _ => rfl) h
  · rename_i ts' hop
    rw [hop]
    exact phrase_complement rfl (fun _ => rfl) h
  · exact hplain

theorem unaryText_append {s : OpSym} {ts rest : List Tok} (h : ts ≠ []) :
    EmitNode.unaryText s (ts ++ rest) = EmitNode.unaryText s ts ++ rest := by
  cases ts with
  | nil => exact absurd rfl h
  | cons t ts =>
    cases s <;> try rfl
    cases t with
    | sym s' => cases s' <;> rfl
    | _ => rfl

theorem spreads_unaryText {names : String → Sized} (op : IRUnaryOp) {ts : List Tok} {σ : Spread}
    (h : Spreads names 13 ts σ) :
    Spreads names 13 (EmitNode.unaryText (unarySym op) ts) (σ.unary (unarySym op)) := by
  cases h with
  | tight h => exact .tight (phrase_unaryText op h)
  | chain hc ht hf =>
    rw [unaryText_append hc.ne_nil]
    have hout := Spreads.chain (phrase_unaryText op hc) ht hf
    exact hout

/-- Two descriptions of a text that is legal by both or by neither. -/
def SameSpread (σ τ : Spread) : Prop := σ.legal = τ.legal ∧ (σ.legal = true → σ = τ)

namespace SameSpread

variable {σ σ' τ : Spread}

theorem refl (σ : Spread) : SameSpread σ σ := ⟨rfl, fun _ => rfl⟩

theorem of_illegal (h : σ.legal = false) (h' : τ.legal = false) : SameSpread σ τ :=
  ⟨h.trans h'.symm, fun hσ => by rw [h] at hσ; cases hσ⟩

theorem unary (s : OpSym) (h : SameSpread σ σ') : SameSpread (σ.unary s) (σ'.unary s) := by
  rcases hσ : σ.legal with _ | _
  · have hσ' := h.1.symm.trans hσ
    refine of_illegal ?_ ?_
    · unfold Spread.unary
      split
      · exact hσ
      · exact hσ
    · unfold Spread.unary
      split
      · exact hσ'
      · exact hσ'
  · rw [h.2 hσ]
    exact refl _

theorem binary (s : OpSym) (τ : Spread) (h : SameSpread σ σ') :
    SameSpread (.binary s τ σ) (.binary s τ σ') := by
  rcases hσ : σ.legal with _ | _
  · have hσ' := h.1.symm.trans hσ
    refine of_illegal ?_ ?_
    · unfold Spread.binary
      split <;> simp [hσ]
    · unfold Spread.binary
      split <;> simp [hσ']
  · rw [h.2 hσ]
    exact refl _

end SameSpread

/-- The select that picks the sign bit of an operand. -/
def selectText (k : ℕ) : List Tok := [.lbrack, .decimal k, .rbrack]

theorem getLast?_group (ts : List Tok) : (group ts).getLast? = some .rparen := by
  rw [group, ← List.cons_append, List.getLast?_concat]

theorem getLast?_braces (ts : List Tok) : (braces ts).getLast? = some .rbrace := by
  rw [braces, ← List.cons_append, List.getLast?_concat]

/-- The text ends with a word that no select applies to. -/
def Ends (ts : List Tok) : Prop := ∀ t, ts.getLast? = some t → t.ends = true

theorem ends_of {ts : List Tok} {t : Tok} (h : ts.getLast? = some t) (ht : t.ends = true) :
    Ends ts := fun u hu => by
  rw [h] at hu
  cases hu
  exact ht

theorem ends_group (ts : List Tok) : Ends (group ts) := ends_of (getLast?_group ts) rfl

theorem ends_braces (ts : List Tok) : Ends (braces ts) := ends_of (getLast?_braces ts) rfl

theorem ends_cons {t : Tok} {ts : List Tok} (hne : ts ≠ []) (h : Ends ts) : Ends (t :: ts) := by
  cases ts with
  | nil => exact absurd rfl hne
  | cons t' ts => exact fun u hu => h u (by rwa [List.getLast?_cons_cons] at hu)

theorem ends_append {ts ts' : List Tok} (hne : ts' ≠ []) (h : Ends ts') : Ends (ts ++ ts') :=
  fun u hu => h u (by rwa [List.getLast?_append_of_ne_nil ts hne] at hu)

theorem emitArms_ne_nil (source : List Tok) (w : ℕ) (value : ℕ → ℕ) {last : List Tok}
    (h : last ≠ []) : ∀ l, emitArms source w value l last ≠ []
  | [] => h
  | i :: rest => by simp [emitArms]

theorem ends_arms (source : List Tok) (w : ℕ) (value : ℕ → ℕ) (digits : String) :
    ∀ l, Ends (emitArms source w value l [.sized w digits])
  | [] => ends_of rfl rfl
  | i :: rest => by
    have hne := emitArms_ne_nil source w value (List.cons_ne_nil (.sized w digits) []) rest
    exact ends_append (List.cons_ne_nil _ _) (ends_cons (List.cons_ne_nil _ _)
      (ends_cons (List.cons_ne_nil _ _) (ends_cons hne (ends_arms source w value digits rest))))

theorem ends_oh2bBit (source : List Tok) (n k : ℕ) : Ends (emitOh2bBit source n k) :=
  ends_cons (List.cons_ne_nil _ _) (ends_group _)

theorem ends_single (op : SingleBuiltin) (w n : ℕ) (bare shifted : List Tok) :
    Ends (emitSingle op w n bare shifted) := by
  have hzero : Ends [zeroBit] := ends_of rfl rfl
  cases op with
  | reduceAnd | reduceOr | reduceXor =>
    rw [emitSingle]
    split
    · exact hzero
    · exact ends_cons (List.cons_ne_nil _ _) (ends_group _)
  | reverse | bswap =>
    rw [emitSingle]
    split
    · exact hzero
    · exact ends_braces _
  | oh2b =>
    rw [emitSingle]
    split
    · exact hzero
    · split
      · exact ends_oh2bBit _ _ _
      · exact ends_braces _
  | abs | popcount =>
    rw [emitSingle]
    split
    · exact hzero
    · exact ends_group _
  | prienc | lzc =>
    rw [emitSingle]
    split
    · exact hzero
    · exact ends_arms _ _ _ _ _

theorem ends_pair {op : PairBuiltin} {w : ℕ} {padded : ℕ → Bool → List Tok × List Tok}
    {bare : List Tok × List Tok} (h : op = .umul ∨ op = .smul → w = 0 ∨ w / 2 ≠ 0) :
    Ends (emitPair op w padded bare) := by
  unfold emitPair
  dsimp only
  split
  · exact ends_of rfl rfl
  · rename_i hw
    cases op with
    | umul | smul =>
      have hhalf := (h (by decide)).resolve_left hw
      dsimp only
      rw [if_neg hhalf]
      exact ends_group _
    | _ => exact ends_group _

/-- Apart from names, slices and memories, no text ends with something that can be selected. -/
theorem ends_emitExpr {e : IRNode} (he : Exact scope e)
    (h : 13 ≤ EmitNode.exprPrecedence e ∨ ∃ op l r w, e = .pair op l r w)
    (hsignal : ∀ id w, e ≠ .signalRef id w) (hslice : ∀ id m l w, e ≠ .slice id m l w)
    (hunary : ∀ op x w, e ≠ .unary op x w) : Ends (EmitNode.emitExpr scope.toEmitNames e) := by
  cases e with
  | signalRef id w => exact absurd rfl (hsignal id w)
  | slice id m l w => exact absurd rfl (hslice id m l w)
  | unary op x w => exact absurd rfl (hunary op x w)
  | binary op l r w =>
    have := infixPrecedence_bounds op
    simp only [EmitNode.exprPrecedence] at h
    rcases h with h | ⟨_, _, _, _, h⟩
    · omega
    · cases h
  | ternary | memRead | memPort => simp [EmitNode.exprPrecedence] at h
  | pair op l r w =>
    rw [EmitNode.emitExpr, EmitNode.emitExprInternal, paren_zero]
    refine ends_pair fun hop => ?_
    have hlegal := he.2.1
    rw [spread] at hlegal
    unfold pairSpread at hlegal
    by_contra hw
    rw [not_or, not_not] at hw
    dsimp only at hlegal
    rw [if_neg hw.1] at hlegal
    rcases hop with rfl | rfl
    · cases hlegal
    · rw [if_pos hw.2] at hlegal
      cases hlegal
  | literal lit w =>
    rw [EmitNode.emitExpr, EmitNode.emitExprInternal, paren_zero, EmitNode.emitLiteral]
    split
    · exact ends_of rfl rfl
    · split <;> exact ends_of rfl rfl
  | specialDriver vcc w =>
    rw [EmitNode.emitExpr, EmitNode.emitExprInternal, paren_zero]
    exact ends_of rfl rfl
  | concat es w =>
    rw [EmitNode.emitExpr, EmitNode.emitExprInternal, paren_zero]
    exact ends_braces _
  | single op x w =>
    rw [EmitNode.emitExpr, EmitNode.emitExprInternal, paren_zero]
    exact ends_single _ _ _ _ _
  | sliceExpr | gbit | gslice =>
    rw [EmitNode.emitExpr, EmitNode.emitExprInternal, paren_zero]
    exact ends_group _
  | b2oh x w =>
    rw [EmitNode.emitExpr, EmitNode.emitExprInternal, paren_zero, emitB2oh]
    split
    · exact ends_of rfl rfl
    · exact ends_group _
  | sbit x i v w =>
    rw [EmitNode.emitExpr, EmitNode.emitExprInternal, paren_zero, emitSbit]
    split
    · exact ends_of rfl rfl
    · exact ends_group _
  | sslice x i v ew w =>
    rw [EmitNode.emitExpr, EmitNode.emitExprInternal, paren_zero, emitSslice]
    generalize (if ew = 0 then v.width else ew) = elem
    split
    · exact ends_of rfl rfl
    · exact ends_group _

/-- A slice of a name, or of nothing where the name is missing. -/
theorem phrase_slice (scope : EmitScope) (id msb lsb : ℕ) :
    Phrase scope.decl 14 (emitSlice (scope.signalName id) msb lsb)
      (.value (if msb = lsb then 1 else msb + 1 - lsb) (scope.signalName id).isSome) ∨
    (scope.signalName id).isSome = false ∧
      Phrase scope.decl 14 (emitSlice (scope.signalName id) msb lsb) (.value 1 false) := by
  have hbit : Phrase scope.decl 1 [.decimal msb] ⟨32, .const msb, true⟩ :=
    (Phrase.decimal msb).weaken (by omega) (by omega)
  unfold emitSlice
  rcases hname : scope.signalName id with _ | name
  · refine .inr ⟨rfl, ?_⟩
    split
    · exact phrase_zeroBit.select hbit
    · exact phrase_zeroBit.range msb lsb
  · refine .inl ?_
    have hident : Phrase scope.decl 14 [.ident name] ⟨scope.declaredWidth name, .vector, true⟩ :=
      scope.decl_vector (scope.signal_vector hname) ▸ .ident name
    split
    · exact hident.select hbit
    · exact hident.range msb lsb

theorem selected_spreads (k : ℕ) : ∀ e : IRNode, ∀ p, 2 ≤ p → p ≤ 13 → Deep scope e →
    ∃ σ, Spreads scope.decl p (EmitNode.emitExprInternal scope.toEmitNames e p ++ selectText k) σ ∧
      SameSpread σ (selected scope e p) := by
  intro e
  induction e using IRNode.induct with
  | h e ih =>
    intro p hp hp13 hdeep
    have hk : Phrase scope.decl 1 [.decimal k] ⟨32, .const k, true⟩ :=
      (Phrase.decimal k).weaken (by omega) (by omega)
    rw [emitExprInternal_eq, EmitNode.paren]
    split
    · rename_i hprec
      have hout := (hdeep.exact.prints_self.group).select hk
      refine ⟨_, .tight (hout.weaken (by omega) (by omega)), SameSpread.of_illegal rfl ?_⟩
      cases e with
      | signalRef | unary =>
        simp only [EmitNode.exprPrecedence] at hprec
        omega
      | binary op l r w =>
        simp only [EmitNode.exprPrecedence] at hprec
        rw [selected, if_pos hprec]
        rfl
      | _ => rfl
    · rename_i hprec
      have hother : Ends (EmitNode.emitExpr scope.toEmitNames e) →
          (∀ q, (selected scope e q).legal = false) →
          p ≤ binds e → ∃ σ, Spreads scope.decl p
            (EmitNode.emitExpr scope.toEmitNames e ++ selectText k) σ ∧
            SameSpread σ (selected scope e p) := by
        intro hends hlegal hbinds
        obtain ⟨σ, hσ, hσlegal⟩ := (hdeep.exact.1.weaken (by omega) hbinds).select_illegal hk
          (by omega) hends
        exact ⟨σ, hσ, SameSpread.of_illegal hσlegal (hlegal p)⟩
      cases e with
      | signalRef id w =>
        rw [EmitNode.emitExpr, EmitNode.emitExprInternal, paren_zero, selected]
        rcases hname : scope.signalName id with _ | name
        · exact ⟨_, .tight ((phrase_zeroBit.select hk).weaken (by omega) (by omega)),
            SameSpread.of_illegal rfl rfl⟩
        · have hident : Phrase scope.decl 14 [.ident name]
              ⟨scope.declaredWidth name, .vector, true⟩ :=
            scope.decl_vector (scope.signal_vector hname) ▸ .ident name
          exact ⟨_, .tight ((hident.select hk).weaken (by omega) (by omega)), SameSpread.refl _⟩
      | unary op x w =>
        have hx : Deep scope x := hdeep.child (by simp [IRNode.children])
        obtain ⟨σ, hσ, hagrees⟩ := ih x (by simp [IRNode.children]) 13 (by omega) (le_refl _) hx
        have hne := (hx.exact.spreads (by decide) (le_refl 13) (le_max_left 13 2)).ne_nil
        rw [EmitNode.emitExpr, EmitNode.emitExprInternal, paren_zero, ← unaryText_append hne,
          selected]
        exact ⟨_, (spreads_unaryText op hσ).weaken (by omega) hp13, hagrees.unary _⟩
      | binary op l r w =>
        have hl : Deep scope l := hdeep.child (by simp [IRNode.children])
        have hr : Deep scope r := hdeep.child (by simp [IRNode.children])
        have hq := infixPrecedence_bounds op
        simp only [EmitNode.exprPrecedence] at hprec
        obtain ⟨σ, hσ, hagrees⟩ := ih r (by simp [IRNode.children]) (infixPrecedence op) hq.1
          (by omega) hr
        have hlevel := infixSym_level op
        have hleft := hl.exact.spreads hq.1 (by omega) (le_max_left (infixPrecedence op) 2)
        have hout := Spreads.binary (s := infixSym op) (by omega)
          (by rw [hlevel]; exact hleft) (by rw [hlevel]; exact hσ)
        rw [emitExpr_binary, selected, if_neg hprec, List.append_assoc, List.cons_append]
        rw [hlevel] at hout
        exact ⟨_, hout.weaken (by omega) (by omega), hagrees.binary _ _⟩
      | ternary | memRead | memPort =>
        simp only [EmitNode.exprPrecedence] at hprec
        omega
      | slice id msb lsb w =>
        rw [EmitNode.emitExpr, EmitNode.emitExprInternal, paren_zero]
        rcases phrase_slice scope id msb lsb with h | ⟨-, h⟩
        · exact ⟨_, .tight ((h.select hk).weaken (by omega) (by omega)),
            SameSpread.of_illegal rfl rfl⟩
        · exact ⟨_, .tight ((h.select hk).weaken (by omega) (by omega)),
            SameSpread.of_illegal rfl rfl⟩
      | pair op l r w =>
        exact hother (ends_emitExpr hdeep.exact (.inr ⟨op, l, r, w, rfl⟩)
          (by simp) (by simp) (by simp)) (fun _ => rfl) hp13
      | _ =>
        exact hother (ends_emitExpr hdeep.exact (.inl (by simp [EmitNode.exprPrecedence]))
          (by simp) (by simp) (by simp)) (fun _ => rfl) hp13

/-! ## Intrinsics with two operands -/

theorem padding_width {v : IRNode} (hv : Deep scope v) (target : ℕ) (signed : Bool) :
    ∃ a, Phrase scope.decl 1
      (if signed = true then
        match msbToken v with
        | some bit => replicated (target - v.width) bit
        | none => .lbrace :: .decimal (target - v.width) :: .lbrace ::
          ((EmitNode.emitExprInternal scope.toEmitNames v 10 ++ selectText (v.width - 1)) ++
            [.rbrace, .rbrace])
      else replicated (target - v.width) zeroBit) a ∧
      a.legal = (if signed = true ∧ msbToken v = none then (selected scope v 10).legal else true) ∧
      (a.legal = true → a.width = if signed = true ∧ msbToken v = none then
        (target - v.width) * (selected scope v 10).width else target - v.width) := by
  have hfill : ∀ t : Tok, Phrase scope.decl 14 [t] (.value 1 true) →
      Phrase scope.decl 1 (replicated (target - v.width) t)
        (.value (target - v.width) true) := fun t ht =>
    (phrase_replicated _ ht).weaken (le_refl 1) (by omega)
  rcases signed with _ | _
  · exact ⟨_, hfill _ phrase_zeroBit, rfl, fun _ => rfl⟩
  · rcases hbit : msbToken v with _ | bit
    · obtain ⟨σ, hσ, hagrees⟩ := selected_spreads (v.width - 1) v 10 (by omega) (by omega) hv
      obtain ⟨b, hb, hwidth, hlegal⟩ := hσ.closed (by omega)
      have hout := Phrase.replicate (target - v.width) (.list hb)
      refine ⟨_, hout.weaken (le_refl 1) (by omega), ?_, fun h => ?_⟩
      · simpa [Sized.value, Sized.closed, hlegal] using hagrees.1
      · simp only [Sized.value, Sized.closed, hlegal] at h ⊢
        simp [hwidth, hagrees.2 h]
    · have hunit : Phrase scope.decl 14 [bit] (.value 1 true) := by
        cases v <;> simp only [msbToken, reduceCtorEq] at hbit
        split at hbit
        · split at hbit <;> cases hbit <;> exact .sized 1 _
        · cases hbit
      exact ⟨_, hfill bit hunit, by simp [Sized.value], fun _ => by simp [Sized.value]⟩

theorem padded_primary {v : IRNode} (hv : Deep scope v) (target : ℕ) (signed : Bool)
    (hpos : 0 < v.width) (hlt : v.width < target) :
    ∃ a, Phrase scope.decl 14 (emitPaddedExpr v (EmitNode.emitExprInternal scope.toEmitNames v 10)
        target signed) a ∧
      a.legal = (paddedSized v (selected scope v 10) target signed).legal ∧
      (a.legal = true →
        a.width = (paddedSized v (selected scope v 10) target signed).width) := by
  obtain ⟨a, ha, hlegal, hwidth⟩ := padding_width hv target signed
  obtain ⟨b, hb, hbwidth, hblegal⟩ := hv.exact.prints 10
  have hout := Phrase.concat (.cons (.list ha) hb)
  rw [emitPaddedExpr, if_neg (by omega), paddedSized, if_neg (by omega)]
  refine ⟨_, hout, ?_, fun h => ?_⟩
  · simp only [Sized.join, Sized.closed, Sized.value, hblegal, Bool.and_true, hlegal]
    split <;> rfl
  · simp only [Sized.join, Sized.closed, Sized.value, hblegal, Bool.and_true] at h ⊢
    rw [hwidth h, hbwidth]
    split
    · rfl
    · simp only
      omega

theorem padded_spreads {v : IRNode} (hv : Deep scope v) (target : ℕ) (signed : Bool) :
    ∃ σ, Spreads scope.decl 10 (emitPaddedExpr v (EmitNode.emitExprInternal scope.toEmitNames v 10)
        target signed) σ ∧
      σ.legal = (paddedSized v (selected scope v 10) target signed).legal ∧
      (σ.legal = true →
        σ.width = (paddedSized v (selected scope v 10) target signed).width) := by
  by_cases hpad : v.width = 0 ∨ target ≤ v.width
  · rw [emitPaddedExpr, if_pos hpad, paddedSized, if_pos hpad]
    exact ⟨_, hv.exact.spreads (by omega) (by omega) (le_max_left 10 2), hv.exact.operand_legal 10,
      fun _ => hv.exact.operand_width 10⟩
  · obtain ⟨a, ha, hlegal, hwidth⟩ := padded_primary hv target signed (by omega) (by omega)
    refine ⟨_, .tight (ha.weaken (by omega) (by omega)), hlegal, fun h => ?_⟩
    simpa [Spread.tight, Spread.width] using hwidth h

section

variable {l r : IRNode} (hl : Deep scope l) (hr : Deep scope r)
include hl hr

theorem additive_spreads {s : OpSym} (hs : s = .plus ∨ s = .minus) (target : ℕ) (signed : Bool)
    (hl0 : 0 < l.width) (hr0 : 0 < r.width) (hlt : l.width < target) (hrt : r.width < target) :
    ∃ σ, Spreads scope.decl 13
      (group (emitPaddedExpr l (EmitNode.emitExprInternal scope.toEmitNames l 10) target signed ++
        .sym s ::
          emitPaddedExpr r (EmitNode.emitExprInternal scope.toEmitNames r 10) target signed)) σ ∧
      SameSpread σ (.tight (max (paddedSized l (selected scope l 10) target signed).width
        (paddedSized r (selected scope r 10) target signed).width)
        ((paddedSized l (selected scope l 10) target signed).legal &&
          (paddedSized r (selected scope r 10) target signed).legal)) := by
  obtain ⟨a, ha, hlegal, hwidth⟩ := padded_primary hl target signed hl0 hlt
  obtain ⟨b, hb, hblegal, hbwidth⟩ := padded_primary hr target signed hr0 hrt
  have hlevel : s.level = 11 := by rcases hs with rfl | rfl <;> rfl
  have hmax : s.binaryWidth a.width b.width = max a.width b.width := by
    rcases hs with rfl | rfl <;> rfl
  have hout := phrase_group (Phrase.weaken (le_refl 1) (by omega) (Phrase.binary s (by omega)
    (ha.weaken (by omega) (show s.level ≤ 14 by omega))
    (hb.weaken (by omega) (show s.level + 1 ≤ 14 by omega))))
  refine ⟨_, .tight (hout.weaken (by omega) (by omega)), ?_, fun h => ?_⟩
  · simp only [Spread.tight, Sized.binary, Sized.value, hlegal, hblegal]
  · simp only [Spread.tight, Sized.binary, Sized.value, Bool.and_eq_true] at h ⊢
    rw [hmax, hwidth h.1, hbwidth h.2, hlegal, hblegal]

theorem product_spreads (target : ℕ) :
    ∃ σ, Spreads scope.decl 13
      (group (signedText
          (emitPaddedExpr l (EmitNode.emitExprInternal scope.toEmitNames l 10) target true) ++
        .sym .star ::
          signedText
            (emitPaddedExpr r (EmitNode.emitExprInternal scope.toEmitNames r 10) target true))) σ ∧
      SameSpread σ (.tight (max (paddedSized l (selected scope l 10) target true).width
        (paddedSized r (selected scope r 10) target true).width)
        ((paddedSized l (selected scope l 10) target true).legal &&
          (paddedSized r (selected scope r 10) target true).legal)) := by
  obtain ⟨σ, hσ, hlegal, hwidth⟩ := padded_spreads hl target true
  obtain ⟨τ, hτ, hτlegal, hτwidth⟩ := padded_spreads hr target true
  obtain ⟨a, ha, hawidth, halegal⟩ := hσ.closed (by omega)
  obtain ⟨b, hb, hbwidth, hblegal⟩ := hτ.closed (by omega)
  have hout := phrase_group (Phrase.weaken (le_refl 1) (by decide) (Phrase.binary .star
    (by decide) ((phrase_signedText ha).weaken (by decide) (show OpSym.star.level ≤ 14 by decide))
    ((phrase_signedText hb).weaken (by decide) (show OpSym.star.level + 1 ≤ 14 by decide))))
  refine ⟨_, .tight (hout.weaken (by omega) (by omega)), ?_, fun h => ?_⟩
  · simp only [Spread.tight, Sized.binary, Sized.value, halegal, hblegal, hlegal, hτlegal]
  · simp only [Spread.tight, Sized.binary, Sized.value, Bool.and_eq_true, halegal, hblegal,
      OpSym.binaryWidth] at h ⊢
    rw [hawidth, hbwidth, hwidth h.1, hτwidth h.2, hlegal, hτlegal]

theorem extremum_spreads {s : OpSym} (hs : s.level = 9) (target : ℕ) (signed : Bool) :
    ∃ σ, Spreads scope.decl 13
      (group (group (if signed = true then
          signedText
              (emitPaddedExpr l (EmitNode.emitExprInternal scope.toEmitNames l 10) target signed) ++
            .sym s :: signedText
              (emitPaddedExpr r (EmitNode.emitExprInternal scope.toEmitNames r 10) target signed)
        else emitPaddedExpr l (EmitNode.emitExprInternal scope.toEmitNames l 10) target signed ++
          .sym s ::
            emitPaddedExpr r (EmitNode.emitExprInternal scope.toEmitNames r 10) target signed) ++
        .question ::
          (emitPaddedExpr l (EmitNode.emitExprInternal scope.toEmitNames l 10) target signed ++
          .colon ::
            emitPaddedExpr r (EmitNode.emitExprInternal scope.toEmitNames r 10) target signed))) σ ∧
      SameSpread σ (.tight (max (paddedSized l (selected scope l 10) target signed).width
        (paddedSized r (selected scope r 10) target signed).width)
        ((paddedSized l (selected scope l 10) target signed).legal &&
          (paddedSized r (selected scope r 10) target signed).legal)) := by
  obtain ⟨σ, hσ, hlegal, hwidth⟩ := padded_spreads hl target signed
  obtain ⟨τ, hτ, hτlegal, hτwidth⟩ := padded_spreads hr target signed
  obtain ⟨a, ha, hawidth, halegal⟩ := hσ.closed (by omega)
  obtain ⟨b, hb, hbwidth, hblegal⟩ := hτ.closed (by omega)
  have hcond : ∃ c, Phrase scope.decl 14 (group (if signed = true then
          signedText
              (emitPaddedExpr l (EmitNode.emitExprInternal scope.toEmitNames l 10) target signed) ++
            .sym s :: signedText
              (emitPaddedExpr r (EmitNode.emitExprInternal scope.toEmitNames r 10) target signed)
        else emitPaddedExpr l (EmitNode.emitExprInternal scope.toEmitNames l 10) target signed ++
          .sym s ::
            emitPaddedExpr r (EmitNode.emitExprInternal scope.toEmitNames r 10) target signed)) c ∧
      c.legal = (σ.legal && τ.legal) := by
    split
    · have hout := phrase_group (Phrase.weaken (le_refl 1) (by omega) (Phrase.binary s
        (by omega) ((phrase_signedText ha).weaken (by omega) (show s.level ≤ 14 by omega))
        ((phrase_signedText hb).weaken (by omega) (show s.level + 1 ≤ 14 by omega))))
      exact ⟨_, hout, by simp only [Sized.binary, Sized.value, halegal, hblegal]⟩
    · have hout := Spreads.binary (s := s) (by omega)
        (hσ.weaken (by omega) (show s.level ≤ 10 by omega))
        (hτ.weaken (by omega) (show s.level ≤ 10 by omega))
      obtain ⟨c, hc, -, hclegal⟩ := hout.closed (by omega)
      refine ⟨_, phrase_group hc, ?_⟩
      rw [Sized.value, hclegal]
      unfold Spread.binary
      split <;> rfl
  obtain ⟨c, hc, hclegal⟩ := hcond
  have hout := phrase_group (.ternary (hc.weaken (by omega) (by omega)) ha hb)
  refine ⟨_, .tight (hout.weaken (by omega) (by omega)), ?_, fun h => ?_⟩
  · simp only [Spread.tight, Sized.ternary, Sized.value, halegal, hblegal, hclegal, hlegal, hτlegal]
    rcases (paddedSized l (selected scope l 10) target signed).legal <;>
      rcases (paddedSized r (selected scope r 10) target signed).legal <;> rfl
  · simp only [Spread.tight, Sized.ternary, Sized.value, Bool.and_eq_true, halegal, hblegal,
      hclegal] at h ⊢
    have hσl : σ.legal = true := h.1.2
    have hτl : τ.legal = true := h.2
    rw [hawidth, hbwidth, hwidth hσl, hτwidth hτl, ← hlegal, ← hτlegal, hσl, hτl]
    rfl

/-- A product without a sign is at most as wide as its wider operand. -/
theorem umul_width {target : ℕ} (hlt : l.width ≤ target) (hrt : r.width ≤ target)
    (hpos : 0 < target) :
    ∃ a, Phrase scope.decl 1
      (group (emitPaddedExpr l (EmitNode.emitExprInternal scope.toEmitNames l 10) target false ++
        .sym .star ::
          emitPaddedExpr r (EmitNode.emitExprInternal scope.toEmitNames r 10) target false)) a ∧
      a.width ≤ target := by
  obtain ⟨σ, hσ, hlegal, hwidth⟩ := padded_spreads hl target false
  obtain ⟨τ, hτ, hτlegal, hτwidth⟩ := padded_spreads hr target false
  have hle : ∀ v : IRNode, v.width ≤ target →
      (paddedSized v (selected scope v 10) target false).legal = true ∧
        (paddedSized v (selected scope v 10) target false).width ≤ target := by
    intro v hv
    unfold paddedSized
    split
    · exact ⟨rfl, hv⟩
    · exact ⟨rfl, le_refl target⟩
  obtain ⟨c, hc, hcwidth⟩ := hσ.splice (s := .star) (by decide) hτ
  refine ⟨_, (phrase_group hc).weaken (le_refl 1) (by omega), ?_⟩
  have h1 := hwidth (hlegal.trans (hle l hlt).1)
  have h2 := hτwidth (hτlegal.trans (hle r hrt).1)
  have h3 := (hle l hlt).2
  have h4 := (hle r hrt).2
  simp only [Sized.value]
  omega

end

end JzHdl

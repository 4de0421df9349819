import JzHdl.Backend.EmitNode
import JzHdl.Lib.VerilogChains

/-! # Widths of printed templates

What every template of the printer reads as: its width over the widths of its
operands, and where it leaves a conditional operator open.
-/

namespace JzHdl

open VerilogText EmitNode

/-- The names of an emitted module with their declarations. -/
structure EmitScope extends EmitNames where

  declaredWidth : String → ℕ

  isMemory : String → Bool

  signal_vector : ∀ {id : ℕ} {name : String}, signalName id = some name → isMemory name = false

  intermediate_vector : ∀ {memory port name : String},
    memoryText memory port = .intermediate name → isMemory name = false

  array_memory : ∀ {memory port name : String} {address : Option String},
    memoryText memory port = .array name address → isMemory name = true

  address_vector : ∀ {memory port name address : String},
    memoryText memory port = .array name (some address) → isMemory address = false

namespace EmitScope

variable (scope : EmitScope)

/-- A declared name as an operand. -/
def decl (name : String) : Sized :=
  ⟨scope.declaredWidth name, if scope.isMemory name then .memory else .vector,
    !scope.isMemory name⟩

theorem decl_vector {name : String} (h : scope.isMemory name = false) :
    scope.decl name = ⟨scope.declaredWidth name, .vector, true⟩ := by
  simp [decl, h]

theorem decl_memory {name : String} (h : scope.isMemory name = true) :
    scope.decl name = ⟨scope.declaredWidth name, .memory, false⟩ := by
  simp [decl, h]

end EmitScope

/-! ## Templates -/

namespace EmitNode

variable {names : String → Sized} {ts : List Tok} {a : Sized}

theorem phrase_sized {k : ℕ} (hk : 1 ≤ k) (hk14 : k ≤ 14) (w : ℕ) (digits : String) :
    Phrase names k [.sized w digits] (.value w true) := (Phrase.sized w digits).weaken hk hk14

theorem phrase_zeroBit : Phrase names 14 [zeroBit] (.value 1 true) := .sized 1 "b0"

theorem phrase_oneBit : Phrase names 14 [oneBit] (.value 1 true) := .sized 1 "b1"

theorem phrase_group (h : Phrase names 1 ts a) :
    Phrase names 14 (group ts) (.value a.width a.legal) := .paren h

theorem phrase_signedText (h : Phrase names 1 ts a) :
    Phrase names 14 (signedText ts) (.value a.width a.legal) := .signed h

theorem phrase_replicated (count : ℕ) {t : Tok} (h : Phrase names 14 [t] (.value 1 true)) :
    Phrase names 14 (replicated count t) (.value count true) := by
  have hout := Phrase.replicate count (.list (h.weaken (by omega) (by omega)))
  simpa [replicated, Sized.closed, Sized.value] using hout

/-- Two primaries with an operator between them, in parentheses. -/
theorem phrase_infix {s : OpSym} (hs : 2 ≤ s.level) {l r : List Tok} {m n : ℕ}
    (hl : Phrase names 14 l (.value m true)) (hr : Phrase names 14 r (.value n true)) :
    Phrase names 14 (group (l ++ .sym s :: r)) (.value (s.binaryWidth m n) true) := by
  have hle := s.level_le
  have hout := Phrase.binary s hs (hl.weaken (by omega) (show s.level ≤ 14 by omega))
    (hr.weaken (by omega) (show s.level + 1 ≤ 14 by omega))
  exact phrase_group (hout.weaken (by omega) (by omega))

/-- A text under `&` with the shifted source in parentheses. -/
theorem phrase_masked {amount mask source : List Tok} {b c : Sized}
    (h : Phrase names 1 (source ++ .sym .shr :: amount) b) (hm : Phrase names 14 mask c) :
    Phrase names 14 (maskedShift source amount mask)
      (.value (max b.width c.width) (b.legal && c.legal)) := by
  have hand := Phrase.binary .amp (by decide)
    ((phrase_group h).weaken (by decide) (show OpSym.amp.level ≤ 14 by decide))
    (hm.weaken (by decide) (show OpSym.amp.level + 1 ≤ 14 by decide))
  exact phrase_group (hand.weaken (by decide) (by decide))

/-- A source that binds as a shift does, shifted by a constant. -/
theorem spreads_shr {source amount : List Tok} {σ : Spread} {b : Sized}
    (h : Spreads names 10 source σ) (ha : Phrase names 14 amount b) :
    ∃ c, Phrase names 1 (source ++ .sym .shr :: amount) c ∧ c.width = σ.width ∧
      c.legal = (σ.legal && b.legal) := by
  have hb := Spreads.binary (s := .shr) (by decide) h
    (.tight (ha.weaken (by decide) (show OpSym.shr.level ≤ 14 by decide)))
  exact hb.closed (by decide)

/-- The bits of a source at a constant place. -/
theorem phrase_maskedShift {source mask : List Tok} {σ : Spread} {w : ℕ} (i : ℕ)
    (h : Spreads names 10 source σ) (hm : Phrase names 14 mask (.value w true)) :
    Phrase names 14 (maskedShift source [.decimal i] mask) (.value (max σ.width w) σ.legal) := by
  obtain ⟨c, hc, hwidth, hlegal⟩ := spreads_shr h (.decimal i)
  have hout := phrase_masked hc hm
  rw [hwidth, hlegal] at hout
  simpa only [Sized.value, Bool.and_true] using hout

/-- The text is an expression of that width. -/
def Prints (names : String → Sized) (ts : List Tok) (w : ℕ) : Prop :=
  ∃ a, Phrase names 1 ts a ∧ a.width = w ∧ a.legal = true

theorem Prints.of_phrase {k w : ℕ} (hk : 1 ≤ k) (h : Phrase names k ts (.value w true)) :
    Prints names ts w := ⟨_, h.weaken (le_refl 1) hk, rfl, rfl⟩

theorem Prints.group {w : ℕ} (h : Prints names ts w) :
    Phrase names 14 (group ts) (.value w true) := by
  obtain ⟨a, ha, rfl, hlegal⟩ := h
  have hout := phrase_group ha
  rwa [hlegal] at hout

theorem phrase_more {pre : List Tok} {a : Sized} (hpre : Phrase names 0 pre a) :
    ∀ {ts : List (List Tok)} {ws : List ℕ}, List.Forall₂ (Prints names) ts ws → ts ≠ [] →
      ∃ c, Phrase names 0 (pre ++ .comma :: separated .comma ts) c ∧
        c.width = a.width + ws.sum ∧ c.legal = a.legal := by
  intro ts ws hts
  induction hts generalizing pre a with
  | nil => exact fun hne => absurd rfl hne
  | cons hitem hrest ih =>
    intro _
    obtain ⟨b, hb, hw, hlegal⟩ := hitem
    cases hrest with
    | nil =>
      refine ⟨_, hpre.cons hb, ?_, ?_⟩
      · simp [Sized.join, Sized.value, hw]
      · simp [Sized.join, Sized.value, hlegal]
    | cons hitem' hrest' =>
      obtain ⟨c, hc, hwidth, hclegal⟩ := ih (hpre.cons hb) (List.cons_ne_nil _ _)
      refine ⟨c, ?_, ?_, ?_⟩
      · rw [List.append_assoc, List.cons_append] at hc
        exact hc
      · rw [hwidth]
        simp only [Sized.join, Sized.value, hw, List.sum_cons]
        omega
      · rw [hclegal]
        simp only [Sized.join, Sized.value, hlegal, Bool.and_true]

/-- The width of a concatenation is the sum of those of its items. -/
theorem phrase_braces : ∀ {ts : List (List Tok)} {ws : List ℕ},
    List.Forall₂ (Prints names) ts ws → ts ≠ [] →
      Phrase names 14 (braces (separated .comma ts)) (.value ws.sum true)
  | [t], [w], .cons ⟨b, hb, hw, hlegal⟩ .nil, _ => by
    have h := Phrase.concat (.list hb)
    simpa [braces, separated, Sized.closed, hw, hlegal] using h
  | t :: t' :: rest, w :: w' :: ws, .cons ⟨b, hb, hw, hlegal⟩ hrest, _ => by
    obtain ⟨c, hc, hwidth, hclegal⟩ := phrase_more (.list hb) hrest (List.cons_ne_nil _ _)
    have hbase := hc.base_list rfl
    have h := Phrase.concat hc
    have heq : c = .value (w + (w' :: ws).sum) true := by
      rcases c with ⟨cw, cb, cl⟩
      simp only [Sized.closed, Sized.value, hw, hlegal] at hwidth hclegal hbase
      subst hwidth hclegal hbase
      rfl
    rw [heq] at h
    exact h

theorem forall₂_replicate {w : ℕ} : ∀ {items : List (List Tok)}, (∀ t ∈ items, Prints names t w) →
    List.Forall₂ (Prints names) items (List.replicate items.length w)
  | [], _ => .nil
  | t :: _, h => .cons (h t List.mem_cons_self)
      (forall₂_replicate fun t' ht' => h t' (List.mem_cons_of_mem t ht'))

/-- Items of one width. -/
theorem phrase_braces_const {w : ℕ} {ts : List (List Tok)} (hne : ts ≠ [])
    (h : ∀ t ∈ ts, Prints names t w) :
    Phrase names 14 (braces (separated .comma ts)) (.value (ts.length * w) true) := by
  have hout := phrase_braces (forall₂_replicate h) hne
  rwa [List.sum_replicate_nat] at hout

/-- Operands of one width under an operator that keeps it. -/
theorem phrase_separated {s : OpSym} {w : ℕ} (hs : 2 ≤ s.level) (hw : s.binaryWidth w w = w) :
    ∀ {ts : List (List Tok)}, ts ≠ [] → (∀ t ∈ ts, Phrase names 14 t (.value w true)) →
      Phrase names s.level (separated (.sym s) ts) (.value w true)
  | [t], _, h => (h t List.mem_cons_self).weaken (by omega) (by have := s.level_le; omega)
  | t :: t' :: rest, _, h => by
    have ih := phrase_separated hs hw (List.cons_ne_nil t' rest)
      fun u hu => h u (List.mem_cons_of_mem t hu)
    have ht : Phrase names s.level t (.value w true) :=
      (h t List.mem_cons_self).weaken (by omega) (by have := s.level_le; omega)
    have hout := ht.binary_right hs ih rfl
    simpa only [separated, Sized.binary, Sized.value, hw, Bool.and_self] using hout

/-! ## Intrinsics with one operand -/

/-- What the text of an intrinsic with one operand contributes. -/
def singleSpread (op : SingleBuiltin) (w sourceWidth : ℕ) : Spread :=
  match op with
  | .reduceAnd | .reduceOr | .reduceXor => .tight 1 true
  | .reverse => .tight (if sourceWidth = 0 then 1 else sourceWidth * sourceWidth) true
  | .bswap =>
    .tight (if sourceWidth = 0 ∨ sourceWidth % 8 ≠ 0 then 1 else sourceWidth / 8 * sourceWidth) true
  | .oh2b => .tight (if sourceWidth = 0 ∨ w = 0 then 1 else w) true
  | .abs => .tight (if sourceWidth = 0 ∨ w = 0 then 1 else max w (sourceWidth + 1)) true
  | .popcount => .tight (if sourceWidth = 0 ∨ w = 0 then 1 else sourceWidth) true
  | .prienc =>
    if sourceWidth = 0 ∨ w = 0 then .tight 1 true
    else if sourceWidth = 1 then .tight w true else ⟨true, w, w, true⟩
  | .lzc => if sourceWidth = 0 ∨ w = 0 then .tight 1 true else ⟨true, w, w, true⟩

theorem spreads_value {k w : ℕ} (hk : 1 ≤ k) (hk14 : k ≤ 14)
    (h : Phrase names 14 ts (.value w true)) : Spreads names k ts (.tight w true) :=
  .tight (h.weaken hk hk14)

theorem phrase_reduction {s : OpSym} {w : ℕ} (hs : s.isUnary = true) (hw : s.unaryWidth w = 1)
    (h : Prints names ts w) : Phrase names 13 (.sym s :: group ts) (.value 1 true) := by
  have hout := Phrase.unary hs (h.group.weaken (by omega) (show 13 ≤ 14 by omega))
  simpa only [Sized.unary, Sized.value, hw] using hout

/-- A chain of arms is open as soon as it has one. -/
theorem spreads_arms {source last : List Tok} {σ : Spread} {w : ℕ} (value : ℕ → ℕ)
    (h : Spreads names 10 source σ) (hlegal : σ.legal = true)
    (hlast : Phrase names 14 last (.value w true)) : ∀ l : List ℕ,
    Spreads names 14 (emitArms source w value l last)
      (if l = [] then .tight w true else ⟨true, w, w, true⟩)
  | [] => by
    rw [if_pos rfl, emitArms]
    exact .tight hlast
  | i :: rest => by
    have ih := spreads_arms value h hlegal hlast rest
    have hbit := phrase_maskedShift i h phrase_oneBit
    have hout := Spreads.chain hbit
      (phrase_sized (le_refl 1) (by omega) w ("d" ++ toString (value i))) ih
    rw [if_neg (List.cons_ne_nil i rest), emitArms]
    by_cases hrest : rest = []
    · simpa [Spread.tight, Sized.value, hlegal, hrest] using hout
    · simpa [Sized.value, hlegal, hrest] using hout

theorem map_range_ne_nil {n : ℕ} (h : n ≠ 0) (f : ℕ → List Tok) : (List.range n).map f ≠ [] :=
  mt List.map_eq_nil_iff.mp (List.range_ne_nil.mpr h)

theorem reverse_range_ne_nil {n : ℕ} (h : n ≠ 0) : (List.range n).reverse ≠ [] :=
  mt List.reverse_eq_nil_iff.mp (List.range_ne_nil.mpr h)

theorem filter_range_eq_nil {n : ℕ} :
    (List.range n).reverse.filter (1 ≤ ·) = [] ↔ n ≤ 1 := by
  rw [List.filter_eq_nil_iff]
  constructor
  · intro h
    by_contra hn
    exact h 1 (by simp; omega) (by simp)
  · intro h i hi
    simp only [List.mem_reverse, List.mem_range] at hi
    simp
    omega

section

variable {bare shifted : List Tok} {σ : Spread} {w sourceWidth : ℕ}

theorem phrase_shiftedBit (i : ℕ) (h : Spreads names 10 shifted σ) (hσ : σ.width = sourceWidth)
    (hlegal : σ.legal = true) (hpos : 0 < sourceWidth) :
    Phrase names 14 (maskedShift shifted [.decimal i] [oneBit]) (.value sourceWidth true) := by
  have hout := phrase_maskedShift i h phrase_oneBit
  rwa [hσ, hlegal, max_eq_left hpos] at hout

/-- A source without a context keeps its width under a shift and a mask. -/
theorem phrase_bareBit (i : ℕ) (h : Prints names bare sourceWidth) (hpos : 0 < sourceWidth) :
    Phrase names 14 (maskedShift bare [.decimal i] [oneBit]) (.value sourceWidth true) := by
  obtain ⟨a, ha, rfl, hlegal⟩ := h
  have hone : max a.width 1 = a.width := max_eq_left hpos
  have hdecimal : Phrase names (OpSym.shr.level + 1) [.decimal i] ⟨32, .const i, true⟩ :=
    (Phrase.decimal i).weaken (by decide) (by decide)
  obtain ⟨c, hc, hwidth, hclegal⟩ := Phrase.append (by decide) hdecimal (appends_shr 32) ha
    (le_refl 1)
  have hout := phrase_masked (hc.weaken (le_refl 1) (by decide)) phrase_oneBit
  rw [hwidth, hclegal, hlegal] at hout
  simpa only [Sized.value, Bool.and_self, hone] using hout

theorem phrase_bareFirst (h : Prints names bare sourceWidth) (hpos : 0 < sourceWidth) :
    Phrase names 14 (group (bare ++ .sym .amp :: [oneBit])) (.value sourceWidth true) := by
  obtain ⟨a, ha, rfl, hlegal⟩ := h
  have hone : max a.width 1 = a.width := max_eq_left hpos
  have hbit : Phrase names (OpSym.amp.level + 1) [oneBit] (.value 1 true) :=
    phrase_oneBit.weaken (by decide) (by decide)
  obtain ⟨c, hc, hwidth, hclegal⟩ := Phrase.append (by decide) hbit appends_amp ha (le_refl 1)
  have hout := phrase_group (hc.weaken (le_refl 1) (by decide))
  rw [hwidth, hclegal, hlegal] at hout
  simpa only [Sized.value, Bool.and_self, hone] using hout

theorem phrase_oh2bBit (k : ℕ) (h : Spreads names 10 shifted σ) (hσ : σ.width = sourceWidth)
    (hlegal : σ.legal = true) (hpos : 0 < sourceWidth) :
    Phrase names 13 (emitOh2bBit shifted sourceWidth k) (.value 1 true) := by
  rw [emitOh2bBit]
  split
  · exact phrase_reduction rfl rfl (.of_phrase (by omega) phrase_zeroBit)
  · rename_i hne
    have hitems : ∀ t ∈ ((List.range sourceWidth).filter fun i => i.testBit k).map fun i =>
        maskedShift shifted [.decimal i] [oneBit],
        Phrase names 14 t (.value sourceWidth true) := by
      intro t ht
      obtain ⟨i, -, rfl⟩ := List.mem_map.mp ht
      exact phrase_shiftedBit i h hσ hlegal hpos
    have hout := phrase_separated (s := .bar) (by decide) (max_self _) (by simpa using hne) hitems
    exact phrase_reduction rfl rfl (.of_phrase (by decide) hout)

/-- Every template over one operand reads with the width of `singleSpread`. -/
theorem spreads_single (op : SingleBuiltin) (hbare : Prints names bare sourceWidth)
    (h : Spreads names 10 shifted σ) (hσ : σ.width = sourceWidth) (hlegal : σ.legal = true) :
    Spreads names 13 (emitSingle op w sourceWidth bare shifted)
      (singleSpread op w sourceWidth) := by
  have hzero : Spreads names 13 [zeroBit] (.tight 1 true) :=
    spreads_value (by omega) (by omega) phrase_zeroBit
  have hwidth : ∀ {w : ℕ} {ts : List Tok}, Phrase names 13 ts (.value w true) →
      Spreads names 13 ts (.tight w true) := fun h => .tight h
  cases op with
  | reduceAnd | reduceOr | reduceXor =>
    simp only [emitSingle, singleSpread]
    split
    · exact hzero
    · exact hwidth (phrase_reduction rfl rfl hbare)
  | reverse =>
    simp only [emitSingle, singleSpread]
    split
    · exact hzero
    · rename_i hpos
      have hout := phrase_braces_const (w := sourceWidth)
        (map_range_ne_nil hpos _) (by
        intro t ht
        obtain ⟨i, -, rfl⟩ := List.mem_map.mp ht
        exact .of_phrase (by omega) (phrase_shiftedBit i h hσ hlegal (Nat.pos_of_ne_zero hpos)))
      rw [List.length_map, List.length_range] at hout
      exact hwidth (hout.weaken (by omega) (by omega))
  | bswap =>
    simp only [emitSingle, singleSpread]
    split
    · exact hzero
    · rename_i hbytes
      have h8 : 8 ≤ sourceWidth := by omega
      have hout := phrase_braces_const (w := sourceWidth)
        (map_range_ne_nil (by omega : sourceWidth / 8 ≠ 0) _) (by
        intro t ht
        obtain ⟨i, -, rfl⟩ := List.mem_map.mp ht
        have hbyte := phrase_maskedShift (i * 8) h (.sized 8 "hFF")
        rw [hσ, hlegal, max_eq_left h8] at hbyte
        exact .of_phrase (by omega) hbyte)
      rw [List.length_map, List.length_range] at hout
      exact hwidth (hout.weaken (by omega) (by omega))
  | oh2b =>
    simp only [emitSingle, singleSpread]
    split
    · exact hzero
    · rename_i hpos
      have hbit := fun k => phrase_oh2bBit k h hσ hlegal (by omega)
      split
      · rename_i hone
        subst hone
        exact hwidth (hbit 0)
      · have hout := phrase_braces_const (w := 1)
          (mt List.map_eq_nil_iff.mp (reverse_range_ne_nil (by omega : w ≠ 0))) (by
          intro t ht
          obtain ⟨i, -, rfl⟩ := List.mem_map.mp ht
          exact .of_phrase (by omega) (hbit i))
        rw [List.length_map, List.length_reverse, List.length_range, Nat.mul_one] at hout
        exact hwidth (hout.weaken (by omega) (by omega))
  | abs =>
    simp only [emitSingle, singleSpread]
    split
    · exact hzero
    · rename_i hpos
      have hbit := phrase_shiftedBit (sourceWidth - 1) h hσ hlegal (by omega)
      have hwide : Phrase names 14 (braces (zeroBit :: .comma :: bare))
          (.value (sourceWidth + 1) true) := by
        have hitems : List.Forall₂ (Prints names) [[zeroBit], bare] [1, sourceWidth] :=
          .cons (.of_phrase (by omega) phrase_zeroBit) (.cons hbare .nil)
        simpa [separated, Nat.add_comm] using phrase_braces hitems (List.cons_ne_nil _ _)
      have hneg : Phrase names 14
          (group (replicated w zeroBit ++ .sym .minus :: braces (zeroBit :: .comma :: bare)))
          (.value (max w (sourceWidth + 1)) true) :=
        phrase_infix (by decide) (phrase_replicated w phrase_zeroBit) hwide
      have hout := phrase_group (Phrase.ternary (hbit.weaken (by omega) (by omega))
        (hneg.weaken (by omega) (by omega)) (hwide.weaken (by omega) (by omega)))
      refine hwidth ?_
      simpa [Sized.ternary, Sized.value] using hout.weaken (by omega) (show 13 ≤ 14 by omega)
  | popcount =>
    simp only [emitSingle, singleSpread]
    split
    · exact hzero
    · rename_i hpos
      have hsource : 0 < sourceWidth := by omega
      have hitems : ∀ t ∈ (List.range sourceWidth).map fun i =>
          if i = 0 then group (bare ++ .sym .amp :: [oneBit])
          else maskedShift bare [.decimal i] [oneBit],
          Phrase names 14 t (.value sourceWidth true) := by
        intro t ht
        obtain ⟨i, -, rfl⟩ := List.mem_map.mp ht
        split
        · exact phrase_bareFirst hbare hsource
        · exact phrase_bareBit i hbare hsource
      have hout := phrase_separated (s := .plus) (by decide) (max_self _)
        (map_range_ne_nil hsource.ne' _) hitems
      exact spreads_value (by omega) (by omega)
        (Prints.group (.of_phrase (by decide) hout))
  | prienc =>
    simp only [emitSingle, singleSpread]
    split
    · exact hzero
    · rename_i hpos
      have hout := spreads_arms id h hlegal (.sized w "d0")
        ((List.range sourceWidth).reverse.filter (1 ≤ ·))
      simp only [filter_range_eq_nil] at hout
      have hiff : sourceWidth ≤ 1 ↔ sourceWidth = 1 := by omega
      simp only [hiff] at hout
      exact hout.weaken (by omega) (by omega)
  | lzc =>
    simp only [emitSingle, singleSpread]
    split
    · exact hzero
    · rename_i hpos
      have hout := spreads_arms (sourceWidth - 1 - ·) h hlegal
        (.sized w ("d" ++ toString sourceWidth)) (List.range sourceWidth).reverse
      rw [if_neg (reverse_range_ne_nil (by omega : sourceWidth ≠ 0))] at hout
      exact hout.weaken (by omega) (by omega)

end

end EmitNode

end JzHdl

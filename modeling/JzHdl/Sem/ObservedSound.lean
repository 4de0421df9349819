import JzHdl.Sem.ObservedValue
import Mathlib.Data.List.TakeWhile

/-! # No unknown bit is overlooked

A constant condition that stays within its widths has the number that the 64-bit
evaluator computes. An expression that the check lets pass has no `x`.
-/

namespace JzHdl

/-! ## Known bits -/

/-- Bits that may occur: no `x`, and no `z` unless it is let through. -/
def PatternBit.Allowed (z : Bool) (b : PatternBit) : Prop := b ≠ .x ∧ (z = false → b ≠ .z)

namespace LogicBits

def BitsAllowed (z : Bool) (v : LogicBits) : Prop := ∀ b ∈ v, b.Allowed z

variable {z : Bool} {v : LogicBits} {w n : ℕ}

theorem known_allowed (b : Bool) : (PatternBit.known b).Allowed z :=
  ⟨(fun h => by cases h), fun _ h => by cases h⟩

theorem map_known_allowed (bits : List Bool) : BitsAllowed z (bits.map .known) := by
  intro b hb
  obtain ⟨c, -, rfl⟩ := List.mem_map.mp hb
  exact known_allowed c

theorem length_ofNat : ∀ w n : ℕ, (ofNat w n).length = w
  | 0, _ => rfl
  | w + 1, n => by rw [ofNat, List.length_cons, length_ofNat w]

theorem ofNat_allowed : ∀ w n : ℕ, BitsAllowed z (ofNat w n)
  | 0, _ => fun _ h => absurd h List.not_mem_nil
  | w + 1, n => by
      intro b hb
      rcases List.mem_cons.mp hb with rfl | hb
      · exact known_allowed _
      · exact ofNat_allowed w _ b hb

theorem number_ofNat : ∀ w n : ℕ, (ofNat w n).number = some (n % 2 ^ w)
  | 0, n => by rw [ofNat, number, Nat.pow_zero, Nat.mod_one]
  | w + 1, n => by
      rw [ofNat, number, number_ofNat w, Option.map_some, Nat.pow_succ', Nat.mod_mul]
      congr 1
      rcases Nat.mod_two_eq_zero_or_one n with h | h
      · simp [h]
      · simp [h]
        omega

/-- Bits without `x` and `z` have a number. -/
theorem number_of_allowed : ∀ {v : LogicBits}, BitsAllowed false v → ∃ n, v.number = some n
  | [], _ => ⟨0, rfl⟩
  | .known b :: rest, h => by
      obtain ⟨n, hn⟩ := number_of_allowed (v := rest) fun c hc => h c (.tail _ hc)
      exact ⟨2 * n + b.toNat, by rw [number, hn, Option.map_some]⟩
  | .x :: _, h => absurd rfl (h .x (.head _)).1
  | .z :: _, h => absurd rfl ((h .z (.head _)).2 rfl)

theorem onNumber_allowed {k : ℕ → LogicBits} (hv : BitsAllowed false v)
    (hk : ∀ n, BitsAllowed z (k n)) : BitsAllowed z (v.onNumber w k) := by
  obtain ⟨n, hn⟩ := number_of_allowed hv
  unfold onNumber
  rw [hn]
  exact hk n

theorem onNumber_ofNat {k : ℕ → LogicBits} (hn : n < 2 ^ w) (w' : ℕ) :
    (ofNat w n).onNumber w' k = k n := by
  unfold onNumber
  rw [number_ofNat, Nat.mod_eq_of_lt hn]

theorem flatten_allowed {vs : List LogicBits} (h : ∀ v ∈ vs, BitsAllowed z v) :
    BitsAllowed z vs.flatten := by
  intro b hb
  obtain ⟨v, hv, hbv⟩ := List.mem_flatten.mp hb
  exact h v hv b hbv

theorem sublist_allowed {u : LogicBits} (hu : u.Sublist v) (h : BitsAllowed z v) :
    BitsAllowed z u :=
  fun b hb => h b (hu.subset hb)

end LogicBits

open LogicBits

/-! ## Literals -/

section

variable {z : Bool} {text value : List Char} {width : List Char} {base : JZNumericBase}

theorem literalValueText_parts (h : literalParts text = some (width, base, value)) :
    literalValueText text = value := by
  unfold literalParts at h
  unfold literalValueText
  split at h
  · obtain ⟨_, -, heq⟩ := Option.map_eq_some_iff.mp h
    cases heq
    rename_i hspan
    rw [hspan]
  · cases h

theorem digitBit_allowed {c : Char} (hc : isBinaryChar c = true) (h_ : c ≠ '_')
    (hx : c ≠ 'x' ∧ c ≠ 'X') (hz : z = false → c ≠ 'z' ∧ c ≠ 'Z') : (digitBit c).Allowed z := by
  unfold digitBit
  split
  · exact known_allowed _
  · split
    · exact known_allowed _
    · split
      · rename_i h
        exact absurd h (not_or.mpr hx)
      · refine ⟨(fun h => by cases h), fun hzf _ => ?_⟩
        have hmem : c ∈ ['0', '1', 'x', 'X', 'z', 'Z', '_'] := of_decide_eq_true hc
        simp only [List.mem_cons, List.not_mem_nil, or_false] at hmem
        have := hz hzf
        tauto

theorem binPatternBit_allowed {digits : List Char} (h : ∀ c ∈ digits, (digitBit c).Allowed z)
    (k : ℕ) : (binPatternBit digits k).Allowed z := by
  unfold binPatternBit
  split
  · rename_i c hc
    exact h c (List.mem_reverse.mp (List.mem_of_getElem? hc))
  · split
    · rename_i c hc
      split
      · exact known_allowed _
      · exact h c (List.mem_of_head? hc)
    · exact known_allowed _

theorem literalBits_allowed (hx : semLiteralHasXBits text = false)
    (hz : z = false → semLiteralHasZBits text = false) : BitsAllowed z (literalBits text) := by
  unfold literalBits
  split
  · rename_i width base value hparts
    rw [semLiteralHasXBits, literalValueText_parts hparts, List.any_eq_false] at hx
    rw [semLiteralHasZBits, literalValueText_parts hparts] at hz
    split
    · exact ofNat_allowed _ _
    · split
      · rename_i hbin
        obtain ⟨rfl, hall⟩ := hbin
        intro b hb
        obtain ⟨k, -, rfl⟩ := List.mem_map.mp hb
        refine binPatternBit_allowed (fun c hc => ?_) k
        obtain ⟨hmem, hsep⟩ := List.mem_filter.mp hc
        have hxc := hx c hmem
        simp only [Bool.or_eq_true, beq_iff_eq, not_or] at hxc
        refine digitBit_allowed (List.all_eq_true.mp hall c hmem) ?_ hxc fun hzf => ?_
        · rintro rfl
          revert hsep
          decide
        · have hzc := List.any_eq_false.mp (hz hzf) c hmem
          simpa only [Bool.or_eq_true, beq_iff_eq, not_or] using hzc
      · exact fun _ h => absurd h List.not_mem_nil
  · cases parseSimpleNonnegativeInt text with
    | none => exact fun _ h => absurd h List.not_mem_nil
    | some n => exact ofNat_allowed _ _

/-! ### Numbers of literals -/

theorem unsignedDigits_eq : ∀ {value : List Char} {acc n : ℕ},
    unsignedDigits base acc value = some n → digitsNumber base acc value = some n
  | [], _, _, h => h
  | c :: rest, acc, n, h => by
      unfold unsignedDigits at h
      unfold digitsNumber
      split at h
      · rename_i hc
        rw [if_pos hc]
        exact unsignedDigits_eq h
      · rename_i hc
        rw [if_neg hc]
        obtain ⟨d, hd, hrest⟩ := Option.bind_eq_some_iff.mp h
        split at hrest
        · cases hrest
        · exact Option.bind_eq_some_iff.mpr ⟨d, hd, unsignedDigits_eq hrest⟩

/-- A text with a tick is no bare number. -/
theorem simpleDigits_tick : ∀ {text : List Char} (acc : ℕ) (saw : Bool), tick ∈ text →
    simpleDigits acc saw text = none
  | c :: rest, acc, saw, h => by
      unfold simpleDigits
      rcases List.mem_cons.mp h with rfl | h
      · rfl
      · split
        · exact simpleDigits_tick acc saw h
        · split
          · rfl
          · split
            · rfl
            · exact simpleDigits_tick _ true h

theorem tick_of_parts {p : List Char × JZNumericBase × List Char}
    (h : literalParts text = some p) : tick ∈ text := by
  by_contra hnot
  unfold literalParts at h
  have hdrop : text.dropWhile (· ≠ tick) = [] := by
    refine List.dropWhile_eq_nil_iff.mpr fun c hc => ?_
    exact decide_eq_true fun heq => hnot (heq ▸ hc)
  rw [List.span_eq_takeWhile_dropWhile, hdrop] at h
  cases h

end

theorem fitted_eq {w n : ℕ} {a : ℕ × ℕ} (h : fitted w n = some a) :
    a = (w, n) ∧ n < 2 ^ w ∧ n < 2 ^ 64 := by
  unfold fitted at h
  split at h
  · rename_i hfit
    exact ⟨(Option.some.inj h).symm, hfit⟩
  · cases h

/-- What the language reads in an exact literal. -/
theorem literalBits_exact {text : List Char} {a : ℕ × ℕ} (h : exactLiteral text = some a) :
    literalBits text = .ofNat a.1 a.2 ∧ a.2 < 2 ^ a.1 ∧ a.2 < 2 ^ 64 := by
  unfold exactLiteral at h
  unfold literalBits
  split at h
  · obtain ⟨n, hn, hfit⟩ := Option.bind_eq_some_iff.mp h
    split at hfit
    · obtain ⟨rfl, hlt⟩ := fitted_eq hfit
      rename_i hparts _
      refine ⟨?_, hlt⟩
      simp only [hn]
    · cases hfit
  · obtain ⟨n, hn, hfit⟩ := Option.bind_eq_some_iff.mp h
    obtain ⟨rfl, hlt⟩ := fitted_eq hfit
    rw [hn]
    exact ⟨rfl, hlt⟩

/-- What the evaluator reads in an exact literal. -/
theorem parseLiteral_exact {text : List Char} {a : ℕ × ℕ} {v : ℕ} (h : exactLiteral text = some a)
    (hv : parseLiteralUnsignedValue text = some v) : v = a.2 := by
  unfold exactLiteral at h
  unfold parseLiteralUnsignedValue at hv
  split at h
  · rename_i width base value hparts
    obtain ⟨n, hn, hfit⟩ := Option.bind_eq_some_iff.mp h
    rw [parseSimpleNonnegativeInt, simpleDigits_tick 0 false (tick_of_parts hparts), Option.none_or,
      hparts] at hv
    dsimp only at hv
    split at hv
    · cases hv
    · have hdigits := unsignedDigits_eq hv
      rw [hn] at hdigits
      obtain rfl := Option.some.inj hdigits
      split at hfit
      · obtain ⟨rfl, -⟩ := fitted_eq hfit
        rfl
      · cases hfit
  · rename_i hparts
    obtain ⟨n, hn, hfit⟩ := Option.bind_eq_some_iff.mp h
    obtain ⟨rfl, -⟩ := fitted_eq hfit
    rw [hn, Option.some_or] at hv
    exact (Option.some.inj hv).symm

/-! ## Operators on exact constants -/

theorem pattern_natCast {w : ℕ} (n : ℕ) (h : n < 2 ^ w) : pattern w (n : ℤ) = n := by
  unfold pattern
  rw [Int.emod_eq_of_lt (Int.natCast_nonneg n) (by exact_mod_cast h), Int.toNat_natCast]

theorem signedNumber_small {w x : ℕ} (h : x < 2 ^ (w - 1)) : signedNumber w x = x := by
  unfold signedNumber
  rw [Nat.testBit_lt_two_pow h, if_neg Bool.false_ne_true]

theorem unary_exact {op : NodeUnaryOp} {w x : ℕ} (h : unaryExact op w x = true) :
    u64Unary op x = unaryNumber op w x := by
  cases op with
  | pos => rfl
  | neg =>
    obtain rfl : x = 0 := of_decide_eq_true h
    unfold u64Unary unaryNumber pattern
    simp
  | bitNot =>
    obtain rfl : w = 64 := of_decide_eq_true h
    rfl
  | logNot =>
    unfold u64Unary unaryNumber
    by_cases hx : x = 0 <;> simp [hx]

/-- An operator that stays within the widths computes the same number in 64 bits. -/
theorem binary_exact {op : NodeBinaryOp} {w x y v : ℕ} (hx : x < 2 ^ w)
    (hx64 : x < 2 ^ 64) (h : binaryExact op w x y = true) (hfit : binaryNumber op w x y < 2 ^ 64)
    (hv : u64Binary op x y = some v) : v = binaryNumber op w x y := by
  cases op with
  | add | mul =>
    cases hv
    exact Nat.mod_eq_of_lt hfit
  | sub =>
    cases hv
    have hle : y ≤ x := of_decide_eq_true h
    have hnum : binaryNumber .sub w x y = x - y := by
      unfold binaryNumber
      rw [← Int.ofNat_sub hle]
      exact pattern_natCast _ (by omega)
    rw [hnum] at hfit ⊢
    omega
  | div | mod =>
    simp only [u64Binary] at hv
    split at hv
    · cases hv
    · exact (Option.some.inj hv).symm
  | shl =>
    simp only [u64Binary] at hv
    split at hv
    · cases hv
    · cases hv
      exact Nat.mod_eq_of_lt hfit
  | shr =>
    simp only [u64Binary] at hv
    split at hv
    · cases hv
    · exact (Option.some.inj hv).symm
  | ashr =>
    simp only [u64Binary] at hv
    obtain ⟨hw, h63⟩ := Bool.and_eq_true_iff.mp h
    split at hv
    · cases hv
    · rw [if_pos (of_decide_eq_true h63)] at hv
      cases hv
      unfold binaryNumber
      rw [signedNumber_small (of_decide_eq_true hw)]
      have hdiv : ((x : ℤ) / 2 ^ y) = ((x / 2 ^ y : ℕ) : ℤ) := by push_cast; rfl
      rw [hdiv, pattern_natCast]
      exact lt_of_le_of_lt (Nat.div_le_self _ _) hx
  | bitAnd | bitOr | bitXor | logAnd | logOr | eq | neq | lt | le | gt | ge =>
    exact (Option.some.inj hv).symm

section

variable {scope : ObsScope} {ρ : SignalValues}

theorem exactName_value {name : List Char} {a : ℕ × ℕ} (h : exactName scope name = some a) :
    nameBits scope ρ name = .ofNat a.1 a.2 ∧ a.2 < 2 ^ a.1 ∧ a.2 < 2 ^ 64 := by
  unfold exactName at h
  unfold nameBits
  split at h
  · rename_i hdot
    obtain ⟨text, htext, hlit⟩ := Option.bind_eq_some_iff.mp h
    split at hlit
    · rw [if_pos hdot, htext]
      exact literalBits_exact hlit
    · cases hlit
  · rename_i hdot
    rw [if_neg hdot]
    split at h
    · rename_i sym hsym
      split at h
      · rename_i hconst
        obtain ⟨v, hv, hn⟩ := Option.bind_eq_some_iff.mp h
        obtain ⟨n, hnonneg, hfit⟩ := Option.bind_eq_some_iff.mp hn
        obtain ⟨rfl, hlt⟩ := fitted_eq hfit
        unfold nonnegative at hnonneg
        split at hnonneg
        · cases hnonneg
        · cases hnonneg
          simp only [if_pos hconst, hv, Option.map_some, Option.getD_some]
          exact ⟨rfl, hlt⟩
      · cases h
    · cases h

theorem exactName_u64 {name : List Char} {a : ℕ × ℕ} {v : ℕ} (h : exactName scope name = some a)
    (hv : semEvalConstExprU64 scope (.identifier name) = some v) : v = a.2 := by
  unfold exactName at h
  unfold semEvalConstExprU64 at hv
  split at h
  · rename_i hdot
    obtain ⟨text, htext, hlit⟩ := Option.bind_eq_some_iff.mp h
    split at hlit
    · rename_i hsome
      obtain ⟨n, hn⟩ := Option.isSome_iff_exists.mp hsome
      rw [if_pos hdot, htext, Option.bind_some, hn, Option.some_or] at hv
      cases hv
      exact parseLiteral_exact hlit hn
    · cases hlit
  · rename_i hdot
    rw [if_neg hdot] at hv
    split at h
    · split at h
      · obtain ⟨c, hc, hn⟩ := Option.bind_eq_some_iff.mp h
        obtain ⟨n, hnonneg, hfit⟩ := Option.bind_eq_some_iff.mp hn
        obtain ⟨rfl, -⟩ := fitted_eq hfit
        rw [hc, Option.bind_some, hnonneg] at hv
        exact (Option.some.inj hv).symm
      · cases h
    · cases h

/-- An exact constant has its number at its width for all signals. -/
theorem exactConst_value : ∀ {e : ExprNode} {a : ℕ × ℕ}, exactConst scope e = some a →
    exprValue scope ρ e = some (.ofNat a.1 a.2) ∧ a.2 < 2 ^ a.1 ∧ a.2 < 2 ^ 64
  | .literal text, a, h => by
      obtain ⟨hbits, hlt⟩ := literalBits_exact h
      exact ⟨congrArg some hbits, hlt⟩
  | .identifier name, a, h => by
      obtain ⟨hbits, hlt⟩ := exactName_value h
      exact ⟨congrArg some hbits, hlt⟩
  | .unary op operand, a, h => by
      obtain ⟨b, hb, hrest⟩ := Option.bind_eq_some_iff.mp h
      split at hrest
      · obtain ⟨rfl, hlt⟩ := fitted_eq hrest
        obtain ⟨hval, hblt, -⟩ := exactConst_value hb
        refine ⟨?_, hlt⟩
        rw [exprValue, hval, Option.map_some, onNumber_ofNat hblt, length_ofNat]
      · cases hrest
  | .binary op left right, a, h => by
      obtain ⟨b, hb, hrest⟩ := Option.bind_eq_some_iff.mp h
      obtain ⟨c, hc, hrest⟩ := Option.bind_eq_some_iff.mp hrest
      split at hrest
      · rename_i hok
        obtain ⟨rfl, hlt⟩ := fitted_eq hrest
        obtain ⟨hl, hblt, -⟩ := exactConst_value hb
        obtain ⟨hr, hclt, -⟩ := exactConst_value hc
        refine ⟨?_, hlt⟩
        rw [exprValue, hl, hr, Option.bind_some, Option.bind_some, if_neg, onNumber_ofNat hblt,
          onNumber_ofNat hclt, length_ofNat]
        rw [number_ofNat, Nat.mod_eq_of_lt hclt]
        rintro ⟨hdiv, hzero⟩
        exact hok.2 ⟨hdiv, Option.some.inj hzero⟩
      · cases hrest

/-- The evaluator finds the number of an exact constant. -/
theorem exactConst_u64 : ∀ {e : ExprNode} {a : ℕ × ℕ} {v : ℕ}, exactConst scope e = some a →
    semEvalConstExprU64 scope e = some v → v = a.2
  | .literal _, _, _, h, hv => parseLiteral_exact h hv
  | .identifier _, _, _, h, hv => exactName_u64 h hv
  | .unary op operand, a, v, h, hv => by
      obtain ⟨b, hb, hrest⟩ := Option.bind_eq_some_iff.mp h
      obtain ⟨u, hu, rfl⟩ := Option.map_eq_some_iff.mp hv
      obtain rfl := exactConst_u64 hb hu
      split at hrest
      · rename_i hexact
        obtain ⟨rfl, -⟩ := fitted_eq hrest
        exact unary_exact hexact
      · cases hrest
  | .binary op left right, a, v, h, hv => by
      obtain ⟨b, hb, hrest⟩ := Option.bind_eq_some_iff.mp h
      obtain ⟨c, hc, hrest⟩ := Option.bind_eq_some_iff.mp hrest
      obtain ⟨x, hx, hop⟩ := Option.bind_eq_some_iff.mp hv
      obtain ⟨y, hy, hop⟩ := Option.bind_eq_some_iff.mp hop
      obtain rfl := exactConst_u64 hb hx
      obtain rfl := exactConst_u64 hc hy
      split at hrest
      · rename_i hexact
        obtain ⟨rfl, -, h64⟩ := fitted_eq hrest
        obtain ⟨-, hx, hx64⟩ := @exactConst_value scope ⟨fun _ => [], fun _ _ => []⟩ _ _ hb
        exact binary_exact hx hx64 hexact.1 h64 hop
      · cases hrest

/-! ## What the check lets pass -/

mutual

/-- Nothing is observable where no literal has an `x` or a `z`. -/
theorem not_observable_of_plain {bad : List Char → Bool} (hbad : ∀ text,
      semLiteralHasXBits text = false → semLiteralHasZBits text = false → bad text = false) :
    ∀ {e : ExprNode}, plainLiterals e = true → containsObservable scope bad e = false
  | .literal text, h => by
      simp only [plainLiterals, Bool.and_eq_true, Bool.not_eq_true'] at h
      exact hbad text h.1 h.2
  | .specialDriver _, _ | .identifier _, _ => rfl
  | .unary _ operand, h => not_observable_of_plain hbad (e := operand) h
  | .compileTime _ arg, h => not_observable_of_plain hbad (e := arg) h
  | .single _ source, h => not_observable_of_plain hbad (e := source) h
  | .slice base _ _, h => not_observable_of_plain hbad (e := base) h
  | .binary _ l r, h | .pair _ l r, h | .lit l r, h | .gbit l r, h | .b2oh l r, h => by
      simp only [plainLiterals, Bool.and_eq_true] at h
      simp only [containsObservable, Bool.or_eq_false_iff]
      exact ⟨not_observable_of_plain hbad h.1, not_observable_of_plain hbad h.2⟩
  | .ternary c t f, h => by
      simp only [plainLiterals, Bool.and_eq_true] at h
      have ht := not_observable_of_plain hbad h.1.2
      have hf := not_observable_of_plain hbad h.2
      simp only [containsObservable, Bool.or_eq_false_iff]
      refine ⟨not_observable_of_plain hbad h.1.1, ?_⟩
      split
      · exact ht
      · exact hf
      · exact Bool.or_eq_false_iff.mpr ⟨ht, hf⟩
  | .concat es, h => by
      have hall : plainLiteralsAll es = true := h
      exact not_observableAny_of_plain hbad hall
  | .replicate count e, h => by
      simp only [plainLiterals, Bool.and_eq_true, Bool.not_eq_true'] at h
      simp only [containsObservable, Bool.or_eq_false_iff]
      exact ⟨hbad count h.1.1 h.1.2, not_observable_of_plain hbad h.2⟩
  | .sbit a b c, h | .gslice a b c, h => by
      simp only [plainLiterals, Bool.and_eq_true] at h
      simp only [containsObservable, Bool.or_eq_false_iff]
      exact ⟨⟨not_observable_of_plain hbad h.1.1, not_observable_of_plain hbad h.1.2⟩,
        not_observable_of_plain hbad h.2⟩
  | .sslice a b c d, h => by
      simp only [plainLiterals, Bool.and_eq_true] at h
      simp only [containsObservable, Bool.or_eq_false_iff]
      exact ⟨⟨⟨not_observable_of_plain hbad h.1.1.1, not_observable_of_plain hbad h.1.1.2⟩,
        not_observable_of_plain hbad h.1.2⟩, not_observable_of_plain hbad h.2⟩

theorem not_observableAny_of_plain {bad : List Char → Bool} (hbad : ∀ text,
      semLiteralHasXBits text = false → semLiteralHasZBits text = false → bad text = false) :
    ∀ {es : List ExprNode}, plainLiteralsAll es = true → containsObservableAny scope bad es = false
  | [], _ => rfl
  | e :: rest, h => by
      simp only [plainLiteralsAll, Bool.and_eq_true] at h
      simp only [containsObservableAny, Bool.or_eq_false_iff]
      exact ⟨not_observable_of_plain hbad h.1, not_observableAny_of_plain hbad h.2⟩

end

theorem nameBits_allowed {name : List Char} {z : Bool} (h : nameKnown scope name = true) :
    BitsAllowed z (nameBits scope ρ name) := by
  unfold nameKnown at h
  unfold nameBits
  split at h
  · rename_i hdot
    rw [if_pos hdot]
    split
    · rename_i text htext
      rw [htext, Option.all_some] at h
      simp only [Bool.and_eq_true, Bool.not_eq_true'] at h
      exact literalBits_allowed h.1 fun _ => h.2
    · exact map_known_allowed _
  · rename_i hdot
    rw [if_neg hdot]
    split
    · split
      · cases scope.evalConst name with
        | none => exact fun _ hb => absurd hb List.not_mem_nil
        | some v => exact ofNat_allowed _ _
      · exact map_known_allowed _
    · exact map_known_allowed _

theorem branchBits_allowed {z : Bool} {v : LogicBits} (branch other : ExprNode)
    (h : BitsAllowed z v) : BitsAllowed z (branchBits scope branch other v) := by
  unfold branchBits
  split
  · intro b hb
    obtain ⟨c, hc, hrep⟩ := List.mem_flatMap.mp hb
    rw [(List.mem_replicate.mp hrep).2]
    exact h c hc
  · exact h

/-- The verdict on an exact condition picks the branch that the value of the condition picks. -/
theorem verdict_exact {c : ExprNode} {v : LogicBits} {truthy : Bool}
    (hexact : (exactConst scope c).isSome = true)
    (hverdict : semExprConstTruthy scope c = some truthy)
    (hv : exprValue scope ρ c = some v) : ∃ n, v.number = some n ∧ truthy = decide (n ≠ 0) := by
  obtain ⟨a, ha⟩ := Option.isSome_iff_exists.mp hexact
  obtain ⟨u, hu, rfl⟩ := Option.map_eq_some_iff.mp hverdict
  obtain ⟨hval, hlt, -⟩ := @exactConst_value scope ρ _ _ ha
  rw [hv] at hval
  obtain rfl := Option.some.inj hval
  refine ⟨a.2, ?_, ?_⟩
  · rw [number_ofNat, Nat.mod_eq_of_lt hlt]
  · rw [exactConst_u64 ha hu]

theorem observable_false {e : ExprNode} (h : operandKnown scope e = true) :
    containsObservable scope semLiteralHasZBits e = false := by
  unfold operandKnown at h
  rwa [Bool.not_eq_true'] at h

/-- The branch that a condition picks passes the check, since no verdict rules it out. -/
theorem chosen_passes {c t f : ExprNode} {z : Bool} {v : LogicBits} {n : ℕ}
    (h : observesExactly scope (.ternary c t f) = true)
    (hx : containsObservable scope semLiteralHasXBits (.ternary c t f) = false)
    (hz : z = false → containsObservable scope semLiteralHasZBits (.ternary c t f) = false)
    (hv : exprValue scope ρ c = some v) (hn : v.number = some n) {e : ExprNode}
    (he : e = if n = 0 then f else t) :
    observesExactly scope e = true ∧ containsObservable scope semLiteralHasXBits e = false ∧
      (z = false → containsObservable scope semLiteralHasZBits e = false) := by
  simp only [observesExactly, Bool.and_eq_true] at h
  simp only [containsObservable, Bool.or_eq_false_iff] at hx hz
  obtain ⟨-, hbranch⟩ := h
  cases hverdict : semExprConstTruthy scope c with
  | none =>
    simp only [hverdict, Bool.and_eq_true, Bool.or_eq_false_iff] at hbranch hx hz
    split at he
    · exact he ▸ ⟨hbranch.2, hx.2.2, fun hzf => (hz hzf).2.2⟩
    · exact he ▸ ⟨hbranch.1, hx.2.1, fun hzf => (hz hzf).2.1⟩
  | some truthy =>
    simp only [hverdict, Bool.or_eq_true, Bool.and_eq_true] at hbranch
    rcases hbranch with ⟨hexact, hlive⟩ | ⟨⟨⟨hpt, hpf⟩, het⟩, hef⟩
    · obtain ⟨k, hk, rfl⟩ := verdict_exact hexact hverdict hv
      obtain rfl := Option.some.inj (hn.symm.trans hk)
      by_cases h0 : n = 0
      · subst h0
        rw [if_pos rfl] at he
        subst he
        exact ⟨hlive, by simpa [hverdict] using hx.2, fun hzf => by
          simpa [hverdict] using (hz hzf).2⟩
      · rw [if_neg h0] at he
        subst he
        rw [decide_eq_true h0] at hlive hverdict
        exact ⟨hlive, by simpa [hverdict] using hx.2, fun hzf => by
          simpa [hverdict] using (hz hzf).2⟩
    · split at he
      · exact he ▸ ⟨hef, not_observable_of_plain (fun _ h _ => h) hpf,
          fun _ => not_observable_of_plain (fun _ _ h => h) hpf⟩
      · exact he ▸ ⟨het, not_observable_of_plain (fun _ h _ => h) hpt,
          fun _ => not_observable_of_plain (fun _ _ h => h) hpt⟩

/-- Two numbers are known, and so is what is built from them. -/
theorem onNumbers_allowed {z : Bool} {u v : LogicBits} {p q w : ℕ} {k : ℕ → ℕ → ℕ}
    (hu : BitsAllowed false u) (hv : BitsAllowed false v) :
    BitsAllowed z (u.onNumber p fun x => v.onNumber q fun y => ofNat w (k x y)) :=
  onNumber_allowed hu fun _ => onNumber_allowed hv fun _ => ofNat_allowed _ _

mutual

/-- The value of an expression that the check lets pass has no `x`, and no `z` where it has none
that is observable. -/
theorem value_allowed : ∀ {e : ExprNode} {z : Bool} {v : LogicBits},
    observesExactly scope e = true → containsObservable scope semLiteralHasXBits e = false →
    (z = false → containsObservable scope semLiteralHasZBits e = false) →
    exprValue scope ρ e = some v → BitsAllowed z v
  | .literal text, z, v, _, hx, hz, hv => by
      obtain rfl := Option.some.inj hv
      exact literalBits_allowed hx hz
  | .specialDriver vcc, z, v, _, _, _, hv => by
      obtain rfl := Option.some.inj hv
      exact map_known_allowed [vcc]
  | .identifier name, z, v, h, _, _, hv => by
      obtain rfl := Option.some.inj hv
      exact nameBits_allowed h
  | .unary op operand, z, v, h, hx, _, hv => by
      simp only [observesExactly, Bool.and_eq_true] at h
      obtain ⟨a, ha, rfl⟩ := Option.map_eq_some_iff.mp hv
      have hknown := value_allowed (z := false) h.1 hx (fun _ => observable_false h.2) ha
      exact onNumber_allowed hknown fun n => ofNat_allowed _ _
  | .binary op l r, z, v, h, hx, _, hv => by
      simp only [observesExactly, Bool.and_eq_true] at h
      simp only [containsObservable, Bool.or_eq_false_iff] at hx
      obtain ⟨a, ha, hv⟩ := Option.bind_eq_some_iff.mp hv
      obtain ⟨b, hb, hv⟩ := Option.bind_eq_some_iff.mp hv
      have hl := value_allowed (z := false) h.1.1.1 hx.1 (fun _ => observable_false h.1.2) ha
      have hr := value_allowed (z := false) h.1.1.2 hx.2 (fun _ => observable_false h.2) hb
      split at hv
      · cases hv
      · obtain rfl := Option.some.inj hv
        exact onNumbers_allowed hl hr
  | .ternary c t f, z, v, h, hx, hz, hv => by
      obtain ⟨b, hb, hv⟩ := Option.bind_eq_some_iff.mp hv
      obtain ⟨n, hn⟩ : ∃ n, b.number = some n := by
        simp only [observesExactly, Bool.and_eq_true] at h
        simp only [containsObservable, Bool.or_eq_false_iff] at hx
        exact number_of_allowed
          (value_allowed (z := false) h.1.1 hx.1 (fun _ => observable_false h.1.2) hb)
      simp only [hn] at hv
      split at hv
      · rename_i heq
        obtain ⟨u, hu, rfl⟩ := Option.map_eq_some_iff.mp hv
        obtain rfl := Option.some.inj heq
        obtain ⟨hexact, hpass, hknown⟩ := chosen_passes h hx hz hb hn (if_pos rfl).symm
        exact branchBits_allowed f t (value_allowed hexact hpass hknown hu)
      · rename_i hne heq
        obtain ⟨u, hu, rfl⟩ := Option.map_eq_some_iff.mp hv
        obtain rfl := Option.some.inj heq
        obtain ⟨hexact, hpass, hknown⟩ := chosen_passes h hx hz hb hn (if_neg hne).symm
        exact branchBits_allowed t f (value_allowed hexact hpass hknown hu)
      · rename_i heq
        cases heq
  | .concat es, z, v, h, hx, hz, hv => by
      obtain ⟨vs, hvs, rfl⟩ := Option.map_eq_some_iff.mp hv
      have hall : observesExactlyAll scope es = true := h
      exact flatten_allowed fun u hu => values_allowed hall hx hz hvs u (List.mem_reverse.mp hu)
  | .replicate count e, z, v, h, hx, hz, hv => by
      simp only [containsObservable, Bool.or_eq_false_iff] at hx hz
      obtain ⟨a, ha, rfl⟩ := Option.map_eq_some_iff.mp hv
      have hall := value_allowed (e := e) h hx.2 (fun hzf => (hz hzf).2) ha
      exact flatten_allowed fun u hu => (List.mem_replicate.mp hu).2 ▸ hall
  | .slice base msb lsb, z, v, h, hx, hz, hv => by
      unfold exprValue at hv
      split at hv
      · obtain ⟨a, ha, rfl⟩ := Option.map_eq_some_iff.mp hv
        exact sublist_allowed ((List.take_sublist _ _).trans (List.drop_sublist _ _))
          (value_allowed (e := base) h hx hz ha)
      · split at hv
        · obtain ⟨i, -, hv⟩ := Option.bind_eq_some_iff.mp hv
          obtain ⟨k, -, rfl⟩ := Option.map_eq_some_iff.mp hv
          exact map_known_allowed _
        · cases hv
  | .lit width value, z, v, _, _, _, hv => by
      obtain ⟨c, -, rfl⟩ := Option.map_eq_some_iff.mp hv
      exact ofNat_allowed _ _
  | .pair op l r, z, v, h, hx, _, hv => by
      simp only [observesExactly, Bool.and_eq_true] at h
      simp only [containsObservable, Bool.or_eq_false_iff] at hx
      obtain ⟨a, ha, hv⟩ := Option.bind_eq_some_iff.mp hv
      obtain ⟨b, hb, rfl⟩ := Option.map_eq_some_iff.mp hv
      have hl := value_allowed (z := false) h.1.1.1 hx.1 (fun _ => observable_false h.1.2) ha
      have hr := value_allowed (z := false) h.1.1.2 hx.2 (fun _ => observable_false h.2) hb
      exact onNumbers_allowed hl hr
  | .single op s, z, v, h, hx, _, hv => by
      simp only [observesExactly, Bool.and_eq_true] at h
      obtain ⟨a, ha, rfl⟩ := Option.map_eq_some_iff.mp hv
      have hknown := value_allowed (z := false) h.1 hx (fun _ => observable_false h.2) ha
      exact onNumber_allowed hknown fun _ => ofNat_allowed _ _
  | .gbit s i, z, v, h, hx, _, hv => by
      simp only [observesExactly, Bool.and_eq_true] at h
      simp only [containsObservable, Bool.or_eq_false_iff] at hx
      obtain ⟨a, ha, hv⟩ := Option.bind_eq_some_iff.mp hv
      obtain ⟨b, hb, rfl⟩ := Option.map_eq_some_iff.mp hv
      have hl := value_allowed (z := false) h.1.1.1 hx.1 (fun _ => observable_false h.1.2) ha
      have hr := value_allowed (z := false) h.1.1.2 hx.2 (fun _ => observable_false h.2) hb
      exact onNumbers_allowed hl hr
  | .gslice s i w, z, v, h, hx, _, hv => by
      simp only [observesExactly, Bool.and_eq_true] at h
      simp only [containsObservable, Bool.or_eq_false_iff] at hx
      obtain ⟨a, ha, hv⟩ := Option.bind_eq_some_iff.mp hv
      obtain ⟨b, hb, hv⟩ := Option.bind_eq_some_iff.mp hv
      obtain ⟨n, -, rfl⟩ := Option.map_eq_some_iff.mp hv
      have hl := value_allowed (z := false) h.1.1.1 hx.1.1 (fun _ => observable_false h.1.2) ha
      have hr := value_allowed (z := false) h.1.1.2 hx.1.2 (fun _ => observable_false h.2) hb
      exact onNumbers_allowed hl hr
  | .sbit s i y, z, v, h, hx, _, hv => by
      simp only [observesExactly, Bool.and_eq_true] at h
      simp only [containsObservable, Bool.or_eq_false_iff] at hx
      obtain ⟨⟨⟨⟨⟨hs, hi⟩, hy⟩, hsz⟩, hiz⟩, hyz⟩ := h
      obtain ⟨a, ha, hv⟩ := Option.bind_eq_some_iff.mp hv
      obtain ⟨b, hb, hv⟩ := Option.bind_eq_some_iff.mp hv
      obtain ⟨c, hc, rfl⟩ := Option.map_eq_some_iff.mp hv
      have h1 := value_allowed (z := false) hs hx.1.1 (fun _ => observable_false hsz) ha
      have h2 := value_allowed (z := false) hi hx.1.2 (fun _ => observable_false hiz) hb
      have h3 := value_allowed (z := false) hy hx.2 (fun _ => observable_false hyz) hc
      exact onNumber_allowed h1 fun _ => onNumber_allowed h2 fun _ =>
        onNumber_allowed h3 fun _ => ofNat_allowed _ _
  | .sslice s i w y, z, v, h, hx, _, hv => by
      simp only [observesExactly, Bool.and_eq_true] at h
      simp only [containsObservable, Bool.or_eq_false_iff] at hx
      obtain ⟨⟨⟨⟨⟨hs, hi⟩, hy⟩, hsz⟩, hiz⟩, hyz⟩ := h
      obtain ⟨a, ha, hv⟩ := Option.bind_eq_some_iff.mp hv
      obtain ⟨b, hb, hv⟩ := Option.bind_eq_some_iff.mp hv
      obtain ⟨n, -, hv⟩ := Option.bind_eq_some_iff.mp hv
      obtain ⟨c, hc, rfl⟩ := Option.map_eq_some_iff.mp hv
      have h1 := value_allowed (z := false) hs hx.1.1.1 (fun _ => observable_false hsz) ha
      have h2 := value_allowed (z := false) hi hx.1.1.2 (fun _ => observable_false hiz) hb
      have h3 := value_allowed (z := false) hy hx.2 (fun _ => observable_false hyz) hc
      exact onNumber_allowed h1 fun _ => onNumber_allowed h2 fun _ =>
        onNumber_allowed h3 fun _ => ofNat_allowed _ _
  | .b2oh i w, z, v, h, hx, _, hv => by
      simp only [observesExactly, Bool.and_eq_true] at h
      simp only [containsObservable, Bool.or_eq_false_iff] at hx
      obtain ⟨a, ha, rfl⟩ := Option.map_eq_some_iff.mp hv
      have hknown := value_allowed (z := false) h.1 hx.1 (fun _ => observable_false h.2) ha
      exact onNumber_allowed hknown fun _ => ofNat_allowed _ _

theorem values_allowed : ∀ {es : List ExprNode} {z : Bool} {vs : List LogicBits},
    observesExactlyAll scope es = true → containsObservableAny scope semLiteralHasXBits es = false →
    (z = false → containsObservableAny scope semLiteralHasZBits es = false) →
    exprValues scope ρ es = some vs → ∀ v ∈ vs, BitsAllowed z v
  | [], z, vs, _, _, _, hv => by
      obtain rfl := Option.some.inj hv
      exact fun _ h => absurd h List.not_mem_nil
  | e :: rest, z, vs, h, hx, hz, hv => by
      simp only [observesExactlyAll, Bool.and_eq_true] at h
      simp only [containsObservableAny, Bool.or_eq_false_iff] at hx hz
      obtain ⟨u, hu, hv⟩ := Option.bind_eq_some_iff.mp hv
      obtain ⟨us, hus, rfl⟩ := Option.map_eq_some_iff.mp hv
      intro w hw
      rcases List.mem_cons.mp hw with rfl | hw
      · exact value_allowed h.1 hx.1 (fun hzf => (hz hzf).1) hu
      · exact values_allowed h.2 hx.2 (fun hzf => (hz hzf).2) hus w hw

end

end

/-! ## Soundness of the check -/

/--
Where every branch that is left out is ruled out by a condition within its
widths and no operator meets a `z`, an expression that the check lets pass has
no `x` under any known signals.
-/
theorem containsObservableX_sound (scope : ObsScope) {e : ExprNode}
    (hexact : observesExactly scope e = true) (hpass : semExprContainsObservableX scope e = false)
    (ρ : SignalValues) {v : LogicBits} (hv : exprValue scope ρ e = some v) : .x ∉ v := by
  intro hmem
  have hallowed := value_allowed (z := true) hexact hpass (fun h => by cases h) hv
  exact (hallowed .x hmem).1 rfl

/-- A module without names. -/
def bareScope : ObsScope where
  lookup _ := none
  evalConst _ := none
  globalText _ := none
  evalProject _ := none

def noSignals : SignalValues := ⟨fun _ => [], fun _ _ => []⟩

/-- A binary literal of one digit. -/
def bitLiteral (c : Char) : ExprNode := .literal ['1', tick, 'b', c]

theorem containsObservableX_sound_pruned :
    exprValue bareScope noSignals (.ternary (bitLiteral '1') (bitLiteral '0') (bitLiteral 'x')) =
      some [.known false] ∧ .x ∉ [PatternBit.known false] := by
  have hv : exprValue bareScope noSignals
      (.ternary (bitLiteral '1') (bitLiteral '0') (bitLiteral 'x')) = some [.known false] := by
    decide +kernel
  exact ⟨hv, containsObservableX_sound bareScope (by decide +kernel) (by decide +kernel) noSignals
    hv⟩

/-- The complement of a set bit is 0 in one bit and not 0 in 64 bits. -/
theorem complementedCondition_observes_x :
    semExprContainsObservableX bareScope
      (.ternary (.unary .bitNot (bitLiteral '1')) (bitLiteral '0') (bitLiteral 'x')) = false ∧
    exprValue bareScope noSignals
      (.ternary (.unary .bitNot (bitLiteral '1')) (bitLiteral '0') (bitLiteral 'x')) =
        some [.x] := by
  decide +kernel

end JzHdl

import JzHdl.Ir.BuildExpr
import JzHdl.Sim.MaskedEval
import JzHdl.Sim.Targets

/-! # Dynamic slices

A field written with `sslice` and read with `gslice`. The lowering of the write
drops the element width and takes the width of the source, so that the write
does nothing at a positive index and replaces the whole source at index zero.
-/

namespace JzHdl

open BitWords

section

variable {S V : SimValue} {n w : ℕ}

/-! ## The write -/

theorem simValShl_zero (hS : S.width = n) (hm : S.Masked) (hn : 0 < n) (hn256 : n ≤ 256) :
    simValShl S (simValFromUint (BitVec.ofNat 64 0) 32) =
      if simValHasXz S then simValAllX n else S := by
  have hzero : simValHasXz (simValFromUint (BitVec.ofNat 64 0) 32) = false ∧
      simValToSmallUint (simValFromUint (BitVec.ofNat 64 0) 32) = some 0 := by decide +kernel
  rw [simValShl, hzero.1, hzero.2, Bool.or_false, hS]
  split
  · rfl
  · rename_i hxz
    rw [Bool.not_eq_true] at hxz
    dsimp only
    rw [if_neg (show ¬ n ≤ (0 : Word).toNat from not_le.mpr hn)]
    refine (masked_simValMask _).ext hm hS.symm fun k hk => ?_
    replace hk : k < n := hk
    obtain ⟨hx, hz⟩ := simValHasXz_eq_false hxz (hS.symm ▸ hk)
    have hword : shlWord S.val (numWords n) 0 (k / 64) = S.val.get (k / 64) := by
      simp [shlWord, lt_numWords hk]
    simp only [simValMask, bit_maskWords, hk, decide_true, Bool.true_and, hx, hz, Words.bit_zero,
      and_true]
    rw [bit_ofFn_numWords _ hk (by omega)]
    change (shlWord S.val (numWords n) 0 (k / 64)).getLsbD (k % 64) = _
    rw [hword, getLsbD_get_div]

/-- The bits of a value within a larger width. -/
theorem simValSlice_extend (hV : V.width = w) (hm : V.Masked) (hw : w ≤ n) (hn : 0 < n) :
    simValSlice V (n - 1) 0 = { V with width := n } := by
  have hwidth : (simValSlice V (n - 1) 0).width = n := by
    rw [width_simValSlice V (Nat.zero_le _)]
    omega
  refine (masked_simValSlice V _ _).ext (SimValue.masked_of_bits fun k hk => ?_) hwidth
    fun k hk => ?_
  · replace hk : n ≤ k := hk
    exact hm.bits (by omega)
  · rw [hwidth] at hk
    obtain ⟨h1, h2, h3⟩ := bit_sliceWords_part V (n - 1) 0 k (by omega)
    rw [Nat.zero_add] at h1 h2 h3
    exact ⟨h1, h2, h3⟩

theorem simValZext_self {v : SimValue} (h : v.width = n) : simValZext v n = v := by
  rw [simValZext, if_pos h.ge]

/-- Clearing every bit leaves zero, whatever the source held. -/
theorem simValAnd_not_ones (hS : S.width = n) (hn256 : n ≤ 256) :
    simValAnd S (simValNot (simValOnes n)) = simValZero n := by
  have hnot : (simValNot (simValOnes n)).width = n := rfl
  have hmax : max S.width (simValNot (simValOnes n)).width = n := by rw [hS, hnot, max_self]
  refine (masked_simValAnd _ _).ext (masked_simValZero n) hmax fun k hk => ?_
  replace hk : k < max S.width (simValNot (simValOnes n)).width := hk
  have hkn : k < n := hmax ▸ hk
  have hones : (simValOnes n).val.bit k = true := by
    change (widthOnes n).bit k = true
    rw [bit_widthOnes (by omega), decide_eq_true hkn]
  obtain ⟨h1, h2, h3⟩ := simValNot_bit (simValOnes n) (k := k) hkn (by omega)
  obtain ⟨h4, h5, h6⟩ := simValAnd_bit S (simValNot (simValOnes n)) hk (by omega)
  have hx : (simValOnes n).xmask.bit k = false ∧ (simValOnes n).zmask.bit k = false :=
    ⟨Words.bit_zero k, Words.bit_zero k⟩
  rw [h4, h5, h6, h1, h2, h3]
  simp [hones, hx, simValZero]

theorem simValOr_zero (hS : S.width = n) (hm : S.Masked) (hn256 : n ≤ 256)
    (hz : ∀ k < n, S.zmask.bit k = false) (hx : ∀ k < n, S.xmask.bit k = true → S.val.bit k = false) :
    simValOr (simValZero n) S = S := by
  have hmax : max (simValZero n).width S.width = n := by rw [hS]; exact max_self n
  refine (masked_simValOr _ _).ext hm (hmax.trans hS.symm) fun k hk => ?_
  replace hk : k < max (simValZero n).width S.width := hk
  have hkn : k < n := hmax ▸ hk
  obtain ⟨h1, h2, h3⟩ := simValOr_bit (simValZero n) S hk (by omega)
  have h0 : (simValZero n).val.bit k = false ∧ (simValZero n).xmask.bit k = false ∧
      (simValZero n).zmask.bit k = false := ⟨Words.bit_zero k, Words.bit_zero k, Words.bit_zero k⟩
  have hzk := hz k hkn
  have hxk := hx k hkn
  rw [h1, h2, h3, h0.1, h0.2.1, h0.2.2, hzk]
  cases hxb : S.xmask.bit k with
  | false => simp
  | true => simp [hxk hxb]

/-- With the width of the source for the element width, the write at index zero replaces the whole
source. -/
theorem insertSlice_whole (hS : S.width = n) (hV : V.width = w) (hVm : V.Masked) (hw : w ≤ n)
    (hn : 0 < n) (hn256 : n ≤ 256) :
    insertSlice S V 0 n = if simValHasXz { V with width := n } then simValAllX n
      else { V with width := n } := by
  have hext : ({ V with width := n } : SimValue).Masked :=
    simValSlice_extend hV hVm hw hn ▸ masked_simValSlice V (n - 1) 0
  have hones : simValHasXz (simValOnes n) = false := by
    rw [← Bool.not_eq_true, simValHasXz_iff]
    rintro ⟨k, -, h⟩
    simp [simValOnes] at h
  rw [insertSlice, if_neg hn.ne', simValSlice_extend hV hVm hw hn, hS, simValZext_self rfl,
    @simValZext_self n (simValOnes n) rfl, simValShl_zero rfl hext hn hn256,
    simValShl_zero rfl (masked_simValOnes n) hn hn256, hones, if_neg Bool.false_ne_true,
    simValAnd_not_ones hS hn256]
  split
  · exact simValOr_zero rfl (masked_simValAllX n) hn256 (fun k _ => Words.bit_zero k)
      fun k _ _ => Words.bit_zero k
  · rename_i hxz
    rw [Bool.not_eq_true] at hxz
    refine simValOr_zero rfl hext hn256 (fun k hk => (simValHasXz_eq_false hxz hk).2)
      fun k hk hx => ?_
    rw [(simValHasXz_eq_false hxz hk).1] at hx
    cases hx

/-! ## The read -/

/-- `gslice` of a known index: the element with that number, or all `x`. -/
def readField (R : SimValue) (i w : ℕ) : SimValue :=
  if R.width < i * w + w then simValAllX w else simValSlice R (i * w + w - 1) (i * w)

theorem simValHasXz_extend (hV : V.width = w) (hm : V.Masked) (hw : w ≤ n) :
    simValHasXz { V with width := n } = simValHasXz V := by
  rw [Bool.eq_iff_iff, simValHasXz_iff, simValHasXz_iff, hV]
  constructor
  · rintro ⟨k, -, h⟩
    refine ⟨k, ?_, h⟩
    by_contra hk
    obtain ⟨-, hx, hz⟩ := hm.bits (k := k) (by omega)
    simp [hx, hz] at h
  · rintro ⟨k, hk, h⟩
    exact ⟨k, lt_of_lt_of_le hk hw, h⟩

theorem readField_zero_extend (hV : V.width = w) (hm : V.Masked) (hw : w ≤ n) (hpos : 0 < w) :
    readField { V with width := n } 0 w = V := by
  rw [readField, if_neg (by simpa using hw), Nat.zero_mul, Nat.zero_add]
  have hwidth : (simValSlice { V with width := n } (w - 1) 0).width = w := by
    rw [width_simValSlice _ (Nat.zero_le _)]
    omega
  refine (masked_simValSlice _ _ _).ext hm (hwidth.trans hV.symm) fun k hk => ?_
  rw [hwidth] at hk
  obtain ⟨h1, h2, h3⟩ := bit_sliceWords_part { V with width := n } (w - 1) 0 k (by omega)
  rw [Nat.zero_add] at h1 h2 h3
  exact ⟨h1, h2, h3⟩

theorem part_simValAllX (hn256 : n ≤ 256) {k : ℕ} (hk : k < n) :
    (simValAllX n).part (.bit k) = .inl (false, true, false) := by
  have hx : (widthOnes n).bit k = true := by rw [bit_widthOnes (by omega), decide_eq_true hk]
  simp [SimValue.part, hx, simValAllX]

theorem readField_zero_allX (hn256 : n ≤ 256) (hw : w ≤ n) (hpos : 0 < w) :
    readField (simValAllX n) 0 w = simValAllX w := by
  rw [readField, if_neg (by simpa [simValAllX] using hw), Nat.zero_mul, Nat.zero_add]
  have hwidth : (simValSlice (simValAllX n) (w - 1) 0).width = w := by
    rw [width_simValSlice _ (Nat.zero_le _)]
    omega
  refine (masked_simValSlice _ _ _).ext (masked_simValAllX w) hwidth fun k hk => ?_
  rw [hwidth] at hk
  obtain ⟨h1, h2, h3⟩ := bit_sliceWords_part (simValAllX n) (w - 1) 0 k (by omega)
  rw [Nat.zero_add] at h1 h2 h3
  have hn := part_simValAllX hn256 (lt_of_lt_of_le hk hw)
  have hwx := part_simValAllX (hw.trans hn256) hk
  simp only [SimValue.part, Sum.inl.injEq, Prod.mk.injEq] at hn hwx
  exact ⟨h1.trans (hn.1.trans hwx.1.symm), h2.trans (hn.2.1.trans hwx.2.1.symm),
    h3.trans (hn.2.2.trans hwx.2.2.symm)⟩

/-! ## Agreement -/

/-- The read returns the value, and the write changed no bit of the source outside the field. -/
def FieldAgrees (S R read V : SimValue) (lo w : ℕ) : Prop :=
  read = V ∧ ∀ k < S.width, ¬ (lo ≤ k ∧ k < lo + w) → R.part (.bit k) = S.part (.bit k)

/-- At index zero the bits above the field already are what the write leaves there; at a positive
index the source already reads as the value. -/
def FieldHeld (S V : SimValue) (i w : ℕ) : Prop :=
  if i = 0 then
    (simValHasXz V = false ∧
      ∀ k < S.width, w ≤ k → S.part (.bit k) = .inl (false, false, false)) ∨
    (V = simValAllX w ∧ ∀ k < S.width, w ≤ k → S.part (.bit k) = .inl (false, true, false))
  else readField S i w = V

theorem fieldAgrees_zero_iff (hS : S.width = n) (hV : V.width = w) (hVm : V.Masked) (hpos : 0 < w)
    (hw : w ≤ n) (hn256 : n ≤ 256) :
    FieldAgrees S (insertSlice S V 0 n) (readField (insertSlice S V 0 n) 0 w) V 0 w ↔
      FieldHeld S V 0 w := by
  have hout : ∀ k, ¬ (0 ≤ k ∧ k < 0 + w) ↔ w ≤ k := fun k => by omega
  have hxw : simValHasXz (simValAllX w) = true := by
    have hbit := part_simValAllX (hw.trans hn256) hpos
    simp only [SimValue.part, Sum.inl.injEq, Prod.mk.injEq] at hbit
    exact (simValHasXz_iff _).mpr ⟨0, hpos, .inl hbit.2.1⟩
  rw [insertSlice_whole hS hV hVm hw (by omega) hn256, simValHasXz_extend hV hVm hw, FieldHeld,
    if_pos rfl, FieldAgrees, hS]
  simp only [hout]
  cases hxz : simValHasXz V with
  | false =>
    have hne : V ≠ simValAllX w := by
      rintro rfl
      rw [hxw] at hxz
      cases hxz
    simp only [Bool.false_eq_true, if_false, readField_zero_extend hV hVm hw hpos, true_and, hne,
      false_and, or_false]
    refine forall₃_congr fun k _ hk => ?_
    obtain ⟨h1, h2, h3⟩ := hVm.bits (hV.trans_le hk)
    rw [eq_comm]
    simp only [SimValue.part, h1, h2, h3]
  | true =>
    simp only [if_true, readField_zero_allX hn256 hw hpos, Bool.true_eq_false, false_and, false_or]
    rw [eq_comm]
    refine and_congr_right fun _ => forall₃_congr fun k hk _ => ?_
    rw [part_simValAllX hn256 hk, eq_comm]

end

section

variable {scope : ExprScope} {m : IRModule} {s s' : CtxState}
  {source index width value result : ExprNode} {S V : SimValue} {i w lo : ℕ}

/-- The operands of a write in one state and of the read of its result in another, with their
values. -/
structure FieldOperands (scope : ExprScope) (m : IRModule) (s s' : CtxState)
    (source index width value result : ExprNode) (S V : SimValue) (i w : ℕ) : Prop where

  sourceBuilt : ∃ b, irBuildNode scope 1 source = some b ∧ simEvalExpr m s b.ir = S ∧
    inferExprType scope source = S.width

  indexBuilt : ∃ b, irBuildNode scope 1 index = some b ∧
    simValueToIndex (simEvalExpr m s b.ir) = some i ∧
    simValueToIndex (simEvalExpr m s' b.ir) = some i

  widthBound : irEvalSliceBound scope width = some w

  valueBuilt : ∃ b, irBuildNode scope 1 value = some b ∧ simEvalExpr m s b.ir = V

  resultBuilt : ∃ b, irBuildNode scope 1 result = some b ∧
    ∀ write, irBuildNode scope 0 (.sslice source index width value) = some write →
      simEvalExpr m s' b.ir = simEvalExpr m s write.ir

theorem simValHasXz_of_index {v : SimValue} (h : simValueToIndex v = some i) :
    simValHasXz v = false := by
  rw [← Bool.not_eq_true]
  intro hxz
  rw [simValueToIndex, simValToSmallUint, if_pos hxz] at h
  cases h

/-- What the lowered write evaluates to. -/
theorem FieldOperands.write
    (h : FieldOperands scope m s s' source index width value result S V i w)
    (hn : S.width ≤ 256) :
    ∃ write, irBuildNode scope 0 (.sslice source index width value) = some write ∧
      simEvalExpr m s write.ir =
        if S.width < i + S.width then S else insertSlice S V i S.width := by
  obtain ⟨bs, hbs, hS, htype⟩ := h.sourceBuilt
  obtain ⟨bi, hbi, hi, -⟩ := h.indexBuilt
  obtain ⟨bv, hbv, hV⟩ := h.valueBuilt
  have hinfer : intWidth (inferExprType scope (.sslice source index width value)) = S.width := by
    rw [inferExprType, htype]
    exact if_pos (by omega)
  refine ⟨_, by rw [irBuildNode, if_neg (by decide), hbs, hbi, hbv], ?_⟩
  rw [hinfer]
  simp only [BuiltExpr.node, simEvalExpr, evalIntrinsic, hS, hV, hi, simValHasXz_of_index hi,
    Bool.false_eq_true, if_false]

/-- What the lowered read evaluates to. -/
theorem FieldOperands.read
    (h : FieldOperands scope m s s' source index width value result S V i w)
    (hpos : 0 < w) (hw : w ≤ 256) {write : BuiltExpr}
    (hwrite : irBuildNode scope 0 (.sslice source index width value) = some write) :
    ∃ read, irBuildNode scope 0 (.gslice result index width) = some read ∧
      simEvalExpr m s' read.ir = readField (simEvalExpr m s write.ir) i w := by
  obtain ⟨br, hbr, hR⟩ := h.resultBuilt
  obtain ⟨bi, hbi, -, hi⟩ := h.indexBuilt
  have hew : gsliceWidth scope br width = w := by
    have hint : intWidth w = w := if_pos (by omega)
    rw [gsliceWidth, h.widthBound, Option.elim_some, hint]
    exact if_neg hpos.ne'
  refine ⟨_, by rw [irBuildNode, if_neg (by decide), hbr, hbi], ?_⟩
  simp only [BuiltExpr.node, simEvalExpr, evalIntrinsic, hew, if_neg hpos.ne', hi,
    simValHasXz_of_index hi, hR write hwrite, Bool.false_eq_true, if_false]
  rfl

/-- Writing a field and reading it back, by what the lowered expressions evaluate to. -/
def SliceAgrees (scope : ExprScope) (m : IRModule) (s s' : CtxState)
    (source index width value result : ExprNode) (S V : SimValue) (lo w : ℕ) : Prop :=
  ∃ write read, irBuildNode scope 0 (.sslice source index width value) = some write ∧
    irBuildNode scope 0 (.gslice result index width) = some read ∧
    FieldAgrees S (simEvalExpr m s write.ir) (simEvalExpr m s' read.ir) V lo w

/-- The index counts elements, as the evaluation of the read has it, or bits. -/
theorem sliceAgrees_iff
    (h : FieldOperands scope m s s' source index width value result S V i w)
    (hV : V.width = w ∧ V.Masked) (hpos : 0 < w) (hn : S.width ≤ 256)
    (hlo : lo = i * w ∨ lo = i) (hin : lo + w ≤ S.width) :
    SliceAgrees scope m s s' source index width value result S V lo w ↔ FieldHeld S V i w := by
  obtain ⟨write, hwrite, hR⟩ := h.write hn
  obtain ⟨read, hread, hvalue⟩ := h.read hpos (by omega) hwrite
  have hagree : SliceAgrees scope m s s' source index width value result S V lo w ↔
      FieldAgrees S (simEvalExpr m s write.ir) (readField (simEvalExpr m s write.ir) i w) V
        lo w := by
    constructor
    · rintro ⟨write', read', hwrite', hread', hfield⟩
      obtain rfl := Option.some.inj (hwrite.symm.trans hwrite')
      obtain rfl := Option.some.inj (hread.symm.trans hread')
      rwa [hvalue] at hfield
    · intro hfield
      exact ⟨write, read, hwrite, hread, by rwa [hvalue]⟩
  rw [hagree, hR]
  rcases Nat.eq_zero_or_pos i with rfl | hi
  · have hlo0 : lo = 0 := by omega
    rw [if_neg (by omega), hlo0]
    exact fieldAgrees_zero_iff rfl hV.1 hV.2 hpos (by omega) hn
  · rw [if_pos (by omega), FieldHeld, if_neg hi.ne']
    exact and_iff_left fun _ _ _ => rfl

end

namespace FieldExample

def scope : ExprScope where
  lookup := fun name =>
    if name = ['a'] then some ⟨.signal, some 0, 8⟩
    else if name = ['i'] then some ⟨.signal, some 1, 3⟩
    else if name = ['v'] then some ⟨.signal, some 2, 4⟩
    else none
  evalConst := fun _ => none

def design : IRModule := ⟨[⟨0, .net, 8⟩, ⟨1, .net, 3⟩, ⟨2, .net, 4⟩], [], [], .null⟩

/-- The source, the index and the value in the first three signals. -/
def state (a i v : ℕ) : CtxState :=
  let value (j : ℕ) : SimValue := match j with
    | 0 => simValFromUint (BitVec.ofNat 64 a) 8
    | 1 => simValFromUint (BitVec.ofNat 64 i) 3
    | _ => simValFromUint (BitVec.ofNat 64 v) 4
  ⟨fun j => ⟨value j, value j, false⟩, fun _ _ => simValZero 1, false, false, fun _ => false⟩

def written : ExprNode :=
  .sslice (.identifier ['a']) (.identifier ['i']) (.literal ['4']) (.identifier ['v'])

theorem operands {a i v : ℕ} (hi : simValueToIndex (simValFromUint (BitVec.ofNat 64 i) 3) = some i) :
    FieldOperands scope design (state a i v) (state a i v) (.identifier ['a']) (.identifier ['i'])
      (.literal ['4']) (.identifier ['v']) written (simValFromUint (BitVec.ofNat 64 a) 8)
      (simValFromUint (BitVec.ofNat 64 v) 4) i 4 where
  sourceBuilt := ⟨_, rfl, rfl, rfl⟩
  indexBuilt := ⟨_, rfl, hi, hi⟩
  widthBound := by decide
  valueBuilt := ⟨_, rfl, rfl⟩
  resultBuilt := ⟨_, rfl, fun write hwrite => by
    obtain rfl := Option.some.inj hwrite
    rfl⟩

end FieldExample

open FieldExample in
/-- The low half of a byte whose high half is zero. -/
theorem sliceAgrees_iff_low : SliceAgrees scope design (state 5 0 12) (state 5 0 12)
    (.identifier ['a']) (.identifier ['i']) (.literal ['4']) (.identifier ['v']) written
    (simValFromUint (BitVec.ofNat 64 5) 8) (simValFromUint (BitVec.ofNat 64 12) 4) 0 4 := by
  refine (sliceAgrees_iff (operands (by decide +kernel)) ⟨rfl, by decide +kernel⟩ (by omega)
    (by decide +kernel) (.inl rfl) (by decide +kernel)).mpr ?_
  rw [FieldHeld, if_pos rfl]
  refine .inl ⟨by decide +kernel, ?_⟩
  decide +kernel

open FieldExample in
/-- `4'hC` written to element 1 of `8'hA5`: the source comes back. -/
theorem element_not_written :
    FieldOperands scope design (state 165 1 12) (state 165 1 12) (.identifier ['a'])
      (.identifier ['i']) (.literal ['4']) (.identifier ['v']) written
      (simValFromUint (BitVec.ofNat 64 165) 8) (simValFromUint (BitVec.ofNat 64 12) 4) 1 4 ∧
    ¬ SliceAgrees scope design (state 165 1 12) (state 165 1 12) (.identifier ['a'])
      (.identifier ['i']) (.literal ['4']) (.identifier ['v']) written
      (simValFromUint (BitVec.ofNat 64 165) 8) (simValFromUint (BitVec.ofNat 64 12) 4) 4 4 := by
  refine ⟨operands (by decide +kernel), ?_⟩
  rintro ⟨write, read, hwrite, hread, hvalue, -⟩
  obtain rfl := Option.some.inj hwrite
  obtain rfl := Option.some.inj hread
  revert hvalue
  decide +kernel

end JzHdl

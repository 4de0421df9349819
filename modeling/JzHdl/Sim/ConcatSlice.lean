import JzHdl.Sim.Eval
import JzHdl.Sim.EvalWidth
import JzHdl.Sim.OpBits

/-! # Slices of a concatenation

A slice at the bits that an operand of a concatenation occupies is the operand,
as long as the evaluator reads every operand of the list.
-/

namespace JzHdl

open BitWords

/-- The number of bits to the right of an operand. -/
def bitsBelow (vals : List SimValue) (i : ℕ) : ℕ := ((vals.drop (i + 1)).map SimValue.width).sum

/-- The slice of a value at the bits of each operand is the operand. -/
def OperandsRead (r : SimValue) (vals : List SimValue) : Prop :=
  ∀ i v, vals[i]? = some v →
    simValSlice r (bitsBelow vals i + v.width - 1) (bitsBelow vals i) = v

/-! ## Operands and positions -/

section

variable (plane : SimValue → SimWords)

theorem concatBit_operand : ∀ (vals : List SimValue) {i : ℕ} {v : SimValue} {k : ℕ},
    vals[i]? = some v → k < v.width →
    concatBit plane vals (bitsBelow vals i + k) = (plane v).bit k
  | u :: rest, 0, v, k, hv, hk => by
      obtain rfl : u = v := by simpa using hv
      have hoff : bitsBelow (u :: rest) 0 = (rest.map SimValue.width).sum := by simp [bitsBelow]
      rw [concatBit, hoff, if_neg (by omega), decide_eq_true (by omega), Bool.true_and,
        Nat.add_sub_cancel_left]
  | u :: rest, i + 1, v, k, hv, hk => by
      rw [List.getElem?_cons_succ] at hv
      have hin : bitsBelow rest i + v.width ≤ (rest.map SimValue.width).sum := by
        obtain ⟨hi, rfl⟩ := List.getElem?_eq_some_iff.mp hv
        have hsplit := congrArg (fun l : List SimValue => (l.map SimValue.width).sum)
          (List.take_append_drop i rest)
        simp only [List.map_append, List.sum_append, List.drop_eq_getElem_cons hi, List.map_cons,
          List.sum_cons] at hsplit
        rw [bitsBelow]
        omega
      have hoff : bitsBelow (u :: rest) (i + 1) = bitsBelow rest i := by simp [bitsBelow]
      rw [concatBit, hoff, if_pos (by omega)]
      exact concatBit_operand rest hv hk

/-- Every position of a concatenation lies in one operand. -/
theorem exists_operand : ∀ (vals : List SimValue) {k : ℕ}, k < (vals.map SimValue.width).sum →
    ∃ i v j, vals[i]? = some v ∧ j < v.width ∧ k = bitsBelow vals i + j
  | u :: rest, k, hk => by
      rw [List.map_cons, List.sum_cons] at hk
      by_cases hlt : k < (rest.map SimValue.width).sum
      · obtain ⟨i, v, j, hv, hj, rfl⟩ := exists_operand rest hlt
        exact ⟨i + 1, v, j, by simpa using hv, hj, by simp [bitsBelow]⟩
      · refine ⟨0, u, k - (rest.map SimValue.width).sum, rfl, by omega, ?_⟩
        have hoff : bitsBelow (u :: rest) 0 = (rest.map SimValue.width).sum := by simp [bitsBelow]
        omega

theorem concatBit_append : ∀ (xs ys : List SimValue) (k : ℕ), concatBit plane (xs ++ ys) k =
    if k < (ys.map SimValue.width).sum then concatBit plane ys k
    else concatBit plane xs (k - (ys.map SimValue.width).sum)
  | [], ys, k => by
      by_cases h : k < (ys.map SimValue.width).sum
      · simp [h]
      · rw [List.nil_append, if_neg h, concatBit_of_le plane ys (by omega)]
        rfl
  | x :: xs, ys, k => by
      rw [List.cons_append, concatBit, concatBit_append xs ys k]
      simp only [List.map_append, List.sum_append]
      by_cases h : k < (ys.map SimValue.width).sum
      · rw [if_pos (by omega), if_pos h, if_pos h]
      · rw [if_neg h, if_neg h, concatBit]
        by_cases h' : k < (xs.map SimValue.width).sum + (ys.map SimValue.width).sum
        · rw [if_pos h', if_pos (by omega)]
        · rw [if_neg h', if_neg (by omega), Nat.sub_sub, Nat.add_comm (ys.map _).sum]
          congr 1
          rw [decide_eq_decide]
          omega

end

/-! ## Slices -/

theorem simValSlice_eq {r v : SimValue} {lo : ℕ} (hv : v.Masked) (hpos : 0 < v.width)
    (h : ∀ k < v.width, r.val.bit (lo + k) = v.val.bit k ∧ r.xmask.bit (lo + k) = v.xmask.bit k ∧
      r.zmask.bit (lo + k) = v.zmask.bit k) : simValSlice r (lo + v.width - 1) lo = v := by
  have hwidth : (simValSlice r (lo + v.width - 1) lo).width = v.width := by
    rw [width_simValSlice r (by omega)]
    omega
  refine (masked_simValSlice r _ _).ext hv hwidth fun k hk => ?_
  rw [hwidth] at hk
  obtain ⟨h1, h2, h3⟩ := bit_sliceWords_part r (lo + v.width - 1) lo k (by omega)
  obtain ⟨h4, h5, h6⟩ := h k hk
  exact ⟨h1.trans h4, h2.trans h5, h3.trans h6⟩

/-- A value whose slices are the operands has the bits of their concatenation. -/
theorem OperandsRead.bits {r : SimValue} {vals : List SimValue} (h : OperandsRead r vals) {k : ℕ}
    (hk : k < (vals.map SimValue.width).sum) : r.val.bit k = concatBit SimValue.val vals k ∧
      r.xmask.bit k = concatBit SimValue.xmask vals k ∧
      r.zmask.bit k = concatBit SimValue.zmask vals k := by
  obtain ⟨i, v, j, hv, hj, rfl⟩ := exists_operand vals hk
  obtain ⟨h1, h2, h3⟩ := bit_sliceWords_part r (bitsBelow vals i + v.width - 1)
    (bitsBelow vals i) j (by omega)
  rw [h i v hv] at h1 h2 h3
  rw [concatBit_operand _ vals hv hj, concatBit_operand _ vals hv hj, concatBit_operand _ vals hv hj]
  exact ⟨h1.symm, h2.symm, h3.symm⟩

section

variable {vals : List SimValue} (hm : ∀ v ∈ vals, v.Masked ∧ 0 < v.width)
  (hsum : (vals.map SimValue.width).sum ≤ 256)

include hm in
theorem operandsRead_of_bits {r : SimValue} (h : ∀ k < (vals.map SimValue.width).sum,
    r.val.bit k = concatBit SimValue.val vals k ∧ r.xmask.bit k = concatBit SimValue.xmask vals k ∧
      r.zmask.bit k = concatBit SimValue.zmask vals k) : OperandsRead r vals := by
  intro i v hv
  obtain ⟨hmask, hpos⟩ := hm v (List.mem_of_getElem? hv)
  refine simValSlice_eq hmask hpos fun k hk => ?_
  by_cases hin : bitsBelow vals i + k < (vals.map SimValue.width).sum
  · obtain ⟨h1, h2, h3⟩ := h _ hin
    rw [h1, h2, h3]
    exact ⟨concatBit_operand _ vals hv hk, concatBit_operand _ vals hv hk,
      concatBit_operand _ vals hv hk⟩
  · exfalso
    obtain ⟨hi, rfl⟩ := List.getElem?_eq_some_iff.mp hv
    have hsplit := congrArg (fun l : List SimValue => (l.map SimValue.width).sum)
      (List.take_append_drop i vals)
    simp only [List.map_append, List.sum_append, List.drop_eq_getElem_cons hi, List.map_cons,
      List.sum_cons] at hsplit
    rw [bitsBelow] at hin
    omega

include hm hsum in
theorem operandsRead_concat : OperandsRead (simValConcat vals) vals :=
  operandsRead_of_bits hm fun _ hk => simValConcat_bit vals (by omega)

end

/-! ## Operands beyond the evaluator's buffer -/

/-- A finite run of bits that equals itself shifted is clear. -/
theorem eq_false_of_shift {f : ℕ → Bool} {S D : ℕ} (hD : 0 < D) (hout : ∀ k, S ≤ k → f k = false)
    (h : ∀ k < S, f k = f (k + D)) (k : ℕ) : f k = false := by
  induction hn : S - k using Nat.strong_induction_on generalizing k with
  | _ n ih =>
    by_cases hk : k < S
    · rw [h k hk]
      exact ih (S - (k + D)) (by omega) (k + D) rfl
    · exact hout k (by omega)

section

variable {vals : List SimValue}

theorem sum_width_pos {us : List SimValue} (hm : ∀ v ∈ us, v.Masked ∧ 0 < v.width)
    (hne : us ≠ []) : 0 < (us.map SimValue.width).sum := by
  obtain ⟨u, rest, rfl⟩ := List.exists_cons_of_ne_nil hne
  have hu := (hm u (List.mem_cons_self ..)).2
  rw [List.map_cons, List.sum_cons]
  omega

/-- An operand list with more operands than are read comes back only if it is zero throughout. -/
theorem eq_zero_of_operandsRead_take {n : ℕ} (hm : ∀ v ∈ vals, v.Masked ∧ 0 < v.width)
    (hsum : (vals.map SimValue.width).sum ≤ 256) (hlen : n < vals.length)
    (h : OperandsRead (simValConcat (vals.take n)) vals) :
    ∀ v ∈ vals, v = simValZero v.width := by
  have hrest : vals.drop n ≠ [] := by simpa using hlen
  have hD := sum_width_pos (fun v hv => hm v (List.mem_of_mem_drop hv)) hrest
  have hclear : ∀ plane : SimValue → SimWords, (∀ k < (vals.map SimValue.width).sum,
      concatBit plane (vals.take n) k = concatBit plane vals k) →
      ∀ k, concatBit plane vals k = false := by
    intro plane hk
    refine eq_false_of_shift hD (fun k hout => concatBit_of_le plane vals hout) fun k hlt => ?_
    have happ := concatBit_append plane (vals.take n) (vals.drop n)
      (k + ((vals.drop n).map SimValue.width).sum)
    rw [List.take_append_drop, if_neg (by omega), Nat.add_sub_cancel] at happ
    rw [← hk k hlt, happ]
  have hbits : ∀ k < (vals.map SimValue.width).sum,
      concatBit SimValue.val (vals.take n) k = concatBit SimValue.val vals k ∧
      concatBit SimValue.xmask (vals.take n) k = concatBit SimValue.xmask vals k ∧
      concatBit SimValue.zmask (vals.take n) k = concatBit SimValue.zmask vals k := by
    intro k hk
    obtain ⟨h1, h2, h3⟩ := h.bits hk
    obtain ⟨h4, h5, h6⟩ := simValConcat_bit (vals.take n) (k := k) (by omega)
    exact ⟨h4.symm.trans h1, h5.symm.trans h2, h6.symm.trans h3⟩
  intro v hv
  obtain ⟨i, hi⟩ := List.getElem?_of_mem hv
  refine (hm v hv).1.ext (SimValue.masked_of_bits fun k _ => by simp [simValZero]) rfl
    fun k hk => ?_
  have hzero : ∀ plane : SimValue → SimWords, (∀ k, concatBit plane vals k = false) →
      (plane v).bit k = false := fun plane hp => by
    rw [← concatBit_operand plane vals hi hk, hp]
  simp only [simValZero, Words.bit_zero]
  exact ⟨hzero _ (hclear _ fun k hk => (hbits k hk).1),
    hzero _ (hclear _ fun k hk => (hbits k hk).2.1), hzero _ (hclear _ fun k hk => (hbits k hk).2.2)⟩

theorem concatBit_eq_false {plane : SimValue → SimWords} : ∀ {vals : List SimValue},
    (∀ v ∈ vals, plane v = .zero) → ∀ k, concatBit plane vals k = false
  | [], _, _ => rfl
  | v :: rest, h, k => by
      rw [concatBit, concatBit_eq_false fun u hu => h u (List.mem_cons_of_mem _ hu),
        h v (List.mem_cons_self ..)]
      simp

/-- Operands that are zero are read back from any part of their concatenation. -/
theorem operandsRead_of_eq_zero (n : ℕ) (hm : ∀ v ∈ vals, v.Masked ∧ 0 < v.width)
    (hsum : (vals.map SimValue.width).sum ≤ 256) (hzero : ∀ v ∈ vals, v = simValZero v.width) :
    OperandsRead (simValConcat (vals.take n)) vals := by
  refine operandsRead_of_bits hm fun k hk => ?_
  have hplane : ∀ plane : SimValue → SimWords, (∀ w, plane (simValZero w) = .zero) →
      concatBit plane (vals.take n) k = concatBit plane vals k := by
    intro plane hp
    have hvals : ∀ v ∈ vals, plane v = .zero := fun v hv => by rw [hzero v hv, hp]
    rw [concatBit_eq_false hvals, concatBit_eq_false fun v hv => hvals v (List.mem_of_mem_take hv)]
  obtain ⟨h1, h2, h3⟩ := simValConcat_bit (vals.take n) (k := k) (by omega)
  exact ⟨h1.trans (hplane _ fun _ => rfl), h2.trans (hplane _ fun _ => rfl),
    h3.trans (hplane _ fun _ => rfl)⟩

end

/-- The two slices at a cut, put together, are the value. -/
theorem simValConcat_cut {v : SimValue} (hv : v.Masked) (hw : v.width ≤ 256) {k : ℕ} (hk : 0 < k)
    (hkw : k < v.width) :
    simValConcat [simValSlice v (v.width - 1) k, simValSlice v (k - 1) 0] = v := by
  have hhi : (simValSlice v (v.width - 1) k).width = v.width - k := by
    rw [width_simValSlice v (by omega)]
    omega
  have hlo : (simValSlice v (k - 1) 0).width = k := by
    rw [width_simValSlice v (by omega)]
    omega
  have hsum : ([simValSlice v (v.width - 1) k, simValSlice v (k - 1) 0].map SimValue.width).sum =
      v.width := by
    simp only [List.map_cons, List.map_nil, List.sum_cons, List.sum_nil, hhi, hlo]
    omega
  have hwidth := width_simValConcat (hsum.trans_le hw)
  rw [hsum] at hwidth
  refine (masked_simValConcat _).ext hv hwidth fun j hj => ?_
  rw [hwidth] at hj
  obtain ⟨h1, h2, h3⟩ := simValConcat_bit [simValSlice v (v.width - 1) k, simValSlice v (k - 1) 0]
    (k := j) (by omega)
  rw [h1, h2, h3]
  simp only [concatBit, List.map_cons, List.map_nil, List.sum_cons, List.sum_nil, hhi, hlo,
    Nat.add_zero, Nat.not_lt_zero, if_false, Nat.zero_add, Nat.sub_zero]
  by_cases hlt : j < k
  · obtain ⟨h4, h5, h6⟩ := bit_sliceWords_part v (k - 1) 0 j (by omega)
    rw [Nat.zero_add] at h4 h5 h6
    simp [hlt, h4, h5, h6]
  · obtain ⟨h4, h5, h6⟩ := bit_sliceWords_part v (v.width - 1) k (j - k) (by omega)
    rw [show k + (j - k) = j by omega] at h4 h5 h6
    have hin : j < k + (v.width - k) := by omega
    simp [hlt, hin, h4, h5, h6]

theorem length_simEvalExprs (m : IRModule) (s : CtxState) (operands : List IRExpr) :
    (simEvalExprs m s operands).length = operands.length := by
  induction operands with
  | nil => rfl
  | cons e rest ih => rw [simEvalExprs, List.length_cons, List.length_cons, ih]

/-- The operands of an evaluated concatenation are read back by slices just when the evaluator's
64 places hold them all or none has a bit to lose. -/
theorem concat_slice_iff (m : IRModule) (s : CtxState) {operands : List IRExpr}
    (hm : ∀ v ∈ simEvalExprs m s operands, v.Masked ∧ 0 < v.width)
    (hsum : ((simEvalExprs m s operands).map SimValue.width).sum ≤ 256) :
    (OperandsRead (simEvalExpr m s (.concat operands)) (simEvalExprs m s operands) ∧
      ∀ v : SimValue, v.Masked → v.width ≤ 256 → ∀ k, 0 < k → k < v.width →
        simValConcat [simValSlice v (v.width - 1) k, simValSlice v (k - 1) 0] = v) ↔
      operands.length ≤ 64 ∨ ∀ v ∈ simEvalExprs m s operands, v = simValZero v.width := by
  rw [and_iff_left fun v hv hw k hk hkw => simValConcat_cut hv hw hk hkw, simEvalExpr]
  constructor
  · intro h
    refine or_iff_not_imp_left.mpr fun hlen => eq_zero_of_operandsRead_take hm hsum ?_ h
    rw [length_simEvalExprs]
    omega
  · rintro (hlen | hzero)
    · rw [List.take_of_length_le (by rwa [length_simEvalExprs])]
      exact operandsRead_concat hm hsum
    · exact operandsRead_of_eq_zero 64 hm hsum hzero

namespace ConcatSliceExample

def design : IRModule := ⟨[], [], [], .null⟩

def state : CtxState := ⟨fun _ => ⟨simValZero 1, simValZero 1, false⟩, fun _ _ => simValZero 1,
  false, false, fun _ => false⟩

def one : IRExpr := .literal ⟨Words.set .zero 0 1, 1, false⟩ 1

def unknown : IRExpr := .literal ⟨.zero, 3, true⟩ 3

end ConcatSliceExample

open ConcatSliceExample in
/-- A one-bit operand beside three `z` bits. -/
theorem concat_slice_iff_pair :
    OperandsRead (simEvalExpr design state (.concat [one, unknown]))
      (simEvalExprs design state [one, unknown]) := by
  refine ((@concat_slice_iff design state [one, unknown] ?_ ?_).mpr
    (.inl (by decide))).1
  · simp only [simEvalExprs, List.forall_mem_cons, List.not_mem_nil, false_imp_iff, implies_true,
      and_true]
    decide +kernel
  · decide +kernel

open ConcatSliceExample in
/-- Of 65 one-bit operands the last is dropped, and the first is no longer found. -/
theorem concat_lost : (∀ v ∈ simEvalExprs design state (List.replicate 65 one),
      v.Masked ∧ v.width = 1) ∧
    ¬ OperandsRead (simEvalExpr design state (.concat (List.replicate 65 one)))
      (simEvalExprs design state (List.replicate 65 one)) := by
  have hval : ∀ n, simEvalExprs design state (List.replicate n one) =
      List.replicate n (simEvalExpr design state one) := by
    intro n
    induction n with
    | zero => rfl
    | succ n ih => rw [List.replicate_succ, simEvalExprs, ih, List.replicate_succ]
  have hone : simEvalExpr design state one = ⟨Words.set .zero 0 1, .zero, .zero, 1⟩ := by
    decide +kernel
  rw [simEvalExpr, hval, hone]
  refine ⟨fun v hv => ?_, fun h => ?_⟩
  · rw [List.eq_of_mem_replicate hv]
    decide +kernel
  · have hfirst := h 0 ⟨Words.set .zero 0 1, .zero, .zero, 1⟩ rfl
    revert hfirst
    decide +kernel

end JzHdl

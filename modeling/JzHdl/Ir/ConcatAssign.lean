import JzHdl.Sim.Bits
import JzHdl.Sim.Deps

/-! # Assignments to concatenated targets

The builder turns an assignment to a concatenation into one assignment per
element, each with a shifted and masked copy of the right-hand side. The last
part compares the executed block with slicing the extended right-hand side.
-/

namespace JzHdl

open BitWords

/-- A target element whose symbol is resolved, with its evaluated width. -/
structure ConcatElem where

  signalId : ℕ

  width : ℕ
  deriving DecidableEq

def irMapAssignmentKind : String → Option IRAssignmentKind
  | "ALIAS" => some .alias
  | "ALIAS_Z" => some .aliasZext
  | "ALIAS_S" => some .aliasSext
  | "DRIVE" => some .drive
  | "DRIVE_Z" => some .driveZext
  | "DRIVE_S" => some .driveSext
  | "RECEIVE" => some .receive
  | "RECEIVE_Z" => some .receiveZext
  | "RECEIVE_S" => some .receiveSext
  | "RECEIVE_LATCH" => some .receive
  | _ => none

/-- Resolve every element. `scope` answers with the symbol's identifier and width. -/
def irResolveElems (scope : String → Option ConcatElem) : List String → Option (List ConcatElem)
  | [] => some []
  | name :: rest =>
    match scope name with
    | none => none
    | some e =>
      if e.width = 0 then none else (irResolveElems scope rest).map fun es => e :: es

def totalWidth (elems : List ConcatElem) : ℕ := (elems.map ConcatElem.width).sum

/-- Each element with the position of its lowest bit, counting down from `bitOffset`. -/
def concatFields : List ConcatElem → ℕ → List (ConcatElem × ℕ)
  | [], _ => []
  | e :: rest, bitOffset => (e, bitOffset - e.width) :: concatFields rest (bitOffset - e.width)

section

/- A 64-bit shift by 64 or more has no defined result in C; `oversizeShift` is the
value the compiled program gets. -/
variable (oversizeShift : ℕ → Word)

def fieldMask (ew : ℕ) : Word := (if ew < 64 then (1 : Word) <<< ew else oversizeShift ew) - 1

def wordLiteral (word : Word) (width : ℕ) : IRExpr :=
  .literal ⟨Words.set .zero 0 word, width, false⟩ width

/-- The right-hand side of one element: shift, then mask. -/
def concatFieldRhs (rhs : IRExpr) (total ew elemLsb : ℕ) : IRExpr :=
  if rhs.isNull then .null
  else if ew = total then rhs
  else
    let mask := wordLiteral (fieldMask oversizeShift ew) ew
    if 0 < elemLsb then
      let shiftAmt := wordLiteral (BitVec.ofNat 64 elemLsb) 32
      .binary .and (.binary .shr rhs shiftAmt total) mask ew
    else .binary .and rhs mask ew

def concatFieldAssign (kind : IRAssignmentKind) (rhs : IRExpr) (total : ℕ)
    (f : ConcatElem × ℕ) : IRAssignment :=
  { lhsSignalId := f.1.signalId
    rhs := concatFieldRhs oversizeShift rhs total f.1.width f.2
    kind
    isSliced := false
    lhsMsb := 0
    lhsLsb := 0 }

/-- `ir_build_assignment_stmt` on a concatenated target. -/
def irBuildConcatAssignment (scope : String → Option ConcatElem) (names : List String)
    (blockKind : Option String) (rhs : IRExpr) : Option IRStmt :=
  match blockKind.elim (some .alias) irMapAssignmentKind with
  | none => none
  | some kind =>
    match irResolveElems scope names with
    | none => none
    | some elems =>
      if elems.isEmpty then none
      else some (.block ((concatFields elems (totalWidth elems)).map fun f =>
        .assignment (concatFieldAssign oversizeShift kind rhs (totalWidth elems) f)))

end

/-! ## Bit fields of the target -/

/-- The bit fields of a concatenation, the last element at bit 0. -/
def targetFields : List ConcatElem → List (ConcatElem × ℕ)
  | [] => []
  | e :: rest => (e, totalWidth rest) :: targetFields rest

@[simp] theorem totalWidth_nil : totalWidth [] = 0 := rfl

@[simp] theorem totalWidth_cons (e : ConcatElem) (rest : List ConcatElem) :
    totalWidth (e :: rest) = e.width + totalWidth rest := by simp [totalWidth]

theorem concatFields_eq (elems : List ConcatElem) :
    concatFields elems (totalWidth elems) = targetFields elems := by
  induction elems with
  | nil => rfl
  | cons e rest ih =>
    rw [concatFields, targetFields, totalWidth_cons, show e.width + totalWidth rest - e.width =
      totalWidth rest by omega, ih]

theorem mem_of_mem_targetFields {elems : List ConcatElem} {f : ConcatElem × ℕ}
    (h : f ∈ targetFields elems) : f.1 ∈ elems ∧ f.2 + f.1.width ≤ totalWidth elems := by
  induction elems with
  | nil => cases h
  | cons e rest ih =>
    rw [targetFields, List.mem_cons] at h
    rw [totalWidth_cons]
    rcases h with rfl | h
    · exact ⟨List.mem_cons_self, by simp only; omega⟩
    · obtain ⟨h1, h2⟩ := ih h
      exact ⟨List.mem_cons_of_mem _ h1, by omega⟩

/-- Every bit position of the target lies in some field. -/
theorem exists_field {elems : List ConcatElem} {k : ℕ} (hk : k < totalWidth elems) :
    ∃ f ∈ targetFields elems, ∃ j < f.1.width, k = f.2 + j := by
  induction elems with
  | nil => simp at hk
  | cons e rest ih =>
    rw [totalWidth_cons] at hk
    by_cases hr : k < totalWidth rest
    · obtain ⟨f, hf, h⟩ := ih hr
      exact ⟨f, List.mem_cons_of_mem _ hf, h⟩
    · exact ⟨_, List.mem_cons_self, k - totalWidth rest, by simp only; omega, by simp only; omega⟩

/-- With positive widths only a single element spans the whole target. -/
theorem width_eq_total_iff {elems : List ConcatElem} (hpos : ∀ e ∈ elems, 0 < e.width)
    {f : ConcatElem × ℕ} (hf : f ∈ targetFields elems) :
    f.1.width = totalWidth elems ↔ elems.length = 1 := by
  cases elems with
  | nil => cases hf
  | cons e rest =>
    cases rest with
    | nil =>
      simp only [targetFields, List.mem_singleton] at hf
      subst hf
      simp
    | cons e' rest =>
      have h0 := hpos e List.mem_cons_self
      have h1 := hpos e' (List.mem_cons_of_mem _ List.mem_cons_self)
      simp only [targetFields, List.mem_cons] at hf
      simp only [totalWidth_cons, List.length_cons]
      rcases hf with rfl | rfl | hf
      · simp only; omega
      · simp only; omega
      · have := (mem_of_mem_targetFields hf).2
        omega

theorem irResolveElems_pos {scope : String → Option ConcatElem} :
    ∀ {names : List String} {elems : List ConcatElem}, irResolveElems scope names = some elems →
      ∀ e ∈ elems, 0 < e.width
  | [], _, h, e, he => by cases h; cases he
  | name :: rest, elems, h, e, he => by
      rw [irResolveElems] at h
      cases hs : scope name with
      | none => simp [hs] at h
      | some e' =>
        simp only [hs] at h
        split at h
        · cases h
        · rename_i hw
          rw [Option.map_eq_some_iff] at h
          obtain ⟨es, hes, rfl⟩ := h
          rcases List.mem_cons.mp he with rfl | he
          · omega
          · exact irResolveElems_pos hes e he

/-! ## Executing the block -/

section

variable {m : IRModule}

theorem applyAssign_nba_sameData (s : CtxState) (a : IRAssignment) :
    SameData (applyAssign m true s a) s := by
  rw [applyAssign]
  cases hi : m.sigIndex a.lhsSignalId with
  | none => exact ⟨fun _ => rfl, rfl⟩
  | some i =>
    refine ⟨fun j => ?_, rfl⟩
    simp only [if_true, CtxState.setEntry, CtxState.raiseError]
    split
    · rename_i h; rw [h]; rfl
    · rfl

theorem applyAssign_nba_other (s : CtxState) (a : IRAssignment) {j : ℕ}
    (hj : m.sigIndex a.lhsSignalId ≠ some j) :
    (applyAssign m true s a).signals j = s.signals j := by
  rw [applyAssign]
  cases hi : m.sigIndex a.lhsSignalId with
  | none => rfl
  | some i =>
    have : j ≠ i := fun h => hj (by rw [hi, h])
    simp [CtxState.setEntry, CtxState.raiseError, this]

theorem applyAssign_nba_self (s : CtxState) (a : IRAssignment) {i : ℕ}
    (hi : m.sigIndex a.lhsSignalId = some i) :
    (applyAssign m true s a).signals i = stageWrite a (s.signals i)
      (extendRhs a.kind (simEvalExpr m s a.rhs) (s.signals i).current.width) := by
  simp [applyAssign, hi, CtxState.setEntry]

/-- Staged assignments to distinct signals all read the state before the block. -/
theorem execStmts_nba {as : List IRAssignment} (hnd : (as.map IRAssignment.lhsSignalId).Nodup)
    (s : CtxState) {a : IRAssignment} (ha : a ∈ as) {i : ℕ}
    (hi : m.sigIndex a.lhsSignalId = some i) :
    (execStmts m true (as.map .assignment) s).signals i = stageWrite a (s.signals i)
      (extendRhs a.kind (simEvalExpr m s a.rhs) (s.signals i).current.width) := by
  have frame : ∀ (bs : List IRAssignment) (t : CtxState),
      a.lhsSignalId ∉ bs.map IRAssignment.lhsSignalId →
      (execStmts m true (bs.map .assignment) t).signals i = t.signals i := by
    intro bs
    induction bs with
    | nil => intro t _; rfl
    | cons b rest ih =>
      intro t hb
      rw [List.map_cons, List.mem_cons, not_or] at hb
      rw [List.map_cons, execStmts, ih _ hb.2, simExecStmt]
      exact applyAssign_nba_other t b fun h => hb.1 (IRModule.sigIndex_inj hi h)
  induction as generalizing s with
  | nil => cases ha
  | cons b rest ih =>
    rw [List.map_cons, List.nodup_cons] at hnd
    rw [List.map_cons, execStmts, simExecStmt]
    rcases List.mem_cons.mp ha with rfl | ha
    · rw [frame rest _ hnd.1, applyAssign_nba_self s a hi]
    · have hne : m.sigIndex b.lhsSignalId ≠ some i := fun h =>
        hnd.1 (IRModule.sigIndex_inj hi h ▸ List.mem_map_of_mem ha)
      rw [ih hnd.2 _ ha, applyAssign_nba_other s b hne, (applyAssign_nba_sameData s b).eval]

/-- The value a staged unsliced assignment leaves in its target after the commit. -/
theorem commit_execStmts_nba {as : List IRAssignment}
    (hnd : (as.map IRAssignment.lhsSignalId).Nodup) (s : CtxState) {a : IRAssignment}
    (ha : a ∈ as) (hsl : a.isSliced = false) {i : ℕ} (hi : m.sigIndex a.lhsSignalId = some i) :
    ((simCtxApplyNba m (execStmts m true (as.map .assignment) s)).signals i).current =
      extendRhs a.kind (simEvalExpr m s a.rhs) (s.signals i).current.width := by
  rw [simCtxApplyNba_signals, if_pos (IRModule.sigIndex_lt hi), execStmts_nba hnd s ha hi]
  simp [SimSignalEntry.commit, stageWrite, hsl]

end

/-! ## The value of one field -/

/-- Bitwise operators turn `z` operands into `x`. -/
def Bit4.toX : Bit4 → Bit4
  | .z => .x
  | b => b

theorem toX_eq_iff {b : Bit4} : b.toX = b ↔ b ≠ .z := by cases b <;> simp [Bit4.toX]

theorem bit_wordLiteral (word : Word) {w k : ℕ} (m : IRModule) (s : CtxState) (hw : 0 < w) :
    let v := simEvalExpr m s (wordLiteral word w)
    v.width = w ∧ v.val.bit k = (decide (k < w) && word.getLsbD k) ∧
      v.xmask.bit k = false ∧ v.zmask.bit k = false := by
  have hv : simEvalExpr m s (wordLiteral word w) = simValFromWords (Words.set .zero 0 word) w := by
    have : ¬ w = 0 := by omega
    simp [wordLiteral, simEvalExpr, evalLiteral, simValFromWords, simValMask, this]
  have hbit : (Words.set (.zero : SimWords) 0 word).bit k = word.getLsbD k := by
    rw [Words.bit, Words.get_set]
    by_cases h : k < 64
    · have h0 : k / 64 = 0 := by omega
      have h1 : k % 64 = k := by omega
      simp [h0, h1]
    · have h0 : k / 64 ≠ 0 := by omega
      have hge : word.getLsbD k = false := BitVec.getLsbD_of_ge _ _ (by omega)
      simp [h0, hge]
  simp only [hv]
  refine ⟨rfl, ?_, ?_, ?_⟩
  · rw [simValFromWords, simValMask, bit_maskWords, hbit]
  · rw [simValFromWords, simValMask, bit_maskWords]; simp
  · rw [simValFromWords, simValMask, bit_maskWords]; simp

theorem hasXz_wordLiteral (word : Word) {w : ℕ} (m : IRModule) (s : CtxState) (hw : 0 < w) :
    simValHasXz (simEvalExpr m s (wordLiteral word w)) = false := by
  rw [← Bool.not_eq_true, simValHasXz_iff]
  rintro ⟨k, _, h⟩
  obtain ⟨_, _, hx, hz⟩ := bit_wordLiteral word m s (k := k) hw
  simp [hx, hz] at h

theorem smallUint_shiftAmt {lsb : ℕ} (m : IRModule) (s : CtxState) (h : lsb < 256) :
    simValToSmallUint (simEvalExpr m s (wordLiteral (BitVec.ofNat 64 lsb) 32)) =
      some (BitVec.ofNat 64 lsb) := by
  set v := simEvalExpr m s (wordLiteral (BitVec.ofNat 64 lsb) 32) with hv
  have hxz : simValHasXz v = false := hasXz_wordLiteral _ m s (by decide)
  have hwid : v.width = 32 := (bit_wordLiteral (k := 0) _ m s (by decide)).1
  have hget : v.val.get 0 = BitVec.ofNat 64 lsb := by
    apply BitVec.eq_of_getLsbD_eq
    intro j hj
    rw [Words.getLsbD_get _ _ hj, Nat.mul_zero, Nat.zero_add,
      (bit_wordLiteral (k := j) _ m s (by decide)).2.1, BitVec.getLsbD_ofNat]
    by_cases hj32 : j < 32
    · simp [hj32]
    · have : lsb.testBit j = false :=
        Nat.testBit_lt_two_pow (lt_of_lt_of_le h (le_trans (by decide : 256 ≤ 2 ^ 32)
          (Nat.pow_le_pow_right (by decide) (by omega))))
      simp [this]
  rw [simValToSmallUint, hxz, hwid, hget]
  rfl

theorem bit4_and_literal (a : SimValue) (word : Word) {w k : ℕ} (m : IRModule) (s : CtxState)
    (hw : k < w) (h256 : k < 256) :
    (simValAnd a (simEvalExpr m s (wordLiteral word w))).bit4 k =
      if word.getLsbD k then (a.bit4 k).toX else .zero := by
  obtain ⟨hwid, hval, hx, hz⟩ := bit_wordLiteral word m s (w := w) (k := k) (by omega)
  have hk : k < max a.width (simEvalExpr m s (wordLiteral word w)).width := by
    rw [hwid]; omega
  obtain ⟨h1, h2, h3⟩ := simValAnd_bit a _ hk h256
  rw [SimValue.bit4, h1, h2, h3, hval, hx, hz, SimValue.bit4]
  simp only [hw, decide_true, Bool.true_and]
  cases word.getLsbD k <;> cases a.val.bit k <;> cases a.xmask.bit k <;> cases a.zmask.bit k <;> rfl

/-- The shifted right-hand side. An unknown bit anywhere makes every bit of it unknown. -/
theorem bit4_shifted {m : IRModule} {s : CtxState} {rhs : IRExpr} {total lsb k : ℕ}
    (hv : (simEvalExpr m s rhs).width ≤ total) (htot : total ≤ 256) (hlsb : lsb < 256)
    (hm : (simEvalExpr m s rhs).Masked) (hk : k < total) :
    (simEvalExpr m s (.binary .shr rhs (wordLiteral (BitVec.ofNat 64 lsb) 32) total)).bit4 k =
      if simValHasXz (simEvalExpr m s rhs) then
        if k < (simEvalExpr m s rhs).width then .x else .zero
      else (simEvalExpr m s rhs).bit4 (k + lsb) := by
  have hpos : widthOr total (simEvalExpr m s rhs).width = total := if_pos (by omega)
  rw [simEvalExpr, evalBinary, fitWidth, width_simValShr, hpos]
  set v := simEvalExpr m s rhs with hvdef
  have hbit : ∀ r : SimValue, (simValMask { r with width := total }).bit4 k = r.bit4 k := by
    intro r
    simp only [SimValue.bit4, simValMask, bit_maskWords, hk, decide_true, Bool.true_and]
  rw [hbit]
  by_cases hxz : simValHasXz v = true
  · rw [simValShr_unknown hxz, if_pos hxz, SimValue.bit4]
    simp only [simValAllX, bit_widthOnes (show k < 256 by omega), Words.bit_zero]
    split <;> rename_i h <;> simp at h <;> simp [h]
  · rw [if_neg hxz]
    rw [Bool.not_eq_true] at hxz
    obtain ⟨h1, h2, h3⟩ := simValShr_known hxz (hasXz_wordLiteral _ m s (by decide))
      (smallUint_shiftAmt m s hlsb) (by omega) k
    rw [show (BitVec.ofNat 64 lsb).toNat = lsb by rw [BitVec.toNat_ofNat]; omega] at h1
    rw [SimValue.bit4, h1, h2, h3]
    by_cases hlt : k + lsb < v.width
    · obtain ⟨hx, hz⟩ := simValHasXz_eq_false hxz hlt
      simp [SimValue.bit4, hx, hz, hlt]
    · rw [hm.bit4 (by omega)]
      simp [hlt]

theorem bit4_ne_z_of_known {v : SimValue} (hm : v.Masked) (hxz : simValHasXz v = false) (k : ℕ) :
    v.bit4 k ≠ .z ∧ v.bit4 k ≠ .x := by
  by_cases hk : k < v.width
  · obtain ⟨hx, hz⟩ := simValHasXz_eq_false hxz hk
    rw [SimValue.bit4, hx, hz]
    cases v.val.bit k <;> simp
  · rw [hm.bit4 (by omega)]; simp

section

variable (oversizeShift : ℕ → Word)

/-- What the shift and the mask leave at position `j` of a field with lowest bit `lsb`. -/
def loweredBit (v : SimValue) (ew lsb j : ℕ) : Bit4 :=
  if (fieldMask oversizeShift ew).getLsbD j then
    if lsb = 0 then (v.bit4 j).toX
    else if simValHasXz v then (if j < v.width then .x else .zero)
    else v.bit4 (lsb + j)
  else .zero

theorem eval_fieldRhs {m : IRModule} {s : CtxState} {rhs : IRExpr} {total ew lsb : ℕ}
    (hnull : rhs.isNull = false) (hm : (simEvalExpr m s rhs).Masked)
    (hv : (simEvalExpr m s rhs).width ≤ total) (htot : total ≤ 256) (hne : ew ≠ total)
    (hpos : 0 < ew) (hle : lsb + ew ≤ total) {j : ℕ} (hj : j < ew) :
    (simEvalExpr m s (concatFieldRhs oversizeShift rhs total ew lsb)).width = ew ∧
      (simEvalExpr m s (concatFieldRhs oversizeShift rhs total ew lsb)).bit4 j =
        loweredBit oversizeShift (simEvalExpr m s rhs) ew lsb j := by
  have hset : ∀ r : SimValue, (setWidth ew r).width = ew ∧ (setWidth ew r).bit4 j = r.bit4 j :=
    fun r => ⟨if_pos hpos, rfl⟩
  have hand : ∀ l r, simEvalExpr m s (.binary .and l r ew) =
      setWidth ew (simValAnd (simEvalExpr m s l) (simEvalExpr m s r)) := fun _ _ => rfl
  rw [concatFieldRhs, if_neg (by simp [hnull]), if_neg hne, loweredBit]
  by_cases h0 : 0 < lsb
  · simp only [if_pos h0, hand]
    refine ⟨(hset _).1, (hset _).2.trans ?_⟩
    rw [bit4_and_literal _ _ m s hj (by omega), bit4_shifted hv htot (by omega) hm (by omega),
      if_neg (show lsb ≠ 0 by omega), Nat.add_comm j lsb]
    congr 1
    by_cases hxz : simValHasXz (simEvalExpr m s rhs) = true
    · rw [if_pos hxz]; split <;> rfl
    · rw [if_neg hxz, toX_eq_iff]
      exact (bit4_ne_z_of_known hm (by simpa using hxz) (lsb + j)).1
  · simp only [if_neg h0, hand]
    refine ⟨(hset _).1, (hset _).2.trans ?_⟩
    rw [bit4_and_literal _ _ m s hj (by omega), if_pos (show lsb = 0 by omega)]

end

/-- The bits of a value extended as the operator asks. -/
def extendBit4 (sext : Bool) (v : SimValue) (k : ℕ) : Bit4 :=
  if k < v.width then v.bit4 k else if sext then v.bit4 (v.width - 1) else .zero

/-- Every element holds its bit field of the extended right-hand side. -/
def HoldsFields (m : IRModule) (s : CtxState) (elems : List ConcatElem) (sext : Bool)
    (v : SimValue) : Prop :=
  ∀ f ∈ targetFields elems, ∀ i, m.sigIndex f.1.signalId = some i →
    (s.signals i).current.width = f.1.width ∧
      ∀ j < f.1.width, (s.signals i).current.bit4 j = extendBit4 sext v (f.2 + j)

section

variable (oversizeShift : ℕ → Word) (elems : List ConcatElem) (sext : Bool) (v : SimValue)

/-- A fully known right-hand side survives the lowering when no field loses a bit that its
64-bit mask drops and no sign bit has to be copied. -/
structure KnownRhsOk : Prop where

  dropped : ∀ f ∈ targetFields elems, ∀ j < f.1.width,
    (fieldMask oversizeShift f.1.width).getLsbD j = false → extendBit4 sext v (f.2 + j) = .zero

  sign : sext = true → v.width < totalWidth elems → v.bit4 (v.width - 1) = .zero

/-- With an unknown bit anywhere, the shifted fields come out as all `x` over the width of the
right-hand side. The last element is only masked. -/
structure UnknownRhsOk : Prop where

  last : ∀ f ∈ targetFields elems, f.2 = 0 → ∀ j < f.1.width,
    if (fieldMask oversizeShift f.1.width).getLsbD j ∧ j < v.width then v.bit4 j ≠ .z
    else extendBit4 sext v j = .zero

  above : ∀ f ∈ targetFields elems, 0 < f.2 → ∀ j < f.1.width,
    extendBit4 sext v (f.2 + j) =
      if (fieldMask oversizeShift f.1.width).getLsbD j ∧ j < v.width then .x else .zero

/-- The right-hand sides that the lowering of a concatenated target keeps intact. -/
def ConcatRhsOk : Prop :=
  if elems.length = 1 then sext = true → v.width < totalWidth elems → v.bit4 (v.width - 1) ≠ .z
  else if simValHasXz v then UnknownRhsOk oversizeShift elems sext v
  else KnownRhsOk oversizeShift elems sext v

variable {oversizeShift elems sext v}

theorem knownRhsOk_iff (hm : v.Masked) (hxz : simValHasXz v = false) :
    KnownRhsOk oversizeShift elems sext v ↔ ∀ f ∈ targetFields elems, ∀ j < f.1.width,
      loweredBit oversizeShift v f.1.width f.2 j = extendBit4 sext v (f.2 + j) := by
  have hlow : ∀ ew lsb j, (fieldMask oversizeShift ew).getLsbD j = true →
      loweredBit oversizeShift v ew lsb j = v.bit4 (lsb + j) := by
    intro ew lsb j hk
    rw [loweredBit, if_pos hk]
    split
    · rename_i h0
      rw [h0, Nat.zero_add]
      exact toX_eq_iff.mpr (bit4_ne_z_of_known hm hxz j).1
    · simp [hxz]
  constructor
  · rintro ⟨hdrop, hsign⟩ f hf j hj
    have hle := (mem_of_mem_targetFields hf).2
    by_cases hk : (fieldMask oversizeShift f.1.width).getLsbD j = true
    · rw [hlow _ _ _ hk, extendBit4]
      by_cases hlt : f.2 + j < v.width
      · rw [if_pos hlt]
      · rw [if_neg hlt, hm.bit4 (by omega)]
        cases hs : sext
        · rfl
        · exact (hsign hs (by omega)).symm
    · rw [Bool.not_eq_true] at hk
      rw [hdrop f hf j hj hk, loweredBit]
      simp [hk]
  · intro h
    refine ⟨fun f hf j hj hk => ?_, fun hs hlt => ?_⟩
    · rw [← h f hf j hj, loweredBit]; simp [hk]
    · obtain ⟨f, hf, j, hj, hkj⟩ := exists_field hlt
      have := h f hf j hj
      rw [← hkj, extendBit4, if_neg (lt_irrefl _), if_pos hs] at this
      rw [← this]
      by_cases hk : (fieldMask oversizeShift f.1.width).getLsbD j = true
      · rw [hlow _ _ _ hk, ← hkj, hm.bit4 le_rfl]
      · rw [loweredBit, if_neg hk]

theorem unknownRhsOk_iff (hm : v.Masked) (hxz : simValHasXz v = true) :
    UnknownRhsOk oversizeShift elems sext v ↔ ∀ f ∈ targetFields elems, ∀ j < f.1.width,
      loweredBit oversizeShift v f.1.width f.2 j = extendBit4 sext v (f.2 + j) := by
  have hlast : ∀ f : ConcatElem × ℕ, ∀ j, f.2 = 0 →
      ((if (fieldMask oversizeShift f.1.width).getLsbD j ∧ j < v.width then v.bit4 j ≠ .z
        else extendBit4 sext v j = .zero) ↔
      loweredBit oversizeShift v f.1.width f.2 j = extendBit4 sext v (f.2 + j)) := by
    intro f j h0
    rw [loweredBit, h0, Nat.zero_add, if_pos rfl]
    by_cases hk : (fieldMask oversizeShift f.1.width).getLsbD j = true
    · by_cases hlt : j < v.width
      · rw [if_pos ⟨hk, hlt⟩, if_pos hk, extendBit4, if_pos hlt, toX_eq_iff]
      · rw [if_neg (fun h => hlt h.2), if_pos hk, hm.bit4 (by omega)]
        exact eq_comm
    · rw [if_neg (fun h => hk h.1), if_neg hk]
      exact eq_comm
  have habove : ∀ f : ConcatElem × ℕ, ∀ j, 0 < f.2 →
      (if (fieldMask oversizeShift f.1.width).getLsbD j ∧ j < v.width then Bit4.x else .zero) =
        loweredBit oversizeShift v f.1.width f.2 j := by
    intro f j h0
    rw [loweredBit, if_neg (show f.2 ≠ 0 by omega), if_pos hxz]
    by_cases hk : (fieldMask oversizeShift f.1.width).getLsbD j = true <;> simp [hk]
  constructor
  · rintro ⟨h1, h2⟩ f hf j hj
    rcases Nat.eq_zero_or_pos f.2 with h0 | h0
    · exact (hlast f j h0).mp (h1 f hf h0 j hj)
    · rw [h2 f hf h0 j hj, habove f j h0]
  · intro h
    refine ⟨fun f hf h0 j hj => (hlast f j h0).mpr (h f hf j hj), fun f hf h0 j hj => ?_⟩
    rw [habove f j h0, h f hf j hj]

end

/-! ## The lowering is exact on the right-hand sides above -/

theorem extendRhs_of_width_eq (kind : IRAssignmentKind) {v : SimValue} {w : ℕ} (h : v.width = w) :
    extendRhs kind v w = v := by
  rw [extendRhs, simValZext, simValSext, if_pos (le_of_eq h.symm), if_pos (le_of_eq h.symm),
    if_pos h]
  split
  · rfl
  · split <;> rfl

/-- The operators that accept a narrower right-hand side accept one of any smaller width. -/
def WidthFits (kind : IRAssignmentKind) (v : SimValue) (w : ℕ) : Prop :=
  if kind.isZext || kind.isSext then v.width ≤ w else v.width = w

theorem extendRhs_bits {kind : IRAssignmentKind} {v : SimValue} {w : ℕ} (hm : v.Masked)
    (hfit : WidthFits kind v w) (hw : w ≤ 256) :
    ((extendRhs kind v w).width = w ∧
      ∀ j < w, (extendRhs kind v w).bit4 j = extendBit4 kind.isSext v j) ↔
      (kind.isSext = true → v.width < w → v.bit4 (v.width - 1) ≠ .z) := by
  rw [WidthFits] at hfit
  by_cases hlt : v.width < w
  · cases hs : kind.isSext with
    | false =>
      have hz : kind.isZext = true := by
        by_contra hz
        simp [hz, hs] at hfit
        omega
      simp only [extendRhs, hz, if_true, simValZext, if_neg (show ¬ w ≤ v.width by omega),
        true_and, Bool.false_eq_true, false_imp_iff, iff_true]
      intro j _
      change v.bit4 j = _
      rw [extendBit4]
      split
      · rfl
      · exact hm.bit4 (by omega)
    | true =>
      have hz : kind.isZext = false := by cases kind <;> simp_all [IRAssignmentKind.isZext,
        IRAssignmentKind.isSext]
      have hwid : (simValSext v w).width = w := by rw [simValSext, if_neg (by omega)]
      simp only [extendRhs, hz, hs, if_true, Bool.false_eq_true, if_false, hwid, true_and, hlt,
        forall_true_left]
      -- the copied bit is the sign bit unless that is `z`
      have hcopy : (if v.xmask.bit (v.width - 1) then Bit4.x
          else if v.val.bit (v.width - 1) then .one else .zero) = v.bit4 (v.width - 1) ↔
          v.bit4 (v.width - 1) ≠ .z := by
        rw [SimValue.bit4]
        cases v.xmask.bit (v.width - 1) <;> cases v.zmask.bit (v.width - 1) <;>
          cases v.val.bit (v.width - 1) <;> simp
      rw [← hcopy]
      constructor
      · intro h
        have := h v.width hlt
        rwa [bit4_simValSext hm hlt hw hlt, extendBit4, if_neg (lt_irrefl _),
          if_neg (lt_irrefl _), if_pos rfl] at this
      · intro h j hj
        rw [bit4_simValSext hm hlt hw hj, extendBit4, if_pos rfl, h]
  · have hwid : v.width = w := by
      split at hfit <;> omega
    rw [extendRhs_of_width_eq kind hwid]
    refine iff_of_true ⟨hwid, fun j hj => ?_⟩ fun _ h => absurd h hlt
    rw [extendBit4, if_pos (by omega)]

theorem map_targetFields (elems : List ConcatElem) :
    (targetFields elems).map Prod.fst = elems := by
  induction elems with
  | nil => rfl
  | cons e rest ih => rw [targetFields, List.map_cons, ih]

section

variable {m : IRModule} {s : CtxState} {elems : List ConcatElem} {rhs : IRExpr}

/-- The committed value of one element of the lowered block. -/
theorem current_of_concat (oversizeShift : ℕ → Word) (kind : IRAssignmentKind)
    (hnd : (elems.map ConcatElem.signalId).Nodup)
    (hdecl : ∀ e ∈ elems, ∀ i, m.sigIndex e.signalId = some i →
      (s.signals i).current.width = e.width)
    {f : ConcatElem × ℕ} (hf : f ∈ targetFields elems) {i : ℕ}
    (hi : m.sigIndex f.1.signalId = some i) :
    ((simCtxApplyNba m (simExecStmt m true (.block ((targetFields elems).map fun f =>
        .assignment (concatFieldAssign oversizeShift kind rhs (totalWidth elems) f))) s)).signals
          i).current =
      extendRhs kind (simEvalExpr m s
        (concatFieldRhs oversizeShift rhs (totalWidth elems) f.1.width f.2)) f.1.width := by
  have hnd' : (((targetFields elems).map
      (concatFieldAssign oversizeShift kind rhs (totalWidth elems))).map
        IRAssignment.lhsSignalId).Nodup := by
    rw [List.map_map]
    rw [← map_targetFields elems, List.map_map] at hnd
    exact hnd
  have := commit_execStmts_nba hnd' s (List.mem_map_of_mem hf) rfl hi
  rw [List.map_map] at this
  rw [simExecStmt]
  exact this.trans (by rw [hdecl f.1 (mem_of_mem_targetFields hf).1 i hi]; rfl)

/-- Executing the lowered assignment and committing gives each element its bit field of the
extended right-hand side exactly when the lowering keeps that right-hand side intact. -/
theorem concatAssign_holdsFields_iff (oversizeShift : ℕ → Word)
    {scope : String → Option ConcatElem} {names : List String} {op : String}
    {kind : IRAssignmentKind} (hop : irMapAssignmentKind op = some kind)
    (hres : irResolveElems scope names = some elems) (hne : elems ≠ [])
    (hnd : (elems.map ConcatElem.signalId).Nodup)
    (hdecl : ∀ e ∈ elems, ∃ i, m.sigIndex e.signalId = some i ∧
      (s.signals i).current.width = e.width)
    (hmax : totalWidth elems ≤ 256) (hnull : rhs.isNull = false)
    (hm : (simEvalExpr m s rhs).Masked)
    (hfit : WidthFits kind (simEvalExpr m s rhs) (totalWidth elems)) :
    ∃ stmt, irBuildConcatAssignment oversizeShift scope names (some op) rhs = some stmt ∧
      (HoldsFields m (simCtxApplyNba m (simExecStmt m true stmt s)) elems kind.isSext
          (simEvalExpr m s rhs) ↔
        ConcatRhsOk oversizeShift elems kind.isSext (simEvalExpr m s rhs)) := by
  have hpos := irResolveElems_pos hres
  have hdecl' : ∀ e ∈ elems, ∀ i, m.sigIndex e.signalId = some i →
      (s.signals i).current.width = e.width := by
    intro e he i hi
    obtain ⟨i', hi', hw⟩ := hdecl e he
    rw [hi] at hi'
    cases hi'
    exact hw
  have hle : (simEvalExpr m s rhs).width ≤ totalWidth elems := by
    rw [WidthFits] at hfit
    split at hfit <;> omega
  refine ⟨.block ((targetFields elems).map fun f =>
    .assignment (concatFieldAssign oversizeShift kind rhs (totalWidth elems) f)), ?_, ?_⟩
  · simp [irBuildConcatAssignment, hop, hres, hne, concatFields_eq]
  set v := simEvalExpr m s rhs with hv
  -- every element of the block holds what its own right-hand side evaluates to
  have hcur := fun f (hf : f ∈ targetFields elems) i hi =>
    @current_of_concat _ _ _ rhs oversizeShift kind hnd hdecl' _ hf i hi
  by_cases hone : elems.length = 1
  · rw [ConcatRhsOk, if_pos hone, ← extendRhs_bits hm hfit hmax]
    have hall : ∀ f ∈ targetFields elems, f.1.width = totalWidth elems ∧ f.2 = 0 := fun f hf => by
      have h1 := (width_eq_total_iff hpos hf).mpr hone
      have h2 := (mem_of_mem_targetFields hf).2
      exact ⟨h1, by omega⟩
    have hrhs : ∀ f ∈ targetFields elems,
        concatFieldRhs oversizeShift rhs (totalWidth elems) f.1.width f.2 = rhs := fun f hf => by
      rw [concatFieldRhs, if_neg (by simp [hnull]), if_pos (hall f hf).1]
    obtain ⟨e, rest, rfl⟩ := List.exists_cons_of_ne_nil hne
    obtain ⟨i, hi, _⟩ := hdecl e List.mem_cons_self
    have hmem : (e, totalWidth rest) ∈ targetFields (e :: rest) := List.mem_cons_self
    constructor
    · intro h
      have hw : e.width = totalWidth (e :: rest) := (hall _ hmem).1
      have hz : totalWidth rest = 0 := (hall _ hmem).2
      have := h _ hmem i hi
      rw [hcur _ hmem i hi, hrhs _ hmem, ← hv] at this
      simpa only [hw, hz, Nat.zero_add] using this
    · intro h f hf i hi
      rw [hcur f hf i hi, hrhs f hf]
      simpa only [(hall f hf).1, (hall f hf).2, Nat.zero_add] using h
  · have hfield : ∀ f ∈ targetFields elems, ∀ i, m.sigIndex f.1.signalId = some i →
        ∀ j < f.1.width, ((simCtxApplyNba m (simExecStmt m true (.block
          ((targetFields elems).map fun f => .assignment
            (concatFieldAssign oversizeShift kind rhs (totalWidth elems) f))) s)).signals
              i).current.width = f.1.width ∧
        ((simCtxApplyNba m (simExecStmt m true (.block
          ((targetFields elems).map fun f => .assignment
            (concatFieldAssign oversizeShift kind rhs (totalWidth elems) f))) s)).signals
              i).current.bit4 j = loweredBit oversizeShift v f.1.width f.2 j := by
      intro f hf i hi j hj
      have hmem := mem_of_mem_targetFields hf
      obtain ⟨hwid, hbit⟩ := eval_fieldRhs oversizeShift hnull hm hle hmax
        (fun h => hone ((width_eq_total_iff hpos hf).mp h)) (hpos _ hmem.1) hmem.2 hj
      rw [hcur f hf i hi, extendRhs_of_width_eq kind hwid]
      exact ⟨hwid, hbit⟩
    have hmid : HoldsFields m (simCtxApplyNba m (simExecStmt m true (.block
          ((targetFields elems).map fun f => .assignment
            (concatFieldAssign oversizeShift kind rhs (totalWidth elems) f))) s)) elems
              kind.isSext v ↔
        ∀ f ∈ targetFields elems, ∀ j < f.1.width,
          loweredBit oversizeShift v f.1.width f.2 j = extendBit4 kind.isSext v (f.2 + j) := by
      constructor
      · intro h f hf j hj
        obtain ⟨i, hi, _⟩ := hdecl _ (mem_of_mem_targetFields hf).1
        rw [← (hfield f hf i hi j hj).2]
        exact (h f hf i hi).2 j hj
      · intro h f hf i hi
        have hpos' := hpos _ (mem_of_mem_targetFields hf).1
        exact ⟨(hfield f hf i hi 0 hpos').1, fun j hj => by
          rw [(hfield f hf i hi j hj).2, h f hf j hj]⟩
    rw [hmid, ConcatRhsOk, if_neg hone]
    by_cases hxz : simValHasXz v = true
    · rw [if_pos hxz, unknownRhsOk_iff hm hxz]
    · rw [if_neg hxz, knownRhsOk_iff hm (by simpa using hxz)]

end

namespace ConcatExample

def shiftModulo64 (ew : ℕ) : Word := (1 : Word) <<< (ew % 64)

def module : IRModule :=
  { signals := [⟨0, .net, 4⟩, ⟨1, .net, 4⟩], memories := [], clockDomains := [], asyncBlock := .null }

def state : CtxState :=
  { signals := fun _ => ⟨simValZero 4, simValZero 4, false⟩
    cells := fun _ _ => simValZero 1
    runtimeError := false
    settleDirty := false
    sigDirty := fun _ => false }

def scope : String → Option ConcatElem
  | "hi" => some ⟨0, 4⟩
  | "lo" => some ⟨1, 4⟩
  | _ => none

def elems : List ConcatElem := [⟨0, 4⟩, ⟨1, 4⟩]

end ConcatExample

open ConcatExample in
theorem concatAssign_holdsFields_iff_byte :
    ∃ stmt, irBuildConcatAssignment shiftModulo64 scope ["hi", "lo"] (some "RECEIVE")
        (wordLiteral 0xa5 8) = some stmt ∧
      (HoldsFields module (simCtxApplyNba module (simExecStmt module true stmt state)) elems false
          (simEvalExpr module state (wordLiteral 0xa5 8)) ↔
        ConcatRhsOk shiftModulo64 elems false (simEvalExpr module state (wordLiteral 0xa5 8))) :=
  @concatAssign_holdsFields_iff _ _ _ _ shiftModulo64 _ _ _ .receive rfl rfl (by decide) (by decide)
    (by
      intro e he
      simp only [elems, List.mem_cons, List.not_mem_nil, or_false] at he
      rcases he with rfl | rfl
      · exact ⟨0, by decide, rfl⟩
      · exact ⟨1, by decide, rfl⟩)
    (by decide) rfl (by decide +kernel) (by rw [WidthFits]; decide +kernel)

open ConcatExample in
/-- `{hi, lo} <=s 4'b1000` leaves zeros in `hi`, where sign extension asks for ones. -/
theorem concatAssign_loses_sign :
    ∃ stmt, irBuildConcatAssignment shiftModulo64 scope ["hi", "lo"] (some "RECEIVE_S")
        (wordLiteral 8 4) = some stmt ∧
      ¬ HoldsFields module (simCtxApplyNba module (simExecStmt module true stmt state)) elems true
          (simEvalExpr module state (wordLiteral 8 4)) := by
  refine ⟨_, rfl, fun h => ?_⟩
  have hbit := (h (⟨0, 4⟩, 4) List.mem_cons_self 0 (by decide)).2 0 (by decide)
  revert hbit
  decide +kernel

end JzHdl

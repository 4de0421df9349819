import JzHdl.Ir.ConcatAssign
import JzHdl.Sim.Numbers
import JzHdl.Sim.PrintedValue
import JzHdl.Sim.Representation

/-! # Writes to a dynamically indexed bus

An assignment to an array of buses with an unknown index becomes one conditional
assignment for each element. The comparison of an element uses a literal of the
width of the index, so an element whose number does not fit is driven with another.
-/

namespace JzHdl

open BitWords

/-- One expanded signal of a bus port. -/
structure IRBusSignalMapping where

  busPortName : String

  signalName : String

  arrayIndex : ℤ

  irSignalId : ℕ

  width : ℕ
  deriving DecidableEq

def irLookupBusSignalId (map : List IRBusSignalMapping) (portName signalName : String)
    (arrayIndex : ℤ) : Option ℕ :=
  (map.find? fun e => e.busPortName == portName && e.signalName == signalName &&
    e.arrayIndex == arrayIndex).map IRBusSignalMapping.irSignalId

def busMapWidth (map : List IRBusSignalMapping) (id : ℕ) : ℕ :=
  ((map.find? fun e => e.irSignalId == id).map IRBusSignalMapping.width).getD 0

/-- An access whose index is not known, with the index expression and its width. -/
structure DynamicBusAccess where

  portName : String

  signalName : String

  count : ℕ

  index : Option (IRExpr × ℕ)

/-- The signal of element `k`. A bus of one element is stored without an index. -/
def DynamicBusAccess.elementId (d : DynamicBusAccess) (map : List IRBusSignalMapping) (k : ℕ) :
    Option ℕ :=
  irLookupBusSignalId map d.portName d.signalName (if 1 < d.count then k else -1)

def jzMaxIrExpandedItems : ℕ := 1024 * 1024

namespace IRAssignmentKind

def isAlias : IRAssignmentKind → Bool
  | .alias | .aliasZext | .aliasSext => true
  | _ => false

end IRAssignmentKind

/-- `elem <= (index == k) ? value : default`. -/
def busElementAssign (kind : IRAssignmentKind) (idx : IRExpr) (idxWidth : ℕ) (value : IRExpr)
    (useZ : Bool) (id ew k : ℕ) : IRAssignment :=
  { lhsSignalId := id
    rhs := .ternary (.binary .eq idx (wordLiteral (BitVec.ofNat 64 k) (widthOr idxWidth 32)) 1)
      value (.literal ⟨.zero, ew, useZ⟩ ew)
    kind
    isSliced := false
    lhsMsb := 0
    lhsLsb := 0 }

/-- The statements of all elements; one element that is not in the map fails them all. -/
def busElementAssigns (map : List IRBusSignalMapping) (d : DynamicBusAccess)
    (kind : IRAssignmentKind) (idx : IRExpr) (idxWidth : ℕ) (value : IRExpr) (useZ : Bool) :
    Option (List IRAssignment) :=
  (List.range d.count).mapM fun k => (d.elementId map k).map fun id =>
    busElementAssign kind idx idxWidth value useZ id (busMapWidth map id) k

/-- `ir_build_assignment_stmt` on `bus[index].sig`. -/
def irBuildDynamicBusWrite (map : List IRBusSignalMapping) (d : DynamicBusAccess)
    (blockKind : Option String) (rhs : IRExpr) : Option IRStmt :=
  match d.index with
  | none => none
  | some (idx, idxWidth) =>
    match blockKind.elim (some .alias) irMapAssignmentKind with
    | none => none
    | some kind =>
      if d.count = 0 ∨ jzMaxIrExpandedItems < d.count then none
      else (busElementAssigns map d kind idx idxWidth rhs kind.isAlias).map fun as =>
        .block (as.map .assignment)

/-- `ir_build_assignment_stmt` on `lhs = bus[index].sig` with a signal that can only be written:
the elements get the value of the left-hand side. An element count that is no `int` has no
storage. -/
def irBuildReverseAlias (map : List IRBusSignalMapping) (d : DynamicBusAccess)
    (blockKind : String) (lhsSignalId lhsWidth : ℕ) : Option IRStmt :=
  match irMapAssignmentKind blockKind with
  | none => none
  | some kind =>
    if kind.isAlias = false then none
    else
      match d.index with
      | none => none
      | some (idx, idxWidth) =>
        if d.count = 0 ∨ 2 ^ 31 ≤ d.count then none
        else (busElementAssigns map d kind idx idxWidth (.signalRef lhsSignalId lhsWidth)
          true).map fun as => .block (as.map .assignment)

/-! ## What the block is for -/

/-- What an element gets that is not addressed. -/
def busDefault (useZ : Bool) (ew : ℕ) : SimValue :=
  if useZ then simValAllZ ew else simValZero ew

/-- Exactly the addressed element has the value, and the others have the default. -/
def BusDriven (m : IRModule) (map : List IRBusSignalMapping) (d : DynamicBusAccess)
    (kind : IRAssignmentKind) (useZ : Bool) (index : ℕ) (v : SimValue) (t : CtxState) : Prop :=
  ∀ k < d.count, ∀ id, d.elementId map k = some id → ∀ i, m.sigIndex id = some i →
    (t.signals i).current =
      if k = index then extendRhs kind v (busMapWidth map id)
      else busDefault useZ (busMapWidth map id)

/-- No other element looks like the addressed one in the width of the index, unless the value is
the default anyway. -/
def IndexDistinct (map : List IRBusSignalMapping) (d : DynamicBusAccess) (kind : IRAssignmentKind)
    (useZ : Bool) (idxWidth index : ℕ) (v : SimValue) : Prop :=
  ∀ k < d.count, ∀ id, d.elementId map k = some id →
    (k % 2 ^ widthOr idxWidth 32 = index ↔ k = index) ∨
      extendRhs kind v (busMapWidth map id) = busDefault useZ (busMapWidth map id)

/-- The state after a block of one of the two kinds of blocks. -/
def afterBlock (m : IRModule) (isNba : Bool) (stmt : IRStmt) (s : CtxState) : CtxState :=
  if isNba then simCtxApplyNba m (simExecStmt m true stmt s) else simExecStmt m false stmt s

/-- The elements are signals of their own with the mapped widths, the index is known, and the
value fits. In an asynchronous block neither expression reads an element. -/
structure BusWriteInput (m : IRModule) (s : CtxState) (isNba : Bool)
    (map : List IRBusSignalMapping) (d : DynamicBusAccess) (kind : IRAssignmentKind)
    (idx value : IRExpr) : Prop where

  distinct : ∀ j < d.count, ∀ k < d.count, d.elementId map j = d.elementId map k → j = k

  declared : ∀ k < d.count, ∀ id, d.elementId map k = some id → ∃ i, m.sigIndex id = some i ∧
    (s.signals i).current.width = busMapWidth map id ∧ (s.signals i).current.Masked

  positive : ∀ k < d.count, ∀ id, d.elementId map k = some id → 0 < busMapWidth map id

  known : (simEvalExpr m s idx).Known (simEvalExpr m s idx).width

  masked : (simEvalExpr m s value).Masked

  fits : ∀ k < d.count, ∀ id, d.elementId map k = some id →
    kind.isZext = true ∨ kind.isSext = true →
      (simEvalExpr m s value).width ≤ busMapWidth map id

  unread : isNba = false → ∀ k < d.count, ∀ id, d.elementId map k = some id →
    id ∉ exprReads idx ∧ id ∉ exprReads value

/-! ## Immediate assignments -/

section

variable {m : IRModule}

theorem applyAssign_now_other (s : CtxState) (a : IRAssignment) {j : ℕ}
    (hj : m.sigIndex a.lhsSignalId ≠ some j) :
    ((applyAssign m false s a).signals j).current = (s.signals j).current := by
  refine SimValue.ext_part fun p => (applyAssign_evolves s a).keeps j p fun τ hτ hcov => ?_
  rw [assignTargets] at hτ
  cases hi : m.sigIndex a.lhsSignalId with
  | none =>
    rw [hi] at hτ
    cases hτ
  | some i =>
    rw [hi] at hτ hj
    rw [List.mem_singleton.mp hτ] at hcov
    exact hj (congrArg some hcov.1)

theorem applyAssign_now_self (s : CtxState) (a : IRAssignment) (hsl : a.isSliced = false) {i : ℕ}
    (hi : m.sigIndex a.lhsSignalId = some i) (hold : (s.signals i).current.Masked)
    (hnew : (extendRhs a.kind (simEvalExpr m s a.rhs) (s.signals i).current.width).width =
        (s.signals i).current.width ∧
      (extendRhs a.kind (simEvalExpr m s a.rhs) (s.signals i).current.width).Masked) :
    ((applyAssign m false s a).signals i).current =
      extendRhs a.kind (simEvalExpr m s a.rhs) (s.signals i).current.width := by
  simp only [applyAssign, hi, Bool.false_eq_true, if_false, writeNow, hsl]
  split
  · rename_i hsame
    exact eq_of_simValSame hold hnew.2 hnew.1.symm hsame
  · simp [CtxState.markDirty, CtxState.setCurrent, CtxState.setEntry]

/-- Immediate assignments that read none of their targets all read the state before the block. -/
theorem execStmts_now {as : List IRAssignment} (hnd : (as.map IRAssignment.lhsSignalId).Nodup)
    (hsl : ∀ a ∈ as, a.isSliced = false) (s : CtxState) {a : IRAssignment} (ha : a ∈ as)
    (hreads : ∀ b ∈ as, b.lhsSignalId ∉ exprReads a.rhs) {i : ℕ}
    (hi : m.sigIndex a.lhsSignalId = some i) (hold : (s.signals i).current.Masked)
    (hnew : (extendRhs a.kind (simEvalExpr m s a.rhs) (s.signals i).current.width).width =
        (s.signals i).current.width ∧
      (extendRhs a.kind (simEvalExpr m s a.rhs) (s.signals i).current.width).Masked) :
    ((execStmts m false (as.map .assignment) s).signals i).current =
      extendRhs a.kind (simEvalExpr m s a.rhs) (s.signals i).current.width := by
  have frame : ∀ (bs : List IRAssignment) (t : CtxState),
      a.lhsSignalId ∉ bs.map IRAssignment.lhsSignalId →
      ((execStmts m false (bs.map .assignment) t).signals i).current = (t.signals i).current := by
    intro bs
    induction bs with
    | nil => intro t _; rfl
    | cons b rest ih =>
      intro t hb
      rw [List.map_cons, List.mem_cons, not_or] at hb
      rw [List.map_cons, execStmts, ih _ hb.2, simExecStmt]
      exact applyAssign_now_other t b fun h => hb.1 (IRModule.sigIndex_inj hi h)
  induction as generalizing s with
  | nil => cases ha
  | cons b rest ih =>
    rw [List.map_cons, List.nodup_cons] at hnd
    rw [List.map_cons, execStmts, simExecStmt]
    rcases List.mem_cons.mp ha with rfl | ha
    · rw [frame rest _ hnd.1]
      exact applyAssign_now_self s a (hsl a List.mem_cons_self) hi hold hnew
    · have hne : m.sigIndex b.lhsSignalId ≠ some i := fun h =>
        hnd.1 (IRModule.sigIndex_inj hi h ▸ List.mem_map_of_mem ha)
      have hkeep := applyAssign_now_other s b hne
      have heval : simEvalExpr m (applyAssign m false s b) a.rhs = simEvalExpr m s a.rhs := by
        refine simEvalExpr_congr a.rhs (fun id hid j hj => ?_) fun name _ j _ => ?_
        · refine applyAssign_now_other s b fun hb => ?_
          have hid' := IRModule.sigIndex_inj hb hj
          exact hreads b List.mem_cons_self (hid' ▸ hid)
        · rw [(applyAssign_evolves s b).cells]
      have hrun := ih hnd.2 (fun c hc => hsl c (List.mem_cons_of_mem b hc))
        (applyAssign m false s b) ha (fun c hc => hreads c (List.mem_cons_of_mem b hc))
        (by rwa [hkeep]) (by rwa [hkeep, heval])
      rw [hrun, heval, hkeep]

end

/-! ## The block -/

section

variable {m : IRModule} {s : CtxState} {isNba : Bool} {map : List IRBusSignalMapping}
  {d : DynamicBusAccess} {kind : IRAssignmentKind} {idx value : IRExpr} {idxWidth : ℕ}
  {useZ : Bool}

theorem toNat_setFirst (word : Word) :
    (Words.set (.zero : SimWords) 0 word).toNat = word.toNat := by
  refine Nat.eq_of_testBit_eq fun k => ?_
  rw [Words.testBit_toNat, BitVec.testBit_toNat, Words.bit, Words.get_set]
  by_cases hk : k < 64
  · have h0 : k / 64 = 0 := by omega
    have h1 : k % 64 = k := by omega
    simp [h0, h1]
  · have h0 : k / 64 ≠ 0 := by omega
    have hge : word.getLsbD k = false := BitVec.getLsbD_of_ge _ _ (by omega)
    simp [h0, hge]

/-- The number that the comparison of element `k` uses. -/
theorem eval_elementLiteral {k : ℕ} (hk : k < 2 ^ 64) :
    let v := simEvalExpr m s (wordLiteral (BitVec.ofNat 64 k) (widthOr idxWidth 32))
    v.Known v.width ∧ v.val.toNat = k % 2 ^ widthOr idxWidth 32 := by
  have hpos : widthOr idxWidth 32 ≠ 0 := by
    rw [widthOr]
    split <;> omega
  have hv : simEvalExpr m s (wordLiteral (BitVec.ofNat 64 k) (widthOr idxWidth 32)) =
      simValFromWords (Words.set .zero 0 (BitVec.ofNat 64 k)) (widthOr idxWidth 32) := by
    simp [wordLiteral, simEvalExpr, evalLiteral, simValFromWords, simValMask, hpos]
  obtain ⟨hknown, hval⟩ := simValFromWords_known (Words.set .zero 0 (BitVec.ofNat 64 k))
    (widthOr idxWidth 32)
  rw [toNat_setFirst, BitVec.toNat_ofNat, Nat.mod_eq_of_lt hk] at hval
  simp only [hv]
  exact ⟨hknown.width ▸ hknown, hval⟩

theorem eval_busDefault {ew : ℕ} (hew : 0 < ew) :
    simEvalExpr m s (.literal ⟨.zero, ew, useZ⟩ ew) = busDefault useZ ew := by
  have hzero : maskWords ew .zero = (.zero : SimWords) := Words.ext_bit fun k => by
    rw [bit_maskWords]
    simp
  have hne : ew ≠ 0 := by omega
  cases useZ with
  | true => simp [simEvalExpr, evalLiteral, busDefault, simValAllZ, hne]
  | false =>
    simp [simEvalExpr, evalLiteral, busDefault, simValFromWords, simValMask, simValZero, hzero, hne]

theorem busDefault_width (ew : ℕ) : (busDefault useZ ew).width = ew := by cases useZ <;> rfl

theorem masked_busDefault (ew : ℕ) : (busDefault useZ ew).Masked := by
  cases useZ with
  | true => exact masked_simValAllZ ew
  | false => exact masked_simValZero ew

/-- The right-hand side of element `k`. -/
theorem eval_busElement (hidx : (simEvalExpr m s idx).Known (simEvalExpr m s idx).width)
    {id ew k : ℕ} (hew : 0 < ew) (hk : k < 2 ^ 64) :
    simEvalExpr m s (busElementAssign kind idx idxWidth value useZ id ew k).rhs =
      if k % 2 ^ widthOr idxWidth 32 = (simEvalExpr m s idx).val.toNat then simEvalExpr m s value
      else busDefault useZ ew := by
  obtain ⟨hlit, hnat⟩ := @eval_elementLiteral m s idxWidth k hk
  have hcond : simValIsTrue (simEvalExpr m s (.binary .eq idx
      (wordLiteral (BitVec.ofNat 64 k) (widthOr idxWidth 32)) 1)) =
        some (decide ((simEvalExpr m s idx).val.toNat = k % 2 ^ widthOr idxWidth 32)) := by
    simp only [simEvalExpr, evalBinary]
    rw [simValIsTrue_simValEq hidx hlit, hnat]
  have hrhs : simEvalExpr m s (busElementAssign kind idx idxWidth value useZ id ew k).rhs =
      simValTernary (simEvalExpr m s (.binary .eq idx
        (wordLiteral (BitVec.ofNat 64 k) (widthOr idxWidth 32)) 1)) (simEvalExpr m s value)
        (simEvalExpr m s (.literal ⟨.zero, ew, useZ⟩ ew)) := rfl
  rw [hrhs, eval_busDefault hew, simValTernary, hcond]
  by_cases h : k % 2 ^ widthOr idxWidth 32 = (simEvalExpr m s idx).val.toNat
  · simp [h]
  · simp [h, Ne.symm h]

/-- The statements that were built, element by element. -/
theorem busElementAssigns_eq {as : List IRAssignment}
    (h : busElementAssigns map d kind idx idxWidth value useZ = some as) :
    ∃ ids : ℕ → ℕ, (∀ k < d.count, d.elementId map k = some (ids k)) ∧
      as = (List.range d.count).map fun k =>
        busElementAssign kind idx idxWidth value useZ (ids k) (busMapWidth map (ids k)) k := by
  have hall : ∀ (l : List ℕ) (r : List IRAssignment), (l.mapM fun k =>
      (d.elementId map k).map fun id =>
        busElementAssign kind idx idxWidth value useZ id (busMapWidth map id) k) = some r →
      (∀ k ∈ l, d.elementId map k = some ((d.elementId map k).getD 0)) ∧
        r = l.map fun k => busElementAssign kind idx idxWidth value useZ
          ((d.elementId map k).getD 0) (busMapWidth map ((d.elementId map k).getD 0)) k := by
    intro l
    induction l with
    | nil =>
      intro r hr
      cases hr
      exact ⟨by simp, rfl⟩
    | cons k rest ih =>
      intro r hr
      rw [List.mapM_cons] at hr
      cases hid : d.elementId map k with
      | none => simp [hid] at hr
      | some id =>
        simp only [hid, Option.map_some, Option.bind_eq_bind, Option.bind_some,
          Option.bind_eq_some_iff] at hr
        obtain ⟨tail, htail, hcons⟩ := hr
        cases hcons
        obtain ⟨hfound, htail⟩ := ih tail htail
        refine ⟨fun j hj => ?_, ?_⟩
        · rcases List.mem_cons.mp hj with rfl | hj
          · rw [hid]
            rfl
          · exact hfound j hj
        · rw [List.map_cons, hid, ← htail]
          rfl
  obtain ⟨hfound, heq⟩ := hall (List.range d.count) as h
  exact ⟨fun k => (d.elementId map k).getD 0, fun k hk => hfound k (List.mem_range.mpr hk), heq⟩

/-- What the block leaves in an element. -/
theorem current_afterBlock (h : BusWriteInput m s isNba map d kind idx value) {as}
    (hcount : d.count < 2 ^ 64)
    (has : busElementAssigns map d kind idx idxWidth value useZ = some as) {k : ℕ}
    (hk : k < d.count) {id : ℕ} (hid : d.elementId map k = some id) {i : ℕ}
    (hi : m.sigIndex id = some i) :
    ((afterBlock m isNba (.block (as.map .assignment)) s).signals i).current =
      if k % 2 ^ widthOr idxWidth 32 = (simEvalExpr m s idx).val.toNat then
        extendRhs kind (simEvalExpr m s value) (busMapWidth map id)
      else busDefault useZ (busMapWidth map id) := by
  obtain ⟨ids, hfound, rfl⟩ := busElementAssigns_eq has
  have hids : ids k = id := Option.some.inj ((hfound k hk).symm.trans hid)
  subst hids
  obtain ⟨i', hi', hwidth, hmasked⟩ := h.declared k hk _ (hfound k hk)
  obtain rfl : i = i' := Option.some.inj (hi.symm.trans hi')
  have hpos := h.positive k hk _ (hfound k hk)
  have heval := @eval_busElement m s kind idx value idxWidth useZ h.known (ids k)
    (busMapWidth map (ids k)) k hpos (by omega)
  have hmem : busElementAssign kind idx idxWidth value useZ (ids k) (busMapWidth map (ids k)) k ∈
      (List.range d.count).map fun k =>
        busElementAssign kind idx idxWidth value useZ (ids k) (busMapWidth map (ids k)) k :=
    List.mem_map.mpr ⟨k, List.mem_range.mpr hk, rfl⟩
  have hnd : (((List.range d.count).map fun k => busElementAssign kind idx idxWidth value useZ
      (ids k) (busMapWidth map (ids k)) k).map IRAssignment.lhsSignalId).Nodup := by
    rw [List.map_map]
    refine List.Nodup.map_on (fun a ha b hb hab => ?_) List.nodup_range
    have ha := List.mem_range.mp ha
    have hb := List.mem_range.mp hb
    exact h.distinct a ha b hb ((hfound a ha).trans ((congrArg some hab).trans (hfound b hb).symm))
  have hext : extendRhs kind (simEvalExpr m s (busElementAssign kind idx idxWidth value useZ (ids k)
      (busMapWidth map (ids k)) k).rhs) (s.signals i).current.width =
        if k % 2 ^ widthOr idxWidth 32 = (simEvalExpr m s idx).val.toNat then
          extendRhs kind (simEvalExpr m s value) (busMapWidth map (ids k))
        else busDefault useZ (busMapWidth map (ids k)) := by
    rw [heval, hwidth]
    split
    · rfl
    · exact extendRhs_of_width_eq kind (busDefault_width _)
  cases isNba with
  | true =>
    have hrun := commit_execStmts_nba hnd s hmem rfl hi
    exact hrun.trans hext
  | false =>
    refine (execStmts_now hnd ?_ s hmem ?_ hi hmasked ?_).trans hext
    · intro a ha
      obtain ⟨j, -, rfl⟩ := List.mem_map.mp ha
      rfl
    · intro b hb
      obtain ⟨j, hj, rfl⟩ := List.mem_map.mp hb
      have hj := List.mem_range.mp hj
      obtain ⟨hidx, hvalue⟩ := h.unread rfl j hj _ (hfound j hj)
      change ids j ∉ exprReads idx ++ [] ++ exprReads value ++ []
      simp [hidx, hvalue]
    · change (extendRhs kind _ _).width = _ ∧ (extendRhs kind _ _).Masked
      rw [hext, hwidth]
      split
      · exact extendRhs_represented h.masked (h.fits k hk _ (hfound k hk))
      · exact ⟨busDefault_width _, masked_busDefault _⟩

theorem busDriven_iff (h : BusWriteInput m s isNba map d kind idx value) {as}
    (hcount : d.count < 2 ^ 64)
    (has : busElementAssigns map d kind idx idxWidth value useZ = some as) :
    BusDriven m map d kind useZ (simEvalExpr m s idx).val.toNat (simEvalExpr m s value)
        (afterBlock m isNba (.block (as.map .assignment)) s) ↔
      IndexDistinct map d kind useZ idxWidth (simEvalExpr m s idx).val.toNat
        (simEvalExpr m s value) := by
  constructor
  · intro hdriven k hk id hid
    obtain ⟨i, hi, -, -⟩ := h.declared k hk id hid
    have heq := hdriven k hk id hid i hi
    rw [current_afterBlock h hcount has hk hid hi] at heq
    by_cases ha : k % 2 ^ widthOr idxWidth 32 = (simEvalExpr m s idx).val.toNat
    · by_cases hb : k = (simEvalExpr m s idx).val.toNat
      · exact .inl ⟨fun _ => hb, fun _ => ha⟩
      · rw [if_pos ha, if_neg hb] at heq
        exact .inr heq
    · by_cases hb : k = (simEvalExpr m s idx).val.toNat
      · rw [if_neg ha, if_pos hb] at heq
        exact .inr heq.symm
      · exact .inl ⟨fun h => absurd h ha, fun h => absurd h hb⟩
  · intro hcond k hk id hid i hi
    rw [current_afterBlock h hcount has hk hid hi]
    rcases hcond k hk id hid with hiff | heq
    · simp only [hiff]
    · rw [heq]
      split
      · split <;> rfl
      · split <;> rfl

/-- With as many index values as elements no two elements look alike. -/
theorem indexDistinct_of_le {index : ℕ} {v : SimValue}
    (hcount : d.count ≤ 2 ^ widthOr idxWidth 32) :
    IndexDistinct map d kind useZ idxWidth index v := by
  intro k hk id _
  refine .inl ?_
  rw [Nat.mod_eq_of_lt (by omega)]

theorem BusDriven.undriven {index : ℕ} {v : SimValue} {t : CtxState}
    (h : BusDriven m map d kind useZ index v t) (hindex : d.count ≤ index) {k : ℕ}
    (hk : k < d.count) {id i : ℕ} (hid : d.elementId map k = some id)
    (hi : m.sigIndex id = some i) :
    (t.signals i).current = busDefault useZ (busMapWidth map id) := by
  rw [h k hk id hid i hi, if_neg (by omega)]

end

/-- The two ways in which the builder makes a block of element assignments, with the value that
the addressed element gets. -/
inductive BusWriteBlock (map : List IRBusSignalMapping) (d : DynamicBusAccess) :
    IRAssignmentKind → Bool → IRExpr → IRStmt → Prop

  | write {blockKind : Option String} {kind : IRAssignmentKind} {rhs : IRExpr} {stmt : IRStmt} :
      blockKind.elim (some .alias) irMapAssignmentKind = some kind →
      irBuildDynamicBusWrite map d blockKind rhs = some stmt →
      BusWriteBlock map d kind kind.isAlias rhs stmt

  | reverse {blockKind : String} {kind : IRAssignmentKind} {lhsSignalId lhsWidth : ℕ}
      {stmt : IRStmt} : irMapAssignmentKind blockKind = some kind →
      irBuildReverseAlias map d blockKind lhsSignalId lhsWidth = some stmt →
      BusWriteBlock map d kind true (.signalRef lhsSignalId lhsWidth) stmt

/-- The executed block drives exactly the addressed element when no other element has the number
of the index in the width of the index. -/
theorem busWrite_exact {m : IRModule} {s : CtxState} {isNba : Bool}
    {map : List IRBusSignalMapping} {d : DynamicBusAccess} {kind : IRAssignmentKind} {useZ : Bool}
    {idx value : IRExpr} {idxWidth : ℕ} {stmt : IRStmt}
    (hbuild : BusWriteBlock map d kind useZ value stmt)
    (hidx : d.index = some (idx, idxWidth))
    (hinput : BusWriteInput m s isNba map d kind idx value) :
    BusDriven m map d kind useZ (simEvalExpr m s idx).val.toNat (simEvalExpr m s value)
        (afterBlock m isNba stmt s) ↔
      IndexDistinct map d kind useZ idxWidth (simEvalExpr m s idx).val.toNat
        (simEvalExpr m s value) := by
  cases hbuild with
  | write hkind hstmt =>
    simp only [irBuildDynamicBusWrite, hidx, hkind] at hstmt
    split at hstmt
    · cases hstmt
    · rename_i hcount
      rw [Option.map_eq_some_iff] at hstmt
      obtain ⟨as, has, rfl⟩ := hstmt
      have hle : d.count ≤ jzMaxIrExpandedItems := by omega
      exact busDriven_iff hinput (hle.trans_lt (by decide)) has
  | reverse hkind hstmt =>
    simp only [irBuildReverseAlias, hidx, hkind] at hstmt
    split at hstmt
    · cases hstmt
    · split at hstmt
      · cases hstmt
      · rename_i hcount
        rw [Option.map_eq_some_iff] at hstmt
        obtain ⟨as, has, rfl⟩ := hstmt
        exact busDriven_iff hinput (by omega) has

namespace BusExample

/-- Five elements of four bits and an index of two. -/
def elements (n : ℕ) : List IRBusSignalMapping :=
  (List.range n).map fun (k : ℕ) => ⟨"bus", "DATA", (k : ℤ), k, 4⟩

def module : IRModule :=
  { signals := [⟨0, .net, 4⟩, ⟨1, .net, 4⟩, ⟨2, .net, 4⟩, ⟨3, .net, 4⟩, ⟨4, .net, 4⟩, ⟨5, .net, 2⟩]
    memories := []
    clockDomains := []
    asyncBlock := .null }

def state : CtxState :=
  { signals := fun i => ⟨simValZero (if i = 5 then 2 else 4), simValZero 1, false⟩
    cells := fun _ _ => simValZero 1
    runtimeError := false
    settleDirty := false
    sigDirty := fun _ => false }

def access (n : ℕ) : DynamicBusAccess := ⟨"bus", "DATA", n, some (.signalRef 5 2, 2)⟩

def stmt (n : ℕ) : IRStmt := .block ((List.range n).map fun k =>
  .assignment (busElementAssign .drive (.signalRef 5 2) 2 (wordLiteral 3 4) false k 4 k))

theorem input : BusWriteInput module state false (elements 4) (access 4) .drive (.signalRef 5 2)
    (wordLiteral 3 4) := by
  have hid : ∀ k < 4, (access 4).elementId (elements 4) k = some k := by decide
  have hmap : ∀ k < 4, busMapWidth (elements 4) k = 4 := by decide
  have hsig : ∀ k < 4, module.sigIndex k = some k := by decide
  constructor
  · intro j hj k hk h
    rw [hid j hj, hid k hk] at h
    exact Option.some.inj h
  · intro k hk id h
    have hk : k < 4 := hk
    rw [hid k hk] at h
    cases h
    refine ⟨k, hsig k hk, ?_, masked_simValZero _⟩
    rw [hmap k hk]
    simp only [state, if_neg (show k ≠ 5 by omega)]
    rfl
  · intro k hk id h
    rw [hid k hk] at h
    cases h
    rw [hmap k hk]
    decide
  · exact ⟨rfl, rfl, rfl, by decide +kernel⟩
  · decide +kernel
  · intro k hk id h hext
    exact absurd hext (by decide)
  · intro _ k hk id h
    have hk : k < 4 := hk
    rw [hid k hk] at h
    cases h
    exact ⟨by simp only [exprReads, List.mem_singleton]; omega, by simp [wordLiteral, exprReads]⟩

end BusExample

open BusExample in
theorem busWrite_exact_four :
    BusWriteBlock (elements 4) (access 4) .drive false (wordLiteral 3 4) (stmt 4) ∧
    (BusDriven module (elements 4) (access 4) .drive false
        (simEvalExpr module state (.signalRef 5 2)).val.toNat
        (simEvalExpr module state (wordLiteral 3 4)) (afterBlock module false (stmt 4) state) ↔
      IndexDistinct (elements 4) (access 4) .drive false 2
        (simEvalExpr module state (.signalRef 5 2)).val.toNat
        (simEvalExpr module state (wordLiteral 3 4))) :=
  have hbuild : BusWriteBlock (elements 4) (access 4) .drive false (wordLiteral 3 4) (stmt 4) :=
    @BusWriteBlock.write _ _ (some "DRIVE") .drive _ _ rfl rfl
  ⟨hbuild, busWrite_exact hbuild rfl input⟩

open BusExample in
/-- `bus[index].DATA <= 3` with a two-bit index of value 0 drives element 4 as well. -/
theorem busWrite_drives_alias :
    irBuildDynamicBusWrite (elements 5) (access 5) (some "DRIVE") (wordLiteral 3 4) =
        some (stmt 5) ∧
      ¬ BusDriven module (elements 5) (access 5) .drive false
        (simEvalExpr module state (.signalRef 5 2)).val.toNat
        (simEvalExpr module state (wordLiteral 3 4)) (afterBlock module false (stmt 5) state) := by
  refine ⟨rfl, fun h => ?_⟩
  have hlast := h 4 (by decide) 4 (by decide) 4 (by decide)
  have hval := congrArg (fun v : SimValue => v.val.bit 0) hlast
  revert hval
  decide +kernel

end JzHdl

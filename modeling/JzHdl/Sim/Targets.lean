import JzHdl.Sim.Bits
import JzHdl.Sim.Deps

/-! # What immediate execution can change

Every change of a signal raises its dirty flag and stays inside the targets of
the statement.
-/

namespace JzHdl

open BitWords

/-- A whole signal, or the bits of a slice. -/
structure Target where

  index : ℕ

  slice : Option (ℕ × ℕ)
  deriving DecidableEq

/-- A part of a value: one bit of the three masks, or the width. -/
inductive Part | bit (k : ℕ) | width
  deriving DecidableEq

def SimValue.part (v : SimValue) : Part → (Bool × Bool × Bool) ⊕ ℕ
  | .bit k => .inl (v.val.bit k, v.xmask.bit k, v.zmask.bit k)
  | .width => .inr v.width

def Target.Covers (τ : Target) (i : ℕ) (p : Part) : Prop :=
  τ.index = i ∧ match τ.slice, p with
    | none, _ => True
    | some (msb, lsb), .bit k => lsb ≤ k ∧ k ≤ msb
    | some _, .width => False

/-- Two targets can be written without touching one another. -/
def Target.Apart (τ υ : Target) : Prop :=
  τ.index ≠ υ.index ∨ ∃ msb lsb msb' lsb', τ.slice = some (msb, lsb) ∧
    υ.slice = some (msb', lsb') ∧ (msb < lsb' ∨ msb' < lsb)

theorem Target.Apart.symm {τ υ : Target} (h : τ.Apart υ) : υ.Apart τ := by
  rcases h with h | ⟨a, b, a', b', h1, h2, h3⟩
  · exact Or.inl h.symm
  · exact Or.inr ⟨a', b', a, b, h2, h1, h3.symm⟩

def Target.apartB (τ υ : Target) : Bool :=
  τ.index != υ.index || match τ.slice, υ.slice with
    | some (msb, lsb), some (msb', lsb') => decide (msb < lsb' ∨ msb' < lsb)
    | _, _ => false

theorem Target.apartB_iff (τ υ : Target) : τ.apartB υ = true ↔ τ.Apart υ := by
  rw [apartB, Apart, Bool.or_eq_true, bne_iff_ne]
  refine or_congr_right ?_
  rcases τ.slice with _ | ⟨msb, lsb⟩
  · simp
  · rcases υ.slice with _ | ⟨msb', lsb'⟩ <;> simp

instance : DecidableRel Target.Apart := fun τ υ => decidable_of_iff _ (Target.apartB_iff τ υ)

def TargetsApart (ts us : List Target) : Prop := ∀ τ ∈ ts, ∀ υ ∈ us, τ.Apart υ

instance (ts us : List Target) : Decidable (TargetsApart ts us) :=
  inferInstanceAs (Decidable (∀ τ ∈ ts, ∀ υ ∈ us, τ.Apart υ))

theorem TargetsApart.symm {ts us : List Target} (h : TargetsApart ts us) : TargetsApart us ts :=
  fun υ hυ τ hτ => (h τ hτ υ hυ).symm

/-- The parts of its target that decide what an assignment leaves there. -/
def Target.Agree (τ : Target) (v w : SimValue) : Prop :=
  match τ.slice with
  | none => v = w
  | some (msb, lsb) => v.width = w.width ∧ ∀ k, lsb ≤ k → k ≤ msb → v.part (.bit k) = w.part (.bit k)

theorem SimValue.ext_part {v w : SimValue} (h : ∀ p, v.part p = w.part p) : v = w := by
  have hbit : ∀ k, v.val.bit k = w.val.bit k ∧ v.xmask.bit k = w.xmask.bit k ∧
      v.zmask.bit k = w.zmask.bit k := fun k => by simpa [part] using h (.bit k)
  have hw : v.width = w.width := by simpa [part] using h .width
  cases v; cases w
  simp only [SimValue.mk.injEq]
  exact ⟨Words.ext_bit fun k => (hbit k).1, Words.ext_bit fun k => (hbit k).2.1,
    Words.ext_bit fun k => (hbit k).2.2, hw⟩

/-- A value that keeps every part outside some targets agrees on targets apart from them. -/
theorem Target.agree_of_apart {ts : List Target} {υ : Target} {i : ℕ} {v w : SimValue}
    (hi : υ.index = i) (hap : ∀ τ ∈ ts, τ.Apart υ)
    (hkeep : ∀ p, (∀ τ ∈ ts, ¬ τ.Covers i p) → v.part p = w.part p) : υ.Agree v w := by
  rw [Agree]
  split
  · rename_i hs
    refine SimValue.ext_part fun p => hkeep p fun τ hτ hc => ?_
    rcases hap τ hτ with hne | ⟨_, _, _, _, _, hs', _⟩
    · exact hne (hc.1.trans hi.symm)
    · rw [hs] at hs'; cases hs'
  · rename_i msb lsb hs
    constructor
    · have := hkeep .width fun τ hτ hc => by
        rcases hap τ hτ with hne | ⟨_, _, _, _, hsl, _, _⟩
        · exact hne (hc.1.trans hi.symm)
        · have := hc.2
          rw [hsl] at this
          exact this
      simpa [SimValue.part] using this
    · intro k hlo hhi
      refine hkeep _ fun τ hτ hc => ?_
      rcases hap τ hτ with hne | ⟨m₁, l₁, m₂, l₂, hsl, hs', hd⟩
      · exact hne (hc.1.trans hi.symm)
      · have := hc.2
        rw [hsl] at this
        rw [hs] at hs'
        cases hs'
        simp only at this
        omega

/-! ## Slice writes -/

theorem writeBit_part (t r : SimValue) (d b : ℕ) (p : Part) :
    (writeBit t r d b).part p =
      if p = .bit d ∧ d < 256 then r.part (.bit b) else t.part p := by
  cases p with
  | width => simp [writeBit, SimValue.part]
  | bit k =>
    simp only [writeBit, SimValue.part, Words.bit_setBit, Part.bit.injEq]
    by_cases h : k = d ∧ k < 64 * 4
    · have h' : k = d ∧ d < 256 := by omega
      simp only [if_pos h, if_pos h']
    · have h' : ¬ (k = d ∧ d < 256) := by omega
      simp only [if_neg h, if_neg h']

theorem writeSlice_part (t r : SimValue) (msb lsb : ℕ) (p : Part) :
    (writeSlice t r msb lsb).part p =
      match p with
      | .bit k => if lsb ≤ k ∧ k ≤ msb ∧ k < 256 then r.part (.bit (k - lsb)) else t.part (.bit k)
      | .width => t.part .width := by
  have hrange : ∀ n, ((List.range n).foldl (fun t b => writeBit t r (lsb + b) b) t).part p =
      match p with
      | .bit k => if lsb ≤ k ∧ k < lsb + n ∧ k < 256 then r.part (.bit (k - lsb))
          else t.part (.bit k)
      | .width => t.part .width := by
    intro n
    induction n with
    | zero =>
      cases p with
      | width => rfl
      | bit k =>
        simp only [List.range_zero, List.foldl_nil]
        rw [if_neg (by omega)]
    | succ n ih =>
      rw [List.range_succ, List.foldl_append, List.foldl_cons, List.foldl_nil, writeBit_part, ih]
      cases p with
      | width => simp
      | bit k =>
        simp only [Part.bit.injEq]
        by_cases h : k = lsb + n ∧ lsb + n < 256
        · rw [if_pos h, if_pos (by omega), show k - lsb = n by omega]
        · rw [if_neg h]
          congr 1
          simp only [eq_iff_iff]
          omega
  rw [writeSlice, hrange]
  cases p with
  | width => rfl
  | bit k =>
    simp only
    congr 1
    simp only [eq_iff_iff]
    omega

theorem writeSlice_width (t r : SimValue) (msb lsb : ℕ) :
    (writeSlice t r msb lsb).width = t.width := by
  simpa [SimValue.part] using writeSlice_part t r msb lsb .width

theorem sameWords_bit {v w : SimValue} {start len : ℕ} (h : sameWords v w start len = true) {k : ℕ}
    (hlo : start ≤ k / 64) (hhi : k / 64 < start + len) : v.part (.bit k) = w.part (.bit k) := by
  simp only [sameWords, List.all_eq_true, List.mem_range'_1, Bool.and_eq_true, beq_iff_eq] at h
  obtain ⟨⟨h1, h2⟩, h3⟩ := h (k / 64) ⟨hlo, hhi⟩
  simp only [SimValue.part, Words.bit, h1, h2, h3]

theorem sameWords_self (v : SimValue) (start len : ℕ) : sameWords v v start len = true := by
  simp [sameWords]

/-- The dirty test of a slice write compares every word that the write can change. -/
theorem writeSlice_eq_iff (t r : SimValue) (msb lsb : ℕ) :
    sameWords t (writeSlice t r msb lsb) (lsb / 64) (msb / 64 + 1 - lsb / 64) = true ↔
      writeSlice t r msb lsb = t := by
  constructor
  · intro h
    refine SimValue.ext_part fun p => ?_
    cases p with
    | width => exact writeSlice_part t r msb lsb .width
    | bit k =>
      by_cases hk : lsb ≤ k ∧ k ≤ msb ∧ k < 256
      · exact (sameWords_bit h (by omega) (by omega)).symm
      · rw [writeSlice_part]; simp only [if_neg hk]
  · intro h
    rw [h]
    exact sameWords_self t _ _

/-! ## Targets of a statement -/

mutual

/-- The memories a statement can write. -/
def stmtMemWrites : IRStmt → List String
  | .null | .assignment _ => []
  | .ifStmt _ thenBlock elifChain elseBlock =>
      stmtMemWrites thenBlock ++ stmtMemWrites elifChain ++ stmtMemWrites elseBlock
  | .select _ cases => casesMemWrites cases
  | .block stmts => stmtsMemWrites stmts
  | .memWrite memoryName _ _ => [memoryName]

def casesMemWrites : List (IRExpr × IRStmt) → List String
  | [] => []
  | (_, body) :: rest => stmtMemWrites body ++ casesMemWrites rest

def stmtsMemWrites : List IRStmt → List String
  | [] => []
  | stmt :: rest => stmtMemWrites stmt ++ stmtsMemWrites rest

end

section

variable (m : IRModule)

def assignTargets (a : IRAssignment) : List Target :=
  match m.sigIndex a.lhsSignalId with
  | none => []
  | some i => [⟨i, if a.isSliced then some (a.lhsMsb, a.lhsLsb) else none⟩]

mutual

def stmtTargets : IRStmt → List Target
  | .null | .memWrite .. => []
  | .assignment assign => assignTargets m assign
  | .ifStmt _ thenBlock elifChain elseBlock =>
      stmtTargets thenBlock ++ stmtTargets elifChain ++ stmtTargets elseBlock
  | .select _ cases => casesTargets cases
  | .block stmts => stmtsTargets stmts

def casesTargets : List (IRExpr × IRStmt) → List Target
  | [] => []
  | (_, body) :: rest => stmtTargets body ++ casesTargets rest

def stmtsTargets : List IRStmt → List Target
  | [] => []
  | stmt :: rest => stmtTargets stmt ++ stmtsTargets rest

end

end

/-- What immediate writes to some targets can do to a state: flags only rise, a changed signal
is flagged, and nothing outside the targets changes. -/
structure Evolves (ts : List Target) (s t : CtxState) : Prop where

  sigDirty : ∀ i, s.sigDirty i = true → t.sigDirty i = true

  settleDirty : s.settleDirty = true → t.settleDirty = true

  runtimeError : s.runtimeError = true → t.runtimeError = true

  flagged : ∀ i, (t.signals i).current ≠ (s.signals i).current →
    t.sigDirty i = true ∧ t.settleDirty = true

  next : ∀ i, (t.signals i).next = (s.signals i).next

  hasPending : ∀ i, (t.signals i).hasPending = (s.signals i).hasPending

  cells : t.cells = s.cells

  keeps : ∀ i p, (∀ τ ∈ ts, ¬ τ.Covers i p) →
    (t.signals i).current.part p = (s.signals i).current.part p

namespace Evolves

variable {ts us : List Target} {s t u : CtxState}

theorem refl (ts : List Target) (s : CtxState) : Evolves ts s s :=
  ⟨fun _ => id, id, id, fun _ h => absurd rfl h, fun _ => rfl, fun _ => rfl, rfl, fun _ _ _ => rfl⟩

theorem trans (h : Evolves ts s t) (h' : Evolves ts t u) : Evolves ts s u where
  sigDirty i hi := h'.sigDirty i (h.sigDirty i hi)
  settleDirty hs := h'.settleDirty (h.settleDirty hs)
  runtimeError hs := h'.runtimeError (h.runtimeError hs)
  flagged i hne := by
    by_cases ht : (u.signals i).current = (t.signals i).current
    · obtain ⟨h1, h2⟩ := h.flagged i (ht ▸ hne)
      exact ⟨h'.sigDirty i h1, h'.settleDirty h2⟩
    · exact h'.flagged i ht
  next i := (h'.next i).trans (h.next i)
  hasPending i := (h'.hasPending i).trans (h.hasPending i)
  cells := h'.cells.trans h.cells
  keeps i p hp := (h'.keeps i p hp).trans (h.keeps i p hp)

theorem mono (h : Evolves ts s t) (hsub : ts ⊆ us) : Evolves us s t :=
  { h with keeps := fun i p hp => h.keeps i p fun τ hτ => hp τ (hsub hτ) }

theorem raiseError (s : CtxState) (b : Bool) : Evolves ts s (s.raiseError b) :=
  ⟨fun _ => id, id, fun h => by simp [CtxState.raiseError, h], fun _ h => absurd rfl h,
    fun _ => rfl, fun _ => rfl, rfl, fun _ _ _ => rfl⟩

/-- Without a raised flag nothing has changed. -/
theorem current_eq (h : Evolves ts s t) (hq : t.settleDirty = false) (i : ℕ) :
    (t.signals i).current = (s.signals i).current := by
  by_contra hne
  rw [(h.flagged i hne).2] at hq
  cases hq

theorem sameData (h : Evolves ts s t) (hq : t.settleDirty = false) : SameData s t :=
  ⟨fun i => (h.current_eq hq i).symm, h.cells.symm⟩

end Evolves

section

variable {m : IRModule}

theorem setCurrent_current (s : CtxState) (i j : ℕ) (v : SimValue) :
    ((s.setCurrent i v).signals j).current = if j = i then v else (s.signals j).current := by
  simp only [CtxState.setCurrent, CtxState.setEntry]
  split <;> rfl

theorem setCurrent_next (s : CtxState) (i j : ℕ) (v : SimValue) :
    ((s.setCurrent i v).signals j).next = (s.signals j).next := by
  simp only [CtxState.setCurrent, CtxState.setEntry]
  split
  · rename_i h; rw [h]
  · rfl

theorem setCurrent_hasPending (s : CtxState) (i j : ℕ) (v : SimValue) :
    ((s.setCurrent i v).signals j).hasPending = (s.signals j).hasPending := by
  simp only [CtxState.setCurrent, CtxState.setEntry]
  split
  · rename_i h; rw [h]
  · rfl

/-- A flagged write of one signal. -/
theorem evolves_markDirty {ts : List Target} (s : CtxState) (i : ℕ) (v : SimValue)
    (hkeep : ∀ p, (∀ τ ∈ ts, ¬ τ.Covers i p) → v.part p = (s.signals i).current.part p) :
    Evolves ts s ((s.setCurrent i v).markDirty i) where
  sigDirty j hj := by simp [CtxState.markDirty, CtxState.setCurrent, CtxState.setEntry, hj]
  settleDirty _ := rfl
  runtimeError := id
  flagged j hne := by
    by_cases h : j = i
    · exact ⟨by simp [CtxState.markDirty, h], rfl⟩
    · exact absurd ((setCurrent_current s i j v).trans (if_neg h)) hne
  next j := setCurrent_next s i j v
  hasPending j := setCurrent_hasPending s i j v
  cells := rfl
  keeps j p hp := by
    change ((s.setCurrent i v).signals j).current.part p = _
    rw [setCurrent_current]
    split
    · rename_i h
      subst h
      exact hkeep p hp
    · rfl

theorem setCurrent_self (s : CtxState) (i : ℕ) : s.setCurrent i (s.signals i).current = s := by
  have : (s.setCurrent i (s.signals i).current).signals = s.signals := by
    funext j
    simp only [CtxState.setCurrent, CtxState.setEntry]
    split
    · rename_i h; rw [h]
    · rfl
  calc s.setCurrent i (s.signals i).current
      = { s with signals := (s.setCurrent i (s.signals i).current).signals } := rfl
    _ = s := by rw [this]

theorem writeNow_evolves (s : CtxState) (a : IRAssignment) (i : ℕ) (rhs : SimValue) :
    Evolves [⟨i, if a.isSliced then some (a.lhsMsb, a.lhsLsb) else none⟩] s
      (writeNow a s i rhs) := by
  rw [writeNow]
  by_cases hs : a.isSliced = true
  · simp only [hs, if_true]
    by_cases hw : writeSlice (s.signals i).current rhs a.lhsMsb a.lhsLsb = (s.signals i).current
    · rw [if_pos ((writeSlice_eq_iff _ _ _ _).mpr hw), hw, setCurrent_self]
      exact .refl _ s
    · rw [if_neg (fun h => hw ((writeSlice_eq_iff _ _ _ _).mp h))]
      refine evolves_markDirty s i _ fun p hp => ?_
      have := hp _ (List.mem_singleton.mpr rfl)
      rw [writeSlice_part]
      cases p with
      | width => rfl
      | bit k =>
        simp only [Target.Covers, true_and] at this
        simp only
        rw [if_neg (by omega)]
  · simp only [hs, if_false, Bool.false_eq_true]
    split
    · exact .refl _ s
    · exact evolves_markDirty s i _ fun p hp =>
        absurd ⟨rfl, trivial⟩ (hp _ (List.mem_singleton.mpr rfl))

theorem applyAssign_evolves (s : CtxState) (a : IRAssignment) :
    Evolves (assignTargets m a) s (applyAssign m false s a) := by
  rw [applyAssign, assignTargets]
  cases m.sigIndex a.lhsSignalId with
  | none => exact .refl _ s
  | some i =>
    simp only [Bool.false_eq_true, if_false]
    exact (Evolves.raiseError s _).trans (writeNow_evolves _ a i _)

mutual

theorem exec_evolves : ∀ (stmt : IRStmt) (s : CtxState), stmtMemWrites stmt = [] →
    Evolves (stmtTargets m stmt) s (simExecStmt m false stmt s)
  | .null, s, _ => .refl _ s
  | .assignment a, s, _ => applyAssign_evolves s a
  | .ifStmt c t e f, s, h => by
      simp only [stmtMemWrites, List.append_eq_nil_iff] at h
      rw [simExecStmt, stmtTargets]
      have h0 := @Evolves.raiseError (stmtTargets m t ++ stmtTargets m e ++ stmtTargets m f)
        s (simEvalRaises m s c)
      cases simValIsTrue (simEvalExpr m s c) with
      | none => exact h0.trans (.raiseError _ _)
      | some b =>
        cases b with
        | true =>
          exact h0.trans ((exec_evolves t _ h.1.1).mono (by simp))
        | false =>
          have he := (execElif_evolves e (afterEval m s c) h.1.2).mono
            (show _ ⊆ stmtTargets m t ++ stmtTargets m e ++ stmtTargets m f by simp)
          simp only
          cases hx : execElifChain m false e (afterEval m s c) with
          | mk done s' =>
            rw [hx] at he
            cases done with
            | true => exact h0.trans he
            | false => exact (h0.trans he).trans ((exec_evolves f s' h.2).mono (by simp))
  | .select sel cases, s, h => by
      simp only [stmtMemWrites] at h
      rw [simExecStmt, stmtTargets]
      have h0 := @Evolves.raiseError (casesTargets m cases) s (simEvalRaises m s sel)
      split
      · exact h0.trans (.raiseError _ _)
      · exact h0.trans (execCases_evolves _ cases _ h)
  | .block stmts, s, h => by
      rw [simExecStmt, stmtTargets]
      exact execStmts_evolves stmts s h
  | .memWrite .., _, h => by simp [stmtMemWrites] at h

theorem execElif_evolves : ∀ (stmt : IRStmt) (s : CtxState), stmtMemWrites stmt = [] →
    Evolves (stmtTargets m stmt) s (execElifChain m false stmt s).2
  | .ifStmt c t e f, s, h => by
      simp only [stmtMemWrites, List.append_eq_nil_iff] at h
      rw [execElifChain, stmtTargets]
      have h0 := @Evolves.raiseError (stmtTargets m t ++ stmtTargets m e ++ stmtTargets m f)
        s (simEvalRaises m s c)
      cases simValIsTrue (simEvalExpr m s c) with
      | none => exact h0.trans (.raiseError _ _)
      | some b =>
        cases b with
        | true => exact h0.trans ((exec_evolves t _ h.1.1).mono (by simp))
        | false => exact h0.trans ((execElif_evolves e _ h.1.2).mono (by simp))
  | .null, s, _ | .assignment _, s, _ | .select .., s, _ | .block _, s, _ | .memWrite .., s, _ =>
      .refl _ s

theorem execCases_evolves (v : SimValue) : ∀ (cases : List (IRExpr × IRStmt)) (s : CtxState),
    casesMemWrites cases = [] → Evolves (casesTargets m cases) s (execCases m false v cases s)
  | [], s, _ => .refl _ s
  | (cv, body) :: rest, s, h => by
      simp only [casesMemWrites, List.append_eq_nil_iff] at h
      rw [execCases, casesTargets]
      have h0 := @Evolves.raiseError (stmtTargets m body ++ casesTargets m rest)
        s (simEvalRaises m s cv)
      split
      · exact (exec_evolves body s h.1).mono (by simp)
      · split
        · exact h0.trans ((exec_evolves body _ h.1).mono (by simp))
        · exact h0.trans ((execCases_evolves v rest _ h.2).mono (by simp))

theorem execStmts_evolves : ∀ (stmts : List IRStmt) (s : CtxState), stmtsMemWrites stmts = [] →
    Evolves (stmtsTargets m stmts) s (execStmts m false stmts s)
  | [], s, _ => .refl _ s
  | stmt :: rest, s, h => by
      simp only [stmtsMemWrites, List.append_eq_nil_iff] at h
      rw [execStmts, stmtsTargets]
      exact ((exec_evolves stmt s h.1).mono (by simp)).trans
        ((execStmts_evolves rest _ h.2).mono (by simp))

end

end

end JzHdl

import JzHdl.Ir.Syntax

/-! # Simulation state

The storage of one module instance, with the lookups by signal identifier and
memory name and the commit of staged writes.
-/

namespace JzHdl

structure SimSignalEntry where

  current : SimValue

  next : SimValue

  hasPending : Bool

/-- The mutable part of a simulation context. Signals are indexed as in the module's table. -/
structure CtxState where

  signals : ℕ → SimSignalEntry

  cells : ℕ → ℕ → SimValue

  runtimeError : Bool

  settleDirty : Bool

  sigDirty : ℕ → Bool

/-- The last index carrying the identifier, as the lookup map stores it. -/
def sigIndexFrom : List IRSignal → ℕ → ℕ → Option ℕ
  | [], _, _ => none
  | sig :: rest, base, id =>
    match sigIndexFrom rest (base + 1) id with
    | some i => some i
    | none => if sig.id = id then some base else none

namespace IRModule

def sigIndex (m : IRModule) (id : ℕ) : Option ℕ := sigIndexFrom m.signals 0 id

def signalOf (m : IRModule) (id : ℕ) : Option IRSignal :=
  (m.sigIndex id).bind fun i => m.signals[i]?

def memIndex (m : IRModule) (name : String) : Option ℕ :=
  m.memories.findIdx? fun mem => mem.name == name

/-- The memory with a name and its index. -/
def memOf (m : IRModule) (name : String) : Option (ℕ × IRMemory) :=
  (m.memIndex name).bind fun i => (m.memories[i]?).map fun mem => (i, mem)

end IRModule

namespace CtxState

variable (s : CtxState)

def setEntry (i : ℕ) (e : SimSignalEntry) : CtxState :=
  { s with signals := fun j => if j = i then e else s.signals j }

def setCurrent (i : ℕ) (v : SimValue) : CtxState :=
  s.setEntry i { s.signals i with current := v }

/-- Raise the dirty flag of a signal and of the context. -/
def markDirty (i : ℕ) : CtxState :=
  { s with settleDirty := true, sigDirty := fun j => if j = i then true else s.sigDirty j }

def raiseError (b : Bool) : CtxState := { s with runtimeError := s.runtimeError || b }

def setCell (m a : ℕ) (v : SimValue) : CtxState :=
  { s with cells := fun i j => if i = m ∧ j = a then v else s.cells i j }

end CtxState

/-- Commit one entry of the signal table. -/
def applyNbaAt (s : CtxState) (i : ℕ) : CtxState :=
  let e := s.signals i
  if e.hasPending then (s.setEntry i { e with current := e.next, hasPending := false }).markDirty i
  else s

/-- `sim_ctx_apply_nba` on one context. -/
def simCtxApplyNba (m : IRModule) (s : CtxState) : CtxState :=
  (List.range m.signals.length).foldl applyNbaAt s

/-- A table entry after a commit. -/
def SimSignalEntry.commit (e : SimSignalEntry) : SimSignalEntry :=
  if e.hasPending then { e with current := e.next, hasPending := false } else e

theorem applyNbaAt_signals (s : CtxState) (i j : ℕ) :
    (applyNbaAt s i).signals j = if j = i then (s.signals i).commit else s.signals j := by
  rw [applyNbaAt, SimSignalEntry.commit]
  by_cases hp : (s.signals i).hasPending = true
  · rw [if_pos hp, if_pos hp]; rfl
  · rw [if_neg hp, if_neg hp]
    split
    · rename_i h; rw [h]
    · rfl

theorem applyNbaAt_cells (s : CtxState) (i : ℕ) : (applyNbaAt s i).cells = s.cells := by
  rw [applyNbaAt]; split <;> rfl

theorem applyNbaAt_runtimeError (s : CtxState) (i : ℕ) :
    (applyNbaAt s i).runtimeError = s.runtimeError := by
  rw [applyNbaAt]; split <;> rfl

theorem applyNbaAt_sigDirty (s : CtxState) (i j : ℕ) :
    (applyNbaAt s i).sigDirty j = (s.sigDirty j || (decide (j = i) && (s.signals i).hasPending)) := by
  rw [applyNbaAt]
  by_cases hp : (s.signals i).hasPending = true
  · rw [if_pos hp]
    by_cases h : j = i <;> simp [CtxState.markDirty, CtxState.setEntry, h, hp]
  · simp [hp]

section

variable (m : IRModule) (s : CtxState)

theorem simCtxApplyNba_cells : (simCtxApplyNba m s).cells = s.cells := by
  rw [simCtxApplyNba]
  induction List.range m.signals.length generalizing s with
  | nil => rfl
  | cons i rest ih => rw [List.foldl_cons, ih, applyNbaAt_cells]

theorem applyNbaTo_signals (n j : ℕ) : ((List.range n).foldl applyNbaAt s).signals j =
    if j < n then (s.signals j).commit else s.signals j := by
  induction n with
  | zero => rfl
  | succ n ih =>
    rw [List.range_succ, List.foldl_append, List.foldl_cons, List.foldl_nil, applyNbaAt_signals]
    by_cases h : j = n
    · subst h
      rw [if_neg (by omega)] at ih
      rw [if_pos rfl, if_pos (by omega), ih]
    · rw [if_neg h, ih]
      congr 1; simp only [eq_iff_iff]; omega

theorem simCtxApplyNba_signals (j : ℕ) : (simCtxApplyNba m s).signals j =
    if j < m.signals.length then (s.signals j).commit else s.signals j :=
  applyNbaTo_signals s m.signals.length j

end

theorem sigIndexFrom_spec : ∀ {sigs : List IRSignal} {base id i : ℕ},
    sigIndexFrom sigs base id = some i → base ≤ i ∧ ∃ sig, sigs[i - base]? = some sig ∧ sig.id = id
  | sig :: rest, base, id, i, h => by
      rw [sigIndexFrom] at h
      cases hrec : sigIndexFrom rest (base + 1) id with
      | some j =>
        simp only [hrec, Option.some.injEq] at h
        subst h
        obtain ⟨hle, sig', hget, hid⟩ := sigIndexFrom_spec hrec
        refine ⟨by omega, sig', ?_, hid⟩
        rw [show j - base = (j - (base + 1)) + 1 by omega, List.getElem?_cons_succ]
        exact hget
      | none =>
        simp only [hrec] at h
        split at h
        · cases h
          exact ⟨le_rfl, sig, by simp, by assumption⟩
        · cases h

namespace IRModule

variable {m : IRModule} {a b i : ℕ}

theorem sigIndex_spec (h : m.sigIndex a = some i) : ∃ sig, m.signals[i]? = some sig ∧ sig.id = a :=
  (sigIndexFrom_spec h).2

theorem sigIndex_lt (h : m.sigIndex a = some i) : i < m.signals.length := by
  obtain ⟨sig, hget, _⟩ := sigIndex_spec h
  exact (List.getElem?_eq_some_iff.mp hget).1

theorem sigIndex_inj (ha : m.sigIndex a = some i) (hb : m.sigIndex b = some i) : a = b := by
  obtain ⟨sig, hget, rfl⟩ := sigIndex_spec ha
  obtain ⟨sig', hget', rfl⟩ := sigIndex_spec hb
  rw [hget] at hget'
  cases hget'
  rfl

end IRModule

end JzHdl

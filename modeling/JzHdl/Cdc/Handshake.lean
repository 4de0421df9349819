import JzHdl.Lib.EventRun

/-! # Request and acknowledge

The six control registers of the request and acknowledge crossing form a ring.
Their state is the phase of a single change that travels around the ring, and
every event moves it on by one register at most.
-/

namespace JzHdl

open EventRun

variable {α : Type*}

/-- The edges of an event, and the word at the input. -/
structure TransferEvent (α : Type*) where

  clkSrc : Bool

  clkDest : Bool

  dataIn : α

structure ReqAckControl where

  reqSrc : Bool

  reqSync1 : Bool

  reqSync2 : Bool

  ackDest : Bool

  ackSync1 : Bool

  ackSync2 : Bool
  deriving DecidableEq

/-- The registers of the handshake crossing. Those of the MCP crossing are the same with `en` for
`req`. -/
structure ReqAckRegs (α : Type*) where

  control : ReqAckControl

  srcData : α

namespace ReqAckControl

def zero : ReqAckControl := ⟨false, false, false, false, false, false⟩

/-- The source takes a new word. -/
def idle (c : ReqAckControl) : Bool := !c.reqSrc && !c.ackSync2

def stepSrc (c : ReqAckControl) : ReqAckControl :=
  { c with
    ackSync1 := c.ackDest
    ackSync2 := c.ackSync1
    reqSrc := if c.ackSync2 then false else if c.idle then true else c.reqSrc }

def stepDest (c : ReqAckControl) : ReqAckControl :=
  { c with
    reqSync1 := c.reqSrc
    reqSync2 := c.reqSync1
    ackDest := if !c.reqSync2 then false
      else if c.reqSync2 && !c.ackDest then true else c.ackDest }

/-- The registers of each domain are clocked from the state before the event. -/
def step (c : ReqAckControl) (clkSrc clkDest : Bool) : ReqAckControl :=
  let src := if clkSrc then c.stepSrc else c
  let dest := if clkDest then c.stepDest else c
  { reqSrc := src.reqSrc
    ackSync1 := src.ackSync1
    ackSync2 := src.ackSync2
    reqSync1 := dest.reqSync1
    reqSync2 := dest.reqSync2
    ackDest := dest.ackDest }

/-- The state in which the change has moved `p` registers on. -/
def ring (p : ℕ) : ReqAckControl :=
  { reqSrc := decide (1 ≤ p % 12 ∧ p % 12 ≤ 6)
    reqSync1 := decide (2 ≤ p % 12 ∧ p % 12 ≤ 7)
    reqSync2 := decide (3 ≤ p % 12 ∧ p % 12 ≤ 8)
    ackDest := decide (4 ≤ p % 12 ∧ p % 12 ≤ 9)
    ackSync1 := decide (5 ≤ p % 12 ∧ p % 12 ≤ 10)
    ackSync2 := decide (6 ≤ p % 12 ∧ p % 12 ≤ 11) }

/-- The change waits in front of a register of the source. -/
def srcMoves (p : ℕ) : Bool := p % 12 == 0 || (4 ≤ p % 12 && p % 12 ≤ 6) || 10 ≤ p % 12

def advance (clkSrc clkDest : Bool) (p : ℕ) : ℕ :=
  p + if (if srcMoves p then clkSrc else clkDest) then 1 else 0

theorem ring_mod (p : ℕ) : ring (p % 12) = ring p := by
  simp only [ring, Nat.mod_mod]

theorem srcMoves_mod (p : ℕ) : srcMoves (p % 12) = srcMoves p := by
  simp only [srcMoves, Nat.mod_mod]

theorem ring_step_lt : ∀ p < 12, ∀ clkSrc clkDest : Bool,
    (ring p).step clkSrc clkDest = ring (advance clkSrc clkDest p) := by
  decide +kernel

/-- An event moves the change on when it clocks the register in front of it. -/
theorem ring_step (p : ℕ) (clkSrc clkDest : Bool) :
    (ring p).step clkSrc clkDest = ring (advance clkSrc clkDest p) := by
  have hlt := ring_step_lt (p % 12) (Nat.mod_lt _ (by decide)) clkSrc clkDest
  rw [ring_mod, advance, srcMoves_mod] at hlt
  rw [hlt, advance, ← ring_mod, ← ring_mod (p + _), Nat.mod_add_mod]

end ReqAckControl

namespace ReqAckRegs

def start (word : α) : ReqAckRegs α := ⟨.zero, word⟩

def step (r : ReqAckRegs α) (e : TransferEvent α) : ReqAckRegs α :=
  { control := r.control.step e.clkSrc e.clkDest
    srcData := if e.clkSrc && r.control.idle then e.dataIn else r.srcData }

/-- The crossings show the captured word itself. -/
def dataOut (r : ReqAckRegs α) : α := r.srcData

/-- The registers start at 0 and take every event. -/
structure IsRun (zero : α) (es : ℕ → TransferEvent α) (regs : ℕ → ReqAckRegs α) : Prop where

  start : regs 0 = ReqAckRegs.start zero

  next : ∀ n, regs (n + 1) = (regs n).step (es n)

end ReqAckRegs

section

variable (es : ℕ → TransferEvent α) (regs : ℕ → ReqAckRegs α)

/-- The source captures a word at the event. -/
def Captures (n : ℕ) : Prop := (es n).clkSrc = true ∧ (regs n).control.idle = true

def AckRises (n : ℕ) : Prop :=
  (regs n).control.ackDest = false ∧ (regs (n + 1)).control.ackDest = true

def AckFalls (n : ℕ) : Prop :=
  (regs n).control.ackDest = true ∧ (regs (n + 1)).control.ackDest = false

/-- The source sees the acknowledge and takes the request back. -/
def Withdraws (n : ℕ) : Prop := (es n).clkSrc = true ∧ (regs n).control.ackSync2 = true ∧
  (regs n).control.reqSrc = true ∧ (regs (n + 1)).control.reqSrc = false

/-- Every captured word is transferred exactly once. -/
structure TransfersOnce : Prop where

  /-- The word stays until it is acknowledged and the request is withdrawn. -/
  held : ∀ i j, i < j → Captures es regs i → (regs (j + 1)).srcData ≠ (regs j).srcData →
    ∃ a b, i < a ∧ a < b ∧ b < j ∧ AckRises regs a ∧ Withdraws es regs b

  oneRise : ∀ i j, i < j → Captures es regs i → Captures es regs j →
    (∀ k, i < k → k < j → ¬ Captures es regs k) → ∃! k, i < k ∧ k < j ∧ AckRises regs k

  oneFall : ∀ i j, i < j → Captures es regs i → Captures es regs j →
    (∀ k, i < k → k < j → ¬ Captures es regs k) → ∃! k, i < k ∧ k < j ∧ AckFalls regs k

  /-- A capture finds nothing of the previous transfer. -/
  clean : ∀ n, Captures es regs n → (regs n).control = .zero

  /-- One of the clocks changes the protocol state. -/
  progress : ∀ n, (regs n).control.step true false ≠ (regs n).control ∨
    (regs n).control.step false true ≠ (regs n).control

/-- There is no destination edge between two events that have one. -/
def SuccessiveEdges (k k' : ℕ) : Prop := k < k' ∧ (es k).clkDest = true ∧
  (es k').clkDest = true ∧ ∀ i, k < i → i < k' → (es i).clkDest = false

/-- The word that the destination sees at its edges changes only when the synchronised request is 1
at one of the two edges or becomes 1 there. -/
def SyncedOutput : Prop := ∀ k k', SuccessiveEdges es k k' →
  (regs k').dataOut ≠ (regs k).dataOut →
    (regs k).control.reqSync2 = true ∨ (regs (k + 1)).control.reqSync2 = true ∨
      (regs (k' + 1)).control.reqSync2 = true

/-- A capture between two successive edges of the destination takes the word that is there. -/
def CapturesSame : Prop := ∀ k k' i, SuccessiveEdges es k k' → k ≤ i → i < k' →
  Captures es regs i → (es i).dataIn = (regs i).srcData

end

/-! ## Phases -/

open ReqAckControl

/-- How often the change has moved before an event. -/
def phase (es : ℕ → TransferEvent α) : ℕ → ℕ
  | 0 => 0
  | n + 1 => advance (es n).clkSrc (es n).clkDest (phase es n)

section

variable {zero : α} {es : ℕ → TransferEvent α} {regs : ℕ → ReqAckRegs α}

theorem phase_unit : UnitSteps (phase es) := fun n => by
  rw [phase, advance]
  cases (if srcMoves (phase es n) then (es n).clkSrc else (es n).clkDest)
  · exact .inl rfl
  · exact .inr rfl

theorem phase_mono {i j : ℕ} (h : i ≤ j) : phase es i ≤ phase es j := phase_unit.mono h

/-- A phase is left by an edge of the clock that it waits for. -/
theorem phase_left {k : ℕ} (h : phase es (k + 1) = phase es k + 1) :
    (if srcMoves (phase es k) then (es k).clkSrc else (es k).clkDest) = true := by
  by_contra hno
  rw [phase, advance, if_neg hno] at h
  omega

variable (hrun : ReqAckRegs.IsRun zero es regs)

include hrun

theorem control_eq : ∀ n, (regs n).control = ring (phase es n)
  | 0 => by rw [hrun.start]; rfl
  | n + 1 => by
      rw [hrun.next, ReqAckRegs.step, control_eq n, ring_step]
      rfl

theorem captures_iff (n : ℕ) :
    Captures es regs n ↔ (es n).clkSrc = true ∧ phase es n % 12 = 0 := by
  rw [Captures, control_eq hrun]
  refine and_congr_right fun _ => ?_
  have hlt := Nat.mod_lt (phase es n) (show 0 < 12 by decide)
  simp only [idle, ring, Bool.and_eq_true, Bool.not_eq_true', decide_eq_false_iff_not]
  omega

theorem capture_moves {n : ℕ} (h : Captures es regs n) :
    phase es (n + 1) = phase es n + 1 := by
  obtain ⟨hclk, hphase⟩ := (captures_iff hrun n).mp h
  have hsrc : srcMoves (phase es n) = true := by rw [← srcMoves_mod, hphase]; rfl
  rw [phase, advance, hsrc, if_pos rfl, if_pos hclk]

/-- The register before the given phase is left while the change passes it. -/
theorem ackRises_iff (n : ℕ) : AckRises regs n ↔
    phase es n % 12 = 3 ∧ phase es (n + 1) = phase es n + 1 := by
  have hlt := Nat.mod_lt (phase es n) (show 0 < 12 by decide)
  have hmod : (phase es n + 1) % 12 = (phase es n % 12 + 1) % 12 := (Nat.mod_add_mod ..).symm
  rw [AckRises, control_eq hrun, control_eq hrun]
  simp only [ring, decide_eq_false_iff_not, decide_eq_true_eq]
  rcases @phase_unit _ es n with heq | heq
  · rw [heq]; omega
  · rw [heq, hmod]; omega

theorem ackFalls_iff (n : ℕ) : AckFalls regs n ↔
    phase es n % 12 = 9 ∧ phase es (n + 1) = phase es n + 1 := by
  have hlt := Nat.mod_lt (phase es n) (show 0 < 12 by decide)
  have hmod : (phase es n + 1) % 12 = (phase es n % 12 + 1) % 12 := (Nat.mod_add_mod ..).symm
  rw [AckFalls, control_eq hrun, control_eq hrun]
  simp only [ring, decide_eq_false_iff_not, decide_eq_true_eq]
  rcases @phase_unit _ es n with heq | heq
  · rw [heq]; omega
  · rw [heq, hmod]; omega

theorem withdraws_of_phase {n : ℕ} (hphase : phase es n % 12 = 6)
    (hnext : phase es (n + 1) = phase es n + 1) : Withdraws es regs n := by
  have hclk := phase_left hnext
  have hsrc : srcMoves (phase es n) = true := by rw [← srcMoves_mod, hphase]; rfl
  rw [if_pos hsrc] at hclk
  refine ⟨hclk, ?_⟩
  rw [control_eq hrun, control_eq hrun, hnext]
  simp only [ring, decide_eq_false_iff_not, decide_eq_true_eq]
  omega

theorem srcData_changes {n : ℕ} (h : (regs (n + 1)).srcData ≠ (regs n).srcData) :
    Captures es regs n := by
  rw [hrun.next, ReqAckRegs.step] at h
  by_contra hno
  refine h (if_neg fun hc => hno ?_)
  simpa [Captures] using hc

/-- Between two captures the change goes once around the ring. -/
theorem phase_later {i j : ℕ} (hij : i < j) (hi : Captures es regs i) (hj : Captures es regs j) :
    phase es i + 12 ≤ phase es j := by
  have hstep := capture_moves hrun hi
  have hmono := @phase_mono _ es _ _ (show i + 1 ≤ j from hij)
  have h0 := ((captures_iff hrun i).mp hi).2
  have h0' := ((captures_iff hrun j).mp hj).2
  omega

theorem phase_consecutive {i j : ℕ} (hij : i < j) (hi : Captures es regs i)
    (hj : Captures es regs j) (hnone : ∀ k, i < k → k < j → ¬ Captures es regs k) :
    phase es j = phase es i + 12 := by
  have hstep := capture_moves hrun hi
  have hlater := phase_later hrun hij hi hj
  have h0 := ((captures_iff hrun i).mp hi).2
  have h0' := ((captures_iff hrun j).mp hj).2
  by_contra hne
  obtain ⟨k, hk, hkj, hphase, hnext⟩ := phase_unit.crosses
    (show phase es (i + 1) ≤ phase es i + 12 by omega) (show phase es i + 12 < phase es j by omega)
  have hclk := @phase_left _ es k (by omega)
  have hzero : phase es k % 12 = 0 := by omega
  rw [← srcMoves_mod, hzero] at hclk
  exact hnone k hk hkj ((captures_iff hrun k).mpr ⟨hclk, hzero⟩)

/-- One event between two consecutive captures leaves a given phase of the ring. -/
theorem once_between {i j : ℕ} (hij : i < j) (hi : Captures es regs i) (hj : Captures es regs j)
    (hnone : ∀ k, i < k → k < j → ¬ Captures es regs k) {v : ℕ} (hv : 0 < v) (hv12 : v < 12)
    {P : ℕ → Prop} (hP : ∀ k, P k ↔ phase es k % 12 = v ∧ phase es (k + 1) = phase es k + 1) :
    ∃! k, i < k ∧ k < j ∧ P k := by
  have hstep := capture_moves hrun hi
  have hlen := phase_consecutive hrun hij hi hj hnone
  have h0 := ((captures_iff hrun i).mp hi).2
  obtain ⟨k, hk, hkj, hphase, hnext⟩ := phase_unit.crosses
    (show phase es (i + 1) ≤ phase es i + v by omega) (show phase es i + v < phase es j by omega)
  refine ⟨k, ⟨hk, hkj, (hP k).mpr ⟨by omega, by omega⟩⟩, ?_⟩
  rintro k' ⟨hk', hkj', hPk'⟩
  obtain ⟨hmod, hnext'⟩ := (hP k').mp hPk'
  have hlow := @phase_mono _ es _ _ (show i + 1 ≤ k' from hk')
  have hhigh := @phase_mono _ es _ _ (show k' + 1 ≤ j from hkj')
  exact phase_unit.leaves_once (show phase es k' = phase es i + v by omega) hphase
    (by omega) hnext

theorem ReqAckRegs.IsRun.transfersOnce : TransfersOnce es regs := by
  refine ⟨fun i j hij hi hchange => ?_, fun i j hij hi hj hnone => ?_,
    fun i j hij hi hj hnone => ?_, fun n hn => ?_, fun n => ?_⟩
  · have hj := srcData_changes hrun hchange
    have hstep := capture_moves hrun hi
    have hlater := phase_later hrun hij hi hj
    have h0 := ((captures_iff hrun i).mp hi).2
    obtain ⟨a, ha, haj, hpa, hna⟩ := phase_unit.crosses
      (show phase es (i + 1) ≤ phase es i + 3 by omega)
      (show phase es i + 3 < phase es j by omega)
    obtain ⟨b, hb, hbj, hpb, hnb⟩ := phase_unit.crosses
      (show phase es (a + 1) ≤ phase es i + 6 by omega)
      (show phase es i + 6 < phase es j by omega)
    exact ⟨a, b, ha, hb, hbj, (ackRises_iff hrun a).mpr ⟨by omega, by omega⟩,
      withdraws_of_phase hrun (by omega) (by omega)⟩
  · exact once_between hrun hij hi hj hnone (by decide) (by decide) (ackRises_iff hrun)
  · exact once_between hrun hij hi hj hnone (by decide) (by decide) (ackFalls_iff hrun)
  · rw [control_eq hrun, ← ring_mod, ((captures_iff hrun n).mp hn).2]
    rfl
  · rw [control_eq hrun, ← ring_mod]
    have hall : ∀ p < 12, (ring p).step true false ≠ ring p ∨ (ring p).step false true ≠ ring p := by
      decide +kernel
    exact hall _ (Nat.mod_lt _ (by decide))

/-! ## The word at the output -/

/-- The request has not reached the destination when a word is captured between its edges. -/
theorem reqSync2_at_capture {k k' i : ℕ} (hedges : SuccessiveEdges es k k') (hki : k ≤ i)
    (hik : i < k') (hi : Captures es regs i) :
    (regs k).control.reqSync2 = false ∧ (regs (k + 1)).control.reqSync2 = false ∧
      (regs (k' + 1)).control.reqSync2 = false := by
  obtain ⟨hkk, hdest, hdest', hquiet⟩ := hedges
  have hzero : (regs i).control = .zero := hrun.transfersOnce.clean i hi
  have hstep : (regs (k + 1)).control = (regs k).control.step (es k).clkSrc true := by
    rw [hrun.next, ReqAckRegs.step, hdest]
  -- the destination is not clocked between the two edges
  have hkeep : ∀ n, k + 1 ≤ n → n ≤ k' →
      (regs n).control.reqSync1 = (regs (k + 1)).control.reqSync1 ∧
        (regs n).control.reqSync2 = (regs (k + 1)).control.reqSync2 ∧
          (regs n).control.ackDest = (regs (k + 1)).control.ackDest := by
    intro n hkn
    induction n, hkn using Nat.le_induction with
    | base => exact fun _ => ⟨rfl, rfl, rfl⟩
    | succ n hkn ih =>
      intro hni
      rw [hrun.next, ReqAckRegs.step, hquiet n (by omega) (by omega)]
      exact ih (by omega)
  have hlast : (regs (k' + 1)).control.reqSync2 = (regs (k + 1)).control.reqSync1 := by
    rw [hrun.next, ReqAckRegs.step, hdest', ← (hkeep k' hkk le_rfl).1]
    rfl
  rcases Nat.eq_or_lt_of_le hki with rfl | hlt
  · rw [hzero] at hstep
    rw [hlast, hstep, hzero]
    exact ⟨rfl, rfl, rfl⟩
  · obtain ⟨hreq1, hreq, hack⟩ := hkeep i hlt hik.le
    rw [hzero] at hreq1 hreq hack
    refine ⟨?_, hreq.symm, hlast.trans hreq1.symm⟩
    have hack' : (regs (k + 1)).control.ackDest = (regs k).control.reqSync2 := by
      rw [hstep]
      cases h1 : (regs k).control.reqSync2 <;> cases h2 : (regs k).control.ackDest <;>
        simp [ReqAckControl.step, stepDest, h1, h2]
    rw [← hack', ← hack]
    rfl

/-- The output changes between two edges exactly when a capture takes another word. -/
theorem dataOut_changes {k k' : ℕ} (hedges : SuccessiveEdges es k k') :
    (regs k').dataOut ≠ (regs k).dataOut ↔
      ∃ i, k ≤ i ∧ i < k' ∧ Captures es regs i ∧ (es i).dataIn ≠ (regs i).srcData := by
  have hquiet := hedges.2.2.2
  -- a second capture would need an edge of the destination in between
  have hone : ∀ i j, k ≤ i → i < j → j < k' → Captures es regs i → ¬ Captures es regs j := by
    intro i j hki hij hjk hi hj
    obtain ⟨a, ha, haj, hpa, hna⟩ := phase_unit.crosses
      (show phase es (i + 1) ≤ phase es i + 1 by
        have hstep := capture_moves hrun hi
        omega)
      (show phase es i + 1 < phase es j by
        have hlater := phase_later hrun hij hi hj
        omega)
    have h0 := ((captures_iff hrun i).mp hi).2
    have hclk := @phase_left _ es a (by omega)
    have hdest : srcMoves (phase es a) = false := by
      rw [← srcMoves_mod, show phase es a % 12 = 1 by omega]
      rfl
    rw [hdest, if_neg Bool.false_ne_true, hquiet a (by omega) (by omega)] at hclk
    cases hclk
  have hdata : ∀ n, k ≤ n → n ≤ k' → (∀ i, k ≤ i → i < n → ¬ Captures es regs i) →
      (regs n).srcData = (regs k).srcData := by
    intro n hkn
    induction n, hkn using Nat.le_induction with
    | base => exact fun _ _ => rfl
    | succ n hkn ih =>
      intro hnk hno
      rw [← ih (by omega) fun i hki hin => hno i hki (by omega)]
      by_contra hchange
      exact hno n hkn (by omega) (srcData_changes hrun hchange)
  have hafter : ∀ i, k ≤ i → Captures es regs i → ∀ n, i + 1 ≤ n → n ≤ k' →
      (regs n).srcData = (es i).dataIn := by
    intro i hki hi n hin
    induction n, hin using Nat.le_induction with
    | base =>
      intro _
      rw [hrun.next, ReqAckRegs.step, hi.1, hi.2]
      rfl
    | succ n hin ih =>
      intro hnk
      rw [← ih (by omega)]
      by_contra hchange
      exact hone i n hki (by omega) (by omega) hi (srcData_changes hrun hchange)
  constructor
  · intro hchange
    by_contra hno
    by_cases hcap : ∃ i, k ≤ i ∧ i < k' ∧ Captures es regs i
    · obtain ⟨i, hki, hik, hi⟩ := hcap
      have hsame : (es i).dataIn = (regs i).srcData := by
        by_contra hne
        exact hno ⟨i, hki, hik, hi, hne⟩
      refine hchange ?_
      rw [ReqAckRegs.dataOut, ReqAckRegs.dataOut, hafter i hki hi k' hik le_rfl, hsame]
      exact hdata i hki (by omega) fun j hkj hji hj => hone j i hkj hji hik hj hi
    · exact hchange (hdata k' hedges.1.le le_rfl fun i hki hik hi => hcap ⟨i, hki, hik, hi⟩)
  · rintro ⟨i, hki, hik, hi, hne⟩ hsame
    rw [ReqAckRegs.dataOut, ReqAckRegs.dataOut, hafter i hki hi k' hik le_rfl] at hsame
    refine hne (hsame.trans ?_)
    exact (hdata i hki (by omega) fun j hkj hji hj => hone j i hkj hji hik hj hi).symm

theorem ReqAckRegs.IsRun.synced_iff : SyncedOutput es regs ↔ CapturesSame es regs := by
  constructor
  · intro hsynced k k' i hedges hki hik hi
    by_contra hne
    obtain ⟨hbefore, hafter, hlast⟩ := reqSync2_at_capture hrun hedges hki hik hi
    rcases hsynced k k' hedges ((dataOut_changes hrun hedges).mpr ⟨i, hki, hik, hi, hne⟩)
      with h | h | h
    · rw [hbefore] at h; cases h
    · rw [hafter] at h; cases h
    · rw [hlast] at h; cases h
  · intro hsame k k' hedges hchange
    obtain ⟨i, hki, hik, hi, hne⟩ := (dataOut_changes hrun hedges).mp hchange
    exact absurd (hsame k k' i hedges hki hik hi) hne

end

end JzHdl

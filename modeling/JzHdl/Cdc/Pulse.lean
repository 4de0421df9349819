import JzHdl.Lib.EventRun

/-! # Pulse crossing

The source toggles a register at every pulse. The destination sees the toggle
through a chain of three registers and gives a pulse where the last two differ.
-/

namespace JzHdl

open EventRun

/-- The edges of an event, and the input that the source sees. -/
structure PulseEvent where

  clkSrc : Bool

  clkDest : Bool

  pulseIn : Bool

structure PulseRegs where

  toggleSrc : Bool

  toggleSync1 : Bool

  toggleSync2 : Bool

  toggleLast : Bool
  deriving DecidableEq

namespace PulseRegs

def zero : PulseRegs := ⟨false, false, false, false⟩

/-- All registers are clocked from the state before the event. -/
def step (r : PulseRegs) (e : PulseEvent) : PulseRegs :=
  { toggleSrc := if e.clkSrc && e.pulseIn then !r.toggleSrc else r.toggleSrc
    toggleSync1 := if e.clkDest then r.toggleSrc else r.toggleSync1
    toggleSync2 := if e.clkDest then r.toggleSync1 else r.toggleSync2
    toggleLast := if e.clkDest then r.toggleSync2 else r.toggleLast }

def pulseOut (r : PulseRegs) : Bool := r.toggleSync2 ^^ r.toggleLast

end PulseRegs

section

variable (es : ℕ → PulseEvent)

/-- The source launches a pulse at the event. -/
def Launches (n : ℕ) : Prop := (es n).clkSrc = true ∧ (es n).pulseIn = true

instance : DecidablePred (Launches es) := fun _ => inferInstanceAs (Decidable (_ ∧ _))

def destEdges (n : ℕ) : ℕ := Nat.count (fun k => (es k).clkDest = true) n

def pulsesIn (n : ℕ) : ℕ := Nat.count (Launches es) n

/-- The pulses before `n` that at least `j` later destination edges have seen. -/
def pulsesSeen (j n : ℕ) : ℕ :=
  Nat.count (fun i => Launches es i ∧ destEdges es (i + 1) + j ≤ destEdges es n) n

/-- The pulses launched within the last three destination edges before `n`. -/
def recentPulses (n : ℕ) : ℕ :=
  Nat.count (fun i => Launches es i ∧ destEdges es n < destEdges es (i + 1) + 3) n

variable (regs : ℕ → PulseRegs)

/-- The destination edges before `n` at which the output is 1. -/
def pulsesOut (n : ℕ) : ℕ :=
  Nat.count (fun k => (es k).clkDest = true ∧ (regs k).pulseOut = true) n

/-- Between two pulses lies an edge of the destination clock. -/
def Spaced : Prop :=
  ∀ i j, i < j → Launches es i → Launches es j → ∃ k, i < k ∧ k ≤ j ∧ (es k).clkDest = true

/-- No toggle is on its way. -/
def PulseRegs.Drained (r : PulseRegs) : Prop :=
  r.toggleSrc = r.toggleSync1 ∧ r.toggleSync1 = r.toggleSync2 ∧ r.toggleSync2 = r.toggleLast

/-- No pulse is lost or invented on the way to the destination. -/
structure PulsesCross : Prop where

  noInvention : ∀ n, pulsesOut es regs n ≤ pulsesIn es n

  parity : ∀ n, (regs n).Drained → pulsesOut es regs n % 2 = pulsesIn es n % 2

  recent : Spaced es → ∀ n, pulsesIn es n ≤ pulsesOut es regs n + recentPulses es n

  /-- The output is 1 at the third destination edge after a pulse and at no other one. -/
  once : Spaced es → ∀ k, (es k).clkDest = true → ((regs k).pulseOut = true ↔
    ∃ i < k, Launches es i ∧ destEdges es k = destEdges es (i + 1) + 2)

  inOrder : Spaced es → ∀ i j, i < j → Launches es i → Launches es j →
    destEdges es (i + 1) < destEdges es (j + 1)

/-- The registers start at 0 and take every event. -/
structure PulseRegs.IsRun : Prop where

  start : regs 0 = PulseRegs.zero

  next : ∀ n, regs (n + 1) = (regs n).step (es n)

end

section

variable {es : ℕ → PulseEvent}

theorem destEdges_succ (n : ℕ) :
    destEdges es (n + 1) = destEdges es n + if (es n).clkDest = true then 1 else 0 :=
  Nat.count_succ ..

theorem destEdges_mono : Monotone (destEdges es) := Nat.count_monotone _

theorem pulsesSeen_zero (n : ℕ) : pulsesSeen es 0 n = pulsesIn es n :=
  count_congr fun i hi =>
    ⟨And.left, fun h => ⟨h, destEdges_mono (show i + 1 ≤ n by omega)⟩⟩

/-- A destination edge moves every pulse on by one. -/
theorem pulsesSeen_succ (j n : ℕ) : pulsesSeen es (j + 1) (n + 1) =
    if (es n).clkDest = true then pulsesSeen es j n else pulsesSeen es (j + 1) n := by
  have hself : ¬ (Launches es n ∧ destEdges es (n + 1) + (j + 1) ≤ destEdges es (n + 1)) :=
    fun h => by omega
  rw [pulsesSeen, Nat.count_succ, if_neg hself, Nat.add_zero, destEdges_succ]
  split
  · exact count_congr fun i _ => and_congr_right fun _ => by omega
  · exact count_congr fun i _ => and_congr_right fun _ => by omega

theorem pulsesSeen_anti (j n : ℕ) : pulsesSeen es (j + 1) n ≤ pulsesSeen es j n :=
  count_le fun _ _ h => ⟨h.1, by omega⟩

theorem pulsesIn_succ (n : ℕ) :
    pulsesIn es (n + 1) = pulsesIn es n + if Launches es n then 1 else 0 :=
  Nat.count_succ ..

theorem Spaced.inOrder (h : Spaced es) {i j : ℕ} (hij : i < j) (hi : Launches es i)
    (hj : Launches es j) : destEdges es (i + 1) < destEdges es (j + 1) := by
  obtain ⟨k, hik, hkj, hdest⟩ := h i j hij hi hj
  have hfirst := @destEdges_mono es _ _ (show i + 1 ≤ k by omega)
  have hlast := @destEdges_mono es _ _ (show k + 1 ≤ j + 1 by omega)
  rw [destEdges_succ, if_pos hdest] at hlast
  omega

/-- With spaced pulses every stage lags behind by one pulse at most. -/
theorem Spaced.lag (h : Spaced es) : ∀ (n j : ℕ),
    pulsesSeen es j n ≤ pulsesSeen es (j + 1) n + 1
  | 0, _ => Nat.zero_le _
  | n + 1, j => by
      have ih := h.lag n
      rw [pulsesSeen_succ]
      cases j with
      | succ j =>
        rw [pulsesSeen_succ]
        split
        · exact ih j
        · exact ih (j + 1)
      | zero =>
        rw [pulsesSeen_zero, pulsesIn_succ, pulsesSeen_zero]
        by_cases hdest : (es n).clkDest = true
        · rw [if_pos hdest]
          split <;> omega
        · rw [if_neg hdest]
          by_cases hlaunch : Launches es n
          · -- an earlier pulse has a destination edge before this one
            have hseen : pulsesIn es n = pulsesSeen es 1 n :=
              count_congr fun i hi => ⟨fun hp => ⟨hp, by
                have horder := h.inOrder hi hp hlaunch
                rw [destEdges_succ n, if_neg hdest] at horder
                omega⟩, And.left⟩
            rw [if_pos hlaunch, hseen]
          · have hzero := ih 0
            rw [pulsesSeen_zero] at hzero
            rw [if_neg hlaunch]
            exact hzero

end

/-! ## Registers -/

section

variable {es : ℕ → PulseEvent} {regs : ℕ → PulseRegs}

/-- Every register has the parity of the pulses that have reached it. -/
structure PulseRegs.Inv (es : ℕ → PulseEvent) (r : PulseRegs) (n : ℕ) : Prop where

  src : r.toggleSrc = decide (pulsesSeen es 0 n % 2 = 1)

  sync1 : r.toggleSync1 = decide (pulsesSeen es 1 n % 2 = 1)

  sync2 : r.toggleSync2 = decide (pulsesSeen es 2 n % 2 = 1)

  last : r.toggleLast = decide (pulsesSeen es 3 n % 2 = 1)

theorem PulseRegs.Inv.step {r : PulseRegs} {n : ℕ} (h : r.Inv es n) :
    (r.step (es n)).Inv es (n + 1) := by
  obtain ⟨hsrc, h1, h2, h3⟩ := h
  refine ⟨?_, ?_, ?_, ?_⟩
  · rw [pulsesSeen_zero] at hsrc ⊢
    rw [PulseRegs.step, pulsesIn_succ]
    simp only [hsrc, Bool.and_eq_true]
    by_cases hlaunch : (es n).clkSrc = true ∧ (es n).pulseIn = true
    · rw [if_pos hlaunch, if_pos (show Launches es n from hlaunch), ← decide_not]
      exact decide_eq_decide.mpr (by omega)
    · rw [if_neg hlaunch, if_neg (show ¬ Launches es n from hlaunch), Nat.add_zero]
  all_goals
    rw [PulseRegs.step, pulsesSeen_succ]
    simp only [hsrc, h1, h2, h3]
    split <;> rfl

theorem PulseRegs.IsRun.inv (h : PulseRegs.IsRun es regs) : ∀ n, (regs n).Inv es n
  | 0 => by
      rw [h.start]
      exact ⟨rfl, rfl, rfl, rfl⟩
  | n + 1 => by
      rw [h.next]
      exact (h.inv n).step

theorem pulseOut_iff (h : PulseRegs.IsRun es regs) (n : ℕ) : (regs n).pulseOut = true ↔
    pulsesSeen es 2 n % 2 ≠ pulsesSeen es 3 n % 2 := by
  rw [PulseRegs.pulseOut, (h.inv n).sync2, (h.inv n).last, bne_iff_ne, ne_eq, decide_eq_decide]
  omega

theorem pulsesOut_succ (n : ℕ) : pulsesOut es regs (n + 1) = pulsesOut es regs n +
    if (es n).clkDest = true ∧ (regs n).pulseOut = true then 1 else 0 :=
  Nat.count_succ ..

/-- The outputs so far are some of the pulses that have left the chain, with the same parity. -/
theorem pulsesOut_bound (h : PulseRegs.IsRun es regs) : ∀ n,
    pulsesOut es regs n ≤ pulsesSeen es 3 n ∧ pulsesOut es regs n % 2 = pulsesSeen es 3 n % 2
  | 0 => ⟨Nat.zero_le _, rfl⟩
  | n + 1 => by
      obtain ⟨hle, hpar⟩ := pulsesOut_bound h n
      have hanti : pulsesSeen es 3 n ≤ pulsesSeen es 2 n := pulsesSeen_anti 2 n
      have hout := pulseOut_iff h n
      rw [pulsesOut_succ, pulsesSeen_succ]
      by_cases hdest : (es n).clkDest = true
      · by_cases hone : (regs n).pulseOut = true
        · rw [if_pos ⟨hdest, hone⟩, if_pos hdest]
          have hne := hout.mp hone
          omega
        · rw [if_neg fun hc => hone hc.2, if_pos hdest]
          have heq := not_not.mp (mt hout.mpr hone)
          omega
      · rw [if_neg fun hc => hdest hc.1, if_neg hdest]
        exact ⟨hle, hpar⟩

/-- Spaced pulses all come out. -/
theorem pulsesOut_spaced (h : PulseRegs.IsRun es regs) (hspaced : Spaced es) : ∀ n,
    pulsesOut es regs n = pulsesSeen es 3 n
  | 0 => rfl
  | n + 1 => by
      have ih := pulsesOut_spaced h hspaced n
      have hanti : pulsesSeen es 3 n ≤ pulsesSeen es 2 n := pulsesSeen_anti 2 n
      have hlag : pulsesSeen es 2 n ≤ pulsesSeen es 3 n + 1 := hspaced.lag n 2
      have hout := pulseOut_iff h n
      rw [pulsesOut_succ, pulsesSeen_succ, ih]
      by_cases hdest : (es n).clkDest = true
      · by_cases hone : (regs n).pulseOut = true
        · rw [if_pos ⟨hdest, hone⟩, if_pos hdest]
          have hne := hout.mp hone
          omega
        · rw [if_neg fun hc => hone hc.2, if_pos hdest]
          have heq := not_not.mp (mt hout.mpr hone)
          omega
      · rw [if_neg fun hc => hdest hc.1, if_neg hdest, Nat.add_zero]

theorem pulsesIn_eq_recent (n : ℕ) :
    pulsesIn es n = pulsesSeen es 3 n + recentPulses es n := by
  rw [pulsesIn, pulsesSeen, recentPulses, Nat.count_eq_card_filter_range,
    Nat.count_eq_card_filter_range, Nat.count_eq_card_filter_range,
    ← Finset.card_filter_add_card_filter_not
      (fun i => destEdges es (i + 1) + 3 ≤ destEdges es n), Finset.filter_filter,
    Finset.filter_filter]
  simp only [not_le]

theorem PulseRegs.IsRun.cross (h : PulseRegs.IsRun es regs) : PulsesCross es regs := by
  refine ⟨fun n => ?_, fun n hdrained => ?_, fun hspaced n => ?_, fun hspaced k hdest => ?_,
    fun hspaced i j hij hi hj => hspaced.inOrder hij hi hj⟩
  · have h0 : pulsesSeen es 1 n ≤ pulsesSeen es 0 n := pulsesSeen_anti 0 n
    have h1 : pulsesSeen es 2 n ≤ pulsesSeen es 1 n := pulsesSeen_anti 1 n
    have h2 : pulsesSeen es 3 n ≤ pulsesSeen es 2 n := pulsesSeen_anti 2 n
    rw [pulsesSeen_zero] at h0
    exact (pulsesOut_bound h n).1.trans (by omega)
  · obtain ⟨hsrc, h1, h2, h3⟩ := h.inv n
    obtain ⟨hd1, hd2, hd3⟩ := hdrained
    have hlast : decide (pulsesSeen es 0 n % 2 = 1) = decide (pulsesSeen es 3 n % 2 = 1) := by
      rw [← hsrc, ← h3, hd1, hd2, hd3]
    rw [(pulsesOut_bound h n).2, ← pulsesSeen_zero]
    have hiff := decide_eq_decide.mp hlast
    omega
  · rw [pulsesOut_spaced h hspaced, pulsesIn_eq_recent]
  · have hlag : pulsesSeen es 2 k ≤ pulsesSeen es 3 k + 1 := hspaced.lag k 2
    have hanti : pulsesSeen es 3 k ≤ pulsesSeen es 2 k := pulsesSeen_anti 2 k
    rw [pulseOut_iff h, show pulsesSeen es 2 k % 2 ≠ pulsesSeen es 3 k % 2 ↔
      pulsesSeen es 3 k < pulsesSeen es 2 k by omega, pulsesSeen, pulsesSeen,
      count_lt_iff fun i _ hi => ⟨hi.1, by omega⟩]
    refine exists_congr fun i => and_congr_right fun _ => ?_
    constructor
    · rintro ⟨⟨hlaunch, hle⟩, hnot⟩
      refine ⟨hlaunch, ?_⟩
      have hlt : ¬ destEdges es (i + 1) + 3 ≤ destEdges es k := fun hc => hnot ⟨hlaunch, hc⟩
      omega
    · rintro ⟨hlaunch, heq⟩
      exact ⟨⟨hlaunch, by omega⟩, fun hc => by omega⟩

end

end JzHdl

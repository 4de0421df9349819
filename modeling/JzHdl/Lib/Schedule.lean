import Mathlib.Data.Set.Card
import Mathlib.Order.Interval.Finset.Nat

/-! # Event schedules

Periodic timers drive a state. A run jumps from event to event up to its end
time, and makes one more event there when no timer is due. Splitting a run in
two keeps the result as long as this extra event leaves the state as it is.
-/

namespace Schedule

/-- A periodic timer. `fired` counts its events so far. -/
structure Timer where

  period : ℕ

  period_pos : 0 < period

  phase : ℕ

  next : ℕ

  fired : ℕ

namespace Timer

/-- A timer before its first event. -/
def start (period : ℕ) (h : 0 < period) (phase : ℕ) : Timer := ⟨period, h, phase, phase + period, 0⟩

def advance (t : ℕ) (c : Timer) : Timer :=
  if c.next = t then { c with next := c.next + c.period, fired := c.fired + 1 } else c

/-- The timer has fired at its times up to `T` and waits for the next one. -/
structure OnTime (T : ℕ) (c : Timer) : Prop where

  next_eq : c.next = c.phase + (c.fired + 1) * c.period

  future : T < c.next

  past : c.fired = 0 ∨ c.phase + c.fired * c.period ≤ T

theorem onTime_start (period : ℕ) (h : 0 < period) (phase : ℕ) :
    (start period h phase).OnTime 0 where
  next_eq := by simp [start]
  future := by simp only [start]; omega
  past := .inl rfl

theorem OnTime.advance {T t : ℕ} {c : Timer} (h : c.OnTime T) (hle : T ≤ t) (hnext : t ≤ c.next) :
    (c.advance t).OnTime t := by
  have hpos := c.period_pos
  unfold Timer.advance
  split
  · rename_i heq
    refine ⟨?_, ?_, .inr ?_⟩
    · simp only [h.next_eq, Nat.add_mul, Nat.one_mul]
      omega
    · simp only
      omega
    · simp only
      rw [← h.next_eq, heq]
  · rename_i hne
    exact ⟨h.next_eq, by omega, h.past.imp_right fun hp => hp.trans hle⟩

theorem OnTime.mem_iff {T : ℕ} {c : Timer} (h : c.OnTime T) (k : ℕ) :
    1 ≤ k ∧ c.phase + k * c.period ≤ T ↔ 1 ≤ k ∧ k ≤ c.fired := by
  have hnext := h.next_eq
  have hfuture := h.future
  refine and_congr_right fun hk => ⟨fun hle => ?_, fun hle => ?_⟩
  · by_contra hlt
    have hmul : (c.fired + 1) * c.period ≤ k * c.period := Nat.mul_le_mul_right _ (by omega)
    omega
  · have hmul : k * c.period ≤ c.fired * c.period := Nat.mul_le_mul_right _ hle
    rcases h.past with h0 | hpast
    · omega
    · omega

/-- The timer has fired once for each of its times. -/
theorem OnTime.fired_eq {T : ℕ} {c : Timer} (h : c.OnTime T) :
    c.fired = {k | 1 ≤ k ∧ c.phase + k * c.period ≤ T}.ncard := by
  have hset : {k | 1 ≤ k ∧ c.phase + k * c.period ≤ T} = ↑(Finset.Icc 1 c.fired) := by
    ext k
    rw [Set.mem_ofPred_eq, h.mem_iff k, Finset.coe_Icc, Set.mem_Icc]
  rw [hset, Set.ncard_coe_finset, Nat.card_Icc, Nat.add_sub_cancel]

end Timer

/-- A state driven by named timers. -/
structure Timed (α σ : Type*) where

  timers : List (α × Timer)

  time : ℕ

  state : σ

variable {α σ : Type*}

/-- The time of the next event, at most `stop`. -/
def nextEvent (stop : ℕ) (timers : List (α × Timer)) : ℕ :=
  timers.foldl (fun t c => if c.2.next < t then c.2.next else t) stop

def dueAt (t : ℕ) (timers : List (α × Timer)) : List α :=
  (timers.filter fun c => c.2.next = t).map Prod.fst

section

variable (event : List α → σ → σ) (halted : σ → Bool)

def step (stop : ℕ) (S : Timed α σ) : Timed α σ :=
  let t := nextEvent stop S.timers
  { timers := S.timers.map fun c => (c.1, c.2.advance t)
    time := t
    state := event (dueAt t S.timers) S.state }

def loop : ℕ → ℕ → Timed α σ → Timed α σ
  | 0, _, S => S
  | fuel + 1, stop, S =>
    if S.time < stop ∧ halted S.state = false then loop fuel stop (step event stop S) else S

/-- A run makes at most one event for each unit of time. -/
def runFor (d : ℕ) (S : Timed α σ) : Timed α σ := loop event halted d (S.time + d) S

/-- An event at the end of the run, if no timer is due there, leaves the state as it is. -/
def QuietEnd : ℕ → ℕ → Timed α σ → Prop
  | 0, _, _ => True
  | fuel + 1, stop, S => S.time < stop ∧ halted S.state = false →
    ((∀ c ∈ S.timers, stop < c.2.next) → event [] S.state = S.state) ∧
      QuietEnd fuel stop (step event stop S)

end

/-! ## The next event -/

theorem nextEvent_le_stop (stop : ℕ) (timers : List (α × Timer)) :
    nextEvent stop timers ≤ stop := by
  induction timers generalizing stop with
  | nil => exact Nat.le_refl _
  | cons c rest ih =>
    refine (ih _).trans ?_
    dsimp only
    split <;> omega

theorem nextEvent_le_next {stop : ℕ} {timers : List (α × Timer)} {c : α × Timer}
    (h : c ∈ timers) : nextEvent stop timers ≤ c.2.next := by
  induction timers generalizing stop with
  | nil => cases h
  | cons c' rest ih =>
    rcases List.mem_cons.mp h with rfl | h
    · refine (nextEvent_le_stop _ rest).trans ?_
      dsimp only
      split <;> omega
    · exact ih h

theorem nextEvent_eq (stop : ℕ) (timers : List (α × Timer)) :
    nextEvent stop timers = stop ∨ ∃ c ∈ timers, c.2.next = nextEvent stop timers := by
  induction timers generalizing stop with
  | nil => exact .inl rfl
  | cons c rest ih =>
    rcases ih (if c.2.next < stop then c.2.next else stop) with heq | ⟨c', hmem, heq⟩
    · by_cases hlt : c.2.next < stop
      · rw [if_pos hlt] at heq
        exact .inr ⟨c, List.mem_cons_self, by rw [nextEvent, List.foldl_cons, if_pos hlt]; exact heq.symm⟩
      · rw [if_neg hlt] at heq
        exact .inl (by rw [nextEvent, List.foldl_cons, if_neg hlt]; exact heq)
    · exact .inr ⟨c', List.mem_cons_of_mem _ hmem, heq⟩

theorem lt_nextEvent {T stop : ℕ} {timers : List (α × Timer)} (hstop : T < stop)
    (h : ∀ c ∈ timers, T < c.2.next) : T < nextEvent stop timers := by
  rcases nextEvent_eq stop timers with heq | ⟨c, hmem, heq⟩
  · omega
  · have := h c hmem
    omega

/-- Up to a due timer, the end of the run does not matter. -/
theorem nextEvent_stop {mid stop : ℕ} {timers : List (α × Timer)} (hle : mid ≤ stop)
    (h : ∃ c ∈ timers, c.2.next ≤ mid) : nextEvent mid timers = nextEvent stop timers := by
  obtain ⟨c, hmem, hc⟩ := h
  have h1 : nextEvent mid timers ≤ c.2.next := nextEvent_le_next hmem
  have h2 : nextEvent stop timers ≤ c.2.next := nextEvent_le_next hmem
  have h3 := nextEvent_le_stop mid timers
  apply Nat.le_antisymm
  · rcases nextEvent_eq stop timers with heq | ⟨c', hmem', heq⟩
    · omega
    · exact heq ▸ nextEvent_le_next hmem'
  · rcases nextEvent_eq mid timers with heq | ⟨c', hmem', heq⟩
    · omega
    · exact heq ▸ nextEvent_le_next hmem'

/-! ## Runs -/

variable {E : List α → σ → σ} {H : σ → Bool}

/-- Every timer has fired at its times so far. -/
def Punctual (S : Timed α σ) : Prop := ∀ c ∈ S.timers, c.2.OnTime S.time

theorem Punctual.lt_step {S : Timed α σ} (h : Punctual S) {stop : ℕ} (hlt : S.time < stop) :
    S.time < (step E stop S).time :=
  lt_nextEvent hlt fun c hc => (h c hc).future

theorem Punctual.after_step {S : Timed α σ} (h : Punctual S) {stop : ℕ} (hlt : S.time < stop) :
    Punctual (step E stop S) := by
  intro c hc
  obtain ⟨c', hmem, rfl⟩ := List.mem_map.mp hc
  exact (h c' hmem).advance (h.lt_step (E := E) hlt).le (nextEvent_le_next hmem)

theorem Punctual.after_loop : ∀ (fuel stop : ℕ) {S : Timed α σ}, Punctual S →
    Punctual (loop E H fuel stop S)
  | 0, _, _, h => h
  | fuel + 1, stop, S, h => by
    unfold loop
    split
    · rename_i hrun
      exact Punctual.after_loop fuel stop (h.after_step hrun.1)
    · exact h

theorem loop_stopped {S : Timed α σ} {stop : ℕ} (h : ¬ (S.time < stop ∧ H S.state = false))
    (fuel : ℕ) : loop E H fuel stop S = S := by
  cases fuel with
  | zero => rfl
  | succ fuel => exact if_neg h

theorem loop_running {S : Timed α σ} {stop : ℕ} (h : S.time < stop ∧ H S.state = false)
    {fuel : ℕ} (hfuel : stop - S.time ≤ fuel) :
    loop E H fuel stop S = loop E H (fuel - 1) stop (step E stop S) := by
  obtain ⟨fuel, rfl⟩ : ∃ n, fuel = n + 1 := ⟨fuel - 1, by omega⟩
  exact if_pos h

/-- Once there is enough fuel, more of it changes nothing. -/
theorem Punctual.loop_fuel : ∀ (f g : ℕ) {stop : ℕ} {S : Timed α σ}, Punctual S →
    stop - S.time ≤ f → stop - S.time ≤ g →
    loop E H f stop S = loop E H g stop S
  | 0, g, stop, S, h, hf, _ => by
    rw [loop_stopped (by omega), loop_stopped (by omega)]
  | f + 1, g, stop, S, h, hf, hg => by
    by_cases hrun : S.time < stop ∧ H S.state = false
    · have hlt := h.lt_step (E := E) hrun.1
      rw [loop_running hrun hf, loop_running hrun hg, Nat.add_sub_cancel]
      exact (h.after_step hrun.1).loop_fuel f (g - 1) (by omega) (by omega)
    · rw [loop_stopped hrun, loop_stopped hrun]

/-- A run reaches its end unless the state halts it. -/
theorem Punctual.loop_done : ∀ (fuel : ℕ) {stop : ℕ} {S : Timed α σ}, Punctual S →
    S.time ≤ stop → stop - S.time ≤ fuel →
    (loop E H fuel stop S).time = stop ∨
      H (loop E H fuel stop S).state = true
  | 0, stop, S, _, hle, hf => .inl (by rw [loop_stopped (by omega)]; omega)
  | fuel + 1, stop, S, h, hle, hf => by
    by_cases hrun : S.time < stop ∧ H S.state = false
    · have hlt := h.lt_step (E := E) hrun.1
      rw [loop_running hrun hf, Nat.add_sub_cancel]
      exact (h.after_step hrun.1).loop_done fuel (nextEvent_le_stop _ _) (by omega)
    · rw [loop_stopped hrun]
      by_cases hlt : S.time < stop
      · exact .inr (by simpa [hlt] using hrun)
      · exact .inl (by omega)

/-- Without a due timer the event at the end only moves the time. -/
theorem step_quiet {S : Timed α σ} {stop : ℕ} (hnone : ∀ c ∈ S.timers, stop < c.2.next)
    (hquiet : E [] S.state = S.state) : step E stop S = { S with time := stop } := by
  have ht : nextEvent stop S.timers = stop := by
    rcases nextEvent_eq stop S.timers with heq | ⟨c, hmem, heq⟩
    · exact heq
    · have := hnone c hmem
      have := nextEvent_le_stop stop S.timers
      omega
  have hdue : dueAt stop S.timers = [] := by
    have hfilter : (S.timers.filter fun c => c.2.next = stop) = [] :=
      List.filter_eq_nil_iff.mpr fun c hc => by have := hnone c hc; simp; omega
    rw [dueAt, hfilter, List.map_nil]
  have hmap : (S.timers.map fun c => (c.1, c.2.advance stop)) = S.timers := by
    refine (List.map_congr_left fun c hc => ?_).trans (List.map_id _)
    have hne : c.2.next ≠ stop := by have := hnone c hc; omega
    rw [Timer.advance, if_neg hne]
    rfl
  unfold step
  simp only [ht, hdue, hmap, hquiet]

/-- A run in two parts is the run as a whole. -/
theorem Punctual.loop_split : ∀ (f₁ : ℕ) {f₂ f mid stop : ℕ} {S : Timed α σ}, Punctual S →
    mid < stop → QuietEnd E H f₁ mid S → mid - S.time ≤ f₁ → stop - S.time ≤ f →
    stop - (loop E H f₁ mid S).time ≤ f₂ →
    loop E H f₂ stop (loop E H f₁ mid S) =
      loop E H f stop S
  | 0, f₂, f, mid, stop, S, h, _, _, _, hf, hf₂ => h.loop_fuel f₂ f hf₂ hf
  | f₁ + 1, f₂, f, mid, stop, S, h, hms, hquiet, hf₁, hf, hf₂ => by
    by_cases hrun : S.time < mid ∧ H S.state = false
    · have hstop : S.time < stop ∧ H S.state = false := ⟨by omega, hrun.2⟩
      have hlt := h.lt_step (E := E) hrun.1
      obtain ⟨hend, hrest⟩ := hquiet hrun
      rw [loop_running hrun hf₁, Nat.add_sub_cancel] at hf₂ ⊢
      by_cases hdue : ∃ c ∈ S.timers, c.2.next ≤ mid
      · -- both runs make the same event
        have hstep : step E mid S = step E stop S := by
          unfold step
          rw [nextEvent_stop hms.le hdue]
        have hlt' : S.time < (step E stop S).time := hstep ▸ hlt
        rw [loop_running hstop hf, ← hstep]
        exact (h.after_step hrun.1).loop_split f₁ hms hrest (by omega)
          (by rw [hstep]; omega) hf₂
      · -- the first run makes its extra event
        have hnone : ∀ c ∈ S.timers, mid < c.2.next := fun c hc =>
          Nat.lt_of_not_le fun hle => hdue ⟨c, hc, hle⟩
        have hmid : step E mid S = { S with time := mid } := step_quiet hnone (hend hnone)
        have hpunct := h.after_step (E := E) hrun.1
        rw [hmid] at hpunct hf₂ ⊢
        have hend' : loop E H f₁ mid { S with time := mid } = { S with time := mid } :=
          loop_stopped (fun hr => Nat.lt_irrefl mid hr.1) f₁
        rw [hend'] at hf₂ ⊢
        have hrun' : ({ S with time := mid } : Timed α σ).time < stop ∧
            H ({ S with time := mid } : Timed α σ).state = false := ⟨hms, hrun.2⟩
        have hnext := h.lt_step (E := E) hstop.1
        have hnext' := hpunct.lt_step (E := E) hms
        rw [loop_running hrun' hf₂, loop_running hstop hf]
        simp only at hf₂
        exact (h.after_step hstop.1).loop_fuel (f₂ - 1) (f - 1) (by
          have : mid < (step E stop S).time := hnext'
          omega) (by omega)
    · rw [loop_stopped hrun] at hf₂ ⊢
      exact h.loop_fuel f₂ f hf₂ hf

/-- Splitting a run keeps its result when the extra event at the split is quiet. -/
theorem Punctual.runFor_add {S : Timed α σ} (h : Punctual S) {d₁ d₂ : ℕ}
    (hq : d₂ = 0 ∨ QuietEnd E H d₁ (S.time + d₁) S) :
    runFor E H d₂ (runFor E H d₁ S) = runFor E H (d₁ + d₂) S := by
  rcases Nat.eq_zero_or_pos d₂ with rfl | hpos
  · rfl
  have hquiet := hq.resolve_left (by omega)
  have hdone := h.loop_done (E := E) (H := H) d₁
    (show S.time ≤ S.time + d₁ by omega) (by omega)
  have hpunct := h.after_loop (E := E) (H := H) d₁ (S.time + d₁)
  have hsplit : ∀ f₂, S.time + (d₁ + d₂) - (loop E H d₁ (S.time + d₁) S).time ≤ f₂ →
      loop E H f₂ (S.time + (d₁ + d₂)) (loop E H d₁ (S.time + d₁) S) =
        loop E H (d₁ + d₂) (S.time + (d₁ + d₂)) S := fun f₂ hf₂ =>
    h.loop_split d₁ (by omega) hquiet (by omega) (by omega) hf₂
  unfold runFor
  rcases hdone with htime | hhalt
  · rw [← hsplit d₂ (by omega)]
    congr 1
    omega
  · have hstopped : ∀ stop f, loop E H f stop (loop E H d₁ (S.time + d₁) S) =
        loop E H d₁ (S.time + d₁) S := fun stop f => loop_stopped (by simp [hhalt]) f
    rw [← hsplit _ (Nat.le_refl _), hstopped, hstopped]

theorem Punctual.runFor {S : Timed α σ} (h : Punctual S) (d : ℕ) :
    Punctual (runFor E H d S) := h.after_loop _ _

/-! ## What a run keeps of a timer -/

/-- The name, period and phase of each timer. -/
def settings (S : Timed α σ) : List (α × ℕ × ℕ) :=
  S.timers.map fun c => (c.1, c.2.period, c.2.phase)

theorem settings_step (stop : ℕ) (S : Timed α σ) : settings (step E stop S) = settings S := by
  unfold settings step
  rw [List.map_map]
  refine List.map_congr_left fun c _ => ?_
  simp only [Function.comp, Timer.advance]
  split <;> rfl

theorem settings_loop : ∀ (fuel stop : ℕ) (S : Timed α σ),
    settings (loop E H fuel stop S) = settings S
  | 0, _, _ => rfl
  | fuel + 1, stop, S => by
    unfold loop
    split
    · rw [settings_loop fuel stop, settings_step]
    · rfl

end Schedule

import JzHdl.Lib.Schedule
import JzHdl.Sim.Testbench

/-! # Timed runs

A `@run` jumps from clock toggle to clock toggle and ends with one more event
when no clock toggles at its end time. Clocks without jitter or drift are
periodic timers.
-/

namespace JzHdl

open BitWords Schedule

/-- A simulation clock: its wire, if it is found, its half period and its phase. -/
structure SimClock where

  tbWireIdx : Option ℕ

  togglePs : ℕ

  toggle_pos : 0 < togglePs

  phasePs : ℕ

def SimClock.timer (c : SimClock) : Timer := .start c.togglePs c.toggle_pos c.phasePs

/-- The state of a simulation: its clocks, the current time and the testbench. -/
abbrev SimRun (h : Hierarchy) := Timed (Option ℕ) (SimTestState h)

inductive SimCommand (h : Hierarchy) where

  | update (assigns : List (WireAssign h))

  | run (durationPs : ℕ)

section

variable {h : Hierarchy} (tb : Testbench)

/-- One event of a run: the clocks of the given wires toggle together. -/
def simRunEvent (toggled : List (Option ℕ)) (ts : SimTestState h) : SimTestState h :=
  let wires := toggled.filterMap id
  let ts₁ := wires.foldl toggleWire ts
  let ts₂ := resolveInouts tb (simSettleChecked (simPropagateInputs tb ts₁))
  let edges := wires.map fun wi => (clockPortId tb wi, (ts₂.wires wi).val.bit 0)
  let ts₃ := { ts₂ with dut := (simClockEvent h edges false ts₂.dut).1 }
  simPropagateOutputs tb (resolveInouts tb (simSettleChecked ts₃))

/-- A runtime error skips the rest of the simulation. -/
def simCommand (S : SimRun h) (cmd : SimCommand h) : SimRun h :=
  if S.state.runtimeError then S
  else match cmd with
    | .update assigns => { S with state := simFullSettle tb (processSetupUpdate tb assigns S.state) }
    | .run durationPs => runFor (simRunEvent tb) SimTestState.runtimeError durationPs S

def simStart (clocks : List SimClock) (init : SimTestState h) : SimRun h :=
  { timers := clocks.map fun c => (c.tbWireIdx, c.timer), time := 0, state := init }

def simRunSimulation (clocks : List SimClock) (init : SimTestState h)
    (cmds : List (SimCommand h)) : SimRun h :=
  cmds.foldl (simCommand tb) (simStart clocks init)

end

section

variable {h : Hierarchy} {tb : Testbench} {clocks : List SimClock} {init : SimTestState h}

/-- The number of toggles of a clock up to a time. -/
noncomputable def SimClock.togglesUpTo (c : SimClock) (T : ℕ) : ℕ :=
  {k | 1 ≤ k ∧ c.phasePs + k * c.togglePs ≤ T}.ncard

/-- Every clock is on time and keeps its half period and phase. -/
structure Scheduled (clocks : List SimClock) (S : SimRun h) : Prop where

  punctual : Punctual S

  settings_eq : settings S = clocks.map fun c => (c.tbWireIdx, c.togglePs, c.phasePs)

theorem simStart_scheduled : Scheduled clocks (simStart clocks init) where
  punctual c hc := by
    obtain ⟨c', _, rfl⟩ := List.mem_map.mp hc
    exact Timer.onTime_start _ _ _
  settings_eq := by
    simp only [settings, simStart, List.map_map]
    rfl

theorem Scheduled.simCommand {S : SimRun h} (hS : Scheduled clocks S) (cmd : SimCommand h) :
    Scheduled clocks (simCommand tb S cmd) := by
  unfold JzHdl.simCommand
  split
  · exact hS
  · cases cmd with
    | update assigns => exact ⟨hS.punctual, hS.settings_eq⟩
    | run durationPs =>
      exact ⟨hS.punctual.runFor durationPs, (settings_loop _ _ S).trans hS.settings_eq⟩

theorem simRunSimulation_scheduled (cmds : List (SimCommand h)) :
    Scheduled clocks (simRunSimulation tb clocks init cmds) := by
  unfold simRunSimulation
  induction cmds using List.reverseRecOn with
  | nil => exact simStart_scheduled
  | append_singleton cmds cmd ih =>
    rw [List.foldl_append]
    exact ih.simCommand cmd

/-- Each clock has toggled once for each of its toggle times up to the current one. -/
theorem Scheduled.toggles {S : SimRun h} (hS : Scheduled clocks S) {i : ℕ} {c : SimClock}
    (hc : clocks[i]? = some c) : ∃ t, S.timers[i]? = some (c.tbWireIdx, t) ∧
      t.fired = c.togglesUpTo S.time := by
  have hset := congrArg (fun l => l[i]?) hS.settings_eq
  simp only [settings, List.getElem?_map, hc, Option.map_some] at hset
  obtain ⟨⟨wi, t⟩, ht, heq⟩ := Option.map_eq_some_iff.mp hset
  simp only [Prod.mk.injEq] at heq
  obtain ⟨rfl, hperiod, hphase⟩ := heq
  refine ⟨t, ht, ?_⟩
  have hfired := (hS.punctual _ (List.mem_of_getElem? ht)).fired_eq
  rw [hperiod, hphase] at hfired
  exact hfired

theorem simCommand_run_run {S : SimRun h} (hS : Scheduled clocks S) {d₁ d₂ : ℕ}
    (hq : d₂ = 0 ∨ QuietEnd (simRunEvent tb) SimTestState.runtimeError d₁ (S.time + d₁) S) :
    simCommand tb (simCommand tb S (.run d₁)) (.run d₂) = simCommand tb S (.run (d₁ + d₂)) := by
  have hadd := hS.punctual.runFor_add hq
  unfold simCommand
  by_cases herr : S.state.runtimeError = true
  · simp only [if_pos herr]
  · simp only [if_neg herr]
    rw [← hadd]
    split
    · rename_i hhalt
      exact (loop_stopped (by simp [hhalt]) _).symm
    · rfl

/-- A run ends at its end time unless the simulation stops with an error. -/
theorem Scheduled.run_done {S : SimRun h} (hS : Scheduled clocks S) (d : ℕ) :
    (JzHdl.simCommand tb S (.run d)).time = S.time + d ∨
      (JzHdl.simCommand tb S (.run d)).state.runtimeError = true := by
  unfold JzHdl.simCommand
  split
  · exact .inr ‹_›
  · exact hS.punctual.loop_done d (Nat.le_add_right _ _) (by omega)

end

namespace LoopbackExample

def copy (dst src : ℕ) : IRStmt := .assignment ⟨dst, .signalRef src 1, .receive, false, 0, 0⟩

/-- Four inputs, each copied to an output. -/
def design : Hierarchy :=
  .node
    { signals := [⟨0, .port .portIn, 1⟩, ⟨1, .port .portIn, 1⟩, ⟨2, .port .portIn, 1⟩,
        ⟨3, .port .portIn, 1⟩, ⟨4, .port .portOut, 1⟩, ⟨5, .port .portOut, 1⟩,
        ⟨6, .port .portOut, 1⟩, ⟨7, .port .portOut, 1⟩]
      memories := []
      clockDomains := []
      asyncBlock := .block [copy 4 0, copy 5 1, copy 6 2, copy 7 3] } .nil

/-- The testbench feeds each output back to the next input. -/
def bench : Testbench where
  bindings := [⟨0, 0⟩, ⟨1, 4⟩, ⟨1, 1⟩, ⟨2, 5⟩, ⟨2, 2⟩, ⟨3, 6⟩, ⟨3, 3⟩, ⟨4, 7⟩]
  wireWidth _ := 1

def zeros : SimTestState design where
  dut := ({ signals := fun _ => ⟨simValZero 1, simValZero 1, false⟩
            cells := fun _ _ => simValZero 1
            runtimeError := false
            settleDirty := false
            sigDirty := fun _ => true }, ())
  wires _ := simValZero 1
  runtimeError := false

def drive : SimCommand design := .update [(0, fun _ => simValOnes 1)]

def clock : SimClock := ⟨some 5, 5, by decide, 0⟩

end LoopbackExample

end JzHdl

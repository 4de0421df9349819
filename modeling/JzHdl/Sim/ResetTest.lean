import JzHdl.Sim.ResetSeen

/-! # Resets in a test

A test sets and updates wires and advances clocks. A domain resets only when an
edge of its clock fires it, so its registers hold their reset values as long as
the last firing saw the reset.
-/

namespace JzHdl

open BitWords

/-! ## Steps of a test -/

/-- A `@setup` or `@update`, or a `@clock` with its wire, if it is found, and its cycles. -/
inductive TestStep (h : Hierarchy) where

  | update (assigns : List (WireAssign h))

  | clock (wire : Option ℕ) (cycles : ℕ)

section

variable {h : Hierarchy} (tb : Testbench)

/-- Toggle a clock wire and settle the design before the edge. -/
def simClockSettle (wi : ℕ) (ts : SimTestState h) : SimTestState h :=
  resolveInouts tb (simSettleChecked (simPropagateInputs tb (toggleWire ts wi)))

/-- The new level of a toggled wire. -/
def SimTestState.level (ts : SimTestState h) (wi : ℕ) : Bool := (ts.wires wi).val.bit 0

/-- One iteration of `sim_clock_advance`; each fired domain is committed by itself. -/
def simClockToggle (wi : ℕ) (ts : SimTestState h) : SimTestState h :=
  let ts₁ := simClockSettle tb wi ts
  let ts₂ := { ts₁ with
    dut := (simFireDomainsForClock h (clockPortId tb wi) (ts₁.level wi) true ts₁.dut).1 }
  simPropagateOutputs tb (resolveInouts tb (simSettleChecked ts₂))

def simClockAdvance (wire : Option ℕ) (cycles : ℕ) (ts : SimTestState h) : SimTestState h :=
  match wire with
  | none => ts
  | some wi => (simClockToggle tb wi)^[2 * cycles] ts

def propagateCtxRuntimeError (ts : SimTestState h) : SimTestState h :=
  { ts with runtimeError := ts.runtimeError || ts.dut.state.runtimeError }

/-- A runtime error aborts the test. A `@clock` advances by one cycle at least. -/
def simTestStep (ts : SimTestState h) (step : TestStep h) : SimTestState h :=
  if ts.runtimeError then ts
  else match step with
    | .update assigns => processSetupUpdate tb assigns ts
    | .clock wire cycles => propagateCtxRuntimeError (simClockAdvance tb wire (max cycles 1) ts)

def simTest (init : SimTestState h) (steps : List (TestStep h)) : SimTestState h :=
  steps.foldl (simTestStep tb) (simFullSettle tb init)

end

/-! ## A domain of the tree -/

mutual

/-- The module and the state at an instance path. -/
def stateAt : (h : Hierarchy) → List ℕ → SimContext h → Option (IRModule × CtxState)
  | .node m _, [], (s, _) => some (m, s)
  | .node _ children, k :: path, (_, kids) => kidStateAt children k path kids

def kidStateAt : (c : Instances) → ℕ → List ℕ → SimChildren c → Option (IRModule × CtxState)
  | .nil, _, _, _ => none
  | .cons _ child _, 0, path, (ctx, _) => stateAt child path ctx
  | .cons _ _ rest, k + 1, path, (_, kids) => kidStateAt rest k path kids

end

/-- The reset signal of a domain meets its active level. -/
def resetLevel (h : Hierarchy) (path : List ℕ) (d : ℕ) (ctx : SimContext h) : Bool :=
  match stateAt h path ctx with
  | none => false
  | some (m, s) =>
    match m.clockDomains[d]? with
    | none => false
    | some cd => resetActive m cd s

/-- All registers of a domain hold their declared reset values. -/
def RegistersReset (h : Hierarchy) (path : List ℕ) (d : ℕ) (ctx : SimContext h) : Prop :=
  ∀ m s cd, stateAt h path ctx = some (m, s) → m.clockDomains[d]? = some cd →
    ∀ id ∈ cd.registerIds, ∀ i v, ResetsTo m id i v → (s.signals i).current = v

mutual

theorem TreeFollows.at : ∀ (h : Hierarchy) {seen : ResetsSeen} {S T : SimContext h},
    TreeFollows h seen S T → ∀ (path : List ℕ) {m : IRModule} {t : CtxState},
    stateAt h path T = some (m, t) →
    ∃ s, stateAt h path S = some (m, s) ∧ RegistersFollow m (seen path) s t
  | .node _ _, _, (s, _), (_, _), ⟨hst, _⟩, [], m, t, ht => by
      rw [stateAt] at ht ⊢
      cases ht
      exact ⟨s, rfl, hst⟩
  | .node _ children, seen, (_, _), (_, _), ⟨_, hk⟩, k :: path, m, t, ht => by
      rw [stateAt] at ht ⊢
      have hkid := KidsFollow.at children hk k path ht
      rwa [Nat.zero_add] at hkid

theorem KidsFollow.at : ∀ (c : Instances) {k : ℕ} {seen : ResetsSeen} {S T : SimChildren c},
    KidsFollow c k seen S T → ∀ (j : ℕ) (path : List ℕ) {m : IRModule} {t : CtxState},
    kidStateAt c j path T = some (m, t) →
    ∃ s, kidStateAt c j path S = some (m, s) ∧ RegistersFollow m (seen ((k + j) :: path)) s t
  | .nil, _, _, _, _, _, _, _, _, _, ht => by
      rw [kidStateAt] at ht
      cases ht
  | .cons _ child _, _, _, (_, _), (_, _), ⟨hst, _⟩, 0, path, m, t, ht => by
      rw [kidStateAt] at ht ⊢
      exact TreeFollows.at child hst path ht
  | .cons _ _ rest, k, seen, (_, _), (_, _), ⟨_, hk⟩, j + 1, path, m, t, ht => by
      rw [kidStateAt] at ht ⊢
      have hkid := KidsFollow.at rest hk j path ht
      rwa [show k + 1 + j = k + (j + 1) by omega] at hkid

end

mutual

theorem TreeIdle.at : ∀ (h : Hierarchy) {S : SimContext h}, TreeIdle h S → ∀ (path : List ℕ)
    {m : IRModule} {s : CtxState}, stateAt h path S = some (m, s) → RegistersIdle m s
  | .node _ _, (_, _), ⟨hs, _⟩, [], m, s, hat => by
      rw [stateAt] at hat
      cases hat
      exact hs
  | .node _ children, (_, _), ⟨_, hk⟩, k :: path, m, s, hat => by
      rw [stateAt] at hat
      exact KidsIdle.at children hk k path hat

theorem KidsIdle.at : ∀ (c : Instances) {S : SimChildren c}, KidsIdle c S → ∀ (j : ℕ)
    (path : List ℕ) {m : IRModule} {s : CtxState}, kidStateAt c j path S = some (m, s) →
    RegistersIdle m s
  | .nil, _, _, _, _, _, _, hat => by
      rw [kidStateAt] at hat
      cases hat
  | .cons _ child _, (_, _), ⟨hs, _⟩, 0, path, m, s, hat => by
      rw [kidStateAt] at hat
      exact TreeIdle.at child hs path hat
  | .cons _ _ rest, (_, _), ⟨_, hk⟩, j + 1, path, m, s, hat => by
      rw [kidStateAt] at hat
      exact KidsIdle.at rest hk j path hat

end

/-- Whether the last firings of a domain saw its reset; without firings the answer stays. -/
def lastSaw (saw : Bool) (levels : List Bool) : Bool :=
  if levels = [] then saw else levels.all id

theorem RegistersReset.follow {h : Hierarchy} {seen : ResetsSeen} {S T : SimContext h}
    (hf : TreeFollows h seen S T) (hidle : TreeIdle h S) {path : List ℕ} {d : ℕ} {saw : Bool}
    (hs : saw = true → RegistersReset h path d S) (hsaw : lastSaw saw (seen path d) = true) :
    RegistersReset h path d T := by
  intro m t cd hat hcd id hid i v hr
  obtain ⟨s, hats, hst⟩ := TreeFollows.at h hf path hat
  have hp := TreeIdle.at h hidle path hats d cd hcd id hid i v hr
  unfold lastSaw at hsaw
  split at hsaw
  · rename_i hnone
    obtain ⟨-, hcur⟩ := hst d cd hcd id hid i v hr hp (by simp [hnone])
    rw [hcur, if_pos hnone]
    exact hs hsaw m s cd hats hcd id hid i v hr
  · rename_i hsome
    obtain ⟨-, hcur⟩ := hst d cd hcd id hid i v hr hp (by simpa using hsaw)
    rw [hcur, if_neg hsome]

/-! ## The testbench fires nothing -/

section

variable {h : Hierarchy} {tb : Testbench}

theorem simPropagateInput_same (m : IRModule) (portId : ℕ) (v : SimValue) (s : CtxState) :
    SameRegisters m s (simPropagateInput m portId v s) := by
  unfold simPropagateInput
  split
  · rename_i i sig hi hsig
    have hport : ∀ dir, sig.kind = .port dir → ¬ RegisterAt m i := by
      rintro dir hkind ⟨sig', lit, hsig', hreg⟩
      rw [IRModule.signalOf, hi, Option.bind_some, hsig'] at hsig
      cases hsig
      rw [hkind] at hreg
      cases hreg
    split
    · rename_i hkind
      exact (sameRegisters_setCurrent (hport _ hkind) _).trans (.of_signals rfl)
    · rename_i hkind
      exact (sameRegisters_setCurrent (hport _ hkind) _).trans (.of_signals rfl)
    · exact .of_signals rfl
  · exact .of_signals rfl

theorem simResolveInoutZ_same (m : IRModule) (portId : ℕ) (v : SimValue) (s : CtxState) :
    SameRegisters m s (simResolveInoutZ m portId v s) := by
  unfold simResolveInoutZ
  split
  · rename_i i sig hi hsig
    split
    · rename_i hkind
      have hport : ¬ RegisterAt m i := by
        rintro ⟨sig', lit, hsig', hreg⟩
        rw [IRModule.signalOf, hi, Option.bind_some, hsig'] at hsig
        cases hsig
        rw [hkind] at hreg
        cases hreg
      split
      · exact sameRegisters_setCurrent hport _
      · exact .of_signals rfl
    · exact .of_signals rfl
  · exact .of_signals rfl

theorem foldl_withState_follows {α : Type*} (f : α → CtxState → CtxState)
    (hf : ∀ a s, SameRegisters h.module s (f a s)) : ∀ (l : List α) (S : SimContext h),
    TreeFollows h .none S (l.foldl (fun T a => T.withState (f a T.state)) S)
  | [], S => TreeFollows.refl h S
  | a :: rest, S =>
    (TreeFollows.withState S (hf a S.state)).trans (foldl_withState_follows f hf rest _)

theorem simPropagateInputs_follows (ts : SimTestState h) :
    TreeFollows h .none ts.dut (simPropagateInputs tb ts).dut :=
  foldl_withState_follows (fun (b : PortBinding) s =>
    simPropagateInput h.module b.portSignalId (ts.wires b.tbWireIndex) s)
    (fun _ s => simPropagateInput_same _ _ _ s) tb.bindings ts.dut

theorem resolveInouts_follows (ts : SimTestState h) :
    TreeFollows h .none ts.dut (resolveInouts tb ts).dut :=
  foldl_withState_follows (fun (b : PortBinding) s =>
    simResolveInoutZ h.module b.portSignalId (ts.wires b.tbWireIndex) s)
    (fun _ s => simResolveInoutZ_same _ _ _ s) tb.bindings ts.dut

variable (hd : DesignOwned h)

include hd

theorem simSettleChecked_follows (ts : SimTestState h) :
    TreeFollows h .none ts.dut (simSettleChecked ts).dut :=
  simSettleCombinational_follows hd ts.dut simSettleMaxIters

theorem simFullSettle_follows (ts : SimTestState h) :
    TreeFollows h .none ts.dut (simFullSettle tb ts).dut :=
  (simPropagateInputs_follows ts).trans
    ((simSettleChecked_follows hd _).trans (resolveInouts_follows _))

theorem simClockSettle_follows (wi : ℕ) (ts : SimTestState h) :
    TreeFollows h .none ts.dut (simClockSettle tb wi ts).dut :=
  (simPropagateInputs_follows (toggleWire ts wi)).trans
    ((simSettleChecked_follows hd _).trans (resolveInouts_follows _))

end

/-! ## Runs -/

section

variable {h : Hierarchy} (tb : Testbench)

/-- The reset levels that the firings of one toggle see. -/
def toggleSeen (wi : ℕ) (ts : SimTestState h) : ResetsSeen :=
  let ts₁ := simClockSettle tb wi ts
  fireDomainsSeen h (clockPortId tb wi) (ts₁.level wi) ts₁.dut

def togglesSaw (path : List ℕ) (d wi : ℕ) : ℕ → Bool → SimTestState h → Bool
  | 0, saw, _ => saw
  | n + 1, saw, ts => togglesSaw path d wi n (lastSaw saw (toggleSeen tb wi ts path d))
      (simClockToggle tb wi ts)

/-- Whether the last firings of a domain saw its reset, after one more step. -/
def stepSaw (path : List ℕ) (d : ℕ) (saw : Bool) (ts : SimTestState h) (step : TestStep h) : Bool :=
  if ts.runtimeError then saw
  else match step with
    | .update _ | .clock none _ => saw
    | .clock (some wi) cycles => togglesSaw tb path d wi (2 * max cycles 1) saw ts

/-- After each step whose final settle leaves the reset of a domain active, the domain has fired
and its last firings saw the reset. -/
def ResetInTime (path : List ℕ) (d : ℕ) : Bool → SimTestState h → List (TestStep h) → Prop
  | _, _, [] => True
  | saw, ts, step :: rest =>
    (resetLevel h path d (simTestStep tb ts step).dut = true →
      stepSaw tb path d saw ts step = true) ∧
      ResetInTime path d (stepSaw tb path d saw ts step) (simTestStep tb ts step) rest

/-- What holds between steps: nothing is staged, and registers whose domain saw its reset last hold
their reset values. -/
structure ResetInvariant (h : Hierarchy) (path : List ℕ) (d : ℕ) (saw : Bool) (ctx : SimContext h) :
    Prop where

  idle : TreeIdle h ctx

  reset : saw = true → RegistersReset h path d ctx

end

section

variable {h : Hierarchy} {tb : Testbench} {path : List ℕ} {d : ℕ} {saw : Bool}

theorem ResetInvariant.quiet {S T : SimContext h} (hi : ResetInvariant h path d saw S)
    (hf : TreeFollows h .none S T) : ResetInvariant h path d saw T where
  idle := TreeFollows.idle h hf hi.idle
  reset hs := RegistersReset.follow hf hi.idle hi.reset ((if_pos rfl).trans hs)

variable (hd : DesignOwned h)

include hd

theorem simClockToggle_invariant {ts : SimTestState h} (wi : ℕ)
    (hi : ResetInvariant h path d saw ts.dut) :
    ResetInvariant h path d (lastSaw saw (toggleSeen tb wi ts path d))
      (simClockToggle tb wi ts).dut := by
  have hsettled : ResetInvariant h path d saw (simClockSettle tb wi ts).dut :=
    hi.quiet (simClockSettle_follows hd wi ts)
  obtain ⟨hfire, hidle⟩ := simFireDomainsForClock_follows hd (clockPortId tb wi)
    ((simClockSettle tb wi ts).level wi) hsettled.idle
  let ts₂ : SimTestState h := { simClockSettle tb wi ts with
    dut := (simFireDomainsForClock h (clockPortId tb wi) ((simClockSettle tb wi ts).level wi) true
      (simClockSettle tb wi ts).dut).1 }
  have hfired : ResetInvariant h path d (lastSaw saw (toggleSeen tb wi ts path d)) ts₂.dut :=
    ⟨hidle, RegistersReset.follow hfire hsettled.idle hsettled.reset⟩
  exact hfired.quiet ((simSettleChecked_follows hd ts₂).trans (resolveInouts_follows _))

theorem simClockToggles_invariant (wi : ℕ) : ∀ (n : ℕ) {saw : Bool} {ts : SimTestState h},
    ResetInvariant h path d saw ts.dut →
    ResetInvariant h path d (togglesSaw tb path d wi n saw ts) ((simClockToggle tb wi)^[n] ts).dut
  | 0, _, _, hi => hi
  | n + 1, _, _, hi => simClockToggles_invariant wi n (simClockToggle_invariant hd wi hi)

theorem simTestStep_invariant {ts : SimTestState h} (step : TestStep h)
    (hi : ResetInvariant h path d saw ts.dut) :
    ResetInvariant h path d (stepSaw tb path d saw ts step) (simTestStep tb ts step).dut := by
  unfold stepSaw simTestStep
  split
  · exact hi
  · cases step with
    | update assigns => exact hi.quiet (simFullSettle_follows hd (assignWires tb assigns ts))
    | clock wire cycles =>
      cases wire with
      | none => exact hi
      | some wi => exact simClockToggles_invariant hd wi (2 * max cycles 1) hi

theorem simTestSteps_reset : ∀ (steps : List (TestStep h)) {saw : Bool} {ts : SimTestState h},
    ResetInvariant h path d saw ts.dut → ResetInTime tb path d saw ts steps →
    ∀ pre, pre <+: steps → pre ≠ [] →
      resetLevel h path d (pre.foldl (simTestStep tb) ts).dut = true →
      RegistersReset h path d (pre.foldl (simTestStep tb) ts).dut
  | [], _, _, _, _, pre, hpre, hne, _ => absurd (List.prefix_nil.mp hpre) hne
  | step :: rest, saw, ts, hi, ⟨hstep, hrest⟩, pre, hpre, hne, hlevel => by
      have hnext : ResetInvariant h path d (stepSaw tb path d saw ts step)
          (simTestStep tb ts step).dut := simTestStep_invariant hd step hi
      obtain ⟨x, pre', rfl⟩ := List.exists_cons_of_ne_nil hne
      obtain ⟨rfl, hpre'⟩ := List.cons_prefix_cons.mp hpre
      rw [List.foldl_cons] at hlevel ⊢
      by_cases hlast : pre' = []
      · subst hlast
        exact hnext.reset (hstep hlevel)
      · exact simTestSteps_reset rest hnext hrest pre' hpre' hlast hlevel

end

/--
A step ends with the registers of a domain reset whenever its reset is then
active, as long as the domain never ends a step with an active reset that its
last firing has not seen.
-/
theorem simTest_registersReset {h : Hierarchy} (tb : Testbench) (hd : DesignOwned h)
    (init : SimTestState h) (hidle : TreeIdle h init.dut) (path : List ℕ) (d : ℕ)
    (steps : List (TestStep h))
    (hsteps : ResetInTime tb path d false (simFullSettle tb init) steps) :
    ∀ pre, pre <+: steps → pre ≠ [] → resetLevel h path d (simTest tb init pre).dut = true →
      RegistersReset h path d (simTest tb init pre).dut := by
  have hstart : ResetInvariant h path d false init.dut := ⟨hidle, fun hf => Bool.noConfusion hf⟩
  exact simTestSteps_reset hd steps (hstart.quiet (simFullSettle_follows hd init)) hsteps

namespace ResetExample

/-- A register with reset value 0 that every edge without reset sets to 1. -/
def flag : IRModule :=
  { signals := [⟨0, .port .portIn, 1⟩, ⟨1, .port .portIn, 1⟩,
      ⟨2, .register ⟨.ofFn fun _ => 0, 1, false⟩, 1⟩]
    memories := []
    clockDomains := [
      { clockSignalId := 0
        edge := .rising
        registerIds := [2]
        resetSignalId := some 1
        resetActive := .activeHigh
        statements := .assignment
          ⟨2, .literal ⟨Words.set .zero 0 1, 1, false⟩ 1, .receive, false, 0, 0⟩ }]
    asyncBlock := .null }

def design : Hierarchy := .node flag .nil

def bench : Testbench where
  bindings := [⟨0, 0⟩, ⟨1, 1⟩]
  wireWidth _ := 1

/-- The clock is low, the register holds 1 and the reset wire has a given level. -/
def start (reset : Bool) : SimTestState design where
  dut := ({ signals := fun _ => ⟨simValOnes 1, simValZero 1, false⟩
            cells := fun _ _ => simValZero 1
            runtimeError := false
            settleDirty := false
            sigDirty := fun _ => true }, ())
  wires i := if i = 1 ∧ reset = true then simValOnes 1 else simValZero 1
  runtimeError := false

def setReset (level : Bool) : TestStep design :=
  .update [(1, fun _ => if level then simValOnes 1 else simValZero 1)]

theorem design_owned : DesignOwned design := by
  refine ⟨⟨fun τ hτ => absurd hτ List.not_mem_nil, ?_⟩, trivial⟩
  intro d e cd ce hd he hne
  have hlast : ∀ (j : ℕ) (c : IRClockDomain), flag.clockDomains[j]? = some c → j = 0 := by
    intro j c hj
    obtain ⟨hlt, -⟩ := List.getElem?_eq_some_iff.mp hj
    exact Nat.lt_one_iff.mp hlt
  exact absurd ((hlast d cd hd).trans (hlast e ce he).symm) hne

theorem start_idle (reset : Bool) : TreeIdle design (start reset).dut :=
  ⟨fun _ _ _ _ _ _ _ _ => rfl, trivial⟩

end ResetExample

open ResetExample in
theorem simTest_registersReset_held : RegistersReset design [] 0
    (simTest bench (start true) [.clock (some 0) 1, setReset false, setReset true]).dut := by
  refine simTest_registersReset bench design_owned (start true) (start_idle true) [] 0
    [.clock (some 0) 1, setReset false, setReset true] ?_ _ (List.prefix_refl _)
    (List.cons_ne_nil _ _) ?_
  · exact ⟨fun _ => by decide +kernel, fun _ => by decide +kernel, fun _ => by decide +kernel,
      trivial⟩
  · decide +kernel

open ResetExample in
/-- An update asserts the reset after the edge that set the register. -/
theorem simTest_resetIgnored : DesignOwned design ∧ TreeIdle design (start false).dut ∧
    resetLevel design [] 0
      (simTest bench (start false) [setReset false, .clock (some 0) 1, setReset true]).dut = true ∧
    ¬ RegistersReset design [] 0
      (simTest bench (start false) [setReset false, .clock (some 0) 1, setReset true]).dut := by
  refine ⟨design_owned, start_idle false, by decide +kernel, fun hreset => ?_⟩
  have hvalue := hreset flag _ _ rfl rfl 2 List.mem_cons_self 2 _ rfl
  have hbit := congrArg (fun v : SimValue => v.val.bit 0) hvalue
  revert hbit
  decide +kernel

end JzHdl

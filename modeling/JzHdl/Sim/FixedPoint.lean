import JzHdl.Sim.Engine
import JzHdl.Sim.PortMaps

/-! # The fixed point of a settle

A pass visits every instance once and the loop stops as soon as the root is
clean. This reaches a fixed point when every instance below the root is
evaluated in order and no pass leaves out an instance that is not at rest.
-/

namespace JzHdl

/-! ## Fixed points -/

/-- Copying a parent value into the child again changes nothing. -/
def InputHeld (pm : SimPortMapping) (s c : CtxState) : Prop :=
  ∀ i, ((propagateInput s (false, c) pm).2.signals i).current = (c.signals i).current

/-- Copying a child value out again changes nothing. -/
def OutputQuiet (pm : SimPortMapping) (s c : CtxState) : Prop :=
  ∀ i, ((propagateOutput c s pm).signals i).current = (s.signals i).current

mutual

/-- Executing any asynchronous block of the tree, or copying any port map, changes no signal. -/
def AtFixedPoint : (h : Hierarchy) → SimContext h → Prop
  | .node m children, (s, kids) =>
    (∀ i, ((simExecStmt m false m.asyncBlock s).signals i).current = (s.signals i).current) ∧
      KidsAtFixedPoint m children s kids

def KidsAtFixedPoint (m : IRModule) : (c : Instances) → CtxState → SimChildren c → Prop
  | .nil, _, _ => True
  | .cons inst child rest, s, (ctx, kids) =>
    (∀ pm ∈ inputMaps m child.module inst, InputHeld pm s ctx.state) ∧
      (∀ pm ∈ outputMaps m child.module inst, OutputQuiet pm s ctx.state) ∧
      AtFixedPoint child ctx ∧ KidsAtFixedPoint m rest s kids

end

/-! ## Designs -/

/-- The parts of the parent that an instance drives. -/
def outTargets (m : IRModule) (inst : IRInstance) (child : Hierarchy) : List Target :=
  (outputMaps m child.module inst).map SimPortMapping.target

def Instances.outTargets (m : IRModule) : Instances → List Target
  | .nil => []
  | .cons inst child rest => JzHdl.outTargets m inst child ++ rest.outTargets m

/-- Everything that the statements and the instances of a context drive. -/
def Hierarchy.driven : Hierarchy → List Target
  | .node m children => stmtTargets m m.asyncBlock ++ children.outTargets m

/-- Asynchronous statements keep the values of a module within their declared widths. -/
def Tidy (m : IRModule) : Prop :=
  ∀ s : CtxState, s.Fits m → (simExecStmt m false m.asyncBlock s).Fits m

/-- The language rules for the connections of an instance. -/
structure MapsOk (m : IRModule) (inst : IRInstance) (child : Hierarchy) : Prop where

  inputs : ∀ pm ∈ inputMaps m child.module inst, pm.Fits m child.module

  outputs : ∀ pm ∈ outputMaps m child.module inst, pm.Fits m child.module

  ports : ((inputMaps m child.module inst).map SimPortMapping.childIndex).Nodup

  free : ∀ pm ∈ inputMaps m child.module inst, ∀ τ ∈ child.driven, τ.index ≠ pm.childIndex

  apart : (outTargets m inst child).Pairwise Target.Apart

/-- No instance reads what it or a later instance drives. -/
def KidsOrderly (m : IRModule) : Instances → Prop
  | .nil => True
  | .cons inst child rest =>
    (∀ pm ∈ inputMaps m child.module inst, ∀ τ ∈ outTargets m inst child ++ rest.outTargets m,
      τ.index ≠ pm.parentIndex) ∧ KidsOrderly m rest

/-- One pass evaluates the statements and then the instances in order. -/
def Orderly : Hierarchy → Prop
  | .node m children =>
    InOrder m m.asyncBlock ∧ ReadsApart m (stmtReads m.asyncBlock) (children.outTargets m) ∧
      KidsOrderly m children

mutual

/-- The language rules at every node, and evaluation in order at every node but the root. -/
def DesignOk : Hierarchy → Prop
  | .node m children =>
    AsyncOk m ∧ Tidy m ∧ TargetsApart (stmtTargets m m.asyncBlock) (children.outTargets m) ∧
      KidsOk m children

def KidsOk (m : IRModule) : Instances → Prop
  | .nil => True
  | .cons inst child rest =>
    MapsOk m inst child ∧ TargetsApart (outTargets m inst child) (rest.outTargets m) ∧
      Orderly child ∧ DesignOk child ∧ KidsOk m rest

end

/-! ## States -/

mutual

/-- Every chunk of the tree is armed and every value fits. -/
def Sound : (h : Hierarchy) → SimContext h → Prop
  | .node m children, (s, kids) => ArmedChunks m s ∧ s.Fits m ∧ KidsSound children kids

def KidsSound : (c : Instances) → SimChildren c → Prop
  | .nil, _ => True
  | .cons _ child rest, (ctx, kids) => Sound child ctx ∧ KidsSound rest kids

end

mutual

/-- A pass from this state leaves out an instance only when it is at rest. -/
def Awake : (h : Hierarchy) → SimContext h → Prop
  | .node m children, (s, kids) => KidsAwake m children (simExecStmt m false m.asyncBlock s) kids

def KidsAwake (m : IRModule) : (c : Instances) → CtxState → SimChildren c → Prop
  | .nil, _, _ => True
  | .cons inst child rest, s, (ctx, kids) =>
    let (changed, t) := propagateToChild (inputMaps m child.module inst) s ctx.state
    if !changed && !t.settleDirty then
      (∀ pm ∈ outputMaps m child.module inst, OutputQuiet pm s ctx.state) ∧
        AtFixedPoint child ctx ∧ KidsAwake m rest (s.raiseError t.runtimeError) kids
    else
      Awake child (ctx.withState t.clearSettleDirty) ∧
        let ctx' := settleHierarchyOnce buildAsyncChunks child (ctx.withState t.clearSettleDirty)
        KidsAwake m rest (propagateFromChild (outputMaps m child.module inst)
          (s.raiseError ctx'.state.runtimeError) ctx'.state) kids

end

theorem kidsAwake_of_visit {m : IRModule} {inst : IRInstance} {child : Hierarchy} {rest : Instances}
    {s : CtxState} {ctx : SimContext child} {kids : SimChildren rest}
    (hv : (propagateToChild (inputMaps m child.module inst) s ctx.state).1 = true)
    (h : let t := (propagateToChild (inputMaps m child.module inst) s ctx.state).2
      Awake child (ctx.withState t.clearSettleDirty) ∧
        let ctx' := settleHierarchyOnce buildAsyncChunks child (ctx.withState t.clearSettleDirty)
        KidsAwake m rest (propagateFromChild (outputMaps m child.module inst)
          (s.raiseError ctx'.state.runtimeError) ctx'.state) kids) :
    KidsAwake m (.cons inst child rest) s (ctx, kids) := by
  rw [KidsAwake]
  cases hr : propagateToChild (inputMaps m child.module inst) s ctx.state with
  | mk changed t =>
    rw [hr] at hv h
    simp only at hv h
    rw [hv]
    exact h

/-- Every instance is at its fixed point and its outputs have been copied out. -/
def KidsReady (m : IRModule) : (c : Instances) → CtxState → SimChildren c → Prop
  | .nil, _, _ => True
  | .cons inst child rest, s, (ctx, kids) =>
    (∀ pm ∈ outputMaps m child.module inst, OutputHeld pm (s.signals pm.parentIndex).current
      (ctx.state.signals pm.childIndex).current) ∧ AtFixedPoint child ctx ∧ KidsReady m rest s kids

section

variable {m : IRModule} {s t c : CtxState} {pm : SimPortMapping}

theorem inputHeld_iff :
    InputHeld pm s c ↔ (c.signals pm.childIndex).current = inputValue pm s := by
  have hcur : ∀ i, ((propagateInput s (false, c) pm).2.signals i).current =
      if i = pm.childIndex then inputValue pm s else (c.signals i).current := by
    intro i
    rw [propagateInput]
    simp only
    split
    · exact setCurrent_current c pm.childIndex i _
    · exact setCurrent_current c pm.childIndex i _
  constructor
  · intro h
    have := h pm.childIndex
    rw [hcur, if_pos rfl] at this
    exact this.symm
  · intro h i
    rw [hcur]
    split
    · rename_i hi
      rw [hi, h]
    · rfl

theorem outputQuiet_iff : OutputQuiet pm s c ↔
    OutputHeld pm (s.signals pm.parentIndex).current (c.signals pm.childIndex).current := by
  constructor
  · intro h
    have hp := h pm.parentIndex
    by_contra hn
    obtain ⟨hz, hne⟩ := not_or.mp hn
    rw [propagateOutput] at hp
    simp only [if_neg hz] at hp
    have hset : ∀ w, ((s.setCurrent pm.parentIndex w).signals pm.parentIndex).current = w :=
      fun w => (setCurrent_current s _ _ w).trans (if_pos rfl)
    have hmark : ∀ w, (((s.setCurrent pm.parentIndex w).markDirty pm.parentIndex).signals
        pm.parentIndex).current = w := hset
    cases hsl : pm.parentSlice with
    | none =>
      simp only [hsl] at hp hne
      rw [if_neg hne, hmark] at hp
      rw [← hp] at hne
      exact hne (simValSame_self _ _)
    | some q =>
      obtain ⟨msb, lsb⟩ := q
      simp only [hsl] at hp hne
      refine hne ?_
      split at hp
      · rwa [hset] at hp
      · rwa [hmark] at hp
  · intro h i
    rw [propagateOutput_of_held h]

theorem Target.agree_of_eq {τ : Target} {v w : SimValue} (h : v = w) : τ.Agree v w := by
  subst h
  rw [Target.Agree]
  split
  · rfl
  · exact ⟨rfl, fun _ _ _ => rfl⟩

/-- All the targets of a list are left alone. -/
def TargetsAgree (ts : List Target) (s t : CtxState) : Prop :=
  ∀ τ ∈ ts, τ.Agree (s.signals τ.index).current (t.signals τ.index).current

theorem Evolves.targetsAgree {ts us : List Target} (h : Evolves ts s t) (ha : TargetsApart ts us) :
    TargetsAgree us s t := fun υ hυ =>
  Target.agree_of_apart rfl (fun τ hτ => ha τ hτ υ hυ) fun p hp => (h.keeps υ.index p hp).symm

theorem KidsReady.of_agree : ∀ {c : Instances} {kids : SimChildren c}, KidsReady m c s kids →
    TargetsAgree (c.outTargets m) s t → KidsReady m c t kids
  | .nil, _, _, _ => trivial
  | .cons inst child rest, (ctx, kids), h, ha => by
      rw [KidsReady] at h ⊢
      refine ⟨fun pm hpm => (h.1 pm hpm).of_agree (ha pm.target ?_), h.2.1, h.2.2.of_agree fun τ hτ =>
        ha τ (List.mem_append_right _ hτ)⟩
      exact List.mem_append_left _ (List.mem_map_of_mem hpm)

theorem KidsAtFixedPoint.ready : ∀ {c : Instances} {kids : SimChildren c},
    KidsAtFixedPoint m c s kids → KidsReady m c s kids
  | .nil, _, _ => trivial
  | .cons inst child rest, (ctx, kids), h => by
      rw [KidsAtFixedPoint] at h
      exact ⟨fun pm hpm => outputQuiet_iff.mp (h.2.1 pm hpm), h.2.2.1, h.2.2.2.ready⟩

end

/-! ## One pass -/

section

variable {m : IRModule} {s t : CtxState}

theorem Sound.withState : ∀ {h : Hierarchy} {ctx : SimContext h} {t : CtxState}, Sound h ctx →
    ArmedChunks h.module t → t.Fits h.module → Sound h (ctx.withState t)
  | .node _ _, (_, _), _, h, ha, hf => ⟨ha, hf, h.2.2⟩

theorem Sound.armed : ∀ {h : Hierarchy} {ctx : SimContext h}, Sound h ctx →
    ArmedChunks h.module ctx.state
  | .node _ _, (_, _), h => h.1

theorem Sound.fits : ∀ {h : Hierarchy} {ctx : SimContext h}, Sound h ctx →
    ctx.state.Fits h.module
  | .node _ _, (_, _), h => h.2.1

theorem chunk_targets_subset {c : SimAsyncChunk} (hc : c ∈ buildAsyncChunks m) :
    stmtTargets m c.stmt ⊆ stmtTargets m m.asyncBlock := by
  have hmem : ∀ {stmts : List IRStmt} {stmt : IRStmt}, stmt ∈ stmts →
      stmtTargets m stmt ⊆ stmtsTargets m stmts := by
    intro stmts stmt h
    induction stmts with
    | nil => simp at h
    | cons x rest ih =>
      rw [stmtsTargets]
      rcases List.mem_cons.mp h with rfl | h
      · exact List.subset_append_left _ _
      · exact List.subset_append_of_subset_right _ (ih h)
  rw [buildAsyncChunks] at hc
  split at hc
  · simp at hc
  · rename_i stmts hb
    obtain ⟨stmt, hstmt, rfl⟩ := List.mem_map.mp hc
    rw [hb, stmtTargets]
    exact hmem hstmt
  · rw [List.mem_singleton.mp hc]
    exact List.Subset.refl _

/-- Writes apart from the asynchronous statements keep the chunks armed. -/
theorem ArmedChunks.of_evolves {ts : List Target} (hs : ArmedChunks m s) (h : Evolves ts s t)
    (ha : TargetsApart (stmtTargets m m.asyncBlock) ts) : ArmedChunks m t :=
  hs.step h.toFlagged fun _ hc => Or.inr <| h.keeps_of_apart fun τ hτ υ hυ =>
    (ha υ (chunk_targets_subset hc hυ) τ hτ).symm

theorem propagateOutputs_spec {child : IRModule} {c : CtxState} (hc : c.Fits child) :
    ∀ {maps : List SimPortMapping} {s : CtxState}, (∀ pm ∈ maps, pm.Fits m child) → s.Fits m →
      (maps.map SimPortMapping.target).Pairwise Target.Apart →
      Evolves (maps.map SimPortMapping.target) s (propagateFromChild maps s c) ∧
        (propagateFromChild maps s c).Fits m ∧
        ∀ pm ∈ maps, OutputHeld pm ((propagateFromChild maps s c).signals pm.parentIndex).current
          (c.signals pm.childIndex).current
  | [], s, _, hs, _ => ⟨.refl _ s, hs, by simp⟩
  | pm :: rest, s, hp, hs, ha => by
      rw [List.map_cons, List.pairwise_cons] at ha
      obtain ⟨h1, h2, h3⟩ := propagateOutput_spec (hp pm List.mem_cons_self) hs hc
      obtain ⟨h4, h5, h6⟩ := propagateOutputs_spec hc
        (fun x hx => hp x (List.mem_cons_of_mem _ hx)) h2 ha.2
      refine ⟨(h1.mono (by simp)).trans (h4.mono (by simp)), h5, ?_⟩
      rintro x (_ | ⟨_, hx⟩)
      · refine h3.of_agree (@Evolves.targetsAgree _ _ _ [pm.target] h4 (fun τ hτ υ hυ => ?_) pm.target
          (List.mem_singleton.mpr rfl))
        rw [List.mem_singleton.mp hυ]
        exact (ha.1 τ hτ).symm
      · exact h6 x hx

/-- The child after it has received its inputs. -/
theorem Sound.receives {inst : IRInstance} {child : Hierarchy} {ctx : SimContext child}
    (hs : s.Fits m) (hm : MapsOk m inst child) (hctx : Sound child ctx) :
    let r := propagateToChild (inputMaps m child.module inst) s ctx.state
    Receives s (inputMaps m child.module inst) (false, ctx.state) r ∧
      Sound child (ctx.withState r.2.clearSettleDirty) := by
  obtain ⟨hr, hf⟩ := @propagateInputs_receives _ _ _ hs _ (false, ctx.state) hm.inputs hm.ports
    hctx.fits
  refine ⟨hr, hctx.withState (ArmedChunks.clearSettleDirty ?_) hf⟩
  refine hctx.armed.step hr.flags fun c hc => Or.inr ⟨fun _ _ i _ => ?_, fun τ hτ => ?_⟩
  · rw [propagateToChild, hr.cells]
  · refine Target.agree_of_eq (hr.others τ.index fun pm hpm hi => ?_).symm
    refine hm.free pm hpm τ ?_ hi.symm
    cases child with
    | node _ _ => exact List.mem_append_left _ (chunk_targets_subset hc hτ)

/-- What a pass over a context gives. -/
structure PassResult (h : Hierarchy) (ctx ctx' : SimContext h) : Prop where

  sound : Sound h ctx'

  evolves : Evolves h.driven ctx.state ctx'.state

  ready : KidsReady h.module h.children ctx'.state ctx'.kids

  fixed : Orderly h ∨ ctx'.state.settleDirty = false → AtFixedPoint h ctx'

/-- What a pass over some instances of a context gives. -/
structure KidsResult (m : IRModule) (c : Instances) (s : CtxState)
    (r : CtxState × SimChildren c) : Prop where

  sound : KidsSound c r.2

  fits : r.1.Fits m

  evolves : Evolves (c.outTargets m) s r.1

  ready : KidsReady m c r.1 r.2

  fixed : KidsOrderly m c ∨ r.1.settleDirty = false → KidsAtFixedPoint m c r.1 r.2

theorem Evolves.settleDirty_eq_false {ts : List Target} (h : Evolves ts s t)
    (ht : t.settleDirty = false) : s.settleDirty = false := by
  by_contra hne
  rw [h.settleDirty (by simpa using hne)] at ht
  cases ht

/-- A pass that stays clean from the statements of a context on leaves them still. -/
theorem AsyncOk.still_of_clean {ts : List Target} (h : AsyncOk m)
    (hev : Evolves ts (simExecStmt m false m.asyncBlock s) t) (hq : t.settleDirty = false) :
    Still m t m.asyncBlock := by
  have hown : Evolves (stmtTargets m m.asyncBlock) s (simExecStmt m false m.asyncBlock s) :=
    exec_evolves m.asyncBlock s h.memWrites
  have hq1 := hev.settleDirty_eq_false hq
  exact still_of_exec m.asyncBlock s h.memWrites hq1
    ⟨(hown.sameData hq1).trans (hev.sameData hq), hev.runtimeError⟩

mutual

theorem settleOnce_spec : ∀ (h : Hierarchy) (ctx : SimContext h), DesignOk h → Sound h ctx →
    Awake h ctx → PassResult h ctx (settleHierarchyOnce buildAsyncChunks h ctx)
  | .node m children, (s, kids), hd, hs, hw => by
      obtain ⟨hasync, htidy, hapart, hkids⟩ := hd
      obtain ⟨harm, hfits, hks⟩ := hs
      obtain ⟨heq, harm1⟩ := hasync.settleOwn_eq harm
      rw [settleOwn_nil] at heq
      have hev1 : Evolves (stmtTargets m m.asyncBlock) s (simExecStmt m false m.asyncBlock s) :=
        exec_evolves m.asyncBlock s hasync.memWrites
      rw [heq] at harm1
      have hres := settleChildren_spec m children (simExecStmt m false m.asyncBlock s) kids hkids
        (htidy s hfits) hks hw
      rw [settleHierarchyOnce, heq]
      refine ⟨⟨harm1.of_evolves hres.evolves hapart, hres.fits, hres.sound⟩,
        (hev1.mono (List.subset_append_left _ _)).trans
          (hres.evolves.mono (List.subset_append_right _ _)), hres.ready, fun hor => ?_⟩
      have hstill : Still m (settleChildren buildAsyncChunks m children
          (simExecStmt m false m.asyncBlock s) kids).1 m.asyncBlock := by
        rcases hor with ⟨hin, hreads, -⟩ | hq
        · exact (still_of_inOrder m.asyncBlock s hasync.memWrites hin).of_evolves hres.evolves
            hreads hapart.symm
        · exact hasync.still_of_clean hres.evolves hq
      refine ⟨fun i => by rw [exec_of_still _ hstill], hres.fixed ?_⟩
      exact hor.imp (fun ho => ho.2.2) id

theorem settleChildren_spec (m : IRModule) : ∀ (c : Instances) (s : CtxState)
    (kids : SimChildren c), KidsOk m c → s.Fits m → KidsSound c kids → KidsAwake m c s kids →
    KidsResult m c s (settleChildren buildAsyncChunks m c s kids)
  | .nil, s, _, _, hf, _, _ => ⟨trivial, hf, .refl _ s, trivial, fun _ => trivial⟩
  | .cons inst child rest, s, (ctx, kids), hd, hf, hs, hw => by
      obtain ⟨hmaps, hapart, hord, hchild, hrest⟩ := hd
      obtain ⟨hctx, hks⟩ := hs
      obtain ⟨hrec, hsound⟩ := hctx.receives hf hmaps
      rw [settleChildren]
      rw [KidsAwake] at hw
      cases hr : propagateToChild (inputMaps m child.module inst) s ctx.state with
      | mk changed t =>
      rw [hr] at hrec hsound hw
      simp only at hw ⊢
      by_cases hskip : (!changed && !t.settleDirty) = true
      · rw [if_pos hskip] at hw ⊢
        obtain ⟨hout, hfix, hw'⟩ := hw
        obtain rfl : t = ctx.state := congrArg Prod.snd (hrec.unchanged (by simpa using (by
          simpa using hskip : changed = false ∧ t.settleDirty = false).1))
        rw [SimContext.withState_state]
        have hres := settleChildren_spec m rest (s.raiseError ctx.state.runtimeError) kids hrest hf
          hks hw'
        have hev := (@Evolves.raiseError (rest.outTargets m) s ctx.state.runtimeError).trans
          hres.evolves
        have hagree := hev.targetsAgree hapart.symm
        have hheld : ∀ pm ∈ outputMaps m child.module inst, OutputHeld pm
            (((settleChildren buildAsyncChunks m rest (s.raiseError ctx.state.runtimeError)
              kids).1).signals pm.parentIndex).current
            (ctx.state.signals pm.childIndex).current := fun pm hpm =>
          (outputQuiet_iff.mp (hout pm hpm)).of_agree (hagree pm.target (List.mem_map_of_mem hpm))
        refine ⟨⟨hctx, hres.sound⟩, hres.fits, hev.mono (List.subset_append_right _ _),
          ⟨hheld, hfix, hres.ready⟩, fun hor => ⟨fun pm hpm => ?_, fun pm hpm =>
            outputQuiet_iff.mpr (hheld pm hpm), hfix, hres.fixed (hor.imp (fun ho => ho.2) id)⟩⟩
        refine inputHeld_iff.mpr ((hrec.received pm hpm).trans (inputValue_congr ?_).symm)
        rcases hor with ho | hq
        · exact hev.current_of_ne fun τ hτ => ho.1 pm hpm τ (List.mem_append_right _ hτ)
        · exact hev.current_eq hq pm.parentIndex
      · rw [if_neg hskip] at hw ⊢
        obtain ⟨hawake, hw'⟩ := hw
        have hpass := settleOnce_spec child (ctx.withState t.clearSettleDirty) hchild hsound hawake
        generalize hx : settleHierarchyOnce buildAsyncChunks child
          (ctx.withState t.clearSettleDirty) = ctx' at hpass hw' ⊢
        obtain ⟨hev1, hf1, hheld1⟩ := propagateOutputs_spec hpass.sound.fits hmaps.outputs
          (s := s.raiseError ctx'.state.runtimeError) hf hmaps.apart
        have hres := settleChildren_spec m rest _ kids hrest hf1 hks hw'
        have hfix := hpass.fixed (Or.inl hord)
        have hagree := hres.evolves.targetsAgree hapart.symm
        have hheld : ∀ pm ∈ outputMaps m child.module inst, OutputHeld pm
            (((settleChildren buildAsyncChunks m rest (propagateFromChild
              (outputMaps m child.module inst) (s.raiseError ctx'.state.runtimeError) ctx'.state)
              kids).1).signals pm.parentIndex).current
            (ctx'.state.signals pm.childIndex).current := fun pm hpm =>
          (hheld1 pm hpm).of_agree (hagree pm.target (List.mem_map_of_mem hpm))
        have hev : Evolves (outTargets m inst child ++ rest.outTargets m) s _ :=
          (Evolves.raiseError s ctx'.state.runtimeError).trans
            ((hev1.mono (List.subset_append_left _ _)).trans
              (hres.evolves.mono (List.subset_append_right _ _)))
        refine ⟨⟨hpass.sound, hres.sound⟩, hres.fits, hev, ⟨hheld, hfix, hres.ready⟩, fun hor =>
          ⟨fun pm hpm => ?_, fun pm hpm => outputQuiet_iff.mpr (hheld pm hpm), hfix,
            hres.fixed (hor.imp (fun ho => ho.2) id)⟩⟩
        have hin : (ctx'.state.signals pm.childIndex).current = (t.signals pm.childIndex).current := by
          have := hpass.evolves.current_of_ne (hmaps.free pm hpm)
          rwa [SimContext.state_withState] at this
        refine inputHeld_iff.mpr (hin.trans ((hrec.received pm hpm).trans (inputValue_congr ?_).symm))
        rcases hor with ho | hq
        · exact hev.current_of_ne (ho.1 pm hpm)
        · exact hev.current_eq hq pm.parentIndex

end

/-! ## The passes of a settle -/

theorem AtFixedPoint.ready : ∀ {h : Hierarchy} {ctx : SimContext h}, AtFixedPoint h ctx →
    KidsReady h.module h.children ctx.state ctx.kids
  | .node _ _, (_, _), h => h.2.ready

theorem Hierarchy.outTargets_subset : ∀ (h : Hierarchy),
    h.children.outTargets h.module ⊆ h.driven
  | .node _ _ => List.subset_append_right _ _

mutual

/-- Instances at their fixed points stay so until a pass visits them. -/
theorem awake_of_ready : ∀ (h : Hierarchy) (ctx : SimContext h), DesignOk h → Sound h ctx →
    KidsReady h.module h.children ctx.state ctx.kids → Awake h ctx
  | .node m children, (s, kids), hd, hs, hr => by
      obtain ⟨hasync, htidy, hapart, hkids⟩ := hd
      have hev : Evolves (stmtTargets m m.asyncBlock) s (simExecStmt m false m.asyncBlock s) :=
        exec_evolves m.asyncBlock s hasync.memWrites
      exact kidsAwake_of_ready m children _ kids hkids (htidy s hs.2.1) hs.2.2
        (hr.of_agree (hev.targetsAgree hapart))

theorem kidsAwake_of_ready (m : IRModule) : ∀ (c : Instances) (s : CtxState)
    (kids : SimChildren c), KidsOk m c → s.Fits m → KidsSound c kids → KidsReady m c s kids →
    KidsAwake m c s kids
  | .nil, _, _, _, _, _, _ => trivial
  | .cons inst child rest, s, (ctx, kids), hd, hf, hs, hr => by
      obtain ⟨hmaps, hapart, hord, hchild, hrest⟩ := hd
      obtain ⟨hctx, hks⟩ := hs
      obtain ⟨hout, hfix, hready⟩ := hr
      obtain ⟨hrec, hsound⟩ := hctx.receives hf hmaps
      rw [KidsAwake]
      cases hr : propagateToChild (inputMaps m child.module inst) s ctx.state with
      | mk changed t =>
      rw [hr] at hrec hsound
      simp only
      by_cases hskip : (!changed && !t.settleDirty) = true
      · rw [if_pos hskip]
        exact ⟨fun pm hpm => outputQuiet_iff.mpr (hout pm hpm), hfix,
          kidsAwake_of_ready m rest (s.raiseError t.runtimeError) kids hrest hf hks
            (hready.of_agree fun τ _ => Target.agree_of_eq rfl)⟩
      · rw [if_neg hskip]
        have hkids : KidsReady child.module child.children t.clearSettleDirty ctx.kids :=
          hfix.ready.of_agree fun τ hτ => Target.agree_of_eq <| Eq.symm <| hrec.others τ.index
            fun pm hpm hi => hmaps.free pm hpm τ (child.outTargets_subset hτ) hi.symm
        have hawake : Awake child (ctx.withState t.clearSettleDirty) := by
          refine awake_of_ready child _ hchild hsound ?_
          rwa [SimContext.state_withState, SimContext.kids_withState]
        have hpass := settleOnce_spec child _ hchild hsound hawake
        obtain ⟨hev, hf', -⟩ := propagateOutputs_spec hpass.sound.fits hmaps.outputs
          (s := s.raiseError (settleHierarchyOnce buildAsyncChunks child
            (ctx.withState t.clearSettleDirty)).state.runtimeError) hf hmaps.apart
        exact ⟨hawake, kidsAwake_of_ready m rest _ kids hrest hf' hks
          (hready.of_agree (hev.targetsAgree hapart))⟩

end

theorem InputHeld.congr {pm : SimPortMapping} {s s' c c' : CtxState} (h : InputHeld pm s c)
    (hs : SameData s s') (hc : SameData c c') : InputHeld pm s' c' := by
  rw [inputHeld_iff] at h ⊢
  rw [← hc.signals, h, inputValue_congr (hs.signals _)]

theorem OutputQuiet.congr {pm : SimPortMapping} {s s' c c' : CtxState} (h : OutputQuiet pm s c)
    (hs : SameData s s') (hc : SameData c c') : OutputQuiet pm s' c' := by
  rw [outputQuiet_iff] at h ⊢
  rwa [← hs.signals, ← hc.signals]

mutual

theorem AtFixedPoint.clearSigDirty : ∀ (h : Hierarchy) (ctx : SimContext h), AtFixedPoint h ctx →
    AtFixedPoint h (JzHdl.clearSigDirty h ctx)
  | .node m children, (s, kids), hfix => by
      obtain ⟨hown, hkids⟩ := hfix
      have hd : SameData s { s with sigDirty := fun _ => false } := ⟨fun _ => rfl, rfl⟩
      exact ⟨fun i => ((hd.exec (m := m) m.asyncBlock).signals i).symm.trans (hown i),
        kidsClear m children s _ kids hd hkids⟩

theorem kidsClear (m : IRModule) : ∀ (c : Instances) (s s' : CtxState) (kids : SimChildren c),
    SameData s s' → KidsAtFixedPoint m c s kids → KidsAtFixedPoint m c s' (clearKidsDirty c kids)
  | .nil, _, _, _, _, _ => trivial
  | .cons inst child rest, s, s', (ctx, kids), hd, h => by
      obtain ⟨hin, hout, hfix, hrest⟩ := h
      have hc : SameData ctx.state (JzHdl.clearSigDirty child ctx).state := by
        cases child with
        | node _ _ => exact ⟨fun _ => rfl, rfl⟩
      exact ⟨fun pm hpm => (hin pm hpm).congr hd hc, fun pm hpm => (hout pm hpm).congr hd hc,
        AtFixedPoint.clearSigDirty child ctx hfix, kidsClear m rest s s' kids hd hrest⟩

end

/-- The state before a settle from which it reaches a fixed point, if it stops. -/
structure SettleOk (h : Hierarchy) (ctx : SimContext h) : Prop where

  sound : Sound h ctx

  awake : h.hasAnyAsync = true → Awake h (ctx.withState ctx.state.clearSettleDirty)

  idle : h.hasAnyAsync = false → AtFixedPoint h ctx

/-- What every pass of a settle keeps. -/
structure SettleInv (h : Hierarchy) (ctx : SimContext h) : Prop where

  sound : Sound h ctx

  awake : Awake h (ctx.withState ctx.state.clearSettleDirty)

section

variable {h : Hierarchy} {ctx ctx' : SimContext h} {n : ℕ}

theorem Sound.cleared (hs : Sound h ctx) : Sound h (ctx.withState ctx.state.clearSettleDirty) :=
  hs.withState hs.armed.clearSettleDirty hs.fits

theorem SettleInv.pass (hd : DesignOk h) (hi : SettleInv h ctx) :
    PassResult h (ctx.withState ctx.state.clearSettleDirty) (settlePass buildAsyncChunks h ctx) :=
  settleOnce_spec h _ hd hi.sound.cleared hi.awake

theorem SettleInv.step (hd : DesignOk h) (hi : SettleInv h ctx) :
    SettleInv h (settlePass buildAsyncChunks h ctx) := by
  have hpass := hi.pass hd
  refine ⟨hpass.sound, awake_of_ready h _ hd hpass.sound.cleared ?_⟩
  rw [SimContext.state_withState, SimContext.kids_withState]
  exact hpass.ready.of_agree fun τ _ => Target.agree_of_eq rfl

/-- A settle that stops ends with a clean pass. -/
theorem settle_stops (hd : DesignOk h) (hok : SettleOk h ctx) (ha : h.hasAnyAsync = true)
    (hsettle : simSettleCombinational buildAsyncChunks h ctx n = (true, ctx')) :
    ∃ u, SettleInv h u ∧ (settlePass buildAsyncChunks h u).state.settleDirty = false ∧
      ctx' = clearSigDirty h (settlePass buildAsyncChunks h u) := by
  rw [simSettleCombinational, if_pos ha] at hsettle
  exact DirtySkip.repeatPass_stops (fun _ hi => SettleInv.step hd hi) n ⟨hok.sound, hok.awake ha⟩
    hsettle

theorem settle_idle (ha : ¬ h.hasAnyAsync = true)
    (hsettle : simSettleCombinational buildAsyncChunks h ctx n = (true, ctx')) : ctx = ctx' := by
  rw [simSettleCombinational, if_neg ha] at hsettle
  exact (Prod.mk.inj hsettle).2

theorem settle_fixedPoint (hd : DesignOk h) (hok : SettleOk h ctx)
    (hsettle : simSettleCombinational buildAsyncChunks h ctx n = (true, ctx')) :
    AtFixedPoint h ctx' := by
  by_cases ha : h.hasAnyAsync = true
  · obtain ⟨u, hu, hq, rfl⟩ := settle_stops hd hok ha hsettle
    exact ((hu.pass hd).fixed (Or.inr hq)).clearSigDirty
  · obtain rfl := settle_idle ha hsettle
    exact hok.idle (by simpa using ha)

end

/-- A whole-signal assignment whose value fits its target keeps every value within its width. -/
theorem applyAssign_fits {a : IRAssignment} (hs : s.Fits m) (hsl : a.isSliced = false)
    (hv : ∀ i sig, m.sigIndex a.lhsSignalId = some i → m.signals[i]? = some sig →
      (extendRhs a.kind (simEvalExpr m s a.rhs) sig.width).width = sig.width ∧
        (extendRhs a.kind (simEvalExpr m s a.rhs) sig.width).Masked) :
    (applyAssign m false s a).Fits m := by
  rw [applyAssign]
  cases hi : m.sigIndex a.lhsSignalId with
  | none => exact hs
  | some i =>
    simp only [Bool.false_eq_true, if_false, writeNow, hsl]
    split
    · exact hs
    · refine hs.setCurrent fun sig hsig => ?_
      rw [(hs i sig hsig).1]
      exact hv i sig hi hsig

end

end JzHdl

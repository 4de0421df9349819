import JzHdl.Sim.RegisterFrame

/-! # Registers of an instance tree

A relation between the registers of two states of a tree and the reset levels
that firings saw in between. Settling, copies of ports and commits fire nothing.
-/

namespace JzHdl

/-! ## Trees -/

mutual

/-- The registers of every context follow the levels that its domains saw. -/
def TreeFollows : (h : Hierarchy) → ResetsSeen → SimContext h → SimContext h → Prop
  | .node m children, seen, (s, ks), (t, kt) =>
    RegistersFollow m (seen []) s t ∧ KidsFollow children 0 seen ks kt

def KidsFollow : (c : Instances) → ℕ → ResetsSeen → SimChildren c → SimChildren c → Prop
  | .nil, _, _, _, _ => True
  | .cons _ child rest, k, seen, (cs, ks), (ct, kt) =>
    TreeFollows child (fun path => seen (k :: path)) cs ct ∧ KidsFollow rest (k + 1) seen ks kt

end

mutual

/-- No register of the tree has a staged write. -/
def TreeIdle : (h : Hierarchy) → SimContext h → Prop
  | .node m children, (s, kids) => RegistersIdle m s ∧ KidsIdle children kids

def KidsIdle : (c : Instances) → SimChildren c → Prop
  | .nil, _ => True
  | .cons _ child rest, (ctx, kids) => TreeIdle child ctx ∧ KidsIdle rest kids

end

mutual

/-- Only clock domains write registers, and each its own. -/
def DesignOwned : Hierarchy → Prop
  | .node m children => RegistersOwned m ∧ KidsOwned m children

def KidsOwned (m : IRModule) : Instances → Prop
  | .nil => True
  | .cons inst child rest =>
    (∀ pm ∈ outputMaps m child.module inst, ¬ RegisterAt m pm.parentIndex) ∧
      DesignOwned child ∧ KidsOwned m rest

end

mutual

theorem TreeFollows.append : ∀ (h : Hierarchy) {a b : ResetsSeen} {S T U : SimContext h},
    TreeFollows h a S T → TreeFollows h b T U → TreeFollows h (a.append b) S U
  | .node _ children, _, _, (_, _), (_, _), (_, _), ⟨hst, hk⟩, ⟨htu, hk'⟩ =>
    ⟨hst.append htu, KidsFollow.append children hk hk'⟩

theorem KidsFollow.append : ∀ (c : Instances) {k : ℕ} {a b : ResetsSeen} {S T U : SimChildren c},
    KidsFollow c k a S T → KidsFollow c k b T U → KidsFollow c k (a.append b) S U
  | .nil, _, _, _, _, _, _, _, _ => trivial
  | .cons _ child rest, _, _, _, (_, _), (_, _), (_, _), ⟨hst, hk⟩, ⟨htu, hk'⟩ =>
    ⟨TreeFollows.append child hst htu, KidsFollow.append rest hk hk'⟩

end

mutual

theorem TreeFollows.refl : ∀ (h : Hierarchy) (S : SimContext h), TreeFollows h .none S S
  | .node _ children, (_, ks) => ⟨.of_signals fun _ _ => rfl, KidsFollow.refl children 0 ks⟩

theorem KidsFollow.refl : ∀ (c : Instances) (k : ℕ) (S : SimChildren c), KidsFollow c k .none S S
  | .nil, _, _ => trivial
  | .cons _ child rest, k, (ctx, ks) =>
    ⟨TreeFollows.refl child ctx, KidsFollow.refl rest (k + 1) ks⟩

end

/-- The levels seen in the instances before the first one do not matter. -/
theorem KidsFollow.congr : ∀ (c : Instances) {k : ℕ} {a b : ResetsSeen} {S T : SimChildren c},
    (∀ j, k ≤ j → ∀ path, a (j :: path) = b (j :: path)) →
    KidsFollow c k a S T → KidsFollow c k b S T
  | .nil, _, _, _, _, _, _, _ => trivial
  | .cons _ child rest, k, a, b, (_, _), (_, _), hab, ⟨h, hk⟩ => by
      refine ⟨?_, KidsFollow.congr rest (fun j hj => hab j (by omega)) hk⟩
      have hseen : (fun path => a (k :: path)) = fun path => b (k :: path) :=
        funext fun path => hab k le_rfl path
      rw [← hseen]
      exact h

theorem ResetsSeen.append_none (a : ResetsSeen) : a.append .none = a := by
  funext path d
  exact List.append_nil _

/-- Steps that fire nothing. -/
theorem TreeFollows.trans {h : Hierarchy} {S T U : SimContext h} (hst : TreeFollows h .none S T)
    (htu : TreeFollows h .none T U) : TreeFollows h .none S U :=
  TreeFollows.append h hst htu

theorem TreeFollows.withState {h : Hierarchy} (S : SimContext h) {t : CtxState}
    (ht : ∀ i, RegisterAt h.module i → (t.signals i).current = (S.state.signals i).current ∧
      (t.signals i).hasPending = (S.state.signals i).hasPending) :
    TreeFollows h .none S (S.withState t) := by
  cases h with
  | node m children => exact ⟨.of_kept ht, KidsFollow.refl children 0 S.2⟩

mutual

theorem TreeFollows.idle : ∀ (h : Hierarchy) {S T : SimContext h}, TreeFollows h .none S T →
    TreeIdle h S → TreeIdle h T
  | .node _ children, (_, _), (_, _), ⟨hst, hk⟩, ⟨hs, hks⟩ =>
    ⟨hst.idle hs, KidsFollow.idle children hk hks⟩

theorem KidsFollow.idle : ∀ (c : Instances) {k : ℕ} {S T : SimChildren c},
    KidsFollow c k .none S T → KidsIdle c S → KidsIdle c T
  | .nil, _, _, _, _, _ => trivial
  | .cons _ child rest, _, (_, _), (_, _), ⟨hst, hk⟩, ⟨hs, hks⟩ =>
    ⟨TreeFollows.idle child hst hs, KidsFollow.idle rest hk hks⟩

end

/-! ## Settling and propagation -/

theorem portMapping_port {parent child : IRModule} {conn : IRInstanceConnection}
    {dir : IRPortDirection} {pm : SimPortMapping}
    (h : portMapping parent child conn = some (dir, pm)) : ¬ RegisterAt child pm.childIndex := by
  unfold portMapping at h
  split at h
  · cases h
  · split at h
    · rename_i sig ce pe hsig hce _
      split at h
      · rename_i dir' hkind
        cases h
        rintro ⟨sig', lit, hsig', hreg⟩
        rw [IRModule.signalOf, hce, Option.bind_some, hsig'] at hsig
        cases hsig
        rw [hkind] at hreg
        cases hreg
      · cases h
    · cases h

theorem inputMaps_port {parent child : IRModule} {inst : IRInstance} {pm : SimPortMapping}
    (h : pm ∈ inputMaps parent child inst) : ¬ RegisterAt child pm.childIndex := by
  obtain ⟨⟨dir, pm'⟩, hmem, heq⟩ := List.mem_filterMap.mp h
  obtain ⟨conn, _, hconn⟩ := List.mem_filterMap.mp hmem
  split at heq
  · cases heq
  · cases heq
    exact portMapping_port hconn

/-- Two states with the same registers. -/
def SameRegisters (m : IRModule) (s t : CtxState) : Prop :=
  ∀ i, RegisterAt m i → (t.signals i).current = (s.signals i).current ∧
    (t.signals i).hasPending = (s.signals i).hasPending

section

variable {m : IRModule} {s t u : CtxState}

theorem SameRegisters.trans (h : SameRegisters m s t) (h' : SameRegisters m t u) :
    SameRegisters m s u := fun i hi =>
  ⟨(h' i hi).1.trans (h i hi).1, (h' i hi).2.trans (h i hi).2⟩

theorem SameRegisters.of_signals (h : t.signals = s.signals) : SameRegisters m s t :=
  fun i _ => by rw [h]; exact ⟨rfl, rfl⟩

theorem sameRegisters_setCurrent {i : ℕ} (hi : ¬ RegisterAt m i) (v : SimValue) :
    SameRegisters m s (s.setCurrent i v) := fun j hj =>
  ⟨(setCurrent_current s i j v).trans (if_neg fun hji : j = i => hi (hji ▸ hj)),
    setCurrent_hasPending s i j v⟩

theorem propagateToChild_same (parent : CtxState) : ∀ (maps : List SimPortMapping),
    (∀ pm ∈ maps, ¬ RegisterAt m pm.childIndex) → ∀ (acc : Bool × CtxState),
    SameRegisters m acc.2 (maps.foldl (propagateInput parent) acc).2
  | [], _, _ => .of_signals rfl
  | pm :: rest, hm, acc => by
      rw [List.foldl_cons]
      refine .trans ?_ (propagateToChild_same parent rest (fun x hx => hm x (.tail _ hx)) _)
      have hset := @sameRegisters_setCurrent m acc.2 pm.childIndex (hm pm (.head _))
        (inputValue pm parent)
      unfold propagateInput
      simp only
      split
      · exact hset
      · exact hset.trans (.of_signals rfl)

theorem propagateFromChild_same (child : CtxState) : ∀ (maps : List SimPortMapping),
    (∀ pm ∈ maps, ¬ RegisterAt m pm.parentIndex) → ∀ (s : CtxState),
    SameRegisters m s (propagateFromChild maps s child)
  | [], _, _ => .of_signals rfl
  | pm :: rest, hm, s => by
      refine .trans ?_ (propagateFromChild_same child rest (fun x hx => hm x (.tail _ hx)) _)
      have hset := fun v => @sameRegisters_setCurrent m s pm.parentIndex (hm pm (.head _)) v
      unfold propagateOutput
      simp only
      split
      · exact .of_signals rfl
      · split
        · split
          · exact hset _
          · exact (hset _).trans (.of_signals rfl)
        · split
          · exact .of_signals rfl
          · exact (hset _).trans (.of_signals rfl)

end

mutual

theorem settleHierarchyOnce_follows : ∀ (h : Hierarchy), DesignOwned h → ∀ (S : SimContext h),
    TreeFollows h .none S (settleHierarchyOnce buildAsyncChunks h S)
  | .node m children, ⟨hm, hkids⟩, (s, ks) => by
      have hown : SameRegisters m s (settleOwn (buildAsyncChunks m) m s) := fun i hi => by
        rw [settleOwn_kept hm s hi]
        exact ⟨rfl, rfl⟩
      obtain ⟨hsame, hk⟩ := settleChildren_follows m children 0 hkids
        (settleOwn (buildAsyncChunks m) m s) ks
      exact ⟨.of_kept (hown.trans hsame), hk⟩

theorem settleChildren_follows (m : IRModule) : ∀ (c : Instances) (k : ℕ), KidsOwned m c →
    ∀ (s : CtxState) (ks : SimChildren c),
    SameRegisters m s (settleChildren buildAsyncChunks m c s ks).1 ∧
      KidsFollow c k .none ks (settleChildren buildAsyncChunks m c s ks).2
  | .nil, _, _, _, _ => ⟨.of_signals rfl, trivial⟩
  | .cons inst child rest, k, ⟨hout, hchild, hrest⟩, s, (ctx, ks) => by
      have hin := @propagateToChild_same child.module s (inputMaps m child.module inst)
        (fun pm => inputMaps_port) (false, ctx.state)
      have hsent := TreeFollows.withState ctx hin
      rw [settleChildren]
      simp only
      split
      · obtain ⟨hsame, hk⟩ := settleChildren_follows m rest (k + 1) hrest
          (s.raiseError (propagateToChild (inputMaps m child.module inst) s ctx.state).2.runtimeError) ks
        exact ⟨(SameRegisters.of_signals rfl).trans hsame, hsent, hk⟩
      · have hpass := settleHierarchyOnce_follows child hchild
          (ctx.withState (propagateToChild (inputMaps m child.module inst) s ctx.state).2.clearSettleDirty)
        have hclear : SameRegisters child.module ctx.state
            (propagateToChild (inputMaps m child.module inst) s ctx.state).2.clearSettleDirty :=
          SameRegisters.trans hin (.of_signals rfl)
        generalize settleHierarchyOnce buildAsyncChunks child (ctx.withState
          (propagateToChild (inputMaps m child.module inst) s ctx.state).2.clearSettleDirty) = ctx'
          at hpass ⊢
        have herr : SameRegisters m s (s.raiseError ctx'.state.runtimeError) := .of_signals rfl
        obtain ⟨hsame, hk⟩ := settleChildren_follows m rest (k + 1) hrest _ ks
        exact ⟨herr.trans ((propagateFromChild_same _ _ hout _).trans hsame),
          (TreeFollows.withState ctx hclear).trans hpass, hk⟩

end

mutual

theorem clearSigDirty_follows : ∀ (h : Hierarchy) (S : SimContext h),
    TreeFollows h .none S (clearSigDirty h S)
  | .node _ children, (_, ks) => ⟨.of_signals fun _ _ => rfl, clearKidsDirty_follows children 0 ks⟩

theorem clearKidsDirty_follows : ∀ (c : Instances) (k : ℕ) (ks : SimChildren c),
    KidsFollow c k .none ks (clearKidsDirty c ks)
  | .nil, _, _ => trivial
  | .cons _ child rest, k, (ctx, ks) =>
    ⟨clearSigDirty_follows child ctx, clearKidsDirty_follows rest (k + 1) ks⟩

end

theorem simSettleCombinational_follows {h : Hierarchy} (hd : DesignOwned h) (S : SimContext h)
    (n : ℕ) : TreeFollows h .none S (simSettleCombinational buildAsyncChunks h S n).2 := by
  unfold simSettleCombinational
  split
  · unfold settleLoop
    have hpass : ∀ T, TreeFollows h .none S T →
        TreeFollows h .none S (settlePass buildAsyncChunks h T) := fun T hT => by
      have hclear := TreeFollows.withState T (SameRegisters.of_signals rfl :
        SameRegisters h.module T.state T.state.clearSettleDirty)
      exact hT.trans (hclear.trans (settleHierarchyOnce_follows h hd _))
    exact DirtySkip.repeatPass_inv hpass
      (fun T hT _ => (hpass T hT).trans (clearSigDirty_follows h _)) n (TreeFollows.refl h S)
  · exact TreeFollows.refl h S

mutual

theorem propagateToAllChildren_follows : ∀ (h : Hierarchy) (S : SimContext h),
    TreeFollows h .none S (propagateToAllChildren h S)
  | .node m children, (s, ks) =>
    ⟨.of_signals fun _ _ => rfl, propagateToKids_follows m children 0 s ks⟩

theorem propagateToKids_follows (m : IRModule) : ∀ (c : Instances) (k : ℕ) (s : CtxState)
    (ks : SimChildren c), KidsFollow c k .none ks (propagateToKids m c s ks)
  | .nil, _, _, _ => trivial
  | .cons inst child rest, k, s, (ctx, ks) => by
      have hin := @propagateToChild_same child.module s (inputMaps m child.module inst)
        (fun pm => inputMaps_port) (false, ctx.state)
      exact ⟨(TreeFollows.withState ctx hin).trans (propagateToAllChildren_follows child _),
        propagateToKids_follows m rest (k + 1) s ks⟩

end

mutual

theorem simCtxApplyNbaTree_follows : ∀ (h : Hierarchy) (S : SimContext h),
    TreeFollows h .none S (simCtxApplyNbaTree h S) ∧ TreeIdle h (simCtxApplyNbaTree h S)
  | .node _ children, (s, ks) =>
    ⟨⟨simCtxApplyNba_follow s, (simCtxApplyNbaKids_follows children 0 ks).1⟩,
      simCtxApplyNba_idle s, (simCtxApplyNbaKids_follows children 0 ks).2⟩

theorem simCtxApplyNbaKids_follows : ∀ (c : Instances) (k : ℕ) (ks : SimChildren c),
    KidsFollow c k .none ks (simCtxApplyNbaKids c ks) ∧ KidsIdle c (simCtxApplyNbaKids c ks)
  | .nil, _, _ => ⟨trivial, trivial⟩
  | .cons _ child rest, k, (ctx, ks) =>
    ⟨⟨(simCtxApplyNbaTree_follows child ctx).1, (simCtxApplyNbaKids_follows rest (k + 1) ks).1⟩,
      (simCtxApplyNbaTree_follows child ctx).2, (simCtxApplyNbaKids_follows rest (k + 1) ks).2⟩

end

end JzHdl

import JzHdl.Sim.ResetTree

/-! # Resets seen by an edge

The firings of a clock edge with the reset level each of them saw. After the
edge the registers of every domain follow these levels.
-/

namespace JzHdl

mutual

/-- The levels seen by the firings of `fireContext`. -/
def fireSeen : (h : Hierarchy) → ℕ → SimContext h → ResetsSeen
  | .node m children, port, (s, kids) =>
    (m.clockDomains.zipIdx.foldl (fun acc (cd, d) =>
      if cd.clockSignalId = port then
        let r := execChildrenSyncForClock children 0 port acc.1.2
        (((fireChildDomain m cd acc.1.1).raiseError r.2.1, r.1),
          acc.2.append ((ResetsSeen.own d (resetActive m cd acc.1.1)).append
            (childrenSeen children 0 port acc.1.2)))
      else acc) ((s, kids), ResetsSeen.none)).2

def childrenSeen : (c : Instances) → ℕ → ℕ → SimChildren c → ResetsSeen
  | .nil, _, _, _ => .none
  | .cons inst child rest, k, clk, (ctx, kids) =>
    match childClockPort inst clk with
    | none => childrenSeen rest (k + 1) clk kids
    | some port =>
      (ResetsSeen.below k (fireSeen child port ctx)).append (childrenSeen rest (k + 1) clk kids)

end

theorem childrenSeen_nil (c : Instances) (k clk : ℕ) (kids : SimChildren c) :
    childrenSeen c k clk kids [] = fun _ => [] := by
  cases c with
  | nil => rfl
  | cons inst child rest =>
    obtain ⟨ctx, kids⟩ := kids
    have ih := childrenSeen_nil rest (k + 1) clk kids
    rw [childrenSeen]
    cases childClockPort inst clk with
    | none => exact ih
    | some port =>
      funext d
      simp only [ResetsSeen.append, ResetsSeen.below, ih, List.append_nil]

theorem childrenSeen_before : ∀ (c : Instances) (k clk : ℕ) (kids : SimChildren c) (j : ℕ)
    (path : List ℕ), j < k → childrenSeen c k clk kids (j :: path) = fun _ => []
  | .nil, _, _, _, _, _, _ => rfl
  | .cons inst child rest, k, clk, (ctx, kids), j, path, hj => by
      have ih := childrenSeen_before rest (k + 1) clk kids j path (by omega)
      rw [childrenSeen]
      cases childClockPort inst clk with
      | none => exact ih
      | some port =>
        funext d
        simp only [ResetsSeen.append, ResetsSeen.below, ih, List.append_nil]
        exact if_neg (by omega)

theorem RegistersFollow.raiseError {m : IRModule} {levels : ℕ → List Bool} {s t : CtxState}
    (h : RegistersFollow m levels s t) (b : Bool) : RegistersFollow m levels s (t.raiseError b) := h

theorem own_append_childrenSeen (d : ℕ) (level : Bool) (c : Instances) (k clk : ℕ)
    (kids : SimChildren c) : (ResetsSeen.own d level).append (childrenSeen c k clk kids) [] =
      ResetsSeen.own d level [] := by
  funext e
  simp only [ResetsSeen.append, childrenSeen_nil, List.append_nil]

mutual

theorem fireContext_follows : ∀ (h : Hierarchy), DesignOwned h → ∀ (port : ℕ) (S : SimContext h),
    TreeFollows h (fireSeen h port S) S (fireContext h port S).1
  | .node m children, ⟨hm, hkids⟩, port, (s, ks) => by
      rw [fireSeen, fireContext]
      -- both folds visit the same contexts
      refine (List.foldl_rel (r := fun (x : (CtxState × SimChildren children) × ResetsSeen)
        (y : SimContext (.node m children) × Bool × List Firing) =>
          TreeFollows (.node m children) x.2 (s, ks) y.1 ∧ y.1 = x.1)
        ⟨TreeFollows.refl _ _, rfl⟩ ?_).1
      rintro ⟨cd, d⟩ hmem ⟨_, seen⟩ ⟨⟨t, kt⟩, flag, log⟩ ⟨hy, rfl⟩
      by_cases hp : cd.clockSignalId = port
      · simp only [if_pos hp]
        refine ⟨TreeFollows.append _ hy ⟨?_, ?_⟩, rfl⟩
        · rw [own_append_childrenSeen]
          exact (fireChildDomain_follow hm (getElem?_of_mem_zipIdx hmem) t).raiseError _
        · refine KidsFollow.congr children (fun j _ path => ?_)
            (execChildren_follows children 0 hkids port kt)
          funext e
          simp [ResetsSeen.append, ResetsSeen.own]
      · simp only [if_neg hp]
        exact ⟨hy, rfl⟩

theorem execChildren_follows {m : IRModule} : ∀ (c : Instances) (k : ℕ), KidsOwned m c →
    ∀ (clk : ℕ) (ks : SimChildren c),
    KidsFollow c k (childrenSeen c k clk ks) ks (execChildrenSyncForClock c k clk ks).1
  | .nil, _, _, _, _ => trivial
  | .cons inst child rest, k, ⟨_, hchild, hrest⟩, clk, (ctx, ks) => by
      have ih := execChildren_follows rest (k + 1) hrest clk ks
      have hbefore : ∀ path, childrenSeen rest (k + 1) clk ks (k :: path) = fun _ => [] :=
        fun path => childrenSeen_before rest (k + 1) clk ks k path (Nat.lt_succ_self k)
      rw [childrenSeen, execChildrenSyncForClock]
      cases hport : childClockPort inst clk with
      | none =>
        refine ⟨?_, ih⟩
        have hnone : (fun path => childrenSeen rest (k + 1) clk ks (k :: path)) = ResetsSeen.none :=
          funext hbefore
        simp only [hnone]
        exact TreeFollows.refl child ctx
      | some port =>
        refine ⟨?_, KidsFollow.congr rest (fun j hj path => ?_) ih⟩
        · have hseen : (fun path => (ResetsSeen.below k (fireSeen child port ctx)).append
              (childrenSeen rest (k + 1) clk ks) (k :: path)) = fireSeen child port ctx := by
            funext path d
            simp [ResetsSeen.append, ResetsSeen.below, hbefore]
          simp only [hseen]
          exact fireContext_follows child hchild port ctx
        · funext d
          have hne : j ≠ k := by omega
          simp [ResetsSeen.append, ResetsSeen.below, hne]

end

/-- The levels seen by one fired domain of the root and the instances below it. -/
def rootSeen (h : Hierarchy) (cd : IRClockDomain) (d : ℕ) (ctx : SimContext h) : ResetsSeen :=
  let reset := resetActive h.module cd ctx.state
  let ctx1 := if reset then ctx.withState (simApplyDomainReset h.module cd ctx.state) else ctx
  (ResetsSeen.own d reset).append
    (childrenSeen h.children 0 cd.clockSignalId (propagateToAllChildren h ctx1).kids)

theorem fireRootDomain_follows : ∀ (h : Hierarchy), DesignOwned h → ∀ {d : ℕ} {cd : IRClockDomain},
    h.module.clockDomains[d]? = some cd → ∀ (S : SimContext h),
    TreeFollows h (rootSeen h cd d S) S (fireRootDomain h true cd d S).1 ∧
      TreeIdle h (fireRootDomain h true cd d S).1
  | .node m children, ⟨hm, hkids⟩, d, cd, hcd, (s, ks) => by
      have hfire := fireChildDomain_follow hm hcd s
      have hchildren : ∀ s1 : CtxState, KidsFollow children 0
          ((ResetsSeen.own d (resetActive m cd s)).append
            (childrenSeen children 0 cd.clockSignalId (propagateToKids m children s1 ks))) ks
          (execChildrenSyncForClock children 0 cd.clockSignalId
            (propagateToKids m children s1 ks)).1 := fun s1 => by
        have hsent := KidsFollow.append children (propagateToKids_follows m children 0 s1 ks)
          (execChildren_follows children 0 hkids cd.clockSignalId (propagateToKids m children s1 ks))
        refine KidsFollow.congr children (fun j _ path => ?_) hsent
        funext e
        simp [ResetsSeen.append, ResetsSeen.own, ResetsSeen.none]
      have hfired : ∃ T : SimContext (.node m children),
          TreeFollows (.node m children) (rootSeen (.node m children) cd d (s, ks)) (s, ks) T ∧
            (fireRootDomain (.node m children) true cd d (s, ks)).1 =
              simCtxApplyNbaTree (.node m children) T := by
        unfold fireChildDomain at hfire
        cases hr : resetActive m cd s with
        | true =>
          rw [hr] at hfire hchildren
          refine ⟨(fireRootDomain (.node m children) false cd d (s, ks)).1, ⟨?_, ?_⟩, rfl⟩
          all_goals simp only [rootSeen, fireRootDomain, Hierarchy.module, SimContext.state, hr,
            SimContext.withState, simExecSyncDomainWithChildren, propagateToAllChildren, if_true,
            Bool.false_eq_true, SimContext.kids, Hierarchy.children]
          · rw [own_append_childrenSeen]
            exact RegistersFollow.raiseError hfire _
          · exact hchildren _
        | false =>
          rw [hr] at hfire hchildren
          refine ⟨(fireRootDomain (.node m children) false cd d (s, ks)).1, ⟨?_, ?_⟩, rfl⟩
          all_goals simp only [rootSeen, fireRootDomain, Hierarchy.module, SimContext.state, hr,
            simExecSyncDomainWithChildren, propagateToAllChildren,
            Bool.false_eq_true, if_false, SimContext.kids, Hierarchy.children]
          · rw [own_append_childrenSeen]
            exact RegistersFollow.raiseError hfire _
          · exact hchildren _
      obtain ⟨T, hT, heq⟩ := hfired
      obtain ⟨hcommit, hidle⟩ := simCtxApplyNbaTree_follows (.node m children) T
      rw [heq]
      refine ⟨?_, hidle⟩
      have hall := TreeFollows.append (.node m children) hT hcommit
      rwa [ResetsSeen.append_none] at hall

/-- The levels seen by the firings of `simFireDomainsForClock` with a commit after each domain. -/
def fireDomainsSeen (h : Hierarchy) (clockPortId : Option ℕ) (newClk : Bool) (ctx : SimContext h) :
    ResetsSeen :=
  (h.module.clockDomains.zipIdx.foldl (fun acc (cd, d) =>
    if (clockPortId = none ∨ clockPortId = some cd.clockSignalId) ∧ cd.edge.isActive newClk then
      ((fireRootDomain h true cd d acc.1).1, acc.2.append (rootSeen h cd d acc.1))
    else acc) (ctx, ResetsSeen.none)).2

theorem simFireDomainsForClock_follows {h : Hierarchy} (hd : DesignOwned h)
    (clockPortId : Option ℕ) (newClk : Bool) {S : SimContext h} (hS : TreeIdle h S) :
    TreeFollows h (fireDomainsSeen h clockPortId newClk S) S
        (simFireDomainsForClock h clockPortId newClk true S).1 ∧
      TreeIdle h (simFireDomainsForClock h clockPortId newClk true S).1 := by
  unfold fireDomainsSeen simFireDomainsForClock
  have hfold := List.foldl_rel (r := fun (x : SimContext h × ResetsSeen)
      (y : SimContext h × List Firing) =>
      (TreeFollows h x.2 S y.1 ∧ TreeIdle h y.1) ∧ y.1 = x.1)
    (l := h.module.clockDomains.zipIdx)
    (f := fun acc p => if (clockPortId = none ∨ clockPortId = some p.1.clockSignalId) ∧
        p.1.edge.isActive newClk then
      ((fireRootDomain h true p.1 p.2 acc.1).1, acc.2.append (rootSeen h p.1 p.2 acc.1)) else acc)
    (g := fun acc p => if (clockPortId = none ∨ clockPortId = some p.1.clockSignalId) ∧
        p.1.edge.isActive newClk then
      ((fireRootDomain h true p.1 p.2 acc.1).1,
        acc.2 ++ (fireRootDomain h true p.1 p.2 acc.1).2) else acc)
    (a := (S, ResetsSeen.none)) (b := (S, []))
    ⟨⟨TreeFollows.refl h S, hS⟩, rfl⟩ ?_
  · exact hfold.1
  · rintro ⟨cd, d⟩ hmem ⟨_, seen⟩ ⟨T, log⟩ ⟨⟨hT, hidle⟩, rfl⟩
    split
    · obtain ⟨hfire, hidle'⟩ := fireRootDomain_follows h hd (getElem?_of_mem_zipIdx hmem) T
      exact ⟨⟨TreeFollows.append h hT hfire, hidle'⟩, rfl⟩
    · exact ⟨⟨hT, hidle⟩, rfl⟩

end JzHdl

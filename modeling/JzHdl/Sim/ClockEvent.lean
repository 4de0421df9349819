import JzHdl.Sim.ClockEdge
import JzHdl.Sim.Simultaneous
import JzHdl.Sim.Staged

/-! # Clock events

A clock event as a sequence of firings, copies of inputs and commits over an
instance tree. Each context only meets the operations that reach it, so the
simulation of the snapshot goes context by context.
-/

namespace JzHdl

/-- A firing of a domain, the copy of all inputs, or the commit of all staged writes. -/
inductive EventOp where

  | fire (path : List ℕ) (d : ℕ)

  | send

  | commit

namespace EventOp

/-- The operation on the context itself. -/
def here : EventOp → Option LocalOp
  | .fire [] d => some (.fire d)
  | .fire (_ :: _) _ => none
  | .send => some .send
  | .commit => some .commit

/-- The operation on the subtree of one instance. -/
def below (k : ℕ) : EventOp → Option EventOp
  | .fire [] _ => none
  | .fire (j :: path) d => if j = k then some (.fire path d) else none
  | .send => some .send
  | .commit => some .commit

def firing : EventOp → Option Firing
  | .fire path d => some (path, d)
  | .send | .commit => none

end EventOp

def localOps (ops : List EventOp) : List LocalOp := ops.filterMap EventOp.here

def opsBelow (k : ℕ) (ops : List EventOp) : List EventOp := ops.filterMap (EventOp.below k)

def firings (ops : List EventOp) : List Firing := ops.filterMap EventOp.firing

def fires (log : List Firing) : List EventOp := log.map fun f => .fire f.1 f.2

/-- The parent signals that the instances of a module take their inputs from. -/
def inputSources (m : IRModule) : Instances → List ℕ
  | .nil => []
  | .cons inst child rest =>
    (inputMaps m child.module inst).map (·.parentIndex) ++ inputSources m rest

/-- A property of a context: its module, its ports, the operations on it and two states. -/
abbrev CtxProperty := IRModule → List ℕ → List LocalOp → CtxState → CtxState → Prop

section

variable (P : CtxProperty)

mutual

/-- A property of every context of a tree. -/
def OnTree : (h : Hierarchy) → List ℕ → List EventOp → SimContext h → SimContext h → Prop
  | .node m children, ports, ops, (s, ks), (t, kt) =>
    P m (ports ++ inputSources m children) (localOps ops) s t ∧ OnKids m children 0 ops ks kt

def OnKids (m : IRModule) :
    (c : Instances) → ℕ → List EventOp → SimChildren c → SimChildren c → Prop
  | .nil, _, _, _, _ => True
  | .cons inst child rest, k, ops, (cs, ks), (ct, kt) =>
    OnTree child ((inputMaps m child.module inst).map (·.childIndex)) (opsBelow k ops) cs ct ∧
      OnKids m rest (k + 1) ops ks kt

end

end

mutual

/-- Every input of an instance has the value its parent hands to it. -/
def Held : (h : Hierarchy) → SimContext h → Prop
  | .node m children, (s, kids) => KidsHeld m children s kids

def KidsHeld (m : IRModule) : (c : Instances) → CtxState → SimChildren c → Prop
  | .nil, _, _ => True
  | .cons inst child rest, s, (ctx, kids) =>
    (∀ pm ∈ inputMaps m child.module inst,
      (ctx.state.signals pm.childIndex).current = inputValue pm s) ∧
      Held child ctx ∧ KidsHeld m rest s kids

end

section

variable {m : IRModule} {P Q : CtxProperty} {R : List EventOp → List EventOp → Prop}
  {ops ops' new : List EventOp}

section

variable (k : ℕ) (a b : List EventOp)

theorem localOps_append : localOps (a ++ b) = localOps a ++ localOps b := List.filterMap_append

theorem opsBelow_append : opsBelow k (a ++ b) = opsBelow k a ++ opsBelow k b :=
  List.filterMap_append

theorem firings_append : firings (a ++ b) = firings a ++ firings b := List.filterMap_append

theorem firings_fires (log : List Firing) : firings (fires log) = log := by
  induction log with
  | nil => rfl
  | cons f rest ih => exact congrArg (f :: ·) ih

end

/-- What carries a property of every context over to other operations. -/
structure Carries (P Q : CtxProperty) (R : List EventOp → List EventOp → Prop) : Prop where

  below : ∀ k a b, R a b → R (opsBelow k a) (opsBelow k b)

  here : ∀ m ports a b s t, R a b → P m ports (localOps a) s t → Q m ports (localOps b) s t

mutual

theorem OnTree.imp (hR : Carries P Q R) :
    ∀ (h : Hierarchy) {ports : List ℕ} {a b : List EventOp} {S T : SimContext h}, R a b →
      OnTree P h ports a S T → OnTree Q h ports b S T
  | .node _ children, _, _, _, (_, _), (_, _), hr, ⟨ht, hk⟩ =>
      ⟨hR.here _ _ _ _ _ _ hr ht, OnKids.imp hR children hr hk⟩

theorem OnKids.imp (hR : Carries P Q R) :
    ∀ (c : Instances) {m : IRModule} {k : ℕ} {a b : List EventOp} {ks kt : SimChildren c},
      R a b → OnKids P m c k a ks kt → OnKids Q m c k b ks kt
  | .nil, _, _, _, _, _, _, _, _ => trivial
  | .cons _ child rest, _, k, a, b, (_, _), (_, _), hr, ⟨ht, hk⟩ =>
      ⟨OnTree.imp hR child (hR.below k a b hr) ht, OnKids.imp hR rest hr hk⟩

end

/-- Only the operations below the instances matter to them. -/
theorem OnKids.congr : ∀ {c : Instances} {k : ℕ} {ks kt : SimChildren c},
    (∀ j, k ≤ j → opsBelow j ops = opsBelow j ops') →
    OnKids P m c k ops ks kt → OnKids P m c k ops' ks kt
  | .nil, _, _, _, _, _ => trivial
  | .cons _ _ _, k, (_, _), (_, _), he, h => by
      refine ⟨?_, OnKids.congr (fun j hj => he j (by omega)) h.2⟩
      rw [← he k le_rfl]
      exact h.1

/-! ## The simulation -/

/-- The operations read nothing that the event has changed, and their writes do not collide. -/
def Allowed : CtxProperty := fun m ports ops s _ =>
  OpsClear m s ports Seen.none ops ∧ (opsWrites m s ops).Pairwise Write.Compatible

def Tracked : CtxProperty := fun m _ ops s t =>
  Follows m s (Seen.none.afterAll m s ops) (opsWrites m s ops) t

/-- Nothing is staged. -/
def Idle : CtxProperty := fun _ _ _ s _ => ∀ i, (s.signals i).hasPending = false

theorem Allowed.of_append {s t : CtxState} {ports : List ℕ} {a b : List LocalOp}
    (h : Allowed m ports (a ++ b) s t) : Allowed m ports a s t := by
  obtain ⟨h1, h2⟩ := h
  rw [opsWrites_append] at h2
  exact ⟨(opsClear_append.mp h1).1, (List.pairwise_append.mp h2).1⟩

theorem carries_allowed_prefix : Carries Allowed Allowed fun a b => b <+: a where
  below _ _ _ hab := hab.filterMap _
  here _ _ _ _ _ _ hab h := by
    obtain ⟨c, hc⟩ := List.IsPrefix.filterMap EventOp.here hab
    rw [localOps, ← hc] at h
    exact h.of_append

theorem OnTree.allowed_prefix {h : Hierarchy} {ports : List ℕ} {S T : SimContext h}
    (ha : OnTree Allowed h ports (ops ++ new) S T) : OnTree Allowed h ports ops S T :=
  OnTree.imp carries_allowed_prefix h (List.prefix_append _ _) ha

theorem Tracked.fire {s t : CtxState} {ports : List ℕ} {lops : List LocalOp} {d : ℕ}
    {cd : IRClockDomain} (h : Tracked m ports lops s t) (hd : m.clockDomains[d]? = some cd)
    (ha : Allowed m ports (lops ++ [.fire d]) s s) :
    Tracked m ports (lops ++ [.fire d]) s (fireChildDomain m cd t) := by
  obtain ⟨h1, h2⟩ := ha
  have hw : opsWrites m s [.fire d] = fireWrites m s d := by simp [opsWrites, opWrites]
  rw [opsWrites_append, hw] at h2
  rw [Tracked, opsWrites_append, Seen.afterAll_append, hw]
  exact Follows.fire h hd (opsClear_append.mp h1).2.1 h2

theorem Tracked.send {s t : CtxState} {ports : List ℕ} {lops : List LocalOp}
    (h : Tracked m ports lops s t) : Tracked m ports (lops ++ [.send]) s t := by
  rw [Tracked, opsWrites_append, Seen.afterAll_append]
  simpa [Tracked, opsWrites, opWrites, Seen.afterAll, Seen.after] using h

theorem Tracked.commit {s t : CtxState} {ports : List ℕ} {lops : List LocalOp}
    (h : Tracked m ports lops s t) :
    Tracked m ports (lops ++ [.commit]) s (simCtxApplyNba m t) := by
  rw [Tracked, opsWrites_append, Seen.afterAll_append]
  simpa [opsWrites, opWrites, Seen.afterAll, Seen.after] using Follows.commit h

theorem Tracked.current {s t : CtxState} {ports : List ℕ} {lops : List LocalOp}
    (h : Tracked m ports lops s t) (ha : Allowed m ports (lops ++ [.send]) s s) :
    ∀ i ∈ ports, (t.signals i).current = (s.signals i).current := by
  intro i hi
  exact h.agree.current i ((opsClear_append.mp ha.1).2.1 i hi)

end

/-! ## Copying inputs -/

theorem propagateToChild_held {maps : List SimPortMapping} {s c : CtxState}
    (h : ∀ pm ∈ maps, (c.signals pm.childIndex).current = inputValue pm s) :
    propagateToChild maps s c = (false, c) := by
  rw [propagateToChild]
  induction maps with
  | nil => rfl
  | cons pm rest ih =>
    have hone : propagateInput s (false, c) pm = (false, c) := by
      simp only [propagateInput, ← h pm (.head _), simValSame_self, if_true, setCurrent_self]
    rw [List.foldl_cons, hone]
    exact ih fun pm hpm => h pm (.tail _ hpm)

mutual

/-- Where the inputs hold, copying them changes nothing. -/
theorem propagateToAllChildren_held : ∀ (h : Hierarchy) {T : SimContext h}, Held h T →
    propagateToAllChildren h T = T
  | .node m children, (s, kids), h => by
      rw [propagateToAllChildren, propagateToKids_held children h]

theorem propagateToKids_held {m : IRModule} : ∀ (c : Instances) {s : CtxState}
    {kids : SimChildren c}, KidsHeld m c s kids → propagateToKids m c s kids = kids
  | .nil, _, _, _ => rfl
  | .cons inst child rest, s, (ctx, kids), h => by
      obtain ⟨h1, h2, h3⟩ := h
      rw [propagateToKids, propagateToChild_held h1, SimContext.withState_state,
        propagateToAllChildren_held child h2, propagateToKids_held rest h3]

end

theorem OnTree.current : ∀ (h : Hierarchy) {ports : List ℕ} {ops : List EventOp}
    {S T : SimContext h}, OnTree Tracked h ports ops S T →
    OnTree Allowed h ports (ops ++ [.send]) S S →
    ∀ i ∈ ports, (T.state.signals i).current = (S.state.signals i).current
  | .node m children, ports, ops, (s, ks), (t, kt), ht, ha => by
      intro i hi
      have ha' := ha.1
      rw [localOps_append] at ha'
      exact ht.1.current ha' i (List.mem_append_left _ hi)

mutual

/-- Inputs that the event has not changed still hold. -/
theorem Held.tracked : ∀ (h : Hierarchy) {ports : List ℕ} {ops : List EventOp}
    {S T : SimContext h}, OnTree Tracked h ports ops S T →
    OnTree Allowed h ports (ops ++ [.send]) S S → Held h S → Held h T
  | .node m children, ports, ops, (s, ks), (t, kt), ⟨ht, hkt⟩, ⟨ha, hka⟩, hh => by
      rw [localOps_append] at ha
      exact KidsHeld.tracked children hkt hka
        (fun i hi => ht.current ha i (List.mem_append_right _ hi)) hh

theorem KidsHeld.tracked {m : IRModule} : ∀ (c : Instances) {k : ℕ} {ops : List EventOp}
    {s t : CtxState} {ks kt : SimChildren c}, OnKids Tracked m c k ops ks kt →
    OnKids Allowed m c k (ops ++ [.send]) ks ks →
    (∀ i ∈ inputSources m c, (t.signals i).current = (s.signals i).current) →
    KidsHeld m c s ks → KidsHeld m c t kt
  | .nil, _, _, _, _, _, _, _, _, _, _ => trivial
  | .cons inst child rest, k, ops, s, t, (cs, ks), (ct, kt), ⟨ht, hkt⟩, ⟨ha, hka⟩, hsrc,
      ⟨h1, h2, h3⟩ => by
      rw [inputSources, List.forall_mem_append] at hsrc
      rw [opsBelow_append] at ha
      refine ⟨fun pm hpm => ?_, Held.tracked child ht ha h2,
        KidsHeld.tracked rest hkt hka hsrc.2 h3⟩
      rw [OnTree.current child ht ha _ (List.mem_map_of_mem hpm), h1 pm hpm,
        inputValue_congr (hsrc.1 _ (List.mem_map_of_mem hpm))]

end

mutual

theorem OnTree.send : ∀ (h : Hierarchy) {ports : List ℕ} {ops : List EventOp}
    {S T : SimContext h}, OnTree Tracked h ports ops S T →
    OnTree Tracked h ports (ops ++ [.send]) S T
  | .node m children, ports, ops, (s, ks), (t, kt), ⟨ht, hkt⟩ => by
      refine ⟨?_, OnKids.send children hkt⟩
      rw [localOps_append]
      exact ht.send

theorem OnKids.send {m : IRModule} : ∀ (c : Instances) {k : ℕ} {ops : List EventOp}
    {ks kt : SimChildren c}, OnKids Tracked m c k ops ks kt →
    OnKids Tracked m c k (ops ++ [.send]) ks kt
  | .nil, _, _, _, _, _ => trivial
  | .cons inst child rest, k, ops, (cs, ks), (ct, kt), ⟨ht, hkt⟩ => by
      refine ⟨?_, OnKids.send rest hkt⟩
      rw [opsBelow_append]
      exact OnTree.send child ht

end

/-! ## Committing -/

mutual

theorem OnTree.commit : ∀ (h : Hierarchy) {ports : List ℕ} {ops : List EventOp}
    {S T : SimContext h}, OnTree Tracked h ports ops S T →
    OnTree Tracked h ports (ops ++ [.commit]) S (simCtxApplyNbaTree h T)
  | .node m children, ports, ops, (s, ks), (t, kt), ⟨ht, hkt⟩ => by
      refine ⟨?_, OnKids.commit children hkt⟩
      rw [localOps_append]
      exact ht.commit

theorem OnKids.commit {m : IRModule} : ∀ (c : Instances) {k : ℕ} {ops : List EventOp}
    {ks kt : SimChildren c}, OnKids Tracked m c k ops ks kt →
    OnKids Tracked m c k (ops ++ [.commit]) ks (simCtxApplyNbaKids c kt)
  | .nil, _, _, _, _, _ => trivial
  | .cons inst child rest, k, ops, (cs, ks), (ct, kt), ⟨ht, hkt⟩ => by
      refine ⟨?_, OnKids.commit rest hkt⟩
      rw [opsBelow_append]
      exact OnTree.commit child ht

end

/-! ## Firing -/

theorem fires_append (a b : List Firing) : fires (a ++ b) = fires a ++ fires b := List.map_append

theorem localOps_childrenLog (c : Instances) (k clk : ℕ) :
    localOps (fires (childrenLog c k clk)) = [] := by
  rw [localOps, fires, List.filterMap_map, List.filterMap_eq_nil_iff]
  intro f hf
  obtain ⟨j, path, h1, -⟩ := mem_childrenLog hf
  simp only [Function.comp_apply, h1, EventOp.here]

theorem opsBelow_childrenLog (c : Instances) {j k : ℕ} (clk : ℕ) (h : j < k) :
    opsBelow j (fires (childrenLog c k clk)) = [] := by
  rw [opsBelow, fires, List.filterMap_map, List.filterMap_eq_nil_iff]
  intro f hf
  obtain ⟨i, path, h1, h2⟩ := mem_childrenLog hf
  simp only [Function.comp_apply, h1, EventOp.below]
  rw [if_neg (by omega)]

theorem opsBelow_cons_same (k : ℕ) (log : List Firing) :
    opsBelow k (fires (log.map fun f => (k :: f.1, f.2))) = fires log := by
  induction log with
  | nil => rfl
  | cons f rest ih =>
    have ih' : List.filterMap (EventOp.below k) (fires (rest.map fun f => (k :: f.1, f.2))) =
      fires rest := ih
    simp only [opsBelow, fires, List.map_cons] at ih' ⊢
    rw [List.filterMap_cons_some (b := .fire f.1 f.2) (by simp [EventOp.below]), ih']

theorem opsBelow_cons_other {j k : ℕ} (h : k ≠ j) (log : List Firing) :
    opsBelow j (fires (log.map fun f => (k :: f.1, f.2))) = [] := by
  rw [opsBelow, fires, List.map_map, List.filterMap_map, List.filterMap_eq_nil_iff]
  intro f _
  exact if_neg h

/-- A fold that appends a block of operations for each selected element. -/
theorem foldl_tracks {α β σ : Type*} (P : α → Prop) [DecidablePred P] (f : σ → α → σ)
    (block : α → List β) {T : List β → σ → Prop} {A : List β → Prop}
    (hpre : ∀ a b, A (a ++ b) → A a) : ∀ (l : List α) {o : List β} {x : σ},
    (∀ a ∈ l, P a → ∀ o x, T o x → A (o ++ block a) → T (o ++ block a) (f x a)) →
    (∀ a ∈ l, ¬ P a → ∀ x, f x a = x) →
    T o x → A (o ++ (l.filter fun a => P a).flatMap block) →
    T (o ++ (l.filter fun a => P a).flatMap block) (l.foldl f x)
  | [], _, _, _, _, ht, _ => by simpa using ht
  | a :: rest, ops, x, hyes, hno, ht, ha => by
      rw [List.foldl_cons]
      by_cases hp : P a
      · rw [List.filter_cons_of_pos (by simpa using hp), List.flatMap_cons, ← List.append_assoc]
          at ha ⊢
        exact foldl_tracks P f block hpre rest (fun b hb => hyes b (.tail _ hb))
          (fun b hb => hno b (.tail _ hb)) (hyes a (.head _) hp _ _ ht (hpre _ _ ha)) ha
      · rw [List.filter_cons_of_neg (by simpa using hp)] at ha ⊢
        rw [hno a (.head _) hp x]
        exact foldl_tracks P f block hpre rest (fun b hb => hyes b (.tail _ hb))
          (fun b hb => hno b (.tail _ hb)) ht ha

theorem getElem?_of_mem_zipIdx {α : Type*} {l : List α} {p : α × ℕ} (h : p ∈ l.zipIdx) :
    l[p.2]? = some p.1 := List.mem_zipIdx_iff_getElem?.mp h

theorem Tracked.raiseError {m : IRModule} {s t : CtxState} {ports : List ℕ} {lops : List LocalOp}
    (h : Tracked m ports lops s t) (b : Bool) : Tracked m ports lops s (t.raiseError b) :=
  Follows.alike h (Alike.raiseError t b)

mutual

theorem fireContext_tracked : ∀ (h : Hierarchy) (port : ℕ) {ports : List ℕ} {ops : List EventOp}
    {S T : SimContext h}, OnTree Tracked h ports ops S T →
    OnTree Allowed h ports (ops ++ fires (fireLog h port)) S S →
    OnTree Tracked h ports (ops ++ fires (fireLog h port)) S (fireContext h port T).1
  | .node m children, port, ports, ops, (s, ks), (t, kt), ht, ha => by
      have hlog : fires (fireLog (.node m children) port) =
          (m.clockDomains.zipIdx.filter fun p => p.1.clockSignalId = port).flatMap fun p =>
            .fire [] p.2 :: fires (childrenLog children 0 port) := by
        rw [fireLog, fires, List.map_flatMap]
        rfl
      rw [hlog] at ha ⊢
      rw [fireContext]
      refine foldl_tracks (fun p : IRClockDomain × ℕ => p.1.clockSignalId = port) _ _
        (T := fun ops (acc : SimContext (.node m children) × Bool × List Firing) =>
          OnTree Tracked (.node m children) ports ops (s, ks) acc.1)
        (A := fun ops => OnTree Allowed (.node m children) ports ops (s, ks) (s, ks))
        (fun _ _ => OnTree.allowed_prefix) _ ?_ ?_ ht ha
      · rintro ⟨cd, d⟩ hmem hp ops ⟨⟨t', kt'⟩, err, log⟩ ⟨ht', hkt'⟩ ⟨ha', hka'⟩
        have hp' : cd.clockSignalId = port := hp
        simp only [if_pos hp']
        have hbelow : ∀ j, opsBelow j [EventOp.fire [] d] = [] := fun j => rfl
        have hsplit : ops ++ EventOp.fire [] d :: fires (childrenLog children 0 port) =
            (ops ++ [.fire [] d]) ++ fires (childrenLog children 0 port) := by simp
        rw [hsplit] at ha' hka' ⊢
        rw [localOps_append, localOps_childrenLog, List.append_nil, localOps_append] at ha'
        refine ⟨?_, ?_⟩
        · rw [localOps_append, localOps_childrenLog, List.append_nil, localOps_append]
          exact (ht'.fire (getElem?_of_mem_zipIdx hmem) ha').raiseError _
        · refine execChildren_tracked children 0 port (OnKids.congr (fun j _ => ?_) hkt') hka'
          rw [opsBelow_append, hbelow, List.append_nil]
      · intro p _ hp acc
        exact if_neg hp

theorem execChildren_tracked {m : IRModule} : ∀ (c : Instances) (k clk : ℕ) {ops : List EventOp}
    {ks kt : SimChildren c}, OnKids Tracked m c k ops ks kt →
    OnKids Allowed m c k (ops ++ fires (childrenLog c k clk)) ks ks →
    OnKids Tracked m c k (ops ++ fires (childrenLog c k clk)) ks
      (execChildrenSyncForClock c k clk kt).1
  | .nil, _, _, _, _, _, _, _ => trivial
  | .cons inst child rest, k, clk, ops, (cs, ks), (ct, kt), ⟨ht, hkt⟩, ⟨ha, hka⟩ => by
      rw [childrenLog, fires_append, ← List.append_assoc] at ha hka ⊢
      rw [execChildrenSyncForClock]
      rw [opsBelow_append, opsBelow_childrenLog rest clk (Nat.lt_succ_self k), List.append_nil,
        opsBelow_append] at ha
      cases hp : childClockPort inst clk with
      | none =>
        simp only [hp] at ha hka ⊢
        refine ⟨?_, execChildren_tracked rest (k + 1) clk (by simpa [fires] using hkt) hka⟩
        rw [opsBelow_append, opsBelow_childrenLog rest clk (Nat.lt_succ_self k), List.append_nil]
        simpa [fires] using ht
      | some port =>
        simp only [hp] at ha hka ⊢
        rw [opsBelow_cons_same] at ha
        refine ⟨?_, execChildren_tracked rest (k + 1) clk (OnKids.congr (fun j hj => ?_) hkt) hka⟩
        · rw [opsBelow_append, opsBelow_childrenLog rest clk (Nat.lt_succ_self k), List.append_nil,
            opsBelow_append, opsBelow_cons_same]
          exact fireContext_tracked child port ht ha
        · rw [opsBelow_append, opsBelow_cons_other (by omega), List.append_nil]

end

/-! ## Events -/

/-- A clock event: the clocks that toggle with their new levels, then the commit of all staged
writes. With `perDomain` each fired domain of the root is also committed by itself. -/
def simClockEvent (h : Hierarchy) (clocks : List (Option ℕ × Bool)) (perDomain : Bool)
    (ctx : SimContext h) : SimContext h × List Firing :=
  let r := clocks.foldl (fun acc clk =>
    let r := simFireDomainsForClock h clk.1 clk.2 perDomain acc.1
    (r.1, acc.2 ++ r.2)) (ctx, [])
  (simCtxApplyNbaTree h r.1, r.2)

/-- The operations of one fired domain of the root. -/
def domainOps (children : Instances) (perDomain : Bool) (p : IRClockDomain × ℕ) : List EventOp :=
  .fire [] p.2 :: .send :: fires (childrenLog children 0 p.1.clockSignalId) ++
    if perDomain then [.commit] else []

/-- The operations of an event, before the last commit. -/
def eventOps (h : Hierarchy) (clocks : List (Option ℕ × Bool)) (perDomain : Bool) : List EventOp :=
  clocks.flatMap fun clk => (firedDomains h.module clk).flatMap (domainOps h.children perDomain)

theorem KidsHeld.congr {m : IRModule} {s t : CtxState}
    (h : ∀ i, (t.signals i).current = (s.signals i).current) : ∀ (c : Instances)
    {kids : SimChildren c}, KidsHeld m c s kids → KidsHeld m c t kids
  | .nil, _, _ => trivial
  | .cons _ _ rest, (_, _), ⟨h1, h2, h3⟩ =>
      ⟨fun pm hpm => (h1 pm hpm).trans (inputValue_congr (h _)).symm, h2, KidsHeld.congr h rest h3⟩

theorem simExecSyncDomainWithChildren_held {m : IRModule} {children : Instances}
    {cd : IRClockDomain} {reset : Bool} {T : SimContext (.node m children)}
    (h : Held (.node m children) T) :
    (simExecSyncDomainWithChildren (.node m children) cd reset T).1 =
      let r := execChildrenSyncForClock children 0 cd.clockSignalId T.2
      ((if reset then T.1 else simExecStmt m true cd.statements T.1).raiseError r.2.1, r.1) := by
  rw [simExecSyncDomainWithChildren, propagateToAllChildren_held _ h]

/-- A root domain whose instances hold their inputs fires as a domain of an instance does. -/
theorem fireRootDomain_held {m : IRModule} {children : Instances} {perDomain : Bool}
    {cd : IRClockDomain} {d : ℕ} {t : CtxState} {kt : SimChildren children}
    (h : KidsHeld m children (fireChildDomain m cd t) kt) :
    (fireRootDomain (.node m children) perDomain cd d (t, kt)).1 =
      let r := execChildrenSyncForClock children 0 cd.clockSignalId kt
      let T : SimContext (.node m children) := ((fireChildDomain m cd t).raiseError r.2.1, r.1)
      if perDomain then simCtxApplyNbaTree (.node m children) T else T := by
  have hfire : (simExecSyncDomainWithChildren (.node m children) cd (resetActive m cd t)
      (if resetActive m cd t then (simApplyDomainReset m cd t, kt) else (t, kt))).1 =
      let r := execChildrenSyncForClock children 0 cd.clockSignalId kt
      ((fireChildDomain m cd t).raiseError r.2.1, r.1) := by
    rw [fireChildDomain] at h ⊢
    cases hr : resetActive m cd t with
    | true =>
      rw [hr] at h
      exact simExecSyncDomainWithChildren_held (T := (simApplyDomainReset m cd t, kt)) h
    | false =>
      rw [hr] at h
      exact simExecSyncDomainWithChildren_held (T := (t, kt)) <|
        KidsHeld.congr (fun i => ((exec_stages cd.statements t).current i).symm) children h
  cases perDomain with
  | true => exact congrArg (simCtxApplyNbaTree (.node m children)) hfire
  | false => exact hfire

theorem fireRootDomain_tracked {m : IRModule} {children : Instances} {perDomain : Bool}
    {ports : List ℕ} {ops : List EventOp} {cd : IRClockDomain} {d : ℕ}
    {S T : SimContext (.node m children)} (hd : m.clockDomains[d]? = some cd)
    (hh : Held (.node m children) S) (ht : OnTree Tracked (.node m children) ports ops S T)
    (ha : OnTree Allowed (.node m children) ports (ops ++ domainOps children perDomain (cd, d)) S S) :
    OnTree Tracked (.node m children) ports (ops ++ domainOps children perDomain (cd, d)) S
      (fireRootDomain (.node m children) perDomain cd d T).1 := by
  obtain ⟨s, ks⟩ := S
  obtain ⟨t, kt⟩ := T
  have hsplit : ops ++ domainOps children perDomain (cd, d) =
      (((ops ++ [.fire [] d]) ++ [.send]) ++ fires (childrenLog children 0 cd.clockSignalId)) ++
        if perDomain then [.commit] else [] := by simp [domainOps]
  rw [hsplit] at ha ⊢
  have hafires := ha.allowed_prefix
  have hasend := hafires.allowed_prefix
  have hafire := hasend.allowed_prefix.1
  have hlocal : localOps (ops ++ [.fire [] d]) = localOps ops ++ [.fire d] := localOps_append ..
  rw [hlocal] at hafire
  have hfired : OnTree Tracked (.node m children) ports (ops ++ [.fire [] d]) (s, ks)
      (fireChildDomain m cd t, kt) := by
    refine ⟨?_, OnKids.congr (fun j _ => ?_) ht.2⟩
    · rw [hlocal]
      exact ht.1.fire hd hafire
    · rw [opsBelow_append]
      exact (List.append_nil _).symm
  have hsent := OnTree.send (.node m children) hfired
  rw [fireRootDomain_held (Held.tracked (.node m children) hfired hasend hh)]
  have hkids := execChildren_tracked children 0 cd.clockSignalId hsent.2 hafires.2
  have hroot : OnTree Tracked (.node m children) ports
      (((ops ++ [.fire [] d]) ++ [.send]) ++ fires (childrenLog children 0 cd.clockSignalId)) (s, ks)
      ((fireChildDomain m cd t).raiseError
        (execChildrenSyncForClock children 0 cd.clockSignalId kt).2.1,
        (execChildrenSyncForClock children 0 cd.clockSignalId kt).1) := by
    refine ⟨?_, hkids⟩
    rw [localOps_append, localOps_childrenLog, List.append_nil]
    exact hsent.1.raiseError _
  cases perDomain with
  | true => exact OnTree.commit (.node m children) hroot
  | false => simpa using hroot

theorem simFireDomainsForClock_tracked {h : Hierarchy} {clk : Option ℕ × Bool} {perDomain : Bool}
    {ports : List ℕ} {ops : List EventOp} {S T : SimContext h} (hh : Held h S)
    (ht : OnTree Tracked h ports ops S T)
    (ha : OnTree Allowed h ports
      (ops ++ (firedDomains h.module clk).flatMap (domainOps h.children perDomain)) S S) :
    OnTree Tracked h ports
      (ops ++ (firedDomains h.module clk).flatMap (domainOps h.children perDomain)) S
      (simFireDomainsForClock h clk.1 clk.2 perDomain T).1 := by
  cases h with
  | node m children =>
    refine foldl_tracks (fun p : IRClockDomain × ℕ =>
      (clk.1 = none ∨ clk.1 = some p.1.clockSignalId) ∧ p.1.edge.isActive clk.2) _ _
      (T := fun ops (acc : SimContext (.node m children) × List Firing) =>
        OnTree Tracked (.node m children) ports ops S acc.1)
      (A := fun ops => OnTree Allowed (.node m children) ports ops S S)
      (fun _ _ => OnTree.allowed_prefix) _ ?_ ?_ ht ha
    · rintro ⟨cd, d⟩ hmem hp ops ⟨T', log⟩ ht' ha'
      have hp' : (clk.1 = none ∨ clk.1 = some cd.clockSignalId) ∧ cd.edge.isActive clk.2 = true := hp
      simp only [if_pos hp']
      exact fireRootDomain_tracked (getElem?_of_mem_zipIdx hmem) hh ht' ha'
    · intro p _ hp acc
      exact if_neg hp

/-- Every ordering of the writes, committed at once onto the snapshot, gives the state. -/
def CommitsAll : CtxProperty := fun m _ ops s t => ∀ ws, ws.Perm (opsWrites m s ops) →
  (∀ i, (t.signals i).current = ((applyWrites s ws).signals i).current) ∧
    t.cells = (applyWrites s ws).cells

mutual

theorem OnTree.commitsAll : ∀ (h : Hierarchy) {ports : List ℕ} {ops : List EventOp}
    {S T : SimContext h}, OnTree Tracked h ports ops S T → OnTree Allowed h ports ops S S →
    OnTree CommitsAll h ports ops S (simCtxApplyNbaTree h T)
  | .node m children, ports, ops, (s, ks), (t, kt), ⟨ht, hkt⟩, ⟨ha, hka⟩ => by
      refine ⟨fun ws hws => ?_, OnKids.commitsAll children hkt hka⟩
      rw [applyWrites_perm hws ha.2]
      exact ⟨Follows.committed ht, (simCtxApplyNba_cells m t).trans ht.cells⟩

theorem OnKids.commitsAll {m : IRModule} : ∀ (c : Instances) {k : ℕ} {ops : List EventOp}
    {ks kt : SimChildren c}, OnKids Tracked m c k ops ks kt → OnKids Allowed m c k ops ks ks →
    OnKids CommitsAll m c k ops ks (simCtxApplyNbaKids c kt)
  | .nil, _, _, _, _, _, _ => trivial
  | .cons _ child rest, _, _, (_, _), (_, _), ⟨ht, hkt⟩, ⟨ha, hka⟩ =>
      ⟨OnTree.commitsAll child ht ha, OnKids.commitsAll rest hkt hka⟩

end

theorem opsWrites_localOps (m : IRModule) (s : CtxState) (ops : List EventOp) :
    opsWrites m s (localOps ops) = (firings ops).flatMap fun f =>
      match f.1 with
      | [] => fireWrites m s f.2
      | _ :: _ => [] := by
  induction ops with
  | nil => rfl
  | cons op rest ih =>
    rw [localOps, opsWrites, firings] at ih ⊢
    rcases op with ⟨_ | ⟨k, path⟩, d⟩ | _ | _
    · exact congrArg (fireWrites m s d ++ ·) ih
    · exact ih
    · exact ih
    · exact ih

theorem firings_opsBelow (k : ℕ) (ops : List EventOp) : firings (opsBelow k ops) =
    (firings ops).filterMap fun f =>
      match f.1 with
      | [] => none
      | j :: path => if j = k then some (path, f.2) else none := by
  rw [firings, firings, opsBelow, List.filterMap_filterMap, List.filterMap_filterMap]
  refine List.filterMap_congr fun op _ => ?_
  rcases op with ⟨_ | ⟨j, path⟩, d⟩ | _ | _
  · rfl
  · by_cases hj : j = k <;> simp [EventOp.below, EventOp.firing, hj]
  · rfl
  · rfl

/-- Only the firings of an event write. -/
theorem carries_commitsAll : Carries CommitsAll CommitsAll fun a b => firings a = firings b where
  below k a b hab := by rw [firings_opsBelow, firings_opsBelow, hab]
  here m _ a b s t hab h := by
    rw [CommitsAll, opsWrites_localOps, hab, ← opsWrites_localOps] at h
    exact h

/-- Every context holds the snapshot with every write of its fired domains committed at once, in
whatever order. -/
def Committed (h : Hierarchy) (log : List Firing) (S T : SimContext h) : Prop :=
  OnTree CommitsAll h [] (fires log) S T

/-- In execution order, no domain of an event reads a register that the event has already reset
or committed or a memory word that it has already written, and no two of its writes differ on a
common bit or word. -/
def EventAllowed (h : Hierarchy) (clocks : List (Option ℕ × Bool)) (perDomain : Bool)
    (S : SimContext h) : Prop :=
  OnTree Allowed h [] (eventOps h clocks perDomain) S S

/-- The same registers and memories everywhere. -/
def SameTree (h : Hierarchy) (T U : SimContext h) : Prop :=
  OnTree (fun _ _ _ t u => SameData t u) h [] [] T U

theorem firings_eventOps (h : Hierarchy) (clocks : List (Option ℕ × Bool)) (perDomain : Bool) :
    firings (eventOps h clocks perDomain) = clocks.flatMap fun clk =>
      (firedDomains h.module clk).flatMap fun p =>
        ([], p.2) :: childrenLog h.children 0 p.1.clockSignalId := by
  have hops : ∀ p, firings (domainOps h.children perDomain p) =
      ([], p.2) :: childrenLog h.children 0 p.1.clockSignalId := by
    intro p
    have hcommit : firings (if perDomain then [EventOp.commit] else []) = [] := by
      cases perDomain <;> rfl
    rw [domainOps, firings_append, hcommit, List.append_nil]
    exact congrArg (([], p.2) :: ·) (firings_fires _)
  rw [firings, eventOps, List.filterMap_flatMap]
  refine List.flatMap_congr fun clk _ => ?_
  rw [List.filterMap_flatMap]
  exact List.flatMap_congr fun p _ => hops p

theorem simClockEvent_log (h : Hierarchy) (clocks : List (Option ℕ × Bool)) (perDomain : Bool)
    (ctx : SimContext h) :
    (simClockEvent h clocks perDomain ctx).2 = firings (eventOps h clocks perDomain) := by
  rw [firings_eventOps, simClockEvent]
  have hall := foldl_append_filter (fun _ : Option ℕ × Bool => True)
    (fun (acc : SimContext h × List Firing) clk =>
      let r := simFireDomainsForClock h clk.1 clk.2 perDomain acc.1
      (r.1, acc.2 ++ r.2))
    (fun acc => acc.2)
    (fun clk => (firedDomains h.module clk).flatMap fun p =>
      ([], p.2) :: childrenLog h.children 0 p.1.clockSignalId)
    (fun acc clk _ => congrArg (acc.2 ++ ·) (simFireDomainsForClock_fired h clk perDomain acc.1))
    (fun _ _ hn => absurd trivial hn) clocks (ctx, [])
  simpa using hall

mutual

theorem OnTree.start : ∀ (h : Hierarchy) {ports : List ℕ} {S : SimContext h},
    OnTree Idle h ports [] S S → OnTree Tracked h ports [] S S
  | .node _ children, _, (_, _), ⟨hi, hk⟩ => ⟨Follows.start hi, OnKids.start children hk⟩

theorem OnKids.start : ∀ (c : Instances) {m : IRModule} {k : ℕ} {ks : SimChildren c},
    OnKids Idle m c k [] ks ks → OnKids Tracked m c k [] ks ks
  | .nil, _, _, _, _ => trivial
  | .cons _ child rest, _, _, (_, _), ⟨hi, hk⟩ => ⟨OnTree.start child hi, OnKids.start rest hk⟩

end

/-- An event whose domains may fire in any order makes the writes of the snapshot. -/
theorem simClockEvent_commits {h : Hierarchy} {clocks : List (Option ℕ × Bool)} {perDomain : Bool}
    {S : SimContext h} (hi : OnTree Idle h [] [] S S) (hh : Held h S)
    (ha : EventAllowed h clocks perDomain S) :
    Committed h (simClockEvent h clocks perDomain S).2 S (simClockEvent h clocks perDomain S).1 := by
  have hall : (clocks.filter fun _ => True).flatMap (fun clk =>
      (firedDomains h.module clk).flatMap (domainOps h.children perDomain)) =
      eventOps h clocks perDomain := by simp [eventOps]
  have htracks := foldl_tracks (fun _ : Option ℕ × Bool => True)
    (fun (acc : SimContext h × List Firing) clk =>
      let r := simFireDomainsForClock h clk.1 clk.2 perDomain acc.1
      (r.1, acc.2 ++ r.2))
    (fun clk => (firedDomains h.module clk).flatMap (domainOps h.children perDomain))
    (T := fun ops acc => OnTree Tracked h [] ops S acc.1)
    (A := fun ops => OnTree Allowed h [] ops S S) (fun _ _ => OnTree.allowed_prefix)
    clocks (o := []) (x := (S, []))
    (fun clk _ _ ops acc ht hal => simFireDomainsForClock_tracked hh ht hal)
    (fun _ _ hn => absurd trivial hn) (OnTree.start h hi) (by rw [hall]; exact ha)
  rw [hall, List.nil_append] at htracks
  have hcommit := OnTree.commitsAll h htracks ha
  refine OnTree.imp carries_commitsAll h ?_ hcommit
  rw [firings_fires, simClockEvent_log]

mutual

theorem OnTree.sameTree : ∀ (h : Hierarchy) {ports : List ℕ} {ops : List EventOp}
    {S T U : SimContext h}, OnTree CommitsAll h ports ops S T → OnTree CommitsAll h ports ops S U →
    OnTree (fun _ _ _ t u => SameData t u) h ports [] T U
  | .node _ children, _, _, (_, _), (_, _), (_, _), ⟨ht, hkt⟩, ⟨hu, hku⟩ => by
      refine ⟨⟨fun i => ?_, ?_⟩, OnKids.sameTree children hkt hku⟩
      · rw [(ht _ (.refl _)).1 i, (hu _ (.refl _)).1 i]
      · rw [(ht _ (.refl _)).2, (hu _ (.refl _)).2]

theorem OnKids.sameTree : ∀ (c : Instances) {m : IRModule} {k : ℕ} {ops : List EventOp}
    {ks kt ku : SimChildren c}, OnKids CommitsAll m c k ops ks kt →
    OnKids CommitsAll m c k ops ks ku → OnKids (fun _ _ _ t u => SameData t u) m c k [] kt ku
  | .nil, _, _, _, _, _, _, _, _ => trivial
  | .cons _ child rest, _, _, _, (_, _), (_, _), (_, _), ⟨ht, hkt⟩, ⟨hu, hku⟩ =>
      ⟨OnTree.sameTree child ht hu, OnKids.sameTree rest hkt hku⟩

end

namespace EventExample

def bit (b : Bool) : SimValue := if b then simValOnes 1 else simValZero 1

def copy (dst src : ℕ) : IRStmt := .assignment ⟨dst, .signalRef src 1, .receive, false, 0, 0⟩

def register (id : ℕ) : IRSignal := ⟨id, .register ⟨.ofFn fun _ => 0, 1, false⟩, 1⟩

def domain (stmts : List IRStmt) : IRClockDomain :=
  { clockSignalId := 0
    edge := .rising
    registerIds := []
    resetSignalId := none
    resetActive := .activeHigh
    statements := .block stmts }

/-- Two registers that swap their values. -/
def swap : IRModule :=
  { signals := [⟨0, .port .portIn, 1⟩, register 1, register 2]
    memories := []
    clockDomains := [domain [copy 1 2, copy 2 1]]
    asyncBlock := .null }

/-- A register behind an input. -/
def stage : IRModule :=
  { signals := [⟨0, .port .portIn, 1⟩, ⟨1, .port .portIn, 1⟩, register 2]
    memories := []
    clockDomains := [domain [copy 2 1]]
    asyncBlock := .null }

def wires : IRInstance := ⟨[⟨some 0, 0, none, false⟩, ⟨some 1, 1, none, false⟩]⟩

def design : Hierarchy := .node swap (.cons wires (.node stage .nil) .nil)

def state (on : List ℕ) : CtxState :=
  { signals := fun i => ⟨bit (i ∈ on), bit false, false⟩
    cells := fun _ _ => bit false
    runtimeError := false
    settleDirty := false
    sigDirty := fun _ => false }

def snapshot : SimContext design := (state [0, 1], ((state [0, 1], ()), ()))

theorem snapshot_allowed (perDomain : Bool) :
    EventAllowed design [(some 0, true)] perDomain snapshot := by
  cases perDomain <;>
    exact ⟨⟨by decide +kernel, by decide +kernel⟩,
      ⟨⟨by decide +kernel, by decide +kernel⟩, trivial⟩, trivial⟩

/-- A domain that writes a memory word and then reads it. -/
def writeRead : IRModule :=
  { signals := [⟨0, .port .portIn, 1⟩, register 1]
    memories := [⟨"mem", 1, 2⟩]
    clockDomains := [domain [.memWrite "mem" (.literal ⟨.ofFn fun _ => 0, 1, false⟩ 1)
        (.literal ⟨.ofFn fun i => if i = 0 then 1 else 0, 1, false⟩ 1),
      .assignment ⟨1, .memRead "mem" (.literal ⟨.ofFn fun _ => 0, 1, false⟩ 1) 1, .receive,
        false, 0, 0⟩]]
    asyncBlock := .null }

end EventExample

end JzHdl

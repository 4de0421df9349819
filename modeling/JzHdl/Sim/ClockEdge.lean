import JzHdl.Sim.Engine
import Mathlib.Algebra.BigOperators.Ring.List
import Mathlib.Data.List.Count
import Mathlib.Tactic.Ring

/-! # Which domains a clock edge fires

The log of a clock edge does not depend on the state. A domain of an instance is
reached through the domains of every module above it, so the number of its
firings is a product along the instance path.
-/

namespace JzHdl

/-! ## The log of an edge -/

mutual

def fireLog : Hierarchy → ℕ → List Firing
  | .node m children, port =>
    (m.clockDomains.zipIdx.filter fun p => p.1.clockSignalId = port).flatMap fun p =>
      ([], p.2) :: childrenLog children 0 port

def childrenLog : Instances → ℕ → ℕ → List Firing
  | .nil, _, _ => []
  | .cons inst child rest, k, parentClock =>
    (match childClockPort inst parentClock with
      | none => []
      | some port => (fireLog child port).map fun f => (k :: f.1, f.2)) ++
    childrenLog rest (k + 1) parentClock

end

/-- The domains of the root that an edge of a clock is active for. -/
def activeDomains (m : IRModule) (clk : ℕ) (newClk : Bool) : List ℕ :=
  (m.clockDomains.zipIdx.filter fun p => p.1.clockSignalId = clk ∧ p.1.edge.isActive newClk).map
    Prod.snd

/-- Appending a block for each selected element of a list. -/
theorem foldl_append_filter {α β σ : Type*} (P : α → Prop) [DecidablePred P] (f : σ → α → σ)
    (log : σ → List β) (block : α → List β)
    (hyes : ∀ s a, P a → log (f s a) = log s ++ block a) (hno : ∀ s a, ¬ P a → f s a = s) :
    ∀ (l : List α) (s : σ), log (l.foldl f s) = log s ++ (l.filter fun a => P a).flatMap block
  | [], s => by simp
  | a :: rest, s => by
      rw [List.foldl_cons, foldl_append_filter P f log block hyes hno rest]
      by_cases ha : P a
      · rw [hyes s a ha, List.filter_cons_of_pos (by simpa using ha), List.flatMap_cons,
          List.append_assoc]
      · rw [hno s a ha, List.filter_cons_of_neg (by simpa using ha)]

mutual

theorem fireContext_log : ∀ (h : Hierarchy) (port : ℕ) (ctx : SimContext h),
    (fireContext h port ctx).2.2 = fireLog h port
  | .node m children, port, (s, kids) => by
      rw [fireContext, fireLog]
      refine (foldl_append_filter (fun p : IRClockDomain × ℕ => p.1.clockSignalId = port) _
        (fun acc : (CtxState × SimChildren children) × Bool × List Firing => acc.2.2)
        (fun p => ([], p.2) :: childrenLog children 0 port) ?_ ?_ _ _).trans
        (List.nil_append _)
      · intro acc p hp
        rw [← execChildren_log children 0 port acc.1.2]
        exact congrArg (fun acc : (CtxState × SimChildren children) × Bool × List Firing => acc.2.2)
          (if_pos hp)
      · intro acc p hp
        exact if_neg hp

theorem execChildren_log : ∀ (c : Instances) (k clk : ℕ) (kids : SimChildren c),
    (execChildrenSyncForClock c k clk kids).2.2 = childrenLog c k clk
  | .nil, _, _, _ => rfl
  | .cons inst child rest, k, clk, (ctx, kids) => by
      rw [execChildrenSyncForClock, childrenLog]
      cases childClockPort inst clk with
      | none => exact (execChildren_log rest (k + 1) clk kids).trans (List.nil_append _).symm
      | some port =>
        simp only
        rw [fireContext_log child port ctx, execChildren_log rest (k + 1) clk kids]

end

/-- The domains of the root that an edge fires; without a clock every domain matches. -/
def firedDomains (m : IRModule) (clk : Option ℕ × Bool) : List (IRClockDomain × ℕ) :=
  m.clockDomains.zipIdx.filter fun p =>
    (clk.1 = none ∨ clk.1 = some p.1.clockSignalId) ∧ p.1.edge.isActive clk.2

theorem simFireDomainsForClock_fired (h : Hierarchy) (clk : Option ℕ × Bool) (perDomain : Bool)
    (ctx : SimContext h) : (simFireDomainsForClock h clk.1 clk.2 perDomain ctx).2 =
      (firedDomains h.module clk).flatMap fun p =>
        ([], p.2) :: childrenLog h.children 0 p.1.clockSignalId := by
  rw [simFireDomainsForClock, firedDomains]
  refine (foldl_append_filter (fun p : IRClockDomain × ℕ =>
    (clk.1 = none ∨ clk.1 = some p.1.clockSignalId) ∧ p.1.edge.isActive clk.2) _
    (fun acc : SimContext h × List Firing => acc.2)
    (fun p => ([], p.2) :: childrenLog h.children 0 p.1.clockSignalId) ?_ ?_ _ _).trans
    (List.nil_append _)
  · intro acc p hp
    simp only [if_pos hp]
    cases h with
    | node m children =>
      simp only [fireRootDomain, simExecSyncDomainWithChildren, Hierarchy.children]
      rw [execChildren_log]
  · intro acc p hp
    exact if_neg hp

theorem simFireDomainsForClock_log (h : Hierarchy) (clk : ℕ) (newClk perDomain : Bool)
    (ctx : SimContext h) : (simFireDomainsForClock h (some clk) newClk perDomain ctx).2 =
      (activeDomains h.module clk newClk).flatMap fun d =>
        ([], d) :: childrenLog h.children 0 clk := by
  have hfired : firedDomains h.module (some clk, newClk) = h.module.clockDomains.zipIdx.filter
      fun p => p.1.clockSignalId = clk ∧ p.1.edge.isActive newClk := by
    refine List.filter_congr fun p _ => decide_eq_decide.mpr (and_congr_left fun _ => ?_)
    simp only [reduceCtorEq, false_or, Option.some.injEq]
    exact eq_comm
  rw [simFireDomainsForClock_fired h (some clk, newClk), hfired, activeDomains, List.flatMap_map]
  refine List.flatMap_congr fun p hp => ?_
  have hclk : p.1.clockSignalId = clk := by
    have := (List.mem_filter.mp hp).2
    simp only [Bool.decide_and, Bool.and_eq_true, decide_eq_true_eq] at this
    exact this.1
  rw [hclk]

/-! ## Counting firings -/

def Instances.get? : Instances → ℕ → Option (IRInstance × Hierarchy)
  | .nil, _ => none
  | .cons inst child _, 0 => some (inst, child)
  | .cons _ _ rest, k + 1 => rest.get? k

/-- The subtree at an instance path. -/
def Hierarchy.at : Hierarchy → List ℕ → Option Hierarchy
  | h, [] => some h
  | h, k :: path => (h.children.get? k).bind fun p => p.2.at path

def Hierarchy.domainAt (h : Hierarchy) (path : List ℕ) (d : ℕ) : Option IRClockDomain :=
  (h.at path).bind fun g => g.module.clockDomains[d]?

def domainCount (m : IRModule) (port : ℕ) : ℕ :=
  (m.clockDomains.filter fun cd => cd.clockSignalId = port).length

/-- Follow a clock down an instance path, taking the last connection of it at each instance: the
port reached and the number of domains on the clock in each module passed. -/
def clockChain : Hierarchy → ℕ → List ℕ → Option (ℕ × List ℕ)
  | _, port, [] => some (port, [])
  | h, port, k :: path => (h.children.get? k).bind fun p =>
      (childClockPort p.1 port).bind fun q =>
        (clockChain p.2 q path).map fun r => (r.1, domainCount h.module port :: r.2)

theorem mem_childrenLog : ∀ {c : Instances} {k clk : ℕ} {f : Firing}, f ∈ childrenLog c k clk →
    ∃ j path, f.1 = j :: path ∧ k ≤ j
  | .nil, _, _, _, h => by simp [childrenLog] at h
  | .cons inst child rest, k, clk, f, h => by
      rw [childrenLog, List.mem_append] at h
      rcases h with h | h
      · cases hp : childClockPort inst clk with
        | none => simp [hp] at h
        | some port =>
          simp only [hp, List.mem_map] at h
          obtain ⟨g, -, rfl⟩ := h
          exact ⟨k, g.1, rfl, le_rfl⟩
      · obtain ⟨j, path, h1, h2⟩ := mem_childrenLog h
        exact ⟨j, path, h1, by omega⟩

theorem count_nil_childrenLog (c : Instances) (k clk d : ℕ) :
    (childrenLog c k clk).count ([], d) = 0 := by
  refine List.count_eq_zero.mpr fun h => ?_
  obtain ⟨j, path, h1, -⟩ := mem_childrenLog h
  cases h1

theorem count_cons_childrenLog : ∀ (c : Instances) (k0 clk k : ℕ) (path : List ℕ) (d : ℕ),
    (childrenLog c k0 clk).count ((k0 + k) :: path, d) =
      match c.get? k with
      | none => 0
      | some (inst, child) =>
        match childClockPort inst clk with
        | none => 0
        | some port => (fireLog child port).count (path, d)
  | .nil, _, _, _, _, _ => rfl
  | .cons inst child rest, k0, clk, 0, path, d => by
      have hrest : (childrenLog rest (k0 + 1) clk).count (k0 :: path, d) = 0 := by
        refine List.count_eq_zero.mpr fun h => ?_
        obtain ⟨j, p, h1, h2⟩ := mem_childrenLog h
        have := (List.cons.inj h1).1
        omega
      rw [childrenLog, List.count_append, Nat.add_zero, hrest, Nat.add_zero, Instances.get?]
      cases hp : childClockPort inst clk with
      | none => simp [hp]
      | some port =>
        simp only [hp]
        have hinj : Function.Injective fun f : Firing => ((k0 :: f.1, f.2) : Firing) := by
          rintro ⟨p, a⟩ ⟨q, b⟩ h
          simp only [Prod.mk.injEq, List.cons.injEq, true_and] at h
          exact Prod.ext h.1 h.2
        exact List.count_map_of_injective _ _ hinj (path, d)
  | .cons inst child rest, k0, clk, k + 1, path, d => by
      have ih := count_cons_childrenLog rest (k0 + 1) clk k path d
      rw [show k0 + 1 + k = k0 + (k + 1) by omega] at ih
      rw [childrenLog, List.count_append, ih, Instances.get?]
      refine (congrArg (· + _) (List.count_eq_zero.mpr fun h => ?_)).trans (Nat.zero_add _)
      cases hp : childClockPort inst clk with
      | none => simp [hp] at h
      | some port =>
        simp only [hp, List.mem_map] at h
        obtain ⟨g, -, h⟩ := h
        have := (List.cons.inj (Prod.mk.inj h).1).1
        omega

/-- The selected positions of a list, counted at one position. -/
theorem count_zipIdx_filter {α : Type*} (P : α → Prop) [DecidablePred P] (d : ℕ) :
    ∀ (l : List α) (n : ℕ),
      (((l.zipIdx n).filter fun p => P p.1).map Prod.snd).count (n + d) =
        match l[d]? with
        | some a => if P a then 1 else 0
        | none => 0
  | [], n => by simp
  | a :: rest, n => by
      have hlt : ∀ l : List α, n ∉ ((l.zipIdx (n + 1)).filter fun p => P p.1).map Prod.snd := by
        intro l h
        obtain ⟨p, hp, hpn⟩ := List.mem_map.mp h
        have := List.le_snd_of_mem_zipIdx (List.mem_filter.mp hp).1
        omega
      rw [List.zipIdx_cons]
      cases d with
      | zero =>
        by_cases ha : P a
        · rw [List.filter_cons_of_pos (by simpa using ha)]
          simp only [List.map_cons, Nat.add_zero, List.count_cons_self,
            List.count_eq_zero.mpr (hlt rest), List.getElem?_cons_zero, if_pos ha]
        · rw [List.filter_cons_of_neg (by simpa using ha)]
          simp only [Nat.add_zero, List.count_eq_zero.mpr (hlt rest), List.getElem?_cons_zero,
            if_neg ha]
      | succ d =>
        have ih := count_zipIdx_filter P d rest (n + 1)
        rw [show n + 1 + d = n + (d + 1) by omega] at ih
        rw [List.getElem?_cons_succ, ← ih]
        by_cases ha : P a
        · rw [List.filter_cons_of_pos (by simpa using ha), List.map_cons,
            List.count_cons_of_ne (by simp)]
        · rw [List.filter_cons_of_neg (by simpa using ha)]

/-- Counting a member of the blocks that each selected domain contributes. -/
theorem count_flatMap_const {l : List ℕ} {block : List Firing} {k : ℕ} {path : List ℕ} {d : ℕ} :
    (l.flatMap fun e => ([], e) :: block).count (k :: path, d) =
      l.length * block.count (k :: path, d) := by
  induction l with
  | nil => simp
  | cons e rest ih =>
    rw [List.flatMap_cons, List.count_append, ih, List.count_cons_of_ne (by simp),
      List.length_cons]
    ring

theorem count_flatMap_root {l : List ℕ} {block : List Firing} {d : ℕ}
    (hb : block.count ([], d) = 0) :
    (l.flatMap fun e => (([], e) : Firing) :: block).count ([], d) = l.count d := by
  induction l with
  | nil => rfl
  | cons e rest ih =>
    rw [List.flatMap_cons, List.count_append, ih, List.count_cons, hb, List.count_cons]
    simp [Nat.add_comm]

theorem fireLog_eq (h : Hierarchy) (port : ℕ) : fireLog h port =
    ((h.module.clockDomains.zipIdx.filter fun p => p.1.clockSignalId = port).map Prod.snd).flatMap
      fun d => ([], d) :: childrenLog h.children 0 port := by
  cases h with
  | node m children => rw [fireLog, List.flatMap_map]; rfl

theorem domainCount_eq (m : IRModule) (port : ℕ) :
    ((m.clockDomains.zipIdx.filter fun p => p.1.clockSignalId = port).map Prod.snd).length =
      domainCount m port := by
  have hgen : ∀ (l : List IRClockDomain) (n : ℕ),
      ((l.zipIdx n).filter fun p => p.1.clockSignalId = port).length =
        (l.filter fun cd => cd.clockSignalId = port).length := by
    intro l
    induction l with
    | nil => intro n; rfl
    | cons cd rest ih =>
      intro n
      rw [List.zipIdx_cons]
      by_cases hc : cd.clockSignalId = port
      · rw [List.filter_cons_of_pos (by simpa using hc), List.filter_cons_of_pos (by simpa using hc),
          List.length_cons, List.length_cons, ih]
      · rw [List.filter_cons_of_neg (by simpa using hc), List.filter_cons_of_neg (by simpa using hc),
          ih]
  rw [List.length_map, domainCount, hgen]

/-- A domain below a context fires once for every way through the domains above it. -/
theorem count_fireLog : ∀ (path : List ℕ) (h : Hierarchy) (port d : ℕ) (cd : IRClockDomain),
    h.domainAt path d = some cd → (fireLog h port).count (path, d) =
      match clockChain h port path with
      | none => 0
      | some (q, ns) => if cd.clockSignalId = q then ns.prod else 0
  | [], h, port, d, cd, hcd => by
      have hget : h.module.clockDomains[d]? = some cd := hcd
      have hcount := count_zipIdx_filter (fun cd : IRClockDomain => cd.clockSignalId = port) d
        h.module.clockDomains 0
      rw [Nat.zero_add, hget] at hcount
      rw [fireLog_eq, count_flatMap_root (count_nil_childrenLog _ _ _ _), clockChain]
      simpa using hcount
  | k :: path, h, port, d, cd, hcd => by
      have hchildren := count_cons_childrenLog h.children 0 port k path d
      rw [Nat.zero_add] at hchildren
      rw [Hierarchy.domainAt, Hierarchy.at] at hcd
      rw [fireLog_eq, count_flatMap_const, domainCount_eq, hchildren, clockChain]
      cases hk : h.children.get? k with
      | none => rw [hk] at hcd; cases hcd
      | some p =>
        obtain ⟨inst, child⟩ := p
        rw [hk] at hcd
        simp only [Option.bind_some]
        cases hp : childClockPort inst port with
        | none => simp
        | some q =>
          simp only [Option.bind_some]
          rw [count_fireLog path child q d cd hcd]
          cases clockChain child q path with
          | none => simp
          | some r =>
            simp only [Option.map_some, List.prod_cons]
            split <;> simp

/-- The firings of a domain below the root. -/
theorem count_fire (h : Hierarchy) (clk : ℕ) (newClk perDomain : Bool) (ctx : SimContext h)
    {k : ℕ} {path : List ℕ} {d : ℕ} {cd : IRClockDomain}
    (hcd : h.domainAt (k :: path) d = some cd) :
    (simFireDomainsForClock h (some clk) newClk perDomain ctx).2.count (k :: path, d) =
      match clockChain h clk (k :: path) with
      | none => 0
      | some (q, ns) => if cd.clockSignalId = q then
          (activeDomains h.module clk newClk).length * ns.tail.prod else 0 := by
  have hchildren := count_cons_childrenLog h.children 0 clk k path d
  rw [Nat.zero_add] at hchildren
  rw [Hierarchy.domainAt, Hierarchy.at] at hcd
  rw [simFireDomainsForClock_log, count_flatMap_const, hchildren, clockChain]
  cases hk : h.children.get? k with
  | none => rw [hk] at hcd; cases hcd
  | some p =>
    obtain ⟨inst, child⟩ := p
    rw [hk] at hcd
    simp only [Option.bind_some]
    cases hp : childClockPort inst clk with
    | none => simp
    | some q =>
      simp only [Option.bind_some]
      rw [count_fireLog path child q d cd hcd]
      cases clockChain child q path with
      | none => simp
      | some r =>
        simp only [Option.map_some, List.tail_cons]
        split <;> simp

/-- The firings of a domain of the root. -/
theorem count_fire_root (h : Hierarchy) (clk : ℕ) (newClk perDomain : Bool) (ctx : SimContext h)
    {d : ℕ} {cd : IRClockDomain} (hcd : h.domainAt [] d = some cd) :
    (simFireDomainsForClock h (some clk) newClk perDomain ctx).2.count ([], d) =
      if cd.clockSignalId = clk ∧ cd.edge.isActive newClk = true then 1 else 0 := by
  have hget : h.module.clockDomains[d]? = some cd := hcd
  have hcount := count_zipIdx_filter (fun cd : IRClockDomain => cd.clockSignalId = clk ∧
    cd.edge.isActive newClk = true) d h.module.clockDomains 0
  rw [Nat.zero_add, hget] at hcount
  rw [simFireDomainsForClock_log, count_flatMap_root (count_nil_childrenLog _ _ _ _)]
  exact hcount

/-! ## Edges that fire as they should -/

/-- A port at an instance path is connected to a clock of the root, by any connections. -/
def ConnectedTo : Hierarchy → ℕ → List ℕ → ℕ → Prop
  | _, clk, [], port => clk = port
  | h, clk, k :: path, port => ∃ p, h.children.get? k = some p ∧
      ∃ conn ∈ p.1.connections, conn.parentSignalId = some clk ∧
        ConnectedTo p.2 conn.childPortId path port

/-- Every domain of the tree fires once on an active edge of its clock and else not at all. -/
def FiresExactly (h : Hierarchy) (clk : ℕ) (newClk : Bool) (log : List Firing) : Prop :=
  ∀ path d cd, h.domainAt path d = some cd →
    (ConnectedTo h clk path cd.clockSignalId ∧ cd.edge.isActive newClk = true →
      log.count (path, d) = 1) ∧
    (¬ (ConnectedTo h clk path cd.clockSignalId ∧ cd.edge.isActive newClk = true) →
      log.count (path, d) = 0)

/-- What an edge needs at a domain below the root. For an active edge: one active root domain, the
last connections lead to the domain's clock, and each module passed has one domain on it. For an
inactive edge: no active root domain, or no such way to the domain. -/
def DomainOk (h : Hierarchy) (clk : ℕ) (newClk : Bool) (path : List ℕ) (cd : IRClockDomain) : Prop :=
  (ConnectedTo h clk path cd.clockSignalId ∧ cd.edge.isActive newClk = true →
    (activeDomains h.module clk newClk).length = 1 ∧
      ∃ ns, clockChain h clk path = some (cd.clockSignalId, ns) ∧ ∀ n ∈ ns.tail, n = 1) ∧
  (¬ (ConnectedTo h clk path cd.clockSignalId ∧ cd.edge.isActive newClk = true) →
    activeDomains h.module clk newClk = [] ∨
      ∀ ns, clockChain h clk path = some (cd.clockSignalId, ns) → 0 ∈ ns.tail)

theorem mul_eq_one_iff_both {a b : ℕ} : a * b = 1 ↔ a = 1 ∧ b = 1 :=
  ⟨fun h => ⟨Nat.eq_one_of_mul_eq_one_right h, Nat.eq_one_of_mul_eq_one_left h⟩,
    fun h => by rw [h.1, h.2]⟩

theorem prod_eq_one_iff_forall : ∀ {l : List ℕ}, l.prod = 1 ↔ ∀ n ∈ l, n = 1
  | [] => by simp
  | n :: rest => by
      rw [List.prod_cons, mul_eq_one_iff_both, prod_eq_one_iff_forall]
      simp

/-- A clock edge fires the domains exactly when every domain below the root allows it. -/
theorem firesExactly_iff (h : Hierarchy) (clk : ℕ) (newClk perDomain : Bool) (ctx : SimContext h) :
    FiresExactly h clk newClk (simFireDomainsForClock h (some clk) newClk perDomain ctx).2 ↔
      ∀ k path d cd, h.domainAt (k :: path) d = some cd → DomainOk h clk newClk (k :: path) cd := by
  have hone : ∀ k path d cd, h.domainAt (k :: path) d = some cd →
      ((simFireDomainsForClock h (some clk) newClk perDomain ctx).2.count (k :: path, d) = 1 ↔
        (activeDomains h.module clk newClk).length = 1 ∧
          ∃ ns, clockChain h clk (k :: path) = some (cd.clockSignalId, ns) ∧
            ∀ n ∈ ns.tail, n = 1) := by
    intro k path d cd hcd
    rw [count_fire h clk newClk perDomain ctx hcd]
    cases clockChain h clk (k :: path) with
    | none => simp
    | some r =>
      obtain ⟨q, ns⟩ := r
      simp only [Option.some.injEq, Prod.mk.injEq, ← prod_eq_one_iff_forall]
      by_cases hq : cd.clockSignalId = q
      · rw [if_pos hq, mul_eq_one_iff_both]
        constructor
        · exact fun hm => ⟨hm.1, ns, ⟨hq.symm, rfl⟩, hm.2⟩
        · rintro ⟨h1, ns', ⟨-, rfl⟩, h2⟩
          exact ⟨h1, h2⟩
      · rw [if_neg hq]
        constructor
        · intro h0; cases h0
        · rintro ⟨-, ns', ⟨hq', -⟩, -⟩
          exact absurd hq'.symm hq
  have hzero : ∀ k path d cd, h.domainAt (k :: path) d = some cd →
      ((simFireDomainsForClock h (some clk) newClk perDomain ctx).2.count (k :: path, d) = 0 ↔
        activeDomains h.module clk newClk = [] ∨
          ∀ ns, clockChain h clk (k :: path) = some (cd.clockSignalId, ns) → 0 ∈ ns.tail) := by
    intro k path d cd hcd
    rw [count_fire h clk newClk perDomain ctx hcd]
    cases clockChain h clk (k :: path) with
    | none => simp
    | some r =>
      obtain ⟨q, ns⟩ := r
      simp only [Option.some.injEq, Prod.mk.injEq]
      by_cases hq : cd.clockSignalId = q
      · rw [if_pos hq, Nat.mul_eq_zero, List.length_eq_zero_iff, List.prod_eq_zero_iff]
        refine or_congr_right ⟨fun h0 ns' hn => hn.2 ▸ h0, fun h0 => h0 ns ⟨hq.symm, rfl⟩⟩
      · rw [if_neg hq]
        simp only [true_iff]
        exact Or.inr fun ns' hn => absurd hn.1.symm hq
  constructor
  · intro hf k path d cd hcd
    obtain ⟨h1, h0⟩ := hf (k :: path) d cd hcd
    exact ⟨fun hc => (hone k path d cd hcd).mp (h1 hc), fun hc => (hzero k path d cd hcd).mp (h0 hc)⟩
  · intro hok path d cd hcd
    cases path with
    | nil =>
      have hroot := count_fire_root h clk newClk perDomain ctx hcd
      have hconn : ConnectedTo h clk [] cd.clockSignalId ↔ cd.clockSignalId = clk := eq_comm
      rw [hroot, hconn]
      exact ⟨fun hc => if_pos hc, fun hc => if_neg hc⟩
    | cons k path =>
      obtain ⟨h1, h0⟩ := hok k path d cd hcd
      exact ⟨fun hc => (hone k path d cd hcd).mpr (h1 hc),
        fun hc => (hzero k path d cd hcd).mpr (h0 hc)⟩

namespace EdgeExample

def domain (edge : IRClockEdge) : IRClockDomain :=
  { clockSignalId := 0
    edge
    registerIds := []
    resetSignalId := none
    resetActive := .activeHigh
    statements := .null }

def clocked (edge : IRClockEdge) : IRModule :=
  { signals := [⟨0, .port .portIn, 1⟩]
    memories := []
    clockDomains := [domain edge]
    asyncBlock := .null }

/-- A rising domain over an instance with a falling domain on the same clock. -/
def design : Hierarchy :=
  .node (clocked .rising) (.cons ⟨[⟨some 0, 0, none, false⟩]⟩ (.node (clocked .falling) .nil) .nil)

def state : CtxState :=
  { signals := fun _ => ⟨simValZero 1, simValZero 1, false⟩
    cells := fun _ _ => simValZero 1
    runtimeError := false
    settleDirty := false
    sigDirty := fun _ => false }

end EdgeExample

open EdgeExample in
/-- The falling domain of the instance fires on a rising edge. -/
theorem fires_wrongEdge :
    ¬ FiresExactly design 0 true
        (simFireDomainsForClock design (some 0) true false (state, ((state, ()), ()))).2 := by
  intro hf
  have h0 := (hf [0] 0 (domain .falling) rfl).2 (fun hc => absurd hc.2 (by decide))
  revert h0
  decide +kernel

end JzHdl

import JzHdl.Sim.Snapshot
import JzHdl.Sim.Bits

/-! # Memory write ports

The RTLIL backend turns every memory write of a module into a write port. The
port is enabled by one inherited guard, which is the condition of the innermost
IF arm around the write; all other arms pass on the guard they were given.
-/

namespace JzHdl.Rtlil

open BitWords

def maxMemWrites : ℕ := 64

structure MemWrite where

  memoryName : String

  address : IRExpr

  data : IRExpr

structure MemWriteInfo where

  write : MemWrite

  guardCondition : Option IRExpr

  clockDomain : Option IRClockDomain

/-! ## Collection -/

section

variable (domain : Option IRClockDomain)

mutual

def collectMemWrites : IRStmt → Option IRExpr → List MemWriteInfo
  | .null, _ | .assignment _, _ => []
  | .memWrite name address data, g => [⟨⟨name, address, data⟩, g, domain⟩]
  | .block stmts, g => collectMemBlock stmts g
  | .ifStmt c t elif e, g =>
    collectMemWrites t (some c) ++ (collectMemWrites elif g ++ collectMemWrites e g)
  | .select _ cases, g => collectMemCases cases g

def collectMemCases : List (IRExpr × IRStmt) → Option IRExpr → List MemWriteInfo
  | [], _ => []
  | (_, body) :: rest, g => collectMemWrites body g ++ collectMemCases rest g

def collectMemBlock : List IRStmt → Option IRExpr → List MemWriteInfo
  | [], _ => []
  | stmt :: rest, g => collectMemWrites stmt g ++ collectMemBlock rest g

end

end

/-- One write port. Every bit of the enable is a bit of the guard, repeated over the width. -/
structure MemWrCell where

  write : MemWrite

  width : ℕ

  enable : Option IRExpr

  clock : Option (ℕ × Bool)

section

variable (m : IRModule)

/-- The clock signal and whether its rising edge is used. -/
def clockOf (domain : Option IRClockDomain) : Option (ℕ × Bool) :=
  match domain with
  | some d =>
    if m.signals.any (·.id == d.clockSignalId) then some (d.clockSignalId, d.edge != .falling)
    else none
  | none => none

def emitMemwrCell (info : MemWriteInfo) : Option MemWrCell :=
  (m.memOf info.write.memoryName).map fun p =>
    ⟨info.write, max 1 p.2.wordWidth, info.guardCondition, clockOf m info.clockDomain⟩

def domainMemWrites (d : IRClockDomain) : List MemWriteInfo :=
  collectMemWrites (some d) d.statements none

/-- Every write before the limit; the source stops recording at the limit. -/
def moduleMemWrites : List MemWriteInfo :=
  m.clockDomains.flatMap domainMemWrites ++ collectMemWrites none m.asyncBlock none

def rtlilMemoryCells : List MemWrCell :=
  ((moduleMemWrites m).take maxMemWrites).filterMap (emitMemwrCell m)

def domainCells (d : IRClockDomain) : List MemWrCell :=
  (domainMemWrites d).filterMap (emitMemwrCell m)

end

/-! ## Execution -/

section

variable (m : IRModule) (s : CtxState)

def holds (c : IRExpr) : Bool := decide (simValIsTrue (simEvalExpr m s c) = some true)

def fails (c : IRExpr) : Bool := decide (simValIsTrue (simEvalExpr m s c) = some false)

/-- No condition of an elif chain ends the statement. -/
def elifFails : IRStmt → Bool
  | .ifStmt c _ elif _ => fails m s c && elifFails elif
  | _ => true

def caseHits (selector caseValue : IRExpr) : Bool :=
  caseValue.isNull || decide (simValIsTrue (simValEq (simEvalExpr m s selector)
    (simEvalExpr m s caseValue)) = some true)

mutual

/-- The writes of a tree and whether executing it reaches them; `on` is that of the tree. -/
def reachedWrites : IRStmt → Bool → List (MemWrite × Bool)
  | .null, _ | .assignment _, _ => []
  | .memWrite name address data, on => [(⟨name, address, data⟩, on)]
  | .block stmts, on => reachedBlock stmts on
  | .ifStmt c t elif e, on =>
    reachedWrites t (on && holds m s c) ++ (reachedElif elif (on && fails m s c) ++
      reachedWrites e (on && fails m s c && elifFails m s elif))
  | .select selector cases, on =>
    reachedCases selector cases (on && !simValHasXz (simEvalExpr m s selector))

/-- An elif chain; an ELSE inside it and anything but a condition are never executed. -/
def reachedElif : IRStmt → Bool → List (MemWrite × Bool)
  | .null, _ | .assignment _, _ => []
  | .memWrite name address data, _ => [(⟨name, address, data⟩, false)]
  | .block stmts, _ => reachedBlock stmts false
  | .ifStmt c t elif e, on =>
    reachedWrites t (on && holds m s c) ++ (reachedElif elif (on && fails m s c) ++
      reachedWrites e false)
  | .select selector cases, _ => reachedCases selector cases false

def reachedCases (selector : IRExpr) : List (IRExpr × IRStmt) → Bool → List (MemWrite × Bool)
  | [], _ => []
  | (v, body) :: rest, on =>
    reachedWrites body (on && caseHits m s selector v) ++
      reachedCases selector rest (on && !caseHits m s selector v)

def reachedBlock : List IRStmt → Bool → List (MemWrite × Bool)
  | [], _ => []
  | stmt :: rest, on => reachedWrites stmt on ++ reachedBlock rest on

end

def moduleReached : List (MemWrite × Bool) :=
  m.clockDomains.flatMap (fun d => reachedWrites m s d.statements true) ++
    reachedWrites m s m.asyncBlock true

/-- A bit of the enable: a guard is repeated, so bit `k` is one of its own. -/
def MemWrCell.enableBit (c : MemWrCell) (k : ℕ) : Bool :=
  match c.enable with
  | none => true
  | some g => (simEvalExpr m s g).val.bit (k % (simEvalExpr m s g).width)

/-- One port for each write, in order, and its enable tells whether the write is reached. -/
def PortsMeet : Prop :=
  List.Forall₂ (fun w c => c.write = w.1 ∧ ∀ k < c.width, c.enableBit m s k = w.2)
    (moduleReached m s) (rtlilMemoryCells m)

end

/-! ## Inherited guards -/

section

variable (m : IRModule) (s : CtxState)

mutual

/-- Every write that is not reached lies in an IF arm, and the condition of the innermost one is
false; `inner` is the truth of that condition outside the tree. -/
def NoStray (inner : Bool) : IRStmt → Bool → Prop
  | .null, _ | .assignment _, _ => True
  | .memWrite .., on => inner = true → on = true
  | .block stmts, on => NoStrayBlock inner stmts on
  | .ifStmt c t elif e, on =>
    NoStray (holds m s c) t (on && holds m s c) ∧ NoStrayElif inner elif (on && fails m s c) ∧
      NoStray inner e (on && fails m s c && elifFails m s elif)
  | .select selector cases, on =>
    NoStrayCases inner selector cases (on && !simValHasXz (simEvalExpr m s selector))

def NoStrayElif (inner : Bool) : IRStmt → Bool → Prop
  | .null, _ | .assignment _, _ => True
  | .memWrite .., _ => inner = true → false = true
  | .block stmts, _ => NoStrayBlock inner stmts false
  | .ifStmt c t elif e, on =>
    NoStray (holds m s c) t (on && holds m s c) ∧ NoStrayElif inner elif (on && fails m s c) ∧
      NoStray inner e false
  | .select selector cases, _ => NoStrayCases inner selector cases false

def NoStrayCases (inner : Bool) (selector : IRExpr) : List (IRExpr × IRStmt) → Bool → Prop
  | [], _ => True
  | (v, body) :: rest, on =>
    NoStray inner body (on && caseHits m s selector v) ∧
      NoStrayCases inner selector rest (on && !caseHits m s selector v)

def NoStrayBlock (inner : Bool) : List IRStmt → Bool → Prop
  | [], _ => True
  | stmt :: rest, on => NoStray inner stmt on ∧ NoStrayBlock inner rest on

end

def guardHolds : Option IRExpr → Bool
  | none => true
  | some g => holds m s g

/-- A recorded write with the right guard. -/
def Guarded (w : MemWrite × Bool) (info : MemWriteInfo) : Prop :=
  info.write = w.1 ∧ guardHolds m s info.guardCondition = w.2

end

theorem forall₂_append_iff {α β : Type*} {R : α → β → Prop} : ∀ {a : List α} {b : List β}
    {a' : List α} {b' : List β}, a.length = b.length →
    (List.Forall₂ R (a ++ a') (b ++ b') ↔ List.Forall₂ R a b ∧ List.Forall₂ R a' b')
  | [], [], _, _, _ => by simp
  | x :: a, y :: b, a', b', h => by
      simp only [List.cons_append, List.forall₂_cons]
      rw [forall₂_append_iff (Nat.succ.inj h), and_assoc]

section

variable {m : IRModule} {s : CtxState} {domain : Option IRClockDomain}

mutual

theorem length_collect : ∀ (stmt : IRStmt) (g : Option IRExpr) (on : Bool),
    (reachedWrites m s stmt on).length = (collectMemWrites domain stmt g).length
  | .null, _, _ | .assignment _, _, _ | .memWrite .., _, _ => rfl
  | .block stmts, g, on => length_collectBlock stmts g on
  | .ifStmt c t elif e, g, on => by
      simp only [reachedWrites, collectMemWrites, List.length_append]
      rw [length_collect t (some c), length_collectElif elif g, length_collect e g]
  | .select selector cases, g, on => length_collectCases selector cases g _

theorem length_collectElif : ∀ (stmt : IRStmt) (g : Option IRExpr) (on : Bool),
    (reachedElif m s stmt on).length = (collectMemWrites domain stmt g).length
  | .null, _, _ | .assignment _, _, _ | .memWrite .., _, _ => rfl
  | .block stmts, g, on => length_collectBlock stmts g false
  | .ifStmt c t elif e, g, on => by
      simp only [reachedElif, collectMemWrites, List.length_append]
      rw [length_collect t (some c), length_collectElif elif g, length_collect e g]
  | .select selector cases, g, on => length_collectCases selector cases g false

theorem length_collectCases (selector : IRExpr) : ∀ (cases : List (IRExpr × IRStmt))
    (g : Option IRExpr) (on : Bool),
    (reachedCases m s selector cases on).length = (collectMemCases domain cases g).length
  | [], _, _ => rfl
  | (v, body) :: rest, g, on => by
      simp only [reachedCases, collectMemCases, List.length_append]
      rw [length_collect body g, length_collectCases selector rest g]

theorem length_collectBlock : ∀ (stmts : List IRStmt) (g : Option IRExpr) (on : Bool),
    (reachedBlock m s stmts on).length = (collectMemBlock domain stmts g).length
  | [], _, _ => rfl
  | stmt :: rest, g, on => by
      simp only [reachedBlock, collectMemBlock, List.length_append]
      rw [length_collect stmt g, length_collectBlock rest g]

end

theorem guarded_single {w : MemWrite} {g : Option IRExpr} {on : Bool}
    (hon : on = true → guardHolds m s g = true) :
    List.Forall₂ (Guarded m s) [(w, on)] [⟨w, g, domain⟩] ↔
      (guardHolds m s g = true → on = true) := by
  simp only [List.forall₂_cons, List.Forall₂.nil, and_true, Guarded, true_and]
  cases on <;> cases hg : guardHolds m s g <;> simp_all

mutual

/-- The guards of a tree are right exactly when no write strays. What reaches the tree makes its
guard true; that is kept on the way down, so only writes that are not reached can be wrong. -/
theorem guarded_iff : ∀ (stmt : IRStmt) (g : Option IRExpr) (on : Bool),
    (on = true → guardHolds m s g = true) →
      (List.Forall₂ (Guarded m s) (reachedWrites m s stmt on) (collectMemWrites domain stmt g) ↔
        NoStray m s (guardHolds m s g) stmt on)
  | .null, _, _, _ | .assignment _, _, _, _ => by
      simp [reachedWrites, collectMemWrites, NoStray]
  | .memWrite name address data, g, on, hon => guarded_single hon
  | .block stmts, g, on, hon => guarded_iffBlock stmts g on hon
  | .ifStmt c t elif e, g, on, hon => by
      rw [reachedWrites, collectMemWrites, NoStray, forall₂_append_iff (length_collect t _ _),
        forall₂_append_iff (length_collectElif elif _ _)]
      refine and_congr (guarded_iff t (some c) _ fun h => ?_)
        (and_congr (guarded_iffElif elif g _ fun h => hon ?_) (guarded_iff e g _ fun h => hon ?_))
      · exact (Bool.and_eq_true_iff.mp h).2
      · exact (Bool.and_eq_true_iff.mp h).1
      · exact (Bool.and_eq_true_iff.mp (Bool.and_eq_true_iff.mp h).1).1
  | .select selector cases, g, on, hon =>
      guarded_iffCases selector cases g _ fun h => hon (Bool.and_eq_true_iff.mp h).1

theorem guarded_iffElif : ∀ (stmt : IRStmt) (g : Option IRExpr) (on : Bool),
    (on = true → guardHolds m s g = true) →
      (List.Forall₂ (Guarded m s) (reachedElif m s stmt on) (collectMemWrites domain stmt g) ↔
        NoStrayElif m s (guardHolds m s g) stmt on)
  | .null, _, _, _ | .assignment _, _, _, _ => by
      simp [reachedElif, collectMemWrites, NoStrayElif]
  | .memWrite name address data, g, on, hon => guarded_single (show false = true → _ from nofun)
  | .block stmts, g, on, hon => guarded_iffBlock stmts g false nofun
  | .ifStmt c t elif e, g, on, hon => by
      rw [reachedElif, collectMemWrites, NoStrayElif, forall₂_append_iff (length_collect t _ _),
        forall₂_append_iff (length_collectElif elif _ _)]
      refine and_congr (guarded_iff t (some c) _ fun h => ?_)
        (and_congr (guarded_iffElif elif g _ fun h => hon ?_) (guarded_iff e g _ nofun))
      · exact (Bool.and_eq_true_iff.mp h).2
      · exact (Bool.and_eq_true_iff.mp h).1
  | .select selector cases, g, on, hon => guarded_iffCases selector cases g false nofun

theorem guarded_iffCases (selector : IRExpr) : ∀ (cases : List (IRExpr × IRStmt))
    (g : Option IRExpr) (on : Bool), (on = true → guardHolds m s g = true) →
      (List.Forall₂ (Guarded m s) (reachedCases m s selector cases on)
          (collectMemCases domain cases g) ↔
        NoStrayCases m s (guardHolds m s g) selector cases on)
  | [], _, _, _ => by simp [reachedCases, collectMemCases, NoStrayCases]
  | (v, body) :: rest, g, on, hon => by
      rw [reachedCases, collectMemCases, NoStrayCases, forall₂_append_iff (length_collect body _ _)]
      exact and_congr
        (guarded_iff body g _ fun h => hon (Bool.and_eq_true_iff.mp h).1)
        (guarded_iffCases selector rest g _ fun h => hon (Bool.and_eq_true_iff.mp h).1)

theorem guarded_iffBlock : ∀ (stmts : List IRStmt) (g : Option IRExpr) (on : Bool),
    (on = true → guardHolds m s g = true) →
      (List.Forall₂ (Guarded m s) (reachedBlock m s stmts on) (collectMemBlock domain stmts g) ↔
        NoStrayBlock m s (guardHolds m s g) stmts on)
  | [], _, _, _ => by simp [reachedBlock, collectMemBlock, NoStrayBlock]
  | stmt :: rest, g, on, hon => by
      rw [reachedBlock, collectMemBlock, NoStrayBlock, forall₂_append_iff (length_collect stmt _ _)]
      exact and_congr (guarded_iff stmt g on hon) (guarded_iffBlock rest g on hon)

end

end

/-! ## Write ports -/

mutual

/-- The conditions of the IF statements of a tree. -/
def ifConditions : IRStmt → List IRExpr
  | .null | .assignment _ | .memWrite .. => []
  | .block stmts => blockConditions stmts
  | .ifStmt c t elif e => c :: (ifConditions t ++ (ifConditions elif ++ ifConditions e))
  | .select _ cases => caseConditions cases

def caseConditions : List (IRExpr × IRStmt) → List IRExpr
  | [] => []
  | (_, body) :: rest => ifConditions body ++ caseConditions rest

def blockConditions : List IRStmt → List IRExpr
  | [] => []
  | stmt :: rest => ifConditions stmt ++ blockConditions rest

end

def moduleTrees (m : IRModule) : List IRStmt := m.clockDomains.map (·.statements) ++ [m.asyncBlock]

section

variable (m : IRModule) (s : CtxState)

/-- Every condition is one known bit, as the checker asks of IF and ELIF. -/
def OneBitConditions : Prop :=
  ∀ tree ∈ moduleTrees m, ∀ c ∈ ifConditions tree,
    (simEvalExpr m s c).width = 1 ∧ simValHasXz (simEvalExpr m s c) = false

/-- Few enough writes, to memories of the module, and none strays. -/
structure PortsSafe : Prop where

  few : (moduleReached m s).length ≤ maxMemWrites

  found : ∀ w ∈ moduleReached m s, (m.memOf w.1.memoryName).isSome = true

  quiet : ∀ tree ∈ moduleTrees m, NoStray m s true tree true

end

section

variable {m : IRModule} {s : CtxState} {domain : Option IRClockDomain} {info : MemWriteInfo}

mutual

theorem collect_guard : ∀ (stmt : IRStmt) (g : Option IRExpr),
    info ∈ collectMemWrites domain stmt g → info.guardCondition = g ∨
      ∃ c ∈ ifConditions stmt, info.guardCondition = some c
  | .null, _, h | .assignment _, _, h => by cases h
  | .memWrite name address data, g, h => by
      rw [List.mem_singleton.mp h]
      exact .inl rfl
  | .block stmts, g, h => collect_guardBlock stmts g h
  | .ifStmt c t elif e, g, h => by
      simp only [collectMemWrites, List.mem_append] at h
      simp only [ifConditions, List.mem_cons, List.mem_append]
      rcases h with h | h | h
      · rcases collect_guard t _ h with h | ⟨c', hc', h⟩
        · exact .inr ⟨c, .inl rfl, h⟩
        · exact .inr ⟨c', .inr (.inl hc'), h⟩
      · rcases collect_guard elif _ h with h | ⟨c', hc', h⟩
        · exact .inl h
        · exact .inr ⟨c', .inr (.inr (.inl hc')), h⟩
      · rcases collect_guard e _ h with h | ⟨c', hc', h⟩
        · exact .inl h
        · exact .inr ⟨c', .inr (.inr (.inr hc')), h⟩
  | .select selector cases, g, h => collect_guardCases cases g h

theorem collect_guardCases : ∀ (cases : List (IRExpr × IRStmt)) (g : Option IRExpr),
    info ∈ collectMemCases domain cases g → info.guardCondition = g ∨
      ∃ c ∈ caseConditions cases, info.guardCondition = some c
  | [], _, h => by cases h
  | (v, body) :: rest, g, h => by
      simp only [collectMemCases, List.mem_append] at h
      simp only [caseConditions, List.mem_append]
      rcases h with h | h
      · rcases collect_guard body _ h with h | ⟨c, hc, h⟩
        · exact .inl h
        · exact .inr ⟨c, .inl hc, h⟩
      · rcases collect_guardCases rest _ h with h | ⟨c, hc, h⟩
        · exact .inl h
        · exact .inr ⟨c, .inr hc, h⟩

theorem collect_guardBlock : ∀ (stmts : List IRStmt) (g : Option IRExpr),
    info ∈ collectMemBlock domain stmts g → info.guardCondition = g ∨
      ∃ c ∈ blockConditions stmts, info.guardCondition = some c
  | [], _, h => by cases h
  | stmt :: rest, g, h => by
      simp only [collectMemBlock, List.mem_append] at h
      simp only [blockConditions, List.mem_append]
      rcases h with h | h
      · rcases collect_guard stmt _ h with h | ⟨c, hc, h⟩
        · exact .inl h
        · exact .inr ⟨c, .inl hc, h⟩
      · rcases collect_guardBlock rest _ h with h | ⟨c, hc, h⟩
        · exact .inl h
        · exact .inr ⟨c, .inr hc, h⟩

end

theorem mem_moduleMemWrites (h : info ∈ moduleMemWrites m) :
    ∃ domain, ∃ tree ∈ moduleTrees m, info ∈ collectMemWrites domain tree none := by
  rcases List.mem_append.mp h with h | h
  · obtain ⟨d, hd, h⟩ := List.mem_flatMap.mp h
    exact ⟨some d, d.statements, by simp only [moduleTrees, List.mem_append, List.mem_map]
                                    exact .inl ⟨d, hd, rfl⟩, h⟩
  · exact ⟨none, m.asyncBlock, by simp [moduleTrees], h⟩

/-- The truth of a one-bit value is its bit. -/
theorem isTrue_one_bit {v : SimValue} (hw : v.width = 1) (hx : simValHasXz v = false) (k : ℕ) :
    v.val.bit (k % v.width) = decide (simValIsTrue v = some true) := by
  rw [hw, Nat.mod_one, simValIsTrue, hx, if_neg Bool.false_ne_true, hw, Bool.eq_iff_iff]
  simp only [Option.some.injEq, decide_eq_true_eq, List.any_eq_true, List.mem_range,
    masked_and_ne_zero_iff]
  constructor
  · intro h
    refine ⟨0, by decide, 0, by decide, by decide, ?_⟩
    rwa [Words.getLsbD_get _ _ (by decide)]
  · rintro ⟨i, -, j, hj, hlt, h⟩
    rw [Words.getLsbD_get _ _ hj] at h
    obtain rfl : i = 0 := by omega
    obtain rfl : j = 0 := by omega
    exact h

theorem enableBit_eq (hbits : OneBitConditions m s) (h : info ∈ moduleMemWrites m) {c : MemWrCell}
    (hc : c.enable = info.guardCondition) (k : ℕ) :
    c.enableBit m s k = guardHolds m s info.guardCondition := by
  obtain ⟨domain, tree, htree, hmem⟩ := mem_moduleMemWrites h
  rw [MemWrCell.enableBit, hc]
  rcases collect_guard tree none hmem with hnone | ⟨g, hg, hsome⟩
  · rw [hnone]
    rfl
  · rw [hsome]
    obtain ⟨hw, hx⟩ := hbits tree htree g hg
    exact isTrue_one_bit hw hx k

theorem forall₂_flatMap_iff {α β γ : Type*} {R : α → β → Prop} {f : γ → List α} {g : γ → List β}
    (hlen : ∀ x, (f x).length = (g x).length) : ∀ l : List γ,
    List.Forall₂ R (l.flatMap f) (l.flatMap g) ↔ ∀ x ∈ l, List.Forall₂ R (f x) (g x)
  | [] => by simp
  | x :: l => by
      rw [List.flatMap_cons, List.flatMap_cons, forall₂_append_iff (hlen x),
        forall₂_flatMap_iff hlen l, List.forall_mem_cons]

/-- Reading a list through a partial function keeps one entry for each exactly when it is total
there and the limit is not met. -/
theorem forall₂_take_filterMap_iff {α β γ : Type*} {R : α → γ → Prop} {f : β → Option γ} {n : ℕ}
    {a : List α} {b : List β} (hlen : a.length = b.length) :
    List.Forall₂ R a ((b.take n).filterMap f) ↔
      b.length ≤ n ∧ List.Forall₂ (fun x y => ∃ z, f y = some z ∧ R x z) a b := by
  have hall : ∀ {a : List α} {b : List β}, (∀ y ∈ b, (f y).isSome = true) →
      (List.Forall₂ R a (b.filterMap f) ↔
        List.Forall₂ (fun x y => ∃ z, f y = some z ∧ R x z) a b) := by
    intro a b hb
    induction b generalizing a with
    | nil => simp
    | cons y b ih =>
      obtain ⟨z, hz⟩ := Option.isSome_iff_exists.mp (hb y List.mem_cons_self)
      have ih' := @ih
      cases a with
      | nil => simp [hz]
      | cons x a =>
        rw [List.filterMap_cons, hz]
        simp only [List.forall₂_cons, hz, Option.some.injEq, exists_eq_left']
        rw [ih' fun y hy => hb y (List.mem_cons_of_mem _ hy)]
  constructor
  · intro h
    have hcount := h.length_eq
    have hle := List.length_filterMap_le f (b.take n)
    rw [List.length_take] at hle
    have hfew : b.length ≤ n := by omega
    rw [List.take_of_length_le hfew] at h hcount
    refine ⟨hfew, (hall ?_).mp h⟩
    exact List.filterMap_length_eq_length.mp (hcount.symm.trans hlen)
  · rintro ⟨hfew, h⟩
    rw [List.take_of_length_le hfew]
    refine (hall fun y hy => ?_).mpr h
    obtain ⟨i, hi, rfl⟩ := List.getElem_of_mem hy
    obtain ⟨z, hz, -⟩ := (List.forall₂_iff_get.mp h).2 i (by omega) hi
    exact Option.isSome_iff_exists.mpr ⟨z, hz⟩

theorem forall₂_congr_mem {α β : Type*} {R S : α → β → Prop} : ∀ {a : List α} {b : List β},
    (∀ x, ∀ y ∈ b, R x y ↔ S x y) → (List.Forall₂ R a b ↔ List.Forall₂ S a b)
  | [], [], _ => by simp
  | [], _ :: _, _ => by simp
  | _ :: _, [], _ => by simp
  | x :: a, y :: b, h => by
      rw [List.forall₂_cons, List.forall₂_cons, h x y List.mem_cons_self,
        forall₂_congr_mem fun x y hy => h x y (List.mem_cons_of_mem _ hy)]

theorem length_domain (d : IRClockDomain) :
    (reachedWrites m s d.statements true).length = (domainMemWrites d).length :=
  length_collect _ _ _

theorem length_domains (ds : List IRClockDomain) :
    (ds.flatMap fun d => reachedWrites m s d.statements true).length =
      (ds.flatMap domainMemWrites).length := by
  simp only [List.length_flatMap, length_domain]

theorem length_moduleReached : (moduleReached m s).length = (moduleMemWrites m).length := by
  rw [moduleReached, moduleMemWrites, List.length_append, List.length_append, length_domains,
    length_collect m.asyncBlock none true]

/-- The guards of the module are right exactly when no write of a tree strays. -/
theorem guarded_module : List.Forall₂ (Guarded m s) (moduleReached m s) (moduleMemWrites m) ↔
    ∀ tree ∈ moduleTrees m, NoStray m s true tree true := by
  rw [moduleReached, moduleMemWrites, forall₂_append_iff (length_domains _),
    forall₂_flatMap_iff length_domain]
  simp only [moduleTrees, List.forall_mem_append, List.forall_mem_map, List.forall_mem_singleton,
    domainMemWrites, guarded_iff _ none true fun _ => rfl]
  rfl

theorem port_iff (hbits : OneBitConditions m s) (w : MemWrite × Bool)
    (hinfo : info ∈ moduleMemWrites m) :
    (∃ c, emitMemwrCell m info = some c ∧ c.write = w.1 ∧
      ∀ k < c.width, c.enableBit m s k = w.2) ↔
    (m.memOf w.1.memoryName).isSome = true ∧ Guarded m s w info := by
  constructor
  · rintro ⟨c, hc, hwrite, hen⟩
    obtain ⟨p, hp, rfl⟩ := Option.map_eq_some_iff.mp hc
    have hsame : info.write = w.1 := hwrite
    refine ⟨by rw [← hsame, hp]; rfl, hsame, ?_⟩
    rw [← hen 0 (by simp), enableBit_eq hbits hinfo rfl]
  · rintro ⟨hsome, hwrite, hg⟩
    rw [← hwrite] at hsome
    obtain ⟨p, hp⟩ := Option.isSome_iff_exists.mp hsome
    refine ⟨_, Option.map_eq_some_iff.mpr ⟨p, hp, rfl⟩, hwrite, fun k _ => ?_⟩
    rw [enableBit_eq hbits hinfo rfl, hg]

/-- Every port is right exactly when there are few enough writes, to memories that exist, and none
of them strays. -/
theorem portsMeet_iff (hbits : OneBitConditions m s) : PortsMeet m s ↔ PortsSafe m s := by
  rw [PortsMeet, rtlilMemoryCells, forall₂_take_filterMap_iff length_moduleReached,
    forall₂_congr_mem fun w info hinfo => port_iff hbits w hinfo, List.forall₂_and_left,
    guarded_module, ← length_moduleReached (s := s)]
  exact ⟨fun h => ⟨h.1, h.2.1, h.2.2⟩, fun h => ⟨h.few, h.found, h.quiet⟩⟩

end

/-! ## The clock edge -/

def edgeOn (edge : IRClockEdge) (rising : Bool) : Bool :=
  match edge with
  | .rising => rising
  | .falling => !rising
  | .both => true

def MemWrCell.firesOn (c : MemWrCell) (rising : Bool) : Bool :=
  match c.clock with
  | some (_, posedge) => posedge == rising
  | none => false

section

variable (m : IRModule) (s : CtxState)

/-- A port stores its data in one bit of a memory word. -/
def MemWrCell.writesBit (c : MemWrCell) (i a k : ℕ) : Bool :=
  match m.memOf c.write.memoryName with
  | some (j, mem) => j == i &&
      (simValueToMemIndex (simEvalExpr m s c.write.address) mem.depth == some a &&
        c.enableBit m s k)
  | none => false

/-- The memories after the ports have fired. No port has priority, so a bit that several ports
write can hold anything. -/
def Commits (cells : List MemWrCell) (new : ℕ → ℕ → SimValue) : Prop :=
  ∀ i mem a k, m.memories[i]? = some mem → k < max 1 mem.wordWidth →
    match cells.filter fun c => c.writesBit m s i a k with
    | [] => (new i a).bit4 k = (s.cells i a).bit4 k
    | [c] => (new i a).bit4 k = (simEvalExpr m s c.write.data).bit4 k
    | _ => True

/-- On every edge of the domain the ports leave the memories the simulator leaves. -/
def EdgeMeets (d : IRClockDomain) : Prop :=
  ∀ rising, edgeOn d.edge rising = true →
    ∀ new, Commits m s ((domainCells m d).filter (·.firesOn rising)) new →
      ∀ i mem a k, m.memories[i]? = some mem → k < max 1 mem.wordWidth →
        (new i a).bit4 k = ((simExecStmt m true d.statements s).cells i a).bit4 k

/-- The domain has a clock signal and one edge, nothing reads a word that was written before, and
no word is written twice. -/
structure EdgeSafe (d : IRClockDomain) : Prop where

  clocked : m.signals.any (·.id == d.clockSignalId) = true

  oneEdge : d.edge ≠ .both

  clear : TraceClear m s [] [] (stmtTrace m s d.statements)

  apart : (writesCells (traceWrites (stmtTrace m s d.statements))).Nodup

/-- The word a write stores and its place. -/
def effect (w : MemWrite) : Option ((ℕ × ℕ) × SimValue) :=
  match m.memOf w.memoryName with
  | some (i, mem) =>
    (simValueToMemIndex (simEvalExpr m s w.address) mem.depth).map fun a =>
      ((i, a), simEvalExpr m s w.data)
  | none => none

def reachedEffects (ws : List (MemWrite × Bool)) : List ((ℕ × ℕ) × SimValue) :=
  ws.filterMap fun w => if w.2 then effect m s w.1 else none

end

/-- The memory words that a list of accesses stores. -/
def traceEffects (tr : List Access) : List ((ℕ × ℕ) × SimValue) :=
  (traceWrites tr).filterMap fun w =>
    match w with
    | .cell i a v => some ((i, a), v)
    | .reg .. => none

section

variable {m : IRModule} {s : CtxState} {domain : Option IRClockDomain} {info : MemWriteInfo}

theorem reachedEffects_append (a b : List (MemWrite × Bool)) :
    reachedEffects m s (a ++ b) = reachedEffects m s a ++ reachedEffects m s b :=
  List.filterMap_append

theorem traceEffects_append (a b : List Access) :
    traceEffects (a ++ b) = traceEffects a ++ traceEffects b := by
  rw [traceEffects, traceWrites_append, List.filterMap_append]
  rfl

@[simp]
theorem traceEffects_eval (e : IRExpr) (tr : List Access) :
    traceEffects (.eval e :: tr) = traceEffects tr := rfl

mutual

/-- A tree that is not reached stores nothing. -/
theorem reachedEffects_off : ∀ stmt : IRStmt, reachedEffects m s (reachedWrites m s stmt false) = []
  | .null | .assignment _ | .memWrite .. => rfl
  | .block stmts => reachedEffects_offBlock stmts
  | .ifStmt c t elif e => by
      rw [reachedWrites]
      simp only [Bool.false_and, reachedEffects_append, reachedEffects_off t,
        reachedEffects_offElif elif, reachedEffects_off e, List.append_nil]
  | .select selector cases => by
      rw [reachedWrites, Bool.false_and]
      exact reachedEffects_offCases selector cases

theorem reachedEffects_offElif : ∀ stmt : IRStmt,
    reachedEffects m s (reachedElif m s stmt false) = []
  | .null | .assignment _ | .memWrite .. => rfl
  | .block stmts => reachedEffects_offBlock stmts
  | .ifStmt c t elif e => by
      rw [reachedElif]
      simp only [Bool.false_and, reachedEffects_append, reachedEffects_off t,
        reachedEffects_offElif elif, reachedEffects_off e, List.append_nil]
  | .select selector cases => reachedEffects_offCases selector cases

theorem reachedEffects_offCases (selector : IRExpr) : ∀ cases : List (IRExpr × IRStmt),
    reachedEffects m s (reachedCases m s selector cases false) = []
  | [] => rfl
  | (v, body) :: rest => by
      rw [reachedCases]
      simp only [Bool.false_and, reachedEffects_append, reachedEffects_off body,
        reachedEffects_offCases selector rest, List.append_nil]

theorem reachedEffects_offBlock : ∀ stmts : List IRStmt,
    reachedEffects m s (reachedBlock m s stmts false) = []
  | [] => rfl
  | stmt :: rest => by
      rw [reachedBlock, reachedEffects_append, reachedEffects_off stmt,
        reachedEffects_offBlock rest, List.append_nil]

end

/-- What a condition decides, from its truth value. -/
theorem holds_fails {c : IRExpr} {b : Option Bool} (hb : simValIsTrue (simEvalExpr m s c) = b) :
    holds m s c = decide (b = some true) ∧ fails m s c = decide (b = some false) := by
  rw [holds, fails, hb]
  exact ⟨rfl, rfl⟩

/-- What is not executed as an elif chain stores nothing and ends nothing. -/
theorem elifTrace_done : ∀ stmt : IRStmt, (elifTrace m s stmt).1 = !elifFails m s stmt
  | .null | .assignment _ | .memWrite .. | .block _ | .select .. => rfl
  | .ifStmt c t elif e => by
      rw [elifTrace, elifFails, fails]
      cases simValIsTrue (simEvalExpr m s c) with
      | none => rfl
      | some b =>
        cases b with
        | true => rfl
        | false =>
          simp only [elifTrace_done elif, decide_true, Bool.true_and]

mutual

/-- The words that the accesses of a tree store are those of the writes it reaches. -/
theorem traceEffects_stmt : ∀ stmt : IRStmt,
    traceEffects (stmtTrace m s stmt) = reachedEffects m s (reachedWrites m s stmt true)
  | .null => rfl
  | .assignment a => by
      rw [stmtTrace, assignTrace]
      cases m.sigIndex a.lhsSignalId <;> rfl
  | .memWrite name address data => by
      rw [stmtTrace, memWriteTrace, reachedWrites, reachedEffects, List.filterMap_cons]
      simp only [if_true, effect]
      cases m.memOf name with
      | none => rfl
      | some p =>
        obtain ⟨i, mem⟩ := p
        cases hindex : simValueToMemIndex (simEvalExpr m s address) mem.depth <;>
          simp only [hindex] <;> rfl
  | .block stmts => traceEffects_block stmts
  | .ifStmt c t elif e => by
      rw [stmtTrace, reachedWrites, traceEffects_eval, reachedEffects_append,
        reachedEffects_append, Bool.true_and, Bool.true_and]
      cases hb : simValIsTrue (simEvalExpr m s c) with
      | none =>
        obtain ⟨hh, hf⟩ : holds m s c = false ∧ fails m s c = false := holds_fails hb
        rw [hh, hf, Bool.false_and, reachedEffects_off, reachedEffects_offElif, reachedEffects_off]
        rfl
      | some b =>
        cases b with
        | true =>
          obtain ⟨hh, hf⟩ : holds m s c = true ∧ fails m s c = false := holds_fails hb
          rw [hh, hf, Bool.false_and, reachedEffects_offElif, reachedEffects_off,
            List.append_nil, List.append_nil]
          exact traceEffects_stmt t
        | false =>
          obtain ⟨hh, hf⟩ : holds m s c = false ∧ fails m s c = true := holds_fails hb
          rw [hh, hf, Bool.true_and, reachedEffects_off, List.nil_append]
          have helif := traceEffects_elif elif
          have hdone := elifTrace_done (m := m) (s := s) elif
          cases htr : elifTrace m s elif with
          | mk done tr =>
            rw [htr] at helif hdone
            cases done with
            | true =>
              have hstop : elifFails m s elif = false := by simpa using hdone.symm
              rw [hstop, reachedEffects_off, List.append_nil]
              exact helif
            | false =>
              have hgo : elifFails m s elif = true := by simpa using hdone.symm
              rw [hgo]
              exact (traceEffects_append tr _).trans (congrArg₂ (· ++ ·) helif (traceEffects_stmt e))
  | .select selector cases => by
      rw [stmtTrace, reachedWrites, traceEffects_eval, Bool.true_and]
      by_cases hx : simValHasXz (simEvalExpr m s selector) = true
      · rw [if_pos hx, hx, Bool.not_true, reachedEffects_offCases]
        rfl
      · rw [if_neg hx, Bool.not_eq_true] at *
        rw [hx, Bool.not_false]
        exact traceEffects_cases selector cases

theorem traceEffects_elif : ∀ stmt : IRStmt,
    traceEffects (elifTrace m s stmt).2 = reachedEffects m s (reachedElif m s stmt true)
  | .null | .assignment _ | .memWrite .. => rfl
  | .block stmts => (reachedEffects_offBlock stmts).symm
  | .select selector cases => (reachedEffects_offCases selector cases).symm
  | .ifStmt c t elif e => by
      rw [elifTrace, reachedElif, reachedEffects_append, reachedEffects_append, Bool.true_and,
        Bool.true_and, reachedEffects_off e, List.append_nil]
      cases hb : simValIsTrue (simEvalExpr m s c) with
      | none =>
        obtain ⟨hh, hf⟩ : holds m s c = false ∧ fails m s c = false := holds_fails hb
        rw [hh, hf, reachedEffects_off, reachedEffects_offElif]
        rfl
      | some b =>
        cases b with
        | true =>
          obtain ⟨hh, hf⟩ : holds m s c = true ∧ fails m s c = false := holds_fails hb
          rw [hh, hf, reachedEffects_offElif, List.append_nil]
          exact traceEffects_stmt t
        | false =>
          obtain ⟨hh, hf⟩ : holds m s c = false ∧ fails m s c = true := holds_fails hb
          rw [hh, hf, reachedEffects_off, List.nil_append]
          exact traceEffects_elif elif

theorem traceEffects_cases (selector : IRExpr) : ∀ cases : List (IRExpr × IRStmt),
    traceEffects (casesTrace m s (simEvalExpr m s selector) cases) =
      reachedEffects m s (reachedCases m s selector cases true)
  | [] => rfl
  | (v, body) :: rest => by
      rw [casesTrace, reachedCases, reachedEffects_append, Bool.true_and, Bool.true_and, caseHits]
      by_cases hv : v.isNull = true
      · rw [if_pos hv, hv, Bool.true_or, Bool.not_true, reachedEffects_offCases, List.append_nil]
        exact traceEffects_stmt body
      · rw [if_neg hv, traceEffects_eval]
        rw [Bool.not_eq_true] at hv
        rw [hv, Bool.false_or]
        by_cases heq : simValIsTrue (simValEq (simEvalExpr m s selector) (simEvalExpr m s v)) =
            some true
        · rw [if_pos heq, decide_eq_true heq, Bool.not_true, reachedEffects_offCases,
            List.append_nil]
          exact traceEffects_stmt body
        · rw [if_neg heq, decide_eq_false heq, Bool.not_false, reachedEffects_off, List.nil_append]
          exact traceEffects_cases selector rest

theorem traceEffects_block : ∀ stmts : List IRStmt,
    traceEffects (stmtsTrace m s stmts) = reachedEffects m s (reachedBlock m s stmts true)
  | [] => rfl
  | stmt :: rest => by
      rw [stmtsTrace, reachedBlock, traceEffects_append, reachedEffects_append,
        traceEffects_stmt stmt, traceEffects_block rest]

end

end

/-! ## Committing -/

section

variable {m : IRModule} {s : CtxState} {d : IRClockDomain} {domain : Option IRClockDomain}

theorem writesCells_eq (ws : List Write) : writesCells ws = (ws.filterMap fun w =>
    match w with
    | .cell i a v => some ((i, a), v)
    | .reg .. => none).map Prod.fst := by
  induction ws with
  | nil => rfl
  | cons w ws ih => cases w <;> simp [writesCells, ih]

theorem mem_traceEffects {tr : List Access} {i a : ℕ} {v : SimValue}
    (h : ((i, a), v) ∈ traceEffects tr) : .cell i a v ∈ traceWrites tr := by
  obtain ⟨w, hw, heq⟩ := List.mem_filterMap.mp h
  cases w with
  | cell j b u =>
    cases heq
    exact hw
  | reg j slice u => cases heq

/-- A word that is stored once holds what was stored. -/
theorem stageAll_stored : ∀ (ws : List Write) (t : CtxState) {i a : ℕ} {v : SimValue},
    (writesCells ws).Nodup → .cell i a v ∈ ws → (stageAll t ws).cells i a = v
  | [], _, _, _, _, _, h => by cases h
  | .reg i slice v :: rest, t, _, _, _, hnodup, h => by
      rcases List.mem_cons.mp h with h | h
      · cases h
      · exact stageAll_stored rest _ hnodup h
  | .cell i a v :: rest, t, i', a', v', hnodup, h => by
      rw [writesCells, List.nodup_cons] at hnodup
      rcases List.mem_cons.mp h with h | h
      · cases h
        refine (stageAll_cells rest _ (i, a) hnodup.1).trans ?_
        simp [stageOne, CtxState.setCell]
      · exact stageAll_stored rest _ hnodup.2 h

/-- A recorded write with its port. -/
structure PortOf (m : IRModule) (s : CtxState) (d : IRClockDomain) (w : MemWrite × Bool)
    (c : MemWrCell) : Prop where

  write : c.write = w.1

  clock : c.clock = clockOf m (some d)

  width : ∀ i mem, m.memOf w.1.memoryName = some (i, mem) → c.width = max 1 mem.wordWidth

  enable : ∀ k < c.width, c.enableBit m s k = w.2

theorem memories_of_memOf {name : String} {i : ℕ} {mem : IRMemory}
    (h : m.memOf name = some (i, mem)) : m.memories[i]? = some mem := by
  rw [IRModule.memOf, Option.bind_eq_some_iff] at h
  obtain ⟨j, -, h⟩ := h
  obtain ⟨mem', hmem, heq⟩ := Option.map_eq_some_iff.mp h
  cases heq
  exact hmem

theorem effect_data {w : MemWrite} {e : (ℕ × ℕ) × SimValue} (h : effect m s w = some e) :
    e.2 = simEvalExpr m s w.data := by
  rw [effect] at h
  split at h
  · obtain ⟨a, -, rfl⟩ := Option.map_eq_some_iff.mp h
    rfl
  · cases h

/-- A port stores a bit when its write is reached and goes to the word. -/
theorem PortOf.writesBit {i a k : ℕ} {mem : IRMemory} {w : MemWrite × Bool} {c : MemWrCell}
    (hport : PortOf m s d w c) (hmem : m.memories[i]? = some mem) (hk : k < max 1 mem.wordWidth) :
    c.writesBit m s i a k =
      (if w.2 then effect m s w.1 else none).any fun e => e.1 == (i, a) := by
  rw [MemWrCell.writesBit, hport.write, effect]
  cases hmemOf : m.memOf w.1.memoryName with
  | none => cases w.2 <;> rfl
  | some p =>
    obtain ⟨j, mem'⟩ := p
    simp only
    by_cases hj : j = i
    · subst hj
      rw [memories_of_memOf hmemOf] at hmem
      cases hmem
      rw [hport.enable k (by rw [hport.width _ _ hmemOf]; exact hk)]
      generalize simValueToMemIndex (simEvalExpr m s w.1.address) mem.depth = index
      cases w.2 <;> cases index <;> simp
    · have hne : ∀ x : ℕ, ((j, x) == (i, a)) = false :=
        fun x => beq_false_of_ne fun h => hj (Prod.mk.inj h).1
      generalize simValueToMemIndex (simEvalExpr m s w.1.address) mem'.depth = index
      cases w.2 <;> cases index <;> simp [hj, hne]

/-- The ports that store a bit are those of the reached writes to its word. -/
theorem filter_writesBit {i a k : ℕ} {mem : IRMemory} (hmem : m.memories[i]? = some mem)
    (hk : k < max 1 mem.wordWidth) {ws : List (MemWrite × Bool)} {cells : List MemWrCell}
    (h : List.Forall₂ (PortOf m s d) ws cells) :
    (cells.filter fun c => c.writesBit m s i a k).map
        (fun c => ((i, a), simEvalExpr m s c.write.data)) =
      (reachedEffects m s ws).filter fun e => e.1 == (i, a) := by
  induction h with
  | nil => rfl
  | @cons w c ws cells hport _ ih =>
    rw [List.filter_cons, hport.writesBit hmem hk, reachedEffects, List.filterMap_cons]
    cases heffect : (if w.2 then effect m s w.1 else none) with
    | none => exact ih
    | some e =>
      have hdata : e.2 = simEvalExpr m s c.write.data := by
        split at heffect
        · rw [effect_data heffect, hport.write]
        · cases heffect
      simp only [Option.any_some, List.filter_cons]
      split
      · rename_i he
        rw [List.map_cons, ih, ← hdata, ← beq_iff_eq.mp he]
        rfl
      · exact ih

mutual

theorem collect_clockDomain : ∀ (stmt : IRStmt) (g : Option IRExpr),
    ∀ info ∈ collectMemWrites domain stmt g, info.clockDomain = domain
  | .null, _, _, h | .assignment _, _, _, h => by cases h
  | .memWrite name address data, g, info, h => by rw [List.mem_singleton.mp h]
  | .block stmts, g, info, h => collect_clockDomainBlock stmts g info h
  | .ifStmt c t elif e, g, info, h => by
      simp only [collectMemWrites, List.mem_append] at h
      rcases h with h | h | h
      · exact collect_clockDomain t _ info h
      · exact collect_clockDomain elif _ info h
      · exact collect_clockDomain e _ info h
  | .select selector cases, g, info, h => collect_clockDomainCases cases g info h

theorem collect_clockDomainCases : ∀ (cases : List (IRExpr × IRStmt)) (g : Option IRExpr),
    ∀ info ∈ collectMemCases domain cases g, info.clockDomain = domain
  | [], _, _, h => by cases h
  | (v, body) :: rest, g, info, h => by
      rcases List.mem_append.mp h with h | h
      · exact collect_clockDomain body _ info h
      · exact collect_clockDomainCases rest _ info h

theorem collect_clockDomainBlock : ∀ (stmts : List IRStmt) (g : Option IRExpr),
    ∀ info ∈ collectMemBlock domain stmts g, info.clockDomain = domain
  | [], _, _, h => by cases h
  | stmt :: rest, g, info, h => by
      rcases List.mem_append.mp h with h | h
      · exact collect_clockDomain stmt _ info h
      · exact collect_clockDomainBlock rest _ info h

end

theorem mem_moduleReached (hd : d ∈ m.clockDomains) {w : MemWrite × Bool}
    (h : w ∈ reachedWrites m s d.statements true) : w ∈ moduleReached m s :=
  List.mem_append.mpr (.inl (List.mem_flatMap.mpr ⟨d, hd, h⟩))

/-- In a safe module every write of a domain has its port. -/
theorem PortsSafe.ports (hbits : OneBitConditions m s) (h : PortsSafe m s)
    (hd : d ∈ m.clockDomains) :
    List.Forall₂ (PortOf m s d) (reachedWrites m s d.statements true) (domainCells m d) := by
  have htree : d.statements ∈ moduleTrees m :=
    List.mem_append.mpr (.inl (List.mem_map_of_mem hd))
  have hguards : List.Forall₂ (Guarded m s) (reachedWrites m s d.statements true)
      (domainMemWrites d) :=
    (guarded_iff d.statements none true fun _ => rfl).mpr (h.quiet _ htree)
  have hlen := length_domain (m := m) (s := s) d
  have htake : (domainMemWrites d).take (domainMemWrites d).length = domainMemWrites d :=
    List.take_length
  rw [domainCells, ← htake, forall₂_take_filterMap_iff hlen]
  refine ⟨le_rfl, ?_⟩
  have hall : List.Forall₂ (fun w info => (m.memOf w.1.memoryName).isSome = true ∧
      Guarded m s w info) (reachedWrites m s d.statements true) (domainMemWrites d) :=
    (List.forall₂_and_left _ _).mpr
      ⟨fun w hw => h.found w (mem_moduleReached hd hw), hguards⟩
  refine (forall₂_congr_mem fun w info hinfo => ?_).mp hall
  have hmem : info ∈ moduleMemWrites m :=
    List.mem_append.mpr (.inl (List.mem_flatMap.mpr ⟨d, hd, hinfo⟩))
  rw [← port_iff hbits w hmem]
  constructor
  · rintro ⟨c, hc, hwrite, hen⟩
    obtain ⟨p, hp, rfl⟩ := Option.map_eq_some_iff.mp hc
    have hsame : info.write = w.1 := hwrite
    refine ⟨_, hc, hsame, ?_, fun i mem hmemOf => ?_, hen⟩
    · rw [collect_clockDomain d.statements none info hinfo]
    · rw [hsame, hmemOf] at hp
      cases hp
      rfl
  · rintro ⟨c, hc, hport⟩
    exact ⟨c, hc, hport.write, hport.enable⟩

theorem filter_firesOn (hsafe : EdgeSafe m s d) {rising : Bool}
    (hedge : edgeOn d.edge rising = true) {ws : List (MemWrite × Bool)} {cells : List MemWrCell}
    (h : List.Forall₂ (PortOf m s d) ws cells) :
    cells.filter (·.firesOn rising) = cells := by
  induction h with
  | nil => rfl
  | cons hport _ ih =>
    rw [List.filter_cons_of_pos, ih]
    rw [MemWrCell.firesOn, hport.clock, clockOf]
    simp only [hsafe.clocked, if_true]
    have hone := hsafe.oneEdge
    revert hedge hone
    cases d.edge <;> cases rising <;> decide

/-- In a safe module the ports of a safe domain leave the memories the simulator leaves. -/
theorem EdgeSafe.meets (hbits : OneBitConditions m s) (hports : PortsSafe m s)
    (hd : d ∈ m.clockDomains) (h : EdgeSafe m s d) : EdgeMeets m s d := by
  intro rising hedge new hnew i mem a k hmem hk
  have halign := hports.ports hbits hd
  rw [filter_firesOn h hedge halign] at hnew
  have hbit := hnew i mem a k hmem hk
  have hrun : (simExecStmt m true d.statements s).cells =
      (stageAll s (traceWrites (stmtTrace m s d.statements))).cells :=
    (exec_trace d.statements ⟨fun _ _ => rfl, fun _ _ => rfl⟩ h.clear).cells
  have hcells := filter_writesBit (a := a) hmem hk halign
  rw [← traceEffects_stmt] at hcells
  have haddr : writesCells (traceWrites (stmtTrace m s d.statements)) =
      (traceEffects (stmtTrace m s d.statements)).map Prod.fst := writesCells_eq _
  rw [hrun]
  cases hwriters : (domainCells m d).filter fun c => c.writesBit m s i a k with
  | nil =>
    rw [hwriters] at hbit hcells
    have hfree : (i, a) ∉ writesCells (traceWrites (stmtTrace m s d.statements)) := by
      rw [haddr]
      intro hin
      obtain ⟨e, he, hea⟩ := List.mem_map.mp hin
      have hnone := List.filter_eq_nil_iff.mp hcells.symm e he
      exact hnone (beq_iff_eq.mpr hea)
    rw [hbit, stageAll_cells _ s (i, a) hfree]
  | cons c rest =>
    rw [hwriters] at hbit hcells
    have hnodup := h.apart
    rw [haddr] at hnodup
    have hfilter := hnodup.sublist
      ((List.filter_sublist (p := fun e => e.1 == (i, a))).map Prod.fst)
    rw [← hcells] at hfilter
    cases rest with
    | cons c' rest => simp at hfilter
    | nil =>
      have hmemE : ((i, a), simEvalExpr m s c.write.data) ∈
          traceEffects (stmtTrace m s d.statements) := by
        have hin : ((i, a), simEvalExpr m s c.write.data) ∈
            (traceEffects (stmtTrace m s d.statements)).filter fun e => e.1 == (i, a) := by
          rw [← hcells]
          exact List.mem_singleton_self _
        exact List.mem_of_mem_filter hin
      rw [hbit, stageAll_stored _ s h.apart (mem_traceEffects hmemE)]

/-- The ports fire as the statements do, on every edge of every domain. -/
structure MemoryMeets (m : IRModule) (s : CtxState) : Prop where

  ports : PortsMeet m s

  edges : ∀ d ∈ m.clockDomains, EdgeMeets m s d

theorem PortsMeet.enables (h : PortsMeet m s) :
    (moduleReached m s).map Prod.snd = (rtlilMemoryCells m).map (·.enableBit m s 0) := by
  have hwidth : ∀ c ∈ rtlilMemoryCells m, 0 < c.width := fun c hc => by
    obtain ⟨info, -, hinfo⟩ := List.mem_filterMap.mp hc
    obtain ⟨p, -, rfl⟩ := Option.map_eq_some_iff.mp hinfo
    exact Nat.lt_of_lt_of_le Nat.one_pos (le_max_left _ _)
  rw [PortsMeet] at h
  generalize moduleReached m s = ws at h
  generalize rtlilMemoryCells m = cells at h hwidth
  induction h with
  | nil => rfl
  | cons hport _ ih =>
    rw [List.map_cons, List.map_cons, hport.2 0 (hwidth _ List.mem_cons_self),
      ih fun c hc => hwidth c (List.mem_cons_of_mem _ hc)]

end

namespace RamExample

def write : IRStmt := .memWrite "ram" (.signalRef 2 2) (.signalRef 3 8)

/-- A clock, a condition, an address and data, with one domain that may write a memory. -/
def module (body : IRStmt) : IRModule where
  signals := [⟨0, .port .portIn, 1⟩, ⟨1, .port .portIn, 1⟩, ⟨2, .port .portIn, 2⟩,
    ⟨3, .port .portIn, 8⟩]
  memories := [⟨"ram", 8, 4⟩]
  clockDomains := [⟨0, .rising, [], none, .activeHigh, body⟩]
  asyncBlock := .null

/-- The condition is one. -/
def state : CtxState where
  signals i := ⟨if i = 1 then simValFromUint 1 1 else simValZero (if i = 2 then 2 else 8),
    simValZero 8, false⟩
  cells _ _ := simValZero 8
  runtimeError := false
  settleDirty := false
  sigDirty _ := false

end RamExample

end JzHdl.Rtlil

import JzHdl.Ir.Syntax
import JzHdl.Lib.UnionFind
import Mathlib.Data.List.FinRange

/-! # Alias canonicalisation

The Verilog backend joins the signals of simple aliases and prints every class
under one of its members. Eligibility is checked on each alias alone, and the
member is picked by a score that packs the signal kind above the table index.
-/

namespace JzHdl

def assignmentKindIsAlias : IRAssignmentKind → Bool
  | .alias | .aliasZext | .aliasSext => true
  | _ => false

namespace IRSignalKind

def isPort : IRSignalKind → Bool
  | .port _ => true
  | _ => false

def isRegister : IRSignalKind → Bool
  | .register _ => true
  | _ => false

def kindScore : IRSignalKind → ℕ
  | .port _ => 0
  | .net => 1
  | .register _ => 2
  | .latch => 2

theorem kindScore_eq_zero : ∀ {k : IRSignalKind}, kindScore k = 0 ↔ isPort k = true
  | .port _ => by simp [kindScore, isPort]
  | .net => by simp [kindScore, isPort]
  | .register _ => by simp [kindScore, isPort]
  | .latch => by simp [kindScore, isPort]

end IRSignalKind

/-! ## Collection -/

mutual

/-- The alias assignments of a statement in the order of both walks over it. -/
def aliasAssignments : IRStmt → List IRAssignment
  | .null => []
  | .assignment a => if assignmentKindIsAlias a.kind then [a] else []
  | .ifStmt _ t elif e => aliasAssignments t ++ aliasElif elif ++ aliasAssignments e
  | .select _ cases => aliasCases cases
  | .block stmts => aliasBlock stmts
  | .memWrite .. => []

/-- The chain of further conditions; an ELSE inside it is not walked. -/
def aliasElif : IRStmt → List IRAssignment
  | .ifStmt _ t elif _ => aliasAssignments t ++ aliasElif elif
  | _ => []

def aliasCases : List (IRExpr × IRStmt) → List IRAssignment
  | [] => []
  | (_, body) :: rest => aliasAssignments body ++ aliasCases rest

def aliasBlock : List IRStmt → List IRAssignment
  | [] => []
  | stmt :: rest => aliasAssignments stmt ++ aliasBlock rest

end

namespace IRModule

variable (m : IRModule)

/-- A place in the signal table. -/
abbrev SignalIndex : Type := Fin m.signals.length

def kindAt (i : m.SignalIndex) : IRSignalKind := m.signals[i].kind

/-- The first signal with the identifier, before any aliasing. -/
def findSignalIndexByIdRaw (id : ℕ) : Option m.SignalIndex :=
  (List.finRange m.signals.length).find? fun i => m.signals[i].id == id

/-- The signals that one assignment joins. -/
def aliasPair (a : IRAssignment) : Option (m.SignalIndex × m.SignalIndex) :=
  if !assignmentKindIsAlias a.kind || a.isSliced then none
  else
    match a.rhs with
    | .signalRef rhsId _ =>
      match m.findSignalIndexByIdRaw a.lhsSignalId, m.findSignalIndexByIdRaw rhsId with
      | some lhs, some rhs =>
        if (m.kindAt lhs).isRegister || (m.kindAt rhs).isRegister then none
        else if (m.kindAt lhs).isPort && (m.kindAt rhs).isPort then none
        else if m.signals[lhs].width = 0 ∨ m.signals[lhs].width ≠ m.signals[rhs].width then none
        else some (lhs, rhs)
      | _, _ => none
    | _ => none

def moduleAliases : List IRAssignment :=
  aliasAssignments m.asyncBlock ++ m.clockDomains.flatMap fun cd => aliasAssignments cd.statements

/-- The forest after `collect_alias_unions_from_stmt` on every body. -/
def aliasForest : UnionFind m.signals.length :=
  (UnionFind.singletons _).unions (m.moduleAliases.filterMap m.aliasPair)

/-! ## Representatives -/

def aliasCanonicalScore (i : m.SignalIndex) : ℕ := (m.kindAt i).kindScore * 1024 + i

def chooseCanonicalIndex (a b : m.SignalIndex) : m.SignalIndex :=
  if m.aliasCanonicalScore a ≤ m.aliasCanonicalScore b then a else b

/-- One step of the scan that fills the entry of a root. -/
def canonicalStep (r : m.SignalIndex) (c : Option m.SignalIndex) (i : m.SignalIndex) :
    Option m.SignalIndex :=
  if m.aliasForest.root i = r then
    match c with
    | none => some i
    | some c => some (m.chooseCanonicalIndex c i)
  else c

def rootCanonical (r : m.SignalIndex) : Option m.SignalIndex :=
  (List.finRange m.signals.length).foldl (m.canonicalStep r) none

-- Finding a root only shortens paths, so every root is that of the collected forest.
def hasAliasMerges : Bool :=
  (List.finRange m.signals.length).any fun i => decide (m.aliasForest.root i ≠ i)

/-- The map that `prepare_alias_context_for_module` installs. -/
def canonicalIndex (i : m.SignalIndex) : m.SignalIndex :=
  if m.hasAliasMerges then (m.rootCanonical (m.aliasForest.root i)).getD i else i

def isRepresentative (i : m.SignalIndex) : Bool := decide (m.canonicalIndex i = i)

/-! ## Emission -/

def findSignalById (id : ℕ) : Option m.SignalIndex :=
  (m.findSignalIndexByIdRaw id).map m.canonicalIndex

/-- What a continuous assignment reads: an expression, or a signal when the sides are swapped. -/
inductive AliasSource where

  | value (kind : IRAssignmentKind) (rhs : IRExpr)

  | signal (i : m.SignalIndex)

structure ContinuousAssign where

  target : m.SignalIndex

  slice : Option (ℕ × ℕ)

  source : m.AliasSource

/-- The signal that an unsliced alias of a plain reference reads. -/
def aliasPartner (a : IRAssignment) : Option m.SignalIndex :=
  match a.rhs with
  | .signalRef rhsId _ => if a.isSliced then none else m.findSignalById rhsId
  | _ => none

def emitContinuousAliasAssignment (a : IRAssignment) : Option m.ContinuousAssign :=
  match m.findSignalById a.lhsSignalId with
  | none => none
  | some lhs =>
    let slice := if a.isSliced then some (a.lhsMsb, a.lhsLsb) else none
    let plain := some ⟨lhs, slice, .value a.kind a.rhs⟩
    match m.aliasPartner a with
    | none => plain
    | some rhs =>
      if rhs = lhs then none
      else
        match m.kindAt lhs, m.kindAt rhs with
        | .port .portIn, .port .portIn => none
        | .port .portIn, .port .portOut => some ⟨rhs, none, .signal lhs⟩
        | _, _ => plain

def emitContinuousAliasAssignments : List m.ContinuousAssign :=
  (aliasAssignments m.asyncBlock).filterMap m.emitContinuousAliasAssignment

/-! ## Classes -/

/-- An alias that the collection accepts, with the signals it joins. -/
structure Eligible (a : IRAssignment) (i j : m.SignalIndex) : Prop where

  isAlias : assignmentKindIsAlias a.kind = true

  whole : a.isSliced = false

  target : m.findSignalIndexByIdRaw a.lhsSignalId = some i

  partner : ∃ id width, a.rhs = .signalRef id width ∧ m.findSignalIndexByIdRaw id = some j

  noRegister : (m.kindAt i).isRegister = false ∧ (m.kindAt j).isRegister = false

  oneSided : ¬((m.kindAt i).isPort = true ∧ (m.kindAt j).isPort = true)

  wide : m.signals[i].width ≠ 0

  sameWidth : m.signals[i].width = m.signals[j].width

/-- A chain of eligible aliases leads from one signal to the other. -/
def Connected : m.SignalIndex → m.SignalIndex → Prop :=
  Relation.EqvGen fun i j => ∃ a ∈ m.moduleAliases, m.Eligible a i j

variable {m} {i j r : m.SignalIndex} {a : IRAssignment}

theorem aliasPair_eq_some : m.aliasPair a = some (i, j) ↔ m.Eligible a i j := by
  constructor
  · intro h
    unfold aliasPair at h
    split at h
    · cases h
    · rename_i hkind
      simp only [Bool.or_eq_true, Bool.not_eq_true', not_or, Bool.not_eq_false,
        Bool.not_eq_true] at hkind
      split at h
      · rename_i id width hrhs
        split at h
        · rename_i lhs rhs hl hr
          split at h
          · cases h
          · rename_i hreg
            split at h
            · cases h
            · rename_i hport
              split at h
              · cases h
              · rename_i hwidth
                cases h
                simp only [Bool.or_eq_true, not_or, Bool.not_eq_true] at hreg
                simp only [Bool.and_eq_true] at hport
                push Not at hwidth
                exact ⟨hkind.1, hkind.2, hl, ⟨id, width, hrhs, hr⟩, hreg, hport, hwidth.1, hwidth.2⟩
        · cases h
      · cases h
  · intro h
    obtain ⟨id, width, hrhs, hr⟩ := h.partner
    have hwidth : ¬(m.signals[i].width = 0 ∨ m.signals[i].width ≠ m.signals[j].width) :=
      fun hbad => hbad.elim h.wide fun hne => hne h.sameWidth
    have hport : ((m.kindAt i).isPort && (m.kindAt j).isPort) = false := by
      rw [Bool.and_eq_false_iff, ← Bool.not_eq_true, ← Bool.not_eq_true, ← not_and_or]
      exact h.oneSided
    simp only [aliasPair, h.isAlias, h.whole, hrhs, h.target, hr, h.noRegister.1, h.noRegister.2,
      hport, if_neg hwidth, Bool.not_true, Bool.or_self, Bool.false_eq_true, if_false]

theorem root_eq_iff : m.aliasForest.root i = m.aliasForest.root j ↔ m.Connected i j := by
  rw [aliasForest, UnionFind.root_unions_singletons, Connected]
  refine iff_of_eq (congrArg (fun f => Relation.EqvGen f i j) ?_)
  ext i j
  simp only [List.mem_filterMap, aliasPair_eq_some]

/-! ## The chosen member -/

/-- The order of the scan: lower scores first, and the earlier signal on equal scores. -/
def Before (i j : m.SignalIndex) : Prop :=
  m.aliasCanonicalScore i < m.aliasCanonicalScore j ∨
    m.aliasCanonicalScore i = m.aliasCanonicalScore j ∧ i.val ≤ j.val

theorem Before.refl (i : m.SignalIndex) : Before i i := .inr ⟨rfl, le_rfl⟩

theorem Before.trans {k : m.SignalIndex} (h : Before i j) (h' : Before j k) : Before i k := by
  unfold Before at *
  omega

theorem Before.antisymm (h : Before i j) (h' : Before j i) : i = j := by
  unfold Before at *
  refine Fin.ext ?_
  omega

/-- What the entry of a root holds after some signals were scanned. -/
def Chosen (r : m.SignalIndex) (seen : List m.SignalIndex) : Option m.SignalIndex → Prop
  | none => ∀ i ∈ seen, m.aliasForest.root i ≠ r
  | some c => (c ∈ seen ∧ m.aliasForest.root c = r) ∧
      ∀ i ∈ seen, m.aliasForest.root i = r → Before c i

theorem chosen_step {seen : List m.SignalIndex} {c : Option m.SignalIndex}
    (h : Chosen r seen c) (hi : ∀ j ∈ seen, j < i) :
    Chosen r (seen ++ [i]) (m.canonicalStep r c i) := by
  unfold canonicalStep
  split
  · rename_i hroot
    cases c with
    | none =>
      refine ⟨⟨by simp, hroot⟩, fun j hj hjr => ?_⟩
      rcases List.mem_append.mp hj with hj | hj
      · exact absurd hjr (h j hj)
      · rw [List.mem_singleton.mp hj]
        exact .refl i
    | some c =>
      obtain ⟨⟨hc, hcr⟩, hbest⟩ := h
      have hci : c.val < i.val := hi c hc
      dsimp only
      unfold chooseCanonicalIndex
      split
      · rename_i hle
        refine ⟨⟨by simp [hc], hcr⟩, fun j hj hjr => ?_⟩
        rcases List.mem_append.mp hj with hj | hj
        · exact hbest j hj hjr
        · rw [List.mem_singleton.mp hj]
          unfold Before
          omega
      · rename_i hgt
        have hlow : Before i c := .inl (Nat.lt_of_not_le hgt)
        refine ⟨⟨by simp, hroot⟩, fun j hj hjr => ?_⟩
        rcases List.mem_append.mp hj with hj | hj
        · exact hlow.trans (hbest j hj hjr)
        · rw [List.mem_singleton.mp hj]
          exact .refl i
  · rename_i hroot
    cases c with
    | none =>
      intro j hj
      rcases List.mem_append.mp hj with hj | hj
      · exact h j hj
      · rwa [List.mem_singleton.mp hj]
    | some c =>
      obtain ⟨⟨hc, hcr⟩, hbest⟩ := h
      refine ⟨⟨by simp [hc], hcr⟩, fun j hj hjr => ?_⟩
      rcases List.mem_append.mp hj with hj | hj
      · exact hbest j hj hjr
      · rw [List.mem_singleton.mp hj] at hjr
        exact absurd hjr hroot

theorem chosen_foldl : ∀ (l : List m.SignalIndex) {seen : List m.SignalIndex}
    {c : Option m.SignalIndex}, Chosen r seen c → (seen ++ l).Pairwise (· < ·) →
      Chosen r (seen ++ l) (l.foldl (m.canonicalStep r) c)
  | [], _, _, h, _ => by rwa [List.append_nil]
  | i :: l, seen, c, h, hl => by
      rw [List.append_cons] at hl ⊢
      refine chosen_foldl l (chosen_step h fun j hj => ?_) hl
      have hfirst := (List.pairwise_append.mp (List.pairwise_append.mp hl).1).2.2
      exact hfirst j hj i (by simp)

/-- Every signal maps to the first member of its class in the order of the scan. -/
theorem canonicalIndex_first (i : m.SignalIndex) :
    m.aliasForest.root (m.canonicalIndex i) = m.aliasForest.root i ∧
      ∀ j, m.aliasForest.root j = m.aliasForest.root i → Before (m.canonicalIndex i) j := by
  unfold canonicalIndex
  split
  · have hstart : Chosen (m.aliasForest.root i) [] none := fun _ h => by cases h
    have hchosen : Chosen (m.aliasForest.root i) (List.finRange m.signals.length)
        (m.rootCanonical (m.aliasForest.root i)) :=
      chosen_foldl (List.finRange _) hstart (List.pairwise_lt_finRange _)
    cases hc : m.rootCanonical (m.aliasForest.root i) with
    | none =>
      rw [hc] at hchosen
      exact absurd rfl (hchosen i (List.mem_finRange i))
    | some c =>
      rw [hc] at hchosen
      exact ⟨hchosen.1.2, fun j hj => hchosen.2 j (List.mem_finRange j) hj⟩
  · rename_i hnone
    have hself : ∀ j, m.aliasForest.root j = j := by
      simpa [hasAliasMerges] using hnone
    refine ⟨rfl, fun j hj => ?_⟩
    rw [hself, hself] at hj
    rw [hj]
    exact .refl i

theorem canonicalIndex_connected (i : m.SignalIndex) : m.Connected (m.canonicalIndex i) i :=
  root_eq_iff.mp (canonicalIndex_first i).1

theorem canonicalIndex_before (h : m.Connected j i) : Before (m.canonicalIndex i) j :=
  (canonicalIndex_first i).2 j (root_eq_iff.mpr h)

theorem canonicalIndex_eq_iff : m.canonicalIndex i = m.canonicalIndex j ↔ m.Connected i j := by
  have heqv := Relation.EqvGen.is_equivalence fun i j => ∃ a ∈ m.moduleAliases, m.Eligible a i j
  constructor
  · intro h
    have hi := canonicalIndex_connected i
    rw [h] at hi
    exact heqv.trans (heqv.symm hi) (canonicalIndex_connected j)
  · intro h
    refine (canonicalIndex_before ?_).antisymm (canonicalIndex_before ?_)
    · exact heqv.trans (canonicalIndex_connected j) (heqv.symm h)
    · exact heqv.trans (canonicalIndex_connected i) h

theorem canonicalIndex_idem (i : m.SignalIndex) :
    m.canonicalIndex (m.canonicalIndex i) = m.canonicalIndex i :=
  canonicalIndex_eq_iff.mpr (canonicalIndex_connected i)

/-! ## Ports -/

variable (m)

/-- The alias names the signal as its target or as its partner. -/
def Names (a : IRAssignment) (p : m.SignalIndex) : Prop :=
  m.findSignalIndexByIdRaw a.lhsSignalId = some p ∨
    ∃ id width, a.rhs = .signalRef id width ∧ m.findSignalIndexByIdRaw id = some p

/-- Canonicalisation keeps the classes apart and loses no port. -/
structure KeepsPorts : Prop where

  classes : ∀ i j, m.canonicalIndex i = m.canonicalIndex j ↔ m.Connected i j

  toPort : ∀ p, (m.kindAt p).isPort = true → (m.kindAt (m.canonicalIndex p)).isPort = true

  onePort : ∀ p q, (m.kindAt p).isPort = true → (m.kindAt q).isPort = true →
    m.canonicalIndex p = m.canonicalIndex q → p = q

  idempotent : ∀ i, m.canonicalIndex (m.canonicalIndex i) = m.canonicalIndex i

  driven : ∀ p, m.kindAt p = .port .portOut ∨ m.kindAt p = .port .portInout →
    (∃ a ∈ m.moduleAliases, m.Names a p) →
      (∃ e ∈ m.emitContinuousAliasAssignments, e.target = p) ∨ m.isRepresentative p = true

/-- Ports stand in classes of their own and early enough in the signal table. -/
structure PortsApart : Prop where

  alone : ∀ p q, (m.kindAt p).isPort = true → (m.kindAt q).isPort = true → m.Connected p q → p = q

  early : ∀ p i, (m.kindAt p).isPort = true → (m.kindAt i).isPort = false → m.Connected p i →
    p.val < (m.kindAt i).kindScore * 1024 + i.val

variable {m}

theorem score_of_port {p : m.SignalIndex} (h : (m.kindAt p).isPort = true) :
    m.aliasCanonicalScore p = p.val := by
  rw [aliasCanonicalScore, IRSignalKind.kindScore_eq_zero.mpr h]
  omega

/-- A port that stands early is not passed over for another kind of signal. -/
theorem PortsApart.toPort (h : m.PortsApart) {p : m.SignalIndex}
    (hp : (m.kindAt p).isPort = true) : (m.kindAt (m.canonicalIndex p)).isPort = true := by
  by_contra hnet
  rw [Bool.not_eq_true] at hnet
  have heqv := Relation.EqvGen.is_equivalence fun i j => ∃ a ∈ m.moduleAliases, m.Eligible a i j
  have hearly := h.early p _ hp hnet (heqv.symm (canonicalIndex_connected p))
  have hbefore : Before (m.canonicalIndex p) p := canonicalIndex_before (heqv.refl p)
  have hscore := score_of_port hp
  unfold Before at hbefore
  unfold aliasCanonicalScore at hbefore hscore
  omega

theorem PortsApart.canonicalIndex_port (h : m.PortsApart) {p : m.SignalIndex}
    (hp : (m.kindAt p).isPort = true) : m.canonicalIndex p = p :=
  h.alone _ _ (h.toPort hp) hp (canonicalIndex_connected p)

/-- No port is lost exactly when no two are connected and none is passed over. -/
theorem keepsPorts_iff : m.KeepsPorts ↔ m.PortsApart := by
  constructor
  · intro h
    refine ⟨fun p q hp hq hpq => h.onePort p q hp hq ((h.classes p q).mpr hpq),
      fun p i hp hi hpi => ?_⟩
    have hself : m.canonicalIndex p = p :=
      h.onePort _ _ (h.toPort p hp) hp (h.idempotent p)
    have hbefore : Before (m.canonicalIndex i) i :=
      canonicalIndex_before (.refl i)
    rw [← (h.classes p i).mpr hpi, hself] at hbefore
    have hscore := score_of_port hp
    have hkind : (m.kindAt i).kindScore ≠ 0 := fun hzero => by
      rw [IRSignalKind.kindScore_eq_zero.mp hzero] at hi
      cases hi
    unfold Before at hbefore
    unfold aliasCanonicalScore at hbefore hscore
    omega
  · intro h
    refine ⟨fun i j => canonicalIndex_eq_iff, fun p hp => h.toPort hp,
      fun p q hp hq hpq => h.alone p q hp hq (canonicalIndex_eq_iff.mp hpq), canonicalIndex_idem,
      fun p hp _ => .inr ?_⟩
    have hport : (m.kindAt p).isPort = true := by
      rcases hp with hp | hp <;> rw [hp] <;> rfl
    exact decide_eq_true (h.canonicalIndex_port hport)

end IRModule

/-- An input wired through a net to an output. -/
def passThrough : IRModule where
  signals := [⟨0, .port .portIn, 1⟩, ⟨1, .net, 1⟩, ⟨2, .port .portOut, 1⟩]
  memories := []
  clockDomains := []
  asyncBlock := .block [.assignment ⟨1, .signalRef 0 1, .alias, false, 0, 0⟩,
    .assignment ⟨2, .signalRef 1 1, .alias, false, 0, 0⟩]

/-- The output of the pass-through is merged into the input and nothing drives it. -/
theorem passThrough_not_keepsPorts : ¬passThrough.KeepsPorts := by
  intro h
  have hmerged : passThrough.canonicalIndex ⟨0, by decide⟩ =
      passThrough.canonicalIndex ⟨2, by decide⟩ := by decide +kernel
  exact absurd (h.onePort _ _ rfl rfl hmerged) (by decide)

end JzHdl

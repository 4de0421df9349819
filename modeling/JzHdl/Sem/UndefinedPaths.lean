import JzHdl.Sem.Exclusive

/-! # Paths without a driver

Every record has a flag that some path may leave its declaration alone. A
declaration is reported when all of its records have the flag. The flags are
right as long as the arms of a branching are covered alike.
-/

namespace JzHdl

/-! ## Flags -/

structure FlowRecord where

  decl : ℕ

  isPartial : Bool

def declInRecords (recs : List FlowRecord) (decl : ℕ) : Bool := recs.any fun r => r.decl == decl

/-- The records of all branches. A record becomes partial when some arm may be skipped or a branch
has no record of the declaration. -/
def mergeRecords (complete : Bool) (branches : List (List FlowRecord)) : List FlowRecord :=
  branches.flatMap fun recs => recs.map fun r =>
    { r with
      isPartial := r.isPartial ||
        !(complete && branches.all fun other => declInRecords other r.decl) }

section

variable (scope : FlowScope) (maxBranches : ℕ)

mutual

/-- The records that a statement of an ASYNCHRONOUS block adds. -/
def stmtRecords : FlowStmt → Bool → ℕ → List FlowRecord
  | .assign op lhs rhs, _, _ =>
    if op = .alias then []
    else (collectTargetsFromLhs scope false (assignedTarget op lhs rhs)).map fun t =>
      ⟨t.decl, false⟩
  | .ifChain bodies hasElse, inBlock, depth =>
    let branches := branchRecords bodies (depth - 1)
    let seen := if inBlock then branches else branches.take 1
    if depth = 0 ∨ maxBranches < seen.length then []
    else mergeRecords (inBlock && hasElse) seen
  | .select cases hasDefault, _, depth =>
    if depth = 0 ∨ maxBranches < (cases.filter fun body => !body.isEmpty).length then []
    else mergeRecords hasDefault (caseRecords cases (depth - 1))
  | .block stmts, _, depth => stmtsRecords stmts false depth
  | .featureGuard .., _, _ => []
  | .other, _, _ => []

def stmtsRecords : List FlowStmt → Bool → ℕ → List FlowRecord
  | [], _, _ => []
  | stmt :: rest, inBlock, depth =>
    stmtRecords stmt inBlock depth ++ stmtsRecords rest inBlock depth

def branchRecords : List (List FlowStmt) → ℕ → List (List FlowRecord)
  | [], _ => []
  | body :: rest, depth =>
    (if depth = 0 then [] else stmtsRecords body true (depth - 1)) :: branchRecords rest depth

/-- A case without statements has no branch. -/
def caseRecords : List (List FlowStmt) → ℕ → List (List FlowRecord)
  | [], _ => []
  | body :: rest, depth =>
    if body.isEmpty then caseRecords rest depth
    else stmtsRecords body false depth :: caseRecords rest depth

end

def blockRecords (stmts : List FlowStmt) (depth : ℕ) : List FlowRecord :=
  if depth = 0 then [] else stmtsRecords scope maxBranches stmts true (depth - 1)

/-- A declaration that is a port to the outside or read in the block is observable. -/
def reportsUndefined (observable : ℕ → Bool) (depth : ℕ) (stmts : List FlowStmt) (decl : ℕ) :
    Bool :=
  let recs := blockRecords scope maxBranches stmts depth
  scope.kind decl != .register && scope.kind decl != .latch && declInRecords recs decl &&
    observable decl && !recs.any fun r => r.decl == decl && !r.isPartial

end

/-! ## Covered declarations -/

section

variable (scope : FlowScope) (decl : ℕ)

mutual

/-- The whole declaration is a part of the target. -/
def FlowTarget.Assigns : FlowTarget → Prop
  | .ident name => scope.lookup name = some decl
  | .slice .. => False
  | .concat parts => FlowTarget.AssignsPart parts
  | .other => False

def FlowTarget.AssignsPart : List FlowTarget → Prop
  | [] => False
  | part :: rest => part.Assigns ∨ FlowTarget.AssignsPart rest

end

mutual

/-- No part of the target is a slice of the declaration. -/
def FlowTarget.Unsliced : FlowTarget → Prop
  | .slice (.ident name) _ _ => scope.lookup name ≠ some decl
  | .concat parts => FlowTarget.UnslicedParts parts
  | _ => True

def FlowTarget.UnslicedParts : List FlowTarget → Prop
  | [] => True
  | part :: rest => part.Unsliced ∧ FlowTarget.UnslicedParts rest

end

def SomePath (P : List (List FlowTarget)) : Prop := ∃ p ∈ P, ∃ a ∈ p, a.Assigns scope decl

def EveryPath (P : List (List FlowTarget)) : Prop := ∀ p ∈ P, ∃ a ∈ p, a.Assigns scope decl

/-- The records of the declaration tell whether some path and whether every path assigns it. -/
structure Covered (P : List (List FlowTarget)) (recs : List FlowRecord) : Prop where

  nonempty : P ≠ []

  some_iff : (∃ r ∈ recs, r.decl = decl) ↔ SomePath scope decl P

  every_iff : (∃ r ∈ recs, r.decl = decl ∧ r.isPartial = false) ↔ EveryPath scope decl P

end

section

variable {scope : FlowScope} {decl : ℕ}

theorem declInRecords_iff {recs : List FlowRecord} :
    declInRecords recs decl = true ↔ ∃ r ∈ recs, r.decl = decl := by
  simp [declInRecords]

theorem mergeRecords_some {complete : Bool} {branches : List (List FlowRecord)} :
    (∃ r ∈ mergeRecords complete branches, r.decl = decl) ↔
      ∃ recs ∈ branches, ∃ r ∈ recs, r.decl = decl := by
  simp only [mergeRecords, List.mem_flatMap, List.mem_map]
  constructor
  · rintro ⟨_, ⟨recs, hrecs, r, hr, rfl⟩, h⟩
    exact ⟨recs, hrecs, r, hr, h⟩
  · rintro ⟨recs, hrecs, r, hr, h⟩
    exact ⟨_, ⟨recs, hrecs, r, hr, rfl⟩, h⟩

/-- A record stays complete in a branching that has one for the declaration in every branch. -/
theorem mergeRecords_full {complete : Bool} {branches : List (List FlowRecord)} :
    (∃ r ∈ mergeRecords complete branches, r.decl = decl ∧ r.isPartial = false) ↔
      complete = true ∧ (∀ recs ∈ branches, ∃ r ∈ recs, r.decl = decl) ∧
        ∃ recs ∈ branches, ∃ r ∈ recs, r.decl = decl ∧ r.isPartial = false := by
  simp only [mergeRecords, List.mem_flatMap, List.mem_map]
  constructor
  · rintro ⟨_, ⟨recs, hrecs, r, hr, rfl⟩, rfl, h⟩
    simp only [Bool.or_eq_false_iff, Bool.not_eq_false', Bool.and_eq_true, List.all_eq_true,
      declInRecords_iff] at h
    exact ⟨h.2.1, h.2.2, recs, hrecs, r, hr, rfl, h.1⟩
  · rintro ⟨hcomplete, hall, recs, hrecs, r, hr, rfl, h⟩
    refine ⟨_, ⟨recs, hrecs, r, hr, rfl⟩, rfl, ?_⟩
    simp only [Bool.or_eq_false_iff, Bool.not_eq_false', Bool.and_eq_true, List.all_eq_true,
      declInRecords_iff]
    exact ⟨h, hcomplete, hall⟩

theorem EveryPath.some {P : List (List FlowTarget)} (hne : P ≠ []) (h : EveryPath scope decl P) :
    SomePath scope decl P := by
  obtain ⟨p, hp⟩ := List.exists_mem_of_ne_nil P hne
  exact ⟨p, hp, h p hp⟩

theorem Covered.id : Covered scope decl [[]] [] :=
  { nonempty := List.cons_ne_nil _ _
    some_iff := by simp [SomePath]
    every_iff := by simp [EveryPath] }

theorem Covered.seq {P Q : List (List FlowTarget)} {recs recs' : List FlowRecord}
    (hP : Covered scope decl P recs) (hQ : Covered scope decl Q recs') :
    Covered scope decl (P.flatMap fun p => Q.map fun q => p ++ q) (recs ++ recs') := by
  obtain ⟨p₀, hp₀⟩ := List.exists_mem_of_ne_nil P hP.nonempty
  obtain ⟨q₀, hq₀⟩ := List.exists_mem_of_ne_nil Q hQ.nonempty
  have hmem : ∀ {p q}, p ∈ P → q ∈ Q → p ++ q ∈ P.flatMap fun p => Q.map fun q => p ++ q :=
    fun hp hq => List.mem_flatMap.mpr ⟨_, hp, List.mem_map.mpr ⟨_, hq, rfl⟩⟩
  refine ⟨List.ne_nil_of_mem (hmem hp₀ hq₀), ?_, ?_⟩
  · simp only [List.mem_append, or_and_right, exists_or]
    rw [hP.some_iff, hQ.some_iff]
    constructor
    · rintro (⟨p, hp, a, ha, h⟩ | ⟨q, hq, a, ha, h⟩)
      · exact ⟨_, hmem hp hq₀, a, List.mem_append_left _ ha, h⟩
      · exact ⟨_, hmem hp₀ hq, a, List.mem_append_right _ ha, h⟩
    · rintro ⟨r, hr, a, ha, h⟩
      obtain ⟨p, hp, hr⟩ := List.mem_flatMap.mp hr
      obtain ⟨q, hq, rfl⟩ := List.mem_map.mp hr
      exact (List.mem_append.mp ha).imp (fun ha => ⟨p, hp, a, ha, h⟩) fun ha => ⟨q, hq, a, ha, h⟩
  · simp only [List.mem_append, or_and_right, exists_or]
    rw [hP.every_iff, hQ.every_iff]
    constructor
    · rintro (h | h) r hr
      all_goals
        obtain ⟨p, hp, hr⟩ := List.mem_flatMap.mp hr
        obtain ⟨q, hq, rfl⟩ := List.mem_map.mp hr
      · obtain ⟨a, ha, hassigns⟩ := h p hp
        exact ⟨a, List.mem_append_left _ ha, hassigns⟩
      · obtain ⟨a, ha, hassigns⟩ := h q hq
        exact ⟨a, List.mem_append_right _ ha, hassigns⟩
    · intro h
      by_cases hfirst : EveryPath scope decl P
      · exact .inl hfirst
      · -- some path of the first half leaves the declaration to all paths of the second
        simp only [EveryPath, not_forall] at hfirst
        obtain ⟨p, hp, hno⟩ := hfirst
        refine .inr fun q hq => ?_
        obtain ⟨a, ha, hassigns⟩ := h _ (hmem hp hq)
        rcases List.mem_append.mp ha with ha | ha
        · exact absurd ⟨a, ha, hassigns⟩ hno
        · exact ⟨a, ha, hassigns⟩

/-- A branching whose branches are right and, where all of them have a record, covered alike. -/
theorem Covered.merge {bodies : List (List FlowStmt)} {complete : Bool}
    {branches : List (List FlowRecord)} (hne : complete = true → bodies ≠ [])
    (hbranches : ∀ recs ∈ branches, ∃ body ∈ bodies, Covered scope decl (blockFlows body) recs)
    (hnonempty : ∀ body ∈ bodies, blockFlows body ≠ [])
    (hbodies : ∀ body ∈ bodies, SomePath scope decl (blockFlows body) →
      ∃ recs ∈ branches, Covered scope decl (blockFlows body) recs)
    (heven : complete = true → (∀ recs ∈ branches, ∃ r ∈ recs, r.decl = decl) →
      (∃ body ∈ bodies, EveryPath scope decl (blockFlows body)) →
      ∀ body ∈ bodies, EveryPath scope decl (blockFlows body)) :
    Covered scope decl ((bodies.flatMap blockFlows) ++ if complete then [] else [[]])
      (mergeRecords complete branches) := by
  refine ⟨?_, ?_, ?_⟩
  · cases complete with
    | false => exact List.append_ne_nil_of_right_ne_nil _ (List.cons_ne_nil _ _)
    | true =>
      obtain ⟨body, hbody⟩ := List.exists_mem_of_ne_nil bodies (hne rfl)
      obtain ⟨p, hp⟩ := List.exists_mem_of_ne_nil _ (hnonempty body hbody)
      exact List.ne_nil_of_mem
        (List.mem_append_left _ (List.mem_flatMap.mpr ⟨body, hbody, hp⟩))
  · rw [mergeRecords_some]
    constructor
    · rintro ⟨recs, hrecs, h⟩
      obtain ⟨body, hbody, hcov⟩ := hbranches recs hrecs
      obtain ⟨p, hp, hassigns⟩ := hcov.some_iff.mp h
      exact ⟨p, List.mem_append_left _ (List.mem_flatMap.mpr ⟨body, hbody, hp⟩), hassigns⟩
    · rintro ⟨p, hp, a, ha, hassigns⟩
      rcases List.mem_append.mp hp with hp | hp
      · obtain ⟨body, hbody, hp⟩ := List.mem_flatMap.mp hp
        obtain ⟨recs, hrecs, hcov⟩ := hbodies body hbody ⟨p, hp, a, ha, hassigns⟩
        exact ⟨recs, hrecs, hcov.some_iff.mpr ⟨p, hp, a, ha, hassigns⟩⟩
      · cases complete <;> simp_all
  · rw [mergeRecords_full]
    constructor
    · rintro ⟨hcomplete, hall, recs, hrecs, hfull⟩ p hp
      obtain ⟨body, hbody, hcov⟩ := hbranches recs hrecs
      have hevery := heven hcomplete hall ⟨body, hbody, hcov.every_iff.mp hfull⟩
      rw [hcomplete, if_pos rfl, List.append_nil] at hp
      obtain ⟨body', hbody', hp⟩ := List.mem_flatMap.mp hp
      exact hevery body' hbody' p hp
    · intro h
      have hcomplete : complete = true := by
        cases complete with
        | true => rfl
        | false =>
          obtain ⟨a, ha, -⟩ := h [] (List.mem_append_right _ (List.mem_singleton.mpr rfl))
          simp at ha
      have hevery : ∀ body ∈ bodies, EveryPath scope decl (blockFlows body) :=
        fun body hbody p hp =>
          h p (List.mem_append_left _ (List.mem_flatMap.mpr ⟨body, hbody, hp⟩))
      obtain ⟨body, hbody⟩ := List.exists_mem_of_ne_nil bodies (hne hcomplete)
      obtain ⟨recs, hrecs, hcov⟩ :=
        hbodies body hbody ((hevery body hbody).some (hnonempty body hbody))
      refine ⟨hcomplete, fun recs' hrecs' => ?_, recs, hrecs,
        hcov.every_iff.mpr (hevery body hbody)⟩
      obtain ⟨body', hbody', hcov'⟩ := hbranches recs' hrecs'
      exact hcov'.some_iff.mpr ((hevery body' hbody').some (hnonempty body' hbody'))

end

/-! ## Statements -/

section

variable (scope : FlowScope) (maxBranches : ℕ) (decl : ℕ)

/-- Where every arm may assign the declaration and some arm surely does, every arm surely does. -/
def EvenArms (arms bodies : List (List FlowStmt)) : Prop :=
  (∀ body ∈ arms, SomePath scope decl (blockFlows body)) →
    (∃ body ∈ bodies, EveryPath scope decl (blockFlows body)) →
    ∀ body ∈ bodies, EveryPath scope decl (blockFlows body)

mutual

/-- Within the limits, no alias and no slice of the declaration, no ELIF or ELSE outside the walk
of a whole block, no statement under a guard, and even arms wherever one of them is taken. -/
def EvenStmt : FlowStmt → Bool → ℕ → Prop
  | .assign op lhs rhs, _, _ =>
    op ≠ .alias ∧ (assignedTarget op lhs rhs).Unsliced scope decl
  | .ifChain bodies hasElse, inBlock, depth => bodies ≠ [] ∧
      (inBlock = true ∨ bodies.length = 1 ∧ hasElse = false) ∧ 0 < depth ∧
      bodies.length ≤ maxBranches ∧ (hasElse = true → EvenArms scope decl bodies bodies) ∧
      EvenBranches bodies (depth - 1)
  | .select cases hasDefault, _, depth => (hasDefault = true → cases ≠ []) ∧ 0 < depth ∧
      (cases.filter fun body => !body.isEmpty).length ≤ maxBranches ∧
      (hasDefault = true → EvenArms scope decl (cases.filter fun body => !body.isEmpty) cases) ∧
      EvenCases cases (depth - 1)
  | .block stmts, _, depth => EvenStmts stmts false depth
  | .featureGuard thenBlock elseBlock, _, _ => thenBlock = [] ∧ elseBlock = []
  | .other, _, _ => True

def EvenStmts : List FlowStmt → Bool → ℕ → Prop
  | [], _, _ => True
  | stmt :: rest, inBlock, depth => EvenStmt stmt inBlock depth ∧ EvenStmts rest inBlock depth

def EvenBranches : List (List FlowStmt) → ℕ → Prop
  | [], _ => True
  | body :: rest, depth => (0 < depth ∧ EvenStmts body true (depth - 1)) ∧ EvenBranches rest depth

def EvenCases : List (List FlowStmt) → ℕ → Prop
  | [], _ => True
  | body :: rest, depth => EvenStmts body false depth ∧ EvenCases rest depth

end

end

section

variable {scope : FlowScope} {maxBranches decl : ℕ}

theorem addTarget_decl {name : String} (hkind : scope.kind decl ≠ .other)
    (range : Option (ℕ × ℕ)) :
    (∃ t ∈ addTargetFromSymbol scope false name range, t.decl = decl) ↔
      scope.lookup name = some decl := by
  rw [addTargetFromSymbol]
  cases hlookup : scope.lookup name with
  | none => simp
  | some d =>
    simp only [Bool.false_eq_true, if_false, Option.some.injEq]
    constructor
    · split_ifs
      · rintro ⟨t, ht, rfl⟩
        rw [List.mem_singleton.mp ht]
      · rintro ⟨t, ht, -⟩
        simp at ht
    · rintro rfl
      rw [if_pos hkind]
      exact ⟨_, List.mem_singleton.mpr rfl, rfl⟩

mutual

theorem collect_decl (hkind : scope.kind decl ≠ .other) : ∀ {a : FlowTarget},
    a.Unsliced scope decl →
    ((∃ t ∈ collectTargetsFromLhs scope false a, t.decl = decl) ↔ a.Assigns scope decl)
  | .ident name, _ => by
      rw [collectTargetsFromLhs, FlowTarget.Assigns]
      exact addTarget_decl hkind none
  | .slice (.ident name) msb lsb, h => by
      rw [collectTargetsFromLhs, FlowTarget.Assigns, addTarget_decl hkind]
      exact iff_false_intro h
  | .slice (.slice ..) _ _, _ | .slice (.concat _) _ _, _ | .slice .other _ _, _ => by
      simp [collectTargetsFromLhs, FlowTarget.Assigns]
  | .concat parts, h => collectParts_decl hkind h
  | .other, _ => by simp [collectTargetsFromLhs, FlowTarget.Assigns]

theorem collectParts_decl (hkind : scope.kind decl ≠ .other) : ∀ {parts : List FlowTarget},
    FlowTarget.UnslicedParts scope decl parts →
    ((∃ t ∈ collectTargetsFromParts scope false parts, t.decl = decl) ↔
      FlowTarget.AssignsPart scope decl parts)
  | [], _ => by simp [collectTargetsFromParts, FlowTarget.AssignsPart]
  | part :: rest, h => by
      rw [collectTargetsFromParts, FlowTarget.AssignsPart, ← collect_decl hkind h.1,
        ← collectParts_decl hkind h.2]
      simp only [List.mem_append, or_and_right, exists_or]

end

theorem Covered.assign (hkind : scope.kind decl ≠ .other) {a : FlowTarget}
    (h : a.Unsliced scope decl) :
    Covered scope decl [[a]]
      ((collectTargetsFromLhs scope false a).map fun t => ⟨t.decl, false⟩) := by
  have hcollect := collect_decl hkind h
  refine ⟨List.cons_ne_nil _ _, ?_, ?_⟩
  · simpa [SomePath] using hcollect
  · simpa [EveryPath] using hcollect

theorem branchFlows_eq : ∀ bodies : List (List FlowStmt),
    branchFlows bodies = bodies.flatMap blockFlows
  | [] => rfl
  | body :: rest => by rw [branchFlows, branchFlows_eq rest, List.flatMap_cons]

theorem branchRecords_eq (depth : ℕ) : ∀ bodies : List (List FlowStmt),
    branchRecords scope maxBranches bodies depth =
      bodies.map fun body =>
        if depth = 0 then [] else stmtsRecords scope maxBranches body true (depth - 1)
  | [] => rfl
  | body :: rest => by rw [branchRecords, branchRecords_eq depth rest, List.map_cons]

theorem caseRecords_eq (depth : ℕ) : ∀ cases : List (List FlowStmt),
    caseRecords scope maxBranches cases depth =
      (cases.filter fun body => !body.isEmpty).map fun body =>
        stmtsRecords scope maxBranches body false depth
  | [] => rfl
  | [] :: rest => by
      rw [caseRecords, if_pos List.isEmpty_nil, caseRecords_eq depth rest]
      rfl
  | (stmt :: body) :: rest => by
      rw [caseRecords, if_neg (by simp), caseRecords_eq depth rest]
      rfl

mutual

/-- By recursion on the statement, along the walk of the analysis. -/
theorem covered_stmt (hkind : scope.kind decl ≠ .other) :
    ∀ (stmt : FlowStmt) (inBlock : Bool) (depth : ℕ),
    EvenStmt scope maxBranches decl stmt inBlock depth →
    Covered scope decl (stmtFlows stmt) (stmtRecords scope maxBranches stmt inBlock depth)
  | .assign op lhs rhs, _, _, h => by
      rw [stmtRecords, if_neg h.1, stmtFlows]
      exact Covered.assign hkind h.2
  | .ifChain bodies hasElse, inBlock, depth, ⟨hne, hall, hdepth, hcount, heven, hbodies⟩ => by
      have hcov := covered_branches hkind bodies (depth - 1) hbodies
      have hlen : (branchRecords scope maxBranches bodies (depth - 1)).length = bodies.length := by
        rw [branchRecords_eq, List.length_map]
      have hrecords : stmtRecords scope maxBranches (.ifChain bodies hasElse) inBlock depth =
          mergeRecords hasElse (branchRecords scope maxBranches bodies (depth - 1)) := by
        rw [stmtRecords]
        rcases hall with rfl | ⟨hone, rfl⟩
        · simp only [if_true, Bool.true_and]
          rw [if_neg (by omega)]
        · rw [List.take_of_length_le (by omega)]
          simp only [ite_self, Bool.and_false]
          rw [if_neg (by omega)]
      rw [hrecords, stmtFlows, branchFlows_eq, branchRecords_eq]
      refine Covered.merge (fun _ => hne) ?_ (fun body hbody => (hcov body hbody).nonempty) ?_ ?_
      · intro recs hrecs
        obtain ⟨body, hbody, rfl⟩ := List.mem_map.mp hrecs
        exact ⟨body, hbody, hcov body hbody⟩
      · exact fun body hbody _ => ⟨_, List.mem_map.mpr ⟨body, hbody, rfl⟩, hcov body hbody⟩
      · intro helse hsome
        exact heven helse fun body hbody =>
          (hcov body hbody).some_iff.mp (hsome _ (List.mem_map.mpr ⟨body, hbody, rfl⟩))
  | .select cases hasDefault, inBlock, depth, ⟨hne, hdepth, hcount, heven, hcases⟩ => by
      have hcov := covered_cases hkind cases (depth - 1) hcases
      rw [stmtRecords, if_neg (by omega), stmtFlows, branchFlows_eq, caseRecords_eq]
      refine Covered.merge hne ?_ (fun body hbody => (hcov body hbody).nonempty) ?_ ?_
      · intro recs hrecs
        obtain ⟨body, hbody, rfl⟩ := List.mem_map.mp hrecs
        exact ⟨body, List.mem_of_mem_filter hbody, hcov body (List.mem_of_mem_filter hbody)⟩
      · intro body hbody hsome
        refine ⟨_, List.mem_map.mpr ⟨body, List.mem_filter.mpr ⟨hbody, ?_⟩, rfl⟩, hcov body hbody⟩
        cases body with
        | nil => simp [SomePath, blockFlows] at hsome
        | cons => rfl
      · intro hdefault hsome
        exact heven hdefault fun body hbody =>
          (hcov body (List.mem_of_mem_filter hbody)).some_iff.mp
            (hsome _ (List.mem_map.mpr ⟨body, hbody, rfl⟩))
  | .block stmts, _, depth, h => covered_stmts hkind stmts false depth h
  | .featureGuard thenBlock elseBlock, _, _, ⟨hthen, helse⟩ => by
      subst hthen helse
      rw [stmtRecords]
      exact
        { nonempty := by simp [stmtFlows, blockFlows]
          some_iff := by simp [SomePath, stmtFlows, blockFlows]
          every_iff := by simp [EveryPath, stmtFlows, blockFlows] }
  | .other, _, _, _ => Covered.id

theorem covered_stmts (hkind : scope.kind decl ≠ .other) :
    ∀ (stmts : List FlowStmt) (inBlock : Bool) (depth : ℕ),
    EvenStmts scope maxBranches decl stmts inBlock depth →
    Covered scope decl (blockFlows stmts) (stmtsRecords scope maxBranches stmts inBlock depth)
  | [], _, _, _ => Covered.id
  | stmt :: rest, inBlock, depth, h => by
      rw [blockFlows, stmtsRecords]
      exact (covered_stmt hkind stmt inBlock depth h.1).seq
        (covered_stmts hkind rest inBlock depth h.2)

theorem covered_branches (hkind : scope.kind decl ≠ .other) :
    ∀ (bodies : List (List FlowStmt)) (depth : ℕ),
    EvenBranches scope maxBranches decl bodies depth →
    ∀ body ∈ bodies, Covered scope decl (blockFlows body)
      (if depth = 0 then [] else stmtsRecords scope maxBranches body true (depth - 1))
  | [], _, _, _, hbody => by simp at hbody
  | first :: rest, depth, ⟨⟨hdepth, hfirst⟩, hrest⟩, body, hbody => by
      rcases List.mem_cons.mp hbody with heq | hbody
      · rw [heq, if_neg (by omega)]
        exact covered_stmts hkind first true (depth - 1) hfirst
      · exact covered_branches hkind rest depth hrest body hbody

theorem covered_cases (hkind : scope.kind decl ≠ .other) :
    ∀ (cases : List (List FlowStmt)) (depth : ℕ),
    EvenCases scope maxBranches decl cases depth →
    ∀ body ∈ cases, Covered scope decl (blockFlows body)
      (stmtsRecords scope maxBranches body false depth)
  | [], _, _, _, hbody => by simp at hbody
  | first :: rest, depth, ⟨hfirst, hrest⟩, body, hbody => by
      rcases List.mem_cons.mp hbody with heq | hbody
      · rw [heq]
        exact covered_stmts hkind first false depth hfirst
      · exact covered_cases hkind rest depth hrest body hbody

end

end

namespace UndefinedExample

/-- One wire under every name. -/
def scope : FlowScope := ⟨fun _ => some 0, fun _ => .wire, fun _ => 1, fun _ => false⟩

def write : FlowStmt := .assign .receive (.ident "x") .other

/-- An IF whose both branches write the wire. -/
def bothBranches : List FlowStmt := [.ifChain [[write], [write]] true]

/-- The ELSE holds an IF without an ELSE of its own. -/
def halfElse : List FlowStmt := [.ifChain [[write], [.ifChain [[write]] false]] true]

theorem write_every : EveryPath scope 0 (blockFlows [write]) := by
  simp [EveryPath, blockFlows, stmtFlows, write, assignedTarget, FlowTarget.Assigns, scope]

theorem write_even (inBlock : Bool) (depth : ℕ) : EvenStmt scope 16 0 write inBlock depth :=
  ⟨nofun, trivial⟩

theorem bothBranches_some : SomePath scope 0 (blockFlows bothBranches) := by
  simp [SomePath, blockFlows, stmtFlows, branchFlows, bothBranches, write, assignedTarget,
    FlowTarget.Assigns, scope]

theorem bothBranches_even : EvenStmts scope 16 0 bothBranches true 7 := by
  refine ⟨⟨List.cons_ne_nil _ _, .inl rfl, by decide, by decide, fun _ _ _ body hbody => ?_,
    ⟨by decide, write_even _ _, trivial⟩, ⟨by decide, write_even _ _, trivial⟩, trivial⟩, trivial⟩
  have hwrite : body = [write] := by simpa using hbody
  rw [hwrite]
  exact write_every

end UndefinedExample

end JzHdl

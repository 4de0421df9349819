import JzHdl.Sem.Exclusive

/-! # The reports and the paths

Where every slice bound is known, no ELIF or ELSE is walked on its own and no
guard holds statements, the analysis reports exactly the blocks with a path on
which two assignments write a common bit.
-/

namespace JzHdl

open PathMerge

/-! ## Targets -/

section

variable (scope : FlowScope) (isSync : Bool) (value : BoundExpr → Option ℕ)

/-- The checker keeps a record for symbols of this kind and compares it with the others. -/
def FlowScope.Tracked (decl : ℕ) : Prop :=
  if isSync then scope.kind decl = .register
  else scope.kind decl ≠ .other ∧ scope.hasZAssignment decl = false

mutual

/-- Every part is a declaration that the checker tracks, whole or with bounds that it evaluates as
the language does. -/
def FlowTarget.Plain : FlowTarget → Prop
  | .ident name => ∃ decl, scope.lookup name = some decl ∧ scope.Tracked isSync decl ∧
      0 < scope.width decl
  | .slice (.ident name) msb lsb => ∃ decl, scope.lookup name = some decl ∧
      scope.Tracked isSync decl ∧ ∃ m l, value msb = some m ∧ value lsb = some l ∧
        sliceRange msb lsb = some (l, m) ∧ l ≤ m ∧ m < scope.width decl
  | .slice .. => False
  | .concat parts => FlowTarget.PlainParts parts
  | .other => False

def FlowTarget.PlainParts : List FlowTarget → Prop
  | [] => True
  | part :: rest => part.Plain ∧ FlowTarget.PlainParts rest

end

/-- The bits that a record stands for. -/
def AssignTarget.Covers (t : AssignTarget) (decl bit : ℕ) : Prop :=
  t.decl = decl ∧
    match t.range with
    | none => bit < scope.width decl
    | some (l, m) => l ≤ bit ∧ bit ≤ m

structure AssignTarget.Valid (t : AssignTarget) : Prop where

  driven : isSync = true ∨ t.canDriveZ = false

  isRegister : t.isRegister = decide (scope.kind t.decl = .register ∨ scope.kind t.decl = .latch)

  width : 0 < scope.width t.decl

  range : ∀ l m, t.range = some (l, m) → l ≤ m ∧ m < scope.width t.decl

end

section

variable {scope : FlowScope} {isSync : Bool} {value : BoundExpr → Option ℕ}

theorem addTarget_eq {name : String} {decl : ℕ} (hlookup : scope.lookup name = some decl)
    (htracked : scope.Tracked isSync decl) (range : Option (ℕ × ℕ)) :
    addTargetFromSymbol scope isSync name range =
      [⟨decl, scope.kind decl = .register ∨ scope.kind decl = .latch, range,
        scope.hasZAssignment decl⟩] := by
  rw [addTargetFromSymbol, hlookup]
  refine if_pos ?_
  cases isSync
  · exact htracked.1
  · exact htracked

theorem FlowScope.Tracked.driven {decl : ℕ} (h : scope.Tracked isSync decl) :
    isSync = true ∨ scope.hasZAssignment decl = false := by
  cases isSync
  · exact .inr h.2
  · exact .inl rfl

mutual

theorem collect_valid : ∀ {a : FlowTarget}, a.Plain scope isSync value →
    ∀ t ∈ collectTargetsFromLhs scope isSync a, t.Valid scope isSync
  | .ident name, h, t, ht => by
      obtain ⟨decl, hlookup, htracked, hwidth⟩ := h
      rw [collectTargetsFromLhs, addTarget_eq hlookup htracked, List.mem_singleton] at ht
      subst ht
      exact ⟨htracked.driven, rfl, hwidth, nofun⟩
  | .slice (.ident name) msb lsb, h, t, ht => by
      obtain ⟨decl, hlookup, htracked, m, l, -, -, hrange, hle, hlt⟩ := h
      rw [collectTargetsFromLhs, addTarget_eq hlookup htracked, List.mem_singleton] at ht
      subst ht
      refine ⟨htracked.driven, rfl, by simp only; omega, fun l' m' heq => ?_⟩
      obtain ⟨rfl, rfl⟩ := Prod.mk.inj (Option.some.inj (hrange.symm.trans heq))
      exact ⟨hle, hlt⟩
  | .slice (.slice ..) _ _, h, _, _ | .slice (.concat _) _ _, h, _, _
  | .slice .other _ _, h, _, _ => h.elim
  | .concat parts, h, t, ht => collectParts_valid h t ht
  | .other, h, _, _ => h.elim

theorem collectParts_valid : ∀ {parts : List FlowTarget},
    FlowTarget.PlainParts scope isSync value parts →
    ∀ t ∈ collectTargetsFromParts scope isSync parts, t.Valid scope isSync
  | [], _, _, ht => by simp [collectTargetsFromParts] at ht
  | part :: rest, h, t, ht => by
      rw [collectTargetsFromParts, List.mem_append] at ht
      exact ht.elim (collect_valid h.1 t) (collectParts_valid h.2 t)

end

mutual

/-- The records of a target cover the bits that it writes. -/
theorem collect_covers (decl bit : ℕ) : ∀ {a : FlowTarget}, a.Plain scope isSync value →
    (a.Writes scope value decl bit ↔
      ∃ t ∈ collectTargetsFromLhs scope isSync a, t.Covers scope decl bit)
  | .ident name, h => by
      obtain ⟨d, hlookup, htracked, -⟩ := h
      rw [collectTargetsFromLhs, addTarget_eq hlookup htracked, FlowTarget.Writes, hlookup]
      simp [AssignTarget.Covers]
  | .slice (.ident name) msb lsb, h => by
      obtain ⟨d, hlookup, htracked, m, l, hm, hl, hrange, -, -⟩ := h
      rw [collectTargetsFromLhs, addTarget_eq hlookup htracked, FlowTarget.Writes, hlookup, hm, hl,
        hrange]
      simp [AssignTarget.Covers]
  | .slice (.slice ..) _ _, h | .slice (.concat _) _ _, h | .slice .other _ _, h => h.elim
  | .concat parts, h => collectParts_covers decl bit h
  | .other, h => h.elim

theorem collectParts_covers (decl bit : ℕ) : ∀ {parts : List FlowTarget},
    FlowTarget.PlainParts scope isSync value parts →
    (FlowTarget.WritesPart scope value parts decl bit ↔
      ∃ t ∈ collectTargetsFromParts scope isSync parts, t.Covers scope decl bit)
  | [], _ => by simp [FlowTarget.WritesPart, collectTargetsFromParts]
  | part :: rest, h => by
      rw [FlowTarget.WritesPart, collectTargetsFromParts, collect_covers decl bit h.1,
        collectParts_covers decl bit h.2]
      simp only [List.mem_append]
      constructor
      · rintro (⟨t, ht, hc⟩ | ⟨t, ht, hc⟩)
        · exact ⟨t, .inl ht, hc⟩
        · exact ⟨t, .inr ht, hc⟩
      · rintro ⟨t, ht | ht, hc⟩
        · exact .inl ⟨t, ht, hc⟩
        · exact .inr ⟨t, ht, hc⟩

end

/-- Two valid records overlap exactly when they cover a common bit. -/
theorem rangesOverlap_iff {r e : AssignTarget} (hr : r.Valid scope isSync)
    (he : e.Valid scope isSync) :
    rangesOverlap isSync r e = true ↔
      ∃ decl bit, r.Covers scope decl bit ∧ e.Covers scope decl bit := by
  obtain ⟨rd, rr, rrange, rz⟩ := r
  obtain ⟨ed, er, erange, ez⟩ := e
  have hwr := hr.width
  have hwe := he.width
  have hrr := hr.range
  have hre := he.range
  have hreg : rd = ed → rr = er := by
    rintro rfl
    exact hr.isRegister.trans he.isRegister.symm
  have hz : (isSync || !(rz || ez)) = true := by
    rcases hr.driven with hs | hrz
    · rw [hs, Bool.true_or]
    · rcases he.driven with hs | hez
      · rw [hs, Bool.true_or]
      · rw [show rz = false from hrz, show ez = false from hez, Bool.or_false, Bool.not_false,
          Bool.or_true]
  simp only [rangesOverlap, AssignTarget.Covers, Bool.and_eq_true, beq_iff_eq] at *
  constructor
  · rintro ⟨⟨⟨rfl, -⟩, -⟩, hover⟩
    refine ⟨rd, ?_⟩
    cases rrange with
    | none =>
      cases erange with
      | none => exact ⟨0, ⟨rfl, hwr⟩, rfl, hwr⟩
      | some p =>
        obtain ⟨l, m⟩ := p
        obtain ⟨hle, hlt⟩ := hre l m rfl
        exact ⟨l, ⟨rfl, by simp only; omega⟩, rfl, le_rfl, hle⟩
    | some q =>
      obtain ⟨l, m⟩ := q
      obtain ⟨hle, hlt⟩ := hrr l m rfl
      cases erange with
      | none => exact ⟨l, ⟨rfl, le_rfl, hle⟩, rfl, by simp only; omega⟩
      | some p =>
        obtain ⟨l', m'⟩ := p
        obtain ⟨hle', hlt'⟩ := hre l' m' rfl
        simp only [Bool.not_eq_true', Bool.or_eq_false_iff, decide_eq_false_iff_not] at hover
        exact ⟨max l l', ⟨rfl, by simp only; omega⟩, rfl, by simp only; omega⟩
  · rintro ⟨decl, bit, ⟨rfl, hb⟩, rfl, hb'⟩
    refine ⟨⟨⟨rfl, hreg rfl⟩, hz⟩, ?_⟩
    cases rrange with
    | none => rfl
    | some q =>
      cases erange with
      | none => rfl
      | some p =>
        simp only [Bool.not_eq_true', Bool.or_eq_false_iff, decide_eq_false_iff_not] at *
        omega

end

/-! ## Statements -/

section

variable (scope : FlowScope) (isSync : Bool) (value : BoundExpr → Option ℕ) (maxBranches : ℕ)

/-- The target is plain and its own parts do not overlap. -/
structure TargetOk (a : FlowTarget) : Prop where

  plain : a.Plain scope isSync value

  apart : (collectTargetsFromLhs scope isSync a).Pairwise fun t u =>
    rangesOverlap isSync t u = false

mutual

/-- Within the limits, no alias, no ELIF or ELSE outside the walk of a whole block and no statement
under a guard. -/
def StmtOk : FlowStmt → Bool → ℕ → Prop
  | .assign op lhs rhs, _, _ =>
    op ≠ .alias ∧ TargetOk scope isSync value (assignedTarget op lhs rhs)
  | .ifChain bodies _, inBlock, depth => bodies ≠ [] ∧ (inBlock = true ∨ bodies.length = 1) ∧
      0 < depth ∧ bodies.length ≤ maxBranches ∧ BranchesOk bodies (depth - 1)
  | .select cases hasDefault, _, depth => (hasDefault = true → cases ≠ []) ∧ 0 < depth ∧
      (cases.filter fun body => !body.isEmpty).length ≤ maxBranches ∧ CasesOk cases (depth - 1)
  | .block stmts, _, depth => StmtsOk stmts false depth
  | .featureGuard thenBlock elseBlock, _, _ => thenBlock = [] ∧ elseBlock = []
  | .other, _, _ => True

def StmtsOk : List FlowStmt → Bool → ℕ → Prop
  | [], _, _ => True
  | stmt :: rest, inBlock, depth => StmtOk stmt inBlock depth ∧ StmtsOk rest inBlock depth

def BranchesOk : List (List FlowStmt) → ℕ → Prop
  | [], _ => True
  | body :: rest, depth => (0 < depth ∧ StmtsOk body true (depth - 1)) ∧ BranchesOk rest depth

def CasesOk : List (List FlowStmt) → ℕ → Prop
  | [], _ => True
  | body :: rest, depth => StmtsOk body false depth ∧ CasesOk rest depth

end

/-- The paths with the records of every assignment. -/
def recordPaths (P : List (List FlowTarget)) : List (Path AssignTarget) :=
  P.map (List.map (collectTargetsFromLhs scope isSync))

end

section

variable {scope : FlowScope} {isSync : Bool} {value : BoundExpr → Option ℕ} {maxBranches : ℕ}

theorem recordPaths_seq (P Q : List (List FlowTarget)) :
    recordPaths scope isSync (P.flatMap fun p => Q.map fun q => p ++ q) =
      seqPaths (recordPaths scope isSync P) (recordPaths scope isSync Q) := by
  simp only [recordPaths, seqPaths, List.map_flatMap, List.flatMap_map, List.map_map,
    Function.comp_def, List.map_append]

theorem recordPaths_branching (bodies : List (List FlowStmt)) (complete : Bool) :
    recordPaths scope isSync (branchFlows bodies ++ if complete then [] else [[]]) =
      (bodies.map fun body => recordPaths scope isSync (blockFlows body)).flatten ++
        if complete then [] else [[]] := by
  have hbodies : recordPaths scope isSync (branchFlows bodies) =
      (bodies.map fun body => recordPaths scope isSync (blockFlows body)).flatten := by
    induction bodies with
    | nil => rfl
    | cons body rest ih =>
      rw [branchFlows, List.map_cons, List.flatten_cons, ← ih]
      exact List.map_append
  rw [← hbodies]
  cases complete
  · exact List.map_append
  · exact congrArg (recordPaths scope isSync) (List.append_nil _) |>.trans (List.append_nil _).symm

theorem length_analyzeBranches : ∀ (bodies : List (List FlowStmt)) (depth : ℕ),
    (analyzeBranches scope isSync maxBranches bodies depth).length = bodies.length
  | [], _ => rfl
  | _ :: rest, depth => congrArg (· + 1) (length_analyzeBranches rest depth)

mutual

theorem exact_stmt : ∀ (stmt : FlowStmt) (inBlock : Bool) (depth : ℕ),
    StmtOk scope isSync value maxBranches stmt inBlock depth →
    Exact (rangesOverlap isSync) (recordPaths scope isSync (stmtFlows stmt))
      (analyzeStmt scope isSync maxBranches stmt inBlock depth)
  | .assign op lhs rhs, inBlock, depth, h => by
      have hfun : analyzeStmt scope isSync maxBranches (.assign op lhs rhs) inBlock depth =
          record (rangesOverlap isSync)
            (collectTargetsFromLhs scope isSync (assignedTarget op lhs rhs)) :=
        funext fun st => by rw [analyzeStmt, if_neg h.1]
      rw [hfun]
      exact Exact.record h.2.apart
  | .ifChain bodies hasElse, inBlock, depth, ⟨hne, hall, hdepth, hcount, hbodies⟩ => by
      have hlen := @length_analyzeBranches scope isSync maxBranches bodies (depth - 1)
      have hfun : analyzeStmt scope isSync maxBranches (.ifChain bodies hasElse) inBlock depth =
          merge (analyzeBranches scope isSync maxBranches bodies (depth - 1)) := by
        funext st
        have hseen : (if inBlock then analyzeBranches scope isSync maxBranches bodies (depth - 1)
            else (analyzeBranches scope isSync maxBranches bodies (depth - 1)).take 1) =
            analyzeBranches scope isSync maxBranches bodies (depth - 1) := by
          rcases hall with rfl | hone
          · rfl
          · rw [List.take_of_length_le (by omega), ite_self]
        rw [analyzeStmt]
        simp only [hseen]
        rw [if_neg (by omega)]
      rw [hfun, stmtFlows, recordPaths_branching]
      exact Exact.merge (exact_branches bodies (depth - 1) hbodies) fun _ => by simpa using hne
  | .select cases hasDefault, inBlock, depth, ⟨hne, hdepth, hcount, hcases⟩ => by
      have hfun : analyzeStmt scope isSync maxBranches (.select cases hasDefault) inBlock depth =
          merge (analyzeCases scope isSync maxBranches cases (depth - 1)) :=
        funext fun st => by rw [analyzeStmt, if_neg (by omega)]
      rw [hfun, stmtFlows, recordPaths_branching]
      exact Exact.merge (exact_cases cases (depth - 1) hcases) fun hd => by simpa using hne hd
  | .block stmts, _, depth, h => exact_stmts stmts false depth h
  | .featureGuard thenBlock elseBlock, _, _, ⟨hthen, helse⟩ => by
      subst hthen helse
      have hid := @Exact.id _ (rangesOverlap isSync)
      exact
        { nonempty := by simp [recordPaths, stmtFlows, blockFlows]
          records := fun st => ⟨[], (List.append_nil _).symm, by
            simp [recordPaths, stmtFlows, blockFlows]⟩
          reported := fun st => by
            have hone := hid.reported st
            simp only [List.mem_singleton, exists_eq_left] at hone
            simpa [recordPaths, stmtFlows, blockFlows, analyzeStmt] using hone }
  | .other, _, _, _ => Exact.id

theorem exact_stmts : ∀ (stmts : List FlowStmt) (inBlock : Bool) (depth : ℕ),
    StmtsOk scope isSync value maxBranches stmts inBlock depth →
    Exact (rangesOverlap isSync) (recordPaths scope isSync (blockFlows stmts))
      (analyzeStmts scope isSync maxBranches stmts inBlock depth)
  | [], _, _, _ => Exact.id
  | stmt :: rest, inBlock, depth, h => by
      rw [blockFlows, recordPaths_seq]
      exact (exact_stmt stmt inBlock depth h.1).seq (exact_stmts rest inBlock depth h.2)

theorem exact_branches : ∀ (bodies : List (List FlowStmt)) (depth : ℕ),
    BranchesOk scope isSync value maxBranches bodies depth →
    List.Forall₂ (Exact (rangesOverlap isSync))
      (bodies.map fun body => recordPaths scope isSync (blockFlows body))
      (analyzeBranches scope isSync maxBranches bodies depth)
  | [], _, _ => .nil
  | body :: rest, depth, ⟨⟨hdepth, hbody⟩, hrest⟩ => by
      have hfun : (fun st => if depth = 0 then st
          else analyzeStmts scope isSync maxBranches body true (depth - 1) st) =
          analyzeStmts scope isSync maxBranches body true (depth - 1) :=
        funext fun st => if_neg (by omega)
      rw [List.map_cons, analyzeBranches, hfun]
      exact .cons (exact_stmts body true (depth - 1) hbody) (exact_branches rest depth hrest)

theorem exact_cases : ∀ (cases : List (List FlowStmt)) (depth : ℕ),
    CasesOk scope isSync value maxBranches cases depth →
    List.Forall₂ (Exact (rangesOverlap isSync))
      (cases.map fun body => recordPaths scope isSync (blockFlows body))
      (analyzeCases scope isSync maxBranches cases depth)
  | [], _, _ => .nil
  | body :: rest, depth, ⟨hbody, hrest⟩ =>
      .cons (exact_stmts body false depth hbody) (exact_cases rest depth hrest)

end

end

/-! ## Reports -/

section

variable {scope : FlowScope} {isSync : Bool} {value : BoundExpr → Option ℕ} {maxBranches : ℕ}

mutual

theorem plain_of_stmt : ∀ {stmt : FlowStmt} {inBlock : Bool} {depth : ℕ},
    StmtOk scope isSync value maxBranches stmt inBlock depth →
    ∀ p ∈ stmtFlows stmt, ∀ a ∈ p, a.Plain scope isSync value
  | .assign op lhs rhs, _, _, h, p, hp, a, ha => by
      obtain rfl := List.mem_singleton.mp hp
      obtain rfl := List.mem_singleton.mp ha
      exact h.2.plain
  | .ifChain bodies hasElse, _, depth, ⟨_, _, _, _, hbodies⟩, p, hp, a, ha => by
      rcases List.mem_append.mp hp with hp | hp
      · exact plain_of_branches hbodies p hp a ha
      · cases hasElse <;> simp_all
  | .select cases hasDefault, _, depth, ⟨_, _, _, hcases⟩, p, hp, a, ha => by
      rcases List.mem_append.mp hp with hp | hp
      · exact plain_of_cases hcases p hp a ha
      · cases hasDefault <;> simp_all
  | .block stmts, _, _, h, p, hp, a, ha => plain_of_stmts h p hp a ha
  | .featureGuard thenBlock elseBlock, _, _, ⟨hthen, helse⟩, p, hp, a, ha => by
      subst hthen helse
      simp only [stmtFlows, blockFlows, List.mem_append, List.mem_singleton, or_self] at hp
      rw [hp] at ha
      simp at ha
  | .other, _, _, _, p, hp, a, ha => by
      obtain rfl := List.mem_singleton.mp hp
      simp at ha

theorem plain_of_stmts : ∀ {stmts : List FlowStmt} {inBlock : Bool} {depth : ℕ},
    StmtsOk scope isSync value maxBranches stmts inBlock depth →
    ∀ p ∈ blockFlows stmts, ∀ a ∈ p, a.Plain scope isSync value
  | [], _, _, _, p, hp, a, ha => by
      obtain rfl := List.mem_singleton.mp hp
      simp at ha
  | stmt :: rest, _, _, h, p, hp, a, ha => by
      simp only [blockFlows, List.mem_flatMap, List.mem_map] at hp
      obtain ⟨q, hq, r, hr, rfl⟩ := hp
      exact (List.mem_append.mp ha).elim (plain_of_stmt h.1 q hq a) (plain_of_stmts h.2 r hr a)

theorem plain_of_branches : ∀ {bodies : List (List FlowStmt)} {depth : ℕ},
    BranchesOk scope isSync value maxBranches bodies depth →
    ∀ p ∈ branchFlows bodies, ∀ a ∈ p, a.Plain scope isSync value
  | [], _, _, _, hp, _, _ => by simp [branchFlows] at hp
  | body :: rest, _, ⟨⟨_, hbody⟩, hrest⟩, p, hp, a, ha =>
      (List.mem_append.mp hp).elim (fun hp => plain_of_stmts hbody p hp a ha)
        fun hp => plain_of_branches hrest p hp a ha

theorem plain_of_cases : ∀ {cases : List (List FlowStmt)} {depth : ℕ},
    CasesOk scope isSync value maxBranches cases depth →
    ∀ p ∈ branchFlows cases, ∀ a ∈ p, a.Plain scope isSync value
  | [], _, _, _, hp, _, _ => by simp [branchFlows] at hp
  | body :: rest, _, ⟨hbody, hrest⟩, p, hp, a, ha =>
      (List.mem_append.mp hp).elim (fun hp => plain_of_stmts hbody p hp a ha)
        fun hp => plain_of_cases hrest p hp a ha

end

/-- Two assignments write a common bit exactly when their records clash. -/
theorem flowConflict_iff {p : List FlowTarget} (hp : ∀ a ∈ p, a.Plain scope isSync value) :
    FlowConflict scope value p ↔
      SelfClash (rangesOverlap isSync) (p.map (collectTargetsFromLhs scope isSync)) := by
  constructor
  · rintro ⟨p₁, a, p₂, rfl, b, hb, decl, bit, hwa, hwb⟩
    have ha := hp a (List.mem_append_right _ (List.mem_cons_self ..))
    have hb' := hp b (List.mem_append_right _ (List.mem_cons_of_mem _ hb))
    obtain ⟨t, ht, htc⟩ := (collect_covers decl bit ha).mp hwa
    obtain ⟨u, hu, huc⟩ := (collect_covers decl bit hb').mp hwb
    refine ⟨_, _, _, by rw [List.map_append, List.map_cons], t, ht, _, List.mem_map_of_mem hb, u,
      hu, ?_⟩
    exact (rangesOverlap_iff (collect_valid ha t ht) (collect_valid hb' u hu)).mpr
      ⟨decl, bit, htc, huc⟩
  · rintro ⟨q₁, s, q₂, heq, t, ht, v, hv, u, hu, hover⟩
    obtain ⟨p₁, p', rfl, -, htail⟩ := List.map_eq_append_iff.mp heq
    obtain ⟨a, p₂, rfl, rfl, rfl⟩ := List.map_eq_cons_iff.mp htail
    obtain ⟨b, hb, rfl⟩ := List.mem_map.mp hv
    have ha := hp a (List.mem_append_right _ (List.mem_cons_self ..))
    have hb' := hp b (List.mem_append_right _ (List.mem_cons_of_mem _ hb))
    obtain ⟨decl, bit, htc, huc⟩ :=
      (rangesOverlap_iff (collect_valid ha t ht) (collect_valid hb' u hu)).mp hover
    exact ⟨p₁, a, p₂, rfl, b, hb, decl, bit, (collect_covers decl bit ha).mpr ⟨t, ht, htc⟩,
      (collect_covers decl bit hb').mpr ⟨u, hu, huc⟩⟩

/-- A multiple assignment is reported exactly when some path writes a bit twice. -/
theorem reportsMultiple_iff {stmts : List FlowStmt} {depth : ℕ} (hdepth : 0 < depth)
    (hok : StmtsOk scope isSync value maxBranches stmts true (depth - 1)) :
    reportsMultiple scope isSync maxBranches depth stmts = true ↔
      ∃ p ∈ blockFlows stmts, FlowConflict scope value p := by
  have hexact := (exact_stmts stmts true (depth - 1) hok).reported ⟨[], false⟩
  rw [reportsMultiple, analyzeBlock, if_neg (by omega), hexact]
  simp only [Bool.false_eq_true, false_or, recordPaths, List.mem_map, exists_exists_and_eq_and]
  refine exists_congr fun p => and_congr_right fun hp => ?_
  rw [flowConflict_iff (plain_of_stmts hok p hp), PathClash]
  refine or_iff_right ?_
  rintro ⟨r, hr, _⟩
  simp at hr

end

namespace ExclusiveExample

/-- One wire of one bit under every name. -/
def scope : FlowScope := ⟨fun _ => some 0, fun _ => .wire, fun _ => 1, fun _ => false⟩

def write : FlowStmt := .assign .receive (.ident "x") .other

def value : BoundExpr → Option ℕ := fun _ => none

theorem write_ok (inBlock : Bool) (depth : ℕ) :
    StmtOk scope false value 16 write inBlock depth := by
  refine ⟨nofun, ⟨0, rfl, ?_, Nat.one_pos⟩, ?_⟩
  · rw [FlowScope.Tracked, if_neg Bool.false_ne_true]
    exact ⟨nofun, rfl⟩
  · simp [assignedTarget, collectTargetsFromLhs, addTargetFromSymbol, scope]

/-- Both branches of an IF write the wire, and so does the statement behind it. -/
def rewritten : List FlowStmt := [.ifChain [[write], [write]] true, write]

/-- A SELECT whose only case holds an IF with an ELSE that writes the wire twice. -/
def elseInCase : List FlowStmt := [.select [[.ifChain [[], [write, write]] true]] false]

end ExclusiveExample

open ExclusiveExample in
theorem reportsMultiple_iff_rewritten :
    reportsMultiple scope false 16 8 rewritten = true ↔
      ∃ p ∈ blockFlows rewritten, FlowConflict scope value p :=
  reportsMultiple_iff (by decide)
    ⟨⟨List.cons_ne_nil _ _, .inl rfl, by decide, by decide,
      ⟨by decide, write_ok _ _, trivial⟩, ⟨by decide, write_ok _ _, trivial⟩, trivial⟩,
      write_ok _ _, trivial⟩

open ExclusiveExample in
/-- The ELSE inside the case is never walked. -/
theorem reportsMultiple_elseInCase :
    ¬ (reportsMultiple scope false 16 8 elseInCase = true ↔
      ∃ p ∈ blockFlows elseInCase, FlowConflict scope value p) := by
  have hquiet : reportsMultiple scope false 16 8 elseInCase = false := by
    simp [reportsMultiple, analyzeBlock, elseInCase, analyzeStmts, analyzeStmt, analyzeCases,
      analyzeBranches, merge, added]
  rw [hquiet]
  have hwrites : (FlowTarget.ident "x").Writes scope value 0 0 := ⟨rfl, Nat.one_pos⟩
  refine fun h => absurd (h.mpr ⟨[.ident "x", .ident "x"], by
    simp [elseInCase, blockFlows, stmtFlows, branchFlows, write, assignedTarget], ?_⟩)
    Bool.false_ne_true
  exact ⟨[], .ident "x", [.ident "x"], rfl, _, List.mem_singleton.mpr rfl, 0, 0, hwrites, hwrites⟩

end JzHdl

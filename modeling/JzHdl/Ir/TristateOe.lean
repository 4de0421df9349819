import JzHdl.Backend.InoutAssigns

/-! # Output enables

The tri-state transform takes the enable of a split port from one statement of the
asynchronous block: the first ternary with a `z` or a zero beside its data, or else the
first IF with a `z` on one of its sides.
-/

namespace JzHdl

open BitWords

/-! ## Extraction -/

/-- A literal `z`. -/
def isZLiteral : IRExpr → Bool
  | .literal lit _ => lit.isZ
  | _ => false

def literalIsZOrZero : IRExpr → Bool
  | .literal lit _ => lit.isZ || (List.range simValWords).all fun i => lit.words.get i == 0
  | _ => false

/-- `make_logical_not` of a copied condition, where the copy of a null condition is null. -/
def negated (condition : IRExpr) : IRExpr :=
  if condition.isNull then .null else .unary .logicalNot condition 1

section

variable (signalId : ℕ)

mutual

def stmtAssignsZTo : IRStmt → Bool
  | .assignment a => decide (a.lhsSignalId = signalId) && isZLiteral a.rhs
  | .block stmts => stmtsAssignZTo stmts
  | .ifStmt _ thenBlock elifChain elseBlock =>
    stmtAssignsZTo thenBlock || stmtAssignsZTo elifChain || stmtAssignsZTo elseBlock
  | .select _ cases => casesAssignZTo cases
  | .null | .memWrite .. => false

def stmtsAssignZTo : List IRStmt → Bool
  | [] => false
  | stmt :: rest => stmtAssignsZTo stmt || stmtsAssignZTo rest

def casesAssignZTo : List (IRExpr × IRStmt) → Bool
  | [] => false
  | (_, body) :: rest => stmtAssignsZTo body || casesAssignZTo rest

end

mutual

def hasAliasAssignment : IRStmt → Bool
  | .block stmts => hasAliasIn stmts
  | _ => false

def hasAliasIn : List IRStmt → Bool
  | [] => false
  | .assignment a :: rest =>
    decide (a.lhsSignalId = signalId) && assignmentKindIsAlias a.kind || hasAliasIn rest
  | stmt :: rest => hasAliasAssignment stmt || hasAliasIn rest

end

/-- The enable of an assignment, if it has one of the two ternary forms. -/
def ternaryEnable (a : IRAssignment) : Option IRExpr :=
  if a.lhsSignalId = signalId then
    match a.rhs with
    | .ternary condition trueVal falseVal =>
      if literalIsZOrZero falseVal then some condition
      else if literalIsZOrZero trueVal then some (negated condition)
      else none
    | _ => none
  else none

mutual

/-- The result is null when nothing is found. -/
def extractTernaryOe : IRStmt → IRExpr
  | .block stmts => ternaryOeIn stmts
  | _ => .null

def ternaryOeIn : List IRStmt → IRExpr
  | [] => .null
  | .assignment a :: rest =>
    match ternaryEnable signalId a with
    | some enable => enable
    | none => ternaryOeIn rest
  | stmt :: rest =>
    let result := extractTernaryOe stmt
    if result.isNull then ternaryOeIn rest else result

end

/-- The enable of an IF, if just one of its sides has a `z`. -/
def ifElseEnable (condition : IRExpr) (thenBlock elseBlock : IRStmt) : Option IRExpr :=
  let thenHasZ := stmtAssignsZTo signalId thenBlock
  let elseHasZ := !elseBlock.isNull && stmtAssignsZTo signalId elseBlock
  if elseHasZ && !thenHasZ then some condition
  else if thenHasZ && !elseHasZ && !elseBlock.isNull then some (negated condition)
  else none

mutual

def extractIfElseOe : IRStmt → IRExpr
  | .block stmts => ifElseOeIn stmts
  | _ => .null

def ifElseOeIn : List IRStmt → IRExpr
  | [] => .null
  | .ifStmt condition thenBlock _ elseBlock :: rest =>
    match ifElseEnable signalId condition thenBlock elseBlock with
    | some enable => enable
    | none => ifElseOeIn rest
  | stmt :: rest =>
    let result := extractIfElseOe stmt
    if result.isNull then ifElseOeIn rest else result

end

/-- A literal of one bit that is set. -/
def literalOne : IRExpr := .literal ⟨Words.set .zero 0 1, 1, false⟩ 1

/-- The enable of a port, which is null when none can be extracted. -/
def oeCondition (block : IRStmt) : IRExpr :=
  let oe := if hasAliasAssignment signalId block then literalOne else .null
  let oe := if oe.isNull then extractTernaryOe signalId block else oe
  if oe.isNull then extractIfElseOe signalId block else oe

/-- The emitted enable, and a flag for the report that none was extracted. -/
def emittedOe (block : IRStmt) : IRExpr × Bool :=
  let oe := oeCondition signalId block
  if oe.isNull then (literalOne, true) else (oe, false)

end

/-! ## Meaning -/

/-- A bit that is zero or one. -/
def IsBit (v : SimValue) : Prop := v.width = 1 ∧ simValHasXz v = false

/-- The conditions of the ternaries that choose the value of an expression. -/
def choiceConditions : IRExpr → List IRExpr
  | .ternary condition trueVal falseVal =>
    condition :: (choiceConditions trueVal ++ choiceConditions falseVal)
  | _ => []

mutual

/-- The conditions of a statement. -/
def stmtConditions : IRStmt → List IRExpr
  | .assignment a => choiceConditions a.rhs
  | .ifStmt condition thenBlock elifChain elseBlock =>
    condition :: (stmtConditions thenBlock ++ stmtConditions elifChain ++ stmtConditions elseBlock)
  | .select _ cases => casesConditions cases
  | .block stmts => stmtsConditions stmts
  | .null | .memWrite .. => []

def casesConditions : List (IRExpr × IRStmt) → List IRExpr
  | [] => []
  | (_, body) :: rest => stmtConditions body ++ casesConditions rest

def stmtsConditions : List IRStmt → List IRExpr
  | [] => []
  | stmt :: rest => stmtConditions stmt ++ stmtsConditions rest

end

mutual

def stmtSelectors : IRStmt → List IRExpr
  | .ifStmt _ thenBlock elifChain elseBlock =>
    stmtSelectors thenBlock ++ stmtSelectors elifChain ++ stmtSelectors elseBlock
  | .select selector cases => selector :: casesSelectors cases
  | .block stmts => stmtsSelectors stmts
  | .null | .assignment _ | .memWrite .. => []

def casesSelectors : List (IRExpr × IRStmt) → List IRExpr
  | [] => []
  | (_, body) :: rest => stmtSelectors body ++ casesSelectors rest

def stmtsSelectors : List IRStmt → List IRExpr
  | [] => []
  | stmt :: rest => stmtSelectors stmt ++ stmtsSelectors rest

end

section

variable (m : IRModule) (f : CtxState) (port : ℕ)

/-- A valuation that gives each condition a bit and each selector a known value. -/
structure Settles (block : IRStmt) : Prop where

  conditions : ∀ c ∈ stmtConditions block, IsBit (simEvalExpr m f c)

  selectors : ∀ e ∈ stmtSelectors block, simValHasXz (simEvalExpr m f e) = false

/-- On its path a statement assigns the port a value that is not all `z`. -/
def DrivesPort (stmt : IRStmt) : Prop :=
  ∃ a ∈ pathAssignments m f stmt,
    a.lhsSignalId = port ∧ simValIsAllZ (simEvalExpr m f a.rhs) = false

/-- The value of the enable's signal, which is one bit wide. -/
def oeValue (oe : IRExpr) : SimValue := extendRhs .receive (simEvalExpr m f oe) 1

end

/-! ## The statement of an enable -/

/-- The condition of a statement with the side that is taken to drive the port and the other one. -/
structure OeSite where

  condition : IRExpr

  inverted : Bool

  data : IRStmt

  idle : IRStmt

/-- What an IF does when its condition is false. -/
def elseSide : IRStmt → IRStmt → IRStmt
  | .ifStmt condition thenBlock elifChain _, elseBlock =>
    .ifStmt condition thenBlock elifChain elseBlock
  | _, elseBlock => elseBlock

namespace OeSite

def enable (site : OeSite) : IRExpr :=
  if site.inverted then negated site.condition else site.condition

/-- The condition chooses the driving side. -/
def selects (m : IRModule) (f : CtxState) (site : OeSite) : Prop :=
  simValIsTrue (simEvalExpr m f site.condition) = some (!site.inverted)

end OeSite

section

variable (port : ℕ)

def ternarySite : IRStmt → Option OeSite
  | .assignment a =>
    if a.lhsSignalId = port then
      match a.rhs with
      | .ternary condition trueVal falseVal =>
        if literalIsZOrZero falseVal then
          some ⟨condition, false, .assignment { a with rhs := trueVal },
            .assignment { a with rhs := falseVal }⟩
        else if literalIsZOrZero trueVal then
          some ⟨condition, true, .assignment { a with rhs := falseVal },
            .assignment { a with rhs := trueVal }⟩
        else none
      | _ => none
    else none
  | _ => none

def ifSite : IRStmt → Option OeSite
  | .ifStmt condition thenBlock elifChain elseBlock =>
    let thenHasZ := stmtAssignsZTo port thenBlock
    let elseHasZ := !elseBlock.isNull && stmtAssignsZTo port elseBlock
    if elseHasZ && !thenHasZ then
      some ⟨condition, false, thenBlock, elseSide elifChain elseBlock⟩
    else if thenHasZ && !elseHasZ && !elseBlock.isNull then
      some ⟨condition, true, elseSide elifChain elseBlock, thenBlock⟩
    else none
  | _ => none

end

mutual

/-- The statements of a block, with those of the blocks among them. -/
def topStmts : IRStmt → List IRStmt
  | .block stmts => topStmtsIn stmts
  | stmt => [stmt]

def topStmtsIn : List IRStmt → List IRStmt
  | [] => []
  | stmt :: rest => topStmts stmt ++ topStmtsIn rest

end

/-- The first hit of a search, with the elements that were not hit. -/
def takeFirst {α β : Type*} (pick : α → Option β) : List α → Option (β × List α)
  | [] => none
  | x :: xs =>
    match pick x with
    | some hit => some (hit, xs)
    | none => (takeFirst pick xs).map fun p => (p.1, x :: p.2)

/-- The statement that gives a port its enable, with the other statements of the block. -/
def oeSite (port : ℕ) (block : IRStmt) : Option (OeSite × List IRStmt) :=
  (takeFirst (ternarySite port) (topStmts block)).or (takeFirst (ifSite port) (topStmts block))

/-- A port is driven when its enable is one: if the site's condition chooses the driving side, this
side or another statement drives the port, and else neither the idle side nor another statement. -/
structure OeSite.Follows (m : IRModule) (f : CtxState) (port : ℕ) (site : OeSite)
    (others : List IRStmt) : Prop where

  data : site.selects m f →
    DrivesPort m f port site.data ∨ ∃ stmt ∈ others, DrivesPort m f port stmt

  idle : ¬ site.selects m f → ¬ DrivesPort m f port site.idle ∧
    ∀ stmt ∈ others, ¬ DrivesPort m f port stmt

/-! ## The search -/

theorem takeFirst_fst {α β : Type*} (pick : α → Option β) (xs : List α) :
    (takeFirst pick xs).map Prod.fst = xs.findSome? pick := by
  induction xs with
  | nil => rfl
  | cons x xs ih =>
    rw [takeFirst, List.findSome?_cons]
    cases pick x with
    | some hit => rfl
    | none => rw [← ih, Option.map_map]; rfl

theorem takeFirst_some {α β : Type*} {pick : α → Option β} {xs others : List α} {hit : β}
    (h : takeFirst pick xs = some (hit, others)) :
    ∃ x, pick x = some hit ∧ x ∈ xs ∧
      ∀ P : α → Prop, (∃ y ∈ xs, P y) ↔ P x ∨ ∃ y ∈ others, P y := by
  induction xs generalizing others with
  | nil => cases h
  | cons x xs ih =>
    rw [takeFirst] at h
    split at h
    · rename_i hit' hpick
      cases h
      exact ⟨x, hpick, List.mem_cons_self, fun P => List.exists_mem_cons_iff P x xs⟩
    · obtain ⟨⟨hit', rest⟩, hrest, heq⟩ := Option.map_eq_some_iff.mp h
      cases heq
      obtain ⟨y, hpick, hmem, hiff⟩ := ih hrest
      refine ⟨y, hpick, List.mem_cons_of_mem _ hmem, fun P => ?_⟩
      rw [List.exists_mem_cons_iff, List.exists_mem_cons_iff, hiff P]
      exact or_left_comm

/-- A search of the source, which goes into nested blocks and returns null if it finds nothing. -/
structure BlockSearch (pick : IRStmt → Option OeSite) (oe : IRStmt → IRExpr)
    (oeIn : List IRStmt → IRExpr) : Prop where

  block : ∀ stmts, oe (.block stmts) = oeIn stmts

  other : ∀ stmt, (∀ stmts, stmt ≠ .block stmts) → oe stmt = .null

  nil : oeIn [] = .null

  hit : ∀ stmt rest site, pick stmt = some site → oeIn (stmt :: rest) = site.enable

  skip : ∀ stmt rest, pick stmt = none →
    oeIn (stmt :: rest) = if (oe stmt).isNull then oeIn rest else oe stmt

  pick_block : ∀ stmts, pick (.block stmts) = none

section

variable {pick : IRStmt → Option OeSite} {oe : IRStmt → IRExpr} {oeIn : List IRStmt → IRExpr}

namespace BlockSearch

mutual

/-- The search finds the first hit of all statements of the nested blocks. -/
theorem cons_eq (h : BlockSearch pick oe oeIn) : ∀ (stmt : IRStmt) (rest : List IRStmt),
    (∀ x ∈ topStmts stmt, ∀ site ∈ pick x, site.enable.isNull = false) →
      oeIn (stmt :: rest) = ((topStmts stmt).findSome? pick).elim (oeIn rest) OeSite.enable
  | .block stmts, rest, hsites => by
      rw [topStmts] at hsites
      rw [h.skip _ _ (h.pick_block stmts), h.block, h.list_eq stmts hsites, topStmts]
      cases hfound : (topStmtsIn stmts).findSome? pick with
      | none => rfl
      | some site =>
        obtain ⟨x, hx, hsite⟩ := List.exists_of_findSome?_eq_some hfound
        rw [Option.elim_some, hsites x hx site hsite, if_neg Bool.false_ne_true, Option.elim_some]
  | .null, rest, _ | .assignment _, rest, _ | .ifStmt .., rest, _ | .select .., rest, _
  | .memWrite .., rest, _ => by
      rw [topStmts, List.findSome?_cons, List.findSome?_nil]
      · cases hsite : pick _ with
        | none =>
          rw [h.skip _ _ hsite, h.other _ (by nofun)]
          rfl
        | some site => exact h.hit _ _ _ hsite
      · nofun

theorem list_eq (h : BlockSearch pick oe oeIn) : ∀ stmts : List IRStmt,
    (∀ x ∈ topStmtsIn stmts, ∀ site ∈ pick x, site.enable.isNull = false) →
      oeIn stmts = ((topStmtsIn stmts).findSome? pick).elim .null OeSite.enable
  | [], _ => h.nil
  | stmt :: rest, hsites => by
      rw [topStmtsIn] at hsites ⊢
      rw [h.cons_eq stmt rest fun x hx => hsites x (List.mem_append_left _ hx),
        h.list_eq rest fun x hx => hsites x (List.mem_append_right _ hx), List.findSome?_append]
      cases (topStmts stmt).findSome? pick <;> rfl

end

end BlockSearch

end

theorem isNull_enable (site : OeSite) : site.enable.isNull = site.condition.isNull := by
  rw [OeSite.enable]
  split
  · rw [negated]
    split
    · rename_i hnull
      exact hnull.symm
    · rename_i hnull
      exact (Bool.eq_false_of_not_eq_true hnull).symm
  · rfl

section

variable (port : ℕ)

theorem ternaryEnable_eq (a : IRAssignment) :
    ternaryEnable port a = (ternarySite port (.assignment a)).map OeSite.enable := by
  rw [ternaryEnable, ternarySite]
  split
  · split
    · split
      · rfl
      · split <;> rfl
    · rfl
  · rfl

theorem ifElseEnable_eq (condition : IRExpr) (thenBlock elifChain elseBlock : IRStmt) :
    ifElseEnable port condition thenBlock elseBlock =
      (ifSite port (.ifStmt condition thenBlock elifChain elseBlock)).map OeSite.enable := by
  rw [ifElseEnable, ifSite]
  split
  · rfl
  · split <;> rfl

theorem ternarySearch :
    BlockSearch (ternarySite port) (extractTernaryOe port) (ternaryOeIn port) where
  block stmts := by rw [extractTernaryOe]
  other stmt h := by rw [extractTernaryOe]; exact h
  nil := by rw [ternaryOeIn]
  hit stmt rest site hsite := by
    cases stmt with
    | assignment a => rw [ternaryOeIn, ternaryEnable_eq, hsite]; rfl
    | null | ifStmt | select | block | memWrite => cases hsite
  skip stmt rest hsite := by
    cases stmt with
    | assignment a =>
      rw [ternaryOeIn, ternaryEnable_eq, hsite, extractTernaryOe]
      · rfl
      · nofun
    | null | ifStmt | select | block | memWrite => rw [ternaryOeIn]; nofun
  pick_block stmts := rfl

theorem ifElseSearch :
    BlockSearch (ifSite port) (extractIfElseOe port) (ifElseOeIn port) where
  block stmts := by rw [extractIfElseOe]
  other stmt h := by rw [extractIfElseOe]; exact h
  nil := by rw [ifElseOeIn]
  hit stmt rest site hsite := by
    cases stmt with
    | ifStmt c t elif e => rw [ifElseOeIn, ifElseEnable_eq _ _ _ elif, hsite]; rfl
    | null | assignment | select | block | memWrite => cases hsite
  skip stmt rest hsite := by
    cases stmt with
    | ifStmt c t elif e =>
      rw [ifElseOeIn, ifElseEnable_eq _ _ _ elif, hsite, extractIfElseOe]
      · rfl
      · intros
        contradiction
    | null | assignment | select | block | memWrite => rw [ifElseOeIn]; intros; contradiction
  pick_block stmts := rfl

/-- Without aliases the enable of a port is that of its site, if no site has a null condition. -/
theorem oeCondition_site {block : IRStmt} (hplain : hasAliasAssignment port block = false)
    (hoe : (oeCondition port block).isNull = false)
    (hsites : ∀ x ∈ topStmts block, ∀ site,
      ternarySite port x = some site ∨ ifSite port x = some site → site.condition.isNull = false) :
    ∃ site others, oeSite port block = some (site, others) ∧
      oeCondition port block = site.enable := by
  have hblock : ∃ stmts, block = .block stmts := by
    cases block with
    | block stmts => exact ⟨stmts, rfl⟩
    | null | assignment | ifStmt | select | memWrite =>
      simp [oeCondition, hplain, extractTernaryOe, extractIfElseOe, IRExpr.isNull] at hoe
  obtain ⟨stmts, rfl⟩ := hblock
  rw [topStmts] at hsites
  have htern := (ternarySearch port).list_eq stmts fun x hx site hsite => by
    rw [isNull_enable]
    exact hsites x hx site (.inl hsite)
  have hif := (ifElseSearch port).list_eq stmts fun x hx site hsite => by
    rw [isNull_enable]
    exact hsites x hx site (.inr hsite)
  rw [oeCondition, hplain, if_neg Bool.false_ne_true] at hoe ⊢
  rw [if_pos (show IRExpr.null.isNull = true from rfl), extractTernaryOe, extractIfElseOe, htern,
    hif] at hoe ⊢
  rw [← takeFirst_fst, ← takeFirst_fst] at hoe ⊢
  rw [oeSite, topStmts]
  cases htake : takeFirst (ternarySite port) (topStmtsIn stmts) with
  | some p =>
    obtain ⟨site, others⟩ := p
    refine ⟨site, others, rfl, ?_⟩
    obtain ⟨x, hsite, hx, -⟩ := takeFirst_some htake
    have hnull := hsites x hx site (.inl hsite)
    rw [Option.map_some, Option.elim_some, isNull_enable, hnull, if_neg Bool.false_ne_true]
  | none =>
    rw [htake] at hoe
    rw [Option.map_none, Option.elim_none, if_pos (by rfl)] at hoe ⊢
    cases htake' : takeFirst (ifSite port) (topStmtsIn stmts) with
    | some p => exact ⟨p.1, p.2, rfl, rfl⟩
    | none =>
      rw [htake'] at hoe
      cases hoe

end

/-! ## Driving -/

section

variable {m : IRModule} {f : CtxState} {port : ℕ}

mutual

theorem pathAssignments_top : ∀ (stmt : IRStmt) (a : IRAssignment),
    a ∈ pathAssignments m f stmt ↔ ∃ x ∈ topStmts stmt, a ∈ pathAssignments m f x
  | .block stmts, a => by
      rw [pathAssignments, topStmts]
      exact pathStmtsAssignments_top stmts a
  | .null, _ | .assignment _, _ | .ifStmt .., _ | .select .., _ | .memWrite .., _ => by
      rw [topStmts]
      · simp only [List.mem_singleton, exists_eq_left]
      · nofun

theorem pathStmtsAssignments_top : ∀ (stmts : List IRStmt) (a : IRAssignment),
    a ∈ pathStmtsAssignments m f stmts ↔ ∃ x ∈ topStmtsIn stmts, a ∈ pathAssignments m f x
  | [], a => by simp [pathStmtsAssignments, topStmtsIn]
  | stmt :: rest, a => by
      rw [pathStmtsAssignments, topStmtsIn, List.mem_append, pathAssignments_top stmt a,
        pathStmtsAssignments_top rest a]
      simp only [List.mem_append, or_and_right, exists_or]

end

theorem drivesPort_top {block : IRStmt} :
    DrivesPort m f port block ↔ ∃ x ∈ topStmts block, DrivesPort m f port x := by
  constructor
  · rintro ⟨a, ha, hdrives⟩
    obtain ⟨x, hx, hax⟩ := (pathAssignments_top block a).mp ha
    exact ⟨x, hx, a, hax, hdrives⟩
  · rintro ⟨x, hx, a, ha, hdrives⟩
    exact ⟨a, (pathAssignments_top block a).mpr ⟨x, hx, ha⟩, hdrives⟩

theorem drivesPort_assignment {a : IRAssignment} : DrivesPort m f port (.assignment a) ↔
    a.lhsSignalId = port ∧ simValIsAllZ (simEvalExpr m f a.rhs) = false := by
  rw [DrivesPort, pathAssignments]
  simp only [List.mem_singleton, exists_eq_left]

theorem pathAssignments_elseSide (elifChain elseBlock : IRStmt) :
    pathAssignments m f (elseSide elifChain elseBlock) = pathElifAssignments m f elifChain ++
      if elifDone m f elifChain then [] else pathAssignments m f elseBlock := by
  cases elifChain with
  | ifStmt c t elif e =>
    rw [elseSide, pathAssignments, pathElifAssignments, elifDone]
    cases simValIsTrue (simEvalExpr m f c) with
    | none => rfl
    | some b =>
      cases b with
      | true => exact (List.append_nil _).symm
      | false => rfl
  | null | assignment | select | block | memWrite =>
    rw [elseSide, pathElifAssignments, elifDone]
    · rfl
    all_goals
      intros
      contradiction

theorem IsBit.truth {v : SimValue} (h : IsBit v) : ∃ b, simValIsTrue v = some b := by
  rw [simValIsTrue, h.2, if_neg Bool.false_ne_true]
  exact ⟨_, rfl⟩

theorem IsBit.notNull {e : IRExpr} (h : IsBit (simEvalExpr m f e)) : e.isNull = false := by
  cases e with
  | null => exact absurd h.2 (by rw [simEvalExpr]; decide +kernel)
  | literal | signalRef | unary | binary | ternary | concat | slice | sliceExpr | intrinsic
  | memRead => rfl

theorem drivesPort_ternary {a : IRAssignment} {c t e : IRExpr} (hrhs : a.rhs = .ternary c t e)
    {b : Bool} (hb : simValIsTrue (simEvalExpr m f c) = some b) :
    DrivesPort m f port (.assignment a) ↔
      DrivesPort m f port (.assignment { a with rhs := if b then t else e }) := by
  rw [drivesPort_assignment, drivesPort_assignment, hrhs, simEvalExpr, simValTernary, hb]
  cases b with
  | true => rfl
  | false => rfl

theorem drivesPort_ifStmt {c : IRExpr} {t elif e : IRStmt} {b : Bool}
    (hb : simValIsTrue (simEvalExpr m f c) = some b) :
    DrivesPort m f port (.ifStmt c t elif e) ↔
      DrivesPort m f port (if b then t else elseSide elif e) := by
  rw [DrivesPort, DrivesPort, pathAssignments, hb]
  cases b with
  | true => rfl
  | false => rw [if_neg Bool.false_ne_true, pathAssignments_elseSide]

/-- The site's statement does what its chosen side does. -/
theorem drivesPort_site {stmt : IRStmt} {site : OeSite}
    (hsite : ternarySite port stmt = some site ∨ ifSite port stmt = some site)
    (hbit : IsBit (simEvalExpr m f site.condition)) :
    (site.selects m f → (DrivesPort m f port stmt ↔ DrivesPort m f port site.data)) ∧
      (¬ site.selects m f → (DrivesPort m f port stmt ↔ DrivesPort m f port site.idle)) := by
  obtain ⟨b, hb⟩ := hbit.truth
  rcases hsite with hsite | hsite
  · cases stmt with
    | assignment a =>
      rw [ternarySite] at hsite
      split at hsite
      · split at hsite
        · rename_i c t e hrhs
          have hside := fun hb => @drivesPort_ternary m f port a c t e hrhs b hb
          split at hsite
          · obtain rfl := Option.some.inj hsite
            rw [OeSite.selects, hb, hside hb]
            cases b <;> simp
          · split at hsite
            · obtain rfl := Option.some.inj hsite
              rw [OeSite.selects, hb, hside hb]
              cases b <;> simp
            · cases hsite
        · cases hsite
      · cases hsite
    | null | ifStmt | select | block | memWrite => cases hsite
  · cases stmt with
    | ifStmt c t elif e =>
      have hside := fun hb => @drivesPort_ifStmt m f port c t elif e b hb
      rw [ifSite] at hsite
      split at hsite
      · obtain rfl := Option.some.inj hsite
        rw [OeSite.selects, hb, hside hb]
        cases b <;> simp
      · split at hsite
        · obtain rfl := Option.some.inj hsite
          rw [OeSite.selects, hb, hside hb]
          cases b <;> simp
        · cases hsite
    | null | assignment | select | block | memWrite => cases hsite

/-- The enable is one if the condition chooses the driving side. -/
theorem oeValue_enable {site : OeSite} (hbit : IsBit (simEvalExpr m f site.condition)) :
    simValIsTrue (oeValue m f site.enable) = some true ↔ site.selects m f := by
  obtain ⟨b, hb⟩ := hbit.truth
  rw [OeSite.selects, hb]
  have hkeep : ∀ {v : SimValue}, v.width = 1 → extendRhs .receive v 1 = v := by
    intro v hv
    rw [extendRhs, if_neg (by decide), if_neg (by decide), if_pos hv]
  rw [oeValue, OeSite.enable]
  split
  · rename_i hinv
    rw [negated]
    split
    · rename_i hnull
      rw [hbit.notNull] at hnull
      cases hnull
    · rw [simEvalExpr, evalUnary, simValLogicalNot, hb]
      dsimp only
      rw [hkeep (by rfl), simValIsTrue_cmpResult, hinv]
      cases b <;> simp
  · rename_i hinv
    rw [hkeep hbit.1, hb, Bool.eq_false_of_not_eq_true hinv]
    rfl

/-! ## Exact enables -/

mutual

theorem stmtConditions_top : ∀ stmt : IRStmt,
    ∀ x ∈ topStmts stmt, stmtConditions x ⊆ stmtConditions stmt
  | .block stmts, x, hx => by
      rw [topStmts] at hx
      rw [stmtConditions.eq_def (.block stmts)]
      exact stmtsConditions_top stmts x hx
  | .null, x, hx | .assignment _, x, hx | .ifStmt .., x, hx | .select .., x, hx
  | .memWrite .., x, hx => by
      rw [topStmts] at hx
      · rw [List.mem_singleton.mp hx]
        exact List.Subset.refl _
      · nofun

theorem stmtsConditions_top : ∀ stmts : List IRStmt,
    ∀ x ∈ topStmtsIn stmts, stmtConditions x ⊆ stmtsConditions stmts
  | [], x, hx => by
      rw [topStmtsIn] at hx
      cases hx
  | stmt :: rest, x, hx => by
      rw [topStmtsIn] at hx
      rw [stmtsConditions]
      rcases List.mem_append.mp hx with hx | hx
      · exact fun c hc => List.mem_append_left _ (stmtConditions_top stmt x hx hc)
      · exact fun c hc => List.mem_append_right _ (stmtsConditions_top rest x hx hc)

end

theorem site_condition {stmt : IRStmt} {site : OeSite}
    (hsite : ternarySite port stmt = some site ∨ ifSite port stmt = some site) :
    site.condition ∈ stmtConditions stmt := by
  rcases hsite with hsite | hsite
  · cases stmt with
    | assignment a =>
      rw [ternarySite] at hsite
      rw [stmtConditions]
      split at hsite
      · split at hsite
        · rename_i c t e hrhs
          rw [hrhs, choiceConditions]
          split at hsite
          · obtain rfl := Option.some.inj hsite
            exact List.mem_cons_self
          · split at hsite
            · obtain rfl := Option.some.inj hsite
              exact List.mem_cons_self
            · cases hsite
        · cases hsite
      · cases hsite
    | null | ifStmt | select | block | memWrite => cases hsite
  · cases stmt with
    | ifStmt c t elif e =>
      rw [ifSite] at hsite
      rw [stmtConditions]
      split at hsite
      · obtain rfl := Option.some.inj hsite
        exact List.mem_cons_self
      · split at hsite
        · obtain rfl := Option.some.inj hsite
          exact List.mem_cons_self
        · cases hsite
    | null | assignment | select | block | memWrite => cases hsite

theorem Settles.site {block x : IRStmt} {site : OeSite} (hf : Settles m f block)
    (hx : x ∈ topStmts block)
    (hsite : ternarySite port x = some site ∨ ifSite port x = some site) :
    IsBit (simEvalExpr m f site.condition) :=
  hf.conditions _ (stmtConditions_top block x hx (site_condition hsite))

mutual

theorem hasAliasAssignment_mem : ∀ stmt : IRStmt, hasAliasAssignment port stmt = true →
    ∃ a ∈ assignments stmt, a.lhsSignalId = port ∧ assignmentKindIsAlias a.kind = true
  | .block stmts, h => by
      rw [hasAliasAssignment] at h
      rw [assignments]
      exact hasAliasIn_mem stmts h
  | .null, h | .assignment _, h | .ifStmt .., h | .select .., h | .memWrite .., h => by
      rw [hasAliasAssignment] at h
      · cases h
      · nofun

theorem hasAliasIn_mem : ∀ stmts : List IRStmt, hasAliasIn port stmts = true →
    ∃ a ∈ stmtsAssignments stmts, a.lhsSignalId = port ∧ assignmentKindIsAlias a.kind = true
  | [], h => by cases h
  | .assignment a :: rest, h => by
      rw [hasAliasIn, Bool.or_eq_true, Bool.and_eq_true, decide_eq_true_iff] at h
      rw [stmtsAssignments, assignments]
      rcases h with h | h
      · exact ⟨a, List.mem_cons_self, h⟩
      · obtain ⟨b, hb, halias⟩ := hasAliasIn_mem rest h
        exact ⟨b, List.mem_cons_of_mem _ hb, halias⟩
  | .block stmts :: rest, h => by
      rw [hasAliasIn, Bool.or_eq_true] at h
      · rw [stmtsAssignments]
        rcases h with h | h
        · obtain ⟨a, ha, halias⟩ := hasAliasAssignment_mem (.block stmts) h
          exact ⟨a, List.mem_append_left _ ha, halias⟩
        · obtain ⟨a, ha, halias⟩ := hasAliasIn_mem rest h
          exact ⟨a, List.mem_append_right _ ha, halias⟩
      · nofun
  | .null :: rest, h | .ifStmt .. :: rest, h | .select .. :: rest, h | .memWrite .. :: rest, h => by
      rw [hasAliasIn, Bool.or_eq_true] at h
      · rw [stmtsAssignments]
        rcases h with h | h
        · rw [hasAliasAssignment] at h
          · cases h
          · nofun
        · obtain ⟨a, ha, halias⟩ := hasAliasIn_mem rest h
          exact ⟨a, List.mem_append_right _ ha, halias⟩
      · nofun

end

/-- The site is one of the statements, and the port is driven by it or by one of the others. -/
theorem oeSite_mem {block : IRStmt} {site : OeSite} {others : List IRStmt}
    (h : oeSite port block = some (site, others)) :
    ∃ x ∈ topStmts block, (ternarySite port x = some site ∨ ifSite port x = some site) ∧
      (DrivesPort m f port block ↔
        DrivesPort m f port x ∨ ∃ y ∈ others, DrivesPort m f port y) := by
  rw [oeSite, Option.or_eq_some_iff] at h
  rcases h with h | ⟨-, h⟩
  · obtain ⟨x, hsite, hx, hiff⟩ := takeFirst_some h
    exact ⟨x, hx, .inl hsite, drivesPort_top.trans (hiff _)⟩
  · obtain ⟨x, hsite, hx, hiff⟩ := takeFirst_some h
    exact ⟨x, hx, .inr hsite, drivesPort_top.trans (hiff _)⟩

end

/-! ## Exact enables -/

/-- The enable of a port is one under every valuation that drives the port, and under no other. -/
def OeExact (m : IRModule) (port : ℕ) : Prop :=
  ∀ f, Settles m f m.asyncBlock →
    (simValIsTrue (oeValue m f (emittedOe port m.asyncBlock).1) = some true ↔
      DrivesPort m f port m.asyncBlock)

/-- Under every valuation the site of the port decides whether it is driven. -/
def OeFollows (m : IRModule) (port : ℕ) : Prop :=
  ∀ f, Settles m f m.asyncBlock → ∀ site others, oeSite port m.asyncBlock = some (site, others) →
    site.Follows m f port others

/-- The enable of a port without aliases is exact if and only if the statement that it is taken from
decides, with the given sides, whether the port is driven. -/
theorem tristateOe_exact {m : IRModule} {port : ℕ}
    (hplain : ∀ a ∈ assignments m.asyncBlock,
      a.lhsSignalId = port → assignmentKindIsAlias a.kind = false)
    (haccepted : (emittedOe port m.asyncBlock).2 = false) :
    OeExact m port ↔ OeFollows m port := by
  have halias : hasAliasAssignment port m.asyncBlock = false := by
    by_contra h
    obtain ⟨a, ha, hport, halias⟩ := hasAliasAssignment_mem m.asyncBlock (by simpa using h)
    rw [hplain a ha hport] at halias
    cases halias
  have hoe : (oeCondition port m.asyncBlock).isNull = false ∧
      (emittedOe port m.asyncBlock).1 = oeCondition port m.asyncBlock := by
    rw [emittedOe] at haccepted ⊢
    split at haccepted
    · cases haccepted
    · rename_i hnull
      exact ⟨Bool.eq_false_of_not_eq_true hnull, by rw [if_neg hnull]⟩
  refine forall₂_congr fun f hf => ?_
  obtain ⟨site, others, hsite, henable⟩ := oeCondition_site port halias hoe.1
    fun x hx site hsite => (hf.site hx hsite).notNull
  obtain ⟨x, hx, hpick, hdrives⟩ := @oeSite_mem m f port m.asyncBlock site others hsite
  have hbit := hf.site hx hpick
  obtain ⟨hdata, hidle⟩ := drivesPort_site hpick hbit
  rw [hoe.2, henable, oeValue_enable hbit, hdrives]
  constructor
  · intro h site' others' hsite'
    rw [hsite] at hsite'
    cases hsite'
    refine ⟨fun hsel => (h.mp hsel).imp_left (hdata hsel).mp, fun hsel => ⟨fun hd => ?_, ?_⟩⟩
    · exact hsel (h.mpr (.inl ((hidle hsel).mpr hd)))
    · exact fun y hy hd => hsel (h.mpr (.inr ⟨y, hy, hd⟩))
  · intro h
    have hfollows := h site others hsite
    constructor
    · intro hsel
      rw [hdata hsel]
      exact hfollows.data hsel
    · intro hd
      by_contra hsel
      rw [hidle hsel] at hd
      obtain ⟨hnone, hothers⟩ := hfollows.idle hsel
      rcases hd with hd | ⟨y, hy, hd⟩
      · exact hnone hd
      · exact hothers y hy hd

/-- A port that is driven under one condition, and in an ELIF branch under another one. -/
def elifDriver : IRModule where
  signals := [⟨0, .port .portIn, 1⟩, ⟨1, .port .portIn, 1⟩, ⟨2, .port .portIn, 8⟩,
    ⟨3, .port .portInout, 8⟩]
  memories := []
  clockDomains := []
  asyncBlock :=
    let assign (rhs : IRExpr) : IRStmt := .block [.assignment ⟨3, rhs, .receive, false, 0, 0⟩]
    .block [.ifStmt (.signalRef 0 1) (assign (.signalRef 2 8))
      (.ifStmt (.signalRef 1 1) (assign (.signalRef 2 8)) .null .null)
      (assign (.literal ⟨.zero, 8, true⟩ 8))]

theorem tristateOe_exact_elif : OeExact elifDriver 3 ↔ OeFollows elifDriver 3 :=
  tristateOe_exact (by decide) (by decide)

/-- The enable of an IF leaves its ELIF branch out. -/
theorem tristateOe_misses : (emittedOe 3 elifDriver.asyncBlock).2 = false ∧
    ¬ OeExact elifDriver 3 := by
  refine ⟨by decide, fun h => ?_⟩
  -- The second condition holds, and the first one does not.
  let f : CtxState :=
    { signals := fun i => ⟨if i = 0 then simValFromUint 0 1 else if i = 1 then simValFromUint 1 1
        else simValFromUint 165 8, simValZero 1, false⟩
      cells := fun _ _ => simValZero 1
      runtimeError := false
      settleDirty := false
      sigDirty := fun _ => false }
  have hf : Settles elifDriver f elifDriver.asyncBlock := by
    refine ⟨?_, by simp [elifDriver, stmtSelectors, stmtsSelectors]⟩
    have hconditions : stmtConditions elifDriver.asyncBlock =
        [.signalRef 0 1, .signalRef 1 1] := rfl
    rw [hconditions]
    simp only [List.forall_mem_cons]
    exact ⟨⟨by decide +kernel, by decide +kernel⟩, ⟨by decide +kernel, by decide +kernel⟩, by simp⟩
  have hpath : pathAssignments elifDriver f elifDriver.asyncBlock =
      [⟨3, .signalRef 2 8, .receive, false, 0, 0⟩] := by
    have hfirst : simValIsTrue (simEvalExpr elifDriver f (.signalRef 0 1)) = some false := by
      decide +kernel
    have hsecond : simValIsTrue (simEvalExpr elifDriver f (.signalRef 1 1)) = some true := by
      decide +kernel
    rw [show elifDriver.asyncBlock = .block [.ifStmt (.signalRef 0 1) _ _ _] from rfl,
      pathAssignments, pathStmtsAssignments, pathAssignments, hfirst]
    dsimp only
    rw [pathElifAssignments, hsecond, elifDone, hsecond]
    rfl
  have hdrives : DrivesPort elifDriver f 3 elifDriver.asyncBlock := by
    refine ⟨⟨3, .signalRef 2 8, .receive, false, 0, 0⟩, ?_, rfl, by decide +kernel⟩
    rw [hpath]
    exact List.mem_singleton_self _
  have hoe := (h f hf).mpr hdrives
  have hzero : simValIsTrue (oeValue elifDriver f (emittedOe 3 elifDriver.asyncBlock).1) =
      some false := by
    decide +kernel
  rw [hzero] at hoe
  cases hoe

end JzHdl

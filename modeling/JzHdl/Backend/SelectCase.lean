import JzHdl.Backend.Alias
import JzHdl.Sim.Bits
import JzHdl.Sim.Eval

/-! # Verilog case statements

A SELECT is printed as a Verilog case. A naked label looks ahead for the body
of a later label and joins its group; the search stops at a DEFAULT, and it is
left out when the selector is a signal called `state`.
-/

namespace JzHdl

/-- One item of a printed case statement with the statements between `begin` and `end`. -/
inductive VerilogCaseItem where

  | labels (values : List IRExpr) (body : List IRStmt)

  | default (body : List IRStmt)

/-- The statements that are printed for a body; a missing body prints `begin end`. -/
def caseStatements : IRStmt → List IRStmt
  | .null => []
  | .block stmts => stmts
  | stmt => [stmt]

/-! ## Printing -/

/-- The first body from a case on and its position. The search stops at a DEFAULT. -/
def bodyAhead : ℕ → List (IRExpr × IRStmt) → Option (ℕ × IRStmt)
  | _, [] => none
  | i, (value, body) :: rest =>
    if value.isNull then none
    else if body.isNull then bodyAhead (i + 1) rest
    else some (i, body)

/-- The number of cases that join a group. The source compares body pointers, here positions. -/
def groupLength (owner : ℕ) : ℕ → List (IRExpr × IRStmt) → ℕ
  | _, [] => 0
  | i, (value, body) :: rest =>
    if value.isNull then 0
    else if (bodyAhead i ((value, body) :: rest)).map Prod.fst = some owner then
      groupLength owner (i + 1) rest + 1
    else 0

/-- The body printed under a label. A naked label searches the cases after it. -/
def bodyToEmit (allowFallthrough : Bool) (i : ℕ) (body : IRStmt) (rest : List (IRExpr × IRStmt)) :
    Option (ℕ × IRStmt) :=
  if body.isNull then if allowFallthrough then bodyAhead (i + 1) rest else none
  else some (i, body)

def groupSize (allowFallthrough : Bool) (i : ℕ) (body : IRStmt) (rest : List (IRExpr × IRStmt)) :
    ℕ :=
  match bodyToEmit allowFallthrough i body rest with
  | some (owner, _) => if allowFallthrough then groupLength owner (i + 1) rest else 0
  | none => 0

/-- The main loop; the first argument counts the cases that the last group took. -/
def emitCases (allowFallthrough : Bool) : ℕ → ℕ → List (IRExpr × IRStmt) → List VerilogCaseItem
  | _, _, [] => []
  | skip + 1, i, _ :: rest => emitCases allowFallthrough skip (i + 1) rest
  | 0, i, (value, body) :: rest =>
    if value.isNull then
      .default (caseStatements body) :: emitCases allowFallthrough 0 (i + 1) rest
    else
      let group := groupSize allowFallthrough i body rest
      .labels (value :: (rest.take group).map Prod.fst)
          (caseStatements (((bodyToEmit allowFallthrough i body rest).map Prod.snd).getD .null)) ::
        emitCases allowFallthrough group (i + 1) rest

section

variable (m : IRModule) (names : m.SignalIndex → String) (selector : IRExpr)

/-- The signal that the selector refers to. -/
def selectorSignal : Option m.SignalIndex :=
  match selector with
  | .signalRef id _ => m.findSignalById id
  | _ => none

def allowFallthrough : Bool :=
  match selectorSignal m selector with
  | some i => names i != "state"
  | none => true

/-- The selector and the items of the printed case; without a selector nothing is printed. -/
def emitSelectStmt (cases : List (IRExpr × IRStmt)) : Option (IRExpr × List VerilogCaseItem) :=
  if selector.isNull then none
  else some (selector, emitCases (allowFallthrough m names selector) 0 0 cases)

end

/-! ## Meaning -/

/-- A bit of a value that is extended with zeros. -/
def SimValue.extended4 (v : SimValue) (k : ℕ) : Bit4 := if k < v.width then v.bit4 k else .zero

/-- The comparison of a Verilog case: every bit agrees on the wider width, `x` and `z` included. -/
def caseEquals (a b : SimValue) : Bool :=
  (List.range (max a.width b.width)).all fun k => decide (a.extended4 k = b.extended4 k)

namespace VerilogCaseItem

def body : VerilogCaseItem → List IRStmt
  | .labels _ body => body
  | .default body => body

def isDefault : VerilogCaseItem → Bool
  | .labels .. => false
  | .default _ => true

def hits (eq : IRExpr → Bool) : VerilogCaseItem → Bool
  | .labels values _ => values.any eq
  | .default _ => false

end VerilogCaseItem

/-- The statements a case executes: those of the first item with a matching label, else the
default's. -/
def verilogCase (eq : IRExpr → Bool) (items : List VerilogCaseItem) : List IRStmt :=
  (((items.find? (VerilogCaseItem.hits eq)).or (items.find? VerilogCaseItem.isDefault)).map
    VerilogCaseItem.body).getD []

/-- A naked label runs the body of the next arm that has one; a DEFAULT always has one. -/
def fallThrough : List (IRExpr × IRStmt) → List IRStmt
  | [] => []
  | (value, body) :: rest =>
    if !value.isNull && body.isNull then fallThrough rest else caseStatements body

/-- The cases from the first one whose label matches. -/
def fromMatch (eq : IRExpr → Bool) (cases : List (IRExpr × IRStmt)) : List (IRExpr × IRStmt) :=
  cases.dropWhile fun c => c.1.isNull || !eq c.1

def defaultStatements (cases : List (IRExpr × IRStmt)) : List IRStmt :=
  ((cases.find? (·.1.isNull)).map fun c => caseStatements c.2).getD []

/-- The statements the language executes. -/
def selectedStatements (eq : IRExpr → Bool) (cases : List (IRExpr × IRStmt)) : List IRStmt :=
  match fromMatch eq cases with
  | [] => defaultStatements cases
  | c :: rest => fallThrough (c :: rest)

/-! ## Groups -/

section

variable {eq : IRExpr → Bool} {cases rest : List (IRExpr × IRStmt)} {value : IRExpr}
  {body : IRStmt} {i owner : ℕ}

theorem bodyAhead_le : ∀ {cases : List (IRExpr × IRStmt)} {i : ℕ},
    bodyAhead i cases = some (owner, body) →
    i ≤ owner
  | [], _, h => by cases h
  | (value, first) :: rest, i, h => by
      rw [bodyAhead] at h
      split at h
      · cases h
      · split at h
        · exact (Nat.le_succ i).trans (bodyAhead_le h)
        · cases h
          exact le_rfl

/-- Positions are only labels: the body found does not depend on where the count starts. -/
theorem bodyAhead_snd : ∀ (cases : List (IRExpr × IRStmt)) (i j : ℕ),
    (bodyAhead i cases).map Prod.snd = (bodyAhead j cases).map Prod.snd
  | [], _, _ => rfl
  | (value, body) :: rest, i, j => by
      rw [bodyAhead, bodyAhead]
      split
      · rfl
      · split
        · exact bodyAhead_snd rest (i + 1) (j + 1)
        · rfl

theorem bodyAhead_isSome (cases : List (IRExpr × IRStmt)) (i j : ℕ) :
    bodyAhead i cases = none ↔ bodyAhead j cases = none := by
  have h := bodyAhead_snd cases i j
  constructor <;> intro hnone
  · rw [hnone] at h
    simpa using h.symm
  · rw [hnone] at h
    simpa using h

theorem fallThrough_of_bodyAhead : ∀ {cases : List (IRExpr × IRStmt)} {i : ℕ},
    bodyAhead i cases = some (owner, body) → fallThrough cases = caseStatements body
  | [], _, h => by cases h
  | (value, first) :: rest, i, h => by
      rw [bodyAhead] at h
      split at h
      · cases h
      · rename_i hvalue
        rw [fallThrough]
        split at h
        · rename_i hbody
          rw [if_pos (by simp [hvalue, hbody])]
          exact fallThrough_of_bodyAhead h
        · rename_i hbody
          cases h
          rw [if_neg (by simp [hbody])]

theorem groupLength_cons (hvalue : value.isNull = false) :
    groupLength owner i ((value, body) :: rest) =
      if (bodyAhead i ((value, body) :: rest)).map Prod.fst = some owner then
        groupLength owner (i + 1) rest + 1 else 0 := by
  rw [groupLength, if_neg (by simp [hvalue])]

theorem groupLength_eq_zero (h : (bodyAhead i cases).map Prod.fst ≠ some owner) :
    groupLength owner i cases = 0 := by
  cases cases with
  | nil => rfl
  | cons c rest =>
    rw [groupLength, if_neg h, ite_self]

/-- A group never goes past a body, so an arm with a body of its own stands alone. -/
theorem groupLength_own : groupLength i (i + 1) rest = 0 := by
  refine groupLength_eq_zero fun h => ?_
  obtain ⟨⟨k, found⟩, hfound, rfl⟩ := Option.map_eq_some_iff.mp h
  exact absurd (bodyAhead_le hfound) (by simp)

/-- Every label that joins a group falls through to the group's body. -/
theorem fallThrough_of_group : ∀ {rest : List (IRExpr × IRStmt)} {i : ℕ},
    bodyAhead i rest = some (owner, body) →
    ((rest.take (groupLength owner i rest)).map Prod.fst).any eq = true →
      ∃ c tail, fromMatch eq rest = c :: tail ∧ c.1.isNull = false ∧
        ∃ j, bodyAhead j (c :: tail) = some (owner, body)
  | [], _, h, _ => by cases h
  | (value, first) :: rest, i, h, hany => by
      have hvalue : value.isNull = false := by
        rw [bodyAhead] at h
        split at h
        · cases h
        · rename_i hvalue
          simpa using hvalue
      by_cases heq : eq value = true
      · refine ⟨_, rest, ?_, hvalue, i, h⟩
        rw [fromMatch, List.dropWhile_cons_of_neg (by simp [hvalue, heq])]
      · rw [groupLength_cons hvalue, h, Option.map_some, if_pos rfl, List.take_succ_cons,
          List.map_cons, List.any_cons] at hany
        simp only [heq, Bool.false_or] at hany
        rw [fromMatch, List.dropWhile_cons_of_pos (by simp [heq])]
        rw [bodyAhead, if_neg (by simp [hvalue])] at h
        split at h
        · exact fallThrough_of_group h hany
        · cases h
          rw [groupLength_own] at hany
          cases hany

theorem value_of_group : ∀ {rest : List (IRExpr × IRStmt)} {i : ℕ},
    ∀ c ∈ rest.take (groupLength owner i rest), c.1.isNull = false
  | [], _, c, hc => by simp at hc
  | (value, body) :: rest, i, c, hc => by
      by_cases hvalue : value.isNull = true
      · rw [groupLength, if_pos hvalue] at hc
        cases hc
      · rw [groupLength_cons (by simpa using hvalue)] at hc
        split at hc
        · rw [List.take_succ_cons] at hc
          rcases List.mem_cons.mp hc with rfl | hc
          · simpa using hvalue
          · exact value_of_group c hc
        · cases hc

/-! ## The printed body -/

/-- The statements printed under the label that leads a list of cases. -/
def printedBody (allow : Bool) : List (IRExpr × IRStmt) → List IRStmt
  | [] => []
  | (_, body) :: rest =>
    if body.isNull then
      if allow then (((bodyAhead 0 rest).map Prod.snd).map caseStatements).getD [] else []
    else caseStatements body

theorem printedBody_of_bodyAhead (h : bodyAhead i cases = some (owner, body)) :
    printedBody true cases = caseStatements body := by
  cases cases with
  | nil => cases h
  | cons c rest =>
    obtain ⟨value, first⟩ := c
    rw [bodyAhead] at h
    split at h
    · cases h
    · rw [printedBody]
      split at h
      · rename_i hbody
        rw [if_pos hbody, if_pos rfl, bodyAhead_snd rest 0 (i + 1), h]
        rfl
      · rename_i hbody
        cases h
        rw [if_neg hbody]

theorem emitCases_label (allow : Bool) (hvalue : value.isNull = false) :
    emitCases allow 0 i ((value, body) :: rest) =
      .labels (value :: (rest.take (groupSize allow i body rest)).map Prod.fst)
          (caseStatements (((bodyToEmit allow i body rest).map Prod.snd).getD .null)) ::
        emitCases allow (groupSize allow i body rest) (i + 1) rest := by
  rw [emitCases, if_neg (by simp [hvalue])]

theorem emitCases_default (allow : Bool) (hvalue : value.isNull = true) :
    emitCases allow 0 i ((value, body) :: rest) =
      .default (caseStatements body) :: emitCases allow 0 (i + 1) rest := by
  rw [emitCases, if_pos hvalue]

theorem emitCases_skip (allow : Bool) (skip : ℕ) (c : IRExpr × IRStmt) :
    emitCases allow (skip + 1) i (c :: rest) = emitCases allow skip (i + 1) rest := by
  cases c
  rfl

theorem caseStatements_bodyToEmit (allow : Bool) (value : IRExpr) :
    caseStatements (((bodyToEmit allow i body rest).map Prod.snd).getD .null) =
      printedBody allow ((value, body) :: rest) := by
  rw [bodyToEmit, printedBody]
  split
  · split
    · rw [bodyAhead_snd rest (i + 1) 0]
      cases (bodyAhead 0 rest).map Prod.snd <;> rfl
    · rfl
  · rfl

/-- A larger group comes from a naked label that found its body further on. -/
theorem bodyAhead_of_groupSize {allow : Bool} (h : groupSize allow i body rest ≠ 0) :
    allow = true ∧ body.isNull = true ∧
      ∃ owner found, bodyAhead (i + 1) rest = some (owner, found) ∧
        groupSize allow i body rest = groupLength owner (i + 1) rest := by
  rw [groupSize, bodyToEmit] at h ⊢
  cases allow with
  | false =>
    refine absurd ?_ h
    split <;> rfl
  | true =>
    by_cases hbody : body.isNull = true
    · rw [if_pos hbody, if_pos rfl] at h ⊢
      cases hahead : bodyAhead (i + 1) rest with
      | none => rw [hahead] at h; exact absurd rfl h
      | some found => exact ⟨rfl, hbody, found.1, found.2, rfl, rfl⟩
    · rw [if_neg hbody] at h
      exact absurd groupLength_own h

theorem value_of_groupSize (allow : Bool) :
    ∀ c ∈ rest.take (groupSize allow i body rest), c.1.isNull = false := by
  intro c hc
  by_cases hzero : groupSize allow i body rest = 0
  · rw [hzero] at hc
    cases hc
  · obtain ⟨-, -, owner, found, -, hsize⟩ := bodyAhead_of_groupSize hzero
    rw [hsize] at hc
    exact value_of_group c hc

/-- The first item that matches is the one with the first label that matches. -/
theorem find_hits (allow : Bool) : ∀ (cases : List (IRExpr × IRStmt)) (skip i : ℕ),
    (∀ c ∈ cases.take skip, eq c.1 = false) →
      ((emitCases allow skip i cases).find? (VerilogCaseItem.hits eq)).map VerilogCaseItem.body =
        match fromMatch eq cases with
        | [] => none
        | c :: rest => some (printedBody allow (c :: rest))
  | [], _, _, _ => by
      rw [emitCases]
      rfl
  | c :: rest, skip + 1, i, hskip => by
      have hc := hskip c (by simp)
      rw [emitCases_skip, fromMatch, List.dropWhile_cons_of_pos (by simp [hc])]
      exact find_hits allow rest skip (i + 1) fun c hc => hskip c (by simp [hc])
  | (value, body) :: rest, 0, i, _ => by
      by_cases hvalue : value.isNull = true
      · rw [emitCases_default allow hvalue, fromMatch,
          List.dropWhile_cons_of_pos (by simp [hvalue])]
        exact find_hits allow rest 0 (i + 1) fun c hc => by simp at hc
      · rw [Bool.not_eq_true] at hvalue
        rw [emitCases_label allow hvalue, caseStatements_bodyToEmit allow value]
        by_cases heq : eq value = true
        · rw [fromMatch, List.dropWhile_cons_of_neg (by simp [hvalue, heq]),
            List.find?_cons_of_pos (by simp [VerilogCaseItem.hits, heq])]
          rfl
        · by_cases hany :
            ((rest.take (groupSize allow i body rest)).map Prod.fst).any eq = true
          · rw [List.find?_cons_of_pos (by simp only [VerilogCaseItem.hits, List.any_cons, hany,
              Bool.or_true])]
            have hzero : groupSize allow i body rest ≠ 0 := fun hzero => by
              rw [hzero] at hany
              cases hany
            obtain ⟨hallow, hbody, owner, found, hahead, hsize⟩ := bodyAhead_of_groupSize hzero
            rw [hsize] at hany
            obtain ⟨c, tail, hmatch, -, j, hfound⟩ := fallThrough_of_group hahead hany
            rw [fromMatch, List.dropWhile_cons_of_pos (by simp [heq]), ← fromMatch, hmatch]
            subst hallow
            simp only [Option.map_some, VerilogCaseItem.body]
            rw [printedBody_of_bodyAhead hfound, printedBody, if_pos hbody, if_pos rfl,
              bodyAhead_snd rest 0 (i + 1), hahead]
            rfl
          · rw [List.find?_cons_of_neg (by
              simp only [VerilogCaseItem.hits, List.any_cons, heq, hany, Bool.or_self]
              exact Bool.false_ne_true), fromMatch, List.dropWhile_cons_of_pos (by simp [heq])]
            refine find_hits allow rest _ (i + 1) fun c hc => ?_
            rw [Bool.not_eq_true, List.any_eq_false] at hany
            simpa using hany c.1 (List.mem_map_of_mem hc)

theorem find_default (allow : Bool) : ∀ (cases : List (IRExpr × IRStmt)) (skip i : ℕ),
    (∀ c ∈ cases.take skip, c.1.isNull = false) →
      ((emitCases allow skip i cases).find? VerilogCaseItem.isDefault).map VerilogCaseItem.body =
        (cases.find? (·.1.isNull)).map fun c => caseStatements c.2
  | [], _, _, _ => by
      rw [emitCases]
      rfl
  | c :: rest, skip + 1, i, hskip => by
      have hc := hskip c (by simp)
      rw [emitCases_skip, List.find?_cons_of_neg (by simp [hc])]
      exact find_default allow rest skip (i + 1) fun c hc => hskip c (by simp [hc])
  | (value, body) :: rest, 0, i, _ => by
      by_cases hvalue : value.isNull = true
      · rw [emitCases_default allow hvalue, List.find?_cons_of_pos rfl,
          List.find?_cons_of_pos (by exact hvalue)]
        rfl
      · rw [Bool.not_eq_true] at hvalue
        rw [emitCases_label allow hvalue, List.find?_cons_of_neg (by simp [VerilogCaseItem.isDefault]),
          List.find?_cons_of_neg (by simp [hvalue])]
        exact find_default allow rest _ (i + 1) (value_of_groupSize allow)

/-- The printed case executes the body printed for the first label that matches. -/
theorem verilogCase_emitCases (allow : Bool) (cases : List (IRExpr × IRStmt)) :
    verilogCase eq (emitCases allow 0 0 cases) =
      match fromMatch eq cases with
      | [] => defaultStatements cases
      | c :: rest => printedBody allow (c :: rest) := by
  have hhits := @find_hits eq allow cases 0 0 fun c hc => by simp at hc
  have hdefault := find_default allow cases 0 0 fun c hc => by simp at hc
  rw [verilogCase]
  cases hfirst : fromMatch eq cases with
  | nil =>
    rw [hfirst] at hhits
    rw [Option.map_eq_none_iff.mp hhits, Option.none_or, hdefault, defaultStatements]
  | cons c rest =>
    rw [hfirst] at hhits
    obtain ⟨item, hitem, hbody⟩ := Option.map_eq_some_iff.mp hhits
    rw [hitem, Option.some_or, Option.map_some, hbody]
    rfl

end

/-! ## Fall-through and names -/

/-- No naked label stands before a body with nothing but naked labels between them. -/
def NothingAhead (cases : List (IRExpr × IRStmt)) : Prop :=
  ∀ pre value body rest, cases = pre ++ (value, body) :: rest → value.isNull = false →
    body.isNull = true → bodyAhead 0 rest = none

/-- A list of cases starts with naked labels down to a DEFAULT that has statements. -/
def NextIsDefault (cases : List (IRExpr × IRStmt)) : Prop :=
  ∃ c, cases.find? (fun c => c.1.isNull || !c.2.isNull) = some c ∧ c.1.isNull = true ∧
    caseStatements c.2 ≠ []

section

variable {eq : IRExpr → Bool} {cases rest : List (IRExpr × IRStmt)} {value : IRExpr}
  {body : IRStmt} {i : ℕ}

theorem NothingAhead.tail {c : IRExpr × IRStmt} (h : NothingAhead (c :: rest)) :
    NothingAhead rest :=
  fun pre value body tail heq => h (c :: pre) value body tail (by rw [heq, List.cons_append])

theorem nothingAhead_cons (hrest : NothingAhead rest)
    (h : value.isNull = false → body.isNull = true → bodyAhead 0 rest = none) :
    NothingAhead ((value, body) :: rest) := by
  intro pre v b tail heq
  cases pre with
  | nil =>
    cases heq
    exact h
  | cons c pre =>
    rw [List.cons_append] at heq
    exact hrest pre v b tail (List.cons.inj heq).2

theorem groupSize_of_ne_naked {allow : Bool} (h : body.isNull = true → bodyAhead 0 rest = none) :
    groupSize allow i body rest = 0 := by
  by_contra hzero
  obtain ⟨-, hbody, owner, found, hahead, -⟩ := bodyAhead_of_groupSize hzero
  rw [(bodyAhead_isSome rest 0 (i + 1)).mp (h hbody)] at hahead
  cases hahead

theorem bodyToEmit_of_ne_naked (h : body.isNull = true → bodyAhead 0 rest = none) :
    bodyToEmit true i body rest = bodyToEmit false i body rest := by
  rw [bodyToEmit, bodyToEmit]
  split
  · rename_i hbody
    rw [if_pos rfl, (bodyAhead_isSome rest 0 (i + 1)).mp (h hbody)]
    rfl
  · rfl

/-- A naked label with a body ahead brings at least the next label into its group. -/
theorem groupSize_pos (hbody : body.isNull = true) (h : bodyAhead 0 rest ≠ none) :
    rest.take (groupSize true i body rest) ≠ [] := by
  cases rest with
  | nil => exact absurd rfl h
  | cons c rest =>
    obtain ⟨value, first⟩ := c
    have hahead := mt (bodyAhead_isSome ((value, first) :: rest) (i + 1) 0).mp h
    obtain ⟨found, hfound⟩ := Option.ne_none_iff_exists'.mp hahead
    have hvalue : value.isNull = false := by
      rw [bodyAhead] at hfound
      split at hfound
      · cases hfound
      · rename_i hvalue
        simpa using hvalue
    rw [groupSize, bodyToEmit, if_pos hbody, if_pos rfl, hfound]
    simp only [if_true]
    rw [groupLength_cons hvalue, hfound, Option.map_some, if_pos rfl, List.take_succ_cons]
    exact List.cons_ne_nil _ _

/-- Switching fall-through off changes the text exactly when a naked label has a body ahead. -/
theorem emitCases_eq_iff : ∀ (cases : List (IRExpr × IRStmt)) (i : ℕ),
    emitCases true 0 i cases = emitCases false 0 i cases ↔ NothingAhead cases
  | [], i => by
      refine ⟨fun _ pre value body rest heq => ?_, fun _ => rfl⟩
      simp at heq
  | (value, body) :: rest, i => by
      have ih := emitCases_eq_iff rest (i + 1)
      by_cases hvalue : value.isNull = true
      · rw [emitCases_default _ hvalue, emitCases_default _ hvalue, List.cons_inj_right, ih]
        exact ⟨fun h => nothingAhead_cons h fun hfalse => by simp [hvalue] at hfalse,
          fun h => h.tail⟩
      · rw [Bool.not_eq_true] at hvalue
        rw [emitCases_label _ hvalue, emitCases_label _ hvalue]
        by_cases hquiet : body.isNull = true → bodyAhead 0 rest = none
        · rw [groupSize_of_ne_naked hquiet, groupSize_of_ne_naked hquiet,
            bodyToEmit_of_ne_naked hquiet, List.cons_inj_right, ih]
          exact ⟨fun h => nothingAhead_cons h fun _ => hquiet, fun h => h.tail⟩
        · push Not at hquiet
          have hoff : groupSize false i body rest = 0 := by
            by_contra hzero
            exact absurd (bodyAhead_of_groupSize hzero).1 Bool.false_ne_true
          constructor
          · intro h
            have hlabels := (VerilogCaseItem.labels.inj (List.cons.inj h).1).1
            rw [hoff, List.take_zero, List.map_nil, List.cons_inj_right,
              List.map_eq_nil_iff] at hlabels
            exact absurd hlabels (groupSize_pos hquiet.1 hquiet.2)
          · intro h
            exact absurd (h [] value body rest rfl hvalue hquiet.1) hquiet.2

/-- A naked label with no body ahead falls to the DEFAULT, if one follows. -/
theorem fallThrough_eq_nil_iff : ∀ {cases : List (IRExpr × IRStmt)}, bodyAhead 0 cases = none →
    (fallThrough cases = [] ↔ ¬NextIsDefault cases)
  | [], _ => by simp [fallThrough, NextIsDefault]
  | (value, body) :: rest, h => by
      rw [bodyAhead] at h
      rw [fallThrough]
      by_cases hvalue : value.isNull = true
      · simp [hvalue, NextIsDefault]
      · rw [if_neg hvalue] at h
        split at h
        · rename_i hbody
          have hrest := (bodyAhead_isSome rest 1 0).mp h
          rw [if_pos (by simp [hvalue, hbody]), fallThrough_eq_nil_iff hrest, NextIsDefault,
            NextIsDefault, List.find?_cons_of_neg (by simp [hvalue, hbody])]
        · cases h

/-- A body ahead comes before any DEFAULT. -/
theorem bodyAhead_not_nextIsDefault : ∀ {cases : List (IRExpr × IRStmt)} {i : ℕ}
    {found : ℕ × IRStmt}, bodyAhead i cases = some found → ¬NextIsDefault cases
  | [], _, _, h => by cases h
  | (value, body) :: rest, i, found, h => by
      rw [bodyAhead] at h
      split at h
      · cases h
      · rename_i hvalue
        rw [NextIsDefault]
        split at h
        · rename_i hbody
          rw [List.find?_cons_of_neg (by simp [hvalue, hbody])]
          exact bodyAhead_not_nextIsDefault h
        · rename_i hbody
          rw [List.find?_cons_of_pos (by simp [hbody])]
          rintro ⟨c, hc, hdefault, -⟩
          cases hc
          exact hvalue hdefault

end

/-! ## The printed statement -/

section

variable (m : IRModule) (s : CtxState) (names : m.SignalIndex → String) (selector : IRExpr)
  (cases : List (IRExpr × IRStmt))

/-- A label matches when its value is that of the selector. -/
def selectorEquals (label : IRExpr) : Bool :=
  caseEquals (simEvalExpr m s selector) (simEvalExpr m s label)

/-- The printed case executes the statements the language selects, and a renaming of the signals
changes no more than their names. -/
structure SelectMeets : Prop where

  arm : ∃ items, emitSelectStmt m names selector cases = some (selector, items) ∧
    verilogCase (selectorEquals m s selector) items =
      selectedStatements (selectorEquals m s selector) cases

  renamed : ∀ rename : Equiv.Perm String,
    emitSelectStmt m (rename ∘ names) selector cases = emitSelectStmt m names selector cases

/-- The first label that matches does not fall to a DEFAULT with statements, and no label that
falls to a body is under a selector that is a signal. -/
structure SelectSafe : Prop where

  matched : ∀ c rest, fromMatch (selectorEquals m s selector) cases = c :: rest →
    c.2.isNull = true → ¬NextIsDefault rest

  named : selectorSignal m selector = none ∨ NothingAhead cases

variable {m s names selector cases}

/-- Some renaming switches fall-through when the selector is a signal. -/
theorem exists_renaming {i : m.SignalIndex} (h : selectorSignal m selector = some i) :
    ∃ rename : Equiv.Perm String,
      allowFallthrough m (rename ∘ names) selector ≠ allowFallthrough m names selector := by
  simp only [allowFallthrough, h, Function.comp_apply]
  by_cases hname : names i = "state"
  · refine ⟨Equiv.swap "state" "", ?_⟩
    rw [hname, Equiv.swap_apply_left]
    decide
  · refine ⟨Equiv.swap (names i) "state", ?_⟩
    rw [Equiv.swap_apply_left]
    simp [hname]

theorem renaming_iff (hsel : selector.isNull = false) :
    (∀ rename : Equiv.Perm String,
      emitSelectStmt m (rename ∘ names) selector cases = emitSelectStmt m names selector cases) ↔
      selectorSignal m selector = none ∨ NothingAhead cases := by
  simp only [emitSelectStmt, hsel, Bool.false_eq_true, if_false, Option.some.injEq, Prod.mk.injEq,
    true_and]
  constructor
  · intro h
    cases hsig : selectorSignal m selector with
    | none => exact .inl rfl
    | some i =>
      obtain ⟨rename, hne⟩ : ∃ rename : Equiv.Perm String,
          allowFallthrough m (rename ∘ names) selector ≠ allowFallthrough m names selector :=
        exists_renaming hsig
      have htext := h rename
      refine .inr ((emitCases_eq_iff cases 0).mp ?_)
      cases hnew : allowFallthrough m (rename ∘ names) selector <;>
        cases hold : allowFallthrough m names selector
      · exact absurd (hnew.trans hold.symm) hne
      · rw [hnew, hold] at htext
        exact htext.symm
      · rw [hnew, hold] at htext
        exact htext
      · exact absurd (hnew.trans hold.symm) hne
  · intro h rename
    rcases h with hnone | hquiet
    · simp only [allowFallthrough, hnone]
    · have heq := (emitCases_eq_iff cases 0).mpr hquiet
      cases allowFallthrough m (rename ∘ names) selector <;>
        cases allowFallthrough m names selector <;> simp only [heq]

theorem mem_of_fromMatch {eq : IRExpr → Bool} {c : IRExpr × IRStmt}
    {rest : List (IRExpr × IRStmt)} (h : fromMatch eq cases = c :: rest) :
    c.1.isNull = false ∧ ∃ pre, cases = pre ++ c :: rest := by
  obtain ⟨pre, hpre⟩ := List.dropWhile_suffix (l := cases) fun c => c.1.isNull || !eq c.1
  rw [fromMatch] at h
  have hhead := List.head?_dropWhile_not (fun c : IRExpr × IRStmt => c.1.isNull || !eq c.1) cases
  rw [h] at hhead hpre
  refine ⟨?_, pre, hpre.symm⟩
  simp only [List.head?_cons] at hhead
  simp only [Bool.or_eq_false_iff] at hhead
  exact hhead.1

/-- What a matching label runs, when fall-through is on or the label needs none. -/
theorem printedBody_eq_iff {value : IRExpr} {body : IRStmt} {rest : List (IRExpr × IRStmt)}
    {allow : Bool} (hvalue : value.isNull = false)
    (hallow : allow = true ∨ (body.isNull = true → bodyAhead 0 rest = none)) :
    printedBody allow ((value, body) :: rest) = fallThrough ((value, body) :: rest) ↔
      (body.isNull = true → ¬NextIsDefault rest) := by
  rw [printedBody, fallThrough]
  by_cases hbody : body.isNull = true
  · have hfall : (!value.isNull && body.isNull) = true := by simp [hvalue, hbody]
    rw [if_pos hbody, if_pos hfall, forall_prop_of_true hbody]
    cases hahead : bodyAhead 0 rest with
    | some found =>
      obtain ⟨owner, first⟩ := found
      have hon : allow = true := hallow.resolve_right fun h => by
        rw [h hbody] at hahead
        cases hahead
      rw [hon, if_pos rfl, fallThrough_of_bodyAhead hahead]
      refine ⟨fun _ hdefault => ?_, fun _ => rfl⟩
      exact bodyAhead_not_nextIsDefault hahead hdefault
    | none =>
      rw [← fallThrough_eq_nil_iff hahead]
      have hnil : (if allow = true then
          ((Option.map Prod.snd (none : Option (ℕ × IRStmt))).map caseStatements).getD []
          else []) = ([] : List IRStmt) := by cases allow <;> rfl
      rw [hnil, eq_comm]
  · rw [if_neg hbody, if_neg (by simp [hbody])]
    simp [hbody]

/-- The printed case meets the language exactly when no matching label falls to a DEFAULT and the
name of the selector cannot switch fall-through off. -/
theorem selectMeets_iff (hsel : selector.isNull = false) :
    SelectMeets m s names selector cases ↔ SelectSafe m s selector cases := by
  have hemit : emitSelectStmt m names selector cases =
      some (selector, emitCases (allowFallthrough m names selector) 0 0 cases) := by
    rw [emitSelectStmt, if_neg (by simp [hsel])]
  have hallow : selectorSignal m selector = none ∨ NothingAhead cases →
      ∀ c rest, fromMatch (selectorEquals m s selector) cases = c :: rest →
        allowFallthrough m names selector = true ∨
          (c.2.isNull = true → bodyAhead 0 rest = none) := by
    rintro (hnone | hquiet) c rest hmatch
    · exact .inl (by rw [allowFallthrough, hnone])
    · obtain ⟨hvalue, pre, hpre⟩ := mem_of_fromMatch hmatch
      exact .inr fun hbody => hquiet pre c.1 c.2 rest hpre hvalue hbody
  constructor
  · intro h
    have hnamed := (renaming_iff hsel).mp h.renamed
    refine ⟨fun c rest hmatch => ?_, hnamed⟩
    obtain ⟨items, hitems, harm⟩ := h.arm
    rw [hemit] at hitems
    cases hitems
    rw [verilogCase_emitCases, selectedStatements, hmatch] at harm
    exact (printedBody_eq_iff (mem_of_fromMatch hmatch).1 (hallow hnamed c rest hmatch)).mp harm
  · intro h
    refine ⟨⟨_, hemit, ?_⟩, (renaming_iff hsel).mpr h.named⟩
    rw [verilogCase_emitCases, selectedStatements]
    cases hmatch : fromMatch (selectorEquals m s selector) cases with
    | nil => rfl
    | cons c rest =>
      exact (printedBody_eq_iff (mem_of_fromMatch hmatch).1 (hallow h.named c rest hmatch)).mpr
        (h.matched c rest hmatch)

end

namespace StateSelect

/-- A two-bit selector and an eight-bit counter. -/
def module : IRModule where
  signals := [⟨0, .port .portIn, 2⟩, ⟨1, .net, 8⟩]
  memories := []
  clockDomains := []
  asyncBlock := .null

def literal (v w : ℕ) : IRExpr := .literal ⟨(simValFromUint (BitVec.ofNat 64 v) w).val, w, false⟩ w

def store (v : ℕ) : IRStmt := .block [.assignment ⟨1, literal v 8, .receive, false, 0, 0⟩]

/-- The selector is zero. -/
def start : CtxState where
  signals i := ⟨if i = 0 then simValZero 2 else simValZero 8, simValZero 8, false⟩
  cells _ _ := simValZero 1
  runtimeError := false
  settleDirty := false
  sigDirty _ := false

/-- `CASE 0 CASE 1 { .. } CASE 2 { .. } DEFAULT { .. }`. -/
def cases : List (IRExpr × IRStmt) :=
  [(literal 0 2, .null), (literal 1 2, store 1), (literal 2 2, store 0), (.null, store 255)]

/-- The selector carries the given name. -/
def named (selector : String) (i : module.SignalIndex) : String :=
  if i.val = 0 then selector else "counter"

end StateSelect

open StateSelect in
/-- On a sliced selector the naked label shares the body below it. -/
theorem selectMeets_sliced : SelectMeets module start (named "state") (.slice 0 1 0 2) cases ↔
    SelectSafe module start (.slice 0 1 0 2) cases :=
  selectMeets_iff rfl

open StateSelect in
/-- Under a selector called `state` the naked label executes nothing. -/
theorem stateSelect_not_meets :
    ¬SelectMeets module start (named "state") (.signalRef 0 2) cases := by
  intro h
  obtain ⟨items, hitems, harm⟩ := h.arm
  have hemit : emitSelectStmt module (named "state") (.signalRef 0 2) cases =
      some (.signalRef 0 2, emitCases false 0 0 cases) := by
    have hoff : allowFallthrough module (named "state") (.signalRef 0 2) = false := by
      decide +kernel
    rw [emitSelectStmt, hoff]
    rfl
  rw [hemit] at hitems
  cases hitems
  have hlength := congrArg List.length harm
  revert hlength
  decide +kernel

end JzHdl

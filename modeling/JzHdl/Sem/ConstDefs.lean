import JzHdl.Sem.ConstEval
import Mathlib.Data.List.GetD
import Mathlib.Data.List.Nodup
import Mathlib.Data.List.Pairwise
import Mathlib.Data.List.Perm.Subperm
import Mathlib.Logic.Relation
import Mathlib.Order.WellFounded
import Mathlib.Tactic.IntervalCases
import Mathlib.Data.Fintype.EquivFin

/-! # Named constants

The evaluation of a list of definitions that refer to each other by name, as a
depth-first search with tri-state marks, and the solution of the definitions
that it finds.
-/

namespace JzHdl

open LeftChain Relation

/-! ## The search -/

/-- A definition. Both fields may be missing. -/
structure JZConstDef where

  name : Option (List Char)

  expr : Option (List Char)
  deriving DecidableEq

/-- A missing expression is read as 0. -/
def JZConstDef.text (d : JZConstDef) : List Char := d.expr.getD ['0']

inductive EvalState | notVisited | visiting | done
  deriving DecidableEq, Repr

inductive EvalError | failed | circular
  deriving DecidableEq, Repr

structure EvalEnv where

  state : ℕ → EvalState

  values : ℕ → ℤ

namespace EvalEnv

def mark (env : EvalEnv) (i : ℕ) : EvalEnv :=
  { env with state := fun j => if j = i then .visiting else env.state j }

def finish (env : EvalEnv) (i : ℕ) (v : ℤ) : EvalEnv where
  state j := if j = i then .done else env.state j
  values j := if j = i then v else env.values j

/-- No definition is visited at first. The values are written before they are read. -/
def start : EvalEnv := ⟨fun _ => .notVisited, fun _ => 0⟩

end EvalEnv

/-- The first definition of a name. -/
def findDefIndex (defs : List JZConstDef) (name : List Char) : Option ℕ :=
  if name = [] then none else defs.findIdx? fun d => decide (d.name = some name)

section

variable (defs : List JZConstDef)

/-- An identifier of an expression, evaluated now when it was not before. -/
def envIdent (evalOne : ℕ → Run EvalEnv EvalError Unit) (name : List Char) :
    Run EvalEnv EvalError ℤ :=
  match findDefIndex defs name with
  | none => throw .failed
  | some idx => do
    let env ← get
    match env.state idx with
    | .visiting => throw .circular
    | .done => pure (env.values idx)
    | .notVisited => do
      evalOne idx
      let env' ← get
      pure (env'.values idx)

def envSemantics (evalOne : ℕ → Run EvalEnv EvalError Unit) :
    ConstSemantics EvalEnv EvalError ℤ := llongSemantics (envIdent defs evalOne) .failed

/-- The first argument bounds the depth of the search. -/
def evalOne : ℕ → ℕ → Run EvalEnv EvalError Unit
  | 0, _ => throw .failed
  | n + 1, index =>
    match defs[index]? with
    | none => throw .failed
    | some d => do
      let env ← get
      match env.state index with
      | .done => pure ()
      | .visiting => throw .circular
      | .notVisited => do
        set (env.mark index)
        let value ← parseWhole (envSemantics defs (evalOne n)) constEvalDepthLimit (tokensOf d.text)
        if value < 0 then throw .failed
        else modify fun env' => env'.finish index value

def evalUnvisited (i : ℕ) : Run EvalEnv EvalError Unit := do
  let env ← get
  if env.state i = .notVisited then evalOne defs (defs.length + 1) i else pure ()

/-- The loop over the definitions. -/
def evalEach : List ℕ → Run EvalEnv EvalError Unit
  | [] => pure ()
  | i :: rest => do
    evalUnvisited defs i
    evalEach rest

def jzConstEvalAll : Except EvalError (List ℤ) :=
  match evalEach defs (List.range defs.length) EvalEnv.start with
  | .error e => .error e
  | .ok (_, env) => .ok ((List.range defs.length).map env.values)

end

/-! ## Solutions -/

/-- The tokens of a text with all of each identifier. -/
def fullTokens (src : List Char) : List ConstToken := lexAllWith id (src.length + 1) src

section

variable (defs : List JZConstDef)

/-- The expression of a definition names another definition. -/
def Refers (i k : ℕ) : Prop :=
  ∃ d name, defs[i]? = some d ∧ .ident name ∈ fullTokens d.text ∧ name ≠ clog2Name ∧
    findDefIndex defs name = some k

/-- No definition refers to itself, directly or through others. -/
def Acyclic : Prop := ∀ i, ¬ TransGen (Refers defs) i i

/-- A definition has the value that its expression has when all names are bound to their values. -/
def Satisfies (vals : ℕ → ℤ) (i : ℕ) : Prop :=
  ∃ d e, defs[i]? = some d ∧ Recognised d.text ∧ Derives 7 e (fullTokens d.text) ∧
    e.eval (llongArithmetic fun name => (findDefIndex defs name).map vals) = some (vals i) ∧
    0 ≤ vals i

/-- Evaluation along the references; a cycle has no derivation. -/
inductive Solved : ℕ → ℤ → Prop

  | intro {i : ℕ} {d : JZConstDef} {e : ConstExpr} {v : ℤ} (target : List Char → ℕ)
      (names : List Char → Option ℤ) : defs[i]? = some d → Derives 7 e (fullTokens d.text) →
      (∀ name w, names name = some w → findDefIndex defs name = some (target name)) →
      (∀ name w, names name = some w → Solved (target name) w) →
      e.eval (llongArithmetic names) = some v → 0 ≤ v → Solved i v

end

section

variable {defs : List JZConstDef}

theorem findDefIndex_spec {name : List Char} {k : ℕ} (h : findDefIndex defs name = some k) :
    ∃ d, defs[k]? = some d ∧ d.name = some name ∧ name ≠ [] := by
  unfold findDefIndex at h
  split at h
  · cases h
  · rename_i hne
    obtain ⟨hlt, hp, -⟩ := List.findIdx?_eq_some_iff_getElem.mp h
    exact ⟨defs[k], List.getElem?_eq_getElem hlt, by simpa using hp, hne⟩

/-! ### Names of a tree -/

theorem Derives.names_iff {k : ℕ} {e : ConstExpr} {ts : List ConstToken} (h : Derives k e ts)
    (name : List Char) : name ∈ e.names ↔ .ident name ∈ ts ∧ name ≠ clog2Name := by
  induction h with
  | int digits => simp [ConstExpr.names]
  | ident hne =>
    simp only [ConstExpr.names, List.mem_singleton, ConstToken.ident.injEq]
    exact ⟨fun h => ⟨h, h ▸ hne⟩, fun h => h.1⟩
  | clog2 _ ih =>
    simp only [ConstExpr.names, ih, List.mem_cons, ConstToken.ident.injEq, reduceCtorEq,
      List.mem_append, List.not_mem_nil, or_false, false_or]
    tauto
  | paren _ ih => simp [ConstExpr.names, ih]
  | pos _ ih | neg _ ih => simp [ConstExpr.names, ih]
  | operand _ ih => exact ih
  | @binary k l r ts us t op _ hop _ ih ih' =>
    have hne : ConstToken.ident name ≠ t := by
      rintro rfl
      have hlevel := opsAt_level (t := .ident name) (by rw [hop]; exact Option.some_ne_none _)
      have hzero : 0 = k + 1 := hlevel.1
      omega
    simp only [ConstExpr.names, List.mem_append, ih, ih', List.mem_cons, hne, false_or]
    tauto

section

variable {A : Arithmetic} {names names' : List Char → Option ℤ}

/-- An evaluated tree has evaluated all its names. -/
theorem eval_names : ∀ {e : ConstExpr} {v : ℤ}, e.eval (llongArithmetic names) = some v →
    ∀ name ∈ e.names, ∃ w, names name = some w
  | .int _, _, _, name, hn => absurd hn List.not_mem_nil
  | .ident _, v, h, name, hn => by
      obtain rfl := List.mem_singleton.mp hn
      exact ⟨v, h⟩
  | .clog2 e, _, h, name, hn | .neg e, _, h, name, hn => by
      obtain ⟨w, hw, -⟩ := Option.bind_eq_some_iff.mp h
      exact eval_names hw name hn
  | .paren e, _, h, name, hn | .pos e, _, h, name, hn => eval_names (e := e) h name hn
  | .binary op l r, _, h, name, hn => by
      obtain ⟨a, ha, hrest⟩ := Option.bind_eq_some_iff.mp h
      obtain ⟨b, hb, -⟩ := Option.bind_eq_some_iff.mp hrest
      rcases List.mem_append.mp hn with hn | hn
      · exact eval_names ha name hn
      · exact eval_names hb name hn

theorem eval_congr : ∀ {e : ConstExpr}, (∀ name ∈ e.names, names name = names' name) →
    e.eval (llongArithmetic names) = e.eval (llongArithmetic names')
  | .int _, _ => rfl
  | .ident name, h => h name (List.mem_singleton_self _)
  | .clog2 e, h | .neg e, h => by
      have ih : e.eval (llongArithmetic names) = e.eval (llongArithmetic names') := eval_congr h
      simp only [ConstExpr.eval, ih]
      rfl
  | .paren e, h | .pos e, h => eval_congr (e := e) h
  | .binary op l r, h => by
      have hl : l.eval (llongArithmetic names) = l.eval (llongArithmetic names') :=
        eval_congr fun name hn => h name (List.mem_append_left _ hn)
      have hr : r.eval (llongArithmetic names) = r.eval (llongArithmetic names') :=
        eval_congr fun name hn => h name (List.mem_append_right _ hn)
      simp only [ConstExpr.eval, hl, hr]
      rfl

end

/-! ### Solutions are unique and have no cycles -/

theorem Solved.unique {i : ℕ} {v w : ℤ} (h : Solved defs i v) (h' : Solved defs i w) : v = w := by
  induction h generalizing w with
  | @intro i d e v target names hd he htarget _ hv _ ih =>
    obtain ⟨target', names', hd', he', htarget', hsolved', hw, -⟩ := h'
    rw [hd] at hd'
    cases hd'
    have hval := (he'.unique he (llongArithmetic names')).1
    rw [hw] at hval
    refine Option.some.inj (hv.symm.trans ((eval_congr fun name hn => ?_).trans hval.symm))
    obtain ⟨a, ha⟩ := eval_names hv name hn
    obtain ⟨b, hb⟩ := eval_names hval.symm name hn
    have hsame : target name = target' name :=
      Option.some.inj ((htarget name a ha).symm.trans (htarget' name b hb))
    have hab : a = b := ih name a ha (hsame ▸ hsolved' name b hb)
    rw [ha, hb, hab]

theorem Solved.acc {i : ℕ} {v : ℤ} (h : Solved defs i v) : Acc (fun k i => Refers defs i k) i := by
  induction h with
  | @intro i d e v target names hd he htarget _ hv _ ih =>
    refine ⟨_, fun k hr => ?_⟩
    obtain ⟨d', name, hd', hmem, hne, hfind⟩ := hr
    rw [hd] at hd'
    cases hd'
    obtain ⟨w, hw⟩ := eval_names hv name ((he.names_iff name).mpr ⟨hmem, hne⟩)
    obtain rfl := Option.some.inj (hfind.symm.trans (htarget name w hw))
    exact ih name w hw

/-- No cycle passes through an accessible definition. -/
theorem acc_no_cycle {i : ℕ} (h : Acc (fun k i => Refers defs i k) i) :
    ¬ TransGen (Refers defs) i i := by
  induction h with
  | intro i _ ih =>
    intro hcycle
    obtain ⟨k, hik, hki⟩ := TransGen.head'_iff.mp hcycle
    exact ih k hik (TransGen.tail' hki hik)

/-- The solved values of the names. -/
noncomputable def solution (defs : List JZConstDef) (name : List Char) : Option ℤ :=
  open Classical in
  if h : ∃ w k, findDefIndex defs name = some k ∧ Solved defs k w then some h.choose else none

theorem solution_eq_some {name : List Char} {w : ℤ} : solution defs name = some w ↔
    ∃ k, findDefIndex defs name = some k ∧ Solved defs k w := by
  unfold solution
  split
  · rename_i h
    obtain ⟨k, hk, hs⟩ := h.choose_spec
    constructor
    · intro heq
      cases heq
      exact ⟨k, hk, hs⟩
    · rintro ⟨k', hk', hs'⟩
      obtain rfl := Option.some.inj (hk.symm.trans hk')
      rw [hs.unique hs']
  · rename_i h
    exact ⟨nofun, fun ⟨k, hk, hs⟩ => absurd ⟨w, k, hk, hs⟩ h⟩

/-- A definition is solved when its expression has a value under the solved names. -/
theorem solved_iff {i : ℕ} {v : ℤ} : Solved defs i v ↔ ∃ d e, defs[i]? = some d ∧
    Derives 7 e (fullTokens d.text) ∧ e.eval (llongArithmetic (solution defs)) = some v ∧
    0 ≤ v := by
  constructor
  · rintro ⟨target, names, hd, he, htarget, hsolved, hv, hpos⟩
    refine ⟨_, _, hd, he, (eval_congr fun name hn => ?_).trans hv, hpos⟩
    obtain ⟨w, hw⟩ := eval_names hv name hn
    rw [hw]
    exact solution_eq_some.mpr ⟨_, htarget name w hw, hsolved name w hw⟩
  · rintro ⟨d, e, hd, he, hv, hpos⟩
    refine .intro (fun name => (findDefIndex defs name).getD 0) (solution defs) hd he
      (fun name w hw => ?_) (fun name w hw => ?_) hv hpos
    · obtain ⟨k, hk, -⟩ := solution_eq_some.mp hw
      rw [hk, Option.getD_some]
    · obtain ⟨k, hk, hs⟩ := solution_eq_some.mp hw
      rw [hk, Option.getD_some]
      exact hs

/-! ### What the search keeps -/

/-- Finished definitions are solved, and the marked ones are those in progress. -/
structure Kept (defs : List JZConstDef) (vis : List ℕ) (env : EvalEnv) : Prop where

  done : ∀ j, env.state j = .done → Solved defs j (env.values j)

  visiting : ∀ j, env.state j = .visiting ↔ j ∈ vis

theorem Kept.mark {vis : List ℕ} {env : EvalEnv} (h : Kept defs vis env) (i : ℕ) :
    Kept defs (i :: vis) (env.mark i) where
  done j hj := by
    simp only [EvalEnv.mark] at hj ⊢
    split at hj
    · cases hj
    · exact h.done j hj
  visiting j := by
    simp only [EvalEnv.mark, List.mem_cons]
    split
    · rename_i hji
      simp [hji]
    · rename_i hji
      simp [hji, h.visiting j]

theorem Kept.finish {vis : List ℕ} {env : EvalEnv} {i : ℕ} {v : ℤ} (hi : i ∉ vis)
    (h : Kept defs (i :: vis) env) (hv : Solved defs i v) : Kept defs vis (env.finish i v) where
  done j hj := by
    simp only [EvalEnv.finish] at hj ⊢
    split at hj
    · rename_i hji
      subst hji
      rw [if_pos rfl]
      exact hv
    · rename_i hji
      rw [if_neg hji]
      exact h.done j hj
  visiting j := by
    simp only [EvalEnv.finish]
    split
    · rename_i hji
      subst hji
      simp [hi]
    · rename_i hji
      simp [h.visiting j, hji]

/-- What is finished stays finished. -/
def Grew (s t : EvalEnv) : Prop := ∀ j, s.state j = .done → t.state j = .done

theorem Grew.mark {s t : EvalEnv} {i : ℕ} (h : Grew (s.mark i) t) (hi : s.state i ≠ .done) :
    Grew s t := by
  intro j hj
  refine h j ?_
  have hne : j ≠ i := fun hji => hi (hji ▸ hj)
  simp only [EvalEnv.mark, if_neg hne, hj]

theorem Grew.finish {s t : EvalEnv} (h : Grew s t) (i : ℕ) (v : ℤ) : Grew s (t.finish i v) := by
  intro j hj
  simp only [EvalEnv.finish]
  split
  · rfl
  · exact h j hj

theorem get_ok {σ ε : Type} {s s' v : σ} : (get : Run σ ε σ) s = .ok (v, s') ↔ s = v ∧ s = s' := by
  change Except.ok (s, s) = Except.ok (v, s') ↔ _
  simp

theorem throw_ok {σ ε V : Type} {e : ε} {s : σ} {r : V × σ} :
    (throw e : Run σ ε V) s ≠ .ok r := by
  intro h
  cases h

/-- All identifiers of the definitions fit the buffer. -/
def FullNames (defs : List JZConstDef) : Prop := ∀ d ∈ defs, tokensOf d.text = fullTokens d.text

theorem envIdent_sound {vis : List ℕ} {s₀ : EvalEnv} {rec : ℕ → Run EvalEnv EvalError Unit}
    (hrec : ∀ i s s', Kept defs vis s → rec i s = .ok ((), s') →
      Kept defs vis s' ∧ s'.state i = .done ∧ Grew s s')
    (name : List Char) (s : EvalEnv) (v : ℤ) (s' : EvalEnv) (hs : Kept defs vis s ∧ Grew s₀ s)
    (h : envIdent defs rec name s = .ok (v, s')) :
    (Kept defs vis s' ∧ Grew s₀ s') ∧ solution defs name = some v := by
  unfold envIdent at h
  cases hfind : findDefIndex defs name with
  | none =>
    rw [hfind] at h
    exact absurd h throw_ok
  | some idx =>
    simp only [hfind] at h
    obtain ⟨_, _, hget, hnext⟩ := bind_ok.mp h
    obtain ⟨rfl, rfl⟩ := get_ok.mp hget
    cases hstate : s.state idx with
    | visiting =>
      rw [hstate] at hnext
      exact absurd hnext throw_ok
    | done =>
      rw [hstate] at hnext
      obtain ⟨rfl, rfl⟩ := pure_ok.mp hnext
      exact ⟨hs, solution_eq_some.mpr ⟨idx, hfind, hs.1.done idx hstate⟩⟩
    | notVisited =>
      rw [hstate] at hnext
      obtain ⟨⟨⟩, s₁, hone, hread⟩ := bind_ok.mp hnext
      obtain ⟨hs₁, hdone, hgrew⟩ := hrec idx s s₁ hs.1 hone
      obtain ⟨_, _, hget', hret⟩ := bind_ok.mp hread
      obtain ⟨rfl, rfl⟩ := get_ok.mp hget'
      obtain ⟨rfl, rfl⟩ := pure_ok.mp hret
      exact ⟨⟨hs₁, fun j hj => hgrew j (hs.2 j hj)⟩,
        solution_eq_some.mpr ⟨idx, hfind, hs₁.done idx hdone⟩⟩

/-- What one evaluation of a definition leaves. -/
theorem evalOne_sound (hfull : FullNames defs) : ∀ (n : ℕ) {i : ℕ} {vis : List ℕ} {s s' : EvalEnv},
    Kept defs vis s → evalOne defs n i s = .ok ((), s') →
    Kept defs vis s' ∧ s'.state i = .done ∧ Grew s s'
  | 0, _, _, _, _, _, h => absurd h throw_ok
  | n + 1, i, vis, s, s', hs, h => by
      unfold evalOne at h
      cases hd : defs[i]? with
      | none =>
        rw [hd] at h
        exact absurd h throw_ok
      | some d =>
        simp only [hd] at h
        obtain ⟨_, _, hget, hnext⟩ := bind_ok.mp h
        obtain ⟨rfl, rfl⟩ := get_ok.mp hget
        cases hstate : s.state i with
        | visiting =>
          rw [hstate] at hnext
          exact absurd hnext throw_ok
        | done =>
          rw [hstate] at hnext
          obtain ⟨-, rfl⟩ := pure_ok.mp hnext
          exact ⟨hs, hstate, fun _ => id⟩
        | notVisited =>
          rw [hstate] at hnext
          obtain ⟨_, s₁, hset, hrest⟩ := bind_ok.mp hnext
          obtain rfl : s.mark i = s₁ := by cases hset; rfl
          obtain ⟨v, s₂, hparse, hfin⟩ := bind_ok.mp hrest
          obtain ⟨e, he, hv⟩ := parseWhole_sound hparse
          rw [hfull d (List.mem_of_getElem? hd)] at he
          have hident := @envIdent_sound defs (i :: vis) (s.mark i) (evalOne defs n)
            fun j t t' ht hj => evalOne_sound hfull n ht hj
          obtain ⟨⟨hs₂, hgrew⟩, -, hvalue⟩ :=
            evalTree_sound hident e 511 ⟨hs.mark i, fun _ => id⟩ hv
          split at hfin
          · exact absurd hfin throw_ok
          · obtain rfl : s₂.finish i v = s' := by cases hfin; rfl
            have hi : i ∉ vis := fun hmem => by
              rw [← hs.visiting i, hstate] at hmem
              cases hmem
            have hsolved : Solved defs i v := solved_iff.mpr ⟨d, e, hd, he, hvalue, by omega⟩
            have hne : s.state i ≠ .done := by rw [hstate]; exact EvalState.noConfusion
            exact ⟨hs₂.finish hi hsolved, if_pos rfl, (hgrew.mark hne).finish i v⟩

/-! ### Solved definitions are evaluated -/

/-- The nesting of the definitions stays below the limit. -/
def Shallow (defs : List JZConstDef) : Prop :=
  ∀ d ∈ defs, ∀ e, Derives 7 e (fullTokens d.text) → e.nest < constEvalDepthLimit

/-- The definitions in progress: distinct, and not reached again from the next one. -/
structure InProgress (defs : List JZConstDef) (vis : List ℕ) (i : ℕ) : Prop where

  nodup : vis.Nodup

  bound : ∀ j ∈ vis, j < defs.length

  apart : ∀ j ∈ vis, ¬ ReflTransGen (Refers defs) i j

theorem InProgress.not_mem {vis : List ℕ} {i : ℕ} (h : InProgress defs vis i) : i ∉ vis :=
  fun hi => h.apart i hi .refl

theorem InProgress.length_le {vis : List ℕ} {i : ℕ} (h : InProgress defs vis i) :
    vis.length ≤ defs.length := by
  have hsub : vis ⊆ List.range defs.length := fun j hj => List.mem_range.mpr (h.bound j hj)
  have hle := (h.nodup.subperm hsub).length_le
  rwa [List.length_range] at hle

theorem InProgress.next {vis : List ℕ} {i k : ℕ} (h : InProgress defs vis i)
    (hi : i < defs.length) (hacc : ¬ TransGen (Refers defs) i i) (hik : Refers defs i k) :
    InProgress defs (i :: vis) k where
  nodup := List.nodup_cons.mpr ⟨h.not_mem, h.nodup⟩
  bound j hj := by
    rcases List.mem_cons.mp hj with rfl | hj
    · exact hi
    · exact h.bound j hj
  apart j hj hkj := by
    rcases List.mem_cons.mp hj with rfl | hj
    · exact hacc (TransGen.head' hik hkj)
    · exact h.apart j hj (ReflTransGen.head hik hkj)

theorem evalOne_complete (hfull : FullNames defs) (hshallow : Shallow defs) {i : ℕ} {v : ℤ}
    (h : Solved defs i v) : ∀ (n : ℕ) {vis : List ℕ} {s : EvalEnv}, Kept defs vis s →
    InProgress defs vis i → defs.length + 1 ≤ n + vis.length →
    ∃ s', evalOne defs n i s = .ok ((), s') := by
  have hacc := acc_no_cycle h.acc
  induction h with
  | @intro i d e v target names hd he htarget hsolved hv hpos ih =>
    intro n vis s hs hprog hfuel
    cases n with
    | zero =>
      have hlen := hprog.length_le
      omega
    | succ n =>
      have hi := (List.getElem?_eq_some_iff.mp hd).1
      have hmem := List.mem_of_getElem? hd
      unfold evalOne
      simp only [hd]
      cases hstate : s.state i with
      | done => exact ⟨s, bind_ok.mpr ⟨s, s, get_ok.mpr ⟨rfl, rfl⟩, by rw [hstate]; rfl⟩⟩
      | visiting => exact absurd ((hs.visiting i).mp hstate) hprog.not_mem
      | notVisited =>
        have hident : ∀ name ∈ e.names, ∀ t w, Kept defs (i :: vis) t → names name = some w →
            ∃ t', envIdent defs (evalOne defs n) name t = .ok (w, t') ∧
              Kept defs (i :: vis) t' := by
          intro name hname t w ht hw
          obtain ⟨hident, hne⟩ := (he.names_iff name).mp hname
          have hfind := htarget name w hw
          have hrefers : Refers defs i (target name) := ⟨d, name, hd, hident, hne, hfind⟩
          have hnext := hprog.next hi hacc hrefers
          have hsolvedk := hsolved name w hw
          unfold envIdent
          simp only [hfind]
          cases hk : t.state (target name) with
          | visiting => exact absurd ((ht.visiting _).mp hk) hnext.not_mem
          | done =>
            refine ⟨t, bind_ok.mpr ⟨t, t, get_ok.mpr ⟨rfl, rfl⟩, ?_⟩, ht⟩
            rw [hk]
            exact pure_ok.mpr ⟨(ht.done _ hk).unique hsolvedk, rfl⟩
          | notVisited =>
            obtain ⟨t', hone⟩ := ih name w hw (acc_no_cycle hsolvedk.acc) n ht hnext
              (by rw [List.length_cons]; omega)
            obtain ⟨ht', hdone, -⟩ := evalOne_sound hfull n ht hone
            refine ⟨t', bind_ok.mpr ⟨t, t, get_ok.mpr ⟨rfl, rfl⟩, ?_⟩, ht'⟩
            rw [hk]
            exact bind_ok.mpr ⟨(), t', hone, bind_ok.mpr ⟨t', t', get_ok.mpr ⟨rfl, rfl⟩,
              pure_ok.mpr ⟨(ht'.done _ hdone).unique hsolvedk, rfl⟩⟩⟩
        have hnest : e.nest ≤ 511 := Nat.le_of_lt_succ (hshallow d hmem e he)
        obtain ⟨s₂, hrun, -⟩ := @evalTree_complete _ _ (envIdent defs (evalOne defs n))
          EvalError.failed names (Kept defs (i :: vis)) e 511 (s.mark i) v hident (hs.mark i)
          hnest hv
        have hparse : parseWhole (envSemantics defs (evalOne defs n)) constEvalDepthLimit
            (tokensOf d.text) (s.mark i) = .ok (v, s₂) := by
          rw [hfull d hmem, parseWhole_complete _ _ he]
          exact hrun
        refine ⟨s₂.finish i v, bind_ok.mpr ⟨s, s, get_ok.mpr ⟨rfl, rfl⟩, ?_⟩⟩
        rw [hstate]
        refine bind_ok.mpr ⟨⟨⟩, s.mark i, rfl, bind_ok.mpr ⟨v, s₂, hparse, ?_⟩⟩
        rw [if_neg (by omega)]
        rfl

/-! ### The loop over the definitions -/

theorem kept_start : Kept defs [] EvalEnv.start where
  done _ hj := by cases hj
  visiting _ := ⟨nofun, nofun⟩

theorem inProgress_nil (i : ℕ) : InProgress defs [] i where
  nodup := List.nodup_nil
  bound _ hj := absurd hj List.not_mem_nil
  apart _ hj := absurd hj List.not_mem_nil

theorem evalUnvisited_sound (hfull : FullNames defs) {i : ℕ} {s s' : EvalEnv}
    (hs : Kept defs [] s) (h : evalUnvisited defs i s = .ok ((), s')) :
    Kept defs [] s' ∧ s'.state i = .done ∧ Grew s s' := by
  obtain ⟨_, _, hget, hnext⟩ := bind_ok.mp h
  obtain ⟨rfl, rfl⟩ := get_ok.mp hget
  split at hnext
  · exact evalOne_sound hfull _ hs hnext
  · rename_i hvisited
    obtain ⟨-, rfl⟩ := pure_ok.mp hnext
    refine ⟨hs, ?_, fun _ => id⟩
    cases hstate : s.state i with
    | notVisited => exact absurd hstate hvisited
    | visiting => exact absurd ((hs.visiting i).mp hstate) List.not_mem_nil
    | done => rfl

theorem evalEach_sound (hfull : FullNames defs) : ∀ (l : List ℕ) {s s' : EvalEnv},
    Kept defs [] s → evalEach defs l s = .ok ((), s') →
    Kept defs [] s' ∧ (∀ i ∈ l, s'.state i = .done) ∧ Grew s s'
  | [], s, s', hs, h => by
      obtain ⟨-, rfl⟩ := pure_ok.mp h
      exact ⟨hs, fun i hi => absurd hi List.not_mem_nil, fun _ => id⟩
  | i :: rest, s, s', hs, h => by
      obtain ⟨⟨⟩, s₁, hone, hrest⟩ := bind_ok.mp h
      obtain ⟨hs₁, hdone, hgrew⟩ := evalUnvisited_sound hfull hs hone
      obtain ⟨hs', hall, hgrew'⟩ := evalEach_sound hfull rest hs₁ hrest
      refine ⟨hs', fun j hj => ?_, fun j hj => hgrew' j (hgrew j hj)⟩
      rcases List.mem_cons.mp hj with rfl | hj
      · exact hgrew' j hdone
      · exact hall j hj

theorem evalEach_complete (hfull : FullNames defs) (hshallow : Shallow defs) :
    ∀ (l : List ℕ) {s : EvalEnv}, Kept defs [] s → (∀ i ∈ l, ∃ v, Solved defs i v) →
    ∃ s', evalEach defs l s = .ok ((), s')
  | [], s, _, _ => ⟨s, rfl⟩
  | i :: rest, s, hs, hall => by
      obtain ⟨v, hv⟩ := hall i List.mem_cons_self
      have hstep : ∃ s₁, evalUnvisited defs i s = .ok ((), s₁) := by
        by_cases hstate : s.state i = .notVisited
        · obtain ⟨s₁, hone⟩ := evalOne_complete hfull hshallow hv (defs.length + 1) hs
            (inProgress_nil i) (Nat.le_refl _)
          refine ⟨s₁, bind_ok.mpr ⟨s, s, get_ok.mpr ⟨rfl, rfl⟩, ?_⟩⟩
          rw [if_pos hstate]
          exact hone
        · refine ⟨s, bind_ok.mpr ⟨s, s, get_ok.mpr ⟨rfl, rfl⟩, ?_⟩⟩
          rw [if_neg hstate]
          rfl
      obtain ⟨s₁, hone⟩ := hstep
      obtain ⟨hs₁, -, -⟩ := evalUnvisited_sound hfull hs hone
      obtain ⟨s', hrest⟩ := evalEach_complete hfull hshallow rest hs₁
        fun j hj => hall j (List.mem_cons_of_mem _ hj)
      exact ⟨s', bind_ok.mpr ⟨(), s₁, hone, hrest⟩⟩

/-- The values that are returned solve the definitions. -/
theorem jzConstEvalAll_sound (hfull : FullNames defs) {out : List ℤ}
    (h : jzConstEvalAll defs = .ok out) : out.length = defs.length ∧
      ∀ i (hi : i < out.length), Solved defs i out[i] := by
  unfold jzConstEvalAll at h
  cases hrun : evalEach defs (List.range defs.length) EvalEnv.start with
  | error e => rw [hrun] at h; cases h
  | ok r =>
    obtain ⟨⟨⟩, env⟩ := r
    rw [hrun] at h
    cases h
    obtain ⟨hs, hall, -⟩ := evalEach_sound hfull _ kept_start hrun
    refine ⟨by simp, fun i hi => ?_⟩
    rw [List.length_map, List.length_range] at hi
    simp only [List.getElem_map, List.getElem_range]
    exact hs.done i (hall i (List.mem_range.mpr hi))

theorem jzConstEvalAll_complete (hfull : FullNames defs) (hshallow : Shallow defs)
    (hall : ∀ i < defs.length, ∃ v, Solved defs i v) : ∃ out, jzConstEvalAll defs = .ok out := by
  obtain ⟨s', hrun⟩ := evalEach_complete hfull hshallow (List.range defs.length) kept_start
    fun i hi => hall i (List.mem_range.mp hi)
  unfold jzConstEvalAll
  rw [hrun]
  exact ⟨_, rfl⟩

/-! ### Circular definitions -/

theorem orError_yields {σ ε V : Type} {Inv : σ → Prop} {E : ε → Prop} {error : ε} (h : E error)
    (o : Option V) : Yields Inv E (orError error o : Run σ ε V) fun _ => True := by
  cases o with
  | none => exact .throw h
  | some v => exact .pure trivial

/-- The definition reaches a cycle of references. -/
def ReachesCycle (defs : List JZConstDef) (i : ℕ) : Prop :=
  ∃ k, ReflTransGen (Refers defs) i k ∧ TransGen (Refers defs) k k

theorem evalOne_circular (hfull : FullNames defs) : ∀ (n : ℕ) {i : ℕ} {vis : List ℕ} {s : EvalEnv},
    Kept defs vis s → i ∉ vis → (∀ j ∈ vis, TransGen (Refers defs) j i) →
    evalOne defs n i s = .error .circular → ReachesCycle defs i
  | 0, _, _, _, _, _, _, h => by cases h
  | n + 1, i, vis, s, hs, hi, hchain, h => by
      unfold evalOne at h
      cases hd : defs[i]? with
      | none =>
        rw [hd] at h
        cases h
      | some d =>
        simp only [hd] at h
        rcases bind_error.mp h with h | ⟨_, _, hget, hnext⟩
        · cases h
        obtain ⟨rfl, rfl⟩ := get_ok.mp hget
        cases hstate : s.state i with
        | visiting => exact absurd ((hs.visiting i).mp hstate) hi
        | done =>
          rw [hstate] at hnext
          cases hnext
        | notVisited =>
          rw [hstate] at hnext
          rcases bind_error.mp hnext with hset | ⟨_, s₁, hset, hrest⟩
          · cases hset
          obtain rfl : s.mark i = s₁ := by cases hset; rfl
          let E : EvalError → Prop := fun err => err = .circular → ReachesCycle defs i
          have hfailed : E .failed := fun hc => EvalError.noConfusion hc
          have hS : FailsAs (envSemantics defs (evalOne defs n)) (Kept defs (i :: vis)) E :=
            ⟨hfailed, fun _ => orError_yields hfailed _, fun _ _ _ => orError_yields hfailed _⟩
          have hresolve : Resolves (envSemantics defs (evalOne defs n)) (Kept defs (i :: vis)) E
              (tokensOf d.text) := by
            intro name hname hne t ht
            rw [hfull d (List.mem_of_getElem? hd)] at hname
            refine ⟨fun v t' hok => ?_, fun err herr hcirc => ?_⟩
            · have hsound := @envIdent_sound defs (i :: vis) t (evalOne defs n)
                (fun j u u' hu hj => evalOne_sound hfull n hu hj) name t v t' ⟨ht, fun _ => id⟩ hok
              exact ⟨hsound.1.1, trivial⟩
            · subst hcirc
              change envIdent defs (evalOne defs n) name t = _ at herr
              unfold envIdent at herr
              cases hfind : findDefIndex defs name with
              | none =>
                rw [hfind] at herr
                cases herr
              | some idx =>
                have hik : Refers defs i idx := ⟨d, name, hd, hname, hne, hfind⟩
                simp only [hfind] at herr
                rcases bind_error.mp herr with herr | ⟨_, _, hget, hfin⟩
                · cases herr
                obtain ⟨rfl, rfl⟩ := get_ok.mp hget
                cases hk : t.state idx with
                | visiting =>
                  rcases List.mem_cons.mp ((ht.visiting idx).mp hk) with rfl | hmem
                  · exact ⟨idx, .refl, .single hik⟩
                  · exact ⟨i, .refl, .head hik (hchain idx hmem)⟩
                | done =>
                  rw [hk] at hfin
                  cases hfin
                | notVisited =>
                  rw [hk] at hfin
                  rcases bind_error.mp hfin with hone | ⟨_, u, _, hread⟩
                  · have hidx : idx ∉ i :: vis := fun hmem => by
                      rw [← ht.visiting idx, hk] at hmem
                      cases hmem
                    obtain ⟨k, hreach, hcycle⟩ := evalOne_circular hfull n ht hidx (fun j hj => by
                      rcases List.mem_cons.mp hj with rfl | hj
                      · exact .single hik
                      · exact (hchain j hj).tail hik) hone
                    exact ⟨k, hreach.head hik, hcycle⟩
                  · cases hread
          rcases bind_error.mp hrest with hparse | ⟨v, s₂, -, hfin⟩
          · exact (parseWhole_yields hS _ hresolve _ (hs.mark i)).2 _ hparse rfl
          · split at hfin <;> cases hfin

theorem evalEach_circular (hfull : FullNames defs) : ∀ (l : List ℕ) {s : EvalEnv},
    Kept defs [] s → evalEach defs l s = .error .circular → ∃ i ∈ l, ReachesCycle defs i
  | [], _, _, h => by cases h
  | i :: rest, s, hs, h => by
      rcases bind_error.mp h with hone | ⟨⟨⟩, s₁, hone, hrest⟩
      · rcases bind_error.mp hone with hget | ⟨_, _, hget, hnext⟩
        · cases hget
        obtain ⟨rfl, rfl⟩ := get_ok.mp hget
        split at hnext
        · exact ⟨i, List.mem_cons_self, evalOne_circular hfull _ hs List.not_mem_nil
            (fun j hj => absurd hj List.not_mem_nil) hnext⟩
        · cases hnext
      · obtain ⟨j, hj, hcycle⟩ :=
          evalEach_circular hfull rest (evalUnvisited_sound hfull hs hone).1 hrest
        exact ⟨j, List.mem_cons_of_mem _ hj, hcycle⟩

theorem jzConstEvalAll_circular (hfull : FullNames defs)
    (h : jzConstEvalAll defs = .error .circular) : ∃ i < defs.length, ReachesCycle defs i := by
  unfold jzConstEvalAll at h
  cases hrun : evalEach defs (List.range defs.length) EvalEnv.start with
  | ok r => rw [hrun] at h; cases h
  | error e =>
    rw [hrun] at h
    cases h
    obtain ⟨i, hi, hcycle⟩ := evalEach_circular hfull _ kept_start hrun
    exact ⟨i, List.mem_range.mp hi, hcycle⟩

/-! ### Solutions of the definitions -/

theorem findDefIndex_lt {name : List Char} {k : ℕ} (h : findDefIndex defs name = some k) :
    k < defs.length := by
  obtain ⟨d, hd, -⟩ := findDefIndex_spec h
  exact (List.getElem?_eq_some_iff.mp hd).1

theorem Refers.lt {i k : ℕ} (h : Refers defs i k) : i < defs.length ∧ k < defs.length := by
  obtain ⟨d, name, hd, -, -, hfind⟩ := h
  exact ⟨(List.getElem?_eq_some_iff.mp hd).1, findDefIndex_lt hfind⟩

theorem Solved.satisfies (hrec : ∀ d ∈ defs, Recognised d.text) {vals : ℕ → ℤ}
    (hvals : ∀ i < defs.length, Solved defs i (vals i)) {i : ℕ} (hi : i < defs.length) :
    Satisfies defs vals i := by
  obtain ⟨d, e, hd, he, hv, hpos⟩ := solved_iff.mp (hvals i hi)
  refine ⟨d, e, hd, hrec d (List.mem_of_getElem? hd), he, (eval_congr fun name hn => ?_).trans hv,
    hpos⟩
  obtain ⟨w, hw⟩ := eval_names hv name hn
  obtain ⟨k, hk, hs⟩ := solution_eq_some.mp hw
  rw [hw, hk, Option.map_some, (hvals k (findDefIndex_lt hk)).unique hs]

theorem derives_seven {e : ConstExpr} {ts : List ConstToken} (h : Derives 0 e ts) :
    Derives 7 e ts :=
  .operand (.operand (.operand (.operand (.operand (.operand (.operand h))))))

/-- References to earlier definitions only make no cycle. -/
theorem acyclic_of_lt (h : ∀ i k, Refers defs i k → k < i) : Acyclic defs := by
  intro i hcycle
  have hlt : ∀ k, TransGen (Refers defs) i k → k < i := by
    intro k hik
    induction hik with
    | single hik => exact h _ _ hik
    | tail _ hkl ih => exact (h _ _ hkl).trans ih
  exact Nat.lt_irrefl i (hlt i hcycle)

/-- Without cycles the references of finitely many definitions are well founded. -/
theorem acyclic_acc (h : Acyclic defs) (i : ℕ) (hi : i < defs.length) :
    Acc (fun k i => Refers defs i k) i := by
  let r : Fin defs.length → Fin defs.length → Prop := fun k j => TransGen (Refers defs) j k
  have htrans : IsTrans (Fin defs.length) r := ⟨fun _ _ _ hab hbc => hbc.trans hab⟩
  have hirrefl : Std.Irrefl r := ⟨fun j => h j⟩
  have hwf : WellFounded r := Finite.wellFounded_of_trans_of_irrefl r
  have hacc : ∀ j : Fin defs.length, Acc (fun k i => Refers defs i k) j := by
    intro j
    induction j using hwf.induction with
    | _ j ih =>
      refine ⟨_, fun k hjk => ?_⟩
      exact ih ⟨k, hjk.lt.2⟩ (.single hjk)
  exact hacc ⟨i, hi⟩

theorem Satisfies.solved (hacyclic : Acyclic defs) {vals : ℕ → ℤ}
    (hvals : ∀ i < defs.length, Satisfies defs vals i) (i : ℕ) (hi : i < defs.length) :
    Solved defs i (vals i) := by
  have hacc := acyclic_acc hacyclic i hi
  induction hacc with
  | intro i _ ih =>
    obtain ⟨d, e, hd, -, he, hv, hpos⟩ := hvals i hi
    refine solved_iff.mpr ⟨d, e, hd, he, (eval_congr fun name hn => ?_).trans hv, hpos⟩
    obtain ⟨w, hw⟩ := eval_names hv name hn
    obtain ⟨k, hk, hkw⟩ := Option.map_eq_some_iff.mp hw
    obtain ⟨hmem, hne⟩ := (he.names_iff name).mp hn
    have hlt := findDefIndex_lt hk
    rw [hk, Option.map_some]
    exact solution_eq_some.mpr ⟨k, hk, ih k ⟨d, name, hd, hmem, hne, hk⟩ hlt⟩

theorem solved_acyclic (h : ∀ i < defs.length, ∃ v, Solved defs i v) : Acyclic defs := by
  intro i hcycle
  obtain ⟨k, hik, -⟩ := TransGen.head'_iff.mp hcycle
  obtain ⟨v, hv⟩ := h i hik.lt.1
  exact acc_no_cycle hv.acc hcycle

/-! ### Identifiers within the buffer -/

theorem lexOneWith_id {cut : List Char → List Char} {src : List Char}
    (h : ∀ name rest, lexOneWith id src = (some (.ident name), rest) → cut name = name) :
    lexOneWith cut src = lexOneWith id src := by
  unfold lexOneWith at h ⊢
  cases hsrc : src.dropWhile isSpaceChar with
  | nil => rfl
  | cons c rest =>
    simp only [hsrc] at h ⊢
    by_cases hdigit : c.isDigit
    · rw [if_pos hdigit, if_pos hdigit]
    · rw [if_neg hdigit] at h ⊢
      rw [if_neg hdigit]
      by_cases hstart : isIdentStart c
      · rw [if_pos hstart] at h ⊢
        have hname : cut (c :: rest.takeWhile isIdentChar) = c :: rest.takeWhile isIdentChar :=
          h _ _ rfl
        rw [if_pos hstart, hname]
        rfl
      · rw [if_neg hstart, if_neg hstart]

theorem lexAllWith_id {cut : List Char → List Char} : ∀ (n : ℕ) {src : List Char},
    (∀ name, .ident name ∈ lexAllWith id n src → cut name = name) →
    lexAllWith cut n src = lexAllWith id n src
  | 0, _, _ => rfl
  | n + 1, src, h => by
      unfold lexAllWith at h ⊢
      have hone : lexOneWith cut src = lexOneWith id src := lexOneWith_id fun name rest hlex =>
        h name (by rw [hlex]; exact List.mem_cons_self)
      rw [hone]
      cases hlex : lexOneWith id src with
      | mk t rest =>
        cases t with
        | none => rfl
        | some t =>
          simp only [hlex] at h
          simp only [lexAllWith_id n fun name hname => h name (List.mem_cons_of_mem _ hname)]

/-- Every character of the definitions is known, every identifier fits the buffer of the lexer, and
the nesting stays below the limit. -/
structure PlainDef (d : JZConstDef) : Prop where

  recognised : Recognised d.text

  short : ∀ name, .ident name ∈ fullTokens d.text → name.length ≤ identLimit

  shallow : ∀ e, Derives 7 e (fullTokens d.text) → e.nest < constEvalDepthLimit

theorem fullNames_of_plain (h : ∀ d ∈ defs, PlainDef d) : FullNames defs := fun d hd =>
  lexAllWith_id _ fun name hname => List.take_of_length_le ((h d hd).short name hname)

/-! ### The order of the definitions -/

/-- No two definitions have the same name. -/
def DistinctNames (defs : List JZConstDef) : Prop := (defs.filterMap JZConstDef.name).Nodup

instance (defs : List JZConstDef) : Decidable (DistinctNames defs) :=
  inferInstanceAs (Decidable (List.Nodup _))

theorem DistinctNames.eq (h : DistinctNames defs) {d d' : JZConstDef} (hd : d ∈ defs)
    (hd' : d' ∈ defs) {name : List Char} (hname : d.name = some name)
    (hname' : d'.name = some name) : d = d' := by
  by_contra hne
  have hpair := List.pairwise_filterMap.mp h
  let R : JZConstDef → JZConstDef → Prop := fun a b =>
    ∀ x, a.name = some x → ∀ y, b.name = some y → x ≠ y
  have hsymm : Std.Symm R := ⟨fun a b hab x hx y hy hxy => hab y hy x hx hxy.symm⟩
  have hdiffer : R d d' := List.Pairwise.forall hpair hd hd' hne
  exact hdiffer name hname name hname' rfl

theorem findDefIndex_perm {defs' : List JZConstDef} (hperm : defs'.Perm defs)
    (hdistinct : DistinctNames defs) {name : List Char} {k : ℕ}
    (h : findDefIndex defs name = some k) :
    ∃ k', findDefIndex defs' name = some k' ∧ defs'[k']? = defs[k]? := by
  obtain ⟨d, hd, hname, hne⟩ := findDefIndex_spec h
  have hmem : d ∈ defs' := hperm.mem_iff.mpr (List.mem_of_getElem? hd)
  have hsome : ∃ k', findDefIndex defs' name = some k' := by
    unfold findDefIndex
    rw [if_neg hne]
    refine Option.isSome_iff_exists.mp (List.findIdx?_isSome.trans ?_)
    exact List.any_eq_true.mpr ⟨d, hmem, decide_eq_true hname⟩
  obtain ⟨k', hk'⟩ := hsome
  obtain ⟨d', hd', hname', -⟩ := findDefIndex_spec hk'
  have hmem' : d' ∈ defs := hperm.mem_iff.mp (List.mem_of_getElem? hd')
  refine ⟨k', hk', ?_⟩
  rw [hd, hd', hdistinct.eq hmem' (List.mem_of_getElem? hd) hname' hname]

/-- A solved definition is solved wherever it stands. -/
theorem Solved.perm {defs' : List JZConstDef} (hperm : defs'.Perm defs)
    (hdistinct : DistinctNames defs) {i : ℕ} {v : ℤ} (h : Solved defs i v) :
    ∀ j, defs'[j]? = defs[i]? → Solved defs' j v := by
  induction h with
  | @intro i d e v target names hd he htarget _ hv hpos ih =>
    intro j hj
    refine .intro (fun name => (findDefIndex defs' name).getD 0) names (hj.trans hd) he
      (fun name w hw => ?_) (fun name w hw => ?_) hv hpos
    · obtain ⟨k', hk', -⟩ := findDefIndex_perm hperm hdistinct (htarget name w hw)
      rw [hk', Option.getD_some]
    · obtain ⟨k', hk', hsame⟩ := findDefIndex_perm hperm hdistinct (htarget name w hw)
      rw [hk', Option.getD_some]
      exact ih name w hw k' hsame

theorem DistinctNames.perm {defs' : List JZConstDef} (h : DistinctNames defs)
    (hperm : defs'.Perm defs) : DistinctNames defs' := (hperm.filterMap _).nodup_iff.mpr h

/-! ### The values of the definitions -/

/-- The values are the one solution of the definitions, in any order of the definitions. -/
structure MeetsDefinitions (defs : List JZConstDef) : Prop where

  returns_iff : (∃ out, jzConstEvalAll defs = .ok out) ↔
    (∃ vals, ∀ i < defs.length, Satisfies defs vals i) ∧ Acyclic defs

  solves : ∀ out, jzConstEvalAll defs = .ok out → out.length = defs.length ∧
    ∀ i < defs.length, Satisfies defs (fun k => out.getD k 0) i

  unique : ∀ out, jzConstEvalAll defs = .ok out → ∀ vals,
    (∀ i < defs.length, Satisfies defs vals i) → ∀ i < defs.length, out[i]? = some (vals i)

  permutes : ∀ out, jzConstEvalAll defs = .ok out → ∀ defs', List.Perm defs' defs →
    ∃ out', jzConstEvalAll defs' = .ok out' ∧
      ∀ i < defs.length, ∀ j : ℕ, defs'[j]? = defs[i]? → out'[j]? = out[i]?

  circular : jzConstEvalAll defs = .error .circular → ∃ i < defs.length, ReachesCycle defs i

theorem solvedAll_of_ok (hplain : ∀ d ∈ defs, PlainDef d) {out : List ℤ}
    (h : jzConstEvalAll defs = .ok out) : out.length = defs.length ∧
      ∀ i < defs.length, Solved defs i (out.getD i 0) := by
  obtain ⟨hlen, hall⟩ := jzConstEvalAll_sound (fullNames_of_plain hplain) h
  refine ⟨hlen, fun i hi => ?_⟩
  rw [List.getD_eq_getElem _ _ (hlen ▸ hi)]
  exact hall i (hlen ▸ hi)

theorem ok_of_solvedAll (hplain : ∀ d ∈ defs, PlainDef d)
    (h : ∀ i < defs.length, ∃ v, Solved defs i v) : ∃ out, jzConstEvalAll defs = .ok out :=
  jzConstEvalAll_complete (fullNames_of_plain hplain) (fun d hd => (hplain d hd).shallow) h

theorem jzConstEvalAll_perm (hdistinct : DistinctNames defs) (hplain : ∀ d ∈ defs, PlainDef d)
    {out : List ℤ} (h : jzConstEvalAll defs = .ok out) {defs' : List JZConstDef}
    (hperm : defs'.Perm defs) : ∃ out', jzConstEvalAll defs' = .ok out' ∧
      ∀ i < defs.length, ∀ j : ℕ, defs'[j]? = defs[i]? → out'[j]? = out[i]? := by
  obtain ⟨hlen, hsolved⟩ := solvedAll_of_ok hplain h
  have hplain' : ∀ d ∈ defs', PlainDef d := fun d hd => hplain d (hperm.mem_iff.mp hd)
  have hsolved' : ∀ i < defs.length, ∀ j : ℕ, defs'[j]? = defs[i]? →
      Solved defs' j (out.getD i 0) := fun i hi j hij => (hsolved i hi).perm hperm hdistinct j hij
  obtain ⟨out', hout'⟩ := ok_of_solvedAll hplain' fun j hj => by
    have hmem : defs'[j] ∈ defs := hperm.mem_iff.mp (List.getElem_mem hj)
    obtain ⟨i, hi, hij⟩ := List.getElem_of_mem hmem
    refine ⟨_, hsolved' i hi j ?_⟩
    rw [List.getElem?_eq_getElem hj, List.getElem?_eq_getElem hi, hij]
  obtain ⟨hlen', hvalues⟩ := solvedAll_of_ok hplain' hout'
  refine ⟨out', hout', fun i hi j hij => ?_⟩
  rw [List.getElem?_eq_getElem hi] at hij
  have hj : j < defs'.length := (List.getElem?_eq_some_iff.mp hij).1
  have hval := (hvalues j hj).unique
    (hsolved' i hi j (hij.trans (List.getElem?_eq_getElem hi).symm))
  rw [List.getD_eq_getElem _ _ (hlen' ▸ hj), List.getD_eq_getElem _ _ (hlen ▸ hi)] at hval
  rw [List.getElem?_eq_getElem (hlen' ▸ hj), List.getElem?_eq_getElem (hlen ▸ hi), hval]

end

end JzHdl

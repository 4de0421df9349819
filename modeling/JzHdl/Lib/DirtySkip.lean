import Mathlib.Data.List.Basic

/-! # Skipping and repeating actions

A pass runs a list of actions and may skip those whose inputs are clean. When
every skipped action is still, skipping changes no pass. A settle repeats a
pass until one of them is quiet.
-/

namespace DirtySkip

variable {σ α : Type*}

/-- Actions on a state with a test that lets a pass skip them. A still action changes nothing. -/
structure Actions (σ α : Type*) where

  run : α → σ → σ

  needs : α → σ → Bool

  Still : α → σ → Prop

  run_of_still : ∀ a s, Still a s → run a s = s

namespace Actions

variable (A : Actions σ α) {l : List α} {s : σ}

def skip (s : σ) (a : α) : σ := if A.needs a s then A.run a s else s

/-- Every action would run, or is still. -/
def Armed (l : List α) (s : σ) : Prop := ∀ a ∈ l, A.needs a s = true ∨ A.Still a s

theorem skip_eq_run {a : α} (h : A.needs a s = true ∨ A.Still a s) : A.skip s a = A.run a s := by
  rw [skip]
  by_cases hn : A.needs a s = true
  · rw [if_pos hn]
  · rw [if_neg hn, A.run_of_still a s (h.resolve_left hn)]

theorem skip_cases {P : σ → Prop} {a : α} (hrun : A.needs a s = true → P (A.run a s)) (hs : P s) :
    P (A.skip s a) := by
  rw [skip]
  split
  · rename_i h; exact hrun h
  · exact hs

/-- A pass with skipping equals the pass that runs every action. -/
theorem foldl_skip (hframe : ∀ a ∈ l, ∀ s, A.Armed l s → A.needs a s = true → A.Armed l (A.run a s)) :
    ∀ {k : List α} {s : σ}, k ⊆ l → A.Armed l s →
      k.foldl A.skip s = k.foldl (fun s a => A.run a s) s ∧ A.Armed l (k.foldl A.skip s)
  | [], _, _, h => ⟨rfl, h⟩
  | a :: rest, s, hsub, h => by
      have ha : a ∈ l := hsub List.mem_cons_self
      have harm : A.Armed l (A.skip s a) := A.skip_cases (hframe a ha s h) h
      obtain ⟨h1, h2⟩ := foldl_skip hframe (k := rest) (fun x hx => hsub (List.mem_cons_of_mem _ hx)) harm
      rw [List.foldl_cons, List.foldl_cons]
      refine ⟨?_, h2⟩
      rw [h1, A.skip_eq_run (h a ha)]

end Actions

/-- Repeat a pass until it is quiet, at most `n` times. -/
def repeatPass (pass : σ → σ) (dirty : σ → Bool) (finish : σ → σ) : ℕ → σ → Bool × σ
  | 0, s => (false, s)
  | n + 1, s =>
    if dirty (pass s) then repeatPass pass dirty finish n (pass s) else (true, finish (pass s))

section

variable {pass pass' finish : σ → σ} {dirty : σ → Bool} {Inv : σ → Prop}

theorem repeatPass_congr (heq : ∀ s, Inv s → pass s = pass' s) (hinv : ∀ s, Inv s → Inv (pass s)) :
    ∀ (n : ℕ) {s : σ}, Inv s → repeatPass pass dirty finish n s = repeatPass pass' dirty finish n s
  | 0, _, _ => rfl
  | n + 1, s, h => by
      rw [repeatPass, repeatPass, ← heq s h]
      split
      · exact repeatPass_congr heq hinv n (hinv s h)
      · rfl

/-- A settle that stops has finished after a quiet pass from a state with the invariant. -/
theorem repeatPass_stops (hinv : ∀ s, Inv s → Inv (pass s)) :
    ∀ (n : ℕ) {s t : σ}, Inv s → repeatPass pass dirty finish n s = (true, t) →
      ∃ u, Inv u ∧ dirty (pass u) = false ∧ t = finish (pass u)
  | 0, _, _, _, h => by simp [repeatPass] at h
  | n + 1, s, t, hs, h => by
      rw [repeatPass] at h
      by_cases hd : dirty (pass s) = true
      · rw [if_pos hd] at h
        exact repeatPass_stops hinv n (hinv s hs) h
      · rw [if_neg hd] at h
        exact ⟨s, hs, by simpa using hd, (Prod.mk.inj h).2.symm⟩

theorem repeatPass_inv (hinv : ∀ s, Inv s → Inv (pass s))
    (hfin : ∀ s, Inv s → dirty (pass s) = false → Inv (finish (pass s))) :
    ∀ (n : ℕ) {s : σ}, Inv s → Inv (repeatPass pass dirty finish n s).2
  | 0, _, h => h
  | n + 1, s, h => by
      rw [repeatPass]
      by_cases hd : dirty (pass s) = true
      · rw [if_pos hd]; exact repeatPass_inv hinv hfin n (hinv s h)
      · rw [if_neg hd]; exact hfin s h (by simpa using hd)

end

end DirtySkip

import Mathlib.Order.Defs.Unbundled

/-! # What a failing computation leaves behind

Computations that keep the state they have reached when they fail. A relation
between the states before and after a computation, however it ends, follows from
such relations for its parts.
-/

/-- A computation that may fail and that keeps its state then. -/
abbrev Attempt (σ α : Type) := OptionT (StateM σ) α

namespace Attempt

variable {σ α β : Type}

def exec (p : Attempt σ α) (st : σ) : Option α × σ := p.run.run st

theorem exec_get (st : σ) : exec (get : Attempt σ σ) st = (some st, st) := rfl

theorem exec_bind (p : Attempt σ α) (f : α → Attempt σ β) (st : σ) :
    exec (p >>= f) st =
      match exec p st with
      | (some a, next) => exec (f a) next
      | (none, next) => (none, next) := by
  unfold exec
  rw [OptionT.run_bind, Option.elimM, StateT.run_bind]
  generalize p.run.run st = r
  obtain ⟨o, next⟩ := r
  cases o with
  | none => rfl
  | some a => rfl

/-- Makes a last step if the computation fails. -/
def onFailure (step : σ → σ) (p : Attempt σ α) : Attempt σ α :=
  OptionT.mk fun st =>
    match exec p st with
    | (some a, next) => (some a, next)
    | (none, next) => (none, step next)

theorem exec_onFailure (step : σ → σ) (p : Attempt σ α) (st : σ) :
    exec (onFailure step p) st =
      match exec p st with
      | (some a, next) => (some a, next)
      | (none, next) => (none, step next) := rfl

theorem exec_onFailure_some {step : σ → σ} {p : Attempt σ α} {st next : σ} {a : α}
    (h : exec (onFailure step p) st = (some a, next)) : exec p st = (some a, next) := by
  rw [exec_onFailure] at h
  split at h
  · rename_i heq
    rw [heq, ← h]
  · cases h

theorem exec_onFailure_none {step : σ → σ} {p : Attempt σ α} {st next : σ}
    (h : exec (onFailure step p) st = (none, next)) :
    ∃ mid, exec p st = (none, mid) ∧ next = step mid := by
  rw [exec_onFailure] at h
  split at h
  · cases h
  · rename_i mid heq
    obtain ⟨-, rfl⟩ := Prod.mk.inj h
    exact ⟨mid, heq, rfl⟩

/-- Whether the computation succeeds. Its state stays in both cases. -/
def tried (p : Attempt σ α) : Attempt σ Bool :=
  OptionT.mk fun st => (some (exec p st).1.isSome, (exec p st).2)

/-- The relation between the states holds however the computation ends. -/
def Frames (R : σ → σ → Prop) (p : Attempt σ α) : Prop := ∀ st, R st (exec p st).2

namespace Frames

variable {R R₁ R₂ : σ → σ → Prop} {p : Attempt σ α} {f : α → Attempt σ β}

/-- A first part that succeeds leads to the second one. -/
theorem bind_of (hp : ∀ st a next, exec p st = (some a, next) → R₁ st next)
    (hfail : ∀ st next, exec p st = (none, next) → R st next) (hf : ∀ a, Frames R₂ (f a))
    (hcomp : ∀ a b c, R₁ a b → R₂ b c → R a c) : Frames R (p >>= f) := by
  intro st
  rw [exec_bind]
  split
  · rename_i a next heq
    exact hcomp _ _ _ (hp st a next heq) (hf a next)
  · rename_i next heq
    exact hfail st next heq

theorem of_exec (hp : Frames R p) {st next : σ} {o : Option α} (h : exec p st = (o, next)) :
    R st next := by
  have hst := hp st
  rwa [h] at hst

theorem bind [IsTrans σ R] (hp : Frames R p) (hf : ∀ a, Frames R (f a)) : Frames R (p >>= f) :=
  bind_of (fun _ _ _ => hp.of_exec) (fun _ _ => hp.of_exec) hf IsTrans.trans

theorem of_pure [Std.Refl R] (a : α) : Frames R (pure a : Attempt σ α) := fun st => refl st

theorem of_failure [Std.Refl R] : Frames R (failure : Attempt σ α) := fun st => refl st

theorem of_get [Std.Refl R] : Frames R (get : Attempt σ σ) := fun st => refl st

theorem of_ite {c : Prop} [Decidable c] {q : Attempt σ α} (hp : Frames R p) (hq : Frames R q) :
    Frames R (if c then p else q) := by
  split
  · exact hp
  · exact hq

theorem of_tried (hp : Frames R p) : Frames R (tried p) := hp

end Frames

end Attempt

import Mathlib.Data.List.Basic
import Mathlib.Data.List.Forall2
import Mathlib.Tactic.Common
import Mathlib.Tactic.Ring

/-! # Paths up to a limit

A walk keeps one set of facts for every path through a program and joins them
all when there are too many. The joined set still covers every path and holds
nothing that no path has, and below the limit no two paths are joined.
-/

namespace PathCap

variable {τ : Type*}

/-- One after the other. -/
def joinPaths (P Q : List (List τ)) : List (List τ) := P.flatMap fun p => Q.map fun q => p ++ q

/-- Every path goes on through one of the branches, or past them when they are not complete. -/
def branchOut (runs : List (List (List τ) → List (List τ))) (complete : Bool)
    (ps : List (List τ)) : List (List τ) :=
  ps.flatMap fun base =>
    (runs.flatMap fun run => run [base]) ++ if complete then [] else [base]

def collapse [DecidableEq τ] (ps : List (List τ)) : List (List τ) :=
  if ps.length ≤ 1 then ps else [ps.flatten.eraseDups]

def capPaths [DecidableEq τ] (limit : ℕ) (ps : List (List τ)) : List (List τ) :=
  if limit < ps.length then collapse ps else ps

/-! ## Tracking -/

/-- The tracked paths cover the paths, add nothing, and are exact below the limit. -/
structure Tracks (limit : ℕ) (T S : List (List τ)) : Prop where

  source : T ≠ [] → S ≠ []

  covers : ∀ s ∈ S, ∃ t ∈ T, s ⊆ t

  within : ∀ t ∈ T, ∀ e ∈ t, ∃ s ∈ S, e ∈ s

  exact : S.length ≤ limit → T.length ≤ S.length ∧ ∀ t ∈ T, ∃ s ∈ S, t ⊆ s

/-- The function tracks what the given paths add to any paths before them. -/
def Walks (limit : ℕ) (f : List (List τ) → List (List τ)) (Q : List (List τ)) : Prop :=
  ∀ T S, Tracks limit T S → Tracks limit (f T) (joinPaths S Q)

variable {limit : ℕ}

theorem mem_joinPaths {P Q : List (List τ)} {s : List τ} :
    s ∈ joinPaths P Q ↔ ∃ p ∈ P, ∃ q ∈ Q, s = p ++ q := by
  simp only [joinPaths, List.mem_flatMap, List.mem_map, eq_comm]

theorem length_joinPaths (P Q : List (List τ)) :
    (joinPaths P Q).length = P.length * Q.length := by
  induction P with
  | nil => simp [joinPaths]
  | cons p P ih =>
    rw [joinPaths, List.flatMap_cons, List.length_append, List.length_map, ← joinPaths, ih,
      List.length_cons]
    ring

theorem joinPaths_one (P : List (List τ)) : joinPaths P [[]] = P := by
  simp [joinPaths]

theorem joinPaths_assoc (P Q R : List (List τ)) :
    joinPaths (joinPaths P Q) R = joinPaths P (joinPaths Q R) := by
  simp only [joinPaths, List.flatMap_assoc, List.flatMap_map, List.map_flatMap, List.map_map,
    Function.comp_def, List.append_assoc]

theorem append_subset_append {s t : List τ} (h : s ⊆ t) (q : List τ) : s ++ q ⊆ t ++ q :=
  List.append_subset.mpr ⟨List.subset_append_of_subset_left q h, List.subset_append_right t q⟩

theorem Tracks.refl (T : List (List τ)) : Tracks limit T T where
  source := id
  covers s hs := ⟨s, hs, List.Subset.refl s⟩
  within t ht _ he := ⟨t, ht, he⟩
  exact _ := ⟨le_rfl, fun t ht => ⟨t, ht, List.Subset.refl t⟩⟩

theorem Tracks.append {T T' S S' : List (List τ)} (h : Tracks limit T S)
    (h' : Tracks limit T' S') : Tracks limit (T ++ T') (S ++ S') where
  source hne hnil := by
    obtain ⟨hS, hS'⟩ := List.append_eq_nil_iff.mp hnil
    rcases T with _ | ⟨t, T⟩
    · exact h'.source hne hS'
    · exact h.source (List.cons_ne_nil t T) hS
  covers s hs := by
    rcases List.mem_append.mp hs with hs | hs
    · obtain ⟨t, ht, hsub⟩ := h.covers s hs
      exact ⟨t, List.mem_append_left _ ht, hsub⟩
    · obtain ⟨t, ht, hsub⟩ := h'.covers s hs
      exact ⟨t, List.mem_append_right _ ht, hsub⟩
  within t ht e he := by
    rcases List.mem_append.mp ht with ht | ht
    · obtain ⟨s, hs, hes⟩ := h.within t ht e he
      exact ⟨s, List.mem_append_left _ hs, hes⟩
    · obtain ⟨s, hs, hes⟩ := h'.within t ht e he
      exact ⟨s, List.mem_append_right _ hs, hes⟩
  exact hlen := by
    rw [List.length_append] at hlen
    obtain ⟨hl, hex⟩ := h.exact (by omega)
    obtain ⟨hl', hex'⟩ := h'.exact (by omega)
    refine ⟨by simp only [List.length_append]; omega, fun t ht => ?_⟩
    rcases List.mem_append.mp ht with ht | ht
    · obtain ⟨s, hs, hsub⟩ := hex t ht
      exact ⟨s, List.mem_append_left _ hs, hsub⟩
    · obtain ⟨s, hs, hsub⟩ := hex' t ht
      exact ⟨s, List.mem_append_right _ hs, hsub⟩

/-- Paths that others contain may be left out of the walk. -/
theorem Tracks.weaken {T S S' : List (List τ)} (h : Tracks limit T S) (hsub : S ⊆ S')
    (hdom : ∀ s' ∈ S', ∃ s ∈ S, s' ⊆ s) (hlen : S.length ≤ S'.length) : Tracks limit T S' where
  source hne hnil := h.source hne (List.subset_nil.mp (hnil ▸ hsub))
  covers s' hs' := by
    obtain ⟨s, hs, hss⟩ := hdom s' hs'
    obtain ⟨t, ht, hst⟩ := h.covers s hs
    exact ⟨t, ht, List.Subset.trans hss hst⟩
  within t ht e he := by
    obtain ⟨s, hs, hes⟩ := h.within t ht e he
    exact ⟨s, hsub hs, hes⟩
  exact hle := by
    obtain ⟨hl, hex⟩ := h.exact (hlen.trans hle)
    refine ⟨hl.trans hlen, fun t ht => ?_⟩
    obtain ⟨s, hs, hts⟩ := hex t ht
    exact ⟨s, hsub hs, hts⟩

theorem length_flatMap_le {α β : Type*} {g : α → List β} {n : ℕ} : ∀ {l : List α},
    (∀ a ∈ l, (g a).length ≤ n) → (l.flatMap g).length ≤ l.length * n
  | [], _ => by simp
  | a :: l, h => by
      have hhead := h a List.mem_cons_self
      have htail := length_flatMap_le fun b hb => h b (List.mem_cons_of_mem a hb)
      rw [List.flatMap_cons, List.length_append, List.length_cons, Nat.add_mul, Nat.one_mul]
      omega

/-- What every tracked path goes on with is tracked for all of them. -/
theorem Tracks.join {T S Q : List (List τ)} {g : List τ → List (List τ)}
    (h : Tracks limit T S) (hg : ∀ t ∈ T, Tracks limit (g t) (joinPaths [t] Q)) :
    Tracks limit (T.flatMap g) (joinPaths S Q) := by
  have hone : ∀ {t u : List τ}, u ∈ joinPaths [t] Q ↔ ∃ q ∈ Q, u = t ++ q := by
    intro t u
    simp [mem_joinPaths]
  constructor
  · intro hne hnil
    obtain ⟨u, hu⟩ := List.exists_mem_of_ne_nil _ hne
    obtain ⟨t, ht, hut⟩ := List.mem_flatMap.mp hu
    obtain ⟨x, hx⟩ := List.exists_mem_of_ne_nil _ ((hg t ht).source (List.ne_nil_of_mem hut))
    obtain ⟨q, hq, -⟩ := hone.mp hx
    obtain ⟨s, hs⟩ := List.exists_mem_of_ne_nil _ (h.source (List.ne_nil_of_mem ht))
    exact List.ne_nil_of_mem (mem_joinPaths.mpr ⟨s, hs, q, hq, rfl⟩) hnil
  · intro x hx
    obtain ⟨s, hs, q, hq, rfl⟩ := mem_joinPaths.mp hx
    obtain ⟨t, ht, hst⟩ := h.covers s hs
    obtain ⟨u, hu, hsub⟩ := (hg t ht).covers (t ++ q) (hone.mpr ⟨q, hq, rfl⟩)
    exact ⟨u, List.mem_flatMap.mpr ⟨t, ht, hu⟩,
      List.Subset.trans (append_subset_append hst q) hsub⟩
  · intro u hu e he
    obtain ⟨t, ht, hut⟩ := List.mem_flatMap.mp hu
    obtain ⟨x, hx, hex⟩ := (hg t ht).within u hut e he
    obtain ⟨q, hq, rfl⟩ := hone.mp hx
    rcases List.mem_append.mp hex with het | heq
    · obtain ⟨s, hs, hes⟩ := h.within t ht e het
      exact ⟨s ++ q, mem_joinPaths.mpr ⟨s, hs, q, hq, rfl⟩, List.mem_append_left _ hes⟩
    · obtain ⟨s, hs⟩ := List.exists_mem_of_ne_nil _ (h.source (List.ne_nil_of_mem ht))
      exact ⟨s ++ q, mem_joinPaths.mpr ⟨s, hs, q, hq, rfl⟩, List.mem_append_right _ heq⟩
  · intro hlen
    rw [length_joinPaths] at hlen ⊢
    have hparts : ∀ t ∈ T, (g t).length ≤ Q.length ∧
        ∀ u ∈ g t, ∃ s ∈ S, ∃ q ∈ Q, u ⊆ s ++ q := by
      intro t ht
      have hSpos : 0 < S.length := List.length_pos_iff.mpr (h.source (List.ne_nil_of_mem ht))
      have hQle : Q.length ≤ limit := (Nat.le_mul_of_pos_left _ hSpos).trans hlen
      obtain ⟨hl, hex⟩ := (hg t ht).exact (by rw [length_joinPaths]; simpa using hQle)
      rw [length_joinPaths, List.length_singleton, Nat.one_mul] at hl
      refine ⟨hl, fun u hu => ?_⟩
      obtain ⟨x, hx, hux⟩ := hex u hu
      obtain ⟨q, hq, rfl⟩ := hone.mp hx
      have hSle : S.length ≤ limit :=
        (Nat.le_mul_of_pos_right _ (List.length_pos_of_mem hq)).trans hlen
      obtain ⟨s, hs, hts⟩ := (h.exact hSle).2 t ht
      exact ⟨s, hs, q, hq, List.Subset.trans hux (append_subset_append hts q)⟩
    constructor
    · by_cases hQ : Q = []
      · refine (length_flatMap_le fun t ht => (hparts t ht).1).trans ?_
        simp [hQ]
      · have hSle : S.length ≤ limit :=
          (Nat.le_mul_of_pos_right _ (List.length_pos_iff.mpr hQ)).trans hlen
        exact (length_flatMap_le fun t ht => (hparts t ht).1).trans
          (Nat.mul_le_mul_right _ (h.exact hSle).1)
    · intro u hu
      obtain ⟨t, ht, hut⟩ := List.mem_flatMap.mp hu
      obtain ⟨s, hs, q, hq, hsub⟩ := (hparts t ht).2 u hut
      exact ⟨s ++ q, mem_joinPaths.mpr ⟨s, hs, q, hq, rfl⟩, hsub⟩

/-- Too many paths are joined, which only the paths below the limit forbid. -/
theorem Tracks.cap [DecidableEq τ] {T S : List (List τ)} (h : Tracks limit T S) :
    Tracks limit (capPaths limit T) S := by
  rw [capPaths]
  split
  · rename_i hmany
    rw [collapse]
    split
    · exact h
    · rename_i hlong
      have hT : T ≠ [] := fun hnil => hlong (by simp [hnil])
      constructor
      · exact fun _ => h.source hT
      · intro s hs
        obtain ⟨t, ht, hsub⟩ := h.covers s hs
        exact ⟨_, List.mem_singleton_self _, fun e he =>
          List.mem_eraseDups.mpr (List.mem_flatten.mpr ⟨t, ht, hsub he⟩)⟩
      · intro t ht e he
        rw [List.mem_singleton.mp ht] at he
        obtain ⟨u, hu, heu⟩ := List.mem_flatten.mp (List.mem_eraseDups.mp he)
        exact h.within u hu e heu
      · intro hle
        exact absurd (h.exact hle).1 (by omega)
  · exact h

/-- Joining paths loses none of their facts. -/
theorem Tracks.mem_flatten {T S : List (List τ)} (h : Tracks limit T S) {e : τ} :
    e ∈ T.flatten ↔ e ∈ S.flatten := by
  simp only [List.mem_flatten]
  constructor
  · rintro ⟨t, ht, he⟩
    exact h.within t ht e he
  · rintro ⟨s, hs, he⟩
    obtain ⟨t, ht, hsub⟩ := h.covers s hs
    exact ⟨t, ht, hsub he⟩

/-! ## Walks -/

theorem Walks.id : Walks limit (fun T => T) ([[]] : List (List τ)) := fun T S h => by
  rwa [joinPaths_one]

theorem Walks.comp {f g : List (List τ) → List (List τ)} {P Q : List (List τ)}
    (hf : Walks limit f P) (hg : Walks limit g Q) :
    Walks limit (fun T => g (f T)) (joinPaths P Q) := fun T S h => by
  rw [← joinPaths_assoc]
  exact hg _ _ (hf T S h)

theorem Walks.weaken {f : List (List τ) → List (List τ)} {Q Q' : List (List τ)}
    (hf : Walks limit f Q) (hsub : Q ⊆ Q') (hdom : ∀ q' ∈ Q', ∃ q ∈ Q, q' ⊆ q)
    (hlen : Q.length ≤ Q'.length) : Walks limit f Q' := fun T S h => by
  refine (hf T S h).weaken (fun x hx => ?_) (fun x hx => ?_) ?_
  · obtain ⟨s, hs, q, hq, rfl⟩ := mem_joinPaths.mp hx
    exact mem_joinPaths.mpr ⟨s, hs, q, hsub hq, rfl⟩
  · obtain ⟨s, hs, q', hq', rfl⟩ := mem_joinPaths.mp hx
    obtain ⟨q, hq, hqq⟩ := hdom q' hq'
    exact ⟨s ++ q, mem_joinPaths.mpr ⟨s, hs, q, hq, rfl⟩, List.append_subset.mpr
      ⟨List.subset_append_left s q, List.subset_append_of_subset_right s hqq⟩⟩
  · rw [length_joinPaths, length_joinPaths]
    exact Nat.mul_le_mul_left _ hlen

/-- Facts that hold on every path. -/
theorem Walks.add {new facts : List τ} (hsub : facts ⊆ new) (hsup : new ⊆ facts) :
    Walks limit (fun T => T.map fun t => t ++ new) [facts] := fun T S h => by
  dsimp only
  rw [List.map_eq_flatMap]
  refine h.join fun t _ => ?_
  have hjoin : joinPaths [t] [facts] = [t ++ facts] := rfl
  rw [hjoin]
  refine ⟨fun _ => List.cons_ne_nil _ _, ?_, ?_, fun _ => ⟨le_rfl, ?_⟩⟩
  · intro s hs
    rw [List.mem_singleton.mp hs]
    exact ⟨_, List.mem_singleton_self _, List.append_subset.mpr
      ⟨List.subset_append_left t new, List.subset_append_of_subset_right t hsub⟩⟩
  · intro u hu e he
    rw [List.mem_singleton.mp hu] at he
    exact ⟨_, List.mem_singleton_self _, (List.mem_append.mp he).elim
      (List.mem_append_left _) fun h => List.mem_append_right _ (hsup h)⟩
  · intro u hu
    rw [List.mem_singleton.mp hu]
    exact ⟨_, List.mem_singleton_self _, List.append_subset.mpr
      ⟨List.subset_append_left t facts, List.subset_append_of_subset_right t hsup⟩⟩

theorem joinPaths_append_right (Q R : List (List τ)) (t : List τ) :
    joinPaths [t] (Q ++ R) = joinPaths [t] Q ++ joinPaths [t] R := by
  simp [joinPaths]

theorem tracks_runs {t : List τ} : ∀ {runs : List (List (List τ) → List (List τ))}
    {Qs : List (List (List τ))}, List.Forall₂ (Walks limit) runs Qs →
      Tracks limit (runs.flatMap fun run => run [t]) (joinPaths [t] Qs.flatten)
  | [], [], .nil => ⟨fun h => absurd rfl h, by simp [joinPaths], by simp, by simp [joinPaths]⟩
  | run :: runs, Q :: Qs, .cons hrun hrest => by
      rw [List.flatMap_cons, List.flatten_cons, joinPaths_append_right]
      exact (hrun _ _ (Tracks.refl [t])).append (tracks_runs hrest)

/-- A branching is as good as its branches. -/
theorem Walks.branch [DecidableEq τ] {runs : List (List (List τ) → List (List τ))}
    {Qs : List (List (List τ))} (h : List.Forall₂ (Walks limit) runs Qs) (complete : Bool) :
    Walks limit (fun T => capPaths limit (branchOut runs complete T))
      (Qs.flatten ++ if complete then [] else [[]]) := fun T S hT => by
  refine (hT.join fun t _ => ?_).cap
  rw [joinPaths_append_right]
  refine (tracks_runs h).append ?_
  cases complete with
  | true => exact ⟨fun h => absurd rfl h, by simp [joinPaths], by simp, by simp [joinPaths]⟩
  | false =>
    rw [if_neg Bool.false_ne_true, if_neg Bool.false_ne_true, joinPaths_one]
    exact Tracks.refl [t]

end PathCap

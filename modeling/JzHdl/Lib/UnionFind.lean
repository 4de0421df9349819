import Mathlib.Data.Fintype.Card
import Mathlib.Logic.Function.Basic
import Mathlib.Logic.Relation

/-! # Union-find

Disjoint sets as a forest of parent links. Ranks grow along the links, so every
element has one root. Finding a root halves the path to it; joining two sets
links their roots. After any list of joins two elements have one root exactly
when the joined pairs connect them.
-/

/-- A forest on finitely many elements. The rank of an element is below that of its parent. -/
structure UnionFind (n : ℕ) where

  parent : Fin n → Fin n

  rank : Fin n → ℕ

  rank_lt : ∀ i, parent i ≠ i → rank i < rank (parent i)

namespace UnionFind

variable {n : ℕ}

def singletons (n : ℕ) : UnionFind n := ⟨id, fun _ => 0, fun _ h => absurd rfl h⟩

/-- Link an element to its grandparent. -/
def halve (u : UnionFind n) (i : Fin n) : UnionFind n where
  parent := Function.update u.parent i (u.parent (u.parent i))
  rank := u.rank
  rank_lt j hj := by
    by_cases hji : j = i
    · subst hji
      rw [Function.update_self] at hj ⊢
      by_cases hroot : u.parent j = j
      · rw [hroot, hroot] at hj
        exact absurd rfl hj
      · have hup := u.rank_lt j hroot
        by_cases hend : u.parent (u.parent j) = u.parent j
        · rwa [hend]
        · exact hup.trans (u.rank_lt _ hend)
    · rw [Function.update_of_ne hji] at hj ⊢
      exact u.rank_lt j hj

/-- The walk to the root; the first argument bounds its steps. -/
def findFrom : ℕ → UnionFind n → Fin n → Fin n × UnionFind n
  | 0, u, i => (i, u)
  | k + 1, u, i =>
    if u.parent i = i then (i, u) else findFrom k (u.halve i) ((u.halve i).parent i)

def find (u : UnionFind n) (i : Fin n) : Fin n × UnionFind n := findFrom n u i

/-! ## Roots -/

/-- Following the parents of an element leads to a root. -/
inductive RootOf (u : UnionFind n) : Fin n → Fin n → Prop

  | root {i : Fin n} : u.parent i = i → RootOf u i i

  | step {i r : Fin n} : u.parent i ≠ i → RootOf u (u.parent i) r → RootOf u i r

variable {u : UnionFind n} {i j r s : Fin n}

theorem RootOf.isRoot (h : RootOf u i r) : u.parent r = r := by
  induction h with
  | root h => exact h
  | step _ _ ih => exact ih

theorem RootOf.unique (h : RootOf u i r) (h' : RootOf u i s) : r = s := by
  induction h with
  | root h =>
    cases h' with
    | root _ => rfl
    | step hne _ => exact absurd h hne
  | step hne _ ih =>
    cases h' with
    | root h => exact absurd h hne
    | step _ h' => exact ih h'

theorem RootOf.of_parent (h : RootOf u (u.parent i) r) : RootOf u i r := by
  by_cases hroot : u.parent i = i
  · rwa [hroot] at h
  · exact .step hroot h

theorem RootOf.parent (h : RootOf u i r) : RootOf u (u.parent i) r := by
  cases h with
  | root h => rw [h]; exact .root h
  | step _ h => exact h

/-- The elements of higher rank, which a walk can still meet. -/
def above (u : UnionFind n) (i : Fin n) : ℕ := (Finset.univ.filter fun j => u.rank i < u.rank j).card

theorem above_lt (h : u.rank i < u.rank j) : u.above j < u.above i := by
  refine Finset.card_lt_card ⟨fun k hk => ?_, fun hsub => ?_⟩
  · rw [Finset.mem_filter] at hk ⊢
    exact ⟨hk.1, h.trans hk.2⟩
  · have hmem := hsub (Finset.mem_filter.mpr ⟨Finset.mem_univ j, h⟩)
    exact Nat.lt_irrefl _ (Finset.mem_filter.mp hmem).2

theorem above_lt_size (u : UnionFind n) (i : Fin n) : u.above i < n := by
  have hlt : u.above i < (Finset.univ : Finset (Fin n)).card := by
    refine Finset.card_lt_card ⟨Finset.filter_subset _ _, fun hsub => ?_⟩
    exact Nat.lt_irrefl _ (Finset.mem_filter.mp (hsub (Finset.mem_univ i))).2
  rwa [Finset.card_univ, Fintype.card_fin] at hlt

theorem exists_root (u : UnionFind n) (i : Fin n) : ∃ r, RootOf u i r := by
  induction h : u.above i using Nat.strong_induction_on generalizing i with
  | _ k ih =>
    by_cases hroot : u.parent i = i
    · exact ⟨i, .root hroot⟩
    · have hlt := above_lt (u.rank_lt i hroot)
      obtain ⟨r, hr⟩ := ih _ (h ▸ hlt) (u.parent i) rfl
      exact ⟨r, .step hroot hr⟩

/-! ## Finding -/

theorem halve_parent_self : (u.halve i).parent i = u.parent (u.parent i) := Function.update_self ..

theorem halve_parent_of_ne (h : j ≠ i) : (u.halve i).parent j = u.parent j :=
  Function.update_of_ne h ..

theorem rootOf_halve_of (h : RootOf u j r) : RootOf (u.halve i) j r := by
  induction h with
  | @root j h =>
    refine .root ?_
    by_cases hji : j = i
    · rw [← hji, halve_parent_self, h, h]
    · rw [halve_parent_of_ne hji, h]
  | @step j r hne _ ih =>
    by_cases hji : j = i
    · subst hji
      refine .of_parent ?_
      rw [halve_parent_self]
      by_cases hend : u.parent (u.parent j) = u.parent j
      · rwa [hend]
      · have hup := ih.parent
        rwa [halve_parent_of_ne hne] at hup
    · refine .of_parent ?_
      rwa [halve_parent_of_ne hji]

theorem rootOf_halve : RootOf (u.halve i) j r ↔ RootOf u j r := by
  constructor
  · intro h
    obtain ⟨s, hs⟩ := u.exists_root j
    rwa [h.unique (rootOf_halve_of hs)]
  · exact rootOf_halve_of

theorem findFrom_spec : ∀ (k : ℕ) (u : UnionFind n) (i : Fin n), u.above i < k →
    RootOf u i (findFrom k u i).1 ∧ ∀ j r, RootOf (findFrom k u i).2 j r ↔ RootOf u j r
  | k + 1, u, i, hk => by
      unfold findFrom
      split
      · rename_i hroot
        exact ⟨.root hroot, fun _ _ => Iff.rfl⟩
      · rename_i hroot
        have hup : u.rank i < u.rank ((u.halve i).parent i) := by
          rw [halve_parent_self]
          have hone := u.rank_lt i hroot
          by_cases hend : u.parent (u.parent i) = u.parent i
          · rwa [hend]
          · exact hone.trans (u.rank_lt _ hend)
        have hless : (u.halve i).above ((u.halve i).parent i) < k :=
          Nat.lt_of_lt_of_le (above_lt hup) (Nat.le_of_lt_succ hk)
        obtain ⟨hfound, hsame⟩ := findFrom_spec k (u.halve i) _ hless
        exact ⟨rootOf_halve.mp hfound.of_parent, fun j r => (hsame j r).trans rootOf_halve⟩

theorem find_rootOf (u : UnionFind n) (i : Fin n) : RootOf u i (u.find i).1 :=
  (findFrom_spec n u i (u.above_lt_size i)).1

theorem rootOf_find (u : UnionFind n) (i : Fin n) : RootOf (u.find i).2 j r ↔ RootOf u j r :=
  (findFrom_spec n u i (u.above_lt_size i)).2 j r

/-- The root an element stands under. -/
def root (u : UnionFind n) (i : Fin n) : Fin n := (u.find i).1

theorem rootOf_iff_root : RootOf u i r ↔ u.root i = r :=
  ⟨fun h => (u.find_rootOf i).unique h, fun h => h ▸ u.find_rootOf i⟩

theorem rootOf_root (u : UnionFind n) (i : Fin n) : RootOf u i (u.root i) := u.find_rootOf i

@[simp]
theorem root_find : (u.find i).2.root j = u.root j :=
  rootOf_iff_root.mp ((u.rootOf_find i).mpr (u.rootOf_root j))

theorem parent_root (u : UnionFind n) (i : Fin n) : u.parent (u.root i) = u.root i :=
  (u.rootOf_root i).isRoot

theorem root_eq_self (h : u.parent i = i) : u.root i = i := rootOf_iff_root.mp (.root h)

@[simp]
theorem root_singletons : (singletons n).root i = i := root_eq_self rfl

/-! ## Joining -/

/-- Link a root below another one, whose rank grows when the two are equal. -/
def link (u : UnionFind n) (x y : Fin n) (hx : u.parent x = x) (hy : u.parent y = y) (hne : x ≠ y)
    (hle : u.rank x ≤ u.rank y) : UnionFind n where
  parent := Function.update u.parent x y
  rank := if u.rank x = u.rank y then Function.update u.rank y (u.rank y + 1) else u.rank
  rank_lt j hj := by
    have hold : ∀ k, u.rank k ≤
        (if u.rank x = u.rank y then Function.update u.rank y (u.rank y + 1) else u.rank) k := by
      intro k
      split
      · by_cases hk : k = y
        · subst hk; rw [Function.update_self]; omega
        · rw [Function.update_of_ne hk]
      · rfl
    by_cases hjx : j = x
    · subst hjx
      rw [Function.update_self]
      split
      · rw [Function.update_self, Function.update_of_ne hne]
        omega
      · omega
    · rw [Function.update_of_ne hjx] at hj ⊢
      have hjy : j ≠ y := fun h => hj (h ▸ hy)
      have hrank : (if u.rank x = u.rank y then Function.update u.rank y (u.rank y + 1)
          else u.rank) j = u.rank j := by
        split
        · rw [Function.update_of_ne hjy]
        · rfl
      rw [hrank]
      exact Nat.lt_of_lt_of_le (u.rank_lt j hj) (hold _)

/-- Join the sets of two elements by rank. -/
def union (u : UnionFind n) (a b : Fin n) : UnionFind n :=
  let (ra, u₁) := u.find a
  let (rb, u₂) := u₁.find b
  if hne : ra = rb then u₂
  else if hroots : u₂.parent ra = ra ∧ u₂.parent rb = rb then
    if hlt : u₂.rank ra < u₂.rank rb then u₂.link ra rb hroots.1 hroots.2 hne hlt.le
    else u₂.link rb ra hroots.2 hroots.1 (Ne.symm hne) (Nat.le_of_not_lt hlt)
  else u₂

section

variable {x y a b : Fin n} {hx : u.parent x = x} {hy : u.parent y = y} {hne : x ≠ y}
  {hle : u.rank x ≤ u.rank y}

theorem link_parent_self : (u.link x y hx hy hne hle).parent x = y := Function.update_self ..

theorem link_parent_of_ne (h : j ≠ x) : (u.link x y hx hy hne hle).parent j = u.parent j :=
  Function.update_of_ne h ..

theorem rootOf_link_of_ne (h : RootOf u j r) (hr : r ≠ x) :
    RootOf (u.link x y hx hy hne hle) j r := by
  induction h with
  | root h =>
    refine .root ?_
    rwa [link_parent_of_ne hr]
  | @step j r hup _ ih =>
    have hjx : j ≠ x := fun h => hup (h ▸ hx)
    refine .of_parent ?_
    rw [link_parent_of_ne hjx]
    exact ih hr

theorem rootOf_link_self (h : RootOf u j r) (hr : r = x) :
    RootOf (u.link x y hx hy hne hle) j y := by
  induction h with
  | @root j h =>
    subst hr
    refine .of_parent ?_
    rw [link_parent_self]
    exact rootOf_link_of_ne (.root hy) (Ne.symm hne)
  | @step j r hup _ ih =>
    have hjx : j ≠ x := fun h => hup (h ▸ hx)
    refine .of_parent ?_
    rw [link_parent_of_ne hjx]
    exact ih hr

theorem root_link : (u.link x y hx hy hne hle).root i = if u.root i = x then y else u.root i := by
  rw [← rootOf_iff_root]
  split
  · rename_i h
    exact rootOf_link_self (u.rootOf_root i) h
  · rename_i h
    exact rootOf_link_of_ne (u.rootOf_root i) h

theorem root_link_eq_iff :
    (u.link x y hx hy hne hle).root i = (u.link x y hx hy hne hle).root j ↔
      u.root i = u.root j ∨ (u.root i = x ∧ u.root j = y) ∨ (u.root i = y ∧ u.root j = x) := by
  rw [root_link, root_link]
  split <;> split <;> grind

/-- Joining two elements equates the roots of their sets and no others. -/
theorem root_union_eq_iff : (u.union a b).root i = (u.union a b).root j ↔
    u.root i = u.root j ∨ (u.root i = u.root a ∧ u.root j = u.root b) ∨
      (u.root i = u.root b ∧ u.root j = u.root a) := by
  have hra : (u.find a).1 = u.root a := rfl
  have hrb : ((u.find a).2.find b).1 = u.root b := by
    change (u.find a).2.root b = u.root b
    exact root_find
  have hroot : ∀ k, ((u.find a).2.find b).2.root k = u.root k := fun k => by
    rw [root_find, root_find]
  have hparent : ∀ k, ((u.find a).2.find b).2.parent (u.root k) = u.root k := fun k => by
    rw [← hroot k]
    exact parent_root _ _
  simp only [union, hra, hrb]
  split
  · rename_i heq
    rw [hroot, hroot, heq]
    constructor
    · exact .inl
    · rintro (h | h | h)
      · exact h
      · rw [h.1, h.2]
      · rw [h.1, h.2]
  · rw [dif_pos ⟨hparent a, hparent b⟩]
    split
    · rw [root_link_eq_iff, hroot, hroot]
    · rw [root_link_eq_iff, hroot, hroot, or_congr_right or_comm]

end

/-! ## Lists of joins -/

def unions (u : UnionFind n) (pairs : List (Fin n × Fin n)) : UnionFind n :=
  pairs.foldl (fun u p => u.union p.1 p.2) u

theorem root_unions_of_eq : ∀ (pairs : List (Fin n × Fin n)) {u : UnionFind n},
    u.root i = u.root j → (u.unions pairs).root i = (u.unions pairs).root j
  | [], _, h => h
  | _ :: pairs, _, h => root_unions_of_eq pairs (root_union_eq_iff.mpr (.inl h))

theorem root_unions_of_mem : ∀ (pairs : List (Fin n × Fin n)) {u : UnionFind n},
    (i, j) ∈ pairs → (u.unions pairs).root i = (u.unions pairs).root j
  | p :: pairs, u, h => by
      rcases List.mem_cons.mp h with rfl | h
      · exact root_unions_of_eq pairs (root_union_eq_iff.mpr (.inr (.inl ⟨rfl, rfl⟩)))
      · exact root_unions_of_mem pairs h

/-- Joins stay inside an equivalence that holds the joined pairs. -/
theorem root_unions_sound {s : Fin n → Fin n → Prop} (hs : Equivalence s) :
    ∀ (pairs : List (Fin n × Fin n)) {u : UnionFind n}, (∀ i j, u.root i = u.root j → s i j) →
      (∀ p ∈ pairs, s p.1 p.2) → (u.unions pairs).root i = (u.unions pairs).root j → s i j
  | [], _, hu, _, h => hu i j h
  | p :: pairs, u, hu, hp, h => by
      refine root_unions_sound hs pairs (fun i j hij => ?_)
        (fun q hq => hp q (List.mem_cons_of_mem _ hq)) h
      have hpair := hp p List.mem_cons_self
      rcases root_union_eq_iff.mp hij with h | ⟨hi, hj⟩ | ⟨hi, hj⟩
      · exact hu i j h
      · exact hs.trans (hu _ _ hi) (hs.trans hpair (hu _ _ hj.symm))
      · exact hs.trans (hu _ _ hi) (hs.trans (hs.symm hpair) (hu _ _ hj.symm))

/-- Two elements have one root exactly when the joined pairs connect them. -/
theorem root_unions_singletons (pairs : List (Fin n × Fin n)) :
    ((singletons n).unions pairs).root i = ((singletons n).unions pairs).root j ↔
      Relation.EqvGen (fun i j => (i, j) ∈ pairs) i j := by
  constructor
  · refine root_unions_sound (Relation.EqvGen.is_equivalence _) pairs (fun i j h => ?_)
      fun p hp => .rel _ _ hp
    rw [root_singletons, root_singletons] at h
    exact h ▸ .refl _
  · intro h
    induction h with
    | rel i j h => exact root_unions_of_mem pairs h
    | refl _ => rfl
    | symm _ _ _ ih => exact ih.symm
    | trans _ _ _ _ _ ih₁ ih₂ => exact ih₁.trans ih₂

end UnionFind

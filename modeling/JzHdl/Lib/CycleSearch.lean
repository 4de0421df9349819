import Mathlib.Logic.Relation
import Mathlib.Logic.Function.Basic
import Mathlib.Data.List.Basic
import Mathlib.Data.List.Chain
import Mathlib.Tactic.Common
import Mathlib.Data.Finset.Card

/-! # Cycle search

A depth-first search with an explicit stack and three colours. A gray node lies
on the stack, and a black node has black successors only, so that no path from
it goes on for ever. The search meets a gray node exactly when there is a cycle.
-/

namespace CycleSearch

abbrev Edge := ℕ × ℕ

def Step (edges : List Edge) (a b : ℕ) : Prop := (a, b) ∈ edges

/-- Some node reaches itself in one or more steps. -/
def Cyclic (edges : List Edge) : Prop := ∃ v, Relation.TransGen (Step edges) v v

theorem Cyclic.mono {edges edges' : List Edge} (h : edges ⊆ edges') (hc : Cyclic edges) :
    Cyclic edges' :=
  hc.imp fun _ hv => hv.lift id fun _ _ hab => h hab

/-! ## Search -/

inductive Color | white | gray | black
  deriving DecidableEq

structure Search where

  color : ℕ → Color

  stack : List ℕ

  found : Bool

section

variable (edges : List Edge) (count : ℕ)

/-- The targets of a node in the order of the edges. -/
def successors (v : ℕ) : List ℕ :=
  (edges.filter fun e => e.1 = v ∧ e.2 < count).map Prod.snd

/-- The node on top of the stack: its first successor that is not done is pushed or closes a
cycle, and without one the node is done. -/
def visitTop (s : Search) : Search :=
  match s.stack with
  | [] => s
  | v :: rest =>
    match (successors edges count v).find? fun w => s.color w ≠ .black with
    | none => { s with color := Function.update s.color v .black, stack := rest }
    | some w =>
      if s.color w = .gray then { s with found := true }
      else { s with color := Function.update s.color w .gray, stack := w :: s.stack }

def runStack : ℕ → Search → Search
  | 0, s => s
  | fuel + 1, s =>
    if s.stack = [] ∨ s.found = true then s else runStack fuel (visitTop edges count s)

/-- A node that is not visited yet starts a search of its own. -/
def visitRoot (s : Search) (start : ℕ) : Search :=
  if s.found = true ∨ s.color start ≠ .white then s
  else if successors edges count start = [] then
    { s with color := Function.update s.color start .black }
  else
    runStack edges count (2 * count)
      { s with color := Function.update s.color start .gray, stack := [start] }

def hasCycle : Bool :=
  ((List.range count).foldl (visitRoot edges count) ⟨fun _ => .white, [], false⟩).found

end

/-! ## Correctness -/

section

variable {edges : List Edge} {count : ℕ}

theorem mem_successors {v w : ℕ} : w ∈ successors edges count v ↔
    Step edges v w ∧ w < count := by
  simp only [successors, List.mem_map, List.mem_filter, decide_eq_true_eq, Step]
  constructor
  · rintro ⟨⟨a, b⟩, ⟨hmem, rfl, hb⟩, rfl⟩
    exact ⟨hmem, hb⟩
  · rintro ⟨hmem, hw⟩
    exact ⟨(v, w), ⟨hmem, rfl, hw⟩, rfl⟩

/-- No infinite path starts at the node. -/
def Done (edges : List Edge) (v : ℕ) : Prop := Acc (fun b a => Step edges a b) v

theorem Done.not_cycle {v : ℕ} (h : Done edges v) :
    ¬ Relation.TransGen (Step edges) v v := by
  intro hcycle
  have hacc : Acc (Relation.TransGen fun b a => Step edges a b) v := acc_transGen_iff.mpr h
  have hswap : Relation.TransGen (fun b a => Step edges a b) v v :=
    Relation.transGen_swap.mp hcycle
  induction hacc with
  | intro x _ ih => exact ih x hswap (acc_transGen_iff.mp (Acc.intro x ‹_›)) hcycle hswap

structure Search.Inv (edges : List Edge) (count : ℕ) (s : Search) : Prop where

  gray_iff : ∀ v, s.color v = .gray ↔ v ∈ s.stack

  nodup : s.stack.Nodup

  bound : ∀ v ∈ s.stack, v < count

  chain : s.stack.IsChain fun a b => Step edges b a

  black : ∀ v, s.color v = .black → Done edges v

  found : s.found = true → Cyclic edges

theorem reaches_top {v : ℕ} : ∀ {rest : List ℕ},
    (v :: rest).IsChain (fun a b => Step edges b a) → ∀ w ∈ v :: rest,
      Relation.ReflTransGen (Step edges) w v
  | [], _, w, hw => by rw [List.mem_singleton.mp hw]
  | u :: rest, h, w, hw => by
      obtain ⟨huv, hrest⟩ := List.isChain_cons_cons.mp h
      rcases List.mem_cons.mp hw with rfl | hw
      · exact .refl
      · exact (reaches_top hrest w hw).tail huv

theorem visitTop_inv (hedges : ∀ e ∈ edges, e.2 < count) {s : Search} (h : s.Inv edges count) :
    (visitTop edges count s).Inv edges count := by
  obtain ⟨color, stack, found⟩ := s
  obtain ⟨hgray, hnodup, hbound, hchain, hblack, hfound⟩ := h
  cases stack with
  | nil => exact ⟨hgray, hnodup, hbound, hchain, hblack, hfound⟩
  | cons v rest =>
    dsimp only at hgray hnodup hbound hchain hblack hfound
    rw [visitTop]
    dsimp only
    rcases hfind : (successors edges count v).find? fun w => color w ≠ .black with _ | w
    · -- every successor is black
      have hdone : Done edges v := Acc.intro v fun w hw => hblack w <| by
        have := List.find?_eq_none.mp hfind w (mem_successors.mpr ⟨hw, hedges _ hw⟩)
        simpa using this
      refine ⟨fun u => ?_, hnodup.of_cons, fun u hu => hbound u (List.mem_cons_of_mem _ hu),
        hchain.of_cons, fun u hu => ?_, hfound⟩
      · by_cases huv : u = v
        · subst huv
          simp [(List.nodup_cons.mp hnodup).1]
        · simp only [Function.update_of_ne huv, hgray u, List.mem_cons, huv, false_or]
      · by_cases huv : u = v
        · exact huv ▸ hdone
        · exact hblack u (by simpa only [Function.update_of_ne huv] using hu)
    · obtain ⟨hstep, hw⟩ := mem_successors.mp (List.mem_of_find?_eq_some hfind)
      have hne : color w ≠ .black := by simpa using List.find?_some hfind
      dsimp only
      split
      · -- a gray successor closes a cycle
        rename_i hg
        refine ⟨hgray, hnodup, hbound, hchain, hblack, fun _ => ⟨w, ?_⟩⟩
        exact Relation.TransGen.tail' (reaches_top hchain w ((hgray w).mp hg)) hstep
      · rename_i hg
        have hnot : w ∉ v :: rest := fun hmem => hg ((hgray w).mpr hmem)
        refine ⟨fun u => ?_, List.nodup_cons.mpr ⟨hnot, hnodup⟩, ?_,
          List.isChain_cons_cons.mpr ⟨hstep, hchain⟩, fun u hu => ?_, hfound⟩
        · by_cases huw : u = w
          · subst huw
            simp
          · simp only [Function.update_of_ne huw, hgray u, List.mem_cons, huw, false_or]
        · intro u hu
          rcases List.mem_cons.mp hu with rfl | hu
          · exact hw
          · exact hbound u hu
        · by_cases huw : u = w
          · subst huw
            simp at hu
          · exact hblack u (by simpa only [Function.update_of_ne huw] using hu)

theorem update_visited {color : ℕ → Color} {c : Color} {u : ℕ} (v : ℕ) (hc : c ≠ .white)
    (h : u = v ∨ color u ≠ .white) : Function.update color v c u ≠ .white := by
  by_cases huv : u = v
  · rwa [huv, Function.update_self]
  · rw [Function.update_of_ne huv]
    exact h.resolve_left huv

/-- A node that is visited once stays visited. -/
theorem visitTop_visited {s : Search} {u : ℕ} (h : s.color u ≠ .white) :
    (visitTop edges count s).color u ≠ .white := by
  rw [visitTop]
  split
  · exact h
  · split
    · exact update_visited _ Color.noConfusion (.inr h)
    · split
      · exact h
      · exact update_visited _ Color.noConfusion (.inr h)

/-! ## Termination -/

def Search.whites (count : ℕ) (s : Search) : Finset ℕ :=
  (Finset.range count).filter fun v => s.color v = .white

/-- What is left to do: a white node is pushed and popped, a gray one is popped. -/
def Search.work (count : ℕ) (s : Search) : ℕ := 2 * (s.whites count).card + s.stack.length

theorem visitTop_work {s : Search} (h : s.Inv edges count) (hstack : s.stack ≠ []) :
    (visitTop edges count s).found = true ∨
      (visitTop edges count s).work count < s.work count := by
  obtain ⟨color, stack, found⟩ := s
  obtain ⟨hgray, hnodup, hbound, hchain, hblack, hfound⟩ := h
  cases stack with
  | nil => exact absurd rfl hstack
  | cons v rest =>
    dsimp only at hgray
    rw [visitTop]
    dsimp only
    rcases hfind : (successors edges count v).find? fun w => color w ≠ .black with _ | w
    · refine .inr ?_
      have hle : (Search.whites count ⟨Function.update color v .black, rest, found⟩) ⊆
          Search.whites count ⟨color, v :: rest, found⟩ := by
        intro u hu
        simp only [Search.whites, Finset.mem_filter] at hu ⊢
        refine ⟨hu.1, ?_⟩
        by_cases huv : u = v
        · subst huv
          simp at hu
        · simpa only [Function.update_of_ne huv] using hu.2
      have := Finset.card_le_card hle
      simp only [Search.work, List.length_cons]
      omega
    · obtain ⟨hstep, hw⟩ := mem_successors.mp (List.mem_of_find?_eq_some hfind)
      have hne : color w ≠ .black := by simpa using List.find?_some hfind
      dsimp only
      split
      · exact .inl rfl
      · rename_i hg
        refine .inr ?_
        have hwhite : color w = .white := by
          cases hc : color w with
          | white => rfl
          | gray => exact absurd hc hg
          | black => exact absurd hc hne
        have hlt : (Search.whites count ⟨Function.update color w .gray, w :: v :: rest, found⟩) ⊂
            Search.whites count ⟨color, v :: rest, found⟩ := by
          refine Finset.ssubset_iff_of_subset (fun u hu => ?_) |>.mpr ⟨w, ?_, ?_⟩
          · simp only [Search.whites, Finset.mem_filter] at hu ⊢
            refine ⟨hu.1, ?_⟩
            by_cases huw : u = w
            · subst huw
              exact hwhite
            · simpa only [Function.update_of_ne huw] using hu.2
          · simp [Search.whites, hw, hwhite]
          · simp [Search.whites]
        have := Finset.card_lt_card hlt
        simp only [Search.work, List.length_cons]
        omega

theorem runStack_spec (hedges : ∀ e ∈ edges, e.2 < count) : ∀ (fuel : ℕ) {s : Search},
    s.Inv edges count → s.work count ≤ fuel →
      (runStack edges count fuel s).Inv edges count ∧
      ((runStack edges count fuel s).found = true ∨ (runStack edges count fuel s).stack = []) ∧
      ∀ u, s.color u ≠ .white → (runStack edges count fuel s).color u ≠ .white
  | 0, s, h, hwork => by
      have hnil : s.stack = [] := List.eq_nil_of_length_eq_zero (by
        rw [Search.work] at hwork
        omega)
      exact ⟨h, .inr hnil, fun _ hu => hu⟩
  | fuel + 1, s, h, hwork => by
      rw [runStack]
      split
      · rename_i hstop
        exact ⟨h, hstop.symm, fun _ hu => hu⟩
      · rename_i hgo
        have hstack : s.stack ≠ [] := fun hs => hgo (.inl hs)
        have hinv := visitTop_inv hedges h
        rcases visitTop_work h hstack with hfound | hless
        · have hstay : runStack edges count fuel (visitTop edges count s) =
              visitTop edges count s := by
            cases fuel with
            | zero => rfl
            | succ fuel => rw [runStack, if_pos (.inr hfound)]
          rw [hstay]
          exact ⟨hinv, .inl hfound, fun _ hu => visitTop_visited hu⟩
        · obtain ⟨hres, hend, hvisited⟩ := runStack_spec hedges fuel hinv (by omega)
          exact ⟨hres, hend, fun u hu => hvisited u (visitTop_visited hu)⟩

/-! ## All roots -/

/-- After the first roots either a cycle is found or all of them are done. -/
structure RootsDone (edges : List Edge) (count k : ℕ) (s : Search) : Prop where

  inv : s.Inv edges count

  rest : s.found = true ∨ s.stack = [] ∧ ∀ v < k, s.color v ≠ .white

theorem Search.Inv.leaf {s : Search} (h : s.Inv edges count) (hstack : s.stack = []) {k : ℕ}
    (hnone : ∀ w, ¬ Step edges k w) :
    Search.Inv edges count { s with color := Function.update s.color k .black } := by
  obtain ⟨hgray, hnodup, hbound, hchain, hblack, hcycle⟩ := h
  refine ⟨fun u => ?_, hnodup, hbound, hchain, fun u hu => ?_, hcycle⟩
  · by_cases huk : u = k
    · subst huk
      simp [hstack]
    · simp only [Function.update_of_ne huk, hgray u]
  · by_cases huk : u = k
    · subst huk
      exact Acc.intro u fun w hw => absurd hw (hnone w)
    · exact hblack u (by simpa only [Function.update_of_ne huk] using hu)

theorem Search.Inv.start {s : Search} (h : s.Inv edges count) (hstack : s.stack = []) {k : ℕ}
    (hk : k < count) :
    Search.Inv edges count
      { s with color := Function.update s.color k .gray, stack := [k] } := by
  obtain ⟨hgray, hnodup, hbound, hchain, hblack, hcycle⟩ := h
  refine ⟨fun u => ?_, List.nodup_singleton k, fun u hu => ?_, List.isChain_singleton k,
    fun u hu => ?_, hcycle⟩
  · by_cases huk : u = k
    · subst huk
      simp
    · simp only [Function.update_of_ne huk, hgray u, hstack, List.mem_singleton, huk,
        List.not_mem_nil]
  · rwa [List.mem_singleton.mp hu]
  · by_cases huk : u = k
    · subst huk
      simp at hu
    · exact hblack u (by simpa only [Function.update_of_ne huk] using hu)

/-- One root costs at most two visits a node. -/
theorem Search.start_work (s : Search) {k : ℕ} (hk : k < count) :
    Search.work count { s with color := Function.update s.color k .gray, stack := [k] } ≤
      2 * count := by
  have hlt : (Search.whites count
      { s with color := Function.update s.color k .gray, stack := [k] }) ⊂
        Finset.range count :=
    (Finset.ssubset_iff_of_subset (Finset.filter_subset _ _)).mpr
      ⟨k, Finset.mem_range.mpr hk, by simp⟩
  have hcard := Finset.card_lt_card hlt
  rw [Finset.card_range] at hcard
  simp only [Search.work, List.length_singleton]
  omega

theorem visitRoot_spec (hedges : ∀ e ∈ edges, e.2 < count) {k : ℕ} (hk : k < count) {s : Search}
    (h : RootsDone edges count k s) :
    RootsDone edges count (k + 1) (visitRoot edges count s k) := by
  obtain ⟨hinv, hrest⟩ := h
  have hnext : ∀ {t : Search}, (∀ v < k, t.color v ≠ .white) → t.color k ≠ .white →
      ∀ v < k + 1, t.color v ≠ .white := fun hold hnew v hv => by
    rcases Nat.lt_succ_iff_lt_or_eq.mp hv with hv | rfl
    · exact hold v hv
    · exact hnew
  rw [visitRoot]
  split
  · rename_i hskip
    refine ⟨hinv, ?_⟩
    rcases hrest with hfound | ⟨hstack, hold⟩
    · exact .inl hfound
    · exact hskip.imp_right fun hk => ⟨hstack, hnext hold hk⟩
  · rename_i hgo
    obtain ⟨hfound, hwhite⟩ := not_or.mp hgo
    obtain ⟨hstack, hold⟩ := hrest.resolve_left hfound
    have hkeep : ∀ c ≠ Color.white, ∀ v, (v < k ∨ v = k) →
        Function.update s.color k c v ≠ .white := fun c hc v hv =>
      update_visited k hc (hv.symm.imp_right fun hlt => hold v hlt)
    split
    · rename_i hnone
      refine ⟨hinv.leaf hstack fun w hw => ?_,
        .inr ⟨hstack, fun v hv => hkeep _ Color.noConfusion v (Nat.lt_succ_iff_lt_or_eq.mp hv)⟩⟩
      have hmem := mem_successors.mpr ⟨hw, hedges _ hw⟩
      rw [hnone] at hmem
      exact absurd hmem List.not_mem_nil
    · obtain ⟨hres, hend, hvisited⟩ :=
        runStack_spec hedges (2 * count) (hinv.start hstack hk) (s.start_work hk)
      exact ⟨hres, hend.imp_right fun hnil => ⟨hnil, fun v hv =>
        hvisited v (hkeep _ Color.noConfusion v (Nat.lt_succ_iff_lt_or_eq.mp hv))⟩⟩

theorem Search.Inv.init : Search.Inv edges count ⟨fun _ => .white, [], false⟩ where

  gray_iff := by simp

  nodup := List.nodup_nil

  bound := by simp

  chain := List.isChain_nil

  black := by simp

  found := by simp

theorem rootsDone (hedges : ∀ e ∈ edges, e.2 < count) : ∀ k ≤ count, RootsDone edges count k
    ((List.range k).foldl (visitRoot edges count) ⟨fun _ => .white, [], false⟩)
  | 0, _ => ⟨.init, .inr ⟨rfl, fun v hv => absurd hv (Nat.not_lt_zero v)⟩⟩
  | k + 1, hk => by
      rw [List.range_succ, List.foldl_append]
      exact visitRoot_spec hedges (by omega) (rootsDone hedges k (by omega))

/-- With all roots done the answer is there. -/
theorem RootsDone.cyclic_iff (hsrc : ∀ e ∈ edges, e.1 < count) {s : Search}
    (h : RootsDone edges count count s) : s.found = true ↔ Cyclic edges := by
  obtain ⟨hinv, hrest⟩ := h
  constructor
  · exact hinv.found
  · rintro ⟨v, hv⟩
    by_contra hnot
    obtain ⟨hstack, hall⟩ := hrest.resolve_left hnot
    obtain ⟨w, hw, -⟩ := Relation.TransGen.head'_iff.mp hv
    have hgray : ¬ s.color v = .gray := fun hg => by
      have := (hinv.gray_iff v).mp hg
      rw [hstack] at this
      exact absurd this List.not_mem_nil
    have hblack : s.color v = .black := by
      cases hc : s.color v with
      | white => exact absurd hc (hall v (hsrc _ hw))
      | gray => exact absurd hc hgray
      | black => rfl
    exact (hinv.black v hblack).not_cycle hv

/-- The search finds a cycle exactly when there is one. -/
theorem hasCycle_iff (hsrc : ∀ e ∈ edges, e.1 < count) (hedges : ∀ e ∈ edges, e.2 < count) :
    hasCycle edges count = true ↔ Cyclic edges :=
  (rootsDone hedges count le_rfl).cyclic_iff hsrc

end

end CycleSearch

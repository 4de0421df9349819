import JzHdl.Lib.CycleSearch
import Mathlib.Tactic.Common

/-! # Searches in an edge set

The loop check asks an edge set for a cycle and for a path between two nets. Both
searches keep a stack of nets in an array with one place a net, and both ignore an
edge that leaves the nets.
-/

namespace JzHdl

open CycleSearch

/-- The row of a net in the adjacency table. -/
def adjacent (edges : List Edge) (v : ℕ) : List ℕ :=
  (edges.filter fun e => e.1 = v).map Prod.snd

/-- The edges with both ends among the nets. -/
def edgesBelow (edges : List Edge) (netCount : ℕ) : List Edge :=
  edges.filter fun e => e.1 < netCount ∧ e.2 < netCount

/-! ## Cycles -/

/-- The colours, the stack and every net that was pushed so far. -/
structure CombDfs where

  color : ℕ → Color

  stack : List ℕ

  pushed : List ℕ

  hasCycle : Bool

inductive RowScan

  | cycle

  | push (w : ℕ)

  | done

def scanRow (netCount : ℕ) (color : ℕ → Color) : List ℕ → RowScan
  | [] => .done
  | w :: row =>
    if netCount ≤ w then scanRow netCount color row
    else
      match color w with
      | .gray => .cycle
      | .white => .push w
      | .black => scanRow netCount color row

def dfsStep (edges : List Edge) (netCount : ℕ) (s : CombDfs) : CombDfs :=
  match s.stack with
  | [] => s
  | v :: rest =>
    match scanRow netCount s.color (adjacent edges v) with
    | .cycle => { s with hasCycle := true }
    | .push w =>
      { s with
        color := Function.update s.color w .gray
        stack := w :: v :: rest
        pushed := w :: s.pushed }
    | .done => { s with color := Function.update s.color v .black, stack := rest }

/-- The inner loop. It has no result when the fuel is used up first. -/
def dfsLoop (edges : List Edge) (netCount : ℕ) (fuel : ℕ) (s : CombDfs) : Option CombDfs :=
  if s.stack = [] ∨ s.hasCycle = true then some s
  else
    match fuel with
    | 0 => none
    | fuel + 1 => dfsLoop edges netCount fuel (dfsStep edges netCount s)

def dfsRoot (edges : List Edge) (netCount fuel : ℕ) (s : CombDfs) (start : ℕ) :
    Option CombDfs :=
  if s.hasCycle = true ∨ s.color start ≠ .white then some s
  else if adjacent edges start = [] then
    some { s with color := Function.update s.color start .black }
  else
    dfsLoop edges netCount fuel
      { s with
        color := Function.update s.color start .gray
        stack := [start]
        pushed := start :: s.pushed }

/-- The state in which `sem_comb_edgeset_has_cycle` returns. -/
def combEdgesetHasCycle (edges : List Edge) (netCount fuel : ℕ) : Option CombDfs :=
  if edges = [] ∨ netCount = 0 then some ⟨fun _ => .white, [], [], false⟩
  else
    (List.range netCount).foldlM (dfsRoot edges netCount fuel) ⟨fun _ => .white, [], [], false⟩

/-! ## Reachability -/

structure ReachDfs where

  visited : ℕ → Bool

  stack : List ℕ

  pushed : List ℕ

  found : Bool

/-- One scan of a row: it stops at the destination and pushes what was not visited. -/
def pushRow (netCount dst : ℕ) : ReachDfs → List ℕ → ReachDfs
  | s, [] => s
  | s, w :: row =>
    if netCount ≤ w then pushRow netCount dst s row
    else if w = dst then { s with found := true }
    else if s.visited w = true then pushRow netCount dst s row
    else
      pushRow netCount dst
        { s with
          visited := Function.update s.visited w true
          stack := w :: s.stack
          pushed := w :: s.pushed } row

def reachLoop (edges : List Edge) (netCount dst : ℕ) (fuel : ℕ) (s : ReachDfs) :
    Option ReachDfs :=
  match s.found, s.stack with
  | true, _ => some s
  | false, [] => some s
  | false, v :: rest =>
    match fuel with
    | 0 => none
    | fuel + 1 =>
      reachLoop edges netCount dst fuel
        (pushRow netCount dst { s with stack := rest } (adjacent edges v))

/-- The state in which `sem_comb_reachable_in_edgeset` returns. -/
def combReachableInEdgeset (edges : List Edge) (netCount src dst fuel : ℕ) :
    Option ReachDfs :=
  if edges = [] ∨ netCount = 0 then some ⟨fun _ => false, [], [], false⟩
  else if netCount ≤ src ∨ netCount ≤ dst then some ⟨fun _ => false, [], [], false⟩
  else
    reachLoop edges netCount dst fuel
      (pushRow netCount dst ⟨fun _ => false, [], [], false⟩ (adjacent edges src))

/-! ## Edges below the net count -/

variable {edges : List Edge} {netCount : ℕ}

theorem step_edgesBelow {a b : ℕ} :
    Step (edgesBelow edges netCount) a b ↔ b ∈ adjacent edges a ∧ a < netCount ∧ b < netCount := by
  simp only [Step, edgesBelow, adjacent, List.mem_filter, List.mem_map, decide_eq_true_eq]
  constructor
  · rintro ⟨hmem, ha, hb⟩
    exact ⟨⟨(a, b), ⟨hmem, rfl⟩, rfl⟩, ha, hb⟩
  · rintro ⟨⟨⟨c, d⟩, ⟨hmem, rfl⟩, rfl⟩, ha, hb⟩
    exact ⟨hmem, ha, hb⟩

theorem edgesBelow_src : ∀ e ∈ edgesBelow edges netCount, e.1 < netCount := by
  intro e he
  simp only [edgesBelow, List.mem_filter, decide_eq_true_eq] at he
  exact he.2.1

theorem edgesBelow_dst : ∀ e ∈ edgesBelow edges netCount, e.2 < netCount := by
  intro e he
  simp only [edgesBelow, List.mem_filter, decide_eq_true_eq] at he
  exact he.2.2

theorem successors_edgesBelow {v : ℕ} (hv : v < netCount) :
    successors (edgesBelow edges netCount) netCount v =
      (adjacent edges v).filter fun w => w < netCount := by
  simp only [successors, edgesBelow, adjacent, List.filter_map, List.filter_filter]
  congr 1
  apply List.filter_congr
  intro e _
  simp only [Function.comp_apply, ← Bool.decide_and, decide_eq_decide]
  constructor
  · rintro ⟨⟨rfl, hw⟩, -⟩
    exact ⟨hw, rfl⟩
  · rintro ⟨hw, rfl⟩
    exact ⟨⟨rfl, hw⟩, hv, hw⟩

theorem scanRow_eq (color : ℕ → Color) : ∀ row : List ℕ, scanRow netCount color row =
    match (row.filter fun w => w < netCount).find? fun w => color w ≠ .black with
    | none => .done
    | some w => if color w = .gray then .cycle else .push w
  | [] => rfl
  | w :: row => by
      rw [scanRow, scanRow_eq color row]
      by_cases hw : netCount ≤ w
      · rw [if_pos hw, List.filter_cons_of_neg (by simpa using hw)]
      · rw [if_neg hw, List.filter_cons_of_pos (by simpa using hw)]
        cases hc : color w with
        | white => simp [hc]
        | gray => simp [hc]
        | black => simp [hc]

/-! ## The cycle search -/

def CombDfs.toSearch (s : CombDfs) : Search := ⟨s.color, s.stack, s.hasCycle⟩

/-- A step of the loop is a visit of the node on top in the graph below the net count. -/
theorem dfsStep_toSearch {s : CombDfs} (hbound : ∀ v ∈ s.stack, v < netCount) :
    (dfsStep edges netCount s).toSearch =
      visitTop (edgesBelow edges netCount) netCount s.toSearch := by
  obtain ⟨color, stack, pushed, found⟩ := s
  cases stack with
  | nil => rfl
  | cons v rest =>
    have hv := hbound v List.mem_cons_self
    change _ = visitTop (edgesBelow edges netCount) netCount ⟨color, v :: rest, found⟩
    rcases hfind : ((adjacent edges v).filter fun w => w < netCount).find?
      fun w => color w ≠ .black with _ | w
    · simp only [dfsStep, visitTop, CombDfs.toSearch, scanRow_eq, successors_edgesBelow hv, hfind]
    · simp only [dfsStep, visitTop, CombDfs.toSearch, scanRow_eq, successors_edgesBelow hv, hfind]
      by_cases hw : color w = .gray
      · simp only [if_pos hw]
      · simp only [if_neg hw]

/-- Every net is pushed once at most. -/
structure CombDfs.PushedOnce (netCount : ℕ) (s : CombDfs) : Prop where

  nodup : s.pushed.Nodup

  bound : ∀ v ∈ s.pushed, v < netCount

  visited : ∀ v ∈ s.pushed, s.color v ≠ .white

theorem length_le_of_nodup_below {pushed : List ℕ} (hnodup : pushed.Nodup)
    (hbound : ∀ v ∈ pushed, v < netCount) : pushed.length ≤ netCount := by
  have hsub : pushed ⊆ List.range netCount := fun v hv => List.mem_range.mpr (hbound v hv)
  simpa using (List.subperm_of_subset hnodup hsub).length_le

theorem CombDfs.PushedOnce.push {s : CombDfs} (h : s.PushedOnce netCount) {w : ℕ}
    (hw : w < netCount) (hwhite : s.color w = .white) (stack : List ℕ) :
    CombDfs.PushedOnce netCount
      { s with
        color := Function.update s.color w .gray
        stack := stack
        pushed := w :: s.pushed } := by
  obtain ⟨hnodup, hbound, hvisited⟩ := h
  refine ⟨List.nodup_cons.mpr ⟨fun hmem => hvisited w hmem hwhite, hnodup⟩, fun v hv => ?_,
    fun v hv => update_visited w Color.noConfusion ?_⟩
  · rcases List.mem_cons.mp hv with rfl | hv
    · exact hw
    · exact hbound v hv
  · rcases List.mem_cons.mp hv with rfl | hv
    · exact .inl rfl
    · exact .inr (hvisited v hv)

theorem dfsStep_pushedOnce {s : CombDfs} (h : s.PushedOnce netCount) :
    (dfsStep edges netCount s).PushedOnce netCount := by
  rw [dfsStep]
  split
  · exact h
  · rename_i v rest hstack
    rw [scanRow_eq]
    rcases hfind : ((adjacent edges v).filter fun w => w < netCount).find?
      fun w => s.color w ≠ .black with _ | w
    · exact ⟨h.nodup, h.bound, fun u hu => update_visited v Color.noConfusion
        (.inr (h.visited u hu))⟩
    · dsimp only
      split
      · rename_i hcycle
        exact ⟨h.nodup, h.bound, h.visited⟩
      · rename_i hpush
        split at hpush
        · cases hpush
        · rename_i hgray
          cases hpush
          have hmem := (List.mem_filter.mp (List.mem_of_find?_eq_some hfind)).2
          have hblack := List.find?_some hfind
          refine h.push (by simpa using hmem) ?_ _
          cases hc : s.color w with
          | white => rfl
          | gray => exact absurd hc hgray
          | black => simp [hc] at hblack
      · rename_i hdone
        split at hdone <;> cases hdone

theorem dfsLoop_spec : ∀ (fuel : ℕ) {s : CombDfs},
    s.toSearch.Inv (edgesBelow edges netCount) netCount → s.PushedOnce netCount →
    s.toSearch.work netCount ≤ fuel ∨ s.hasCycle = true →
      ∃ t, dfsLoop edges netCount fuel s = some t ∧
        t.toSearch.Inv (edgesBelow edges netCount) netCount ∧ t.PushedOnce netCount ∧
        (t.hasCycle = true ∨ t.stack = []) ∧ ∀ u, s.color u ≠ .white → t.color u ≠ .white := by
  intro fuel
  induction fuel with
  | zero =>
    intro s hinv honce hwork
    have hstop : s.stack = [] ∨ s.hasCycle = true := hwork.imp_left fun hwork =>
      List.eq_nil_of_length_eq_zero (by
        simp only [Search.work, CombDfs.toSearch] at hwork
        omega)
    exact ⟨s, by rw [dfsLoop, if_pos hstop], hinv, honce, hstop.symm, fun _ hu => hu⟩
  | succ fuel ih =>
    intro s hinv honce hwork
    by_cases hstop : s.stack = [] ∨ s.hasCycle = true
    · exact ⟨s, by rw [dfsLoop, if_pos hstop], hinv, honce, hstop.symm, fun _ hu => hu⟩
    · rw [dfsLoop, if_neg hstop]
      obtain ⟨hstack, hfound⟩ := not_or.mp hstop
      have hstep : (dfsStep edges netCount s).toSearch = _ := dfsStep_toSearch hinv.bound
      have hnext := visitTop_inv edgesBelow_dst hinv
      have hless := visitTop_work hinv hstack
      have hkeep : ∀ u, s.color u ≠ .white → (dfsStep edges netCount s).color u ≠ .white := by
        intro u hu
        have hkept := @visitTop_visited (edgesBelow edges netCount) netCount s.toSearch u hu
        rwa [← hstep] at hkept
      rw [← hstep] at hnext hless
      have hfuel := hwork.resolve_right hfound
      obtain ⟨t, hrun, ht, htonce, hend, hvisited⟩ := ih hnext (dfsStep_pushedOnce honce)
        (hless.symm.imp (fun hlt => by omega) id)
      exact ⟨t, hrun, ht, htonce, hend, fun u hu => hvisited u (hkeep u hu)⟩

/-- One root: the library's invariant goes on to the next root. -/
theorem dfsRoot_spec {fuel : ℕ} (hfuel : 2 * netCount ≤ fuel) {k : ℕ} (hk : k < netCount)
    {s : CombDfs} (h : RootsDone (edgesBelow edges netCount) netCount k s.toSearch)
    (honce : s.PushedOnce netCount) :
    ∃ t, dfsRoot edges netCount fuel s k = some t ∧
      RootsDone (edgesBelow edges netCount) netCount (k + 1) t.toSearch ∧
      t.PushedOnce netCount := by
  obtain ⟨hinv, hrest⟩ := h
  rw [dfsRoot]
  split
  · rename_i hskip
    refine ⟨s, rfl, ⟨hinv, ?_⟩, honce⟩
    rcases hrest with hfound | ⟨hstack, hold⟩
    · exact .inl hfound
    · refine hskip.imp_right fun hnew => ⟨hstack, fun v hv => ?_⟩
      rcases Nat.lt_succ_iff_lt_or_eq.mp hv with hv | rfl
      · exact hold v hv
      · exact hnew
  · rename_i hgo
    obtain ⟨hfound, hwhite⟩ := not_or.mp hgo
    obtain ⟨hstack, hold⟩ := hrest.resolve_left hfound
    have hkeep : ∀ c ≠ Color.white, ∀ v < k + 1, Function.update s.color k c v ≠ .white := by
      intro c hc v hv
      exact update_visited k hc ((Nat.lt_succ_iff_lt_or_eq.mp hv).symm.imp_right (hold v))
    split
    · rename_i hnone
      refine ⟨_, rfl, ⟨hinv.leaf hstack fun w hw => ?_, .inr ⟨hstack,
        hkeep _ Color.noConfusion⟩⟩, honce.nodup, honce.bound, fun v hv => ?_⟩
      · have hmem := (step_edgesBelow.mp hw).1
        rw [hnone] at hmem
        exact absurd hmem List.not_mem_nil
      · exact update_visited k Color.noConfusion (.inr (honce.visited v hv))
    · obtain ⟨t, hrun, ht, htonce, hend, hvisited⟩ := dfsLoop_spec fuel
        (hinv.start hstack hk) (honce.push hk (not_not.mp hwhite) [k])
        (.inl ((s.toSearch.start_work hk).trans hfuel))
      exact ⟨t, hrun, ⟨ht, hend.imp_right fun hnil => ⟨hnil, fun v hv =>
        hvisited v (hkeep _ Color.noConfusion v hv)⟩⟩, htonce⟩

theorem dfsRoots_spec {fuel : ℕ} (hfuel : 2 * netCount ≤ fuel) : ∀ k ≤ netCount,
    ∃ t, (List.range k).foldlM (dfsRoot edges netCount fuel) ⟨fun _ => .white, [], [], false⟩ =
        some t ∧
      RootsDone (edgesBelow edges netCount) netCount k t.toSearch ∧ t.PushedOnce netCount
  | 0, _ => by
      refine ⟨_, rfl, ⟨.init, .inr ⟨rfl, fun v hv => absurd hv (Nat.not_lt_zero v)⟩⟩, ?_⟩
      constructor <;> simp
  | k + 1, hk => by
      obtain ⟨s, hrun, hs, honce⟩ := dfsRoots_spec hfuel k (by omega)
      obtain ⟨t, hroot, ht, htonce⟩ := dfsRoot_spec hfuel (by omega) hs honce
      refine ⟨t, ?_, ht, htonce⟩
      rw [List.range_succ, List.foldlM_append, hrun]
      simpa using hroot

theorem combEdgesetHasCycle_spec {fuel : ℕ} (hfuel : 2 * netCount ≤ fuel) :
    ∃ s, combEdgesetHasCycle edges netCount fuel = some s ∧ s.pushed.length ≤ netCount ∧
      (s.hasCycle = true ↔ Cyclic (edgesBelow edges netCount)) := by
  rw [combEdgesetHasCycle]
  split
  · rename_i hnone
    refine ⟨_, rfl, Nat.zero_le _, ?_⟩
    constructor
    · intro h
      cases h
    · rintro ⟨v, hv⟩
      obtain ⟨w, hw, -⟩ := Relation.TransGen.head'_iff.mp hv
      obtain ⟨hmem, hlt, -⟩ := step_edgesBelow.mp hw
      rcases hnone with rfl | rfl
      · exact absurd hmem List.not_mem_nil
      · exact absurd hlt (Nat.not_lt_zero v)
  · obtain ⟨s, hrun, hs, honce⟩ := @dfsRoots_spec edges netCount fuel hfuel netCount le_rfl
    exact ⟨s, hrun, length_le_of_nodup_below honce.nodup honce.bound,
      hs.cyclic_iff edgesBelow_src⟩

/-! ## The reachability search -/

/-- What one scan of a row adds: the new nets are pushed in front, on the stack as well. -/
structure RowPushed (netCount dst : ℕ) (s : ReachDfs) (row : List ℕ) (t : ReachDfs) : Prop where

  fresh : ∃ new, t.pushed = new ++ s.pushed ∧ t.stack = new ++ s.stack ∧
    ∀ w ∈ new, w ∈ row ∧ w < netCount

  marked : ∀ v, t.visited v = true ↔ v ∈ t.pushed

  nodup : t.pushed.Nodup

  found : t.found = true → s.found = true ∨ dst ∈ row ∧ dst < netCount

  scanned : t.found = false → ∀ w ∈ row, w < netCount → w ∈ t.pushed ∧ w ≠ dst

theorem RowPushed.skip {dst w : ℕ} {s t : ReachDfs} {row : List ℕ}
    (h : RowPushed netCount dst s row t)
    (hw : t.found = false → w < netCount → w ∈ t.pushed ∧ w ≠ dst) :
    RowPushed netCount dst s (w :: row) t := by
  obtain ⟨⟨new, hpushed, hstack, hnew⟩, hmarked, hnodup, hfound, hscanned⟩ := h
  refine ⟨⟨new, hpushed, hstack, fun u hu => ⟨List.mem_cons_of_mem w (hnew u hu).1,
      (hnew u hu).2⟩⟩,
    hmarked, hnodup, fun h => (hfound h).imp_right fun h => ⟨List.mem_cons_of_mem w h.1, h.2⟩,
    fun hnone u hu hlt => ?_⟩
  rcases List.mem_cons.mp hu with rfl | hu
  · exact hw hnone hlt
  · exact hscanned hnone u hu hlt

theorem pushRow_pushed {dst : ℕ} : ∀ (row : List ℕ) {s : ReachDfs},
    (∀ v, s.visited v = true ↔ v ∈ s.pushed) → s.pushed.Nodup →
      RowPushed netCount dst s row (pushRow netCount dst s row)
  | [], s, hmarked, hnodup => by
      refine ⟨⟨[], rfl, rfl, by simp⟩, hmarked, hnodup, .inl, ?_⟩
      simp
  | w :: row, s, hmarked, hnodup => by
      rw [pushRow]
      split
      · rename_i hout
        exact (pushRow_pushed row hmarked hnodup).skip fun _ hlt => absurd hlt (by omega)
      · rename_i hlt
        split
        · rename_i hdst
          subst hdst
          refine ⟨⟨[], rfl, rfl, by simp⟩, hmarked, hnodup, fun _ => .inr ⟨List.mem_cons_self,
            Nat.lt_of_not_le hlt⟩, fun h => ?_⟩
          cases h
        · rename_i hdst
          split
          · rename_i hvisited
            have hrow : RowPushed netCount dst s row (pushRow netCount dst s row) :=
              pushRow_pushed row hmarked hnodup
            refine hrow.skip fun _ _ => ⟨?_, hdst⟩
            obtain ⟨new, hpushed, -, -⟩ := hrow.fresh
            rw [hpushed]
            exact List.mem_append_right new ((hmarked w).mp hvisited)
          · rename_i hvisited
            have hnot : w ∉ s.pushed := fun hmem => hvisited ((hmarked w).mpr hmem)
            have hrow : RowPushed netCount dst
                ⟨Function.update s.visited w true, w :: s.stack, w :: s.pushed, s.found⟩ row
                (pushRow netCount dst
                  ⟨Function.update s.visited w true, w :: s.stack, w :: s.pushed, s.found⟩
                  row) := by
              refine pushRow_pushed row (fun v => ?_) (List.nodup_cons.mpr ⟨hnot, hnodup⟩)
              by_cases hv : v = w
              · simp [hv]
              · simp [hv, hmarked v]
            obtain ⟨new, hpushed, hstack, hnew⟩ := hrow.fresh
            have hmem : w ∈ (pushRow netCount dst
                ⟨Function.update s.visited w true, w :: s.stack, w :: s.pushed, s.found⟩
                row).pushed := by
              rw [hpushed]
              exact List.mem_append_right new List.mem_cons_self
            have hskip := hrow.skip fun _ _ => ⟨hmem, hdst⟩
            refine ⟨⟨new ++ [w], by simpa using hpushed, by simpa using hstack, fun u hu => ?_⟩,
              hskip.marked, hskip.nodup, hskip.found, hskip.scanned⟩
            rcases List.mem_append.mp hu with hu | hu
            · exact ⟨List.mem_cons_of_mem w (hnew u hu).1, (hnew u hu).2⟩
            · rw [List.mem_singleton.mp hu]
              exact ⟨List.mem_cons_self, Nat.lt_of_not_le hlt⟩

/-- What holds between two pops: every pushed net is reached, and the nets that are not on the
stack any more have all their successors pushed. -/
structure ReachDfs.Inv (edges : List Edge) (netCount src dst : ℕ) (s : ReachDfs) : Prop where

  marked : ∀ v, s.visited v = true ↔ v ∈ s.pushed

  nodup : s.pushed.Nodup

  reached : ∀ v ∈ s.pushed,
    v < netCount ∧ Relation.TransGen (Step (edgesBelow edges netCount)) src v

  stacked : ∀ v ∈ s.stack, v ∈ s.pushed

  found : s.found = true → Relation.TransGen (Step (edgesBelow edges netCount)) src dst

  closed : s.found = false → ∀ v, v = src ∨ v ∈ s.pushed → v ∉ s.stack →
    ∀ w, Step (edgesBelow edges netCount) v w → w ∈ s.pushed ∧ w ≠ dst

section

variable {src dst : ℕ}

theorem ReachDfs.Inv.length_le {s : ReachDfs} (h : s.Inv edges netCount src dst) :
    s.pushed.length ≤ netCount :=
  length_le_of_nodup_below h.nodup fun v hv => (h.reached v hv).1

/-- The scan of the row of a net that is reached. -/
theorem ReachDfs.Inv.scan {s : ReachDfs} {v : ℕ}
    (hmarked : ∀ u, s.visited u = true ↔ u ∈ s.pushed) (hnodup : s.pushed.Nodup)
    (hreached : ∀ u ∈ s.pushed,
      u < netCount ∧ Relation.TransGen (Step (edgesBelow edges netCount)) src u)
    (hstacked : ∀ u ∈ s.stack, u ∈ s.pushed) (hfound : s.found = false)
    (hv : v < netCount) (hsrc : Relation.ReflTransGen (Step (edgesBelow edges netCount)) src v)
    (hclosed : ∀ u, u = src ∨ u ∈ s.pushed → u ∉ s.stack → u ≠ v →
      ∀ w, Step (edgesBelow edges netCount) u w → w ∈ s.pushed ∧ w ≠ dst) :
    (pushRow netCount dst s (adjacent edges v)).Inv edges netCount src dst := by
  obtain ⟨⟨new, hpushed, hstack, hnew⟩, hmarked', hnodup', hfound', hscanned⟩ :=
    @pushRow_pushed netCount dst (adjacent edges v) s hmarked hnodup
  have hstep : ∀ w, w ∈ adjacent edges v → w < netCount →
      Relation.TransGen (Step (edgesBelow edges netCount)) src w := fun w hmem hlt =>
    Relation.TransGen.tail' hsrc (step_edgesBelow.mpr ⟨hmem, hv, hlt⟩)
  refine ⟨hmarked', hnodup', fun u hu => ?_, fun u hu => ?_, fun h => ?_,
    fun h u hu hout w hw => ?_⟩
  · rw [hpushed] at hu
    rcases List.mem_append.mp hu with hu | hu
    · exact ⟨(hnew u hu).2, hstep u (hnew u hu).1 (hnew u hu).2⟩
    · exact hreached u hu
  · rw [hstack] at hu
    rw [hpushed]
    rcases List.mem_append.mp hu with hu | hu
    · exact List.mem_append_left _ hu
    · exact List.mem_append_right _ (hstacked u hu)
  · rcases hfound' h with hold | ⟨hmem, hlt⟩
    · rw [hfound] at hold
      cases hold
    · exact hstep dst hmem hlt
  · rw [hstack] at hout
    obtain ⟨hnotnew, hnotold⟩ := not_or.mp (mt List.mem_append.mpr hout)
    by_cases huv : u = v
    · subst huv
      obtain ⟨hmem, -, hlt⟩ := step_edgesBelow.mp hw
      exact hscanned h w hmem hlt
    · have hu' : u = src ∨ u ∈ s.pushed := hu.imp_right fun hu => by
        rw [hpushed] at hu
        exact (List.mem_append.mp hu).resolve_left hnotnew
      obtain ⟨hmem, hne⟩ := hclosed u hu' hnotold huv w hw
      rw [hpushed]
      exact ⟨List.mem_append_right new hmem, hne⟩

/-- Every round pops one net, and no net is pushed twice. -/
theorem reachLoop_spec : ∀ (fuel pops : ℕ) {s : ReachDfs}, s.Inv edges netCount src dst →
    s.stack.length + pops = s.pushed.length → netCount ≤ fuel + pops →
      ∃ t, reachLoop edges netCount dst fuel s = some t ∧ t.Inv edges netCount src dst ∧
        (t.found = true ∨ t.stack = []) := by
  intro fuel
  induction fuel with
  | zero =>
    intro pops s hinv hpops hfuel
    have hlen := hinv.length_le
    have hnil : s.stack = [] := List.eq_nil_of_length_eq_zero (by omega)
    refine ⟨s, ?_, hinv, .inr hnil⟩
    rw [reachLoop, hnil]
    cases s.found <;> rfl
  | succ fuel ih =>
    intro pops s hinv hpops hfuel
    obtain ⟨visited, stack, pushed, found⟩ := s
    cases found with
    | true => exact ⟨_, by rw [reachLoop], hinv, .inl rfl⟩
    | false =>
      cases stack with
      | nil => exact ⟨_, by rw [reachLoop], hinv, .inr rfl⟩
      | cons v rest =>
        rw [reachLoop]
        dsimp only
        obtain ⟨hlt, hsrc⟩ := hinv.reached v (hinv.stacked v List.mem_cons_self)
        have hrow := @pushRow_pushed netCount dst (adjacent edges v)
          ⟨visited, rest, pushed, false⟩ hinv.marked hinv.nodup
        obtain ⟨new, hpushed, hstack, -⟩ := hrow.fresh
        refine ih (pops + 1) (ReachDfs.Inv.scan hinv.marked hinv.nodup hinv.reached
          (fun u hu => hinv.stacked u (List.mem_cons_of_mem v hu)) rfl hlt hsrc.to_reflTransGen
          fun u hu hout hne => hinv.closed rfl u hu fun hmem => ?_) ?_ (by omega)
        · exact (List.mem_cons.mp hmem).elim hne hout
        · rw [hpushed, hstack]
          simp only [List.length_append, List.length_cons] at hpops ⊢
          omega

theorem ReachDfs.Inv.found_iff {s : ReachDfs} (h : s.Inv edges netCount src dst)
    (hend : s.found = true ∨ s.stack = []) : s.found = true ↔
      Relation.TransGen (Step (edgesBelow edges netCount)) src dst := by
  constructor
  · exact h.found
  · intro hpath
    by_contra hnot
    have hnone : s.found = false := by simpa using hnot
    have hclosed := h.closed hnone
    rw [hend.resolve_left hnot] at hclosed
    have hall : ∀ x, Relation.TransGen (Step (edgesBelow edges netCount)) src x →
        x ∈ s.pushed ∧ x ≠ dst := by
      intro x hx
      induction hx with
      | single hstep => exact hclosed src (.inl rfl) List.not_mem_nil _ hstep
      | tail _ hstep ih => exact hclosed _ (.inr ih.1) List.not_mem_nil _ hstep
    exact (hall dst hpath).2 rfl

theorem combReachableInEdgeset_spec {fuel : ℕ} (hfuel : netCount ≤ fuel) :
    ∃ s, combReachableInEdgeset edges netCount src dst fuel = some s ∧
      s.pushed.length ≤ netCount ∧
      (s.found = true ↔ Relation.TransGen (Step (edgesBelow edges netCount)) src dst) := by
  have hends : Relation.TransGen (Step (edgesBelow edges netCount)) src dst →
      edges ≠ [] ∧ src < netCount ∧ dst < netCount := by
    intro hpath
    obtain ⟨w, hw, -⟩ := Relation.TransGen.head'_iff.mp hpath
    obtain ⟨u, -, hu⟩ := Relation.TransGen.tail'_iff.mp hpath
    obtain ⟨hmem, hsrc, -⟩ := step_edgesBelow.mp hw
    refine ⟨fun hnil => ?_, hsrc, (step_edgesBelow.mp hu).2.2⟩
    rw [hnil] at hmem
    exact absurd hmem List.not_mem_nil
  rw [combReachableInEdgeset]
  split
  · rename_i hnone
    refine ⟨_, rfl, Nat.zero_le _, (fun h => by cases h), fun hpath => ?_⟩
    obtain ⟨hedges, hsrc, -⟩ := hends hpath
    rcases hnone with hnil | hzero
    · exact absurd hnil hedges
    · omega
  · split
    · rename_i hout
      refine ⟨_, rfl, Nat.zero_le _, (fun h => by cases h), fun hpath => ?_⟩
      obtain ⟨-, hsrc, hdst⟩ := hends hpath
      omega
    · rename_i hout
      have hsrc : src < netCount := by omega
      have hrow := @pushRow_pushed netCount dst (adjacent edges src)
        ⟨fun _ => false, [], [], false⟩ (by simp) List.nodup_nil
      obtain ⟨new, hpushed, hstack, -⟩ := hrow.fresh
      have hstart : (pushRow netCount dst ⟨fun _ => false, [], [], false⟩
          (adjacent edges src)).Inv edges netCount src dst := by
        refine ReachDfs.Inv.scan (by simp) List.nodup_nil (by simp) (by simp) rfl hsrc .refl ?_
        intro u hu _ hne
        exact absurd (hu.resolve_right List.not_mem_nil) hne
      obtain ⟨t, hrun, ht, hend⟩ := reachLoop_spec fuel 0 hstart
        (by rw [hpushed, hstack]; simp) (by omega)
      exact ⟨t, hrun, ht.length_le, ht.found_iff hend⟩

end

/-- Both searches end within two rounds a net. Their answers are right for the graph below the
net count, and neither pushes more entries than there are nets. -/
theorem combSearches_exact (edges : List Edge) (netCount src dst fuel : ℕ)
    (hfuel : 2 * netCount ≤ fuel) :
    (∃ s, combEdgesetHasCycle edges netCount fuel = some s ∧ s.pushed.length ≤ netCount ∧
      (s.hasCycle = true ↔ Cyclic (edgesBelow edges netCount))) ∧
    ∃ s, combReachableInEdgeset edges netCount src dst fuel = some s ∧
      s.pushed.length ≤ netCount ∧
      (s.found = true ↔ Relation.TransGen (Step (edgesBelow edges netCount)) src dst) :=
  ⟨combEdgesetHasCycle_spec hfuel, combReachableInEdgeset_spec (by omega)⟩

/-- A self-loop and an edge out of range. -/
theorem combSearches_selfLoop :
    2 * 2 ≤ 4 ∧
    (∃ s, combEdgesetHasCycle [(0, 5), (1, 1)] 2 4 = some s ∧ s.pushed.length ≤ 2 ∧
      (s.hasCycle = true ↔ Cyclic (edgesBelow [(0, 5), (1, 1)] 2))) ∧
    ∃ s, combReachableInEdgeset [(0, 5), (1, 1)] 2 1 1 4 = some s ∧ s.pushed.length ≤ 2 ∧
      (s.found = true ↔
        Relation.TransGen (Step (edgesBelow [(0, 5), (1, 1)] 2)) 1 1) :=
  ⟨le_rfl, combSearches_exact [(0, 5), (1, 1)] 2 1 1 4 le_rfl⟩

example : (combEdgesetHasCycle [(0, 1), (1, 2), (2, 0)] 3 6).map CombDfs.hasCycle =
    some true := by decide

end JzHdl

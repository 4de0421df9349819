import JzHdl.Sem.CombLoops
import Mathlib.Data.List.Flatten

/-! # Loops on every path

The walk over a block tracks its structural paths, by induction over the
statements. With the search for cycles this makes the reports of the loop check
those of the graphs of the paths.
-/

namespace JzHdl

open CycleSearch PathCap

section

variable {scope : CombScope}

/-! ## Edges -/

theorem findBinding_lt {decl n : ℕ} (h : scope.findBinding decl = some n) :
    n < scope.netCount := by
  rw [CombScope.findBinding] at h
  split at h
  · rename_i hnet
    obtain rfl := Option.some.inj h
    have hdecl : decl < scope.symbols.length := by
      by_contra hge
      rw [CombScope.kind, List.getElem?_eq_none (by omega)] at hnet
      exact absurd hnet (by decide)
    rw [CombScope.kind, List.getElem?_eq_getElem hdecl] at hnet
    rw [CombScope.netCount]
    conv_rhs => rw [← List.take_append_drop decl scope.symbols]
    have hone : CombScope.isNet scope.symbols[decl].kind = true := hnet
    rw [List.countP_append, List.drop_eq_getElem_cons hdecl, List.countP_cons]
    simp only [hone, if_true]
    omega
  · cases h

theorem mem_recordEdges {direction : AssignDirection} {lhs rhs : CombExpr} {e : Edge} :
    e ∈ recordEdges scope direction lhs rhs ↔
      ∃ a ∈ (collectTargets scope lhs).filterMap scope.findBinding,
        ∃ b ∈ (collectSources scope rhs).filterMap scope.findBinding,
          e = if direction = .drive then (a, b) else (b, a) := by
  simp only [recordEdges, List.mem_flatMap, List.mem_filterMap]
  constructor
  · rintro ⟨l, hl, r, hr, h⟩
    rcases ha : scope.findBinding l with _ | a
    · simp [ha] at h
    · rcases hb : scope.findBinding r with _ | b
      · simp [ha, hb] at h
      · have hlt := And.intro (findBinding_lt ha) (findBinding_lt hb)
        refine ⟨a, ⟨l, hl, ha⟩, b, ⟨r, hr, hb⟩, ?_⟩
        simp only [ha, hb] at h
        by_cases hd : direction = .drive
        · simp only [if_pos hd, if_pos hlt] at h ⊢
          exact (Option.some.inj h).symm
        · simp only [if_neg hd, if_pos hlt.symm] at h ⊢
          exact (Option.some.inj h).symm
  · rintro ⟨a, ⟨l, hl, ha⟩, b, ⟨r, hr, hb⟩, rfl⟩
    refine ⟨l, hl, r, hr, ?_⟩
    have hlt := And.intro (findBinding_lt ha) (findBinding_lt hb)
    simp only [ha, hb]
    by_cases hd : direction = .drive
    · simp only [if_pos hd, if_pos hlt]
    · simp only [if_neg hd, if_pos hlt.symm]

theorem recordEdges_inRange {direction : AssignDirection} {lhs rhs : CombExpr} {e : Edge}
    (h : e ∈ recordEdges scope direction lhs rhs) :
    e.1 < scope.netCount ∧ e.2 < scope.netCount := by
  obtain ⟨a, ha, b, hb, rfl⟩ := mem_recordEdges.mp h
  obtain ⟨l, -, ha⟩ := List.mem_filterMap.mp ha
  obtain ⟨r, -, hb⟩ := List.mem_filterMap.mp hb
  split
  · exact ⟨findBinding_lt ha, findBinding_lt hb⟩
  · exact ⟨findBinding_lt hb, findBinding_lt ha⟩

mutual

theorem sourceNets : ∀ e, PlainSource scope e →
    (collectSources scope e).filterMap scope.findBinding = namedNets scope CombScope.isSource e
  | .identifier name, _ => by rw [collectSources, namedNets, netOf]
  | .qualified name, _ => by
      rw [collectSources, namedNets]
      cases qualifier name <;> rfl
  | .busAccess port index, h => by
      rw [PlainSource] at h
      rw [collectSources, namedNets, h, List.append_nil, netOf]
  | .slice children, h => by
      rw [PlainSource] at h
      rw [collectSources, namedNets, sourceNetsAll children h]
  | .concat parts, h => by
      rw [PlainSource] at h
      rw [collectSources, namedNets, sourceNetsAll parts h]
  | .operator args, h => by
      rw [PlainSource] at h
      rw [collectSources, namedNets, sourceNetsAll args h]
  | .leaf, _ => by rw [collectSources, namedNets, List.filterMap_nil]
  | .other children, h => by
      rw [PlainSource] at h
      rw [collectSources, namedNets, h, List.filterMap_nil]

theorem sourceNetsAll : ∀ es, PlainSourceAll scope es →
    (collectSourcesAll scope es).filterMap scope.findBinding =
      namedNetsAll scope CombScope.isSource es
  | [], _ => by rw [collectSourcesAll, namedNetsAll, List.filterMap_nil]
  | e :: rest, h => by
      rw [PlainSourceAll] at h
      rw [collectSourcesAll, namedNetsAll, List.filterMap_append, sourceNets e h.1,
        sourceNetsAll rest h.2]

end

mutual

theorem targetNets : ∀ e, PlainTarget e →
    (collectTargets scope e).filterMap scope.findBinding = writtenNets scope CombScope.isSource e
  | .identifier name, _ => by rw [collectTargets, writtenNets, netOf]
  | .slice children, h => by
      rcases children with _ | ⟨base, bounds⟩
      · simp [PlainTarget] at h
      · cases base with
        | identifier name => rw [collectTargets, writtenNets, netOf]
        | _ => simp [PlainTarget] at h
  | .concat parts, h => by
      rw [PlainTarget] at h
      rw [collectTargets, writtenNets, targetNetsAll parts h]
  | .qualified _, h => by simp [PlainTarget] at h
  | .busAccess _ _, h => by simp [PlainTarget] at h
  | .operator _, h => by simp [PlainTarget] at h
  | .leaf, h => by simp [PlainTarget] at h
  | .other _, h => by simp [PlainTarget] at h

theorem targetNetsAll : ∀ es, PlainTargetAll es →
    (collectTargetsAll scope es).filterMap scope.findBinding =
      writtenNetsAll scope CombScope.isSource es
  | [], _ => by rw [collectTargetsAll, writtenNetsAll, List.filterMap_nil]
  | e :: rest, h => by
      rw [PlainTargetAll] at h
      rw [collectTargetsAll, writtenNetsAll, List.filterMap_append, targetNets e h.1,
        targetNetsAll rest h.2]

end

mutual

/-- A plain name has the same nets on both sides of an assignment. -/
theorem nameNets : ∀ e, PlainName scope e →
    (collectTargets scope e).filterMap scope.findBinding =
        namedNets scope CombScope.isSource e ∧
      (collectSources scope e).filterMap scope.findBinding =
        writtenNets scope CombScope.isSource e
  | .identifier name, _ => by
      rw [collectTargets, collectSources, namedNets, writtenNets, netOf]
      exact ⟨rfl, rfl⟩
  | .slice children, h => by
      rcases children with _ | ⟨base, bounds⟩
      · simp [PlainName] at h
      · cases base with
        | identifier name =>
          rw [PlainName] at h
          obtain ⟨hkind, hsource, hnone⟩ := h
          have hbounds := sourceNetsAll bounds hsource
          rw [collectTargets, collectSources, collectSourcesAll, collectSources, namedNets,
            namedNetsAll, namedNets, writtenNets, List.filterMap_append, hbounds, hnone,
            List.append_nil, List.append_nil, netOf, netOf, hkind]
          exact ⟨rfl, rfl⟩
        | _ => simp [PlainName] at h
  | .concat parts, h => by
      rw [PlainName] at h
      rw [collectTargets, collectSources, namedNets, writtenNets]
      exact nameNetsAll parts h
  | .qualified _, h => by simp [PlainName] at h
  | .busAccess _ _, h => by simp [PlainName] at h
  | .operator _, h => by simp [PlainName] at h
  | .leaf, h => by simp [PlainName] at h
  | .other _, h => by simp [PlainName] at h

theorem nameNetsAll : ∀ es, PlainNameAll scope es →
    (collectTargetsAll scope es).filterMap scope.findBinding =
        namedNetsAll scope CombScope.isSource es ∧
      (collectSourcesAll scope es).filterMap scope.findBinding =
        writtenNetsAll scope CombScope.isSource es
  | [], _ => by
      rw [collectTargetsAll, collectSourcesAll, namedNetsAll, writtenNetsAll]
      exact ⟨rfl, rfl⟩
  | e :: rest, h => by
      rw [PlainNameAll] at h
      obtain ⟨he, he'⟩ := nameNets e h.1
      obtain ⟨hr, hr'⟩ := nameNetsAll rest h.2
      rw [collectTargetsAll, collectSourcesAll, namedNetsAll, writtenNetsAll,
        List.filterMap_append, List.filterMap_append, he, he', hr, hr']
      exact ⟨rfl, rfl⟩

end

/-- The recorded edges are those of the graph. -/
theorem recordEdges_plain {direction : AssignDirection} {lhs rhs : CombExpr} {guards : List ℕ}
    (h : PlainAssign scope direction lhs rhs) {e : Edge} :
    e ∈ recordEdges scope direction lhs rhs ↔
      e ∈ graphEdges scope false guards direction lhs rhs := by
  have hgraph : e ∈ graphEdges scope false guards direction lhs rhs ↔
      ∃ r ∈ namedNets scope CombScope.isSource (readSide direction lhs rhs),
        ∃ w ∈ writtenNets scope CombScope.isSource (writeSide direction lhs rhs), e = (r, w) := by
    simp [graphEdges, List.mem_flatMap, eq_comm]
  rw [hgraph, mem_recordEdges]
  cases direction with
  | drive =>
    rw [PlainAssign] at h
    rw [(nameNets lhs h.1).1, (nameNets rhs h.2).2]
    exact Iff.rfl
  | receive =>
    rw [PlainAssign] at h
    rw [targetNets lhs h.1, sourceNets rhs h.2]
    constructor
    · rintro ⟨a, ha, b, hb, rfl⟩
      exact ⟨b, hb, a, ha, rfl⟩
    · rintro ⟨b, hb, a, ha, rfl⟩
      exact ⟨a, ha, b, hb, rfl⟩

/-! ## Walk -/

theorem length_combBodies : ∀ bodies, (combBodies scope bodies).length = bodies.length
  | [] => by rw [combBodies]; rfl
  | body :: rest => by
      rw [combBodies, List.length_cons, List.length_cons, length_combBodies rest]

/-- Without conditions the branches are guarded alike. -/
theorem branchGraphs_cases (full : Bool) (guards : List ℕ) : ∀ cases,
    branchGraphs scope full cases [] guards =
      cases.map fun body => blockGraphs scope full body guards
  | [] => by rw [branchGraphs, List.map_nil]
  | body :: rest => by
      have hguards : guards ++ (([] : List CombExpr).head?).elim []
          (namedNets scope CombScope.isNet) = guards := List.append_nil guards
      rw [branchGraphs, List.map_cons, hguards, List.tail_nil,
        branchGraphs_cases full guards rest]

theorem joinPaths_ne_nil {P Q : List (List Edge)} (hP : P ≠ []) (hQ : Q ≠ []) :
    joinPaths P Q ≠ [] := by
  obtain ⟨p, hp⟩ := List.exists_mem_of_ne_nil P hP
  obtain ⟨q, hq⟩ := List.exists_mem_of_ne_nil Q hQ
  exact List.ne_nil_of_mem (mem_joinPaths.mpr ⟨p, hp, q, hq, rfl⟩)

theorem plainBodies_iff : ∀ bodies, PlainBodies scope bodies ↔
    ∀ body ∈ bodies, PlainStmts scope body false
  | [] => by simp [PlainBodies]
  | body :: rest => by
      rw [PlainBodies, plainBodies_iff rest, List.forall_mem_cons]

mutual

theorem stmtGraphs_ne_nil : ∀ (stmt : CombStmt) (inBlock : Bool) (guards : List ℕ),
    PlainStmt scope stmt inBlock → stmtGraphs scope false stmt guards ≠ []
  | .assign .., _, _, _ => by
      rw [stmtGraphs]
      exact List.cons_ne_nil _ _
  | .ifChain conds bodies, _, guards, h => by
      rw [PlainStmt] at h
      rw [stmtGraphs]
      cases helse : hasElse conds bodies with
      | false => simp
      | true =>
        rcases bodies with _ | ⟨body, rest⟩
        · simp [hasElse] at helse
        · have hbody : PlainStmts scope body false := by
            have := h.2
            rw [PlainBodies] at this
            exact this.1
          rw [branchGraphs, List.flatten_cons]
          simp [blockGraphs_ne_nil body false _ hbody]
  | .select selector cases hasDefault, _, guards, h => by
      rw [PlainStmt] at h
      rw [stmtGraphs]
      cases hasDefault with
      | false => simp
      | true =>
        rcases cases with _ | ⟨body, rest⟩
        · simp at h
        · have hbody : PlainStmts scope body false := by
            have := h.2
            rw [PlainBodies] at this
            exact this.1
          rw [branchGraphs, List.flatten_cons]
          simp [blockGraphs_ne_nil body false _ hbody]
  | .block stmts, _, guards, h => by
      rw [PlainStmt] at h
      rw [stmtGraphs]
      exact blockGraphs_ne_nil stmts false guards h

theorem blockGraphs_ne_nil : ∀ (stmts : List CombStmt) (inBlock : Bool) (guards : List ℕ),
    PlainStmts scope stmts inBlock → blockGraphs scope false stmts guards ≠ []
  | [], _, _, _ => by
      rw [blockGraphs]
      exact List.cons_ne_nil _ _
  | stmt :: rest, inBlock, guards, h => by
      rw [PlainStmts] at h
      rw [blockGraphs]
      exact joinPaths_ne_nil (stmtGraphs_ne_nil stmt inBlock guards h.1)
        (blockGraphs_ne_nil rest inBlock guards h.2)

end

/-- Arms without statements may be left out as long as another arm has some. -/
theorem cases_dominated {cases : List (List CombStmt)} {hasDefault : Bool} {guards : List ℕ}
    (hplain : ∀ body ∈ cases, PlainStmts scope body false)
    (harm : hasDefault = true → ∃ body ∈ cases, body ≠ []) {f : List (List Edge) → List (List Edge)}
    (hf : Walks combMaxPaths f (((cases.filter fun body => !body.isEmpty).map fun body =>
      blockGraphs scope false body guards).flatten ++ if hasDefault then [] else [[]])) :
    Walks combMaxPaths f ((cases.map fun body => blockGraphs scope false body guards).flatten ++
      if hasDefault then [] else [[]]) := by
  have hsub : (cases.filter fun body => !body.isEmpty).Sublist cases := List.filter_sublist
  have hparts := (hsub.map fun body => blockGraphs scope false body guards).flatten
  have hall := hparts.append_right (if hasDefault then [] else [[]])
  refine hf.weaken hall.subset (fun q' hq' => ?_) hall.length_le
  -- an empty arm has the empty path
  have hsome : ∃ q, q ∈ ((cases.filter fun body => !body.isEmpty).map fun body =>
      blockGraphs scope false body guards).flatten ++ if hasDefault then [] else [[]] := by
    cases hasDefault with
    | false => exact ⟨[], by simp⟩
    | true =>
      obtain ⟨body, hbody, hne⟩ := harm rfl
      obtain ⟨q, hq⟩ := List.exists_mem_of_ne_nil _
        (blockGraphs_ne_nil body false guards (hplain body hbody))
      refine ⟨q, List.mem_append_left _ (List.mem_flatten.mpr ⟨_, List.mem_map.mpr
        ⟨body, List.mem_filter.mpr ⟨hbody, by simp [hne]⟩, rfl⟩, hq⟩)⟩
  rcases List.mem_append.mp hq' with hq' | hq'
  · obtain ⟨_, hmap, hmem⟩ := List.mem_flatten.mp hq'
    obtain ⟨body, hbody, rfl⟩ := List.mem_map.mp hmap
    by_cases hempty : body = []
    · rw [hempty, blockGraphs, List.mem_singleton] at hmem
      obtain ⟨q, hq⟩ := hsome
      exact ⟨q, hq, hmem ▸ List.nil_subset q⟩
    · exact ⟨q', List.mem_append_left _ (List.mem_flatten.mpr ⟨_, List.mem_map.mpr
        ⟨body, List.mem_filter.mpr ⟨hbody, by simp [hempty]⟩, rfl⟩, hmem⟩), List.Subset.refl q'⟩
  · exact ⟨q', List.mem_append_right _ hq', List.Subset.refl q'⟩

mutual

/-- Every statement tracks its structural paths. -/
theorem combStmt_walks : ∀ (stmt : CombStmt) (inBlock : Bool) (guards : List ℕ),
    PlainStmt scope stmt inBlock →
      Walks combMaxPaths (combStmt scope stmt inBlock) (stmtGraphs scope false stmt guards)
  | .assign direction lhs rhs, inBlock, guards, h => by
      rw [PlainStmt] at h
      intro T S hT
      rw [combStmt, stmtGraphs]
      exact Walks.add (fun e he => (recordEdges_plain h).mpr he)
        (fun e he => (recordEdges_plain h).mp he) T S hT
  | .ifChain conds bodies, inBlock, guards, h => by
      rw [PlainStmt] at h
      have hbodies := combBodies_walks bodies conds guards h.2
      intro T S hT
      rw [combStmt, stmtGraphs]
      cases inBlock with
      | true => exact Walks.branch hbodies (hasElse conds bodies) T S hT
      | false =>
        -- a nested chain is its IF alone
        obtain ⟨hconds, hlen⟩ := h.1.resolve_left Bool.false_ne_true
        have htake : (combBodies scope bodies).take 1 = combBodies scope bodies :=
          List.take_of_length_le (by rw [length_combBodies, hlen])
        have helse : hasElse conds bodies = false := by simp [hasElse, hconds, hlen]
        rw [if_neg Bool.false_ne_true, htake, Bool.false_and, helse]
        exact Walks.branch hbodies false T S hT
  | .select selector cases hasDefault, inBlock, guards, h => by
      rw [PlainStmt] at h
      obtain ⟨harm, hplain⟩ := h
      intro T S hT
      rw [combStmt, stmtGraphs, branchGraphs_cases]
      cases cases with
      | nil =>
        have hdefault : hasDefault = false := by
          cases hasDefault with
          | false => rfl
          | true => simp at harm
        rw [hdefault]
        exact Walks.id T S hT
      | cons body rest =>
        exact cases_dominated ((plainBodies_iff _).mp hplain) harm
          (Walks.branch (combCases_walks (body :: rest) _ hplain) hasDefault) T S hT
  | .block stmts, _, guards, h => by
      rw [PlainStmt] at h
      intro T S hT
      rw [combStmt, stmtGraphs]
      exact combStmts_walks stmts false guards h T S hT

theorem combStmts_walks : ∀ (stmts : List CombStmt) (inBlock : Bool) (guards : List ℕ),
    PlainStmts scope stmts inBlock →
      Walks combMaxPaths (combStmts scope stmts inBlock) (blockGraphs scope false stmts guards)
  | [], _, _, _ => by
      intro T S hT
      rw [combStmts, blockGraphs]
      exact Walks.id T S hT
  | stmt :: rest, inBlock, guards, h => by
      rw [PlainStmts] at h
      intro T S hT
      rw [combStmts, blockGraphs]
      exact (combStmt_walks stmt inBlock guards h.1).comp
        (combStmts_walks rest inBlock guards h.2) T S hT

theorem combBodies_walks : ∀ (bodies : List (List CombStmt)) (conds : List CombExpr)
    (guards : List ℕ), PlainBodies scope bodies →
      List.Forall₂ (Walks combMaxPaths) (combBodies scope bodies)
        (branchGraphs scope false bodies conds guards)
  | [], _, _, _ => by
      rw [combBodies, branchGraphs]
      exact .nil
  | body :: rest, conds, guards, h => by
      rw [PlainBodies] at h
      rw [combBodies, branchGraphs]
      exact .cons (combStmts_walks body false _ h.1) (combBodies_walks rest conds.tail _ h.2)

theorem combCases_walks : ∀ (cases : List (List CombStmt)) (guards : List ℕ),
    PlainBodies scope cases →
      List.Forall₂ (Walks combMaxPaths) (combCases scope cases)
        ((cases.filter fun body => !body.isEmpty).map fun body =>
          blockGraphs scope false body guards)
  | [], _, _ => by
      rw [combCases]
      exact .nil
  | body :: rest, guards, h => by
      rw [PlainBodies] at h
      have hrest := combCases_walks rest guards h.2
      rw [combCases]
      cases hempty : body.isEmpty with
      | true =>
        rw [List.filter_cons_of_neg (by simp [hempty]), if_pos rfl]
        exact hrest
      | false =>
        rw [List.filter_cons_of_pos (by simp [hempty]), if_neg Bool.false_ne_true]
        exact .cons (combStmts_walks body false guards h.1) hrest

end

/-! ## Ranges -/

def InRange (scope : CombScope) (paths : List (List Edge)) : Prop :=
  ∀ p ∈ paths, ∀ e ∈ p, e.1 < scope.netCount ∧ e.2 < scope.netCount

theorem InRange.join {P Q : List (List Edge)} (hP : InRange scope P) (hQ : InRange scope Q) :
    InRange scope (joinPaths P Q) := by
  intro x hx e he
  obtain ⟨p, hp, q, hq, rfl⟩ := mem_joinPaths.mp hx
  rcases List.mem_append.mp he with he | he
  · exact hP p hp e he
  · exact hQ q hq e he

theorem InRange.append {P Q : List (List Edge)} (hP : InRange scope P) (hQ : InRange scope Q) :
    InRange scope (P ++ Q) := fun x hx => (List.mem_append.mp hx).elim (hP x) (hQ x)

theorem inRange_rest (complete : Bool) :
    InRange scope (if complete then [] else [[]]) := by
  cases complete <;> simp [InRange]

mutual

theorem stmtGraphs_inRange : ∀ (stmt : CombStmt) (inBlock : Bool) (guards : List ℕ),
    PlainStmt scope stmt inBlock → InRange scope (stmtGraphs scope false stmt guards)
  | .assign direction lhs rhs, _, guards, h => by
      rw [PlainStmt] at h
      rw [stmtGraphs]
      intro p hp e he
      rw [List.mem_singleton.mp hp] at he
      exact recordEdges_inRange ((recordEdges_plain h).mpr he)
  | .ifChain conds bodies, _, guards, h => by
      rw [PlainStmt] at h
      rw [stmtGraphs]
      exact (branchGraphs_inRange bodies conds guards h.2).append (inRange_rest _)
  | .select selector cases hasDefault, _, guards, h => by
      rw [PlainStmt] at h
      rw [stmtGraphs]
      exact (branchGraphs_inRange cases [] _ h.2).append (inRange_rest _)
  | .block stmts, _, guards, h => by
      rw [PlainStmt] at h
      rw [stmtGraphs]
      exact blockGraphs_inRange stmts false guards h

theorem blockGraphs_inRange : ∀ (stmts : List CombStmt) (inBlock : Bool) (guards : List ℕ),
    PlainStmts scope stmts inBlock → InRange scope (blockGraphs scope false stmts guards)
  | [], _, _, _ => by
      rw [blockGraphs]
      simp [InRange]
  | stmt :: rest, inBlock, guards, h => by
      rw [PlainStmts] at h
      rw [blockGraphs]
      exact (stmtGraphs_inRange stmt inBlock guards h.1).join
        (blockGraphs_inRange rest inBlock guards h.2)

theorem branchGraphs_inRange : ∀ (bodies : List (List CombStmt)) (conds : List CombExpr)
    (guards : List ℕ), PlainBodies scope bodies →
      InRange scope (branchGraphs scope false bodies conds guards).flatten
  | [], _, _, _ => by
      rw [branchGraphs]
      simp [InRange]
  | body :: rest, conds, guards, h => by
      rw [PlainBodies] at h
      rw [branchGraphs, List.flatten_cons]
      exact (blockGraphs_inRange body false _ h.1).append
        (branchGraphs_inRange rest conds.tail _ h.2)

end

end

/-! ## Reports -/

namespace CombModule

variable {m : CombModule}

theorem addEdge_walks (edge : Edge × Bool) :
    Walks combMaxPaths (fun paths => addEdgeToPaths paths edge)
      (if edge.2 then [[edge.1], []] else [[edge.1]]) := by
  intro T S hT
  have hadd : Walks combMaxPaths (fun paths => paths.map fun p => p ++ [edge.1]) [[edge.1]] :=
    Walks.add (List.Subset.refl _) (List.Subset.refl _)
  cases hconditional : edge.2 with
  | true =>
    simp only [addEdgeToPaths, hconditional, if_true]
    exact Walks.branch (.cons hadd .nil) false T S hT
  | false =>
    simp only [addEdgeToPaths, hconditional, Bool.false_eq_true, if_false]
    exact hadd T S hT

theorem injectEdges_walks : ∀ edges : List (Edge × Bool),
    Walks combMaxPaths (fun paths => edges.foldl addEdgeToPaths paths) (instanceGraphs edges)
  | [] => Walks.id
  | edge :: rest => (addEdge_walks edge).comp (injectEdges_walks rest)

theorem injectAllInstanceEdges_tracks : Tracks combMaxPaths m.injectAllInstanceEdges
    (instanceGraphs (m.instanceEdges.filter fun e => m.edgeInRange e.1)) := by
  have hjoin : ∀ P : List (List Edge), joinPaths [[]] P = P := fun P => by simp [joinPaths]
  have hwalk := injectEdges_walks (m.instanceEdges.filter fun e => m.edgeInRange e.1) _ _
    (Tracks.refl [[]])
  rwa [hjoin] at hwalk

theorem instanceGraphs_inRange : ∀ {edges : List (Edge × Bool)},
    (∀ e ∈ edges, m.edgeInRange e.1 = true) → InRange m.scope (instanceGraphs edges)
  | [], _ => by simp [InRange, instanceGraphs]
  | edge :: rest, h => by
      have hedge : edge.1.1 < m.scope.netCount ∧ edge.1.2 < m.scope.netCount := by
        simpa [edgeInRange] using h edge List.mem_cons_self
      rw [instanceGraphs]
      refine InRange.join (fun p hp e he => ?_)
        (instanceGraphs_inRange fun e he => h e (List.mem_cons_of_mem edge he))
      have hp : p = [edge.1] ∨ p = [] := by
        split at hp
        · simpa using hp
        · exact .inl (List.mem_singleton.mp hp)
      rcases hp with rfl | rfl
      · rw [List.mem_singleton.mp he]
        exact hedge
      · exact absurd he List.not_mem_nil

theorem combPaths_inRange {stmts : List CombStmt} (h : PlainStmts m.scope stmts true) :
    InRange m.scope (m.combPaths stmts) :=
  (instanceGraphs_inRange fun _ he => (List.mem_filter.mp he).2).join
    (blockGraphs_inRange stmts true [] h)

/-- The report of a plain block is right for its paths. -/
theorem checkBlock_classified {stmts : List CombStmt} (h : PlainStmts m.scope stmts true) :
    m.BlockClassified stmts (m.checkBlock stmts) := by
  have htracks : Tracks combMaxPaths (combStmts m.scope stmts true m.injectAllInstanceEdges)
      (m.combPaths stmts) :=
    combStmts_walks stmts true [] h _ _ injectAllInstanceEdges_tracks
  have hrange := combPaths_inRange h
  rw [checkBlock]
  generalize combStmts m.scope stmts true m.injectAllInstanceEdges = T at htracks ⊢
  have hT : ∀ t ∈ T, ∀ e ∈ t, e.1 < m.scope.netCount ∧ e.2 < m.scope.netCount := by
    intro t ht e he
    obtain ⟨s, hs, hes⟩ := htracks.within t ht e he
    exact hrange s hs e hes
  have hunion : hasCycle T.flatten m.scope.netCount = true ↔
      Cyclic (m.combPaths stmts).flatten := by
    rw [hasCycle_iff]
    · exact ⟨Cyclic.mono fun _ he => htracks.mem_flatten.mp he,
        Cyclic.mono fun _ he => htracks.mem_flatten.mpr he⟩
    · intro e he
      obtain ⟨t, ht, het⟩ := List.mem_flatten.mp he
      exact (hT t ht e het).1
    · intro e he
      obtain ⟨t, ht, het⟩ := List.mem_flatten.mp he
      exact (hT t ht e het).2
  have hany : (T.any fun p => hasCycle p m.scope.netCount) = true ↔ ∃ t ∈ T, Cyclic t := by
    rw [List.any_eq_true]
    refine exists_congr fun t => and_congr_right fun ht => ?_
    exact hasCycle_iff (fun e he => (hT t ht e he).1) fun e he => (hT t ht e he).2
  have hup : (∃ p ∈ m.combPaths stmts, Cyclic p) → ∃ t ∈ T, Cyclic t := by
    rintro ⟨p, hp, hcycle⟩
    obtain ⟨t, ht, hsub⟩ := htracks.covers p hp
    exact ⟨t, ht, hcycle.mono hsub⟩
  have hdown : (m.combPaths stmts).length ≤ combMaxPaths → (∃ t ∈ T, Cyclic t) →
      ∃ p ∈ m.combPaths stmts, Cyclic p := by
    rintro hlen ⟨t, ht, hcycle⟩
    obtain ⟨p, hp, hsub⟩ := (htracks.exact hlen).2 t ht
    exact ⟨p, hp, hcycle.mono hsub⟩
  have hflat : (∃ t ∈ T, Cyclic t) → Cyclic (m.combPaths stmts).flatten := by
    rintro ⟨t, ht, hcycle⟩
    exact hcycle.mono fun e he => htracks.mem_flatten.mp (List.mem_flatten.mpr ⟨t, ht, he⟩)
  rw [← hany] at hup hdown hflat
  cases hpath : T.any fun p => hasCycle p m.scope.netCount with
  | true =>
    rw [if_pos rfl]
    refine ⟨?_, fun _ => rfl, fun hlen => ⟨fun _ => hdown hlen hpath, fun _ => rfl⟩,
      fun hlen => ?_⟩
    · simp [hflat hpath]
    · obtain ⟨p, hp, hcycle⟩ := hdown hlen hpath
      constructor
      · intro hreport
        cases hreport
      · rintro ⟨hnone, -⟩
        exact absurd hcycle (hnone p hp)
  | false =>
    have hnone : ¬ ∃ p ∈ m.combPaths stmts, Cyclic p := fun hex => by
      rw [hup hex] at hpath
      cases hpath
    have hall : ∀ p ∈ m.combPaths stmts, ¬ Cyclic p := fun p hp hcycle => hnone ⟨p, hp, hcycle⟩
    rw [if_neg Bool.false_ne_true]
    by_cases hcyclic : Cyclic (m.combPaths stmts).flatten
    · rw [if_pos (hunion.mpr hcyclic)]
      exact ⟨by simp [hcyclic], fun hex => absurd hex hnone, fun _ => by simp [hnone],
        fun _ => ⟨fun _ => ⟨hall, hcyclic⟩, fun _ => rfl⟩⟩
    · rw [if_neg fun hcycle => hcyclic (hunion.mp hcycle)]
      exact ⟨by simp [hcyclic], fun hex => absurd hex hnone, fun _ => by simp [hnone],
        fun _ => by simp [hcyclic]⟩

/-- The reports for plain blocks are right, block by block. -/
theorem loops_classified (m : CombModule)
    (h : ∀ stmts ∈ m.asyncBlocks, PlainStmts m.scope stmts true) :
    List.Forall₂ m.BlockClassified m.asyncBlocks m.checkCombinationalLoops := by
  rw [checkCombinationalLoops, List.forall₂_map_right_iff, List.forall₂_same]
  exact fun stmts hstmts => checkBlock_classified (h stmts hstmts)

/-- Two wires that feed each other in different branches, and then on one path. -/
def crossedWires : CombModule where
  scope := ⟨[⟨['a'], .wire⟩, ⟨['b'], .wire⟩, ⟨['s'], .port⟩]⟩
  instanceEdges := []
  asyncBlocks :=
    [[.ifChain [.identifier ['s']]
        [[.assign .receive (.identifier ['a']) (.identifier ['b'])],
          [.assign .receive (.identifier ['b']) (.identifier ['a'])]]],
      [.assign .receive (.identifier ['a']) (.identifier ['b']),
        .assign .drive (.identifier ['a']) (.identifier ['b'])]]

theorem crossedWires_classified :
    crossedWires.checkCombinationalLoops = [some .conditionalSafe, some .unconditional] ∧
      List.Forall₂ crossedWires.BlockClassified crossedWires.asyncBlocks
        crossedWires.checkCombinationalLoops := by
  refine ⟨by decide, loops_classified crossedWires ?_⟩
  simp [crossedWires, PlainStmts, PlainStmt, PlainBodies, PlainAssign, PlainTarget, PlainSource,
    PlainName]

/-- A wire that is assigned under a condition on itself. -/
def guardedWire : CombModule where
  scope := ⟨[⟨['a'], .wire⟩]⟩
  instanceEdges := []
  asyncBlocks :=
    [[.ifChain [.identifier ['a']] [[.assign .receive (.identifier ['a']) .leaf]]]]

/-- The condition closes a loop that is not reported. -/
theorem guardedWire_unclassified : ¬ guardedWire.LoopsClassified := by
  intro h
  have hreport : guardedWire.checkCombinationalLoops = [none] := by decide
  have hmem : [(0, 0)] ∈ blockGraphs guardedWire.scope true guardedWire.asyncBlocks.flatten [] := by
    decide
  have hcycle : Cyclic [(0, 0)] := ⟨0, .single List.mem_cons_self⟩
  have hunreported := h.1.mpr ⟨_, hmem, hcycle⟩
  rw [hreport] at hunreported
  simp at hunreported

end CombModule

end JzHdl

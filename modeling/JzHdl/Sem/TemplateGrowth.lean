import JzHdl.Sem.TemplateNodes

/-! # The growth of the expansion

A template may apply itself, so it is the limit on growth that ends a scan. Whatever the templates
are, the pass ends unless the evaluation of a count does not, and it stays within its limit.
-/

namespace JzHdl

/-- The counts and widths that the pass evaluates have an end. Texts are kept without the space
around them. -/
structure CountsEnd (consts : CountConsts) (f : AstFields) : Prop where

  count : f.type = .templateApply → ∀ t, f.text = some t →
    evalCountExpr consts t ≠ .hang ∧ jzStrdupTrim t = t

  width : f.type = .scratchDecl → ∀ w, f.width = some w → evalCountExpr consts w ≠ .hang

/-- The part of it that bodies keep. -/
def CountEnds (consts : CountConsts) (f : AstFields) : Prop :=
  f.type = .templateApply → ∀ t, f.text = some t →
    evalCountExpr consts t ≠ .hang ∧ jzStrdupTrim t = t

theorem countEnds_of {consts : CountConsts} (f : AstFields) (h : CountsEnd consts f) :
    CountEnds consts f := h.count

theorem countEnds_steady {consts : CountConsts} : Steady (CountEnds consts) where
  same h htype htext happly t ht := by
    rw [htype] at happly
    exact h happly t (htext happly ▸ ht)
  copy := by
    intro f h happly t ht
    change f.text.map jzStrdupTrim = some t at ht
    obtain ⟨u, hu, rfl⟩ := Option.map_eq_some_iff.mp ht
    obtain ⟨hends, htrim⟩ := h happly u hu
    rw [htrim]
    exact ⟨hends, htrim⟩
  literal htype happly := by rw [htype] at happly; cases happly
  access htype happly := by rw [happly] at htype; cases htype

/-! ## One application -/

/-- Only the reports and the flag differ. -/
theorem ExpandState.failDepth_eq (s : ExpandState) :
    ∃ rs, s.failDepth = { s with reports := rs, depthFailed := true } := by
  rw [failDepth]
  split
  · rename_i h
    exact ⟨s.reports, by rw [← h]⟩
  · exact ⟨_, rfl⟩

theorem ExpandState.failDepth_totalGrowth (s : ExpandState) :
    s.failDepth.totalGrowth = s.totalGrowth := by
  obtain ⟨rs, h⟩ := s.failDepth_eq
  rw [h]

section

variable {limits : ApplyLimits} {consts : CountConsts} {suffix : ℕ → ℕ → ℕ → List Char}

theorem afterCopy_eq (r : ℕ) (d apply : AstNode) (callsite idx : ℕ) (s : ExpandState) :
    ∃ ws rs failed, afterCopy suffix r d apply callsite idx s =
      { s with scratchWires := ws, reports := rs, depthFailed := failed } := by
  rw [afterCopy]
  split
  · obtain ⟨rs, h⟩ := ExpandState.failDepth_eq
      { s with scratchWires := s.scratchWires ++ copyWires suffix d apply callsite idx }
    exact ⟨_, rs, true, h⟩
  · exact ⟨_, s.reports, s.depthFailed, rfl⟩

/-- The copies in their order. They add wires, and may hit the nesting limit. -/
theorem expandCopies_spec {r : ℕ} {d apply : AstNode} {callsite : ℕ} :
    ∀ {idxs : List ℕ} {s s' : ExpandState} {out : Option (List AstNode)},
      expandCopies suffix r d apply callsite idxs s = (out, s') →
        (∃ ws rs failed, s' =
          { s with scratchWires := ws, reports := rs, depthFailed := failed }) ∧
        ∀ new, out = some new → new =
          idxs.flatMap fun idx => (copyStmts suffix r d apply callsite idx).map Prod.fst
  | [], s, s', out, h => by
      obtain ⟨rfl, rfl⟩ := Prod.mk.inj h
      exact ⟨⟨_, _, _, rfl⟩, fun new hnew => (Option.some.inj hnew).symm⟩
  | idx :: rest, s, s', out, h => by
      obtain ⟨ws, rs, failed, hafter⟩ := @afterCopy_eq suffix r d apply callsite idx s
      rw [expandCopies, hafter] at h
      split at h
      · obtain ⟨rfl, rfl⟩ := Prod.mk.inj h
        exact ⟨⟨_, _, _, rfl⟩, fun new hnew => by cases hnew⟩
      · split at h
        all_goals
          rename_i hrest
          obtain ⟨rfl, rfl⟩ := Prod.mk.inj h
          obtain ⟨⟨ws', rs', failed', rfl⟩, hnew⟩ := expandCopies_spec hrest
          refine ⟨⟨_, _, _, rfl⟩, fun new' hnew' => ?_⟩
        · cases hnew'
        · rw [← Option.some.inj hnew', List.flatMap_cons, hnew _ rfl]

/-- The state from which the copies are made. -/
def applied (consts : CountConsts) (d apply : AstNode) (count : ℤ) (s : ExpandState) :
    ExpandState :=
  let growth := min (count.toNat * growthPerCopy d) sizeMax
  ExpandState.reportAll { s with
    totalGrowth := if 0 < count then s.totalGrowth + growth else s.totalGrowth
    applyCounter := s.applyCounter + 1 }
    ((externalRefsAll (allowedIdent consts d apply) (bodyStmts d)).map .externalRef)

/-- An application that is expanded, with a template, a count and growth within the limits. -/
structure Expanded (limits : ApplyLimits) (consts : CountConsts)
    (suffix : ℕ → ℕ → ℕ → List Char) (r : ℕ) (scopeModule : Option ℕ) (apply : AstNode)
    (s : ExpandState) (e : TemplateEntry) (count : ℤ) (out : Option (List AstNode))
    (s' : ExpandState) : Prop where

  name : ∃ name, apply.fields.name = some name ∧ findTemplate s.templates name scopeModule = some e

  args : apply.children.length = (paramNames e.defNode).length

  value : applyCount consts apply = .value count

  nonneg : 0 ≤ count

  growth : 0 < count → min (count.toNat * growthPerCopy e.defNode) sizeMax + s.totalGrowth ≤
    limits.applyMaxGrowth

  copies : expandCopies suffix r e.defNode apply s.applyCounter (List.range count.toNat)
    (applied consts e.defNode apply count s) = (out, s')

/-- What an application does. -/
inductive ApplyStep (limits : ApplyLimits) (consts : CountConsts)
    (suffix : ℕ → ℕ → ℕ → List Char) (r : ℕ) (scopeModule : Option ℕ) (apply : AstNode)
    (s : ExpandState) : Option (List AstNode) → ExpandState → Prop

  | unnamed (h : apply.fields.name = none) :
      ApplyStep limits consts suffix r scopeModule apply s none s

  | removed (report : TemplateReport) :
      ApplyStep limits consts suffix r scopeModule apply s (some []) (s.report report)

  | hung (h : applyCount consts apply = .hang) :
      ApplyStep limits consts suffix r scopeModule apply s none s.hang

  | expanded {e : TemplateEntry} {count : ℤ} {out : Option (List AstNode)} {s' : ExpandState}
      (h : Expanded limits consts suffix r scopeModule apply s e count out s') :
      ApplyStep limits consts suffix r scopeModule apply s out s'

theorem expandApply_step {r : ℕ} {scopeModule : Option ℕ} {apply : AstNode} {s s' : ExpandState}
    {out : Option (List AstNode)}
    (h : expandApply limits consts suffix r scopeModule apply s = (out, s')) :
    ApplyStep limits consts suffix r scopeModule apply s out s' := by
  have hremoved : ∀ report, (some [], s.report report) = (out, s') →
      ApplyStep limits consts suffix r scopeModule apply s out s' := by
    intro report heq
    obtain ⟨rfl, rfl⟩ := Prod.mk.inj heq
    exact .removed report
  rw [expandApply] at h
  split at h
  · rename_i hname
    obtain ⟨rfl, rfl⟩ := Prod.mk.inj h
    exact .unnamed hname
  rename_i name hname
  split at h
  · exact hremoved _ h
  rename_i e hfind
  dsimp only at h
  split at h
  · exact hremoved _ h
  rename_i hargs
  split at h
  · rename_i hcount
    obtain ⟨rfl, rfl⟩ := Prod.mk.inj h
    exact .hung hcount
  · exact hremoved _ h
  rename_i count hcount
  split at h
  · exact hremoved _ h
  rename_i hnonneg
  split at h
  · exact hremoved _ h
  split at h
  · exact hremoved _ h
  rename_i hgrowth
  refine .expanded ⟨⟨name, hname, hfind⟩, not_not.mp hargs, hcount, not_lt.mp hnonneg,
    fun hpos => ?_, h⟩
  have hbounds := not_or.mp fun hor => hgrowth ⟨hpos, hor⟩
  omega

/-! ## Growth -/

theorem length_flatMap_const {α β : Type} {g : α → List β} {k : ℕ} (hg : ∀ x, (g x).length = k) :
    ∀ l : List α, (l.flatMap g).length = l.length * k
  | [] => by rw [List.flatMap_nil, List.length_nil, List.length_nil, Nat.zero_mul]
  | x :: l => by
      rw [List.flatMap_cons, List.length_append, hg, length_flatMap_const hg l, List.length_cons,
        Nat.add_mul, Nat.one_mul, Nat.add_comm]

theorem bodyStmts_mem {d stmt : AstNode} (h : stmt ∈ bodyStmts d) : stmt ∈ d.children := by
  have hbody := (List.mem_filter.mp h).1
  rw [templateBody, List.mem_reverse] at hbody
  exact List.mem_reverse.mp ((List.takeWhile_sublist _).subset hbody)

/-- The growth counts every statement of a copy. -/
theorem length_le_growth (d : AstNode) : (bodyStmts d).length ≤ growthPerCopy d := by
  refine (List.Sublist.length_le ?_).trans (Nat.le_add_left _ _)
  refine List.monotone_filter_right _ fun n hn => ?_
  cases hscratch : isScratch n with
  | false => rfl
  | true =>
    rw [hscratch] at hn
    cases hn

namespace Expanded

variable {r : ℕ} {scopeModule : Option ℕ} {apply : AstNode} {s s' : ExpandState}
  {e : TemplateEntry} {count : ℤ} {out : Option (List AstNode)}

/-- A node of a copy is a statement of the body, substituted. -/
theorem mem_new {new : List AstNode}
    (h : Expanded limits consts suffix r scopeModule apply s e count (some new) s') {c : AstNode}
    (hc : c ∈ new) : ∃ idx, ∃ stmt ∈ bodyStmts e.defNode,
      c = (substituteInNode (copySubstitution suffix e.defNode apply s.applyCounter idx) r
        (astDeepClone stmt)).1 := by
  rw [(expandCopies_spec h.copies).2 new rfl, List.mem_flatMap] at hc
  obtain ⟨idx, _, hc⟩ := hc
  rw [copyStmts, List.map_map, List.mem_map] at hc
  obtain ⟨stmt, hstmt, rfl⟩ := hc
  exact ⟨idx, stmt, hstmt, rfl⟩

/-- The growth pays for the nodes. -/
theorem paid (h : Expanded limits consts suffix r scopeModule apply s e count out s')
    (hlimit : limits.applyMaxGrowth < sizeMax) (hs : s.totalGrowth ≤ limits.applyMaxGrowth) :
    s.totalGrowth ≤ s'.totalGrowth ∧ s'.totalGrowth ≤ limits.applyMaxGrowth ∧
      ∀ new, out = some new → s.totalGrowth + new.length ≤ s'.totalGrowth := by
  obtain ⟨⟨ws, rs, failed, rfl⟩, hnew⟩ := expandCopies_spec h.copies
  have hgrowth : (applied consts e.defNode apply count s).totalGrowth =
      s.totalGrowth + count.toNat * growthPerCopy e.defNode ∧
        s.totalGrowth + count.toNat * growthPerCopy e.defNode ≤ limits.applyMaxGrowth := by
    change (if 0 < count then _ else s.totalGrowth) = _ ∧ _
    by_cases hpos : 0 < count
    · have hle := h.growth hpos
      rw [if_pos hpos]
      omega
    · have hzero : count.toNat = 0 := by omega
      rw [if_neg hpos, hzero, Nat.zero_mul]
      exact ⟨rfl, hs⟩
  refine ⟨?_, hgrowth.1.trans_le hgrowth.2, fun new hout => ?_⟩
  · exact (Nat.le_add_right _ _).trans_eq hgrowth.1.symm
  · have hlength : new.length = count.toNat * (bodyStmts e.defNode).length := by
      rw [hnew new hout, length_flatMap_const (fun idx => ?_), List.length_range]
      rw [List.length_map, copyStmts, List.length_map]
    change _ ≤ (applied consts e.defNode apply count s).totalGrowth
    rw [hgrowth.1, hlength]
    exact Nat.add_le_add_left (Nat.mul_le_mul_left _ (length_le_growth _)) _

end Expanded

/-! ## Runs -/

/-- The state while the pass runs: the templates keep the property, the growth is within its limit
and no evaluation goes on without an end. -/
structure Running (limits : ApplyLimits) (P : AstFields → Prop) (s : ExpandState) : Prop where

  templates : ∀ e ∈ s.templates, AllNodes P e.defNode

  growth : s.totalGrowth ≤ limits.applyMaxGrowth

  running : s.hung = false

/-- A node and a state that a run reaches. Growth is never given back. -/
structure Reached (limits : ApplyLimits) (P : AstFields → Prop) (s : ExpandState) (n : AstNode)
    (s' : ExpandState) : Prop where

  node : AllNodes P n

  state : Running limits P s'

  grown : s.totalGrowth ≤ s'.totalGrowth

theorem Reached.back {limits : ApplyLimits} {P : AstFields → Prop} {s s' s'' : ExpandState}
    {n : AstNode} (h : Reached limits P s' n s'') (hle : s.totalGrowth ≤ s'.totalGrowth) :
    Reached limits P s n s'' :=
  ⟨h.node, h.state, hle.trans h.grown⟩

/-- The wrapped definition keeps the property of the node inside. -/
def KeepsAll (P : AstFields → Prop) (K : Context) : Prop :=
  ∀ k, K = some k → ∀ n, AllNodes P n → AllNodes P (k n)

theorem keepsAll_none (P : AstFields → Prop) : KeepsAll P none := fun _ h => by cases h

section

variable {P : AstFields → Prop}

namespace Running

variable {s : ExpandState}

theorem failDepth (h : Running limits P s) : Running limits P s.failDepth := by
  obtain ⟨rs, hs⟩ := s.failDepth_eq
  rw [hs]
  exact ⟨h.templates, h.growth, h.running⟩

theorem reportAll (h : Running limits P s) (rs : List TemplateReport) :
    Running limits P (s.reportAll rs) :=
  ⟨h.templates, h.growth, h.running⟩

theorem put {K : Context} (hK : KeepsAll P K) {n : AstNode} (hn : AllNodes P n)
    (h : Running limits P s) :
    Running limits P (K.put n s) ∧ (K.put n s).totalGrowth = s.totalGrowth := by
  cases K with
  | none => exact ⟨h, rfl⟩
  | some k =>
    refine ⟨⟨fun e he => ?_, h.growth, h.running⟩, rfl⟩
    obtain ⟨e', he', rfl⟩ := List.mem_map.mp he
    split
    · exact hK k rfl n hn
    · exact h.templates e' he'

end Running

theorem findTemplate_mem {templates : List TemplateEntry} {name : List Char}
    {scopeModule : Option ℕ} {e : TemplateEntry}
    (h : findTemplate templates name scopeModule = some e) : e ∈ templates := by
  rw [findTemplate] at h
  split at h
  · rename_i hfind
    exact List.mem_of_find?_eq_some (hfind.trans h)
  · exact (List.mem_filter.mp (List.mem_of_getLast? h)).1

/-- The nodes of an application are steady, and they are paid for. -/
theorem apply_reached (hP : Steady P) (hends : ∀ f, P f → CountEnds consts f)
    (hlimit : limits.applyMaxGrowth < sizeMax) {r : ℕ} {scopeModule : Option ℕ} {apply : AstNode}
    {s s' : ExpandState} {out : Option (List AstNode)} (htype : apply.type = .templateApply)
    (happly : AllNodes P apply) (hs : Running limits P s)
    (h : ApplyStep limits consts suffix r scopeModule apply s out s') :
    Reached limits P s apply s' ∧ ∀ new, out = some new → (∀ c ∈ new, AllNodes P c) ∧
      s.totalGrowth + new.length ≤ s'.totalGrowth := by
  cases h with
  | unnamed _ => exact ⟨⟨happly, hs, le_rfl⟩, fun _ hnew => by cases hnew⟩
  | hung hcount =>
    rw [applyCount] at hcount
    split at hcount
    · cases hcount
    · rename_i t ht
      exact absurd hcount (hends _ happly.fields htype t ht).1
  | removed report =>
    refine ⟨⟨happly, hs.reportAll _, le_rfl⟩, fun new hnew => ?_⟩
    obtain rfl := Option.some.inj hnew
    exact ⟨fun c hc => absurd hc List.not_mem_nil, le_rfl⟩
  | expanded h =>
    obtain ⟨name, _, hfind⟩ := h.name
    have hdef := hs.templates _ (findTemplate_mem hfind)
    obtain ⟨hgrown, hle, hpaid⟩ := h.paid hlimit hs.growth
    have hs' : Running limits P s' := by
      obtain ⟨⟨ws, rs, failed, rfl⟩, -⟩ := expandCopies_spec h.copies
      exact ⟨hs.templates, hle, hs.running⟩
    refine ⟨⟨happly, hs', hgrown⟩, fun new hnew => ⟨fun c hc => ?_, hpaid new hnew⟩⟩
    subst hnew
    obtain ⟨idx, stmt, hstmt, rfl⟩ := h.mem_new hc
    refine AllNodes.substitute hP (fun arg harg => ?_) r
      ((hdef.children stmt (bodyStmts_mem hstmt)).clone hP)
    exact happly.children _ (List.of_mem_zip harg).2

variable (suffix)

/-- A scan is never out of steps, since a body that is scanned again is paid for. -/
theorem expandChildren_reached (hP : Steady P) (hends : ∀ f, P f → CountEnds consts f)
    (hlimit : limits.applyMaxGrowth < sizeMax)
    {visit : Context → AstNode → ExpandState → (AstNode × Bool) × ExpandState}
    (hvisit : ∀ K n s, KeepsAll P K → AllNodes P n → Running limits P s →
      Reached limits P s (visit K n s).1.1 (visit K n s).2)
    (r : ℕ) (scopeModule : Option ℕ) {K : Context} {f : AstFields} (hK : KeepsAll P K) (hf : P f) :
    ∀ (fuel : ℕ) {scanned rest : List AstNode} {s : ExpandState},
      rest.length + (limits.applyMaxGrowth - s.totalGrowth) ≤ fuel →
        (∀ c ∈ scanned, AllNodes P c) → (∀ c ∈ rest, AllNodes P c) → Running limits P s →
          Reached limits P s
            (expandChildren limits consts suffix visit r scopeModule K f fuel scanned rest s).1.1
            (expandChildren limits consts suffix visit r scopeModule K f fuel scanned rest s).2
  | _, scanned, [], s, _, hscanned, _, hs => by
      rw [expandChildren]
      exact ⟨.mk hf hscanned, hs, le_rfl⟩
  | 0, _, child :: rest, _, hfuel, _, _, _ => by
      rw [List.length_cons] at hfuel
      omega
  | fuel + 1, scanned, child :: rest, s, hfuel, hscanned, hrest, hs => by
      obtain ⟨hchild, hothers⟩ := List.forall_mem_cons.mp hrest
      rw [List.length_cons] at hfuel
      have hwith : ∀ m, AllNodes P m → AllNodes P (.mk f (scanned ++ m :: rest)) := fun m hm =>
        .mk hf fun c hc => (List.mem_append.mp hc).elim (hscanned c)
          (List.forall_mem_cons.mpr ⟨hm, hothers⟩ c)
      have happend : ∀ ms : List AstNode, (∀ c ∈ ms, AllNodes P c) →
          ∀ c ∈ scanned ++ ms, AllNodes P c := fun ms hms c hc =>
        (List.mem_append.mp hc).elim (hscanned c) (hms c)
      rw [expandChildren]
      split
      · rename_i htype
        obtain ⟨hput, hsame⟩ := hs.put hK (hwith child hchild)
        split
        · rename_i hstep
          obtain ⟨hreached, -⟩ := apply_reached hP hends hlimit htype hchild hput
            (expandApply_step hstep)
          exact ⟨hwith child hchild, hreached.state, hsame ▸ hreached.grown⟩
        · rename_i new s' hstep
          obtain ⟨hreached, hpaid⟩ := apply_reached hP hends hlimit htype hchild hput
            (expandApply_step hstep)
          obtain ⟨hnew, hlength⟩ := hpaid new rfl
          have hgrown := hsame ▸ hreached.grown
          have hmax := hreached.state.growth
          rw [hsame] at hlength
          split
          · exact (expandChildren_reached hP hends hlimit hvisit r scopeModule hK hf fuel
              (by omega) (happend new hnew) hothers hreached.state).back hgrown
          · have hmore : ∀ c ∈ new ++ rest, AllNodes P c := fun c hc =>
              (List.mem_append.mp hc).elim (hnew c) (hothers c)
            exact (expandChildren_reached hP hends hlimit hvisit r scopeModule hK hf fuel
              (by rw [List.length_append]; omega) hscanned hmore hreached.state).back hgrown
      · have hinner : KeepsAll P (K.child f scanned rest child) := by
          intro k hk n hn
          rw [Context.child] at hk
          split at hk
          · obtain rfl := Option.some.inj hk
            exact hn
          · obtain ⟨k', rfl, rfl⟩ := Option.map_eq_some_iff.mp hk
            exact hK k' rfl _ (hwith n hn)
        have hreached := hvisit _ child s hinner hchild hs
        split
        · rename_i m s' hstep
          rw [hstep] at hreached
          exact ⟨hwith m hreached.node, hreached.state, hreached.grown⟩
        · rename_i m s' hstep
          rw [hstep] at hreached
          obtain ⟨hm, hs', hgrown⟩ : Reached limits P s m s' := hreached
          exact (expandChildren_reached hP hends hlimit hvisit r scopeModule hK hf fuel (by omega)
            (happend [m] (List.forall_mem_singleton.mpr hm)) hothers hs').back hgrown

theorem expandAppliesInNode_reached (hP : Steady P) (hends : ∀ f, P f → CountEnds consts f)
    (hlimit : limits.applyMaxGrowth < sizeMax) :
    ∀ (r : ℕ) (scopeModule : Option ℕ) (K : Context) (n : AstNode) (s : ExpandState),
      KeepsAll P K → AllNodes P n → Running limits P s → Reached limits P s
        (expandAppliesInNode limits consts suffix r scopeModule K n s).1.1
        (expandAppliesInNode limits consts suffix r scopeModule K n s).2
  | 0, _, _, _, s, _, hn, hs => ⟨hn, hs.failDepth, (s.failDepth_totalGrowth).ge⟩
  | r + 1, scopeModule, K, n, s, hK, hn, hs => by
      have hreached := expandChildren_reached suffix hP hends hlimit
        (expandAppliesInNode_reached hP hends hlimit r (scopeOf n scopeModule)) r
        (scopeOf n scopeModule) (s := s) hK hn.fields _ le_rfl
        (fun c hc => absurd hc List.not_mem_nil) hn.children hs
      obtain ⟨hput, hsame⟩ := hreached.state.put hK hreached.node
      rw [expandAppliesInNode]
      exact ⟨hreached.node, hput, hsame ▸ hreached.grown⟩

end

/-! ## The pass -/

theorem checkScratchWidth_running {P : AstFields → Prop} {params : List (List Char)}
    {s : ExpandState} {decl : AstNode} (htype : decl.type = .scratchDecl)
    (hdecl : CountsEnd consts decl.fields) (hs : Running limits P s) :
    Running limits P (checkScratchWidth consts params s decl) := by
  rw [checkScratchWidth]
  split
  · exact hs
  rename_i width hwidth
  split
  · exact hs.reportAll _
  split
  · rename_i hhang
    exact absurd hhang (hdecl.width htype width hwidth)
  · split
    · exact hs
    · exact hs.reportAll _
  · split
    · exact hs.reportAll _
    · exact hs

theorem registerTemplate_running {d : AstNode} {scopeModule : Option ℕ} {s : ExpandState}
    (hd : AllNodes (CountsEnd consts) d) (hs : Running limits (CountEnds consts) s) :
    Running limits (CountEnds consts) (registerTemplate consts d scopeModule s) := by
  rw [registerTemplate]
  dsimp only
  split
  · exact hs.reportAll _
  · have h := List.foldlRecOn (d.children.filter isScratch)
      (checkScratchWidth consts (paramNames d))
      ((hs.reportAll ((repeated (paramNames d)).map .dupParam)).reportAll
        ((shadowed ((paramNames d).take 64) []
          ((namedScratch d).map fun n => n.fields.name.getD [])).map .scratchShadow))
      fun t ht n hn => by
        obtain ⟨hn, hscratch⟩ := List.mem_filter.mp hn
        exact checkScratchWidth_running (of_decide_eq_true hscratch) (hd.children n hn).fields ht
    refine ⟨fun e he => ?_, h.growth, h.running⟩
    rcases List.mem_append.mp he with he | he
    · exact h.templates e he
    · obtain rfl := List.mem_singleton.mp he
      exact hd.imp countEnds_of

theorem collectTemplates_running : ∀ (r : ℕ) {current : Option ℕ} {n : AstNode} {s : ExpandState},
    AllNodes (CountsEnd consts) n → Running limits (CountEnds consts) s →
      Running limits (CountEnds consts) (collectTemplates consts r current n s)
  | 0, _, _, _, _, hs => hs.failDepth
  | r + 1, current, n, s, hn, hs => by
      rw [collectTemplates]
      split
      · exact registerTemplate_running hn hs
      · exact List.foldlRecOn _ _ hs fun t ht c hc =>
          collectTemplates_running r (hn.children c hc) ht

theorem expandModules_running (hlimit : limits.applyMaxGrowth < sizeMax) :
    ∀ {children : List AstNode} {s : ExpandState},
      (∀ c ∈ children, AllNodes (CountsEnd consts) c) → Running limits (CountEnds consts) s →
        Running limits (CountEnds consts) (expandModules limits consts suffix children s).2
  | [], _, _, hs => hs
  | child :: rest, s, hchildren, hs => by
      obtain ⟨hchild, hrest⟩ := List.forall_mem_cons.mp hchildren
      rw [expandModules]
      split
      · have hreached := expandAppliesInNode_reached suffix countEnds_steady (fun _ h => h) hlimit
          templateExpandDepth (scopeOf child none) none child { s with scratchWires := [] }
          (keepsAll_none _) (hchild.imp countEnds_of) ⟨hs.templates, hs.growth, hs.running⟩
        split
        rename_i hresult
        rw [hresult] at hreached
        exact expandModules_running hlimit hrest hreached.state
      · exact expandModules_running hlimit hrest hs

theorem running_start (P : AstFields → Prop) : Running limits P .start where
  templates _ he := absurd he List.not_mem_nil
  growth := Nat.zero_le _
  running := rfl

theorem collectedState_running {root : AstNode}
    (hroot : AllNodes (CountsEnd (projectConsts root)) root) :
    Running limits (CountEnds (projectConsts root)) (collectedState root) := by
  refine collectTemplates_running templateExpandDepth hroot ?_
  split
  · exact (running_start _).failDepth
  · exact running_start _

/-- The pass ends on every project, also when templates apply themselves, and the growth that it
has counted is within its limit. -/
theorem jzTemplateExpand_ends (hlimit : limits.applyMaxGrowth < sizeMax)
    (suffix : ℕ → ℕ → ℕ → List Char) {root : AstNode}
    (hroot : AllNodes (CountsEnd (projectConsts root)) root) :
    ∃ tree s, jzTemplateExpand limits suffix root = some (tree, s) ∧
      s.totalGrowth ≤ limits.applyMaxGrowth := by
  have hlast : Running limits (CountEnds (projectConsts root))
      (expandedModules limits suffix root).2 :=
    expandModules_running hlimit hroot.children (collectedState_running hroot)
  rw [jzTemplateExpand]
  refine ⟨_, _, if_neg fun hhung => Bool.false_ne_true (hlast.running.symm.trans hhung), ?_⟩
  split
  · rw [ExpandState.failDepth_totalGrowth]
    exact hlast.growth
  · exact hlast.growth

/-- A template that applies itself between two statements, and a module that applies it. -/
def recursiveProject : AstNode :=
  .mk { type := .other 0 } [
    .mk { type := .templateDef 1, name := some ['t'] } [
      .mk { type := .other 1 } [], .mk { type := .templateApply, name := some ['t'] } [],
      .mk { type := .other 1 } []],
    .mk { type := .module 2, name := some ['m'] } [
      .mk { type := .templateApply, name := some ['t'] } []]]

theorem countsEnd_of_none {f : AstFields} (htext : f.text = none) (hwidth : f.width = none) :
    CountsEnd consts f where
  count _ t ht := by rw [htext] at ht; cases ht
  width _ w hw := by rw [hwidth] at hw; cases hw

theorem jzTemplateExpand_ends_recursive :
    (7 : ℕ) < sizeMax ∧ ∃ tree s,
      jzTemplateExpand ⟨4, 7⟩ (fun _ _ _ => []) recursiveProject = some (tree, s) ∧
        s.totalGrowth ≤ 7 := by
  refine ⟨by decide, jzTemplateExpand_ends (show 7 < sizeMax by decide) _ ?_⟩
  have hleaf : ∀ f : AstFields, f.text = none → f.width = none →
      AllNodes (CountsEnd (projectConsts recursiveProject)) (.mk f []) := fun f htext hwidth =>
    .mk (countsEnd_of_none htext hwidth) fun _ h => absurd h List.not_mem_nil
  rw [recursiveProject]
  refine .mk (countsEnd_of_none rfl rfl) (List.forall_mem_cons.mpr ⟨.mk (countsEnd_of_none rfl rfl)
    ?_, List.forall_mem_singleton.mpr (.mk (countsEnd_of_none rfl rfl) ?_)⟩)
  · exact List.forall_mem_cons.mpr ⟨hleaf _ rfl rfl, List.forall_mem_cons.mpr ⟨hleaf _ rfl rfl,
      List.forall_mem_singleton.mpr (hleaf _ rfl rfl)⟩⟩
  · exact List.forall_mem_singleton.mpr (hleaf _ rfl rfl)

end

end JzHdl

import JzHdl.Sem.NetGraph

/-! # Merging and recording nets

A merge joins the classes of two declarations and keeps the nets a partition of
all declarations. Recording a user appends to the list of one net.
-/

namespace JzHdl

/-! ## Merging -/

namespace NetGraph

/-- The nets partition the declarations by the pairs merged so far, and no statement uses them
yet. -/
structure Merged (decls : List ℕ) (pairs : List (ℕ × ℕ)) (g : NetGraph) : Prop where

  bound : ∀ d, (g.bind d).isSome = true ↔ d ∈ decls

  range : ∀ d ix, g.bind d = some ix → ix < g.count

  atoms : ∀ d ix, d ∈ (g.nets ix).atoms ↔ g.bind d = some ix

  nodup : ∀ ix, (g.nets ix).atoms.Nodup

  same : ∀ d ∈ decls, ∀ e ∈ decls,
    (g.bind d = g.bind e ↔ Relation.EqvGen (fun x y => (x, y) ∈ pairs) d e)

  unused : ∀ ix, (g.nets ix).driverStmts = [] ∧ (g.nets ix).sinkStmts = []

theorem eqvGen_nil {d e : ℕ} : Relation.EqvGen (fun x y => (x, y) ∈ ([] : List (ℕ × ℕ))) d e ↔
    d = e := by
  constructor
  · intro h
    induction h with
    | rel x y h => exact absurd h List.not_mem_nil
    | refl x => rfl
    | symm x y _ ih => exact ih.symm
    | trans x y z _ _ ih ih' => exact ih.trans ih'
  · rintro rfl
    exact .refl _

theorem nodup_netDecls (scope : CombScope) : scope.netDecls.Nodup := List.nodup_range.filter _

theorem idxOf?_eq_some_iff {l : List ℕ} (h : l.Nodup) {d ix : ℕ} :
    l.idxOf? d = some ix ↔ l[ix]? = some d := by
  induction l generalizing ix with
  | nil => simp
  | cons x rest ih =>
    obtain ⟨hx, hrest⟩ := List.nodup_cons.mp h
    rw [List.idxOf?_cons]
    by_cases hxd : x = d
    · subst hxd
      cases ix with
      | zero => simp
      | succ ix =>
        simp only [beq_self_eq_true, if_true, Option.some.injEq, List.getElem?_cons_succ]
        exact iff_of_false (by omega) fun hget => hx (List.mem_of_getElem? hget)
    · rw [if_neg (by simpa using hxd)]
      cases ix with
      | zero => simp [hxd]
      | succ ix => simp [ih hrest]

theorem merged_initial (scope : CombScope) :
    Merged scope.netDecls [] (buildInitial scope) where
  bound d := by simp [buildInitial]
  range d ix h := (List.getElem?_eq_some_iff.mp
    ((idxOf?_eq_some_iff (nodup_netDecls scope)).mp h)).1
  atoms d ix := by
    rw [buildInitial, idxOf?_eq_some_iff (nodup_netDecls scope), Option.mem_toList]
  nodup ix := by
    change (scope.netDecls[ix]?).toList.Nodup
    cases scope.netDecls[ix]? with
    | none => exact List.nodup_nil
    | some d => exact List.nodup_singleton d
  same d hd e he := by
    rw [eqvGen_nil]
    constructor
    · intro h
      obtain ⟨ix, hix⟩ := Option.isSome_iff_exists.mp
        (show ((buildInitial scope).bind d).isSome = true by simp [buildInitial, hd])
      have hd' := (idxOf?_eq_some_iff (nodup_netDecls scope)).mp hix
      have he' := (idxOf?_eq_some_iff (nodup_netDecls scope)).mp (h.symm.trans hix)
      exact Option.some.inj (hd'.symm.trans he')
    · rintro rfl
      rfl
  unused ix := ⟨rfl, rfl⟩

variable {decls : List ℕ} {pairs : List (ℕ × ℕ)} {g : NetGraph} {a b d e : ℕ}

/-- The index of a net after a merge. -/
def mergedIndex (a b ix : ℕ) : ℕ := if ix = max a b then min a b else ix

theorem mergedIndex_eq_iff {i j : ℕ} : mergedIndex a b i = mergedIndex a b j ↔
    i = j ∨ (i = a ∧ j = b) ∨ (i = b ∧ j = a) := by
  unfold mergedIndex
  split <;> split <;> omega

theorem mergeDecls_eq (h : Merged decls pairs g) (hd : g.bind d = some a) (he : g.bind e = some b)
    (hne : a ≠ b) : (g.mergeDecls (d, e)).bind = (fun x => (g.bind x).map (mergedIndex a b)) ∧
      (g.mergeDecls (d, e)).count = g.count ∧
      ∀ ix, ((g.mergeDecls (d, e)).nets ix) =
        if ix = min a b then
          ⟨(g.nets (min a b)).atoms ++ (g.nets (max a b)).atoms, [], []⟩
        else if ix = max a b then Net.empty else g.nets ix := by
  have ha := h.range d a hd
  have hb := h.range e b he
  have hmerge : g.mergeDecls (d, e) = g.merge a b := by
    rw [mergeDecls, hd, he]
  have hgo : ¬ (a = b ∨ g.count ≤ a ∨ g.count ≤ b) := by omega
  rw [hmerge, merge, if_neg hgo]
  refine ⟨rfl, rfl, fun ix => ?_⟩
  dsimp only
  rw [(h.unused (min a b)).1, (h.unused (max a b)).1, (h.unused (min a b)).2,
    (h.unused (max a b)).2]
  rfl

theorem eqvGen_snoc_mono {x y : ℕ} (p : ℕ × ℕ)
    (h : Relation.EqvGen (fun x y => (x, y) ∈ pairs) x y) :
    Relation.EqvGen (fun x y => (x, y) ∈ pairs ++ [p]) x y :=
  Relation.EqvGen.mono (fun _ _ h => List.mem_append_left _ h) _ _ h

/-- A merge joins the classes of its two declarations and no others. -/
theorem Merged.mergeDecls (h : Merged decls pairs g)
    (hpairs : ∀ p ∈ pairs, p.1 ∈ decls ∧ p.2 ∈ decls) (hd : d ∈ decls) (he : e ∈ decls) :
    Merged decls (pairs ++ [(d, e)]) (g.mergeDecls (d, e)) := by
  obtain ⟨a, ha⟩ := Option.isSome_iff_exists.mp ((h.bound d).mpr hd)
  obtain ⟨b, hb⟩ := Option.isSome_iff_exists.mp ((h.bound e).mpr he)
  have hnew : Relation.EqvGen (fun x y => (x, y) ∈ pairs ++ [(d, e)]) d e :=
    .rel _ _ (List.mem_append_right _ (List.mem_singleton_self _))
  by_cases hne : a = b
  · have hsame : g.mergeDecls (d, e) = g := by
      rw [NetGraph.mergeDecls, ha, hb]
      dsimp only
      rw [merge, if_pos (.inl hne)]
    rw [hsame]
    refine ⟨h.bound, h.range, h.atoms, h.nodup, fun x hx y hy => ?_, h.unused⟩
    rw [h.same x hx y hy]
    refine ⟨eqvGen_snoc_mono _, fun hxy => ?_⟩
    have hold : Relation.EqvGen (fun x y => (x, y) ∈ pairs) d e :=
      (h.same d hd e he).mp (by rw [ha, hb, hne])
    clear hx hy
    induction hxy with
    | rel x y hmem =>
      rcases List.mem_append.mp hmem with hmem | hmem
      · exact .rel _ _ hmem
      · obtain ⟨rfl, rfl⟩ := Prod.mk.inj (List.mem_singleton.mp hmem)
        exact hold
    | refl x => exact .refl x
    | symm x y _ ih => exact ih.symm
    | trans x y z _ _ ih ih' => exact ih.trans _ _ _ ih'
  obtain ⟨hbind, hcount, hnets⟩ := mergeDecls_eq h ha hb hne
  have hbindEq : ∀ x ix, (g.mergeDecls (d, e)).bind x = some ix ↔
      ∃ i, g.bind x = some i ∧ mergedIndex a b i = ix := by
    intro x ix
    rw [hbind, Option.map_eq_some_iff]
  refine ⟨fun x => ?_, fun x ix hx => ?_, fun x ix => ?_, fun ix => ?_, fun x hx y hy => ?_,
    fun ix => ?_⟩
  · rw [hbind, Option.isSome_map, h.bound]
  · obtain ⟨i, hi, rfl⟩ := (hbindEq x ix).mp hx
    have hia := h.range x i hi
    have haa := h.range d a ha
    have hbb := h.range e b hb
    rw [hcount]
    unfold mergedIndex
    split <;> omega
  · rw [hbindEq, hnets]
    unfold mergedIndex
    constructor
    · intro hx
      split at hx
      · rename_i hix
        rcases List.mem_append.mp hx with hx | hx
        · exact ⟨min a b, (h.atoms x _).mp hx, by rw [if_neg (by omega), hix]⟩
        · exact ⟨max a b, (h.atoms x _).mp hx, by rw [if_pos rfl, hix]⟩
      · split at hx
        · exact absurd hx List.not_mem_nil
        · rename_i hmin hmax
          exact ⟨ix, (h.atoms x _).mp hx, if_neg hmax⟩
    · rintro ⟨i, hi, hix⟩
      have hx := (h.atoms x i).mpr hi
      split at hix
      · rename_i hmax
        rw [if_pos hix.symm]
        exact List.mem_append_right _ (hmax ▸ hx)
      · rename_i hmax
        subst hix
        split
        · rename_i hmin
          exact List.mem_append_left _ (hmin ▸ hx)
        · exact hx
  · rw [hnets]
    split
    · refine List.Nodup.append (h.nodup _) (h.nodup _) fun x hx hx' => ?_
      have h1 := (h.atoms x _).mp hx
      have h2 := (h.atoms x _).mp hx'
      have hminmax := Option.some.inj (h1.symm.trans h2)
      omega
    · split
      · exact List.nodup_nil
      · exact h.nodup ix
  · obtain ⟨i, hi⟩ := Option.isSome_iff_exists.mp ((h.bound x).mpr hx)
    obtain ⟨j, hj⟩ := Option.isSome_iff_exists.mp ((h.bound y).mpr hy)
    constructor
    · intro hxy
      simp only [hbind, hi, hj, Option.map_some, Option.some.injEq, mergedIndex_eq_iff] at hxy
      have class_of : ∀ {u v : ℕ}, u ∈ decls → v ∈ decls → g.bind u = g.bind v →
          Relation.EqvGen (fun x y => (x, y) ∈ pairs ++ [(d, e)]) u v :=
        fun hu hv huv => eqvGen_snoc_mono _ ((h.same _ hu _ hv).mp huv)
      rcases hxy with rfl | ⟨rfl, rfl⟩ | ⟨rfl, rfl⟩
      · exact class_of hx hy (hi.trans hj.symm)
      · exact ((class_of hx hd (hi.trans ha.symm)).trans _ _ _ hnew).trans _ _ _
          (class_of he hy (hb.trans hj.symm))
      · exact ((class_of hx he (hi.trans hb.symm)).trans _ _ _ hnew.symm).trans _ _ _
          (class_of hd hy (ha.trans hj.symm))
    · intro hxy
      clear hx hy hi hj
      rw [hbind]
      induction hxy with
      | rel x y hmem =>
        rcases List.mem_append.mp hmem with hmem | hmem
        · obtain ⟨hx, hy⟩ := hpairs _ hmem
          exact congrArg _ ((h.same x hx y hy).mpr (.rel _ _ hmem))
        · obtain ⟨rfl, rfl⟩ := Prod.mk.inj (List.mem_singleton.mp hmem)
          dsimp only
          rw [ha, hb, Option.map_some, Option.map_some, Option.some.injEq, mergedIndex_eq_iff]
          exact .inr (.inl ⟨rfl, rfl⟩)
      | refl x => rfl
      | symm x y _ ih => exact ih.symm
      | trans x y z _ _ ih ih' => exact ih.trans ih'
  · rw [hnets]
    split
    · exact ⟨rfl, rfl⟩
    · split
      · exact ⟨rfl, rfl⟩
      · exact h.unused ix

theorem merged_foldl (scope : CombScope) : ∀ {rest done : List (ℕ × ℕ)} {g : NetGraph},
    Merged scope.netDecls done g →
    (∀ p ∈ done ++ rest, p.1 ∈ scope.netDecls ∧ p.2 ∈ scope.netDecls) →
      Merged scope.netDecls (done ++ rest) (rest.foldl NetGraph.mergeDecls g)
  | [], done, g, h, _ => by rwa [List.append_nil]
  | p :: rest, done, g, h, hdecls => by
      have hp := hdecls p (List.mem_append_right _ List.mem_cons_self)
      have hstep := h.mergeDecls (fun q hq => hdecls q (List.mem_append_left _ hq)) hp.1 hp.2
      rw [List.append_cons] at hdecls ⊢
      exact merged_foldl scope hstep hdecls

/-! ## Recording -/

/-- Recording appends to the lists of the nets and changes nothing else. -/
structure Recorded (marks : List NetMark) (g g' : NetGraph) : Prop where

  bind : g'.bind = g.bind

  count : g'.count = g.count

  atoms : ∀ ix, (g'.nets ix).atoms = (g.nets ix).atoms

  drivers : ∀ ix stmt, stmt ∈ (g'.nets ix).driverStmts ↔ stmt ∈ (g.nets ix).driverStmts ∨
    ∃ d, g.bind d = some ix ∧ .driver d stmt ∈ marks

  sinks : ∀ ix stmt, stmt ∈ (g'.nets ix).sinkStmts ↔ stmt ∈ (g.nets ix).sinkStmts ∨
    ∃ d, g.bind d = some ix ∧ .sink d stmt ∈ marks

/-- Recording at a declaration changes the net of the declaration only. -/
theorem recordAt_eq (hrange : ∀ d ix, g.bind d = some ix → ix < g.count) (append : Net → Net) :
    (g.recordAt d append).bind = g.bind ∧ (g.recordAt d append).count = g.count ∧
    ∀ ix, (g.recordAt d append).nets ix =
      if g.bind d = some ix then append (g.nets ix) else g.nets ix := by
  unfold recordAt
  cases hd : g.bind d with
  | none => exact ⟨rfl, rfl, fun ix => (if_neg nofun).symm⟩
  | some i =>
    have hlt := hrange d i hd
    dsimp only
    rw [if_neg (by omega)]
    refine ⟨rfl, rfl, fun ix => ?_⟩
    dsimp only
    by_cases hix : ix = i
    · rw [if_pos hix, if_pos (congrArg some hix.symm), hix]
    · rw [if_neg hix, if_neg fun h => hix (Option.some.inj h).symm]

/-- A statement is new in the list of one net. -/
theorem mem_appended {old : List ℕ} {p : Prop} [Decidable p] {s stmt : ℕ} :
    (s ∈ if p then old ++ [stmt] else old) ↔ s ∈ old ∨ (p ∧ s = stmt) := by
  split
  · rename_i hp
    rw [List.mem_append, List.mem_singleton, and_iff_right hp]
  · rename_i hp
    rw [or_iff_left fun h => hp h.1]

theorem recorded_record (hrange : ∀ d ix, g.bind d = some ix → ix < g.count) (mark : NetMark) :
    Recorded [mark] g (g.record mark) := by
  cases mark with
  | driver d stmt =>
    obtain ⟨hbind, hcount, hnets⟩ := recordAt_eq (d := d) hrange fun net =>
      { net with driverStmts := net.driverStmts ++ [stmt] }
    refine ⟨hbind, hcount, fun ix => ?_, fun ix s => ?_, fun ix s => ?_⟩ <;>
      rw [record, hnets]
    · split <;> rfl
    · rw [apply_ite Net.driverStmts, mem_appended]
      refine or_congr_right ⟨?_, ?_⟩
      · rintro ⟨hd, rfl⟩
        exact ⟨d, hd, List.mem_singleton_self _⟩
      · rintro ⟨d', hd', hmem⟩
        obtain ⟨rfl, rfl⟩ := NetMark.driver.inj (List.mem_singleton.mp hmem)
        exact ⟨hd', rfl⟩
    · rw [apply_ite Net.sinkStmts, ite_self, or_iff_left]
      rintro ⟨d', -, hmem⟩
      cases List.mem_singleton.mp hmem
  | sink d stmt =>
    obtain ⟨hbind, hcount, hnets⟩ := recordAt_eq (d := d) hrange fun net =>
      { net with sinkStmts := net.sinkStmts ++ [stmt] }
    refine ⟨hbind, hcount, fun ix => ?_, fun ix s => ?_, fun ix s => ?_⟩ <;>
      rw [record, hnets]
    · split <;> rfl
    · rw [apply_ite Net.driverStmts, ite_self, or_iff_left]
      rintro ⟨d', -, hmem⟩
      cases List.mem_singleton.mp hmem
    · rw [apply_ite Net.sinkStmts, mem_appended]
      refine or_congr_right ⟨?_, ?_⟩
      · rintro ⟨hd, rfl⟩
        exact ⟨d, hd, List.mem_singleton_self _⟩
      · rintro ⟨d', hd', hmem⟩
        obtain ⟨rfl, rfl⟩ := NetMark.sink.inj (List.mem_singleton.mp hmem)
        exact ⟨hd', rfl⟩

theorem recorded_foldl : ∀ (marks : List NetMark) {g : NetGraph},
    (∀ d ix, g.bind d = some ix → ix < g.count) →
      Recorded marks g (marks.foldl NetGraph.record g)
  | [], g, _ => ⟨rfl, rfl, fun _ => rfl, by simp, by simp⟩
  | mark :: rest, g, hrange => by
      have hone := recorded_record hrange mark
      have hrest := recorded_foldl rest (g := g.record mark)
        (fun d ix h => by rw [hone.bind] at h; rw [hone.count]; exact hrange d ix h)
      refine ⟨hrest.bind.trans hone.bind, hrest.count.trans hone.count,
        fun ix => (hrest.atoms ix).trans (hone.atoms ix), fun ix s => ?_, fun ix s => ?_⟩
      · rw [List.foldl_cons, hrest.drivers, hone.drivers, hone.bind, or_assoc, ← exists_or]
        simp only [List.mem_cons, List.not_mem_nil, or_false, and_or_left]
      · rw [List.foldl_cons, hrest.sinks, hone.sinks, hone.bind, or_assoc, ← exists_or]
        simp only [List.mem_cons, List.not_mem_nil, or_false, and_or_left]

end NetGraph

end JzHdl

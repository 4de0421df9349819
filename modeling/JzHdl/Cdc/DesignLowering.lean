import JzHdl.Cdc.EntryRuns
import Mathlib.Algebra.BigOperators.Group.List.Basic

/-! # Lowered designs

The entries of a module one after the other, and the blocks that the modules of
a design share. The counterexample is a module without a domain for the
destination clock.
-/

namespace JzHdl

/-! ## All entries of a module -/

section

variable {m : CdcModule} {old : ℕ} {library : List (CdcType × ℕ)}

/-- The assignment of a RAW entry. -/
def rawAssign (m : CdcModule) (e : CdcEntry) : Option IRStmt :=
  if e.type = .raw then
    (aliasSignal m.signals e.destAlias).map fun a => makeAliasStmt a (rawRhs e m.signals)
  else none

/-- What the entries of a list add. -/
structure EntriesLowered (m : CdcModule) (old : ℕ) (library : List (CdcType × ℕ))
    (es : List CdcEntry) (s t : LowerState) : Prop where

  signals : ∃ ws, t.signals = s.signals ++ ws ∧
    ws.map CdcSignal.id = List.range' s.signals.length (es.map (entryWires m)).sum

  instances : ∃ new, t.instances = s.instances ++ new ∧
    (List.Forall₂ (Crossing m old library) (es.filter (·.type != .raw)) new ↔
      ∀ e ∈ es, e.type ≠ .raw → Clocked m e)

  stmts : ∃ added, t.stmts = s.stmts ++ added ∧
    (∀ e ∈ es, ∀ st ∈ rawAssign m e, st ∈ added) ∧
    ∀ a, a ∉ List.range' s.signals.length (es.map (entryWires m)).sum →
      added.filter (assignsTo a) = (es.filterMap (rawAssign m)).filter (assignsTo a)

theorem EntriesLowered.raw {e : CdcEntry} {es : List CdcEntry} {s t u : LowerState} {a : ℕ}
    (htype : e.type = .raw) (ha : aliasSignal m.signals e.destAlias = some a)
    (ht : t = { s with stmts := s.stmts ++ [makeAliasStmt a (rawRhs e m.signals)] })
    (h : EntriesLowered m old library es t u) : EntriesLowered m old library (e :: es) s u := by
  subst ht
  have hassign : rawAssign m e = some (makeAliasStmt a (rawRhs e m.signals)) := by
    rw [rawAssign, if_pos htype, ha, Option.map_some]
  have hwires : ((e :: es).map (entryWires m)).sum = (es.map (entryWires m)).sum := by
    rw [List.map_cons, List.sum_cons, entryWires, if_neg (by rw [htype]; decide), Nat.zero_add]
  have hfilter : (e :: es).filter (·.type != .raw) = es.filter (·.type != .raw) :=
    List.filter_cons_of_neg (by rw [htype]; decide)
  constructor
  · rw [hwires]
    exact h.signals
  · obtain ⟨new, hnew, hiff⟩ := h.instances
    refine ⟨new, hnew, ?_⟩
    rw [hfilter, hiff, List.forall_mem_cons]
    exact ⟨fun hall => ⟨fun hne => absurd htype hne, hall⟩, And.right⟩
  · obtain ⟨added, hadded, hmem, hall⟩ := h.stmts
    refine ⟨makeAliasStmt a (rawRhs e m.signals) :: added, ?_, ?_, fun b hb => ?_⟩
    · rw [hadded]
      exact List.append_assoc _ _ _
    · rw [List.forall_mem_cons]
      refine ⟨fun st hst => ?_, fun e' he' st hst => .tail _ (hmem e' he' st hst)⟩
      rw [hassign] at hst
      cases hst
      exact .head _
    · rw [hwires] at hb
      rw [List.filterMap_cons_some hassign, List.filter_cons, List.filter_cons, hall b hb]

theorem EntriesLowered.instance_added {e : CdcEntry} {es : List CdcEntry} {s t u v : LowerState}
    {i : CdcInstance} (htype : e.type ≠ .raw) (ht : WiresAdded (entryWires m e) s t)
    (hu : u = { t with instances := t.instances ++ [i] })
    (hi : Crossing m old library e i ↔ Clocked m e) (h : EntriesLowered m old library es u v) :
    EntriesLowered m old library (e :: es) s v := by
  subst hu
  have hassign : rawAssign m e = none := by rw [rawAssign, if_neg htype]
  have hfilter : (e :: es).filter (·.type != .raw) = e :: es.filter (·.type != .raw) :=
    List.filter_cons_of_pos (by rw [bne_iff_ne]; exact htype)
  have hlen := ht.length
  have hsum : ((e :: es).map (entryWires m)).sum =
      entryWires m e + (es.map (entryWires m)).sum := by rw [List.map_cons, List.sum_cons]
  constructor
  · obtain ⟨ws, hws, hids⟩ := ht.signals
    obtain ⟨vs, hvs, hids'⟩ := h.signals
    refine ⟨ws ++ vs, ?_, ?_⟩
    · rw [hvs]
      exact (congrArg (· ++ vs) hws).trans (List.append_assoc _ _ _)
    · change vs.map CdcSignal.id = List.range' t.signals.length _ at hids'
      rw [List.map_append, hids, hids', hlen, hsum, List.range'_append_1]
  · obtain ⟨new, hnew, hiff⟩ := h.instances
    refine ⟨i :: new, ?_, ?_⟩
    · rw [hnew, ← ht.instances]
      exact List.append_assoc _ _ _
    · rw [hfilter, List.forall₂_cons, hi, hiff, List.forall_mem_cons]
      exact ⟨fun ⟨h₁, h₂⟩ => ⟨fun _ => h₁, h₂⟩, fun ⟨h₁, h₂⟩ => ⟨h₁ htype, h₂⟩⟩
  · obtain ⟨more, hmore, hwire⟩ := ht.stmts
    obtain ⟨added, hadded, hmem, hall⟩ := h.stmts
    refine ⟨more ++ added, ?_, ?_, fun b hb => ?_⟩
    · rw [hadded]
      exact (congrArg (· ++ added) hmore).trans (List.append_assoc _ _ _)
    · rw [List.forall_mem_cons]
      refine ⟨fun st hst => ?_, fun e' he' st hst =>
        List.mem_append_right _ (hmem e' he' st hst)⟩
      rw [hassign] at hst
      cases hst
    · rw [hsum] at hb
      have hnone : more.filter (assignsTo b) = [] := by
        refine List.filter_eq_nil_iff.mpr fun st hst hb' => hb ?_
        obtain ⟨k, rhs, hk, rfl⟩ := hwire st hst
        obtain rfl : k = b := beq_iff_eq.mp hb'
        rw [List.mem_range'_1] at hk ⊢
        omega
      have hlater : b ∉ List.range' t.signals.length (es.map (entryWires m)).sum := by
        intro hmem'
        refine hb ?_
        rw [hlen] at hmem'
        rw [List.mem_range'_1] at hmem' ⊢
        omega
      rw [List.filter_append, hnone, List.nil_append, hall b hlater,
        List.filterMap_cons_none hassign]

/-- A list of entries, by induction along the list. -/
theorem lowerEntries_lowered (hlookup : ∀ e ∈ m.entries,
    (∃ s ∈ m.signals, s.id = e.sourceReg) ∧ (∃ s ∈ m.signals, s.name = e.destAlias) ∧
    (e.type = .bit ∨ e.type = .pulse → entryWidth m.signals e = 1) ∧
    (e.type ≠ .raw → libraryKey m.signals e ∈ library)) :
    ∀ (es : List CdcEntry) {s : LowerState} {ws : List CdcSignal}, es ⊆ m.entries →
    s.signals = m.signals ++ ws →
    EntriesLowered m old library es s (es.foldl (lowerEntry m old library) s)
  | [], s, _, _, _ =>
      { signals := ⟨[], (List.append_nil _).symm, rfl⟩
        instances := ⟨[], (List.append_nil _).symm, fun _ => nofun, fun _ => .nil⟩
        stmts := ⟨[], (List.append_nil _).symm, nofun, fun _ _ => rfl⟩ }
  | e :: es, s, ws, hsub, hs => by
      obtain ⟨hmem, hrest⟩ := List.cons_subset.mp hsub
      obtain ⟨hsource, halias, hnarrow, hkey⟩ := hlookup e hmem
      have hone : EntryLowered m old library e s (lowerEntry m old library s e) :=
        lowerEntry_lowered hsource halias hnarrow hkey hs
      rw [List.foldl_cons]
      by_cases hraw : e.type = .raw
      · obtain ⟨a, ha, ht⟩ := hone.raw hraw
        have hsignals : (lowerEntry m old library s e).signals = m.signals ++ ws := by
          rw [ht]
          exact hs
        exact .raw hraw ha ht (lowerEntries_lowered hlookup es hrest hsignals)
      · obtain ⟨u, i, hu, ht, hi⟩ := hone.crossing hraw
        obtain ⟨vs, hvs, -⟩ := hu.signals
        have hsignals : (lowerEntry m old library s e).signals = m.signals ++ (ws ++ vs) := by
          rw [ht]
          change u.signals = _
          rw [hvs, hs, List.append_assoc]
        exact .instance_added hraw hu ht hi (lowerEntries_lowered hlookup es hrest hsignals)

end

/-! ## Designs -/

namespace CdcDesign

variable (d : CdcDesign)

theorem lowered_spec {m : CdcModule} (hm : m ∈ d.modules) :
    EntriesLowered m d.modules.length d.library m.entries ⟨m.signals, [], m.instances⟩
      (d.lowered m) := by
  refine lowerEntries_lowered (fun e he => ?_) m.entries (List.Subset.refl _)
    (List.append_nil _).symm
  exact ⟨d.sources m hm e he, d.aliases m hm e he, d.narrow m hm e he, libraryKey_mem hm he⟩

/-- A block gets the assignments of all modules that refer to it. -/
theorem foldBlocks_eq (stmts : CdcModule → List IRStmt) (b : ℕ) : ∀ (ms : List CdcModule)
    (blocks : ℕ → List IRStmt),
    ms.foldl (fun blocks m => Function.update blocks m.block (blocks m.block ++ stmts m)) blocks b =
      blocks b ++ (ms.filter fun m => m.block == b).flatMap stmts
  | [], blocks => (List.append_nil _).symm
  | m :: ms, blocks => by
      rw [List.foldl_cons, foldBlocks_eq stmts b ms]
      by_cases hb : m.block = b
      · rw [List.filter_cons_of_pos (by rw [beq_iff_eq]; exact hb), List.flatMap_cons, hb,
          Function.update_self, List.append_assoc]
      · rw [List.filter_cons_of_neg (by rw [beq_iff_eq]; exact hb),
          Function.update_of_ne (Ne.symm hb)]

theorem loweredBlocks_eq (b : ℕ) : d.loweredBlocks b =
    d.blocks b ++ (d.modules.filter fun m => m.block == b).flatMap fun m => (d.lowered m).stmts :=
  foldBlocks_eq _ b d.modules d.blocks

theorem lowered_ids {m : CdcModule} (hm : m ∈ d.modules) :
    ((d.lowered m).signals.map CdcSignal.id).Nodup ↔ ∀ s ∈ m.signals, s.id ∉
      List.range' m.signals.length (m.entries.map (entryWires m)).sum := by
  obtain ⟨ws, hws, hids⟩ := (d.lowered_spec hm).signals
  rw [hws, List.map_append, hids, List.nodup_append']
  constructor
  · rintro ⟨-, -, hdis⟩ s hs hmem
    exact hdis (List.mem_map.mpr ⟨s, hs, rfl⟩) hmem
  · intro h
    refine ⟨d.ids m hm, List.nodup_range', fun i hi hmem => ?_⟩
    obtain ⟨s, hs, rfl⟩ := List.mem_map.mp hi
    exact h s hs hmem

/-! ## RAW entries -/

theorem rawAssign_alias {m : CdcModule} (hm : m ∈ d.modules) {e e' : CdcEntry} {a : ℕ}
    {st : IRStmt} (ha : aliasSignal m.signals e.destAlias = some a) (hst : rawAssign m e' = some st)
    (hto : assignsTo a st = true) : e'.destAlias = e.destAlias := by
  unfold rawAssign at hst
  split at hst
  · obtain ⟨b, hb, rfl⟩ := Option.map_eq_some_iff.mp hst
    obtain rfl : b = a := beq_iff_eq.mp hto
    obtain ⟨s, hs, hid, hname⟩ := aliasSignal_mem ha
    obtain ⟨t, ht, hid', hname'⟩ := aliasSignal_mem hb
    obtain rfl := List.inj_on_of_nodup_map (d.ids m hm) hs ht (hid.trans hid'.symm)
    exact hname'.symm.trans hname
  · cases hst

/-- One RAW entry of a module assigns an alias. -/
theorem rawAssigns_eq {m : CdcModule} (hm : m ∈ d.modules) {e : CdcEntry} (he : e ∈ m.entries)
    {a : ℕ} {st : IRStmt} (ha : aliasSignal m.signals e.destAlias = some a)
    (hst : rawAssign m e = some st) (hto : assignsTo a st = true) :
    (m.entries.filterMap (rawAssign m)).filter (assignsTo a) = [st] := by
  have hdistinct := d.distinct m hm
  obtain ⟨before, after, hsplit⟩ := List.append_of_mem he
  rw [hsplit, List.map_append, List.map_cons] at hdistinct
  obtain ⟨-, hafter, hbefore⟩ := List.nodup_append'.mp hdistinct
  have hnone : ∀ es : List CdcEntry, (∀ x ∈ es, x.destAlias ≠ e.destAlias) →
      (es.filterMap (rawAssign m)).filter (assignsTo a) = [] := by
    intro es hes
    refine List.filter_eq_nil_iff.mpr fun st' hmem hto' => ?_
    obtain ⟨e', he', hst'⟩ := List.mem_filterMap.mp hmem
    exact hes e' he' (d.rawAssign_alias hm ha hst' hto')
  have hb : ∀ x ∈ before, x.destAlias ≠ e.destAlias := fun x hx heq =>
    hbefore (List.mem_map.mpr ⟨x, hx, heq⟩) (.head _)
  have hc : ∀ x ∈ after, x.destAlias ≠ e.destAlias := fun x hx heq =>
    (List.nodup_cons.mp hafter).1 (List.mem_map.mpr ⟨x, hx, heq⟩)
  rw [hsplit, List.filterMap_append, List.filter_append, hnone before hb, List.nil_append,
    List.filterMap_cons_some hst, List.filter_cons_of_pos hto, hnone after hc]

theorem rawAssign_shared {m p : CdcModule} (hm : m ∈ d.modules) (hp : p ∈ d.modules)
    (hblock : p.block = m.block) {e : CdcEntry} (he : e ∈ m.entries) (hraw : e.type = .raw)
    {a : ℕ} (ha : aliasSignal m.signals e.destAlias = some a) :
    ((d.lowered p).stmts.filter (assignsTo a)) ≠ [] := by
  obtain ⟨hentries, hnames⟩ := d.shared m hm p hp hblock
  have ha' : aliasSignal p.signals e.destAlias = some a := by
    rw [aliasSignal_map, hnames, ← aliasSignal_map, ha]
  have hassign : rawAssign p e = some (makeAliasStmt a (rawRhs e p.signals)) := by
    rw [rawAssign, if_pos hraw, ha', Option.map_some]
  obtain ⟨added, hadded, hmem, -⟩ := (d.lowered_spec hp).stmts
  have hin := hmem e (hentries ▸ he) _ hassign
  have hstmt : makeAliasStmt a (rawRhs e p.signals) ∈ (d.lowered p).stmts := by
    rw [hadded]
    exact hin
  exact List.ne_nil_of_mem (List.mem_filter.mpr ⟨hstmt, beq_self_eq_true a⟩)

/-! ## The condition -/

theorem loweredExactly_iff {m : CdcModule} (hm : m ∈ d.modules) :
    LoweredExactly d m ↔ LowersRight d m := by
  have hspec := d.lowered_spec hm
  have halias : ∀ e ∈ m.entries, ∃ a, aliasSignal m.signals e.destAlias = some a :=
    fun e he => aliasSignal_exists (d.aliases m hm e he)
  have hself : m ∈ d.modules.filter fun p => p.block == m.block :=
    List.mem_filter.mpr ⟨hm, beq_self_eq_true m.block⟩
  constructor
  · intro h
    refine ⟨?_, (d.lowered_ids hm).mp h.fresh.choose_spec.2, ?_⟩
    · obtain ⟨new, hnew, hall⟩ := h.instances
      obtain ⟨new', hnew', hiff⟩ := hspec.instances
      obtain rfl := List.append_cancel_left (hnew.symm.trans hnew')
      exact hiff.mp hall
    · rintro ⟨e, he, hraw⟩
      obtain ⟨added, hadded, hone⟩ := h.raws
      obtain ⟨a, ha, hfilter⟩ := hone e he hraw
      obtain rfl := List.append_cancel_left (hadded.symm.trans (d.loweredBlocks_eq m.block))
      rw [List.filter_flatMap] at hfilter
      have hsome : ∀ p ∈ d.modules.filter fun p => p.block == m.block,
          (d.lowered p).stmts.filter (assignsTo a) ≠ [] := by
        intro p hp
        obtain ⟨hp, hblock⟩ := List.mem_filter.mp hp
        exact d.rawAssign_shared hm hp (beq_iff_eq.mp hblock) he hraw ha
      have hle := List.length_le_sum_of_one_le
        ((d.modules.filter fun p => p.block == m.block).map fun p =>
          ((d.lowered p).stmts.filter (assignsTo a)).length) fun i hi => by
            obtain ⟨p, hp, rfl⟩ := List.mem_map.mp hi
            exact List.length_pos_of_ne_nil (hsome p hp)
      have hpos := List.length_pos_of_mem hself
      rw [List.length_map, ← List.length_flatMap, hfilter, List.length_singleton] at hle
      omega
  · intro h
    constructor
    · obtain ⟨new, hnew, hiff⟩ := hspec.instances
      exact ⟨new, hnew, hiff.mpr h.clocks⟩
    · refine ⟨_, d.loweredBlocks_eq m.block, fun e he hraw => ?_⟩
      obtain ⟨a, ha⟩ := halias e he
      refine ⟨a, ha, ?_⟩
      have hassign : rawAssign m e = some (makeAliasStmt a (rawRhs e m.signals)) := by
        rw [rawAssign, if_pos hraw, ha, Option.map_some]
      obtain ⟨p, hp⟩ := List.length_eq_one_iff.mp (h.block ⟨e, he, hraw⟩)
      rw [hp] at hself
      obtain rfl := List.mem_singleton.mp hself
      obtain ⟨added, hadded, -, hall⟩ := hspec.stmts
      obtain ⟨s, hs, rfl, -⟩ := aliasSignal_mem ha
      rw [hp, List.flatMap_cons, List.flatMap_nil, List.append_nil, hadded, List.nil_append,
        hall s.id (h.ids s hs), d.rawAssigns_eq hm he ha hassign (beq_self_eq_true _)]
    · obtain ⟨ws, hws, -⟩ := hspec.signals
      exact ⟨ws, hws, (d.lowered_ids hm).mpr h.ids⟩

end CdcDesign

/--
The entries of a module are lowered exactly when the clocks of the instances
clock domains of the module, the wires get new identifiers, and no other module
shares a block that gets RAW entries. The library is built without
duplicates, and its modules have the ports that the instances connect.
-/
theorem irBuildLibraryModules_exact (d : CdcDesign) :
    d.library.Nodup ∧ (∀ key ∈ d.library, LibraryFits key.1 key.2) ∧
    ∀ m ∈ d.modules, LoweredExactly d m ↔ LowersRight d m := by
  refine ⟨nodup_cdcLibrary d.modules, ?_, ?_⟩
  · intro key hkey
    exact libraryFits_of_mem hkey
  · intro m hm
    exact d.loweredExactly_iff hm

/-! ## A clock without a domain -/

/-- A register `r` behind clock 0 that crosses as a bit to clock 1, which clocks nothing. -/
def idleClock : CdcModule where
  signals := [⟨0, ['a'], 1⟩, ⟨1, ['b'], 1⟩, ⟨2, ['r'], 1⟩, ⟨3, ['v'], 1⟩]
  domains := [⟨0, .rising, [2], none, .activeHigh, .block []⟩]
  instances := []
  block := 0
  entries := [⟨.bit, 2, none, 0, ['v'], 1⟩]

def idleClockDesign : CdcDesign where
  modules := [idleClock]
  blocks _ := []
  ids m hm := by
    obtain rfl := List.mem_singleton.mp hm
    decide
  sources m hm := by
    obtain rfl := List.mem_singleton.mp hm
    decide
  aliases m hm := by
    obtain rfl := List.mem_singleton.mp hm
    decide
  distinct m hm := by
    obtain rfl := List.mem_singleton.mp hm
    decide
  narrow m hm := by
    obtain rfl := List.mem_singleton.mp hm
    decide
  shared m hm p hp _ := by
    obtain rfl := List.mem_singleton.mp hm
    obtain rfl := List.mem_singleton.mp hp
    exact ⟨rfl, rfl⟩

/-- The instance of the crossing is left without its clock. -/
theorem idleClock_unclocked :
    ((idleClockDesign.lowered idleClock).instances.map fun i => i.connections.head?) =
      [some (parentConn none 0)] ∧
    ¬ LoweredExactly idleClockDesign idleClock := by
  refine ⟨by decide +kernel, fun h => ?_⟩
  have hright := (idleClockDesign.loweredExactly_iff (List.mem_singleton.mpr rfl)).mp h
  obtain ⟨⟨cd, hcd, hclk⟩, -⟩ := hright.clocks _ (.head _) (by decide)
  obtain rfl := List.mem_singleton.mp hcd
  cases hclk

end JzHdl

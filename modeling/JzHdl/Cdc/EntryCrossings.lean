import JzHdl.Cdc.EntryLowering
import JzHdl.Cdc.SyncRuns
import Mathlib.Data.List.Nodup

/-! # Crossings of a design

The instances, assignments and wires that the lowering leaves behind. A crossing
is wired up exactly when its clocks clock a domain of the module, and the block
of a RAW entry must belong to one module alone.
-/

namespace JzHdl

/-! ## What an entry asks for -/

/-- The ports of a library module. -/
structure CdcPorts where

  clkSrc : Option ℕ

  clkDest : ℕ

  dataIn : ℕ

  dataOut : ℕ

def cdcPorts : CdcType → CdcPorts
  | .bit => ⟨none, 0, 1, 2⟩
  | .fifo => ⟨some 0, 1, 4, 7⟩
  | _ => ⟨some 0, 1, 2, 3⟩

/-- The module of a type and a width has clocks of one bit, and data of that width. -/
def LibraryFits (type : CdcType) (w : ℕ) : Prop :=
  ∃ body, libraryBody type w = some body ∧
    portSignal (cdcPorts type).clkDest 1 .portIn ∈ body.signals ∧
    (∀ p ∈ (cdcPorts type).clkSrc, portSignal p 1 .portIn ∈ body.signals) ∧
    portSignal (cdcPorts type).dataIn w .portIn ∈ body.signals ∧
    portSignal (cdcPorts type).dataOut w .portOut ∈ body.signals

/-- An instance that carries an entry: the library module of its type and width, with its clocks,
its source and its alias. -/
structure Crossing (m : CdcModule) (old : ℕ) (library : List (CdcType × ℕ)) (e : CdcEntry)
    (i : CdcInstance) : Prop where

  child : ∃ k, library[k]? = some (e.type, entryWidth m.signals e) ∧ i.childModuleId = old + k

  destClk : parentConn (some e.destClk) (cdcPorts e.type).clkDest ∈ i.connections

  srcClk : ∀ p ∈ (cdcPorts e.type).clkSrc, parentConn (some e.srcClk) p ∈ i.connections

  source : sourceConn e (cdcPorts e.type).dataIn ∈ i.connections

  target : ∃ a, aliasSignal m.signals e.destAlias = some a ∧
    parentConn (some a) (cdcPorts e.type).dataOut ∈ i.connections

  ports : (i.connections.map CdcConnection.childPortId).Nodup

def assignsTo (a : ℕ) : IRStmt → Bool
  | .assignment assign => assign.lhsSignalId == a
  | _ => false

/-- Every entry of a module has exactly one crossing or assignment, and the wires are new. -/
structure LoweredExactly (d : CdcDesign) (m : CdcModule) : Prop where

  instances : ∃ new, (d.lowered m).instances = m.instances ++ new ∧
    List.Forall₂ (Crossing m d.modules.length d.library) (m.entries.filter (·.type != .raw)) new

  raws : ∃ added, d.loweredBlocks m.block = d.blocks m.block ++ added ∧
    ∀ e ∈ m.entries, e.type = .raw → ∃ a, aliasSignal m.signals e.destAlias = some a ∧
      added.filter (assignsTo a) = [makeAliasStmt a (rawRhs e m.signals)]

  fresh : ∃ wires, (d.lowered m).signals = m.signals ++ wires ∧
    ((d.lowered m).signals.map CdcSignal.id).Nodup

/-- The clocks that an entry needs clock domains of the module. -/
def Clocked (m : CdcModule) (e : CdcEntry) : Prop :=
  (∃ cd ∈ m.domains, cd.clockSignalId = e.destClk) ∧
    (e.type ≠ .bit → ∃ cd ∈ m.domains, cd.clockSignalId = e.srcClk)

/-- The number of wires of an entry: the enables and inverted resets of a FIFO. -/
def entryWires (m : CdcModule) (e : CdcEntry) : ℕ :=
  if e.type = .fifo then
    [enableRhs (entryDomain m.domains e.srcClk) e.sourceReg true, readRhs m e m.signals,
      invertedReset (entryDomain m.domains e.srcClk),
      invertedReset (entryDomain m.domains e.destClk)].countP Option.isSome
  else 0

/-- The condition under which all entries of a module are lowered rightly. -/
structure LowersRight (d : CdcDesign) (m : CdcModule) : Prop where

  clocks : ∀ e ∈ m.entries, e.type ≠ .raw → Clocked m e

  ids : ∀ s ∈ m.signals, s.id ∉
    List.range' m.signals.length (m.entries.map (entryWires m)).sum

  block : (∃ e ∈ m.entries, e.type = .raw) →
    (d.modules.filter fun p => p.block == m.block).length = 1

/-! ## Lookups behind added signals -/

theorem aliasSignal_append {signals ws : List CdcSignal} {name : List Char} {a : ℕ}
    (h : aliasSignal signals name = some a) : aliasSignal (signals ++ ws) name = some a := by
  unfold aliasSignal at h ⊢
  obtain ⟨s, hs, rfl⟩ := Option.map_eq_some_iff.mp h
  rw [List.find?_append, hs]
  rfl

theorem aliasSignal_exists {signals : List CdcSignal} {name : List Char}
    (h : ∃ s ∈ signals, s.name = name) : ∃ a, aliasSignal signals name = some a := by
  obtain ⟨s, hs, rfl⟩ := h
  have hsome : (signals.find? fun t => t.name == s.name).isSome := by
    rw [List.find?_isSome]
    exact ⟨s, hs, beq_self_eq_true s.name⟩
  obtain ⟨t, ht⟩ := Option.isSome_iff_exists.mp hsome
  exact ⟨t.id, by rw [aliasSignal, ht, Option.map_some]⟩

theorem aliasSignal_mem {signals : List CdcSignal} {name : List Char} {a : ℕ}
    (h : aliasSignal signals name = some a) : ∃ s ∈ signals, s.id = a ∧ s.name = name := by
  obtain ⟨s, hs, rfl⟩ := Option.map_eq_some_iff.mp h
  have hname := List.find?_some hs
  exact ⟨s, List.mem_of_find?_eq_some hs, rfl, beq_iff_eq.mp hname⟩

/-- Lookups by name read identifiers and names only. -/
theorem aliasSignal_map (signals : List CdcSignal) (name : List Char) :
    aliasSignal signals name =
      ((signals.map fun s => (s.id, s.name)).find? fun p => p.2 == name).map Prod.fst := by
  rw [List.find?_map, Option.map_map]
  rfl

theorem entryWidth_append {signals ws : List CdcSignal} {e : CdcEntry}
    (h : ∃ s ∈ signals, s.id = e.sourceReg) :
    entryWidth (signals ++ ws) e = entryWidth signals e := by
  have hsome : (signals.find? fun s => s.id == e.sourceReg).isSome := by
    obtain ⟨s, hs, hid⟩ := h
    rw [List.find?_isSome]
    exact ⟨s, hs, beq_iff_eq.mpr hid⟩
  obtain ⟨t, ht⟩ := Option.isSome_iff_exists.mp hsome
  unfold entryWidth
  rw [List.find?_append, ht]
  rfl

theorem entryClock_iff {domains : List IRClockDomain} {clk : ℕ} :
    entryClock domains clk = some clk ↔ ∃ cd ∈ domains, cd.clockSignalId = clk := by
  have hsome : (domainOf domains clk).isSome ↔ ∃ cd ∈ domains, cd.clockSignalId = clk := by
    unfold domainOf
    rw [List.findIdx?_isSome, List.any_eq_true]
    constructor
    · rintro ⟨cd, hcd, h⟩
      exact ⟨cd, hcd, beq_iff_eq.mp h⟩
    · rintro ⟨cd, hcd, h⟩
      exact ⟨cd, hcd, beq_iff_eq.mpr h⟩
  rw [← hsome, entryClock, clockSignalOf_domainOf]
  cases domainOf domains clk with
  | none => exact ⟨nofun, nofun⟩
  | some _ => exact ⟨fun _ => rfl, fun _ => rfl⟩

/-! ## The library -/

theorem mem_widthSetAdd {widths : List ℕ} {w x : ℕ} :
    x ∈ widthSetAdd widths w ↔ x ∈ widths ∨ x = w := by
  unfold widthSetAdd
  split
  · rename_i hmem
    constructor
    · exact .inl
    · rintro (h | rfl)
      · exact h
      · exact hmem
  · simp only [List.mem_append, List.mem_singleton]

theorem nodup_widthSetAdd {widths : List ℕ} (h : widths.Nodup) (w : ℕ) :
    (widthSetAdd widths w).Nodup := by
  unfold widthSetAdd
  split
  · exact h
  · rename_i hmem
    exact List.nodup_append'.mpr ⟨h, List.nodup_singleton w,
      List.disjoint_singleton.mpr hmem⟩

theorem widthSet_spec : ∀ (ws : List ℕ) {widths : List ℕ}, widths.Nodup →
    (ws.foldl widthSetAdd widths).Nodup ∧
      ∀ x, x ∈ ws.foldl widthSetAdd widths ↔ x ∈ widths ∨ x ∈ ws
  | [], _, h => ⟨h, fun x => by simp only [List.foldl_nil, List.not_mem_nil, or_false]⟩
  | w :: ws, widths, h => by
      obtain ⟨hnodup, hmem⟩ := widthSet_spec ws (nodup_widthSetAdd h w)
      refine ⟨hnodup, fun x => ?_⟩
      rw [List.foldl_cons, hmem x, mem_widthSetAdd, List.mem_cons, or_assoc]

/-- No library module is built twice. -/
theorem nodup_cdcLibrary (modules : List CdcModule) : (cdcLibrary modules).Nodup := by
  have hwidths : ∀ t, (cdcWidths modules t).Nodup := fun t =>
    (widthSet_spec _ List.nodup_nil).1
  refine List.nodup_append'.mpr ⟨?_, ?_, ?_⟩
  · refine List.Nodup.map (fun t u h => (Prod.mk.inj h).1) ?_
    exact List.Nodup.filter _ (by decide)
  · refine List.nodup_flatMap.mpr ⟨fun t _ => ?_, ?_⟩
    · exact (hwidths t).map fun v w h => (Prod.mk.inj h).2
    · refine List.Pairwise.imp (R := fun t u : CdcType => t ≠ u) ?_ (by decide)
      intro t u htu p hp hq
      obtain ⟨v, -, rfl⟩ := List.mem_map.mp hp
      obtain ⟨w, -, heq⟩ := List.mem_map.mp hq
      exact htu (Prod.mk.inj heq).1.symm
  · intro p hp hq
    obtain ⟨t, ht, rfl⟩ := List.mem_map.mp hp
    obtain ⟨u, hu, hq⟩ := List.mem_flatMap.mp hq
    obtain ⟨w, -, heq⟩ := List.mem_map.mp hq
    obtain rfl := (Prod.mk.inj heq).1
    have hpair := List.mem_of_mem_filter ht
    revert hpair hu
    cases u <;> decide

theorem libraryFits_one {type : CdcType} (h : type ∈ [CdcType.bit, .pulse]) :
    LibraryFits type 1 := by
  cases type with
  | bit =>
    exact ⟨buildCdcBitModule, rfl, .head _, nofun, .tail _ (.head _), .tail _ (.tail _ (.head _))⟩
  | pulse =>
    refine ⟨buildCdcPulseModule, rfl, .tail _ (.head _), ?_, .tail _ (.tail _ (.head _)),
      .tail _ (.tail _ (.tail _ (.head _)))⟩
    rintro p ⟨⟩
    exact .head _
  | _ => exact absurd h (by decide)

theorem libraryFits_sized {type : CdcType} (h : type ∈ [CdcType.bus, .fifo, .handshake, .mcp])
    (w : ℕ) : LibraryFits type w := by
  cases type with
  | fifo =>
    refine ⟨buildCdcFifoModule w, rfl, .tail _ (.head _), ?_,
      .tail _ (.tail _ (.tail _ (.tail _ (.head _)))),
      .tail _ (.tail _ (.tail _ (.tail _ (.tail _ (.tail _ (.tail _ (.head _)))))))⟩
    rintro p ⟨⟩
    exact .head _
  | bit | pulse | raw => exact absurd h (by decide)
  | _ =>
    refine ⟨_, rfl, .tail _ (.head _), ?_, .tail _ (.tail _ (.head _)),
      .tail _ (.tail _ (.tail _ (.head _)))⟩
    rintro p ⟨⟩
    exact .head _

theorem libraryFits_of_mem {modules : List CdcModule} {key : CdcType × ℕ}
    (h : key ∈ cdcLibrary modules) : LibraryFits key.1 key.2 := by
  rcases List.mem_append.mp h with h | h
  · obtain ⟨type, htype, rfl⟩ := List.mem_map.mp h
    exact libraryFits_one (List.mem_of_mem_filter htype)
  · obtain ⟨type, htype, h⟩ := List.mem_flatMap.mp h
    obtain ⟨w, -, rfl⟩ := List.mem_map.mp h
    exact libraryFits_sized htype w

theorem libraryKey_mem {modules : List CdcModule} {m : CdcModule} (hm : m ∈ modules)
    {e : CdcEntry} (he : e ∈ m.entries) (hraw : e.type ≠ .raw) :
    libraryKey m.signals e ∈ cdcLibrary modules := by
  have hneeded : cdcNeeded modules e.type = true :=
    List.any_eq_true.mpr ⟨m, hm, List.any_eq_true.mpr ⟨e, he, beq_self_eq_true _⟩⟩
  have hwidth : entryWidth m.signals e ∈ cdcWidths modules e.type := by
    refine ((widthSet_spec _ List.nodup_nil).2 _).mpr (.inr ?_)
    refine List.mem_flatMap.mpr ⟨m, hm, List.mem_map.mpr ⟨e, ?_, rfl⟩⟩
    exact List.mem_filter.mpr ⟨he, beq_self_eq_true _⟩
  have hsingle : ∀ t ∈ [CdcType.bit, .pulse], e.type = t → (t, 1) ∈ cdcLibrary modules := by
    rintro t ht rfl
    refine List.mem_append.mpr (.inl (List.mem_map.mpr ⟨e.type, ?_, rfl⟩))
    exact List.mem_filter.mpr ⟨ht, hneeded⟩
  have hsized : ∀ t ∈ [CdcType.bus, .fifo, .handshake, .mcp], e.type = t →
      (t, entryWidth m.signals e) ∈ cdcLibrary modules := by
    rintro t ht rfl
    refine List.mem_append.mpr (.inr (List.mem_flatMap.mpr ⟨e.type, ht, ?_⟩))
    exact List.mem_map.mpr ⟨_, hwidth, rfl⟩
  unfold libraryKey
  cases htype : e.type with
  | bit => exact hsingle .bit (by decide) htype
  | pulse => exact hsingle .pulse (by decide) htype
  | bus => exact hsized .bus (by decide) htype
  | fifo => exact hsized .fifo (by decide) htype
  | handshake => exact hsized .handshake (by decide) htype
  | mcp => exact hsized .mcp (by decide) htype
  | raw => exact absurd htype hraw

end JzHdl

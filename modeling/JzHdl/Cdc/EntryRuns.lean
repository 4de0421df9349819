import JzHdl.Cdc.EntryCrossings

/-! # Lowered entries

What the lowering of one entry adds to a module, and what a list of entries adds.
-/

namespace JzHdl

/-! ## Wires -/

/-- A number of wires with their assignments is added. -/
structure WiresAdded (n : ℕ) (s t : LowerState) : Prop where

  signals : ∃ ws, t.signals = s.signals ++ ws ∧
    ws.map CdcSignal.id = List.range' s.signals.length n

  stmts : ∃ added, t.stmts = s.stmts ++ added ∧ ∀ st ∈ added, ∃ k rhs,
    k ∈ List.range' s.signals.length n ∧ st = makeAliasStmt k rhs

  instances : t.instances = s.instances

namespace WiresAdded

theorem length {n : ℕ} {s t : LowerState} (h : WiresAdded n s t) :
    t.signals.length = s.signals.length + n := by
  obtain ⟨ws, hws, hids⟩ := h.signals
  have hlen := congrArg List.length hids
  rw [List.length_map, List.length_range'] at hlen
  rw [hws, List.length_append, hlen]

theorem refl (s : LowerState) : WiresAdded 0 s s where
  signals := ⟨[], (List.append_nil _).symm, rfl⟩
  stmts := ⟨[], (List.append_nil _).symm, nofun⟩
  instances := rfl

theorem trans {n k : ℕ} {s t u : LowerState} (h₁ : WiresAdded n s t) (h₂ : WiresAdded k t u) :
    WiresAdded (n + k) s u where
  signals := by
    obtain ⟨ws, hws, hids⟩ := h₁.signals
    obtain ⟨vs, hvs, hids'⟩ := h₂.signals
    refine ⟨ws ++ vs, by rw [hvs, hws, List.append_assoc], ?_⟩
    rw [List.map_append, hids, hids', h₁.length, List.range'_append_1]
  stmts := by
    obtain ⟨added, hadded, hall⟩ := h₁.stmts
    obtain ⟨more, hmore, hall'⟩ := h₂.stmts
    refine ⟨added ++ more, by rw [hmore, hadded, List.append_assoc], fun st hst => ?_⟩
    rcases List.mem_append.mp hst with hst | hst
    · obtain ⟨i, rhs, hi, rfl⟩ := hall st hst
      refine ⟨i, rhs, ?_, rfl⟩
      rw [List.mem_range'_1] at hi ⊢
      omega
    · obtain ⟨i, rhs, hi, rfl⟩ := hall' st hst
      refine ⟨i, rhs, ?_, rfl⟩
      rw [h₁.length] at hi
      rw [List.mem_range'_1] at hi ⊢
      omega
  instances := by rw [h₂.instances, h₁.instances]

end WiresAdded

theorem fifoWire_added (s : LowerState) (name : List Char) (rhs : Option IRExpr) :
    WiresAdded ([rhs].countP Option.isSome) s (fifoWire s name rhs) := by
  cases rhs with
  | none => exact .refl s
  | some rhs =>
    exact
      { signals := ⟨[⟨s.signals.length, name, 1⟩], rfl, rfl⟩
        stmts := ⟨[makeAliasStmt s.signals.length rhs], rfl, fun st hst =>
          ⟨_, rhs, List.mem_range'_1.mpr ⟨le_rfl, Nat.lt_succ_self _⟩, List.mem_singleton.mp hst⟩⟩
        instances := rfl }

/-! ## One entry -/

section

variable {m : CdcModule} {old : ℕ} {library : List (CdcType × ℕ)} {e : CdcEntry}

theorem parentConn_inj {a b : Option ℕ} {p : ℕ} (h : parentConn a p = parentConn b p) : a = b :=
  (CdcConnection.mk.inj h).1

/-- The connection of a clock is right when the clock clocks a domain. -/
theorem clock_mem_iff {conns : List CdcConnection} {clk p : ℕ}
    (hnodup : (conns.map CdcConnection.childPortId).Nodup)
    (hmem : parentConn (entryClock m.domains clk) p ∈ conns) :
    parentConn (some clk) p ∈ conns ↔ ∃ cd ∈ m.domains, cd.clockSignalId = clk := by
  rw [← entryClock_iff]
  constructor
  · intro h
    exact parentConn_inj (List.inj_on_of_nodup_map hnodup hmem h rfl)
  · intro h
    rwa [h] at hmem

/-- An instance that is right but for its clocks. -/
theorem crossing_iff {i : CdcInstance}
    (hchild : ∃ k, library[k]? = some (e.type, entryWidth m.signals e) ∧
      i.childModuleId = old + k)
    (hdest : parentConn (entryClock m.domains e.destClk) (cdcPorts e.type).clkDest ∈
      i.connections)
    (hsrc : ∀ p ∈ (cdcPorts e.type).clkSrc,
      parentConn (entryClock m.domains e.srcClk) p ∈ i.connections)
    (hsource : sourceConn e (cdcPorts e.type).dataIn ∈ i.connections)
    (htarget : ∃ a, aliasSignal m.signals e.destAlias = some a ∧
      parentConn (some a) (cdcPorts e.type).dataOut ∈ i.connections)
    (hports : (i.connections.map CdcConnection.childPortId).Nodup) :
    Crossing m old library e i ↔ Clocked m e := by
  have hbit : e.type ≠ .bit → (cdcPorts e.type).clkSrc = some 0 := by
    intro hbit
    cases htype : e.type with
    | bit => exact absurd htype hbit
    | _ => rfl
  constructor
  · intro h
    refine ⟨(clock_mem_iff hports hdest).mp h.destClk, fun hne => ?_⟩
    have hsome := hbit hne
    exact (clock_mem_iff hports (hsrc 0 hsome)).mp (h.srcClk 0 hsome)
  · rintro ⟨hdclk, hsclk⟩
    refine ⟨hchild, (clock_mem_iff hports hdest).mpr hdclk, fun p hp => ?_, hsource, htarget,
      hports⟩
    refine (clock_mem_iff hports (hsrc p hp)).mpr (hsclk fun htype => ?_)
    rw [htype] at hp
    cases hp

/-- What one entry adds. -/
structure EntryLowered (m : CdcModule) (old : ℕ) (library : List (CdcType × ℕ)) (e : CdcEntry)
    (s t : LowerState) : Prop where

  raw : e.type = .raw → ∃ a, aliasSignal m.signals e.destAlias = some a ∧
    t = { s with stmts := s.stmts ++ [makeAliasStmt a (rawRhs e m.signals)] }

  crossing : e.type ≠ .raw → ∃ u i, WiresAdded (entryWires m e) s u ∧
    t = { u with instances := u.instances ++ [i] } ∧ (Crossing m old library e i ↔ Clocked m e)

theorem EntryLowered.of_instance {s u : LowerState} {child : ℕ} {pre : String}
    {conns : List CdcConnection} (hraw : e.type ≠ .raw) (hu : WiresAdded (entryWires m e) s u)
    (hcross : ∀ id name, Crossing m old library e ⟨id, name, child, conns⟩ ↔ Clocked m e) :
    EntryLowered m old library e s (addInstance child e u pre conns) where
  raw h := absurd h hraw
  crossing _ := ⟨u, _, hu, rfl, hcross _ _⟩

theorem wires_none (h : e.type ≠ .fifo) (s : LowerState) : WiresAdded (entryWires m e) s s := by
  unfold entryWires
  rw [if_neg h]
  exact .refl s

theorem bitEntry_lowered {s : LowerState} {k a : ℕ} (htype : e.type = .bit)
    (hk : library[k]? = some (e.type, entryWidth m.signals e))
    (ha : aliasSignal m.signals e.destAlias = some a)
    (has : aliasSignal s.signals e.destAlias = some a) :
    EntryLowered m old library e s (lowerCdcBitEntry m (old + k) e s) := by
  unfold lowerCdcBitEntry
  rw [has]
  refine .of_instance (by rw [htype]; decide) (wires_none (by rw [htype]; decide) s) fun id name =>
    crossing_iff ⟨k, hk, rfl⟩ ?_ ?_ ?_ ⟨a, ha, ?_⟩ ?_
  · rw [htype]
    exact .head _
  · intro p hp
    rw [htype] at hp
    cases hp
  · rw [htype]
    exact .tail _ (.head _)
  · rw [htype]
    exact .tail _ (.tail _ (.head _))
  · exact (by decide : [0, 1, 2].Nodup)

theorem twoClocks_lowered {s : LowerState} {k a : ℕ} {pre : String}
    (htype : cdcPorts e.type = ⟨some 0, 1, 2, 3⟩) (hraw : e.type ≠ .raw) (hfifo : e.type ≠ .fifo)
    (hk : library[k]? = some (e.type, entryWidth m.signals e))
    (ha : aliasSignal m.signals e.destAlias = some a)
    (has : aliasSignal s.signals e.destAlias = some a) :
    EntryLowered m old library e s (lowerTwoClocks m (old + k) e s pre) := by
  unfold lowerTwoClocks
  rw [has]
  refine .of_instance hraw (wires_none hfifo s) fun id name =>
    crossing_iff ⟨k, hk, rfl⟩ ?_ ?_ ?_ ⟨a, ha, ?_⟩ ?_
  · rw [htype]
    exact .tail _ (.head _)
  · intro p hp
    rw [htype] at hp
    cases hp
    exact .head _
  · rw [htype]
    exact .tail _ (.tail _ (.head _))
  · rw [htype]
    exact .tail _ (.tail _ (.tail _ (.head _)))
  · exact (by decide : [0, 1, 2, 3].Nodup)

theorem parentOrConst_port (parent : Option ℕ) (port : ℕ) (const : String) :
    (parentOrConst parent port const).childPortId = port := by
  unfold parentOrConst
  split <;> rfl

/-- The wires of a FIFO entry. -/
theorem fifo_wires {s : LowerState} {ws : List CdcSignal} (htype : e.type = .fifo)
    (hs : s.signals = m.signals ++ ws) {a : ℕ} (ha : aliasSignal m.signals e.destAlias = some a) :
    WiresAdded (entryWires m e) s
      (fifoReadReset m e (fifoWriteReset m e (fifoReadEnable m e (fifoWriteEnable m e s)))) := by
  have h₁ := fifoWire_added s (cdcName "_fifo_" e.destAlias "_wr_en")
    (enableRhs (entryDomain m.domains e.srcClk) e.sourceReg true)
  have hread : readRhs m e (fifoWriteEnable m e s).signals = readRhs m e m.signals := by
    obtain ⟨vs, hvs, -⟩ := h₁.signals
    have hsignals : (fifoWriteEnable m e s).signals = m.signals ++ (ws ++ vs) := by
      rw [fifoWriteEnable, hvs, hs, List.append_assoc]
    unfold readRhs
    rw [hsignals, ha, aliasSignal_append ha]
  have h₂ := fifoWire_added (fifoWriteEnable m e s) (cdcName "_fifo_" e.destAlias "_rd_en")
    (readRhs m e (fifoWriteEnable m e s).signals)
  have h₃ := fifoWire_added (fifoReadEnable m e (fifoWriteEnable m e s))
    (cdcName "_fifo_" e.destAlias "_rst_wr") (invertedReset (entryDomain m.domains e.srcClk))
  have h₄ := fifoWire_added (fifoWriteReset m e (fifoReadEnable m e (fifoWriteEnable m e s)))
    (cdcName "_fifo_" e.destAlias "_rst_rd") (invertedReset (entryDomain m.domains e.destClk))
  have hall := ((h₁.trans h₂).trans h₃).trans h₄
  rw [hread] at hall
  unfold entryWires
  rw [if_pos htype]
  have hcount : ∀ a b c d : Option IRExpr, [a, b, c, d].countP Option.isSome =
      [a].countP Option.isSome + [b].countP Option.isSome + [c].countP Option.isSome +
        [d].countP Option.isSome := by
    intro a b c d
    rw [← List.countP_append, ← List.countP_append, ← List.countP_append]
    rfl
  rw [hcount]
  exact hall

theorem fifoEntry_lowered {s : LowerState} {ws : List CdcSignal} {k a : ℕ}
    (htype : e.type = .fifo) (hk : library[k]? = some (e.type, entryWidth m.signals e))
    (ha : aliasSignal m.signals e.destAlias = some a) (hs : s.signals = m.signals ++ ws) :
    EntryLowered m old library e s (lowerCdcFifoEntry m (old + k) e s) := by
  have hwires := fifo_wires htype hs ha
  have halias : aliasSignal (fifoReadReset m e (fifoWriteReset m e (fifoReadEnable m e
      (fifoWriteEnable m e s)))).signals e.destAlias = some a := by
    obtain ⟨vs, hvs, -⟩ := hwires.signals
    rw [hvs, hs, List.append_assoc]
    exact aliasSignal_append ha
  unfold lowerCdcFifoEntry
  simp only [halias]
  refine .of_instance (by rw [htype]; decide) hwires fun id name =>
    crossing_iff ⟨k, hk, rfl⟩ ?_ ?_ ?_ ⟨a, ha, ?_⟩ ?_
  · rw [htype]
    exact .tail _ (.head _)
  · intro p hp
    rw [htype] at hp
    cases hp
    exact .head _
  · rw [htype]
    exact .tail _ (.tail _ (.tail _ (.tail _ (.head _))))
  · rw [htype]
    exact .tail _ (.tail _ (.tail _ (.tail _ (.tail _ (.tail _ (.tail _ (.head _)))))))
  · simp only [List.map_cons, List.map_nil, parentOrConst_port]
    exact (by decide : [0, 1, 2, 3, 4, 5, 6, 7].Nodup)

/-- The library module of an entry is found. -/
theorem libraryKey_found {signals ws : List CdcSignal} (hraw : e.type ≠ .raw)
    (hsource : ∃ s ∈ signals, s.id = e.sourceReg)
    (hnarrow : e.type = .bit ∨ e.type = .pulse → entryWidth signals e = 1)
    (hkey : libraryKey signals e ∈ library) :
    ∃ k, library.findIdx? (fun key => key == libraryKey (signals ++ ws) e) = some k ∧
      library[k]? = some (e.type, entryWidth signals e) := by
  have hsame : libraryKey (signals ++ ws) e = libraryKey signals e := by
    unfold libraryKey
    rw [entryWidth_append hsource]
  have hpair : libraryKey signals e = (e.type, entryWidth signals e) := by
    unfold libraryKey
    cases htype : e.type with
    | bit => rw [hnarrow (.inl htype)]
    | pulse => rw [hnarrow (.inr htype)]
    | raw => exact absurd htype hraw
    | _ => rfl
  rw [hsame]
  have hsome : (library.findIdx? fun key => key == libraryKey signals e).isSome := by
    rw [List.findIdx?_isSome, List.any_eq_true]
    exact ⟨_, hkey, beq_self_eq_true _⟩
  obtain ⟨k, hk⟩ := Option.isSome_iff_exists.mp hsome
  obtain ⟨hlt, heq, -⟩ := List.findIdx?_eq_some_iff_getElem.mp hk
  exact ⟨k, hk, by rw [List.getElem?_eq_getElem hlt, beq_iff_eq.mp heq, hpair]⟩

theorem lowerEntry_lowered {s : LowerState} {ws : List CdcSignal}
    (hsource : ∃ s ∈ m.signals, s.id = e.sourceReg)
    (halias : ∃ s ∈ m.signals, s.name = e.destAlias)
    (hnarrow : e.type = .bit ∨ e.type = .pulse → entryWidth m.signals e = 1)
    (hkey : e.type ≠ .raw → libraryKey m.signals e ∈ library)
    (hs : s.signals = m.signals ++ ws) :
    EntryLowered m old library e s (lowerEntry m old library s e) := by
  obtain ⟨a, ha⟩ := aliasSignal_exists halias
  have has : aliasSignal s.signals e.destAlias = some a := by
    rw [hs]
    exact aliasSignal_append ha
  by_cases hraw : e.type = .raw
  · refine ⟨fun _ => ⟨a, ha, ?_⟩, fun h => absurd hraw h⟩
    have hrhs : rawRhs e s.signals = rawRhs e m.signals := by
      unfold rawRhs
      rw [hs, entryWidth_append hsource]
    unfold lowerEntry
    rw [hraw]
    simp only [lowerCdcRawEntry, has, hrhs]
  · obtain ⟨k, hfind, hk⟩ := @libraryKey_found library e m.signals ws hraw hsource hnarrow
      (hkey hraw)
    rw [← hs] at hfind
    unfold lowerEntry
    cases htype : e.type with
    | raw => exact absurd htype hraw
    | bit =>
      simp only [hfind]
      exact bitEntry_lowered htype hk ha has
    | fifo =>
      simp only [hfind]
      exact fifoEntry_lowered htype hk ha hs
    | _ =>
      simp only [hfind]
      exact twoClocks_lowered (by rw [htype]; rfl) hraw (by rw [htype]; decide) hk ha has

end

end JzHdl

import JzHdl.Backend.EmitInstances

/-! # Wired designs

At the fixed point of a settle every port map is at rest. The ports then carry
the printed bits, if every connection names a signal of the port's width, no
port is bidirectional and all aliases of a module are plain statements.
-/

namespace JzHdl

open BitWords

/-! ## Slices -/

theorem part_simValSlice (v : SimValue) {msb lsb k : ℕ} (hk : lsb + k ≤ msb) :
    (simValSlice v msb lsb).part (.bit k) = v.part (.bit (lsb + k)) := by
  have hlt : k < msb + 1 - lsb := by omega
  rw [simValSlice, if_neg (by omega)]
  simp only [SimValue.part, simValMask, bit_maskWords, decide_eq_true hlt, Bool.true_and,
    bit_sliceWords _ hlt]

/-! ## Aliases -/

namespace IRModule

/-- Every alias that joins signals is a plain statement of the asynchronous block. -/
def AliasesPlain (m : IRModule) : Prop :=
  ∀ a ∈ m.moduleAliases, ∀ i j, m.Eligible a i j → buildChunk m (.assignment a) ∈ buildAsyncChunks m

/-- No identifier occurs twice in the signal table. -/
def IdsDistinct (m : IRModule) : Prop := (m.signals.map IRSignal.id).Nodup

instance (m : IRModule) : Decidable m.IdsDistinct :=
  inferInstanceAs (Decidable (m.signals.map IRSignal.id).Nodup)

variable {m : IRModule}

theorem sigIndexFrom_append {sigs : List IRSignal} {sig : IRSignal} {rest : List IRSignal}
    (hrest : ∀ x ∈ rest, x.id ≠ sig.id) : ∀ (front : List IRSignal) (base : ℕ),
    sigs = front ++ sig :: rest → sigIndexFrom sigs base sig.id = some (base + front.length) := by
  have hnone : ∀ (rest : List IRSignal) (base : ℕ), (∀ x ∈ rest, x.id ≠ sig.id) →
      sigIndexFrom rest base sig.id = none := by
    intro rest
    induction rest with
    | nil => intro base _; rfl
    | cons x rest ih =>
      intro base h
      rw [sigIndexFrom, ih (base + 1) fun y hy => h y (List.mem_cons_of_mem _ hy)]
      exact if_neg (h x List.mem_cons_self)
  intro front base hsigs
  subst hsigs
  induction front generalizing base with
  | nil =>
    rw [List.nil_append, sigIndexFrom, hnone rest _ hrest]
    exact if_pos rfl
  | cons x front ih =>
    rw [List.cons_append, sigIndexFrom, ih (base + 1)]
    simp only [List.length_cons, Option.some.injEq]
    omega

theorem sigIndex_of_nodup (hids : m.IdsDistinct) (i : m.SignalIndex) :
    m.sigIndex (m.signals.get i).id = some (i : ℕ) := by
  have hsplit : m.signals = m.signals.take i ++ m.signals.get i :: m.signals.drop (i + 1) := by
    rw [List.get_eq_getElem, List.cons_getElem_drop_succ, List.take_append_drop]
  have hlast : ∀ x ∈ m.signals.drop (i + 1), x.id ≠ (m.signals.get i).id := by
    intro x hx hid
    rw [IdsDistinct, hsplit, List.map_append, List.map_cons, List.nodup_append] at hids
    exact (List.nodup_cons.mp hids.2.1).1 (hid ▸ List.mem_map_of_mem hx)
  rw [sigIndex, sigIndexFrom_append hlast _ 0 hsplit, Nat.zero_add, List.length_take,
    Nat.min_eq_left i.isLt.le]

theorem findSignalIndexByIdRaw_spec {id : ℕ} {i : m.SignalIndex}
    (h : m.findSignalIndexByIdRaw id = some i) : (m.signals.get i).id = id := by
  have := List.find?_some h
  simpa using this

theorem sigIndex_of_raw (hids : m.IdsDistinct) {id : ℕ} {i : m.SignalIndex}
    (h : m.findSignalIndexByIdRaw id = some i) : m.sigIndex id = some (i : ℕ) := by
  rw [← findSignalIndexByIdRaw_spec h]
  exact sigIndex_of_nodup hids i

end IRModule

section

variable {m : IRModule} {s : CtxState} {a : IRAssignment} {i j : m.SignalIndex}

theorem extendRhs_width (kind : IRAssignmentKind) (v : SimValue) :
    extendRhs kind v v.width = v := by
  rw [extendRhs, simValZext, simValSext, if_pos le_rfl, if_pos le_rfl, if_pos rfl]
  split
  · rfl
  · split <;> rfl

theorem AsyncOk.run_evolves (h : AsyncOk m) : ∀ {l : List SimAsyncChunk} (s : CtxState),
    l ⊆ buildAsyncChunks m → Evolves (l.flatMap fun c => stmtTargets m c.stmt) s
      (l.foldl (fun s c => (chunkActions m).run c s) s)
  | [], s, _ => .refl _ s
  | c :: rest, s, hsub => by
      have hrest := h.run_evolves (l := rest) ((chunkActions m).run c s)
        fun x hx => hsub (List.mem_cons_of_mem _ hx)
      rw [List.foldl_cons, List.flatMap_cons]
      exact ((h.chunk_evolves (hsub List.mem_cons_self) s).mono (List.subset_append_left _ _)).trans
        (hrest.mono (List.subset_append_right _ _))

theorem Target.Apart.not_covers {τ υ : Target} (h : τ.Apart υ) {k : ℕ} {p : Part}
    (hτ : τ.Covers k p) : ¬ υ.Covers k p := by
  intro hυ
  rcases h with hne | ⟨msb, lsb, msb', lsb', hs, hs', hd⟩
  · exact hne (hτ.1.trans hυ.1.symm)
  · have hτ' := hτ.2
    have hυ' := hυ.2
    rw [hs] at hτ'
    rw [hs'] at hυ'
    cases p with
    | width => exact hτ'
    | bit k =>
      simp only at hτ' hυ'
      omega

/-- At the fixed point of its statements an alias joins equal values. -/
theorem AsyncOk.alias_current (hasync : AsyncOk m) (hids : m.IdsDistinct) (hfits : s.Fits m)
    (hfix : ∀ k, ((simExecStmt m false m.asyncBlock s).signals k).current = (s.signals k).current)
    (hmem : buildChunk m (.assignment a) ∈ buildAsyncChunks m) (h : m.Eligible a i j) :
    (s.signals i).current = (s.signals j).current := by
  obtain ⟨front, back, hsplit⟩ := List.append_of_mem hmem
  obtain ⟨id, width, hrhs, hpartner⟩ := h.partner
  have hi := IRModule.sigIndex_of_raw hids h.target
  have hj := IRModule.sigIndex_of_raw hids hpartner
  have htargets : stmtTargets m (buildChunk m (.assignment a)).stmt = [⟨i, none⟩] := by
    simp [buildChunk, stmtTargets, assignTargets, hi, h.whole]
  have hap := hasync.apart
  rw [hsplit, List.pairwise_append, List.pairwise_cons] at hap
  obtain ⟨-, ⟨hback, -⟩, hfront⟩ := hap
  have hfold := foldl_run_chunks m s
  rw [hsplit, List.foldl_append, List.foldl_cons] at hfold
  have hev := hasync.run_evolves (l := front) s fun x hx => hsplit ▸ List.mem_append_left _ hx
  generalize front.foldl (fun s c => (chunkActions m).run c s) s = s₁ at hev hfold
  have hrest : back ⊆ buildAsyncChunks m := fun x hx =>
    hsplit ▸ List.mem_append_right _ (List.mem_cons_of_mem _ hx)
  have hevc := hasync.chunk_evolves hmem s₁
  have hevb := hasync.run_evolves (l := back)
    ((chunkActions m).run (buildChunk m (.assignment a)) s₁) hrest
  rw [hfold] at hevb
  have hwhole : ∀ {τ : Target}, τ.Apart ⟨i, none⟩ → τ.index ≠ i := by
    rintro τ (hne | ⟨_, _, _, _, _, hs, _⟩)
    · exact hne
    · cases hs
  have hown : (⟨i, none⟩ : Target) ∈ stmtTargets m (buildChunk m (.assignment a)).stmt := by
    rw [htargets]
    exact List.mem_singleton_self _
  have hi₁ : (s₁.signals i).current = (s.signals i).current := by
    refine hev.current_of_ne fun τ hτ => hwhole ?_
    obtain ⟨c, hc, hτ⟩ := List.mem_flatMap.mp hτ
    exact hfront c hc _ List.mem_cons_self τ hτ _ hown
  have hi₂ : (((chunkActions m).run (buildChunk m (.assignment a)) s₁).signals i).current =
      (s.signals i).current := by
    rw [← hfix i]
    refine (hevb.current_of_ne fun τ hτ => hwhole ?_).symm
    obtain ⟨c, hc, hτ⟩ := List.mem_flatMap.mp hτ
    exact (hback c hc _ hown τ hτ).symm
  have hj₁ : (s₁.signals j).current = (s.signals j).current := by
    refine SimValue.ext_part fun p => ?_
    by_cases hcov : ∃ τ ∈ front.flatMap fun c => stmtTargets m c.stmt, τ.Covers j p
    · -- The part is driven before the alias, so nothing drives it behind.
      obtain ⟨τ, hτ, hcov⟩ := hcov
      obtain ⟨c, hc, hτ⟩ := List.mem_flatMap.mp hτ
      have hc₂ := hevc.keeps j p fun υ hυ =>
        (hfront c hc _ List.mem_cons_self τ hτ υ hυ).not_covers hcov
      have hc₃ := hevb.keeps j p fun υ hυ => by
        obtain ⟨d, hd, hυ⟩ := List.mem_flatMap.mp hυ
        exact (hfront c hc d (List.mem_cons_of_mem _ hd) τ hτ υ hυ).not_covers hcov
      rw [← hfix j]
      exact (hc₃.trans hc₂).symm
    · exact hev.keeps j p fun τ hτ hτp => hcov ⟨τ, hτ, hτp⟩
  have hsame : (s.signals i).current.width = (s.signals j).current.width := by
    rw [(hfits i _ (List.getElem?_eq_getElem i.isLt)).1,
      (hfits j _ (List.getElem?_eq_getElem j.isLt)).1]
    exact h.sameWidth
  have hvalue : simEvalExpr m s₁ a.rhs = (s.signals j).current := by
    rw [hrhs, simEvalExpr, evalSignal, hj]
    exact hj₁
  have hrun : ((chunkActions m).run (buildChunk m (.assignment a)) s₁) =
      writeNow a (s₁.raiseError (simEvalRaises m s₁ a.rhs)) i (s.signals j).current := by
    change applyAssign m false s₁ a = _
    rw [applyAssign, hi]
    simp only [hvalue, hi₁, hsame, extendRhs_width, Bool.false_eq_true, if_false]
  rw [hrun, writeNow, h.whole] at hi₂
  simp only [Bool.false_eq_true, if_false] at hi₂
  have hraise : ((s₁.raiseError (simEvalRaises m s₁ a.rhs)).signals i).current =
      (s.signals i).current := hi₁
  rw [hraise] at hi₂
  split at hi₂
  · rename_i heq
    exact eq_of_simValSame (hfits i _ (List.getElem?_eq_getElem i.isLt)).2
      (hfits j _ (List.getElem?_eq_getElem j.isLt)).2 hsame heq
  · have hset : (s.signals j).current = (s.signals i).current :=
      ((setCurrent_current _ i i _).trans (if_pos rfl)).symm.trans hi₂
    exact hset.symm

theorem AsyncOk.canonical_current (hasync : AsyncOk m) (hids : m.IdsDistinct)
    (hplain : m.AliasesPlain) (hfits : s.Fits m)
    (hfix : ∀ k, ((simExecStmt m false m.asyncBlock s).signals k).current = (s.signals k).current)
    (i : m.SignalIndex) :
    (s.signals (m.canonicalIndex i)).current = (s.signals i).current := by
  have hclass : ∀ {i j : m.SignalIndex}, m.Connected i j →
      (s.signals i).current = (s.signals j).current := by
    intro i j h
    induction h with
    | rel i j h =>
      obtain ⟨a, ha, hel⟩ := h
      exact hasync.alias_current hids hfits hfix (hplain a ha i j hel) hel
    | refl i => rfl
    | symm i j _ ih => exact ih.symm
    | trans i j k _ _ ih ih' => exact ih.trans ih'
  exact hclass (m.canonicalIndex_connected i)

theorem canonical_width (i : m.SignalIndex) :
    (m.signals.get (m.canonicalIndex i)).width = (m.signals.get i).width := by
  have hclass : ∀ {i j : m.SignalIndex}, m.Connected i j →
      (m.signals.get i).width = (m.signals.get j).width := by
    intro i j h
    induction h with
    | rel i j h =>
      obtain ⟨a, -, hel⟩ := h
      exact hel.sameWidth
    | refl i => rfl
    | symm i j _ ih => exact ih.symm
    | trans i j k _ _ ih ih' => exact ih.trans ih'
  exact hclass (m.canonicalIndex_connected i)

end

/-! ## Connections -/

/-- Every connection names a signal, and no port is bidirectional. -/
structure ConnectionsOk (m child : IRModule) (record : InstanceRecord) : Prop where

  named : ∀ conn ∈ record.connections, conn.constExpr = none ∧
    ∃ i : m.SignalIndex, conn.parentSignalId.bind m.findSignalIndexByIdRaw = some i

  directed : ∀ conn ∈ record.connections, ∀ port,
    child.findSignalIndexByIdRaw conn.childPortId = some port →
      child.kindAt port ≠ .port .portInout

section

variable {m child : IRModule} {record : InstanceRecord}

/-- The port map of a connection to a signal. -/
def directMapping (child : IRModule) (i : ℕ) (port : child.SignalIndex) (slice : Option (ℕ × ℕ))
    (dir : IRPortDirection) : SimPortMapping :=
  ⟨i, port, slice, (child.signals.get port).width, dir == .portInout⟩

theorem ConnectionsOk.spec (hc : ConnectionsOk m child record) (hids : m.IdsDistinct)
    (hchild : child.IdsDistinct) {conn : InstanceConnection} (hconn : conn ∈ record.connections)
    {port : child.SignalIndex} (hport : child.findSignalIndexByIdRaw conn.childPortId = some port) :
    ∃ i : m.SignalIndex,
      emitConnection m child record.name conn = some (port, signalText m record.name
        (m.canonicalIndex i) conn.parentSlice (child.signals.get port).width) ∧
      ∀ dir, child.kindAt port = .port dir →
        portMapping m child conn.toIR =
          some (dir, directMapping child i port conn.parentSlice dir) := by
  obtain ⟨hconst, i, hi⟩ := hc.named conn hconn
  obtain ⟨id, hid, hraw⟩ := Option.bind_eq_some_iff.mp hi
  refine ⟨i, ?_, fun dir hdir => ?_⟩
  · have hfind : conn.parentSignalId.bind m.findSignalById = some (m.canonicalIndex i) := by
      rw [hid, Option.bind_some, IRModule.findSignalById, hraw, Option.map_some]
    rw [emitConnection, hport, Option.map_some, hfind]
  · have hindex := IRModule.sigIndex_of_raw hchild hport
    have hsig : child.signalOf conn.childPortId = some (child.signals.get port) := by
      rw [IRModule.signalOf, hindex, Option.bind_some]
      exact List.getElem?_eq_getElem port.isLt
    have hparent : conn.parentSignalId.bind m.sigIndex = some (i : ℕ) := by
      rw [hid, Option.bind_some, IRModule.sigIndex_of_raw hids hraw]
    have hkind : (child.signals.get port).kind = .port dir := hdir
    rw [portMapping, InstanceConnection.toIR, hconst]
    simp only [Option.isSome_none, Bool.false_eq_true, if_false, hsig, hindex, hparent, hkind]
    rfl

theorem InstanceRecord.mem_ports {dir : IRPortDirection} {p : child.SignalIndex × PortText m} :
    p ∈ record.ports m child dir ↔ ∃ conn ∈ record.connections,
      emitConnection m child record.name conn = some p ∧ child.kindAt p.1 = .port dir := by
  rw [ports, List.mem_filter, List.mem_filterMap]
  constructor
  · rintro ⟨⟨conn, hconn, hemit⟩, hdir⟩
    refine ⟨conn, hconn, hemit, ?_⟩
    split at hdir
    · rename_i d hkind
      rw [hkind, beq_iff_eq.mp hdir]
    · cases hdir
  · rintro ⟨conn, hconn, hemit, hdir⟩
    refine ⟨⟨conn, hconn, hemit⟩, ?_⟩
    rw [hdir]
    exact beq_self_eq_true dir

theorem emitConnection_port {conn : InstanceConnection} {p : child.SignalIndex × PortText m}
    (h : emitConnection m child record.name conn = some p) :
    child.findSignalIndexByIdRaw conn.childPortId = some p.1 := by
  rw [emitConnection, Option.map_eq_some_iff] at h
  obtain ⟨port, hport, rfl⟩ := h
  exact hport

/-- A printed port has a port map of its direction, and its text is that of the map. -/
theorem ConnectionsOk.mapping (hc : ConnectionsOk m child record) (hids : m.IdsDistinct)
    (hchild : child.IdsDistinct) {dir : IRPortDirection} {p : child.SignalIndex × PortText m}
    (hp : p ∈ record.ports m child dir) : ∃ (i : m.SignalIndex) (slice : Option (ℕ × ℕ)),
      (dir, directMapping child i p.1 slice dir) ∈
        record.toIR.connections.filterMap (portMapping m child) ∧
      p.2 = signalText m record.name (m.canonicalIndex i) slice (child.signals.get p.1).width := by
  obtain ⟨conn, hconn, hemit, hdir⟩ := InstanceRecord.mem_ports.mp hp
  obtain ⟨i, hemit', hmap⟩ := hc.spec hids hchild hconn (emitConnection_port hemit)
  have heq := Option.some.inj (hemit.symm.trans hemit')
  refine ⟨i, conn.parentSlice, List.mem_filterMap.mpr ⟨conn.toIR, List.mem_map_of_mem hconn,
    hmap dir hdir⟩, congrArg Prod.snd heq⟩

theorem IRModule.raw_of_sigIndex {id n : ℕ} (h : m.sigIndex id = some n) :
    ∃ i : m.SignalIndex, m.findSignalIndexByIdRaw id = some i := by
  obtain ⟨sig, hget, hid⟩ := IRModule.sigIndex_spec h
  obtain ⟨hlt, hsig⟩ := List.getElem?_eq_some_iff.mp hget
  refine Option.isSome_iff_exists.mp (List.find?_isSome.mpr ⟨⟨n, hlt⟩, List.mem_finRange _, ?_⟩)
  exact beq_iff_eq.mpr ((congrArg IRSignal.id hsig).trans hid)

theorem ConnectionsOk.outputMap (hc : ConnectionsOk m child record) (hids : m.IdsDistinct)
    (hchild : child.IdsDistinct) {pm : SimPortMapping}
    (hpm : pm ∈ outputMaps m child record.toIR) :
    ∃ p ∈ record.ports m child .portOut, ∃ (i : m.SignalIndex) (slice : Option (ℕ × ℕ)),
      pm = directMapping child i p.1 slice .portOut ∧
      p.2 = signalText m record.name (m.canonicalIndex i) slice (child.signals.get p.1).width := by
  obtain ⟨x, hx, hpm⟩ := List.mem_filterMap.mp hpm
  obtain ⟨conn', hconn', hmap'⟩ := List.mem_filterMap.mp hx
  obtain ⟨conn, hconn, rfl⟩ := List.mem_map.mp hconn'
  have hindex : ∃ n, child.sigIndex conn.childPortId = some n := by
    rw [portMapping, InstanceConnection.toIR, (hc.named conn hconn).1] at hmap'
    simp only [Option.isSome_none, Bool.false_eq_true, if_false] at hmap'
    split at hmap'
    · rename_i n _ _ hn _
      exact ⟨_, hn⟩
    · cases hmap'
  obtain ⟨n, hn⟩ := hindex
  obtain ⟨port, hport⟩ := IRModule.raw_of_sigIndex hn
  obtain ⟨i, hemit, hmap⟩ := hc.spec hids hchild hconn hport
  cases hkind : child.kindAt port with
  | port dir =>
    obtain rfl := Option.some.inj ((hmap dir hkind).symm.trans hmap')
    cases dir with
    | portIn => cases hpm
    | portInout => exact absurd hkind (hc.directed conn hconn port hport)
    | portOut =>
      exact ⟨_, InstanceRecord.mem_ports.mpr ⟨conn, hconn, hemit, hkind⟩, i, conn.parentSlice,
        (Option.some.inj hpm).symm, rfl⟩
  | _ =>
    have hsig : child.signalOf conn.childPortId = some (child.signals.get port) := by
      rw [IRModule.signalOf, IRModule.sigIndex_of_raw hchild hport, Option.bind_some]
      exact List.getElem?_eq_getElem port.isLt
    have hnot : (child.signals.get port).kind = child.kindAt port := rfl
    rw [hkind] at hnot
    rw [portMapping] at hmap'
    simp only [InstanceConnection.toIR, hsig] at hmap'
    split at hmap'
    · cases hmap'
    · split at hmap'
      · rename_i heq _ _
        obtain rfl := Option.some.inj heq
        rw [hnot] at hmap'
        cases hmap'
      · cases hmap'

/-! ## Wired ports -/

/-- A port of some width is connected to a whole signal or to a slice of it. -/
def SliceFits (slice : Option (ℕ × ℕ)) (whole width : ℕ) : Prop :=
  match slice with
  | none => whole = width
  | some (msb, lsb) => lsb ≤ msb ∧ msb < whole ∧ width = msb + 1 - lsb

/-- The parent's bit for a bit of the port. -/
def directBit (slice : Option (ℕ × ℕ)) (k : ℕ) : ℕ :=
  match slice with
  | none => k
  | some (_, lsb) => lsb + k

variable {meaning : TextMeaning m}

theorem signalText_value {name : List Char} {i j : m.SignalIndex} {slice : Option (ℕ × ℕ)}
    {w k b : ℕ} {s : CtxState} (h : (signalText m name i slice w).bitAt meaning k = some (j, b)) :
    (signalText m name i slice w).value meaning s k = (s.signals j).current.part (.bit b) := by
  obtain ⟨slice', hsignal⟩ : ∃ slice', signalText m name i slice w = .signal i slice' := by
    unfold signalText
    split
    · exact ⟨_, rfl⟩
    · split
      · exact ⟨_, rfl⟩
      · exact ⟨_, rfl⟩
  rw [hsignal] at h ⊢
  rw [PortText.value, h]

theorem signalText_bitAt {name : List Char} {i : m.SignalIndex} {slice : Option (ℕ × ℕ)} {w k : ℕ}
    (hfit : SliceFits slice (m.signals.get i).width w) (hk : k < w) :
    (signalText m name i slice w).bitAt meaning k = some (i, directBit slice k) := by
  cases slice with
  | none =>
    simp only [SliceFits] at hfit
    rw [signalText, if_neg (by omega), PortText.bitAt, if_pos (by omega), directBit]
  | some q =>
    obtain ⟨msb, lsb⟩ := q
    simp only [SliceFits] at hfit
    rw [signalText, PortText.bitAt, if_pos (by omega), directBit]

theorem directMapping_fits {i : m.SignalIndex} {port : child.SignalIndex}
    {slice : Option (ℕ × ℕ)} {dir : IRPortDirection}
    (h : (directMapping child i port slice dir).Fits m child) :
    SliceFits slice (m.signals.get i).width (child.signals.get port).width := by
  obtain ⟨psig, csig, hp, hc, -, hfit⟩ := h
  have hpsig : m.signals.get i = psig :=
    Option.some.inj ((List.getElem?_eq_getElem i.isLt).symm.trans hp)
  have hcsig : child.signals.get port = csig :=
    Option.some.inj ((List.getElem?_eq_getElem port.isLt).symm.trans hc)
  rw [hpsig, hcsig]
  exact hfit

theorem text_bitAt {i : m.SignalIndex} {port : child.SignalIndex}
    {slice : Option (ℕ × ℕ)} {dir : IRPortDirection} {k : ℕ}
    (h : (directMapping child i port slice dir).Fits m child)
    (hk : k < (child.signals.get port).width) :
    (signalText m record.name (m.canonicalIndex i) slice (child.signals.get port).width).bitAt
      meaning k = some (m.canonicalIndex i, directBit slice k) := by
  refine signalText_bitAt ?_ hk
  rw [canonical_width]
  exact directMapping_fits h

variable {s c : CtxState}

theorem inputValue_part {i : m.SignalIndex} {port : child.SignalIndex} {slice : Option (ℕ × ℕ)}
    {dir : IRPortDirection} {k : ℕ} (h : (directMapping child i port slice dir).Fits m child)
    (hs : s.Fits m) (hk : k < (child.signals.get port).width) :
    (inputValue (directMapping child i port slice dir) s).part (.bit k) =
      (s.signals i).current.part (.bit (directBit slice k)) := by
  have hfit := directMapping_fits h
  have hwidth := (hs i _ (List.getElem?_eq_getElem i.isLt)).1
  cases slice with
  | none =>
    rw [inputValue, directMapping]
    dsimp only
    rw [if_pos (hwidth.trans hfit)]
    rfl
  | some q =>
    obtain ⟨msb, lsb⟩ := q
    simp only [SliceFits] at hfit
    exact part_simValSlice _ (by omega)

theorem OutputHeld.part {i : m.SignalIndex} {port : child.SignalIndex} {slice : Option (ℕ × ℕ)}
    {k : ℕ} (h : OutputHeld (directMapping child i port slice .portOut)
      (s.signals i).current (c.signals port).current)
    (hfits : (directMapping child i port slice .portOut).Fits m child)
    (hs : s.Fits m) (hc : c.Fits child) (hk : k < (child.signals.get port).width)
    (hnarrow : (m.signals.get i).width ≤ 256) :
    (s.signals i).current.part (.bit (directBit slice k)) =
      (c.signals port).current.part (.bit k) := by
  have hfit := directMapping_fits hfits
  have hp := hs i _ (List.getElem?_eq_getElem i.isLt)
  have hcp := hc port _ (List.getElem?_eq_getElem port.isLt)
  rcases h with hz | hheld
  · cases hz
  · cases slice with
    | none =>
      have hwidth := hp.1.trans (hfit.trans hcp.1.symm)
      have hsame := eq_of_simValSame hp.2 hcp.2 hwidth (by rw [hwidth]; exact hheld)
      rw [hsame]
      rfl
    | some q =>
      obtain ⟨msb, lsb⟩ := q
      simp only [SliceFits] at hfit
      have hbit := writeSlice_eq_self_iff.mp hheld (lsb + k) (by omega) (by omega) (by omega)
      rw [Nat.add_sub_cancel_left] at hbit
      exact hbit.symm

/-- Port maps at rest wire an instance. -/
theorem ConnectionsOk.wired (meaning : (m : IRModule) → TextMeaning m)
    (h : ConnectionsOk m child record) (hids : m.IdsDistinct) (hchild : child.IdsDistinct)
    (hin : ∀ pm ∈ inputMaps m child record.toIR, pm.Fits m child ∧ InputHeld pm s c)
    (hout : ∀ pm ∈ outputMaps m child record.toIR, pm.Fits m child ∧ OutputQuiet pm s c)
    (hapart : ((outputMaps m child record.toIR).map SimPortMapping.target).Pairwise Target.Apart)
    (hs : s.Fits m) (hc : c.Fits child)
    (hnarrow : ∀ i : m.SignalIndex, (m.signals.get i).width ≤ 256)
    (hcanon : ∀ i : m.SignalIndex,
      (s.signals (m.canonicalIndex i)).current = (s.signals i).current) :
    PortsWired meaning m child record s c where
  inputs p hp k hk := by
    obtain ⟨i, slice, hmem, htext⟩ := h.mapping hids hchild hp
    have hpm : directMapping child i p.1 slice .portIn ∈ inputMaps m child record.toIR :=
      List.mem_filterMap.mpr ⟨_, hmem, rfl⟩
    obtain ⟨hfits, hheld⟩ := hin _ hpm
    have hvalue := inputHeld_iff.mp hheld
    have hport : (c.signals p.1).current =
        inputValue (directMapping child i p.1 slice .portIn) s := hvalue
    have hbit := @text_bitAt _ _ record (meaning m) _ _ _ _ _ hfits hk
    rw [hport, inputValue_part hfits hs hk, htext, signalText_value hbit, hcanon]
  outputs p hp k hk j b hbit := by
    obtain ⟨i, slice, hmem, htext⟩ := h.mapping hids hchild hp
    have hpm : directMapping child i p.1 slice .portOut ∈ outputMaps m child record.toIR :=
      List.mem_filterMap.mpr ⟨_, hmem, rfl⟩
    obtain ⟨hfits, hquiet⟩ := hout _ hpm
    have htextBit := @text_bitAt _ _ record (meaning m) _ _ _ _ _ hfits hk
    rw [← htext] at htextBit
    cases htextBit.symm.trans hbit
    rw [hcanon]
    exact (outputQuiet_iff.mp hquiet).part hfits hs hc hk (hnarrow i)
  widths i := (hs i _ (List.getElem?_eq_getElem i.isLt)).1
  others t ht i q hq := by
    obtain ⟨hev, hfits, -⟩ := propagateOutputs_spec hc (fun pm hpm => (hout pm hpm).1) ht hapart
    have hold := ht i (m.signals.get i) (List.getElem?_eq_getElem i.isLt)
    have hnew := hfits i (m.signals.get i) (List.getElem?_eq_getElem i.isLt)
    cases q with
    | width => exact congrArg Sum.inr (hnew.1.trans hold.1.symm)
    | bit b =>
      by_cases hb : b < (m.signals.get i).width
      · refine hev.keeps i (.bit b) fun τ hτ hcov => ?_
        obtain ⟨pm, hpm, rfl⟩ := List.mem_map.mp hτ
        obtain ⟨p, hp, j, slice, rfl, htext⟩ := h.outputMap hids hchild hpm
        have hfit := directMapping_fits (hout _ hpm).1
        obtain ⟨hj, hcov⟩ := hcov
        obtain rfl : j = i := Fin.ext hj
        have hplace : ∃ k < (child.signals.get p.1).width, directBit slice k = b := by
          cases slice with
          | none => exact ⟨b, hfit ▸ hb, rfl⟩
          | some q =>
            obtain ⟨msb, lsb⟩ := q
            simp only [SliceFits] at hfit
            obtain ⟨hlo, hhi⟩ : lsb ≤ b ∧ b ≤ msb := hcov
            exact ⟨b - lsb, by omega, by simp only [directBit]; omega⟩
        obtain ⟨k, hk, rfl⟩ := hplace
        refine hq p (List.mem_append_left _ hp) k hk _ ?_ rfl
        rw [htext]
        exact text_bitAt (hout _ hpm).1 hk
      · obtain ⟨h1, h2, h3⟩ := hold.2.bits (k := b) (by omega)
        obtain ⟨h4, h5, h6⟩ := hnew.2.bits (k := b) (by omega)
        simp only [SimValue.part, h1, h2, h3, h4, h5, h6]

end

/-! ## Wired trees -/

mutual

/-- The rules for all the modules and connections of a tree. -/
def WiringOk : (h : Hierarchy) → Records h → Prop
  | .node m children, records =>
    m.IdsDistinct ∧ m.AliasesPlain ∧ (∀ i : m.SignalIndex, (m.signals.get i).width ≤ 256) ∧
      KidsWiringOk m children records

def KidsWiringOk (m : IRModule) : (c : Instances) → KidsRecords c → Prop
  | .nil, _ => True
  | .cons _ child rest, (record, below, records) =>
    ConnectionsOk m child.module record.1 ∧ WiringOk child below ∧ KidsWiringOk m rest records

end

mutual

/-- Every value of the tree has its declared width. -/
def Declared : (h : Hierarchy) → SimContext h → Prop
  | .node m children, (s, kids) => s.Fits m ∧ KidsDeclared children kids

def KidsDeclared : (c : Instances) → SimChildren c → Prop
  | .nil, _ => True
  | .cons _ child rest, (ctx, kids) => Declared child ctx ∧ KidsDeclared rest kids

end

mutual

theorem Sound.declared : ∀ {h : Hierarchy} {ctx : SimContext h}, Sound h ctx → Declared h ctx
  | .node _ _, (_, _), hs => ⟨hs.2.1, hs.2.2.declared⟩

theorem KidsSound.declared : ∀ {c : Instances} {kids : SimChildren c}, KidsSound c kids →
    KidsDeclared c kids
  | .nil, _, _ => trivial
  | .cons _ _ _, (_, _), hs => ⟨hs.1.declared, hs.2.declared⟩

end

mutual

theorem Declared.cleared : ∀ {h : Hierarchy} {ctx : SimContext h}, Declared h ctx →
    Declared h (clearSigDirty h ctx)
  | .node _ _, (_, _), hd => ⟨hd.1, hd.2.cleared⟩

theorem KidsDeclared.cleared : ∀ {c : Instances} {kids : SimChildren c}, KidsDeclared c kids →
    KidsDeclared c (clearKidsDirty c kids)
  | .nil, _, _ => trivial
  | .cons _ _ _, (_, _), hd => ⟨hd.1.cleared, hd.2.cleared⟩

end

theorem Declared.fits : ∀ {h : Hierarchy} {ctx : SimContext h}, Declared h ctx →
    ctx.state.Fits h.module
  | .node _ _, (_, _), hd => hd.1

theorem WiringOk.ids : ∀ {h : Hierarchy} {records : Records h}, WiringOk h records →
    h.module.IdsDistinct
  | .node _ _, _, hw => hw.1

theorem KidsWiringOk.driver_directed {meaning : (m : IRModule) → TextMeaning m} {m : IRModule}
    {i : m.SignalIndex} {b : ℕ} :
    ∀ {c : Instances} {records : KidsRecords c} {kids : SimChildren c}, KidsWiringOk m c records →
      ∀ d ∈ c.driversAt meaning m i b records kids, d.1 ≠ .port .portInout
  | .nil, _, _, _, _, hd => nomatch hd
  | .cons _ child rest, (record, below, records), (ctx, kids), hw, d, hd => by
      rcases List.mem_append.mp hd with hd | hd
      · obtain ⟨p, hp, hd⟩ := List.mem_flatMap.mp hd
        obtain ⟨conn, hconn, hemit⟩ := List.mem_filterMap.mp hp
        obtain ⟨k, -, hd⟩ := List.mem_filterMap.mp hd
        split at hd
        · cases hd
          exact hw.1.directed conn hconn _ (emitConnection_port hemit)
        · cases hd
      · exact hw.2.2.driver_directed d hd

section

variable {meaning : (m : IRModule) → TextMeaning m}

mutual

/-- A tree at its fixed point is wired as it is printed. -/
theorem AtFixedPoint.wired : ∀ {h : Hierarchy} {records : Records h} {ctx : SimContext h},
    DesignOk h → WiringOk h records → Declared h ctx → AtFixedPoint h ctx →
      Wired meaning h records ctx
  | .node m children, records, (s, kids), hd, hw, hf, hfix => by
      obtain ⟨hasync, -, -, hkids⟩ := hd
      obtain ⟨hids, hplain, hnarrow, hconns⟩ := hw
      refine ⟨fun i b hne hinout => ?_, hfix.2.wired hkids hids hconns hf.2 hf.1 hnarrow
        (hasync.canonical_current hids hplain hf.1 hfix.1)⟩
      obtain ⟨d, hmem⟩ := List.exists_mem_of_ne_nil _ hne
      exact absurd (hinout d hmem) (hconns.driver_directed d hmem)

theorem KidsAtFixedPoint.wired {m : IRModule} : ∀ {c : Instances} {records : KidsRecords c}
    {s : CtxState} {kids : SimChildren c}, KidsAtFixedPoint m c s kids → KidsOk m c →
      m.IdsDistinct → KidsWiringOk m c records → KidsDeclared c kids → s.Fits m →
      (∀ i : m.SignalIndex, (m.signals.get i).width ≤ 256) →
      (∀ i : m.SignalIndex, (s.signals (m.canonicalIndex i)).current = (s.signals i).current) →
      KidsWired meaning m c records s kids
  | .nil, _, _, _, _, _, _, _, _, _, _, _ => trivial
  | .cons inst child rest, (⟨record, hrecord⟩, below, records), s, (ctx, kids), hfix, hk, hids, hw,
      hf, hs, hnarrow, hcanon => by
      subst hrecord
      obtain ⟨hmaps, -, -, hchild, hrest⟩ := hk
      obtain ⟨hin, hout, hbelow, hkids⟩ := hfix
      exact ⟨hw.1.wired meaning hids hw.2.1.ids
          (fun pm hpm => ⟨hmaps.inputs pm hpm, hin pm hpm⟩)
          (fun pm hpm => ⟨hmaps.outputs pm hpm, hout pm hpm⟩) hmaps.apart hs hf.1.fits hnarrow
          hcanon,
        hbelow.wired hchild hw.2.1 hf.1,
        hkids.wired hrest hids hw.2.2 hf.2 hs hnarrow hcanon⟩

end

end

theorem settle_declared {h : Hierarchy} {ctx ctx' : SimContext h} {n : ℕ} (hd : DesignOk h)
    (hok : SettleOk h ctx)
    (hsettle : simSettleCombinational buildAsyncChunks h ctx n = (true, ctx')) :
    Declared h ctx' := by
  by_cases ha : h.hasAnyAsync = true
  · obtain ⟨u, hu, -, rfl⟩ := settle_stops hd hok ha hsettle
    exact (hu.pass hd).sound.declared.cleared
  · obtain rfl := settle_idle ha hsettle
    exact hok.sound.declared

namespace WireExample

/-- The value of the one constant that is used. -/
def bitMeaning (m : IRModule) : TextMeaning m where
  value text _ := if text = "1'b1".toList then simValOnes 1 else simValZero 1
  place _ _ := none

def wiresRecord : InstanceRecord := ⟨['u'], [⟨some 0, 0, none, none⟩, ⟨some 1, 1, none, none⟩]⟩

def wiresRecords : Records (design ordered) := (⟨wiresRecord, rfl⟩, (), ())

theorem wires_wiringOk : WiringOk (design ordered) wiresRecords := by
  refine ⟨by decide, ?_, by decide, ⟨?_, ?_⟩, ⟨by decide, ?_, by decide, trivial⟩, trivial⟩
  · intro a ha
    cases ha
  · intro conn hconn
    rcases List.mem_pair.mp hconn with rfl | rfl
    · exact ⟨rfl, ⟨0, by decide⟩, rfl⟩
    · exact ⟨rfl, ⟨1, by decide⟩, rfl⟩
  · intro conn hconn port hport hkind
    exact (by simp [leaf] : ∀ sig ∈ (leaf ordered).signals, sig.kind ≠ .port .portInout) _
      (List.getElem_mem port.isLt) hkind
  · intro a ha
    cases ha

end WireExample

namespace WireExample

def tied : InstanceRecord :=
  ⟨['u'], [⟨none, 0, none, some "1'b1".toList⟩, ⟨some 1, 1, none, none⟩]⟩

/-- The leaf with its input tied to a constant. -/
def tiedDesign : Hierarchy := .node top (.cons tied.toIR (.node (leaf ordered) .nil) .nil)

def tiedRecords : Records tiedDesign := (⟨tied, rfl⟩, (), ())

def tiedFresh : SimContext tiedDesign := (zeros, ((zeros, ()), ()))

end WireExample

end JzHdl

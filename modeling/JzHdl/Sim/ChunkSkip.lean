import JzHdl.Sim.Engine
import JzHdl.Sim.Staged
import JzHdl.Sim.Still

/-! # Skipping clean chunks

A chunk is armed when a dirty flag makes it run or when running it would change
nothing. While every chunk is armed, a pass that skips clean chunks equals a
pass over the whole block. The invariant survives every engine operation that
raises a flag for what it changes; a memory write raises none.
-/

namespace JzHdl

open DirtySkip

section

variable {m : IRModule} {s t u : CtxState} {c : SimAsyncChunk}

/-- Flags and errors only rise, and a changed signal is flagged. -/
structure Flagged (s t : CtxState) : Prop where

  sigDirty : ∀ i, s.sigDirty i = true → t.sigDirty i = true

  runtimeError : s.runtimeError = true → t.runtimeError = true

  flagged : ∀ i, (t.signals i).current ≠ (s.signals i).current → t.sigDirty i = true

namespace Flagged

theorem refl (s : CtxState) : Flagged s s := ⟨fun _ => id, id, fun _ h => absurd rfl h⟩

theorem trans (h : Flagged s t) (h' : Flagged t u) : Flagged s u where
  sigDirty i hi := h'.sigDirty i (h.sigDirty i hi)
  runtimeError hs := h'.runtimeError (h.runtimeError hs)
  flagged i hne := by
    by_cases ht : (u.signals i).current = (t.signals i).current
    · exact h'.sigDirty i (h.flagged i (ht ▸ hne))
    · exact h'.flagged i ht

theorem foldl {α : Type*} {f : CtxState → α → CtxState} (hf : ∀ s a, Flagged s (f s a)) :
    ∀ (l : List α) (s : CtxState), Flagged s (l.foldl f s)
  | [], s => refl s
  | a :: rest, s => (hf s a).trans (foldl hf rest (f s a))

theorem setCurrent_markDirty (s : CtxState) (i : ℕ) (v : SimValue) :
    Flagged s ((s.setCurrent i v).markDirty i) where
  sigDirty j hj := by simp [CtxState.markDirty, CtxState.setCurrent, CtxState.setEntry, hj]
  runtimeError := id
  flagged j hne := by
    by_cases h : j = i
    · simp [CtxState.markDirty, h]
    · exact absurd ((setCurrent_current s i j v).trans (if_neg h)) hne

end Flagged

theorem Evolves.toFlagged {ts : List Target} (h : Evolves ts s t) : Flagged s t :=
  ⟨h.sigDirty, h.runtimeError, fun i hi => (h.flagged i hi).1⟩

theorem Stages.toFlagged {ms : List String} (h : Stages m ms s t) : Flagged s t :=
  ⟨fun i hi => by rwa [h.sigDirty], h.runtimeError, fun i hi => absurd (h.current i) hi⟩

/-! ## Armed chunks -/

theorem mem_readIndices {i : ℕ} {stmt : IRStmt} :
    i ∈ (buildChunk m stmt).readIndices ↔ ∃ id ∈ stmtReads stmt, m.sigIndex id = some i := by
  simp [buildChunk, sigidsToIndices, mem_collectStmtReads]

theorem mem_buildAsyncChunks (h : c ∈ buildAsyncChunks m) : c = buildChunk m c.stmt := by
  rw [buildAsyncChunks] at h
  split at h
  · simp at h
  · obtain ⟨stmt, -, rfl⟩ := List.mem_map.mp h
    rfl
  · rw [List.mem_singleton.mp h]
    rfl

theorem needsExec_mono (h : ∀ i, s.sigDirty i = true → t.sigDirty i = true)
    (hs : needsExec c s = true) : needsExec c t = true := by
  simp only [needsExec, Bool.or_eq_true, List.any_eq_true] at hs ⊢
  rcases hs with hs | ⟨i, hi, hd⟩
  · exact Or.inl hs
  · exact Or.inr ⟨i, hi, h i hd⟩

/-- What a clean chunk keeps: the memories it reads and the bits it drives. -/
def Keeps (m : IRModule) (c : SimAsyncChunk) (s t : CtxState) : Prop :=
  SameMems m s t (stmtMems c.stmt) ∧
    ∀ τ ∈ stmtTargets m c.stmt, τ.Agree (s.signals τ.index).current (t.signals τ.index).current

/-- Running a chunk, skipping it when it is clean, and when running it changes nothing. -/
def chunkActions (m : IRModule) : Actions CtxState SimAsyncChunk where
  run c s := simExecStmt m false c.stmt s
  needs := needsExec
  Still c s := Still m s c.stmt
  run_of_still c _ h := exec_of_still c.stmt h

abbrev ArmedChunks (m : IRModule) (s : CtxState) : Prop :=
  (chunkActions m).Armed (buildAsyncChunks m) s

theorem Flagged.arm (h : Flagged s t) (hc : c ∈ buildAsyncChunks m)
    (hs : needsExec c s = true ∨ Still m s c.stmt) (hk : needsExec c t = true ∨ Keeps m c s t) :
    needsExec c t = true ∨ Still m t c.stmt := by
  by_cases hn : needsExec c t = true
  · exact Or.inl hn
  · have hstill := hs.resolve_left fun hs' => hn (needsExec_mono h.sigDirty hs')
    obtain ⟨hm, ht⟩ := hk.resolve_left hn
    refine Or.inr (Still.congr c.stmt hstill ⟨fun id hid i hi => ?_, hm, ht, h.runtimeError⟩)
    by_contra hne
    refine hn ?_
    have hmem : i ∈ c.readIndices := by
      rw [mem_buildAsyncChunks hc]
      exact mem_readIndices.mpr ⟨id, hid, hi⟩
    simp only [needsExec, Bool.or_eq_true, List.any_eq_true]
    exact Or.inr ⟨i, hmem, h.flagged i fun he => hne he.symm⟩

/-- An operation keeps the chunks armed when it spares the clean ones. -/
theorem ArmedChunks.step (hs : ArmedChunks m s) (h : Flagged s t)
    (hk : ∀ c ∈ buildAsyncChunks m, needsExec c t = true ∨ Keeps m c s t) : ArmedChunks m t :=
  fun c hc => h.arm hc (hs c hc) (hk c hc)

theorem ArmedChunks.of_allDirty (h : ∀ i < m.signals.length, s.sigDirty i = true) :
    ArmedChunks m s := by
  intro c hc
  refine Or.inl ?_
  change needsExec c s = true
  cases hr : c.readIndices with
  | nil => simp [needsExec, hr]
  | cons i rest =>
    have hi : i ∈ c.readIndices := by simp [hr]
    have hi' := hi
    rw [mem_buildAsyncChunks hc, mem_readIndices] at hi'
    obtain ⟨id, -, hid⟩ := hi'
    simp only [needsExec, Bool.or_eq_true, List.any_eq_true]
    exact Or.inr ⟨i, hi, h i (IRModule.sigIndex_lt hid)⟩

/-! ## Passes -/

def ChunksApart (m : IRModule) (c d : SimAsyncChunk) : Prop :=
  TargetsApart (stmtTargets m c.stmt) (stmtTargets m d.stmt)

instance : Std.Symm (ChunksApart m) := ⟨fun _ _ h => h.symm⟩

/-- The language rules a pass relies on: the asynchronous block writes no memory, and distinct
statements of it drive distinct bits. -/
structure AsyncOk (m : IRModule) : Prop where

  memWrites : stmtMemWrites m.asyncBlock = []

  apart : (buildAsyncChunks m).Pairwise (ChunksApart m)

theorem AsyncOk.apart_of_ne (h : AsyncOk m) {c d : SimAsyncChunk} (hc : c ∈ buildAsyncChunks m)
    (hd : d ∈ buildAsyncChunks m) (hne : c ≠ d) : ChunksApart m c d :=
  h.apart.forall hc hd hne

theorem stmtsMemWrites_eq_nil {stmts : List IRStmt} (h : stmtsMemWrites stmts = []) :
    ∀ stmt ∈ stmts, stmtMemWrites stmt = [] := by
  induction stmts with
  | nil => simp
  | cons stmt rest ih =>
    simp only [stmtsMemWrites, List.append_eq_nil_iff] at h
    rintro x (_ | ⟨_, hx⟩)
    · exact h.1
    · exact ih h.2 x hx

theorem AsyncOk.chunk_memWrites (h : AsyncOk m) (hc : c ∈ buildAsyncChunks m) :
    stmtMemWrites c.stmt = [] := by
  have hw := h.memWrites
  rw [buildAsyncChunks] at hc
  split at hc
  · simp at hc
  · rename_i stmts hb
    obtain ⟨stmt, hstmt, rfl⟩ := List.mem_map.mp hc
    rw [hb, stmtMemWrites] at hw
    exact stmtsMemWrites_eq_nil hw stmt hstmt
  · rw [List.mem_singleton.mp hc]
    exact hw

theorem AsyncOk.chunk_evolves (h : AsyncOk m) (hc : c ∈ buildAsyncChunks m) (s : CtxState) :
    Evolves (stmtTargets m c.stmt) s (simExecStmt m false c.stmt s) :=
  exec_evolves c.stmt s (h.chunk_memWrites hc)

theorem Evolves.keeps_of_apart {ts : List Target} (h : Evolves ts s t)
    (hap : TargetsApart ts (stmtTargets m c.stmt)) : Keeps m c s t := by
  refine ⟨fun _ _ i _ => by rw [h.cells], fun υ hυ => ?_⟩
  exact Target.agree_of_apart rfl (fun τ hτ => hap τ hτ υ hυ) fun p hp =>
    (h.keeps υ.index p hp).symm

/-- Running one chunk keeps every chunk armed. -/
theorem AsyncOk.run_armed (h : AsyncOk m) (hc : c ∈ buildAsyncChunks m) (hs : ArmedChunks m s)
    (hn : needsExec c s = true) : ArmedChunks m (simExecStmt m false c.stmt s) := by
  have hev := h.chunk_evolves hc s
  refine hs.step hev.toFlagged fun d hd => ?_
  by_cases hcd : c = d
  · exact Or.inl (hcd ▸ needsExec_mono hev.sigDirty hn)
  · exact Or.inr (hev.keeps_of_apart (h.apart_of_ne hc hd hcd))

theorem foldl_run_chunks (m : IRModule) (s : CtxState) :
    (buildAsyncChunks m).foldl (fun s c => (chunkActions m).run c s) s =
      simExecStmt m false m.asyncBlock s := by
  have hstmts : ∀ (stmts : List IRStmt) (s : CtxState),
      (stmts.map (buildChunk m)).foldl (fun s c => (chunkActions m).run c s) s =
        execStmts m false stmts s := by
    intro stmts
    induction stmts with
    | nil => intro s; rfl
    | cons stmt rest ih =>
      intro s
      rw [List.map_cons, List.foldl_cons, ih, execStmts]
      rfl
  rw [buildAsyncChunks]
  split
  · rename_i hb
    rw [hb]; rfl
  · rename_i stmts hb
    rw [hb, simExecStmt]
    exact hstmts stmts s
  · rfl

theorem settleOwn_nil (m : IRModule) (s : CtxState) :
    settleOwn [] m s = simExecStmt m false m.asyncBlock s := rfl

theorem settleOwn_chunks (m : IRModule) (s : CtxState) :
    settleOwn (buildAsyncChunks m) m s = (buildAsyncChunks m).foldl (chunkActions m).skip s := by
  rw [settleOwn]
  by_cases he : (buildAsyncChunks m).isEmpty = true
  · rw [if_pos he]
    have hnil := List.isEmpty_iff.mp he
    have := foldl_run_chunks m s
    rw [hnil] at this ⊢
    exact this.symm
  · rw [if_neg he]
    rfl

/-- With armed chunks a pass with skipping equals the pass over the whole block. -/
theorem AsyncOk.settleOwn_eq (h : AsyncOk m) (hs : ArmedChunks m s) :
    settleOwn (buildAsyncChunks m) m s = settleOwn [] m s ∧
      ArmedChunks m (settleOwn (buildAsyncChunks m) m s) := by
  rw [settleOwn_chunks, settleOwn_nil, ← foldl_run_chunks]
  exact (chunkActions m).foldl_skip (fun c hc s harm hn => h.run_armed hc harm hn)
    (List.Subset.refl _) hs

theorem AsyncOk.foldl_evolves (h : AsyncOk m) : ∀ {l : List SimAsyncChunk} (s : CtxState),
    l ⊆ buildAsyncChunks m → Evolves (l.flatMap fun c => stmtTargets m c.stmt) s
      (l.foldl (chunkActions m).skip s)
  | [], s, _ => .refl _ s
  | c :: rest, s, hsub => by
      have hc := hsub List.mem_cons_self
      have hrest := h.foldl_evolves (l := rest) ((chunkActions m).skip s c)
        fun x hx => hsub (List.mem_cons_of_mem _ hx)
      rw [List.foldl_cons, List.flatMap_cons]
      refine Evolves.trans ?_ (hrest.mono (List.subset_append_right _ _))
      exact (chunkActions m).skip_cases
        (P := Evolves (stmtTargets m c.stmt ++ rest.flatMap fun c => stmtTargets m c.stmt) s)
        (fun _ => (h.chunk_evolves hc s).mono (List.subset_append_left _ _)) (.refl _ s)

/-- After a quiet pass every chunk is still. -/
theorem AsyncOk.still_of_quiet (h : AsyncOk m) : ∀ {l : List SimAsyncChunk} {s t : CtxState},
    l ⊆ buildAsyncChunks m → ArmedChunks m s →
    (l.foldl (chunkActions m).skip s).settleDirty = false →
    Covers (l.foldl (chunkActions m).skip s) (l.foldl (chunkActions m).skip s) t →
    ∀ c ∈ l, Still m t c.stmt
  | [], _, _, _, _, _, _ => by simp
  | c :: rest, s, t, hsub, hs, hq, ht => by
      have hc := hsub List.mem_cons_self
      have hrest : rest ⊆ buildAsyncChunks m := fun x hx => hsub (List.mem_cons_of_mem _ hx)
      rw [List.foldl_cons] at hq ht
      have hev := h.foldl_evolves ((chunkActions m).skip s c) hrest
      have harm : ArmedChunks m ((chunkActions m).skip s c) :=
        (chunkActions m).skip_cases (P := ArmedChunks m) (fun hn => h.run_armed hc hs hn) hs
      have hd := hev.sameData hq
      have hqs : ((chunkActions m).skip s c).settleDirty = false := by
        by_contra hne
        rw [hev.settleDirty (by simpa using hne)] at hq
        cases hq
      have hdt : SameData ((chunkActions m).skip s c) t :=
        ⟨fun i => (hd.signals i).trans (ht.data.signals i), hd.cells.trans ht.data.cells⟩
      have het : ((chunkActions m).skip s c).runtimeError = true → t.runtimeError = true :=
        fun he => ht.error (hev.runtimeError he)
      rintro x (_ | ⟨_, hx⟩)
      · rw [Actions.skip] at hqs hdt het
        by_cases hn : (chunkActions m).needs c s = true
        · rw [if_pos hn] at hqs hdt het
          have hds := (h.chunk_evolves hc s).sameData hqs
          exact still_of_exec c.stmt s (h.chunk_memWrites hc) hqs
            ⟨⟨fun i => (hds.signals i).trans (hdt.signals i), hds.cells.trans hdt.cells⟩, het⟩
        · rw [if_neg hn] at hdt het
          exact Still.congr c.stmt ((hs c hc).resolve_left hn) (hdt.stillAgree het _ _ _)
      · exact h.still_of_quiet hrest harm hq ht x hx

/-- Flags can be dropped after a quiet pass. -/
theorem AsyncOk.armed_of_quiet (h : AsyncOk m) (hs : ArmedChunks m s)
    (hq : (settleOwn (buildAsyncChunks m) m s).settleDirty = false)
    (ht : Covers (settleOwn (buildAsyncChunks m) m s) (settleOwn (buildAsyncChunks m) m s) t) :
    ArmedChunks m t := by
  rw [settleOwn_chunks] at hq ht
  exact fun c hc => Or.inr (h.still_of_quiet (List.Subset.refl _) hs hq ht c hc)

theorem ArmedChunks.clearSettleDirty (hs : ArmedChunks m s) : ArmedChunks m s.clearSettleDirty :=
  hs.step ⟨fun _ => id, id, fun _ h => absurd rfl h⟩ fun _ _ => Or.inr ⟨fun _ _ _ _ => rfl, fun τ _ => by
    rw [Target.Agree]
    split
    · rfl
    · exact ⟨rfl, fun _ _ _ => rfl⟩⟩

end

end JzHdl

import JzHdl.Sim.ChunkSkip
import JzHdl.Sim.OpBits
import JzHdl.Sim.Order

/-! # Port maps

Values that fit the declared widths are copied without loss, so the dirty tests
of both directions are exact: an unflagged copy changes nothing.
-/

namespace JzHdl

open BitWords

/-! ## Values that fit -/

/-- Masked values of one width are equal when the words that the width covers are. -/
theorem eq_of_simValSame {v w : SimValue} (hv : v.Masked) (hw : w.Masked) (hwd : v.width = w.width)
    (h : simValSame v w ((v.width + 63) / 64) = true) : v = w := by
  refine SimValue.ext_part fun p => ?_
  cases p with
  | width => simp [SimValue.part, hwd]
  | bit k =>
    by_cases hk : k < v.width
    · exact sameWords_bit h (by omega) (by omega)
    · obtain ⟨h1, h2, h3⟩ := hv.bits (k := k) (by omega)
      obtain ⟨h4, h5, h6⟩ := hw.bits (k := k) (by omega)
      simp [SimValue.part, h1, h2, h3, h4, h5, h6]

/-- Every current value has its declared width and nothing above it. -/
def CtxState.Fits (m : IRModule) (s : CtxState) : Prop :=
  ∀ i sig, m.signals[i]? = some sig →
    (s.signals i).current.width = sig.width ∧ (s.signals i).current.Masked

theorem CtxState.Fits.setCurrent {m : IRModule} {s : CtxState} (h : s.Fits m) {i : ℕ} {v : SimValue}
    (hv : ∀ sig, m.signals[i]? = some sig → v.width = sig.width ∧ v.Masked) :
    (s.setCurrent i v).Fits m := by
  intro j sig hj
  rw [setCurrent_current]
  by_cases hij : j = i
  · subst hij
    rw [if_pos rfl]
    exact hv sig hj
  · rw [if_neg hij]
    exact h j sig hj

section

variable {parent child : IRModule} {inst : IRInstance} {pm : SimPortMapping} {s c : CtxState}

/-! ## Connections -/

/-- The connected parts have one width. -/
def SimPortMapping.Fits (parent child : IRModule) (pm : SimPortMapping) : Prop :=
  ∃ psig csig, parent.signals[pm.parentIndex]? = some psig ∧
    child.signals[pm.childIndex]? = some csig ∧ pm.childWidth = csig.width ∧
    match pm.parentSlice with
    | none => psig.width = csig.width
    | some (msb, lsb) => lsb ≤ msb ∧ msb < psig.width ∧ csig.width = msb + 1 - lsb

theorem inputValue_fits (hp : pm.Fits parent child) (hs : s.Fits parent) :
    ∀ sig, child.signals[pm.childIndex]? = some sig →
      (inputValue pm s).width = sig.width ∧ (inputValue pm s).Masked := by
  intro sig hsig
  obtain ⟨psig, csig, h1, h2, h3, h4⟩ := hp
  obtain rfl : sig = csig := by rw [h2] at hsig; exact (Option.some.inj hsig).symm
  obtain ⟨hw, hm⟩ := hs _ _ h1
  rw [inputValue]
  cases hsl : pm.parentSlice with
  | none =>
    rw [hsl] at h4
    have hwd : (s.signals pm.parentIndex).current.width = pm.childWidth := by
      rw [hw, h4, h3]
    simp only [if_pos hwd]
    exact ⟨hw.trans h4, hm⟩
  | some p =>
    obtain ⟨msb, lsb⟩ := p
    rw [hsl] at h4
    obtain ⟨hle, -, hwd⟩ := h4
    simp only [simValSlice]
    rw [if_neg (by omega)]
    exact ⟨hwd.symm, masked_simValMask _⟩

/-! ## Inputs -/

/-- One input map, with an exact test for change. -/
theorem propagateInput_eq {acc : Bool × CtxState} (hp : pm.Fits parent child) (hs : s.Fits parent)
    (hc : acc.2.Fits child) : propagateInput s acc pm =
      if (acc.2.signals pm.childIndex).current = inputValue pm s then acc
      else (true, markSignal (acc.2.setCurrent pm.childIndex (inputValue pm s)) pm.childIndex) := by
  obtain ⟨psig, csig, h1, h2, h3, h4⟩ := id hp
  obtain ⟨hw, hm⟩ := inputValue_fits hp hs _ h2
  obtain ⟨hcw, hcm⟩ := hc _ _ h2
  rw [propagateInput]
  by_cases heq : (acc.2.signals pm.childIndex).current = inputValue pm s
  · simp only [← heq, simValSame_self, if_true, setCurrent_self]
  · rw [if_neg heq]
    have hne : ¬ simValSame (acc.2.signals pm.childIndex).current (inputValue pm s)
        ((pm.childWidth + 63) / 64) = true := fun h => heq <|
      eq_of_simValSame hcm hm (hcw.trans hw.symm) (by rwa [hcw, ← h3])
    simp only [if_neg hne]

/-- What receiving the inputs does to a child. -/
structure Receives (s : CtxState) (maps : List SimPortMapping) (acc r : Bool × CtxState) : Prop where

  flags : Flagged acc.2 r.2

  cells : r.2.cells = acc.2.cells

  settleDirty : r.2.settleDirty = acc.2.settleDirty

  runtimeError : r.2.runtimeError = acc.2.runtimeError

  others : ∀ i, (∀ pm ∈ maps, pm.childIndex ≠ i) →
    (r.2.signals i).current = (acc.2.signals i).current

  received : ∀ pm ∈ maps, (r.2.signals pm.childIndex).current = inputValue pm s

  unchanged : r.1 = false → r = acc

theorem propagateInputs_receives (hs : s.Fits parent) : ∀ {maps : List SimPortMapping}
    {acc : Bool × CtxState}, (∀ pm ∈ maps, pm.Fits parent child) →
    (maps.map SimPortMapping.childIndex).Nodup → acc.2.Fits child →
    Receives s maps acc (maps.foldl (propagateInput s) acc) ∧
      (maps.foldl (propagateInput s) acc).2.Fits child
  | [], acc, _, _, hc =>
      ⟨⟨.refl _, rfl, rfl, rfl, fun _ _ => rfl, by simp, fun _ => rfl⟩, hc⟩
  | pm :: rest, acc, hp, hn, hc => by
      have hpm := hp pm List.mem_cons_self
      rw [List.map_cons, List.nodup_cons] at hn
      have hset : ∀ i, ((markSignal (acc.2.setCurrent pm.childIndex (inputValue pm s))
          pm.childIndex).signals i).current =
          if i = pm.childIndex then inputValue pm s else (acc.2.signals i).current :=
        fun i => setCurrent_current acc.2 pm.childIndex i (inputValue pm s)
      have hstep : Receives s [pm] acc (propagateInput s acc pm) ∧
          (propagateInput s acc pm).2.Fits child := by
        rw [propagateInput_eq hpm hs hc]
        split
        · rename_i heq
          exact ⟨⟨.refl _, rfl, rfl, rfl, fun _ _ => rfl, by simpa using heq, fun _ => rfl⟩, hc⟩
        · refine ⟨⟨⟨fun i hi => ?_, id, fun i hne => ?_⟩, rfl, rfl, rfl, fun i hi => ?_, ?_, by simp⟩,
            (hc.setCurrent (inputValue_fits hpm hs) :)⟩
          · simp [markSignal, CtxState.setCurrent, CtxState.setEntry, hi]
          · rw [hset] at hne
            by_cases hi : i = pm.childIndex
            · simp [markSignal, hi]
            · rw [if_neg hi] at hne
              exact absurd rfl hne
          · rw [hset, if_neg (Ne.symm (hi pm List.mem_cons_self))]
          · intro pm' hpm'
            rw [List.mem_singleton.mp hpm', hset, if_pos rfl]
      obtain ⟨h1, hc'⟩ := hstep
      obtain ⟨h2, hc''⟩ := propagateInputs_receives hs
        (fun x hx => hp x (List.mem_cons_of_mem _ hx)) hn.2 hc'
      rw [List.foldl_cons]
      refine ⟨⟨h1.flags.trans h2.flags, h2.cells.trans h1.cells, h2.settleDirty.trans h1.settleDirty,
        h2.runtimeError.trans h1.runtimeError, fun i hi => ?_, ?_, fun hf => ?_⟩, hc''⟩
      · rw [h2.others i fun x hx => hi x (List.mem_cons_of_mem _ hx),
          h1.others i fun x hx => hi x (by rw [List.mem_singleton.mp hx]; exact List.mem_cons_self)]
      · rintro x (_ | ⟨_, hx⟩)
        · rw [h2.others pm.childIndex fun x hx heq => hn.1 (heq ▸ List.mem_map_of_mem hx)]
          exact h1.received pm List.mem_cons_self
        · exact h2.received x hx
      · have hr := h2.unchanged hf
        rw [hr] at hf ⊢
        exact h1.unchanged hf

/-! ## Outputs -/

def SimPortMapping.target (pm : SimPortMapping) : Target := ⟨pm.parentIndex, pm.parentSlice⟩

/-- Copying the child's value out again would change nothing. -/
def OutputHeld (pm : SimPortMapping) (p c : SimValue) : Prop :=
  (pm.isInout && simValIsAllZ c) = true ∨ match pm.parentSlice with
    | some (msb, lsb) => writeSlice p c msb lsb = p
    | none => simValSame p c ((c.width + 63) / 64) = true

theorem OutputHeld.of_agree {p p' c : SimValue} (h : OutputHeld pm p c)
    (ha : pm.target.Agree p p') : OutputHeld pm p' c := by
  rcases h with h | h
  · exact Or.inl h
  · refine Or.inr ?_
    rw [Target.Agree, SimPortMapping.target] at ha
    cases hsl : pm.parentSlice with
    | none =>
      simp only [hsl] at h ha
      exact ha ▸ h
    | some q =>
      obtain ⟨msb, lsb⟩ := q
      simp only [hsl] at h ha
      rw [writeSlice_eq_self_iff] at h
      exact writeSlice_eq_self_iff.mpr fun k h1 h2 h3 => (h k h1 h2 h3).trans (ha.2 k h1 h2)

theorem propagateOutput_of_held (h : OutputHeld pm (s.signals pm.parentIndex).current
    (c.signals pm.childIndex).current) : propagateOutput c s pm = s := by
  rw [propagateOutput]
  rcases h with h | h
  · simp only [if_pos h]
  · by_cases hz : (pm.isInout && simValIsAllZ (c.signals pm.childIndex).current) = true
    · simp only [if_pos hz]
    · simp only [if_neg hz]
      cases hsl : pm.parentSlice with
      | none =>
        simp only [hsl] at h
        simp only [if_pos h]
      | some q =>
        obtain ⟨msb, lsb⟩ := q
        simp only [hsl] at h
        simp only [h, simValSame_self, if_true, setCurrent_self]

/-- The dirty test of a sliced output covers every word that the slice can change. -/
theorem writeSlice_eq_of_same {p c : SimValue} {msb lsb : ℕ} (hmsb : msb < p.width)
    (h : simValSame p (writeSlice p c msb lsb) ((p.width + 63) / 64) = true) :
    writeSlice p c msb lsb = p := by
  refine SimValue.ext_part fun q => ?_
  cases q with
  | width => exact writeSlice_part p c msb lsb .width
  | bit k =>
    by_cases hk : lsb ≤ k ∧ k ≤ msb ∧ k < 256
    · exact (sameWords_bit h (by omega) (by omega)).symm
    · rw [writeSlice_part]; simp only [if_neg hk]

theorem propagateOutput_spec (hp : pm.Fits parent child) (hs : s.Fits parent) (hc : c.Fits child) :
    Evolves [pm.target] s (propagateOutput c s pm) ∧ (propagateOutput c s pm).Fits parent ∧
      OutputHeld pm ((propagateOutput c s pm).signals pm.parentIndex).current
        (c.signals pm.childIndex).current := by
  obtain ⟨psig, csig, h1, h2, h3, h4⟩ := hp
  obtain ⟨hpw, hpm⟩ := hs _ _ h1
  obtain ⟨hcw, hcm⟩ := hc _ _ h2
  have hmark : ∀ w, (((s.setCurrent pm.parentIndex w).markDirty pm.parentIndex).signals
      pm.parentIndex).current = w :=
    fun w => (setCurrent_current s pm.parentIndex pm.parentIndex w).trans (if_pos rfl)
  by_cases hheld : OutputHeld pm (s.signals pm.parentIndex).current (c.signals pm.childIndex).current
  · rw [propagateOutput_of_held hheld]
    exact ⟨.refl _ s, hs, hheld⟩
  · obtain ⟨hz, hn⟩ := not_or.mp hheld
    rw [propagateOutput]
    simp only [if_neg hz]
    cases hsl : pm.parentSlice with
    | none =>
      simp only [hsl] at hn h4
      simp only [if_neg hn]
      refine ⟨evolves_markDirty s _ _ fun p hq => ?_, hs.setCurrent ?_, Or.inr ?_⟩
      · exact absurd ⟨rfl, by rw [SimPortMapping.target, hsl]; trivial⟩
          (hq _ (List.mem_singleton.mpr rfl))
      · intro sig hsig
        obtain rfl : sig = psig := by rw [h1] at hsig; exact (Option.some.inj hsig).symm
        exact ⟨hcw.trans h4.symm, hcm⟩
      · simp only [hsl, hmark]
        exact simValSame_self _ _
    | some q =>
      obtain ⟨msb, lsb⟩ := q
      simp only [hsl] at hn h4
      have hne : ¬ simValSame (s.signals pm.parentIndex).current
          (writeSlice (s.signals pm.parentIndex).current (c.signals pm.childIndex).current msb lsb)
          (((writeSlice (s.signals pm.parentIndex).current (c.signals pm.childIndex).current
            msb lsb).width + 63) / 64) = true := by
        rw [writeSlice_width]
        exact fun h => hn (writeSlice_eq_of_same (by omega) h)
      simp only [if_neg hne]
      refine ⟨evolves_markDirty s _ _ fun p hq => ?_, hs.setCurrent ?_, Or.inr ?_⟩
      · have := hq _ (List.mem_singleton.mpr rfl)
        rw [writeSlice_part]
        cases p with
        | width => rfl
        | bit k =>
          simp only [Target.Covers, SimPortMapping.target, hsl, true_and] at this
          simp only
          rw [if_neg (by omega)]
      · intro sig hsig
        obtain rfl : sig = psig := by rw [h1] at hsig; exact (Option.some.inj hsig).symm
        refine ⟨(writeSlice_width _ _ _ _).trans hpw, SimValue.masked_of_bits fun k hk => ?_⟩
        rw [writeSlice_width] at hk
        have hpart := writeSlice_part (s.signals pm.parentIndex).current
          (c.signals pm.childIndex).current msb lsb (.bit k)
        simp only at hpart
        rw [if_neg (by omega)] at hpart
        simp only [SimValue.part, Sum.inl.injEq, Prod.mk.injEq] at hpart
        rw [hpart.1, hpart.2.1, hpart.2.2]
        exact hpm.bits hk
      · simp only [hsl, hmark]
        rw [writeSlice_eq_self_iff]
        intro k h1 h2 h3
        rw [writeSlice_part]
        simp [h1, h2, h3]

end

end JzHdl

import JzHdl.Cdc.SyncRuns

/-! # Declared and implemented depth

The alias follows the source after two edges of the destination clock, for every
number of stages that is declared.
-/

namespace JzHdl

open BitWords

variable {domains : List IRClockDomain} {d : CdcDecl}

theorem wordVal_inj {w : ℕ} (hw : w ≤ 256) {a b : BitVec w} (h : wordVal a = wordVal b) :
    a = b := by
  refine BitVec.eq_of_getLsbD_eq fun k _ => ?_
  rw [← bit_wordVal hw a, ← bit_wordVal hw b, h]

/-! ## Chains -/

section

variable {α : Type*} {zero : α} {edge : ℕ → Bool} {input : ℕ → α}

/-- The register holds the input of the last edge. -/
theorem chainFirst_last {i j : ℕ} (hij : i < j) (hi : edge i = true)
    (hquiet : ∀ k, i < k → k < j → edge k = false) : chainFirst zero edge input j = input i := by
  rw [(chain_syncChain zero edge input).first_kept hij hquiet, chainFirst, hi, if_pos rfl]

/-- A chain that samples nothing but zero stays zero. -/
theorem chain_zero (h : ∀ n, edge n = true → input n = zero) : ∀ n,
    chainFirst zero edge input n = zero ∧ chainSecond zero edge input n = zero
  | 0 => ⟨rfl, rfl⟩
  | n + 1 => by
      obtain ⟨hfirst, hsecond⟩ := chain_zero h n
      rw [chainFirst, chainSecond]
      cases hedge : edge n
      · exact ⟨hfirst, hsecond⟩
      · exact ⟨h n hedge, hfirst⟩

/-- With an edge at every event the chain is two events late. -/
theorem chainSecond_every (h : ∀ n, edge n = true) (n : ℕ) :
    chainSecond zero edge input (n + 2) = input n := by
  rw [chainSecond, h, if_pos rfl, chainFirst, h, if_pos rfl]

end

/-! ## Enough -/

theorem sampled_enters (hsrc : d.kind = .bus → (domainOf domains d.srcClk).isSome = true)
    {run : CrossingRun d.width} {j : ℕ} {word : BitVec d.width} (h : Enters d run j word) :
    sampled domains d run j = word := by
  rw [Enters] at h
  rw [sampled]
  cases hkind : d.kind with
  | bit =>
    rw [hkind] at h
    exact h.symm
  | bus =>
    rw [hkind] at h
    obtain ⟨i, hij, hi, hquiet, rfl⟩ := h
    refine chainFirst_last hij ?_ fun k hk hkj => ?_
    · rw [clockRises, hsrc hkind, hi]; rfl
    · rw [clockRises, hquiet k hk hkj, Bool.and_false]

theorem source_constant {run : CrossingRun d.width} (hclocked : SourceClocked domains d run)
    (hsrc : (domainOf domains d.srcClk).isSome = false) : ∀ n, run.words n = run.words 0
  | 0 => rfl
  | n + 1 => by
      rw [← source_constant hclocked hsrc n]
      by_contra hne
      exact absurd ((hclocked n hne).2.symm.trans hsrc) Bool.noConfusion

theorem TwoStagesFit.delays (h : TwoStagesFit domains d) : DelaysBy d.nStages domains d := by
  obtain ⟨hdest, hfit⟩ := h
  intro run hclocked j e hj he hcount word henters
  have hedge : (fun k => clockRises domains d.destClk (run.rises k)) =
      fun k => run.rises k d.destClk := funext fun k => by
    rw [clockRises, hdest, Bool.true_and]
  rw [aliasAt_eq, hedge]
  have hchain := chain_syncChain (0 : BitVec d.width) (fun k => run.rises k d.destClk)
    (sampled domains d run)
  cases hsrc : (domainOf domains d.srcClk).isSome with
  | true =>
    rw [hsrc, if_pos rfl] at hfit
    rw [hfit] at hcount
    rw [hchain.delays hj he hcount, sampled_enters (fun _ => hsrc) henters]
  | false =>
    -- the source register never changes
    rw [hsrc, if_neg Bool.false_ne_true] at hfit
    obtain ⟨hkind, hstages⟩ := hfit
    have hword : word = run.words j := by
      rw [Enters, hkind] at henters
      exact henters
    have hsampled : ∀ n, sampled domains d run n = run.words 0 := fun n => by
      rw [sampled, hkind]
      exact source_constant hclocked hsrc n
    rw [(hchain.settles hsampled (e + 1)).2 (by omega), hword, source_constant hclocked hsrc j]

/-! ## Necessary -/

/-- All clocks rise at every event. -/
def everyEdge {w : ℕ} (words : ℕ → BitVec w) : CrossingRun w := ⟨words, fun _ _ => true⟩

/-- What a crossing must show in a run in which all clocks rise at every event. -/
theorem DelaysBy.at_every {n : ℕ} (h : DelaysBy n domains d) (hn : 0 < n)
    {words : ℕ → BitVec d.width} (hclocked : SourceClocked domains d (everyEdge words)) {j : ℕ}
    {word : BitVec d.width} (henters : Enters d (everyEdge words) j word) :
    chainSecond 0 (fun _ => (domainOf domains d.destClk).isSome)
      (sampled domains d (everyEdge words)) (j + n) = word := by
  have hcount : ∀ k, Nat.count (fun i => (everyEdge words).rises i d.destClk = true) k = k :=
    fun k => by simp [everyEdge]
  have hdelay := h (everyEdge words) hclocked j (j + n - 1) rfl rfl
    (by rw [hcount, hcount]; omega) word henters
  rw [show j + n - 1 + 1 = j + n by omega, aliasAt_eq] at hdelay
  have hedge : (fun k => clockRises domains d.destClk ((everyEdge words).rises k)) =
      fun _ => (domainOf domains d.destClk).isSome := funext fun k => by
    rw [clockRises]
    exact Bool.and_true _
  rw [hedge] at hdelay
  exact wordVal_inj d.width_le hdelay

theorem enters_bit (hkind : d.kind = .bit) (words : ℕ → BitVec d.width) (j : ℕ) :
    Enters d (everyEdge words) j (words j) := by
  rw [Enters, hkind]
  rfl

theorem enters_bus (hkind : d.kind = .bus) (words : ℕ → BitVec d.width) (j : ℕ) :
    Enters d (everyEdge words) (j + 1) (words j) := by
  rw [Enters, hkind]
  exact ⟨j, Nat.lt_succ_self j, rfl, fun k hk hkj => by omega, rfl⟩

/-- A constant word enters at the second edge of either crossing. -/
theorem enters_one :
    Enters d (everyEdge fun _ => (1 : BitVec d.width)) 1 1 := by
  cases hkind : d.kind with
  | bit => exact enters_bit hkind _ 1
  | bus => exact enters_bus hkind _ 0

theorem word_one_ne_zero {w : ℕ} (hpos : 0 < w) : (1 : BitVec w) ≠ 0 := fun h => by
  have hbit := congrArg (fun b => b.getLsbD 0) h
  simp [hpos] at hbit

theorem constant_clocked (c : BitVec d.width) : SourceClocked domains d (everyEdge fun _ => c) :=
  fun _ hne => absurd rfl hne

theorem DelaysBy.dest_clocked {n : ℕ} (h : DelaysBy n domains d) (hn : 0 < n) :
    (domainOf domains d.destClk).isSome = true := by
  by_contra hnone
  have hzero := h.at_every hn (constant_clocked 1) enters_one
  rw [Bool.not_eq_true] at hnone
  rw [hnone, (chain_zero (fun _ hedge => absurd hedge Bool.false_ne_true) _).2] at hzero
  exact word_one_ne_zero d.width_pos hzero.symm

/-- Without a clock at the source, only a constant bit can come through. -/
theorem DelaysBy.src_missing {n : ℕ} (h : DelaysBy n domains d) (hn : 0 < n)
    (hsrc : (domainOf domains d.srcClk).isSome = false) : d.kind = .bit ∧ 2 ≤ n := by
  cases hkind : d.kind with
  | bus =>
    have hzero := h.at_every hn (constant_clocked 1) enters_one
    have hsampled : ∀ k, sampled domains d (everyEdge fun _ => (1 : BitVec d.width)) k = 0 :=
      fun k => by
        rw [sampled, hkind]
        refine (chain_zero (fun k hedge => ?_) k).1
        rw [clockRises, hsrc] at hedge
        cases hedge
    rw [(chain_zero (fun k _ => hsampled k) _).2] at hzero
    exact absurd hzero.symm (word_one_ne_zero d.width_pos)
  | bit =>
    refine ⟨rfl, ?_⟩
    by_contra hlt
    have hone : n = 1 := by omega
    subst hone
    have hzero := h.at_every hn (constant_clocked 1) (enters_bit hkind _ 0)
    rw [chainSecond, chainFirst, chainSecond, ite_self] at hzero
    exact word_one_ne_zero d.width_pos hzero.symm

/-- A register that takes the value 1 at the first edge. -/
def firstEdge (w n : ℕ) : BitVec w := if n = 0 then 0 else 1

theorem DelaysBy.two_stages {n : ℕ} (h : DelaysBy n domains d) (hn : 0 < n)
    (hsrc : (domainOf domains d.srcClk).isSome = true) : n = 2 := by
  have hne := @word_one_ne_zero d.width d.width_pos
  have hclocked : SourceClocked domains d (everyEdge (firstEdge d.width)) := fun _ _ => ⟨rfl, hsrc⟩
  have hdest := h.dest_clocked hn
  have hlate : ∀ m, chainSecond 0 (fun _ => (domainOf domains d.destClk).isSome)
      (sampled domains d (everyEdge (firstEdge d.width))) (m + 2) =
        sampled domains d (everyEdge (firstEdge d.width)) m := chainSecond_every fun _ => hdest
  cases hkind : d.kind with
  | bit =>
    have hsampled : sampled domains d (everyEdge (firstEdge d.width)) = firstEdge d.width := by
      rw [sampled, hkind]; rfl
    have hshow := fun j => h.at_every hn hclocked (enters_bit hkind (firstEdge d.width) j)
    rcases n with _ | _ | _ | n
    · omega
    · have hone := hshow 1
      rw [hlate 0, hsampled] at hone
      exact absurd hone.symm hne
    · rfl
    · have hzero := hshow 0
      rw [Nat.zero_add, hlate (n + 1), hsampled] at hzero
      exact absurd hzero hne
  | bus =>
    have hsampled : ∀ m, sampled domains d (everyEdge (firstEdge d.width)) (m + 1) =
        firstEdge d.width m := fun m => by
      rw [sampled, hkind]
      exact chainFirst_last (Nat.lt_succ_self m) (by rw [clockRises, hsrc]; rfl)
        fun k hk hkm => by omega
    have hshow := fun j => h.at_every hn hclocked (enters_bus hkind (firstEdge d.width) j)
    rcases n with _ | _ | _ | n
    · omega
    · have hone := hshow 1
      rw [hlate 1, hsampled 0] at hone
      exact absurd hone.symm hne
    · rfl
    · have hzero := hshow 0
      rw [show 0 + 1 + (n + 1 + 1 + 1) = n + 2 + 2 by omega, hlate (n + 2), hsampled (n + 1)]
        at hzero
      exact absurd hzero hne

theorem CdcDecl.nStages_pos (d : CdcDecl) : 0 < d.nStages := by
  rw [CdcDecl.nStages]
  cases hstages : d.stages with
  | none => decide
  | some n => exact d.stages_pos n hstages

/-- A bit of clock 0 that is declared to cross to clock 1 through three stages. -/
def threeStages : CdcDecl where
  kind := .bit
  stages := some 3
  sourceReg := 2
  srcClk := 0
  destAlias := 3
  destClk := 1
  width := 1
  stages_pos := by simp
  width_pos := by decide
  width_le := by decide
  bit_width := fun _ => rfl

end JzHdl

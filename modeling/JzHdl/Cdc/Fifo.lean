import Mathlib.Data.List.Basic
import Mathlib.Order.Basic
import Mathlib.Tactic.Common

/-! # Asynchronous FIFO

Both domains count in binary and show their pointers to each other in Gray code
through two registers. A late pointer only makes the FIFO look fuller to the
writer and emptier to the reader than it is.
-/

namespace JzHdl

variable {α : Type*}

/-- The edges of an event, and the inputs. The resets stay inactive. -/
structure FifoEvent (α : Type*) where

  clkWr : Bool

  clkRd : Bool

  dataIn : α

  writeEn : Bool

  readEn : Bool

def toGray (bin : BitVec 5) : BitVec 5 := (bin >>> 1) ^^^ bin

structure FifoRegs (α : Type*) where

  wrPtrBin : BitVec 5

  wrPtrGray : BitVec 5

  rdPtrBin : BitVec 5

  rdPtrGray : BitVec 5

  wrPtrGraySync1 : BitVec 5

  wrPtrGraySync2 : BitVec 5

  rdPtrGraySync1 : BitVec 5

  rdPtrGraySync2 : BitVec 5

  mem : BitVec 4 → α

/-- The pointer that a full FIFO shows for the other one: the upper two bits are inverted. -/
def fullPattern (gray : BitVec 5) : BitVec 5 := ~~~ (gray.extractLsb 4 3) ++ gray.extractLsb 2 0

namespace FifoRegs

/-- Pointers and synchronisers are 0, and the memory is arbitrary. -/
def start (mem : BitVec 4 → α) : FifoRegs α := ⟨0, 0, 0, 0, 0, 0, 0, 0, mem⟩

variable (r : FifoRegs α)

def full : Bool := r.wrPtrGray == fullPattern r.rdPtrGraySync2

def empty : Bool := r.rdPtrGray == r.wrPtrGraySync2

def dataOut : α := r.mem (r.rdPtrBin.extractLsb 3 0)

def writes (e : FifoEvent α) : Bool := e.clkWr && (e.writeEn && !r.full)

def reads (e : FifoEvent α) : Bool := e.clkRd && (e.readEn && !r.empty)

/-- All registers are clocked from the state before the event. -/
def step (e : FifoEvent α) : FifoRegs α :=
  { wrPtrBin := if r.writes e then r.wrPtrBin + 1 else r.wrPtrBin
    wrPtrGray := if r.writes e then toGray (r.wrPtrBin + 1) else r.wrPtrGray
    rdPtrBin := if r.reads e then r.rdPtrBin + 1 else r.rdPtrBin
    rdPtrGray := if r.reads e then toGray (r.rdPtrBin + 1) else r.rdPtrGray
    wrPtrGraySync1 := if e.clkRd then r.wrPtrGray else r.wrPtrGraySync1
    wrPtrGraySync2 := if e.clkRd then r.wrPtrGraySync1 else r.wrPtrGraySync2
    rdPtrGraySync1 := if e.clkWr then r.rdPtrGray else r.rdPtrGraySync1
    rdPtrGraySync2 := if e.clkWr then r.rdPtrGraySync1 else r.rdPtrGraySync2
    mem := if r.writes e then fun a => if a = r.wrPtrBin.extractLsb 3 0 then e.dataIn else r.mem a
      else r.mem }

theorem step_wrPtrGray (e : FifoEvent α) : (r.step e).wrPtrGray =
    if r.writes e then toGray (r.wrPtrBin + 1) else r.wrPtrGray := rfl

theorem step_rdPtrGray (e : FifoEvent α) : (r.step e).rdPtrGray =
    if r.reads e then toGray (r.rdPtrBin + 1) else r.rdPtrGray := rfl

structure IsRun (mem : BitVec 4 → α) (es : ℕ → FifoEvent α) (regs : ℕ → FifoRegs α) : Prop where

  start : regs 0 = FifoRegs.start mem

  next : ∀ n, regs (n + 1) = (regs n).step (es n)

end FifoRegs

section

variable (es : ℕ → FifoEvent α) (regs : ℕ → FifoRegs α)

/-- The words of the accepted writes before an event. -/
def wordsIn : ℕ → List α
  | 0 => []
  | n + 1 => wordsIn n ++ if (regs n).writes (es n) then [(es n).dataIn] else []

/-- The words at the output at the accepted reads before an event. -/
def wordsOut : ℕ → List α
  | 0 => []
  | n + 1 => wordsOut n ++ if (regs n).reads (es n) then [(regs n).dataOut] else []

def changedBits (x y : BitVec 5) : ℕ :=
  ((List.range 5).filter fun i => x.getLsbD i != y.getLsbD i).length

/-- Every accepted word comes out once and in order. -/
structure DeliversInOrder : Prop where

  inOrder : ∀ n, wordsOut es regs n <+: wordsIn es regs n

  capacity : ∀ n, (wordsOut es regs n).length ≤ (wordsIn es regs n).length ∧
    (wordsIn es regs n).length ≤ (wordsOut es regs n).length + 16

  full : ∀ n, (wordsIn es regs n).length = (wordsOut es regs n).length + 16 →
    (regs n).full = true

  empty : ∀ n, (wordsIn es regs n).length = (wordsOut es regs n).length → (regs n).empty = true

  wrGray : ∀ n, changedBits (regs n).wrPtrGray (regs (n + 1)).wrPtrGray ≤
    if (es n).clkWr then 1 else 0

  rdGray : ∀ n, changedBits (regs n).rdPtrGray (regs (n + 1)).rdPtrGray ≤
    if (es n).clkRd then 1 else 0

end

/-! ## Pointers -/

theorem toGray_inj : ∀ {a b : BitVec 5}, toGray a = toGray b ↔ a = b := by
  decide +kernel

theorem fullPattern_toGray : ∀ a : BitVec 5, fullPattern (toGray a) = toGray (a + 16) := by
  decide +kernel

theorem changedBits_succ : ∀ a : BitVec 5, changedBits (toGray a) (toGray (a + 1)) ≤ 1 := by
  decide +kernel

theorem changedBits_self (a : BitVec 5) : changedBits a a = 0 := by
  simp [changedBits]

/-- The pointer after `n` steps. -/
def pointer (n : ℕ) : BitVec 5 := BitVec.ofNat 5 n

theorem pointer_succ (n : ℕ) : pointer n + 1 = pointer (n + 1) := (BitVec.ofNat_add n 1).symm

theorem pointer_eq_iff {a b : ℕ} (hab : a ≤ b) (hb : b < a + 32) :
    pointer a = pointer b ↔ a = b := by
  rw [pointer, pointer, ← BitVec.toNat_inj, BitVec.toNat_ofNat, BitVec.toNat_ofNat]
  omega

theorem pointer_low (n : ℕ) : (pointer n).extractLsb 3 0 = BitVec.ofNat 4 n := by
  apply BitVec.eq_of_toNat_eq
  rw [pointer, BitVec.extractLsb_toNat, BitVec.toNat_ofNat, BitVec.toNat_ofNat]
  simp only [Nat.shiftRight_zero]
  omega

theorem low_eq_iff {a b : ℕ} (hab : a ≤ b) (hb : b < a + 16) :
    BitVec.ofNat 4 a = BitVec.ofNat 4 b ↔ a = b := by
  rw [← BitVec.toNat_inj, BitVec.toNat_ofNat, BitVec.toNat_ofNat]
  omega

/-! ## Invariant -/

/-- How many words went in and out, now and as the synchronisers show it. -/
structure FifoCounts where

  wr : ℕ

  wrSync1 : ℕ

  wrSync2 : ℕ

  rd : ℕ

  rdSync1 : ℕ

  rdSync2 : ℕ

structure FifoRegs.Inv (r : FifoRegs α) (c : FifoCounts) (ins outs : List α) : Prop where

  wrPtrBin : r.wrPtrBin = pointer c.wr

  wrPtrGray : r.wrPtrGray = toGray (pointer c.wr)

  rdPtrBin : r.rdPtrBin = pointer c.rd

  rdPtrGray : r.rdPtrGray = toGray (pointer c.rd)

  wrPtrGraySync1 : r.wrPtrGraySync1 = toGray (pointer c.wrSync1)

  wrPtrGraySync2 : r.wrPtrGraySync2 = toGray (pointer c.wrSync2)

  rdPtrGraySync1 : r.rdPtrGraySync1 = toGray (pointer c.rdSync1)

  rdPtrGraySync2 : r.rdPtrGraySync2 = toGray (pointer c.rdSync2)

  order : c.rdSync2 ≤ c.rdSync1 ∧ c.rdSync1 ≤ c.rd ∧ c.rd ≤ c.wrSync2 ∧ c.wrSync2 ≤ c.wrSync1 ∧
    c.wrSync1 ≤ c.wr ∧ c.wr ≤ c.rdSync2 + 16

  written : ins.length = c.wr

  /-- The memory holds the words that have not been read. -/
  stored : ∀ q, c.rd ≤ q → q < c.wr → ins[q]? = some (r.mem (BitVec.ofNat 4 q))

  read : outs = ins.take c.rd

section

variable {r : FifoRegs α} {c : FifoCounts} {ins outs : List α}

theorem FifoRegs.Inv.full_iff (h : r.Inv c ins outs) :
    r.full = true ↔ c.wr = c.rdSync2 + 16 := by
  have horder := h.order
  rw [FifoRegs.full, beq_iff_eq, h.wrPtrGray, h.rdPtrGraySync2, fullPattern_toGray, toGray_inj,
    show pointer c.rdSync2 + 16 = pointer (c.rdSync2 + 16) from (BitVec.ofNat_add _ 16).symm,
    pointer_eq_iff (by omega) (by omega)]

theorem FifoRegs.Inv.empty_iff (h : r.Inv c ins outs) :
    r.empty = true ↔ c.rd = c.wrSync2 := by
  have horder := h.order
  rw [FifoRegs.empty, beq_iff_eq, h.rdPtrGray, h.wrPtrGraySync2, toGray_inj,
    pointer_eq_iff (by omega) (by omega)]

theorem FifoRegs.Inv.not_full (h : r.Inv c ins outs) {e : FifoEvent α}
    (hw : r.writes e = true) : c.wr < c.rdSync2 + 16 := by
  have horder := h.order
  have hne : c.wr ≠ c.rdSync2 + 16 := fun heq => by
    rw [FifoRegs.writes, h.full_iff.mpr heq] at hw
    simp at hw
  omega

theorem FifoRegs.Inv.not_empty (h : r.Inv c ins outs) {e : FifoEvent α}
    (hr : r.reads e = true) : c.rd < c.wrSync2 := by
  have horder := h.order
  have hne : c.rd ≠ c.wrSync2 := fun heq => by
    rw [FifoRegs.reads, h.empty_iff.mpr heq] at hr
    simp at hr
  omega

/-- A read gives the oldest word that is stored. -/
theorem FifoRegs.Inv.dataOut (h : r.Inv c ins outs) (hlt : c.rd < c.wr) :
    ins[c.rd]? = some r.dataOut := by
  rw [FifoRegs.dataOut, h.rdPtrBin, pointer_low]
  exact h.stored c.rd (Nat.le_refl _) hlt

/-- The counts after an event. -/
def FifoCounts.step (c : FifoCounts) (r : FifoRegs α) (e : FifoEvent α) : FifoCounts :=
  { wr := if r.writes e then c.wr + 1 else c.wr
    wrSync1 := if e.clkRd then c.wr else c.wrSync1
    wrSync2 := if e.clkRd then c.wrSync1 else c.wrSync2
    rd := if r.reads e then c.rd + 1 else c.rd
    rdSync1 := if e.clkWr then c.rd else c.rdSync1
    rdSync2 := if e.clkWr then c.rdSync1 else c.rdSync2 }

theorem FifoRegs.Inv.order_step (h : r.Inv c ins outs) (e : FifoEvent α) :
    let c' := c.step r e
    c'.rdSync2 ≤ c'.rdSync1 ∧ c'.rdSync1 ≤ c'.rd ∧ c'.rd ≤ c'.wrSync2 ∧
      c'.wrSync2 ≤ c'.wrSync1 ∧ c'.wrSync1 ≤ c'.wr ∧ c'.wr ≤ c'.rdSync2 + 16 := by
  have horder := h.order
  have hfull : r.writes e = true → c.wr < c.rdSync2 + 16 := h.not_full
  have hempty : r.reads e = true → c.rd < c.wrSync2 := h.not_empty
  simp only [FifoCounts.step]
  cases hw : r.writes e <;> cases hr : r.reads e <;> cases hcw : e.clkWr <;>
    cases hcr : e.clkRd <;> simp only [hw, hr, forall_const, Bool.false_eq_true, if_true, if_false,
      false_implies] at hfull hempty ⊢ <;> omega

/-- A write goes to a word that has been read. -/
theorem FifoRegs.Inv.stored_step (h : r.Inv c ins outs) (e : FifoEvent α) :
    ∀ q, (c.step r e).rd ≤ q → q < (c.step r e).wr →
      (ins ++ if r.writes e then [e.dataIn] else [])[q]? =
        some ((r.step e).mem (BitVec.ofNat 4 q)) := by
  intro q hle hlt
  have horder := h.order
  have hrd : c.rd ≤ q := by
    rw [FifoCounts.step] at hle
    simp only at hle
    split at hle <;> omega
  rw [FifoCounts.step] at hlt
  rw [FifoRegs.step]
  by_cases hw : r.writes e = true
  · have hfull := h.not_full hw
    simp only [hw, if_true] at hlt ⊢
    rw [h.wrPtrBin, pointer_low]
    rcases Nat.lt_succ_iff_lt_or_eq.mp hlt with hold | rfl
    · rw [if_neg (mt (low_eq_iff (by omega) (by omega)).mp (by omega)),
        List.getElem?_append_left (by rw [h.written]; exact hold)]
      exact h.stored q hrd hold
    · rw [if_pos rfl, ← h.written, List.getElem?_concat_length]
  · simp only [hw, Bool.false_eq_true, if_false, List.append_nil] at hlt ⊢
    exact h.stored q hrd hlt

theorem FifoRegs.Inv.step (h : r.Inv c ins outs) (e : FifoEvent α) :
    (r.step e).Inv (c.step r e) (ins ++ if r.writes e then [e.dataIn] else [])
      (outs ++ if r.reads e then [r.dataOut] else []) := by
  have horder := h.order
  refine ⟨?_, ?_, ?_, ?_, ?_, ?_, ?_, ?_, h.order_step e, ?_, h.stored_step e, ?_⟩
  · simp only [FifoRegs.step, FifoCounts.step, h.wrPtrBin, pointer_succ]
    split <;> rfl
  · simp only [FifoRegs.step, FifoCounts.step, h.wrPtrBin, h.wrPtrGray, pointer_succ]
    split <;> rfl
  · simp only [FifoRegs.step, FifoCounts.step, h.rdPtrBin, pointer_succ]
    split <;> rfl
  · simp only [FifoRegs.step, FifoCounts.step, h.rdPtrBin, h.rdPtrGray, pointer_succ]
    split <;> rfl
  · simp only [FifoRegs.step, FifoCounts.step, h.wrPtrGray, h.wrPtrGraySync1]
    split <;> rfl
  · simp only [FifoRegs.step, FifoCounts.step, h.wrPtrGraySync1, h.wrPtrGraySync2]
    split <;> rfl
  · simp only [FifoRegs.step, FifoCounts.step, h.rdPtrGray, h.rdPtrGraySync1]
    split <;> rfl
  · simp only [FifoRegs.step, FifoCounts.step, h.rdPtrGraySync1, h.rdPtrGraySync2]
    split <;> rfl
  · rw [List.length_append, h.written, FifoCounts.step]
    cases r.writes e <;> rfl
  · -- what is read next was already written
    have hlen : c.rd ≤ ins.length := by rw [h.written]; omega
    rw [FifoCounts.step]
    by_cases hr : r.reads e = true
    · have hempty := h.not_empty hr
      simp only [hr, if_true]
      have hget := h.dataOut (by omega)
      rw [List.take_append_of_le_length (by rw [h.written]; omega), List.take_add_one, hget, h.read]
      rfl
    · simp only [hr, Bool.false_eq_true, if_false, List.append_nil]
      rw [List.take_append_of_le_length hlen, h.read]

end

/-! ## Runs -/

section

variable {mem : BitVec 4 → α} {es : ℕ → FifoEvent α} {regs : ℕ → FifoRegs α}

theorem FifoRegs.IsRun.inv (h : FifoRegs.IsRun mem es regs) :
    ∀ n, ∃ c, (regs n).Inv c (wordsIn es regs n) (wordsOut es regs n)
  | 0 => by
      refine ⟨⟨0, 0, 0, 0, 0, 0⟩, ?_⟩
      rw [h.start]
      exact ⟨rfl, rfl, rfl, rfl, rfl, rfl, rfl, rfl, by decide, rfl, fun q _ hq => absurd hq (by
        simp only; omega), rfl⟩
  | n + 1 => by
      obtain ⟨c, hc⟩ := h.inv n
      rw [h.next]
      exact ⟨_, hc.step (es n)⟩

theorem FifoRegs.IsRun.delivers (h : FifoRegs.IsRun mem es regs) : DeliversInOrder es regs := by
  have hlength : ∀ {n c}, (regs n).Inv c (wordsIn es regs n) (wordsOut es regs n) →
      (wordsIn es regs n).length = c.wr ∧ (wordsOut es regs n).length = c.rd := by
    intro n c hc
    have horder := hc.order
    refine ⟨hc.written, ?_⟩
    rw [hc.read, List.length_take, hc.written]
    omega
  refine ⟨fun n => ?_, fun n => ?_, fun n hn => ?_, fun n hn => ?_, fun n => ?_, fun n => ?_⟩
  · obtain ⟨c, hc⟩ := h.inv n
    rw [hc.read]
    exact List.take_prefix _ _
  · obtain ⟨c, hc⟩ := h.inv n
    have horder := hc.order
    rw [(hlength hc).1, (hlength hc).2]
    omega
  · obtain ⟨c, hc⟩ := h.inv n
    have horder := hc.order
    rw [(hlength hc).1, (hlength hc).2] at hn
    exact hc.full_iff.mpr (by omega)
  · obtain ⟨c, hc⟩ := h.inv n
    have horder := hc.order
    rw [(hlength hc).1, (hlength hc).2] at hn
    exact hc.empty_iff.mpr (by omega)
  · obtain ⟨c, hc⟩ := h.inv n
    rw [h.next, FifoRegs.step_wrPtrGray]
    by_cases hw : (regs n).writes (es n) = true
    · have hclk : (es n).clkWr = true := (Bool.and_eq_true_iff.mp hw).1
      rw [if_pos hw, if_pos hclk, hc.wrPtrGray, hc.wrPtrBin]
      exact changedBits_succ _
    · rw [if_neg hw, changedBits_self]
      exact Nat.zero_le _
  · obtain ⟨c, hc⟩ := h.inv n
    rw [h.next, FifoRegs.step_rdPtrGray]
    by_cases hr : (regs n).reads (es n) = true
    · have hclk : (es n).clkRd = true := (Bool.and_eq_true_iff.mp hr).1
      rw [if_pos hr, if_pos hclk, hc.rdPtrGray, hc.rdPtrBin]
      exact changedBits_succ _
    · rw [if_neg hr, changedBits_self]
      exact Nat.zero_le _

end

end JzHdl

import Mathlib.Data.Fintype.Pi
import Mathlib.Tactic.DeriveFintype

/-! # Multi-word bit vectors

A vector of 64-bit words, least significant word first. Words are read by a
total index and compared bit by bit.
-/

namespace BitWords

abbrev Word := BitVec 64

/-- A vector of `n` words of 64 bits each. -/
abbrev Words (n : ℕ) := Fin n → Word

namespace Words

variable {n : ℕ}

/-- The word at an index, zero beyond the end. -/
def get (ws : Words n) (i : ℕ) : Word := if h : i < n then ws ⟨i, h⟩ else 0

def ofFn (f : ℕ → Word) : Words n := fun i => f i

def zero : Words n := fun _ => 0

/-- The bit at a position counted from the least significant bit of word 0. -/
def bit (ws : Words n) (k : ℕ) : Bool := (ws.get (k / 64)).getLsbD (k % 64)

/-- Replace one word. An index beyond the end changes nothing. -/
def set (ws : Words n) (i : ℕ) (w : Word) : Words n := fun j => if j.val = i then w else ws j

/-- Replace one bit inside its word by masking and or-ing. -/
def setBit (ws : Words n) (k : ℕ) (b : Bool) : Words n :=
  ws.set (k / 64)
    ((ws.get (k / 64) &&& ~~~ ((1 : Word) <<< (k % 64))) |||
      ((if b then 1 else 0 : Word) <<< (k % 64)))

theorem get_of_lt (ws : Words n) {i : ℕ} (h : i < n) : ws.get i = ws ⟨i, h⟩ := dif_pos h

theorem get_of_le (ws : Words n) {i : ℕ} (h : n ≤ i) : ws.get i = 0 := dif_neg (by omega)

theorem get_ofFn (f : ℕ → Word) (i : ℕ) :
    (ofFn f : Words n).get i = if i < n then f i else 0 := by
  by_cases h : i < n
  · rw [get_of_lt _ h, if_pos h]; rfl
  · rw [get_of_le _ (by omega), if_neg h]

@[simp] theorem get_zero (i : ℕ) : (zero : Words n).get i = 0 := by
  by_cases h : i < n
  · rw [get_of_lt _ h]; rfl
  · rw [get_of_le _ (by omega)]

@[simp] theorem bit_zero (k : ℕ) : (zero : Words n).bit k = false := by simp [bit]

theorem get_set (ws : Words n) (i j : ℕ) (w : Word) :
    (ws.set i w).get j = if j = i ∧ j < n then w else ws.get j := by
  by_cases h : j < n
  · rw [get_of_lt _ h, get_of_lt _ h]
    simp [set, h]
  · rw [get_of_le _ (by omega), get_of_le _ (by omega), if_neg (by omega)]

theorem ext_get {a b : Words n} (h : ∀ i < n, a.get i = b.get i) : a = b := by
  funext i
  have := h i i.isLt
  rwa [get_of_lt _ i.isLt, get_of_lt _ i.isLt] at this

theorem bit_of_le (ws : Words n) {k : ℕ} (h : 64 * n ≤ k) : ws.bit k = false := by
  rw [bit, get_of_le _ (by omega)]; simp

theorem bit_ofFn (f : ℕ → Word) (k : ℕ) :
    (ofFn f : Words n).bit k = (decide (k / 64 < n) && (f (k / 64)).getLsbD (k % 64)) := by
  rw [bit, get_ofFn]
  by_cases h : k / 64 < n <;> simp [h]

theorem getLsbD_get (ws : Words n) (i : ℕ) {j : ℕ} (h : j < 64) :
    (ws.get i).getLsbD j = ws.bit (64 * i + j) := by
  rw [bit]
  congr 2 <;> omega

def sameB (a b : Words n) : Bool := (List.range n).all fun i => a.get i == b.get i

theorem sameB_iff {a b : Words n} : a.sameB b = true ↔ a = b := by
  simp only [sameB, List.all_eq_true, List.mem_range, beq_iff_eq]
  exact ⟨ext_get, fun h _ _ => by rw [h]⟩

theorem get_ext_bit {a b : Words n} {i : ℕ} (h : ∀ j < 64, a.bit (64 * i + j) = b.bit (64 * i + j)) :
    a.get i = b.get i := by
  apply BitVec.eq_of_getLsbD_eq
  intro j hj
  rw [getLsbD_get _ _ hj, getLsbD_get _ _ hj, h j hj]

theorem ext_bit {a b : Words n} (h : ∀ k, a.bit k = b.bit k) : a = b :=
  ext_get fun _ _ => get_ext_bit fun _ _ => h _

theorem getLsbD_one_shiftLeft (j i : ℕ) (hi : i < 64) :
    ((1 : Word) <<< i).getLsbD j = decide (j = i) := by
  rw [BitVec.getLsbD_shiftLeft]
  by_cases h : j = i
  · subst h; simp [hi]
  · by_cases hj : j < i
    · simp [hj, h]
    · have : j - i ≠ 0 := by omega
      simp [h, BitVec.getLsbD_one, this]

theorem getLsbD_bool_shiftLeft (b : Bool) (j i : ℕ) (hi : i < 64) :
    ((if b then 1 else 0 : Word) <<< i).getLsbD j = (b && decide (j = i)) := by
  cases b
  · simp
  · rw [if_pos rfl, getLsbD_one_shiftLeft j i hi, Bool.true_and]

theorem bit_setBit (ws : Words n) (k j : ℕ) (b : Bool) :
    (ws.setBit k b).bit j = if j = k ∧ j < 64 * n then b else ws.bit j := by
  have hk : k % 64 < 64 := Nat.mod_lt _ (by decide)
  have hj : j % 64 < 64 := Nat.mod_lt _ (by decide)
  rw [bit, setBit, get_set]
  by_cases hw : j / 64 = k / 64 ∧ j / 64 < n
  · rw [if_pos hw, BitVec.getLsbD_or, BitVec.getLsbD_and, BitVec.getLsbD_not,
      getLsbD_one_shiftLeft _ _ hk, getLsbD_bool_shiftLeft _ _ _ hk]
    by_cases hjk : j = k
    · have hlt : k < 64 * n := by omega
      subst hjk
      simp [hlt, hj]
    · have hne : j % 64 ≠ k % 64 := by omega
      simp [hj, hne, hjk, bit, hw.1]
  · have : ¬ (j = k ∧ j < 64 * n) := by omega
    rw [if_neg hw, if_neg this, bit]

/-- Two adjacent words joined at a shift amount read as one shifted word. -/
theorem getLsbD_funnel (lo hi : Word) {s j : ℕ} (hs : s < 64) (hj : j < 64) :
    ((lo >>> s) ||| (hi <<< (64 - s))).getLsbD j =
      if s + j < 64 then lo.getLsbD (s + j) else hi.getLsbD (s + j - 64) := by
  rw [BitVec.getLsbD_or, BitVec.getLsbD_ushiftRight, BitVec.getLsbD_shiftLeft]
  by_cases h : s + j < 64
  · have : j < 64 - s := by omega
    simp [h, this]
  · have hlo : lo.getLsbD (s + j) = false := BitVec.getLsbD_of_ge _ _ (by omega)
    have hsub : j - (64 - s) = s + j - 64 := by omega
    simp [h, hlo, hj, hsub]
    omega

end Words

end BitWords

import Mathlib.Data.List.Basic

/-! # Nets with several drivers

The drivers of a net are joined one after another. An idle driver yields to any
other, equal drivers agree, and drivers that differ clash.
-/

namespace NetDrivers

section

variable {α : Type*} [DecidableEq α] (idle clash : α)

def join (a b : α) : α :=
  if a = idle then b else if b = idle then a else if a = b then a else clash

/-- The value of a net; without drivers it is idle. -/
def resolve : List α → α
  | [] => idle
  | a :: rest => join idle clash a (resolve rest)

end

section

variable {α : Type*} (idle clash : α)

/-- All drivers that are not idle have the value `v`. -/
def Agree (v : α) (drivers : List α) : Prop :=
  (v = idle ∨ v ∈ drivers) ∧ ∀ a ∈ drivers, a = idle ∨ a = v

/-- Some driver clashes on its own, or two of them differ. -/
def Clash (drivers : List α) : Prop :=
  clash ∈ drivers ∨ ∃ a ∈ drivers, ∃ b ∈ drivers, a ≠ idle ∧ b ≠ idle ∧ a ≠ b

end

variable {α : Type*} {idle clash v : α} {drivers : List α}

theorem agree_idle_iff : Agree idle idle drivers ↔ ∀ a ∈ drivers, a = idle := by
  simp [Agree]

theorem agree_cons_idle : Agree idle v (idle :: drivers) ↔ Agree idle v drivers := by
  simp [Agree]

theorem agree_cons_iff {a : α} (ha : a ≠ idle) :
    Agree idle v (a :: drivers) ↔ a = v ∧ ∀ b ∈ drivers, b = idle ∨ b = v := by
  constructor
  · rintro ⟨-, hall⟩
    exact ⟨(hall a List.mem_cons_self).resolve_left ha,
      fun b hb => hall b (List.mem_cons_of_mem _ hb)⟩
  · rintro ⟨rfl, hall⟩
    refine ⟨.inr List.mem_cons_self, fun b hb => ?_⟩
    rcases List.mem_cons.mp hb with rfl | hb
    · exact .inr rfl
    · exact hall b hb

theorem clash_of_not_agree (h : ∀ v, v ≠ clash → ¬ Agree idle v drivers) (hne : idle ≠ clash) :
    Clash idle clash drivers := by
  by_contra hno
  rw [Clash, not_or] at hno
  obtain ⟨hclash, hsame⟩ := hno
  apply h idle hne
  rw [agree_idle_iff]
  intro a ha
  by_contra hidle
  refine h a (fun h' => hclash (h' ▸ ha)) ⟨.inr ha, fun b hb => ?_⟩
  by_contra hb'
  rw [not_or] at hb'
  exact hsame ⟨a, ha, b, hb, hidle, hb'.1, fun h' => hb'.2 h'.symm⟩

theorem Clash.not_agree (h : Clash idle clash drivers) (hne : idle ≠ clash) (hv : v ≠ clash) :
    ¬ Agree idle v drivers := by
  rintro ⟨-, hall⟩
  rcases h with hclash | ⟨a, ha, b, hb, hai, hbi, hab⟩
  · exact (hall clash hclash).elim (fun h => hne h.symm) fun h => hv h.symm
  · exact hab (((hall a ha).resolve_left hai).trans ((hall b hb).resolve_left hbi).symm)

variable [DecidableEq α]

/-- A net has a value of its own when its drivers agree on it. -/
theorem resolve_eq_iff_agree (hne : idle ≠ clash) : ∀ {drivers : List α} {v : α}, v ≠ clash →
    (resolve idle clash drivers = v ↔ Agree idle v drivers)
  | [], v, _ => by simp [resolve, Agree, eq_comm]
  | a :: rest, v, hv => by
      rw [resolve, join]
      by_cases ha : a = idle
      · rw [if_pos ha, ha, agree_cons_idle]
        exact resolve_eq_iff_agree hne hv
      rw [if_neg ha, agree_cons_iff ha]
      by_cases hidle : resolve idle clash rest = idle
      · rw [if_pos hidle]
        have hrest := agree_idle_iff.mp ((resolve_eq_iff_agree hne hne).mp hidle)
        exact ⟨fun h => ⟨h, fun b hb => .inl (hrest b hb)⟩, fun h => h.1⟩
      rw [if_neg hidle]
      constructor
      · intro h
        by_cases heq : a = resolve idle clash rest
        · rw [if_pos heq] at h
          exact ⟨h, ((resolve_eq_iff_agree hne hv).mp (heq ▸ h)).2⟩
        · rw [if_neg heq] at h
          exact absurd h.symm hv
      · rintro ⟨rfl, hall⟩
        have hmem : a ∈ rest := by
          by_contra hnot
          refine hidle ((resolve_eq_iff_agree hne hne).mpr (agree_idle_iff.mpr fun b hb => ?_))
          exact (hall b hb).resolve_right fun h => hnot (h ▸ hb)
        rw [if_pos ((resolve_eq_iff_agree hne hv).mpr ⟨.inr hmem, hall⟩).symm]

theorem resolve_eq_clash_iff (hne : idle ≠ clash) :
    resolve idle clash drivers = clash ↔ Clash idle clash drivers := by
  constructor
  · intro h
    refine clash_of_not_agree (fun v hv hagree => hv ?_) hne
    rw [← (resolve_eq_iff_agree hne hv).mpr hagree, h]
  · intro h
    by_contra hv
    exact h.not_agree hne hv ((resolve_eq_iff_agree hne hv).mp rfl)

end NetDrivers

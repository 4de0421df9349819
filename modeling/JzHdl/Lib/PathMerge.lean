import Mathlib.Data.List.Basic
import Mathlib.Tactic.Common

/-! # Merged paths

A scan walks a program once and keeps one set of records for all its paths: the
bodies of a branching start from the same records, and what they add is joined
behind it. The scan reports exactly when two steps of one path clash.
-/

namespace PathMerge

/-- A step of a path makes its records together, and a path is a list of steps. -/
abbrev Path (τ : Type*) := List (List τ)

structure Scan (τ : Type*) where

  records : List τ

  reported : Bool

variable {τ : Type*} (clashes : τ → τ → Bool)

/-- Compare a record with all the earlier ones and keep it. -/
def recordOne (st : Scan τ) (t : τ) : Scan τ :=
  { records := st.records ++ [t]
    reported := st.reported || st.records.any fun r => clashes r t }

def record (ts : List τ) (st : Scan τ) : Scan τ := ts.foldl (recordOne clashes) st

/-- What a body adds to the records. -/
def added (body : Scan τ → Scan τ) (st : Scan τ) : List τ :=
  (body st).records.drop st.records.length

/-- Every body starts from the same records, and what the bodies add is joined. -/
def merge (bodies : List (Scan τ → Scan τ)) (st : Scan τ) : Scan τ :=
  { records := st.records ++ bodies.flatMap fun body => added body st
    reported := st.reported || bodies.any fun body => (body st).reported }

/-- One after the other. -/
def seqPaths (P Q : List (Path τ)) : List (Path τ) := P.flatMap fun p => Q.map fun q => p ++ q

/-! ## Clashes -/

/-- A record of the first list clashes with a record of the path. -/
def Meets (rs : List τ) (p : Path τ) : Prop := ∃ r ∈ rs, ∃ a ∈ p, ∃ t ∈ a, clashes r t = true

/-- Two steps of the path clash. -/
def SelfClash (p : Path τ) : Prop :=
  ∃ p₁ a p₂, p = p₁ ++ a :: p₂ ∧ Meets clashes a p₂

def PathClash (rs : List τ) (p : Path τ) : Prop := Meets clashes rs p ∨ SelfClash clashes p

variable {clashes}

theorem meets_append {rs : List τ} {p q : Path τ} :
    Meets clashes rs (p ++ q) ↔ Meets clashes rs p ∨ Meets clashes rs q := by
  simp only [Meets, List.mem_append]
  constructor
  · rintro ⟨r, hr, a, ha | ha, h⟩
    · exact .inl ⟨r, hr, a, ha, h⟩
    · exact .inr ⟨r, hr, a, ha, h⟩
  · rintro (⟨r, hr, a, ha, h⟩ | ⟨r, hr, a, ha, h⟩)
    · exact ⟨r, hr, a, .inl ha, h⟩
    · exact ⟨r, hr, a, .inr ha, h⟩

theorem meets_records {rs rs' : List τ} {p : Path τ} :
    Meets clashes (rs ++ rs') p ↔ Meets clashes rs p ∨ Meets clashes rs' p := by
  simp only [Meets, List.mem_append]
  constructor
  · rintro ⟨r, hr | hr, h⟩
    · exact .inl ⟨r, hr, h⟩
    · exact .inr ⟨r, hr, h⟩
  · rintro (⟨r, hr, h⟩ | ⟨r, hr, h⟩)
    · exact ⟨r, .inl hr, h⟩
    · exact ⟨r, .inr hr, h⟩

theorem not_meets_nil (rs : List τ) : ¬ Meets clashes rs [] := by
  rintro ⟨-, -, a, ha, -⟩
  simp at ha

theorem selfClash_cons {a : List τ} {p : Path τ} :
    SelfClash clashes (a :: p) ↔ Meets clashes a p ∨ SelfClash clashes p := by
  constructor
  · rintro ⟨p₁, b, p₂, heq, h⟩
    cases p₁ with
    | nil =>
      obtain ⟨rfl, rfl⟩ := List.cons.inj heq
      exact .inl h
    | cons c p₁ =>
      obtain ⟨rfl, rfl⟩ := List.cons.inj heq
      exact .inr ⟨p₁, b, p₂, rfl, h⟩
  · rintro (h | ⟨p₁, b, p₂, rfl, h⟩)
    · exact ⟨[], a, p, rfl, h⟩
    · exact ⟨a :: p₁, b, p₂, rfl, h⟩

theorem not_selfClash_nil : ¬ SelfClash clashes ([] : Path τ) := by
  rintro ⟨p₁, a, p₂, heq, -⟩
  simp at heq

theorem selfClash_append {p q : Path τ} : SelfClash clashes (p ++ q) ↔
    SelfClash clashes p ∨ SelfClash clashes q ∨ Meets clashes p.flatten q := by
  induction p with
  | nil =>
    simp only [List.nil_append, List.flatten_nil, not_selfClash_nil, false_or]
    exact ⟨.inl, fun h => h.resolve_right fun ⟨r, hr, _⟩ => by simp at hr⟩
  | cons a p ih =>
    rw [List.cons_append, selfClash_cons, selfClash_cons, ih, meets_append, List.flatten_cons,
      meets_records]
    tauto

/-- The scan of a piece of a program is exact for its paths. -/
structure Exact (clashes : τ → τ → Bool) (P : List (Path τ)) (f : Scan τ → Scan τ) : Prop where

  nonempty : P ≠ []

  records : ∀ st, ∃ new, (f st).records = st.records ++ new ∧
    ∀ t, t ∈ new ↔ ∃ p ∈ P, t ∈ p.flatten

  reported : ∀ st, (f st).reported = true ↔
    st.reported = true ∨ ∃ p ∈ P, PathClash clashes st.records p

theorem Exact.id : Exact clashes [[]] (fun st => st) where
  nonempty := by simp
  records st := ⟨[], by simp, by simp⟩
  reported st := by simp [PathClash, not_meets_nil, not_selfClash_nil]

/-- A step whose own records do not clash with each other. -/
theorem Exact.record : ∀ {ts : List τ}, ts.Pairwise (fun a b => clashes a b = false) →
    Exact clashes [[ts]] (record clashes ts) := by
  intro ts hts
  have hrecords : ∀ st : Scan τ, (PathMerge.record clashes ts st).records = st.records ++ ts := by
    clear hts
    induction ts with
    | nil => exact fun st => (List.append_nil _).symm
    | cons t ts ih =>
      intro st
      rw [PathMerge.record, List.foldl_cons, ← PathMerge.record, ih, recordOne, List.append_assoc,
        List.singleton_append]
  have hreported : ∀ st : Scan τ, (PathMerge.record clashes ts st).reported = true ↔
      st.reported = true ∨ ∃ r ∈ st.records, ∃ t ∈ ts, clashes r t = true := by
    clear hrecords
    induction ts with
    | nil => simp [PathMerge.record]
    | cons t ts ih =>
      intro st
      obtain ⟨ht, hts⟩ := List.pairwise_cons.mp hts
      rw [PathMerge.record, List.foldl_cons, ← PathMerge.record, ih hts]
      simp only [recordOne, Bool.or_eq_true, List.any_eq_true, List.mem_append,
        List.mem_cons, List.not_mem_nil, or_false]
      constructor
      · rintro ((h | ⟨r, hr, h⟩) | ⟨r, hr, u, hu, h⟩)
        · exact .inl h
        · exact .inr ⟨r, hr, t, .inl rfl, h⟩
        · rcases hr with hr | hr
          · exact .inr ⟨r, hr, u, .inr hu, h⟩
          · rw [hr, ht u hu] at h
            cases h
      · rintro (h | ⟨r, hr, u, rfl | hu, h⟩)
        · exact .inl (.inl h)
        · exact .inl (.inr ⟨r, hr, h⟩)
        · exact .inr ⟨r, .inl hr, u, hu, h⟩
  exact
    { nonempty := by simp
      records := fun st => ⟨ts, hrecords st, by simp⟩
      reported := fun st => by
        rw [hreported]
        simp [PathClash, Meets, selfClash_cons, not_selfClash_nil] }

variable {P Q : List (Path τ)} {f g : Scan τ → Scan τ}

theorem mem_seqPaths {r : Path τ} : r ∈ seqPaths P Q ↔ ∃ p ∈ P, ∃ q ∈ Q, p ++ q = r := by
  simp only [seqPaths, List.mem_flatMap, List.mem_map]

theorem Exact.seq (hf : Exact clashes P f) (hg : Exact clashes Q g) :
    Exact clashes (seqPaths P Q) (fun st => g (f st)) := by
  obtain ⟨p₀, hp₀⟩ := List.exists_mem_of_ne_nil P hf.nonempty
  obtain ⟨q₀, hq₀⟩ := List.exists_mem_of_ne_nil Q hg.nonempty
  refine
    { nonempty := List.ne_nil_of_mem (mem_seqPaths.mpr ⟨p₀, hp₀, q₀, hq₀, rfl⟩)
      records := fun st => ?_
      reported := fun st => ?_ }
  · obtain ⟨new, hnew, hmem⟩ := hf.records st
    obtain ⟨new', hnew', hmem'⟩ := hg.records (f st)
    refine ⟨new ++ new', by rw [hnew', hnew, List.append_assoc], fun t => ?_⟩
    rw [List.mem_append, hmem, hmem']
    constructor
    · rintro (⟨p, hp, ht⟩ | ⟨q, hq, ht⟩)
      · exact ⟨_, mem_seqPaths.mpr ⟨p, hp, q₀, hq₀, rfl⟩, by
          rw [List.flatten_append]; exact List.mem_append_left _ ht⟩
      · exact ⟨_, mem_seqPaths.mpr ⟨p₀, hp₀, q, hq, rfl⟩, by
          rw [List.flatten_append]; exact List.mem_append_right _ ht⟩
    · rintro ⟨r, hr, ht⟩
      obtain ⟨p, hp, q, hq, rfl⟩ := mem_seqPaths.mp hr
      rw [List.flatten_append, List.mem_append] at ht
      exact ht.imp (fun h => ⟨p, hp, h⟩) fun h => ⟨q, hq, h⟩
  · obtain ⟨new, hnew, hmem⟩ := hf.records st
    rw [hg.reported, hf.reported, hnew, or_assoc]
    refine or_congr_right ?_
    constructor
    · rintro (⟨p, hp, h⟩ | ⟨q, hq, h⟩)
      · refine ⟨_, mem_seqPaths.mpr ⟨p, hp, q₀, hq₀, rfl⟩, ?_⟩
        exact h.imp (fun h => meets_append.mpr (.inl h)) fun h => selfClash_append.mpr (.inl h)
      · rcases h with h | h
        · rcases meets_records.mp h with h | ⟨r, hr, h⟩
          · exact ⟨_, mem_seqPaths.mpr ⟨p₀, hp₀, q, hq, rfl⟩, .inl (meets_append.mpr (.inr h))⟩
          · -- The record comes from the first piece, on one of its paths.
            obtain ⟨p, hp, hrp⟩ := (hmem r).mp hr
            exact ⟨_, mem_seqPaths.mpr ⟨p, hp, q, hq, rfl⟩,
              .inr (selfClash_append.mpr (.inr (.inr ⟨r, hrp, h⟩)))⟩
        · exact ⟨_, mem_seqPaths.mpr ⟨p₀, hp₀, q, hq, rfl⟩,
            .inr (selfClash_append.mpr (.inr (.inl h)))⟩
    · rintro ⟨r, hr, h⟩
      obtain ⟨p, hp, q, hq, rfl⟩ := mem_seqPaths.mp hr
      rcases h with h | h
      · rcases meets_append.mp h with h | h
        · exact .inl ⟨p, hp, .inl h⟩
        · exact .inr ⟨q, hq, .inl (meets_records.mpr (.inl h))⟩
      · rcases selfClash_append.mp h with h | h | ⟨t, ht, h⟩
        · exact .inl ⟨p, hp, .inr h⟩
        · exact .inr ⟨q, hq, .inr h⟩
        · exact .inr ⟨q, hq, .inl (meets_records.mpr (.inr ⟨t, (hmem t).mpr ⟨p, hp, ht⟩, h⟩))⟩

theorem mem_added {Ps : List (List (Path τ))} {fs : List (Scan τ → Scan τ)}
    (h : List.Forall₂ (Exact clashes) Ps fs) (st : Scan τ) (t : τ) :
    (t ∈ fs.flatMap fun body => added body st) ↔ ∃ p ∈ Ps.flatten, t ∈ p.flatten := by
  induction h with
  | nil => simp
  | cons hP _ ih =>
    obtain ⟨new, heq, hmem⟩ := hP.records st
    rw [List.flatMap_cons, List.mem_append, added, heq, List.drop_left, hmem, ih]
    simp only [List.flatten_cons, List.mem_append]
    constructor
    · rintro (⟨p, hp, ht⟩ | ⟨p, hp, ht⟩)
      · exact ⟨p, .inl hp, ht⟩
      · exact ⟨p, .inr hp, ht⟩
    · rintro ⟨p, hp | hp, ht⟩
      · exact .inl ⟨p, hp, ht⟩
      · exact .inr ⟨p, hp, ht⟩

theorem any_reported {Ps : List (List (Path τ))} {fs : List (Scan τ → Scan τ)}
    (h : List.Forall₂ (Exact clashes) Ps fs) (st : Scan τ) :
    (st.reported || fs.any fun body => (body st).reported) = true ↔
      st.reported = true ∨ ∃ p ∈ Ps.flatten, PathClash clashes st.records p := by
  induction h with
  | nil => simp
  | cons hP _ ih =>
    simp only [Bool.or_eq_true] at ih
    simp only [List.any_cons, Bool.or_eq_true, hP.reported st, List.flatten_cons, List.mem_append]
    constructor
    · rintro (h | (h | ⟨p, hp, h⟩) | h)
      · exact .inl h
      · exact .inl h
      · exact .inr ⟨p, .inl hp, h⟩
      · rcases ih.mp (.inr h) with h | ⟨p, hp, h⟩
        · exact .inl h
        · exact .inr ⟨p, .inr hp, h⟩
    · rintro (h | ⟨p, hp | hp, h⟩)
      · exact .inl h
      · exact .inr (.inl (.inr ⟨p, hp, h⟩))
      · rcases ih.mpr (.inr ⟨p, hp, h⟩) with h | h
        · exact .inl h
        · exact .inr (.inr h)

/-- The bodies of a branching with the paths of each, and the empty path if it may be skipped. -/
theorem Exact.merge {Ps : List (List (Path τ))} {fs : List (Scan τ → Scan τ)} {complete : Bool}
    (h : List.Forall₂ (Exact clashes) Ps fs) (hne : complete = true → Ps ≠ []) :
    Exact clashes (Ps.flatten ++ if complete then [] else [[]]) (merge fs) := by
  have hskip : ∀ p ∈ (if complete then [] else [[]] : List (Path τ)), p = [] := by
    cases complete <;> simp
  refine
    { nonempty := ?_
      records := fun st => ⟨_, rfl, fun t => ?_⟩
      reported := fun st => ?_ }
  · cases complete with
    | false => simp
    | true =>
      cases h with
      | nil => exact absurd rfl (hne rfl)
      | cons hP _ =>
        obtain ⟨p, hp⟩ := List.exists_mem_of_ne_nil _ hP.nonempty
        refine List.ne_nil_of_mem (a := p) (List.mem_append_left _ ?_)
        rw [List.flatten_cons]
        exact List.mem_append_left _ hp
  · rw [mem_added h st t]
    constructor
    · rintro ⟨p, hp, ht⟩
      exact ⟨p, List.mem_append_left _ hp, ht⟩
    · rintro ⟨p, hp, ht⟩
      rcases List.mem_append.mp hp with hp | hp
      · exact ⟨p, hp, ht⟩
      · rw [hskip p hp] at ht
        simp at ht
  · rw [PathMerge.merge, any_reported h st]
    refine or_congr_right ⟨fun ⟨p, hp, hc⟩ => ⟨p, List.mem_append_left _ hp, hc⟩, ?_⟩
    rintro ⟨p, hp, hc⟩
    rcases List.mem_append.mp hp with hp | hp
    · exact ⟨p, hp, hc⟩
    · rw [hskip p hp] at hc
      exact absurd hc (not_or.mpr ⟨not_meets_nil _, not_selfClash_nil⟩)

end PathMerge

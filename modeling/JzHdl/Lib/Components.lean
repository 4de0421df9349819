import Mathlib.Data.List.Infix

/-! # Texts split at a separator

The nonempty pieces between separators, the text that names a list of pieces
from the root, and prefixes of texts against prefixes of piece lists.
-/

namespace Components

variable {α : Type*} [DecidableEq α]

/-- The nonempty pieces of a text between separators. -/
def components (sep : α) (t : List α) : List (List α) := (t.splitOn sep).filter fun c => !c.isEmpty

/-- The text of a list of pieces below the root: every piece after a separator. -/
def render (sep : α) (cs : List (List α)) : List α :=
  if cs = [] then [sep] else cs.flatMap (sep :: ·)

/-- A piece that a split can return. -/
def IsPiece (sep : α) (c : List α) : Prop := c ≠ [] ∧ sep ∉ c

variable {sep : α}

@[simp] theorem components_nil : components sep [] = [] := by simp [components]

theorem components_append_sep (a b : List α) :
    components sep (a ++ sep :: b) = components sep a ++ components sep b := by
  rw [components, List.splitOn_append_cons_self, List.filter_append, components, components]

theorem components_cons_sep (b : List α) : components sep (sep :: b) = components sep b := by
  have h := @components_append_sep _ _ sep [] b
  rwa [List.nil_append, components_nil, List.nil_append] at h

theorem components_append_singleton (a : List α) :
    components sep (a ++ [sep]) = components sep a := by
  rw [components_append_sep, components_nil, List.append_nil]

theorem components_piece {c : List α} (h : IsPiece sep c) : components sep c = [c] := by
  rw [components, List.splitOn_eq_singleton h.2]
  simp [h.1]

theorem not_mem_of_mem_splitOn {t c : List α} (h : c ∈ t.splitOn sep) : sep ∉ c := by
  induction t generalizing c with
  | nil => simp_all
  | cons x rest ih =>
    rw [List.splitOn_cons_eq_if_modifyHead] at h
    split at h
    · rcases List.mem_cons.mp h with rfl | h
      · simp
      · exact ih h
    · rename_i hx
      cases hs : rest.splitOn sep with
      | nil => simp [hs] at h
      | cons d ds =>
        rw [hs, List.modifyHead_cons] at h
        rcases List.mem_cons.mp h with rfl | h
        · have hd := ih (c := d) (by simp [hs])
          simp only [beq_iff_eq] at hx
          simp [hd, Ne.symm hx]
        · exact ih (by simp [hs, h])

theorem isPiece_of_mem_components {t c : List α} (h : c ∈ components sep t) : IsPiece sep c := by
  simp only [components, List.mem_filter, Bool.not_eq_true', List.isEmpty_eq_false_iff] at h
  exact ⟨h.2, not_mem_of_mem_splitOn h.1⟩

theorem components_flatMap {cs : List (List α)} (h : ∀ c ∈ cs, IsPiece sep c) :
    components sep (cs.flatMap (sep :: ·)) = cs := by
  induction cs with
  | nil => simp
  | cons c rest ih =>
    have hrest := ih fun d hd => h d (List.mem_cons_of_mem _ hd)
    have hc := components_piece (h c List.mem_cons_self)
    rw [List.flatMap_cons, List.cons_append, components_cons_sep]
    cases rest with
    | nil => simpa using hc
    | cons d rest =>
      rw [List.flatMap_cons, List.cons_append, components_cons_sep] at hrest
      rw [List.flatMap_cons, List.cons_append, components_append_sep, hc, hrest]
      rfl

theorem components_render {cs : List (List α)} (h : ∀ c ∈ cs, IsPiece sep c) :
    components sep (render sep cs) = cs := by
  rw [render]
  split
  · rename_i hnil
    rw [hnil, components_cons_sep, components_nil]
  · exact components_flatMap h

/-! ## Prefixes -/

/-- A text that ends or goes on with a separator. -/
def AtBoundary (sep : α) (rest : List α) : Prop := rest = [] ∨ ∃ t, rest = sep :: t

theorem components_prefix {a rest : List α} (h : AtBoundary sep rest) :
    components sep a <+: components sep (a ++ rest) := by
  rcases h with rfl | ⟨t, rfl⟩
  · rw [List.append_nil]
  · rw [components_append_sep]
    exact List.prefix_append _ _

omit [DecidableEq α] in
theorem flatMap_atBoundary (ts : List (List α)) : AtBoundary sep (ts.flatMap (sep :: ·)) := by
  cases ts with
  | nil => exact Or.inl rfl
  | cons c rest => exact Or.inr ⟨c ++ rest.flatMap (sep :: ·), rfl⟩

omit [DecidableEq α] in
/-- The text of a list of pieces goes on at a boundary after the text of a nonempty prefix. -/
theorem render_append {rs : List (List α)} (hrs : rs ≠ []) (ts : List (List α)) :
    ∃ rest, render sep (rs ++ ts) = render sep rs ++ rest ∧ AtBoundary sep rest := by
  refine ⟨ts.flatMap (sep :: ·), ?_, flatMap_atBoundary ts⟩
  rw [render, render, if_neg hrs, if_neg (by simp [hrs]), List.flatMap_append]

omit [DecidableEq α] in
theorem getLast?_render {rs : List (List α)} (hrs : rs ≠ []) (h : ∀ c ∈ rs, IsPiece sep c) :
    (render sep rs).getLast? ≠ some sep := by
  obtain ⟨init, c, rfl⟩ := List.eq_nil_or_concat rs |>.resolve_left hrs
  have hc := h c (by simp)
  rw [render, if_neg hrs, List.concat_eq_append, List.flatMap_append]
  simp only [List.flatMap_cons, List.flatMap_nil, List.append_nil]
  rw [List.getLast?_append_of_ne_nil _ (by simp), List.getLast?_cons_of_ne_nil hc.1]
  intro hlast
  exact hc.2 (List.mem_of_getLast? hlast)

omit [DecidableEq α] in
/-- The pieces joined by separators, with one separator in front, are the rendered text. -/
theorem cons_intercalate {cs : List (List α)} (hcs : cs ≠ []) :
    sep :: [sep].intercalate cs = render sep cs := by
  rw [render, if_neg hcs]
  induction cs with
  | nil => exact absurd rfl hcs
  | cons c rest ih =>
    cases rest with
    | nil => simp
    | cons d rest =>
      rw [List.intercalate_cons_cons, List.flatMap_cons, ← ih (by simp)]
      simp

end Components

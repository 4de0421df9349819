import JzHdl.Path.Containment

/-! # Lexical resolution

The location that the components of a path denote, without a bound on their
number, and when the normaliser with its array of components finds it.
-/

namespace JzHdl

open Components

/-! ## Resolution without a stack -/

/-- The names that stay, and how many `..` in front of them are left over. -/
def scanComponents : List PathText → ℕ × List PathText
  | [] => (0, [])
  | c :: rest =>
    let (ups, names) := scanComponents rest
    if c = dotText then (ups, names)
    else if c = dotDotText then (ups + 1, names)
    else if ups = 0 then (0, c :: names)
    else (ups - 1, names)

/-- The components after lexical resolution; the parent of the root is the root. -/
def lexicalResolution (absolute : Bool) (cs : List PathText) : List PathText :=
  (if absolute then [] else List.replicate (scanComponents cs).1 dotDotText) ++
    (scanComponents cs).2

/-- The text of a list of components: single separators, and `.` for an empty relative path. -/
def pathText (absolute : Bool) (cs : List PathText) : PathText :=
  let text := (if absolute then ['/'] else []) ++ ['/'].intercalate cs
  if text = [] then dotText else text

/-! ## The loop without a bound -/

/-- One component of the loop when the array never fills up. -/
def pushUnbounded (absolute : Bool) (kept : List PathText) (c : PathText) : List PathText :=
  if c = dotText then kept
  else if c = dotDotText then
    if kept ≠ [] ∧ kept.head? ≠ some dotDotText then kept.tail
    else if !absolute then c :: kept
    else kept
  else c :: kept

/-- The stack that the loop leaves, last component first. -/
def unboundedStack (absolute : Bool) (cs : List PathText) : List PathText :=
  cs.foldl (pushUnbounded absolute) []

def boundedStack (absolute : Bool) (cs : List PathText) : List PathText :=
  cs.foldl (pushComponent absolute) []

theorem unboundedStack_concat (absolute : Bool) (cs : List PathText) (c : PathText) :
    unboundedStack absolute (cs ++ [c]) = pushUnbounded absolute (unboundedStack absolute cs) c := by
  rw [unboundedStack, List.foldl_append, List.foldl_cons, List.foldl_nil, unboundedStack]

theorem boundedStack_concat (absolute : Bool) (cs : List PathText) (c : PathText) :
    boundedStack absolute (cs ++ [c]) = pushComponent absolute (boundedStack absolute cs) c := by
  rw [boundedStack, List.foldl_append, List.foldl_cons, List.foldl_nil, boundedStack]

/-- A number of `..` on a stack. -/
def popUnbounded (absolute : Bool) : ℕ → List PathText → List PathText
  | 0, kept => kept
  | n + 1, kept => popUnbounded absolute n (pushUnbounded absolute kept dotDotText)

theorem popUnbounded_nil (absolute : Bool) : ∀ n, popUnbounded absolute n [] =
    if absolute then [] else List.replicate n dotDotText := by
  have hrep : ∀ n k, popUnbounded false n (List.replicate k dotDotText) =
      List.replicate (n + k) dotDotText := by
    intro n
    induction n with
    | zero => intro k; rw [popUnbounded, Nat.zero_add]
    | succ n ih =>
      intro k
      have hpush : pushUnbounded false (List.replicate k dotDotText) dotDotText =
          List.replicate (k + 1) dotDotText := by
        cases k <;> simp [pushUnbounded, List.replicate_succ] <;> decide
      rw [popUnbounded, hpush, ih, Nat.add_right_comm, Nat.add_assoc]
  intro n
  cases absolute with
  | false =>
    have h := hrep n 0
    rwa [List.replicate_zero, Nat.add_zero] at h
  | true =>
    induction n with
    | zero => rfl
    | succ n ih =>
      have hpush : pushUnbounded true [] dotDotText = [] := by decide
      rw [popUnbounded, hpush, ih]
      rfl

/-- The loop keeps the names of the scan, behind what its `..` leave of the stack. -/
theorem foldl_pushUnbounded (absolute : Bool) : ∀ (cs kept : List PathText),
    cs.foldl (pushUnbounded absolute) kept =
      (scanComponents cs).2.reverse ++ popUnbounded absolute (scanComponents cs).1 kept
  | [], kept => rfl
  | c :: rest, kept => by
      rw [List.foldl_cons, foldl_pushUnbounded absolute rest, scanComponents]
      by_cases hdot : c = dotText
      · simp only [if_pos hdot]
        rw [pushUnbounded, if_pos hdot]
      · simp only [if_neg hdot]
        by_cases hup : c = dotDotText
        · simp only [if_pos hup]
          rw [hup]
          rfl
        · simp only [if_neg hup]
          have hpush : pushUnbounded absolute kept c = c :: kept := by
            rw [pushUnbounded, if_neg hdot, if_neg hup]
          rw [hpush]
          cases hups : (scanComponents rest).1 with
          | zero => simp [popUnbounded]
          | succ n =>
            have hpop : pushUnbounded absolute (c :: kept) dotDotText = kept := by
              rw [pushUnbounded, if_neg (by decide), if_pos rfl, if_pos ⟨by simp, by simpa using hup⟩,
                List.tail_cons]
            rw [popUnbounded, hpop, if_neg (Nat.succ_ne_zero n), Nat.add_sub_cancel]

/-- The unbounded loop computes the lexical resolution. -/
theorem unboundedStack_eq (absolute : Bool) (cs : List PathText) :
    unboundedStack absolute cs = (lexicalResolution absolute cs).reverse := by
  rw [unboundedStack, foldl_pushUnbounded, popUnbounded_nil, lexicalResolution, List.reverse_append]
  cases absolute with
  | true => simp
  | false => simp [List.reverse_replicate]

/-! ## Steps of the two loops -/

section

variable {absolute : Bool} {S : List PathText} {c : PathText}

theorem push_dot : pushComponent absolute S dotText = S ∧ pushUnbounded absolute S dotText = S :=
  ⟨if_pos rfl, if_pos rfl⟩

theorem push_name (hdot : c ≠ dotText) (hup : c ≠ dotDotText) :
    pushComponent absolute S c = (if S.length < maxComponents then c :: S else S) ∧
      pushUnbounded absolute S c = c :: S := by
  constructor
  · rw [pushComponent, if_neg hdot, if_neg hup]
  · rw [pushUnbounded, if_neg hdot, if_neg hup]

theorem push_up (hc : c ≠ dotDotText) :
    pushComponent absolute (c :: S) dotDotText = S ∧
      pushUnbounded absolute (c :: S) dotDotText = S := by
  have htop : (c :: S) ≠ [] ∧ (c :: S).head? ≠ some dotDotText := ⟨by simp, by simpa using hc⟩
  constructor
  · rw [pushComponent, if_neg (by decide), if_pos rfl, if_pos htop, List.tail_cons]
  · rw [pushUnbounded, if_neg (by decide), if_pos rfl, if_pos htop, List.tail_cons]

theorem push_up_root : pushComponent true [] dotDotText = [] ∧
    pushUnbounded true [] dotDotText = [] := by decide

theorem push_up_dots (u : ℕ) :
    pushComponent false (List.replicate u dotDotText) dotDotText =
        List.replicate (if u < maxComponents then u + 1 else u) dotDotText ∧
      pushUnbounded false (List.replicate u dotDotText) dotDotText =
        List.replicate (u + 1) dotDotText := by
  have htop : ¬ (List.replicate u dotDotText ≠ [] ∧
      (List.replicate u dotDotText).head? ≠ some dotDotText) := by
    cases u <;> simp [List.replicate_succ]
  constructor
  · rw [pushComponent, if_neg (by decide), if_pos rfl, if_neg htop, List.length_replicate]
    simp only [Bool.not_false, true_and]
    split
    · rfl
    · rfl
  · rw [pushUnbounded, if_neg (by decide), if_pos rfl, if_neg htop]
    rfl

end

/-! ## Absolute paths -/

/-- Every prefix deeper than the array is followed by one that is back at the root. -/
def ReturnsToRoot (cs : List PathText) : Prop :=
  ∀ xs, xs <+: cs → maxComponents < (lexicalResolution true xs).length →
    ∃ zs, xs <+: zs ∧ zs <+: cs ∧ lexicalResolution true zs = []

theorem length_lexicalResolution (absolute : Bool) (cs : List PathText) :
    (lexicalResolution absolute cs).length = (unboundedStack absolute cs).length := by
  rw [unboundedStack_eq, List.length_reverse]

theorem lexicalResolution_eq_nil {absolute : Bool} {cs : List PathText} :
    lexicalResolution absolute cs = [] ↔ unboundedStack absolute cs = [] := by
  rw [unboundedStack_eq, List.reverse_eq_nil_iff]

theorem returnsToRoot_concat (cs : List PathText) (c : PathText) : ReturnsToRoot (cs ++ [c]) ↔
    unboundedStack true (cs ++ [c]) = [] ∨
      (ReturnsToRoot cs ∧ (unboundedStack true (cs ++ [c])).length ≤ maxComponents) := by
  constructor
  · intro h
    refine or_iff_not_imp_left.mpr fun hne => ⟨fun xs hxs hdeep => ?_, ?_⟩
    · obtain ⟨zs, h1, h2, h3⟩ := h xs (hxs.trans (List.prefix_append _ _)) hdeep
      rcases List.prefix_concat_iff.mp h2 with rfl | h2
      · exact absurd (lexicalResolution_eq_nil.mp h3) hne
      · exact ⟨zs, h1, h2, h3⟩
    · by_contra hdeep
      obtain ⟨zs, h1, h2, h3⟩ := h _ (List.prefix_refl _)
        (by rw [length_lexicalResolution]; omega)
      rw [h2.eq_of_length_le h1.length_le] at h3
      exact hne (lexicalResolution_eq_nil.mp h3)
  · rintro (hnil | ⟨h, hlen⟩) xs hxs hdeep
    · exact ⟨_, hxs, List.prefix_refl _, lexicalResolution_eq_nil.mpr hnil⟩
    · rcases List.prefix_concat_iff.mp hxs with rfl | hxs
      · rw [length_lexicalResolution] at hdeep
        omega
      · obtain ⟨zs, h1, h2, h3⟩ := h xs hxs hdeep
        exact ⟨zs, h1, h2.trans (List.prefix_append _ _), h3⟩

/-- One component under the root: equal stacks stay equal while there is room, and a shorter
stack stays shorter until both are back at the root. -/
theorem step_absolute {B U : List PathText} (hB : ∀ d ∈ B, d ≠ dotDotText)
    (hU : ∀ d ∈ U, d ≠ dotDotText) (hlen : B.length ≤ maxComponents) (c : PathText) :
    (∀ d ∈ pushComponent true B c, d ≠ dotDotText) ∧ (∀ d ∈ pushUnbounded true U c, d ≠ dotDotText) ∧
      (pushComponent true B c).length ≤ maxComponents ∧
      (B = U → (pushUnbounded true U c).length ≤ maxComponents →
        pushComponent true B c = pushUnbounded true U c) ∧
      (B = U → maxComponents < (pushUnbounded true U c).length →
        (pushComponent true B c).length < (pushUnbounded true U c).length) ∧
      (B.length < U.length → (pushUnbounded true U c = [] ∧ pushComponent true B c = []) ∨
        (pushComponent true B c).length < (pushUnbounded true U c).length) := by
  by_cases hdot : c = dotText
  · subst hdot
    rw [push_dot.1, push_dot.2]
    exact ⟨hB, hU, hlen, fun h _ => h, fun h hlt => by rw [← h] at hlt; omega, .inr⟩
  by_cases hup : c = dotDotText
  · subst hup
    cases B with
    | nil =>
      cases U with
      | nil =>
        rw [push_up_root.1, push_up_root.2]
        exact ⟨hB, hU, hlen, fun _ _ => rfl, fun _ hlt => by simp at hlt, fun hlt => by simp at hlt⟩
      | cons e U =>
        rw [push_up_root.1, (push_up (hU e (List.mem_cons_self ..))).2]
        refine ⟨hB, fun d hd => hU d (List.mem_cons_of_mem _ hd), hlen, fun h => (by cases h),
          fun h => (by cases h), fun _ => ?_⟩
        cases U with
        | nil => exact .inl ⟨rfl, rfl⟩
        | cons => exact .inr (by simp)
    | cons d B =>
      cases U with
      | nil =>
        rw [(push_up (hB d (List.mem_cons_self ..))).1, push_up_root.2]
        refine ⟨fun d hd => hB d (List.mem_cons_of_mem _ hd), hU, ?_, fun h => (by cases h),
          fun h => (by cases h), fun hlt => by simp at hlt⟩
        rw [List.length_cons] at hlen
        omega
      | cons e U =>
        rw [(push_up (hB d (List.mem_cons_self ..))).1, (push_up (hU e (List.mem_cons_self ..))).2]
        rw [List.length_cons] at hlen
        refine ⟨fun d hd => hB d (List.mem_cons_of_mem _ hd),
          fun d hd => hU d (List.mem_cons_of_mem _ hd), by omega,
          fun h _ => (List.cons.inj h).2, fun h hlt => ?_, fun hlt => .inr ?_⟩
        · rw [← (List.cons.inj h).2] at hlt
          omega
        · rw [List.length_cons, List.length_cons] at hlt
          omega
  · rw [(push_name hdot hup).1, (push_name hdot hup).2]
    have hcons : ∀ S : List PathText, (∀ d ∈ S, d ≠ dotDotText) → ∀ d ∈ c :: S, d ≠ dotDotText :=
      fun S hS => List.forall_mem_cons.mpr ⟨hup, hS⟩
    by_cases hroom : B.length < maxComponents
    · rw [if_pos hroom]
      refine ⟨hcons B hB, hcons U hU, by rw [List.length_cons]; omega, fun h _ => by rw [h],
        fun h hlt => ?_, fun hlt => .inr (by rw [List.length_cons, List.length_cons]; omega)⟩
      rw [← h, List.length_cons] at hlt
      omega
    · rw [if_neg hroom]
      refine ⟨hB, hcons U hU, hlen, fun h hle => ?_, fun h _ => by rw [h, List.length_cons]; omega,
        fun hlt => .inr (by rw [List.length_cons]; omega)⟩
      rw [← h, List.length_cons] at hle
      omega

theorem boundedStack_absolute (cs : List PathText) :
    (∀ d ∈ boundedStack true cs, d ≠ dotDotText) ∧ (∀ d ∈ unboundedStack true cs, d ≠ dotDotText) ∧
      (boundedStack true cs).length ≤ maxComponents ∧
      ((boundedStack true cs = unboundedStack true cs ∧ ReturnsToRoot cs) ∨
        ((boundedStack true cs).length < (unboundedStack true cs).length ∧ ¬ ReturnsToRoot cs)) := by
  induction cs using List.reverseRecOn with
  | nil =>
    refine ⟨fun d hd => (by cases hd), fun d hd => (by cases hd), Nat.zero_le _, .inl ⟨rfl, ?_⟩⟩
    intro xs hxs hdeep
    rw [List.prefix_nil.mp hxs] at hdeep
    exact absurd hdeep (by decide)
  | append_singleton cs c ih =>
    obtain ⟨hB, hU, hlen, hcase⟩ := ih
    obtain ⟨hB', hU', hlen', hsync, hlost, hkeep⟩ := step_absolute hB hU hlen c
    rw [boundedStack_concat, unboundedStack_concat, returnsToRoot_concat, unboundedStack_concat]
    refine ⟨hB', hU', hlen', ?_⟩
    rcases hcase with ⟨heq, hret⟩ | ⟨hlt, hret⟩
    · rcases Nat.lt_or_ge maxComponents (pushUnbounded true (unboundedStack true cs) c).length with
        hdeep | hroom
      · refine .inr ⟨hlost heq hdeep, ?_⟩
        rintro (hnil | ⟨-, hle⟩)
        · rw [hnil] at hdeep
          cases hdeep
        · omega
      · exact .inl ⟨hsync heq hroom, .inr ⟨hret, hroom⟩⟩
    · rcases hkeep hlt with ⟨h1, h2⟩ | h1
      · exact .inl ⟨h2.trans h1.symm, .inl h1⟩
      · refine .inr ⟨h1, ?_⟩
        rintro (hnil | ⟨hret', -⟩)
        · rw [hnil] at h1
          cases h1
        · exact hret hret'

/-! ## Relative paths -/

/-- No prefix is deeper than the array. -/
def NeverDeep (cs : List PathText) : Prop :=
  ∀ xs, xs <+: cs → (lexicalResolution false xs).length ≤ maxComponents

theorem neverDeep_concat (cs : List PathText) (c : PathText) : NeverDeep (cs ++ [c]) ↔
    NeverDeep cs ∧ (unboundedStack false (cs ++ [c])).length ≤ maxComponents := by
  constructor
  · intro h
    refine ⟨fun xs hxs => h xs (hxs.trans (List.prefix_append _ _)), ?_⟩
    rw [← length_lexicalResolution]
    exact h _ (List.prefix_refl _)
  · rintro ⟨h, hlen⟩ xs hxs
    rcases List.prefix_concat_iff.mp hxs with rfl | hxs
    · rwa [length_lexicalResolution]
    · exact h xs hxs

/-- A stack of names above a number of `..`. -/
def dotsStack (ups : ℕ) (names : List PathText) : List PathText :=
  names ++ List.replicate ups dotDotText

/-- What the two loops leave of a relative path: equal stacks, or after an overflow fewer names
in the array, or more `..`, which it has room for until it is full of them. -/
structure DepthsRelated (cs : List PathText) (ub : ℕ) (nb : List PathText) (uu : ℕ)
    (nu : List PathText) : Prop where

  bounded : boundedStack false cs = dotsStack ub nb

  unbounded : unboundedStack false cs = dotsStack uu nu

  namesBounded : ∀ d ∈ nb, d ≠ dotDotText

  namesUnbounded : ∀ d ∈ nu, d ≠ dotDotText

  room : nb.length + ub ≤ maxComponents

  related : (ub = uu ∧ nb = nu ∧ NeverDeep cs) ∨
    (¬ NeverDeep cs ∧ nb.length ≤ nu.length ∧
      (ub = maxComponents ∨ (ub < maxComponents ∧ uu ≤ ub ∧ (nb.length < nu.length ∨ uu < ub))))

theorem dotsStack_name (ups : ℕ) (names : List PathText) (c : PathText) :
    c :: dotsStack ups names = dotsStack ups (c :: names) := rfl

theorem length_dotsStack (ups : ℕ) (names : List PathText) :
    (dotsStack ups names).length = names.length + ups := by
  rw [dotsStack, List.length_append, List.length_replicate]

section

variable {cs : List PathText} {ub uu : ℕ} {nb nu : List PathText}

/-- The part of the relation that a step has to restore, once the new stacks are known. -/
theorem DepthsRelated.of_step (c : PathText) {ub' uu' : ℕ} {nb' nu' : List PathText}
    (h : DepthsRelated cs ub nb uu nu)
    (hb : pushComponent false (dotsStack ub nb) c = dotsStack ub' nb')
    (hu : pushUnbounded false (dotsStack uu nu) c = dotsStack uu' nu')
    (hnb : ∀ d ∈ nb', d ≠ dotDotText) (hnu : ∀ d ∈ nu', d ≠ dotDotText)
    (hroom : nb'.length + ub' ≤ maxComponents)
    (hrel : (ub' = uu' ∧ nb' = nu' ∧ NeverDeep cs ∧ nu'.length + uu' ≤ maxComponents) ∨
      ((¬ NeverDeep cs ∨ maxComponents < nu'.length + uu') ∧ nb'.length ≤ nu'.length ∧
        (ub' = maxComponents ∨
          (ub' < maxComponents ∧ uu' ≤ ub' ∧ (nb'.length < nu'.length ∨ uu' < ub'))))) :
    DepthsRelated (cs ++ [c]) ub' nb' uu' nu' := by
  have hdeep := neverDeep_concat cs c
  rw [unboundedStack_concat, h.unbounded, hu, length_dotsStack] at hdeep
  refine ⟨by rw [boundedStack_concat, h.bounded, hb], by rw [unboundedStack_concat, h.unbounded, hu],
    hnb, hnu, hroom, ?_⟩
  rw [hdeep]
  rcases hrel with ⟨h1, h2, h3, h4⟩ | ⟨h1, h2, h3⟩
  · exact .inl ⟨h1, h2, h3, h4⟩
  · refine .inr ⟨?_, h2, h3⟩
    rintro ⟨hn, hle⟩
    rcases h1 with h1 | h1
    · exact h1 hn
    · omega

theorem DepthsRelated.step_up (h : DepthsRelated cs ub nb uu nu) :
    ∃ ub' nb' uu' nu', DepthsRelated (cs ++ [dotDotText]) ub' nb' uu' nu' := by
  have hrel := h.related
  have hroom := h.room
  cases nb with
  | nil =>
    rw [List.length_nil, Nat.zero_add] at hroom
    have hb : pushComponent false (dotsStack ub []) dotDotText =
        dotsStack (if ub < maxComponents then ub + 1 else ub) [] := (push_up_dots ub).1
    cases nu with
    | nil =>
      have hu : pushUnbounded false (dotsStack uu []) dotDotText = dotsStack (uu + 1) [] :=
        (push_up_dots uu).2
      refine ⟨_, _, _, _, h.of_step _ hb hu h.namesBounded h.namesUnbounded ?_ ?_⟩
      · simp only [List.length_nil]
        split <;> omega
      · simp only [List.length_nil, lt_irrefl, false_or, le_refl, true_and, Nat.zero_add] at hrel ⊢
        by_cases hfull : ub < maxComponents
        · rw [if_pos hfull]
          rcases hrel with ⟨rfl, hn⟩ | ⟨hn, hor⟩
          · exact .inl ⟨rfl, hn, by omega⟩
          · refine .inr ⟨.inl hn, ?_⟩
            omega
        · rw [if_neg hfull]
          refine .inr ⟨?_, .inl (by omega)⟩
          rcases hrel with ⟨rfl, -⟩ | ⟨hn, -⟩
          · exact .inr (by omega)
          · exact .inl hn
    | cons e nu =>
      have hu : pushUnbounded false (dotsStack uu (e :: nu)) dotDotText = dotsStack uu nu :=
        (push_up (h.namesUnbounded e (List.mem_cons_self ..))).2
      refine ⟨_, _, _, _, h.of_step _ hb hu h.namesBounded
        (fun d hd => h.namesUnbounded d (List.mem_cons_of_mem _ hd)) ?_ ?_⟩
      · simp only [List.length_nil]
        split <;> omega
      · rcases hrel with ⟨-, hnil, -⟩ | ⟨hn, -, hor⟩
        · cases hnil
        · refine .inr ⟨.inl hn, Nat.zero_le _, ?_⟩
          split <;> omega
  | cons d nb =>
    have hb : pushComponent false (dotsStack ub (d :: nb)) dotDotText = dotsStack ub nb :=
      (push_up (h.namesBounded d (List.mem_cons_self ..))).1
    rw [List.length_cons] at hroom
    cases nu with
    | nil =>
      rcases hrel with ⟨-, hnil, -⟩ | ⟨-, hle, -⟩
      · cases hnil
      · cases hle
    | cons e nu =>
      have hu : pushUnbounded false (dotsStack uu (e :: nu)) dotDotText = dotsStack uu nu :=
        (push_up (h.namesUnbounded e (List.mem_cons_self ..))).2
      refine ⟨_, _, _, _, h.of_step _ hb hu
        (fun x hx => h.namesBounded x (List.mem_cons_of_mem _ hx))
        (fun x hx => h.namesUnbounded x (List.mem_cons_of_mem _ hx)) (by omega) ?_⟩
      simp only [List.length_cons] at hrel
      rcases hrel with ⟨rfl, hcons, hn⟩ | ⟨hn, hle, hor⟩
      · obtain ⟨-, rfl⟩ := List.cons.inj hcons
        exact .inl ⟨rfl, rfl, hn, by omega⟩
      · exact .inr ⟨.inl hn, by omega, by omega⟩

theorem DepthsRelated.step_name {c : PathText} (hdot : c ≠ dotText) (hup : c ≠ dotDotText)
    (h : DepthsRelated cs ub nb uu nu) :
    ∃ ub' nb' uu' nu', DepthsRelated (cs ++ [c]) ub' nb' uu' nu' := by
  have hrel := h.related
  have hroom := h.room
  have hb := (@push_name false (dotsStack ub nb) c hdot hup).1
  have hu := (@push_name false (dotsStack uu nu) c hdot hup).2
  rw [length_dotsStack, dotsStack_name] at hb
  rw [dotsStack_name] at hu
  have hnu : ∀ d ∈ c :: nu, d ≠ dotDotText := List.forall_mem_cons.mpr ⟨hup, h.namesUnbounded⟩
  by_cases hlt : nb.length + ub < maxComponents
  · rw [if_pos hlt] at hb
    refine ⟨_, _, _, _, h.of_step _ hb hu (List.forall_mem_cons.mpr ⟨hup, h.namesBounded⟩) hnu
      (by rw [List.length_cons]; omega) ?_⟩
    simp only [List.length_cons]
    rcases hrel with ⟨rfl, rfl, hn⟩ | ⟨hn, hle, hor⟩
    · exact .inl ⟨rfl, rfl, hn, by omega⟩
    · exact .inr ⟨.inl hn, by omega, by omega⟩
  · rw [if_neg hlt] at hb
    refine ⟨_, _, _, _, h.of_step _ hb hu h.namesBounded hnu hroom ?_⟩
    simp only [List.length_cons]
    rcases hrel with ⟨rfl, rfl, hn⟩ | ⟨hn, hle, hor⟩
    · exact .inr ⟨.inr (by omega), by omega, by omega⟩
    · exact .inr ⟨.inl hn, by omega, by omega⟩

end

theorem exists_depthsRelated (cs : List PathText) : ∃ ub nb uu nu, DepthsRelated cs ub nb uu nu := by
  induction cs using List.reverseRecOn with
  | nil =>
    refine ⟨0, [], 0, [], rfl, rfl, fun d hd => (by cases hd), fun d hd => (by cases hd),
      Nat.zero_le _, .inl ⟨rfl, rfl, fun xs hxs => ?_⟩⟩
    rw [List.prefix_nil.mp hxs]
    exact Nat.zero_le _
  | append_singleton cs c ih =>
    obtain ⟨ub, nb, uu, nu, h⟩ := ih
    by_cases hdot : c = dotText
    · subst hdot
      refine ⟨ub, nb, uu, nu, h.of_step _ push_dot.1 push_dot.2 h.namesBounded h.namesUnbounded
        h.room ?_⟩
      rcases h.related with ⟨rfl, rfl, hn⟩ | ⟨hn, hor⟩
      · exact .inl ⟨rfl, rfl, hn, h.room⟩
      · exact .inr ⟨.inl hn, hor⟩
    · by_cases hup : c = dotDotText
      · subst hup
        exact h.step_up
      · exact h.step_name hdot hup

theorem dotsStack_inj {ub uu : ℕ} {nb nu : List PathText} (hb : ∀ d ∈ nb, d ≠ dotDotText)
    (hu : ∀ d ∈ nu, d ≠ dotDotText) (h : dotsStack ub nb = dotsStack uu nu) : ub = uu ∧ nb = nu := by
  have hnames : ∀ (ups : ℕ) (names : List PathText), (∀ d ∈ names, d ≠ dotDotText) →
      (dotsStack ups names).filter (· ≠ dotDotText) = names := by
    intro ups names hn
    rw [dotsStack, List.filter_append, List.filter_eq_self.mpr (fun d hd => by simpa using hn d hd),
      List.filter_eq_nil_iff.mpr (fun d hd => by simp [List.eq_of_mem_replicate hd]),
      List.append_nil]
  have heq : nb = nu := by rw [← hnames ub nb hb, ← hnames uu nu hu, h]
  subst heq
  have hlen := congrArg List.length h
  rw [length_dotsStack, length_dotsStack] at hlen
  exact ⟨by omega, rfl⟩

/-- The array of components finds the resolution of a relative path just when it never overflows
or the resolution fills it with `..`. -/
theorem boundedStack_relative (cs : List PathText) :
    boundedStack false cs = unboundedStack false cs ↔
      NeverDeep cs ∨ lexicalResolution false cs = List.replicate maxComponents dotDotText := by
  obtain ⟨ub, nb, uu, nu, h⟩ := exists_depthsRelated cs
  have hdots : lexicalResolution false cs = List.replicate maxComponents dotDotText ↔
      uu = maxComponents ∧ nu = [] := by
    rw [← List.reverse_inj, ← unboundedStack_eq, h.unbounded, List.reverse_replicate]
    constructor
    · intro heq
      have hnil : ∀ d ∈ ([] : List PathText), d ≠ dotDotText := fun d hd => by cases hd
      exact dotsStack_inj h.namesUnbounded hnil heq
    · rintro ⟨rfl, rfl⟩
      rfl
  rw [hdots, h.bounded, h.unbounded]
  have hroom := h.room
  rcases h.related with ⟨rfl, rfl, hn⟩ | ⟨hn, hle, hor⟩
  · exact iff_of_true rfl (.inl hn)
  · simp only [hn, false_or]
    constructor
    · intro heq
      obtain ⟨rfl, rfl⟩ := dotsStack_inj h.namesBounded h.namesUnbounded heq
      refine ⟨by omega, List.length_eq_zero_iff.mp (by omega)⟩
    · rintro ⟨rfl, rfl⟩
      have hnil : nb = [] := List.length_eq_zero_iff.mp (Nat.le_zero.mp hle)
      subst hnil
      have hub : ub = maxComponents := by
        simp only [List.length_nil, lt_irrefl, false_or] at hor
        omega
      rw [hub]

/-! ## The normalised text -/

theorem boundedStack_eq_iff (absolute : Bool) (cs : List PathText) :
    boundedStack absolute cs = unboundedStack absolute cs ↔
      if absolute then ReturnsToRoot cs
      else NeverDeep cs ∨ lexicalResolution false cs = List.replicate maxComponents dotDotText := by
  cases absolute with
  | false => exact boundedStack_relative cs
  | true =>
    rcases (boundedStack_absolute cs).2.2.2 with ⟨heq, hret⟩ | ⟨hlt, hret⟩
    · exact iff_of_true heq hret
    · refine iff_of_false (fun heq => ?_) hret
      rw [heq] at hlt
      exact lt_irrefl _ hlt

theorem length_boundedStack (absolute : Bool) (cs : List PathText) :
    (boundedStack absolute cs).length ≤ maxComponents := by
  cases absolute with
  | true => exact (boundedStack_absolute cs).2.2.1
  | false =>
    obtain ⟨ub, nb, uu, nu, h⟩ := exists_depthsRelated cs
    rw [h.bounded, length_dotsStack]
    exact h.room

/-- The stacks hold components of the path, and never a dot. -/
theorem mem_stack (absolute : Bool) (cs : List PathText) :
    (∀ d ∈ boundedStack absolute cs, d ∈ cs ∧ d ≠ dotText) ∧
      ∀ d ∈ unboundedStack absolute cs, d ∈ cs ∧ d ≠ dotText := by
  have hpush : ∀ (S : List PathText) (c d : PathText),
      (d ∈ pushComponent absolute S c ∨ d ∈ pushUnbounded absolute S c) →
      d ∈ S ∨ (d = c ∧ c ≠ dotText) := by
    intro S c d hd
    by_cases hdot : c = dotText
    · subst hdot
      rw [push_dot.1, push_dot.2, or_self] at hd
      exact .inl hd
    · have hcons : d ∈ c :: S → d ∈ S ∨ (d = c ∧ c ≠ dotText) := fun h =>
        (List.mem_cons.mp h).symm.imp_right fun h => ⟨h, hdot⟩
      have htail : d ∈ S.tail → d ∈ S ∨ (d = c ∧ c ≠ dotText) := fun h => .inl (List.mem_of_mem_tail h)
      rw [pushComponent, pushUnbounded, if_neg hdot, if_neg hdot] at hd
      split at hd
      · split at hd
        · exact hd.elim htail htail
        · rcases hd with hd | hd
          · split at hd
            · exact hcons hd
            · exact .inl hd
          · split at hd
            · exact hcons hd
            · exact .inl hd
      · rcases hd with hd | hd
        · split at hd
          · exact hcons hd
          · exact .inl hd
        · exact hcons hd
  induction cs using List.reverseRecOn with
  | nil => exact ⟨fun d hd => (by cases hd), fun d hd => (by cases hd)⟩
  | append_singleton cs c ih =>
    rw [boundedStack_concat, unboundedStack_concat]
    have hmem : ∀ d, d ∈ cs ∧ d ≠ dotText → d ∈ cs ++ [c] ∧ d ≠ dotText := fun d hd =>
      ⟨List.mem_append_left _ hd.1, hd.2⟩
    constructor
    · intro d hd
      rcases hpush _ c d (.inl hd) with h | ⟨rfl, h⟩
      · exact hmem d (ih.1 d h)
      · exact ⟨by simp, h⟩
    · intro d hd
      rcases hpush _ c d (.inr hd) with h | ⟨rfl, h⟩
      · exact hmem d (ih.2 d h)
      · exact ⟨by simp, h⟩

theorem pathText_ne_nil (absolute : Bool) (cs : List PathText) : pathText absolute cs ≠ [] := by
  unfold pathText
  generalize (if absolute then ['/'] else []) ++ ['/'].intercalate cs = text
  by_cases h : text = []
  · simp [h, dotText]
  · simp [h]

/-- Pieces that a normalised path may consist of. -/
def PlainPieces (cs : List PathText) : Prop := ∀ c ∈ cs, IsPiece '/' c ∧ c ≠ dotText

theorem pathText_relative {c : PathText} {rest : List PathText} (h : PlainPieces (c :: rest)) :
    pathText false (c :: rest) = ['/'].intercalate (c :: rest) ∧
      ∃ x t, ['/'].intercalate (c :: rest) = x :: t ∧ x ≠ '/' := by
  obtain ⟨hne, hmem⟩ := (h c List.mem_cons_self).1
  obtain ⟨x, c', rfl⟩ := List.exists_cons_of_ne_nil hne
  have hx : x ≠ '/' := fun hx => hmem (by simp [hx])
  have htext : ∃ t, ['/'].intercalate ((x :: c') :: rest) = x :: t := by
    cases rest with
    | nil => exact ⟨c', by simp⟩
    | cons d rest => exact ⟨_, by rw [List.intercalate_cons_cons]; rfl⟩
  obtain ⟨t, ht⟩ := htext
  refine ⟨?_, x, t, ht, hx⟩
  rw [pathText]
  simp only [Bool.false_eq_true, if_false, List.nil_append]
  rw [if_neg (by rw [ht]; simp)]

theorem isAbsolute_pathText (absolute : Bool) {cs : List PathText} (h : PlainPieces cs) :
    isAbsolute (pathText absolute cs) = absolute := by
  cases absolute with
  | true =>
    rw [pathText]
    simp only [if_true]
    rw [if_neg (by simp)]
    rfl
  | false =>
    cases cs with
    | nil => decide
    | cons c rest =>
      obtain ⟨htext, x, t, ht, hx⟩ := pathText_relative h
      rw [htext, ht]
      simpa [isAbsolute] using hx

/-- The components of a normalised text, a dot if it has none and is relative. -/
theorem components_pathText (absolute : Bool) {cs : List PathText} (h : PlainPieces cs) :
    components '/' (pathText absolute cs) =
      if absolute = false ∧ cs = [] then [dotText] else cs := by
  have hpieces : ∀ c ∈ cs, IsPiece '/' c := fun c hc => (h c hc).1
  cases absolute with
  | true =>
    rw [if_neg (by simp), pathText]
    simp only [if_true]
    rw [if_neg (by simp), List.singleton_append]
    by_cases hcs : cs = []
    · subst hcs
      rw [List.intercalate_nil, components_cons_sep, components_nil]
    · rw [cons_intercalate hcs, components_render hpieces]
  | false =>
    cases cs with
    | nil => decide
    | cons c rest =>
      rw [if_neg (by simp), (pathText_relative h).1, ← components_cons_sep,
        cons_intercalate (by simp), components_render hpieces]

theorem pathText_inj {absolute : Bool} {X Y : List PathText} (hX : PlainPieces X)
    (hY : PlainPieces Y) (h : pathText absolute X = pathText absolute Y) : X = Y := by
  have hcomp := congrArg (components '/') h
  rw [components_pathText absolute hX, components_pathText absolute hY] at hcomp
  have hdot : ∀ Z : List PathText, PlainPieces Z → [dotText] ≠ Z := by
    rintro Z hZ rfl
    exact (hZ dotText List.mem_cons_self).2 rfl
  by_cases hX' : absolute = false ∧ X = []
  · by_cases hY' : absolute = false ∧ Y = []
    · rw [hX'.2, hY'.2]
    · rw [if_pos hX', if_neg hY'] at hcomp
      exact absurd hcomp (hdot Y hY)
  · by_cases hY' : absolute = false ∧ Y = []
    · rw [if_neg hX', if_pos hY'] at hcomp
      exact absurd hcomp.symm (hdot X hX)
    · rwa [if_neg hX', if_neg hY'] at hcomp

theorem normalizePathTextual_eq {path : PathText} (h : path ≠ []) : normalizePathTextual path =
    some (pathText (isAbsolute path)
      (boundedStack (isAbsolute path) (components '/' path)).reverse) := by
  rw [normalizePathTextual, if_neg h]
  rfl

theorem plainPieces_stack (absolute : Bool) (path : PathText) :
    PlainPieces (boundedStack absolute (components '/' path)).reverse ∧
      PlainPieces (lexicalResolution absolute (components '/' path)) := by
  obtain ⟨hb, hu⟩ := mem_stack absolute (components '/' path)
  constructor
  · intro c hc
    obtain ⟨hmem, hne⟩ := hb c (List.mem_reverse.mp hc)
    exact ⟨isPiece_of_mem_components hmem, hne⟩
  · intro c hc
    rw [← List.mem_reverse, ← unboundedStack_eq] at hc
    obtain ⟨hmem, hne⟩ := hu c hc
    exact ⟨isPiece_of_mem_components hmem, hne⟩

/-! ## A second pass -/

theorem scanComponents_names : ∀ {names : List PathText},
    (∀ c ∈ names, c ≠ dotText ∧ c ≠ dotDotText) → scanComponents names = (0, names)
  | [], _ => rfl
  | c :: rest, h => by
      obtain ⟨hdot, hup⟩ := h c List.mem_cons_self
      rw [scanComponents, scanComponents_names fun d hd => h d (List.mem_cons_of_mem _ hd)]
      simp only [if_neg hdot, if_neg hup, if_true]

theorem scanComponents_dots (names : List PathText)
    (h : ∀ c ∈ names, c ≠ dotText ∧ c ≠ dotDotText) : ∀ n,
    scanComponents (List.replicate n dotDotText ++ names) = (n, names)
  | 0 => by rw [List.replicate_zero, List.nil_append, scanComponents_names h]
  | n + 1 => by
      rw [List.replicate_succ, List.cons_append, scanComponents, scanComponents_dots names h n]
      simp only [if_neg (show dotDotText ≠ dotText by decide), if_true]

theorem scanComponents_spec : ∀ cs : List PathText,
    (scanComponents cs).1 + (scanComponents cs).2.length ≤ cs.length ∧
      ∀ c ∈ (scanComponents cs).2, c ≠ dotText ∧ c ≠ dotDotText
  | [] => ⟨le_rfl, fun c hc => (by cases hc)⟩
  | c :: rest => by
      obtain ⟨hlen, hnames⟩ := scanComponents_spec rest
      rw [scanComponents, List.length_cons]
      by_cases hdot : c = dotText
      · simp only [if_pos hdot]
        exact ⟨by omega, hnames⟩
      · by_cases hup : c = dotDotText
        · simp only [if_neg hdot, if_pos hup]
          exact ⟨by omega, hnames⟩
        · simp only [if_neg hdot, if_neg hup]
          split
          · refine ⟨by simp only [List.length_cons]; omega, ?_⟩
            exact List.forall_mem_cons.mpr ⟨⟨hdot, hup⟩, hnames⟩
          · exact ⟨by simp only; omega, hnames⟩

theorem lexicalResolution_idem (absolute : Bool) (cs : List PathText) :
    lexicalResolution absolute (lexicalResolution absolute cs) = lexicalResolution absolute cs := by
  have hnames := (scanComponents_spec cs).2
  cases absolute with
  | true =>
    have hres : lexicalResolution true cs = (scanComponents cs).2 := rfl
    rw [hres, lexicalResolution, scanComponents_names hnames]
    rfl
  | false =>
    have hres : lexicalResolution false cs =
        List.replicate (scanComponents cs).1 dotDotText ++ (scanComponents cs).2 := rfl
    rw [hres, lexicalResolution, scanComponents_dots _ hnames]
    rfl

theorem length_lexicalResolution_le (absolute : Bool) (cs : List PathText) :
    (lexicalResolution absolute cs).length ≤ cs.length := by
  have hlen := (scanComponents_spec cs).1
  cases absolute with
  | true =>
    have hres : lexicalResolution true cs = (scanComponents cs).2 := rfl
    rw [hres]
    omega
  | false =>
    have hres : lexicalResolution false cs =
        List.replicate (scanComponents cs).1 dotDotText ++ (scanComponents cs).2 := rfl
    rw [hres, List.length_append, List.length_replicate]
    exact hlen

/-- Components that fit the array together are never lost. -/
theorem boundedStack_of_length (absolute : Bool) {cs : List PathText}
    (h : cs.length ≤ maxComponents) : boundedStack absolute cs = unboundedStack absolute cs := by
  have hprefix : ∀ xs, xs <+: cs → (lexicalResolution absolute xs).length ≤ maxComponents :=
    fun xs hxs => (length_lexicalResolution_le absolute xs).trans (hxs.length_le.trans h)
  rw [boundedStack_eq_iff]
  cases absolute with
  | true =>
    intro xs hxs hdeep
    have := hprefix xs hxs
    omega
  | false => exact .inl hprefix

/-! ## The normaliser -/

/-- The normalised path is the text of the resolved components, and normalises to itself. -/
def NormalisesExactly (path : PathText) : Prop :=
  let text := pathText (isAbsolute path) (lexicalResolution (isAbsolute path) (components '/' path))
  normalizePathTextual path = some text ∧ normalizePathTextual text = some text

/-- No component that stays is lost to the bound of the array: below the root, every prefix that
is too deep is followed by a return to the root; a relative path is never too deep, or resolves
to as many `..` as the array holds. -/
def ComponentsFit (path : PathText) : Prop :=
  if isAbsolute path then ReturnsToRoot (components '/' path)
  else NeverDeep (components '/' path) ∨
    lexicalResolution false (components '/' path) = List.replicate maxComponents dotDotText

theorem normalisesExactly_iff {path : PathText} (h : path ≠ []) :
    NormalisesExactly path ↔ ComponentsFit path := by
  obtain ⟨hB, hR⟩ := plainPieces_stack (isAbsolute path) path
  have hfit : ComponentsFit path ↔ boundedStack (isAbsolute path) (components '/' path) =
      unboundedStack (isAbsolute path) (components '/' path) := by
    rw [boundedStack_eq_iff, ComponentsFit]
  rw [hfit, NormalisesExactly]
  rw [normalizePathTextual_eq h, Option.some.injEq]
  constructor
  · rintro ⟨htext, -⟩
    have hstack := pathText_inj hB hR htext
    rw [unboundedStack_eq, ← hstack, List.reverse_reverse]
  · intro heq
    have hlen := length_boundedStack (isAbsolute path) (components '/' path)
    rw [heq, unboundedStack_eq, List.length_reverse] at hlen
    refine ⟨by rw [heq, unboundedStack_eq, List.reverse_reverse], ?_⟩
    have hidem := lexicalResolution_idem (isAbsolute path) (components '/' path)
    generalize lexicalResolution (isAbsolute path) (components '/' path) = r at hR hlen hidem ⊢
    have habs := isAbsolute_pathText (isAbsolute path) hR
    rw [normalizePathTextual_eq (pathText_ne_nil _ _), habs, components_pathText _ hR]
    by_cases hempty : isAbsolute path = false ∧ r = []
    · rw [if_pos hempty, hempty.1, hempty.2]
      decide
    · rw [if_neg hempty, boundedStack_of_length _ hlen, unboundedStack_eq, hidem,
        List.reverse_reverse]

theorem componentsFit_of_length {path : PathText}
    (h : (components '/' path).length ≤ maxComponents) : ComponentsFit path := by
  rw [ComponentsFit, ← boundedStack_eq_iff]
  exact boundedStack_of_length _ h

/-- An absolute path above its root and back. -/
theorem normalisesExactly_iff_root : NormalisesExactly "/a/./../../b//c/".toList :=
  (normalisesExactly_iff (by decide)).mpr (componentsFit_of_length (by decide +kernel))

/-- Of 257 components the last one is dropped. -/
theorem component_dropped : ¬ NormalisesExactly (List.replicate 257 ['a', '/']).flatten := by
  have hpath : normalizePathTextual (List.replicate 257 ['a', '/']).flatten ≠
      some (pathText (isAbsolute (List.replicate 257 ['a', '/']).flatten)
        (lexicalResolution (isAbsolute (List.replicate 257 ['a', '/']).flatten)
          (components '/' (List.replicate 257 ['a', '/']).flatten))) := by
    decide +kernel
  exact fun h => hpath h.1

end JzHdl

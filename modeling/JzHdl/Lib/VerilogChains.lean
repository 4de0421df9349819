import JzHdl.Lib.VerilogText

/-! # Texts with conditional operators left open

A conditional expression without parentheses takes in what stands next to it:
what comes before joins its first condition, what comes after its last arm. The
widths of its arms and of its tail say what it contributes.
-/

namespace JzHdl.VerilogText

/-- What an open text contributes to the width of a text around it. -/
structure Spread where

  loose : Bool

  arms : ℕ

  tail : ℕ

  legal : Bool

namespace Spread

def tight (width : ℕ) (legal : Bool) : Spread := ⟨false, 0, width, legal⟩

/-- The width of the text by itself. -/
def width (σ : Spread) : ℕ := max σ.arms σ.tail

/-- The text after a unary operator, which applies to the first condition of an open one. -/
def unary (s : OpSym) (σ : Spread) : Spread :=
  if σ.loose then σ else tight (s.unaryWidth σ.tail) σ.legal

def binary (s : OpSym) (σ τ : Spread) : Spread :=
  if τ.loose then ⟨true, max σ.arms τ.arms, τ.tail, σ.legal && τ.legal⟩
  else ⟨σ.loose, σ.arms, s.binaryWidth σ.tail τ.tail, σ.legal && τ.legal⟩

def ternary (c : Spread) (width : ℕ) (legal : Bool) (f : Spread) : Spread :=
  ⟨true, max c.arms (max width f.arms), f.tail, c.legal && legal && f.legal⟩

end Spread

variable {names : String → Sized}

/-- The text is a chain of conditions and arms, all of which bind at level `k` or tighter. -/
inductive Spreads (names : String → Sized) (k : ℕ) : List Tok → Spread → Prop where

  | tight {ts : List Tok} {a : Sized} (h : Phrase names k ts a) :
      Spreads names k ts (.tight a.width a.legal)

  | chain {c t f : List Tok} {a b : Sized} {σ : Spread} (hc : Phrase names k c a)
      (ht : Phrase names 1 t b) (hf : Spreads names k f σ) :
      Spreads names k (c ++ .question :: (t ++ .colon :: f))
        ⟨true, max b.width σ.arms, σ.tail, a.legal && b.legal && σ.legal⟩

theorem Phrase.weaken {j k : ℕ} {ts : List Tok} {a : Sized} (hj : 1 ≤ j) (hjk : j ≤ k)
    (h : Phrase names k ts a) : Phrase names j ts a := by
  induction k, hjk using Nat.le_induction with
  | base => exact h
  | succ n hn ih => exact ih (.up (by omega) h)

/-- An operand on the right may bind as loosely as its operator. -/
theorem Phrase.binary_right {s : OpSym} {l : List Tok} {a : Sized} (hs : 2 ≤ s.level)
    (hl : Phrase names s.level l a) {k : ℕ} {r : List Tok} {b : Sized}
    (hr : Phrase names k r b) (hk : k = s.level) :
    Phrase names s.level (l ++ .sym s :: r) (.binary s a b) := by
  have hle := s.level_le
  induction hr with
  | up _ h _ =>
    subst hk
    exact .binary s hs hl h
  | @binary s' l' r' a' b' hs' hl' hr' ihl _ =>
    -- The operator of the operand comes out on top.
    have hassoc : Sized.binary s a (.binary s' a' b') = .binary s' (.binary s a a') b' := by
      simp only [Sized.binary, Sized.value, OpSym.binaryWidth_assoc hk.symm, Bool.and_assoc]
    have h := ihl hk
    rw [← hk] at h
    have hout := Phrase.binary s' hs' h hr'
    rw [List.append_assoc, List.cons_append] at hout
    rw [hassoc, ← hk]
    exact hout
  | unary | ternary | list | cons => omega
  | _ => omega

theorem OpSym.binaryWidth_le (s : OpSym) (a b : ℕ) : s.binaryWidth a b ≤ max 1 (max a b) := by
  cases s <;> simp only [OpSym.binaryWidth] <;> omega

/-- A wider operand on the left adds no more than its own width. -/
theorem OpSym.binaryWidth_left (s : OpSym) {a c x : ℕ} (b : ℕ) (h : c ≤ max 1 (max x a)) :
    s.binaryWidth c b ≤ max 1 (max x (s.binaryWidth a b)) := by
  cases s <;> simp only [OpSym.binaryWidth] <;> omega

theorem OpSym.binaryWidth_right (s : OpSym) {b c x : ℕ} (a : ℕ) (h : c ≤ max 1 (max b x)) :
    s.binaryWidth a c ≤ max 1 (max (s.binaryWidth a b) x) := by
  cases s <;> simp only [OpSym.binaryWidth] <;> omega

/-- Induction on the part of a text that binds more loosely than level `m`. -/
theorem Phrase.loose_induction {m : ℕ} (hm : m ≤ 12) {Q : ℕ → List Tok → Sized → Prop}
    (direct : ∀ {k : ℕ} {ts : List Tok} {a : Sized}, Phrase names k ts a → m ≤ k → Q k ts a)
    (up : ∀ {k : ℕ} {ts : List Tok} {a : Sized}, 1 ≤ k → k < m → Q (k + 1) ts a → Q k ts a)
    (binary : ∀ (s : OpSym) {l r : List Tok} {a b : Sized}, 2 ≤ s.level → s.level < m →
      Phrase names s.level l a → Phrase names (s.level + 1) r b → Q s.level l a →
      Q (s.level + 1) r b → Q s.level (l ++ .sym s :: r) (.binary s a b))
    (ternary : ∀ {c t f : List Tok} {a b d : Sized}, 1 < m → Phrase names 2 c a →
      Phrase names 1 t b → Phrase names 1 f d → Q 2 c a → Q 1 f d →
      Q 1 (c ++ .question :: (t ++ .colon :: f)) (.ternary a b d))
    {k : ℕ} {ts : List Tok} {a : Sized} (hk : 1 ≤ k) (h : Phrase names k ts a) : Q k ts a := by
  induction h with
  | @up k ts a hk1 h ih =>
    by_cases hle : m ≤ k
    · exact direct (.up hk1 h) hle
    · exact up hk1 (by omega) (ih (by omega))
  | @binary s l r a b hs hl hr ihl ihr =>
    by_cases hle : m ≤ s.level
    · exact direct (.binary s hs hl hr) hle
    · exact binary s hs (by omega) hl hr (ihl (by omega)) (ihr (by omega))
  | ternary hc ht hf ihc _ ihf =>
    by_cases hle : m ≤ 1
    · exact direct (.ternary hc ht hf) hle
    · exact ternary (by omega) hc ht hf (ihc (by omega)) (ihf (by omega))
  | list | cons => omega
  | unary hs h _ => exact direct (.unary hs h) (by omega)
  | decimal n => exact direct (.decimal n) (by omega)
  | sized w digits => exact direct (.sized w digits) (by omega)
  | ident x => exact direct (.ident x) (by omega)
  | paren h _ => exact direct (.paren h) (by omega)
  | signed h _ => exact direct (.signed h) (by omega)
  | empty => exact direct .empty (by omega)
  | concat h _ => exact direct (.concat h) (by omega)
  | replicate n h _ => exact direct (.replicate n h) (by omega)
  | select h hi _ _ => exact direct (.select h hi) (by omega)
  | range msb lsb h _ => exact direct (.range msb lsb h) (by omega)

/-- A text after an operator that binds tighter hands its first operand to it. -/
theorem Phrase.prepend {s : OpSym} {l : List Tok} {a : Sized} (hs : 2 ≤ s.level)
    (hl : Phrase names s.level l a) {k : ℕ} {r : List Tok} {b : Sized}
    (hr : Phrase names k r b) (hk : 1 ≤ k) :
    ∃ c, Phrase names (min k s.level) (l ++ .sym s :: r) c ∧
      c.width ≤ max 1 (max a.width b.width) ∧ c.legal = (a.legal && b.legal) := by
  refine Phrase.loose_induction s.level_le (Q := fun k r b =>
    ∃ c, Phrase names (min k s.level) (l ++ .sym s :: r) c ∧
      c.width ≤ max 1 (max a.width b.width) ∧ c.legal = (a.legal && b.legal))
    ?_ ?_ ?_ ?_ hk hr
  · intro k r b hr hle
    refine ⟨.binary s a b, ?_, s.binaryWidth_le _ _, rfl⟩
    rw [min_eq_right hle]
    exact hl.binary_right hs (hr.weaken (by omega) hle) rfl
  · rintro k r b hk1 hlt ⟨c, hc, hout⟩
    exact ⟨c, hc.weaken (by omega) (by omega), hout⟩
  · rintro s' l' r' a' b' hs' hlt - hr' ⟨c, hc, hwidth, hlegal⟩ -
    rw [min_eq_left (by omega)] at hc ⊢
    refine ⟨.binary s' c b', ?_, s'.binaryWidth_left _ hwidth, ?_⟩
    · have hout := Phrase.binary s' hs' hc hr'
      rw [List.append_assoc, List.cons_append] at hout
      exact hout
    · simp only [Sized.binary, Sized.value, hlegal, Bool.and_assoc]
  · rintro c t f a' b' d - - ht hf ⟨e, he, -, hlegal⟩ -
    refine ⟨.ternary e b' d, ?_, ?_, ?_⟩
    · have hout := Phrase.ternary (he.weaken (by omega) (by omega)) ht hf
      rw [List.append_assoc, List.cons_append] at hout
      rw [min_eq_left (by omega)]
      exact hout
    · simp only [Sized.ternary, Sized.value]
      omega
    · simp only [Sized.ternary, Sized.value, hlegal, Bool.and_assoc]

/-- Shifts, sums and products with such an operator between them are of that kind. -/
theorem Phrase.splice {s : OpSym} {r : List Tok} {b : Sized} (hs : 10 ≤ s.level)
    (hr : Phrase names 10 r b) {l : List Tok} {a : Sized} (hl : Phrase names 10 l a) :
    ∃ c, Phrase names 10 (l ++ .sym s :: r) c ∧ c.width ≤ max 1 (max a.width b.width) := by
  refine Phrase.loose_induction s.level_le (Q := fun k l a => 10 ≤ k →
    ∃ c, Phrase names 10 (l ++ .sym s :: r) c ∧ c.width ≤ max 1 (max a.width b.width))
    ?_ ?_ ?_ ?_ (by omega) hl (le_refl _)
  · intro k l a hl hle _
    obtain ⟨c, hc, hwidth, -⟩ := (hl.weaken (by omega) hle).prepend (by omega) hr (by omega)
    exact ⟨c, hc.weaken (by omega) (by omega), hwidth⟩
  · intro k l a _ _ ih hk
    exact ih (by omega)
  · intro s' l' r' a' b' hs' _ hl' _ _ ihr hk
    obtain ⟨c, hc, hwidth⟩ := ihr (by omega)
    rw [List.append_assoc, List.cons_append]
    by_cases h10 : s'.level = 10
    · -- A shift keeps the width of its left operand whatever its amount has become.
      refine ⟨_, (hl'.binary_right hs' hc h10.symm).weaken (by omega) (by omega), ?_⟩
      exact s'.binaryWidth_right _ hwidth
    · obtain ⟨d, hd, hwidth', -⟩ := hl'.prepend hs' hc (by omega)
      refine ⟨d, hd.weaken (by omega) (by omega), hwidth'.trans ?_⟩
      have hmax : s'.binaryWidth a'.width b'.width = max a'.width b'.width := by
        cases s' <;> simp [OpSym.level] at hk h10 <;> rfl
      simp only [Sized.binary, Sized.value, hmax]
      omega
  · intro _ _ _ _ _ _ _ _ _ _ _ _ hk
    omega

/-- What an operator with a tight right operand does to a text whose last operand it takes. -/
structure Appends (s : OpSym) (w : ℕ) (R : ℕ → ℕ → Prop) : Prop where

  direct : ∀ v, R v (s.binaryWidth v w)

  under : ∀ (s' : OpSym) (l : ℕ) {v v' : ℕ}, 2 ≤ s'.level → s'.level < s.level → R v v' →
    R (s'.binaryWidth l v) (s'.binaryWidth l v')

  arm : ∀ (t : ℕ) {v v' : ℕ}, R v v' → R (max t v) (max t v')

theorem Phrase.append {s : OpSym} {x : List Tok} {b : Sized} {R : ℕ → ℕ → Prop}
    (hs : 2 ≤ s.level) (hx : Phrase names (s.level + 1) x b) (hR : Appends s b.width R) {k : ℕ}
    {ts : List Tok} {a : Sized} (h : Phrase names k ts a) (hk : 1 ≤ k) :
    ∃ c, Phrase names (min k s.level) (ts ++ .sym s :: x) c ∧ R a.width c.width ∧
      c.legal = (a.legal && b.legal) := by
  refine Phrase.loose_induction s.level_le (Q := fun k ts a =>
    ∃ c, Phrase names (min k s.level) (ts ++ .sym s :: x) c ∧ R a.width c.width ∧
      c.legal = (a.legal && b.legal)) ?_ ?_ ?_ ?_ hk h
  · intro k ts a h hle
    refine ⟨.binary s a b, ?_, hR.direct _, rfl⟩
    rw [min_eq_right hle]
    exact .binary s hs (h.weaken (by omega) hle) hx
  · rintro k ts a hk1 hlt ⟨c, hc, hout⟩
    exact ⟨c, hc.weaken (by omega) (by omega), hout⟩
  · rintro s' l r a' b' hs' hlt hl - - ⟨c, hc, hwidth, hlegal⟩
    refine ⟨.binary s' a' c, ?_, hR.under s' a'.width hs' hlt hwidth, ?_⟩
    · rw [List.append_assoc, List.cons_append, min_eq_left (by omega)]
      exact .binary s' hs' hl (hc.weaken (by omega) (by omega))
    · simp only [Sized.binary, Sized.value, hlegal, Bool.and_assoc]
  · rintro c t f a' b' d hlt hc ht - - ⟨e, he, hwidth, hlegal⟩
    refine ⟨.ternary a' b' e, ?_, hR.arm b'.width hwidth, ?_⟩
    · rw [List.append_assoc, List.cons_append, List.append_assoc, List.cons_append,
        min_eq_left (by omega)]
      exact .ternary hc ht (he.weaken (by omega) (by omega))
    · simp only [Sized.ternary, Sized.value, hlegal, Bool.and_assoc]

/-- A shift at the end of a text keeps its width. -/
theorem appends_shr (w : ℕ) : Appends .shr w fun v v' => v' = v where
  direct _ := rfl
  under _ _ _ _ _ _ h := by rw [h]
  arm _ _ _ h := by rw [h]

/-- One bit masked at the end of a text. -/
theorem appends_amp : Appends .amp 1 fun v v' => v' = max v 1 where
  direct _ := rfl
  under s l v v' hs hlt h := by
    cases s <;> simp only [OpSym.level] at hs hlt <;> simp only [OpSym.binaryWidth, h] <;> omega
  arm t v v' h := by omega

/-- A comparison at the end of a text leaves a text. -/
theorem appends_lt (w : ℕ) : Appends .lt w fun _ _ => True where
  direct _ := trivial
  under _ _ _ _ _ _ _ := trivial
  arm _ _ _ _ := trivial

theorem Phrase.ne_nil {k : ℕ} {ts : List Tok} {a : Sized} (h : Phrase names k ts a) :
    ts ≠ [] := by
  induction h <;> simp_all

theorem head_append {ts rest : List Tok} {s : OpSym} (hne : ts ≠ [])
    (h : ∀ {ts' : List Tok}, ts ≠ .sym s :: ts') {ts' : List Tok} :
    ts ++ rest ≠ .sym s :: ts' := by
  cases ts with
  | nil => exact absurd rfl hne
  | cons t ts =>
    rw [List.cons_append]
    rintro heq
    injection heq with ht _
    exact h (by rw [ht])

/-- A primary starts with no operator. -/
theorem Phrase.head_primary {k : ℕ} {ts : List Tok} {a : Sized} (h : Phrase names k ts a)
    (hk : 14 ≤ k) {s : OpSym} {ts' : List Tok} : ts ≠ .sym s :: ts' := by
  induction h generalizing ts' with
  | @select ts₀ is _ _ h _ ih _ => exact head_append h.ne_nil (ih hk)
  | @range msb lsb ts₀ _ h ih => exact head_append h.ne_nil (ih hk)
  | unary | ternary | list | cons => omega
  | binary s _ _ _ _ _ =>
    have := s.level_le
    omega
  | up _ _ ih => exact ih (by omega)
  | _ => simp

theorem Phrase.unary_inv {s : OpSym} {ts : List Tok} {a : Sized}
    (h : Phrase names 13 (.sym s :: ts) a) :
    ∃ b, Phrase names 13 ts b ∧ a = .unary s b := by
  generalize hk : (13 : ℕ) = k at h
  generalize hts : Tok.sym s :: ts = ts₀ at h
  cases h with
  | @unary s' hs ts' b h =>
    cases hts
    exact ⟨b, h, rfl⟩
  | up _ h =>
    subst hk
    exact absurd hts.symm (h.head_primary (by omega))
  | binary s' _ _ _ =>
    have := s'.level_le
    omega
  | _ => omega

/-- The last word of a text to which no select applies. -/
def Tok.ends : Tok → Bool
  | .decimal _ | .sized .. | .rparen | .rbrace => true
  | _ => false

theorem Phrase.base_list {k : ℕ} {ts : List Tok} {a : Sized} (h : Phrase names k ts a)
    (hk : k = 0) : a.base = .value := by
  induction h with
  | list | cons => rfl
  | binary => omega
  | up => omega
  | _ => omega

/-- A select after anything but a name is illegal. -/
theorem Phrase.select_illegal {i : List Tok} {b : Sized} (hi : Phrase names 1 i b) {k : ℕ}
    {ts : List Tok} {a : Sized} (h : Phrase names k ts a) (hk : 1 ≤ k)
    (hend : ∀ t, ts.getLast? = some t → t.ends = true) :
    ∃ c, Phrase names k (ts ++ .lbrack :: (i ++ [.rbrack])) c ∧ c.legal = false := by
  have hprimary : ∀ {ts : List Tok} {a : Sized}, Phrase names 14 ts a → a.base ≠ .vector →
      a.base ≠ .memory → ∃ c, Phrase names 14 (ts ++ .lbrack :: (i ++ [.rbrack])) c ∧
        c.legal = false := by
    intro ts a h hv hm
    refine ⟨a.select b, h.select hi, ?_⟩
    rcases a with ⟨w, base, legal⟩
    cases base <;> first | rfl | exact absurd rfl hv | exact absurd rfl hm
  have hlast : ∀ {l r : List Tok} {t : Tok}, r ≠ [] →
      (∀ u, (l ++ t :: r).getLast? = some u → u.ends = true) →
      ∀ u, r.getLast? = some u → u.ends = true := by
    intro l r t hne h u hu
    refine h u ?_
    rw [List.getLast?_append, List.getLast?_cons, hu]
    rfl
  induction h with
  | decimal n => exact hprimary (.decimal n) nofun nofun
  | sized w digits => exact hprimary (.sized w digits) nofun nofun
  | paren h _ => exact hprimary (.paren h) nofun nofun
  | signed h _ => exact hprimary (.signed h) nofun nofun
  | empty => exact hprimary .empty nofun nofun
  | concat h _ =>
    refine hprimary (.concat h) ?_ ?_ <;> rw [h.base_list rfl] <;> exact nofun
  | replicate n h _ => exact hprimary (.replicate n h) nofun nofun
  | ident x => exact absurd (hend _ rfl) nofun
  | @select ts is =>
    refine absurd (hend .rbrack ?_) nofun
    rw [← List.cons_append, ← List.append_assoc, List.getLast?_concat]
  | range =>
    refine absurd (hend .rbrack ?_) nofun
    rw [List.getLast?_append]
    rfl
  | @unary s hs ts a h ih =>
    obtain ⟨c, hc, hlegal⟩ := ih (by omega)
      (hlast (l := []) (t := .sym s) h.ne_nil (by simpa using hend))
    exact ⟨_, .unary hs hc, hlegal⟩
  | @binary s l r a d hs hl hr _ ihr =>
    obtain ⟨c, hc, hlegal⟩ := ihr (by omega) (hlast hr.ne_nil hend)
    refine ⟨.binary s a c, ?_, ?_⟩
    · rw [List.append_assoc, List.cons_append]
      exact .binary s hs hl hc
    · simp only [Sized.binary, Sized.value, hlegal, Bool.and_false]
  | @ternary c t f a d e hc ht hf _ _ ihf =>
    obtain ⟨g, hg, hlegal⟩ := ihf (by omega)
      (hlast hf.ne_nil (l := c ++ .question :: t) (t := .colon) (by simpa using hend))
    refine ⟨.ternary a d g, ?_, ?_⟩
    · rw [List.append_assoc, List.cons_append, List.append_assoc, List.cons_append]
      exact .ternary hc ht hg
    · simp only [Sized.ternary, Sized.value, hlegal, Bool.and_false]
  | list | cons => omega
  | up _ _ ih =>
    obtain ⟨c, hc, hlegal⟩ := ih (by omega) hend
    exact ⟨c, .up (by omega) hc, hlegal⟩

namespace Spreads

variable {k : ℕ} {ts : List Tok} {σ τ : Spread}

theorem weaken {j : ℕ} (hj : 1 ≤ j) (hjk : j ≤ k) (h : Spreads names k ts σ) :
    Spreads names j ts σ := by
  induction h with
  | tight h => exact .tight (h.weaken hj hjk)
  | chain hc ht _ ih => exact .chain (hc.weaken hj hjk) ht ih

/-- An open text by itself is an expression. -/
theorem closed (hk : 2 ≤ k) (h : Spreads names k ts σ) :
    ∃ a, Phrase names 1 ts a ∧ a.width = σ.width ∧ a.legal = σ.legal := by
  induction h with
  | @tight ts a h => exact ⟨a, h.weaken (by omega) (by omega), by
      simp [Spread.tight, Spread.width], rfl⟩
  | chain hc ht _ ih =>
    obtain ⟨b, hb, hwidth, hlegal⟩ := ih
    refine ⟨_, .ternary (hc.weaken (by omega) hk) ht hb, ?_, ?_⟩
    · simp only [Sized.ternary, Sized.value, hwidth, Spread.width, max_assoc]
    · simp only [Sized.ternary, Sized.value, hlegal]

theorem unary {s : OpSym} (hs : s.isUnary = true) (h : Spreads names 13 ts σ) :
    Spreads names 13 (.sym s :: ts) (.unary s σ) := by
  cases h with
  | tight h => exact .tight (.unary hs h)
  | chain hc ht hf => exact .chain (.unary hs hc) ht hf

theorem binary {s : OpSym} (hs : 2 ≤ s.level) {l r : List Tok} (hl : Spreads names s.level l σ)
    (hr : Spreads names s.level r τ) :
    Spreads names s.level (l ++ .sym s :: r) (.binary s σ τ) := by
  induction hl with
  | @tight l a hl =>
    cases hr with
    | tight hr => exact .tight (hl.binary_right hs hr rfl)
    | @chain c t f a' b σ' hc ht hf =>
      have h := Spreads.chain (hl.binary_right hs hc rfl) ht hf
      rw [List.append_assoc, List.cons_append] at h
      simpa [Spread.binary, Spread.tight, Sized.binary, Sized.value, Bool.and_assoc] using h
  | @chain c t f a b σ' hc ht hf ih =>
    have h := Spreads.chain hc ht ih
    have heq : Spread.binary s ⟨true, max b.width σ'.arms, σ'.tail,
        a.legal && b.legal && σ'.legal⟩ τ = ⟨true, max b.width (Spread.binary s σ' τ).arms,
        (Spread.binary s σ' τ).tail, a.legal && b.legal && (Spread.binary s σ' τ).legal⟩ := by
      rcases hτ : τ.loose <;> simp [Spread.binary, hτ, max_assoc, Bool.and_assoc]
    rw [heq, List.append_assoc, List.cons_append, List.append_assoc, List.cons_append]
    exact h

theorem ternary {c t f : List Tok} {b : Sized} (hc : Spreads names 2 c σ)
    (ht : Phrase names 1 t b) (hf : Spreads names 2 f τ) :
    Spreads names 2 (c ++ .question :: (t ++ .colon :: f)) (.ternary σ b.width b.legal τ) := by
  induction hc with
  | @tight c a hc => simpa [Spread.ternary, Spread.tight] using Spreads.chain hc ht hf
  | @chain c' t' f' a' b' σ' hc ht' _ ih =>
    have h := Spreads.chain hc ht' ih
    rw [List.append_assoc, List.cons_append, List.append_assoc, List.cons_append]
    simpa [Spread.ternary, max_assoc, Bool.and_assoc] using h

/-- A text that leaves nothing open. -/
theorem of_tight (hloose : σ.loose = false) (h : Spreads names k ts σ) :
    ∃ a, Phrase names k ts a ∧ a.width = σ.width ∧ a.legal = σ.legal ∧ σ.arms = 0 := by
  cases h with
  | @tight _ a h => exact ⟨a, h, by simp [Spread.tight, Spread.width], rfl, rfl⟩
  | chain => cases hloose

/-- Open texts with an operator between them are no wider than the wider of the two. -/
theorem splice {s : OpSym} {l r : List Tok} (hs : 10 ≤ s.level) (hl : Spreads names 10 l σ)
    (hr : Spreads names 10 r τ) :
    ∃ c, Phrase names 1 (l ++ .sym s :: r) c ∧ c.width ≤ max 1 (max σ.width τ.width) := by
  induction hl with
  | @tight l a hl =>
    have hself : (Spread.tight a.width a.legal).width = a.width := by
      simp [Spread.tight, Spread.width]
    rw [hself]
    cases hr with
    | @tight r b hr =>
      obtain ⟨c, hc, hwidth⟩ := Phrase.splice hs hr hl
      exact ⟨c, hc.weaken (le_refl 1) (by omega),
        by simpa [Spread.tight, Spread.width] using hwidth⟩
    | @chain c t f d b σ' hc ht hf =>
      obtain ⟨g, hg, -⟩ := Phrase.splice hs hc hl
      obtain ⟨e, he, hwidth, -⟩ := hf.closed (by omega)
      refine ⟨.ternary g b e, ?_, ?_⟩
      · have hout := Phrase.ternary (hg.weaken (by omega) (by omega)) ht he
        rw [List.append_assoc, List.cons_append] at hout
        exact hout
      · simp only [Sized.ternary, Sized.value, hwidth, Spread.width]
        omega
  | @chain c t f a b σ' hc ht _ ih =>
    obtain ⟨e, he, hwidth⟩ := ih
    refine ⟨.ternary a b e, ?_, ?_⟩
    · rw [List.append_assoc, List.cons_append, List.append_assoc, List.cons_append]
      exact .ternary (hc.weaken (by omega) (by omega)) ht he
    · simp only [Sized.ternary, Sized.value, Spread.width] at hwidth ⊢
      omega

/-- What comes before an open text joins its first condition. -/
theorem prepend_loose {s : OpSym} {l : List Tok} {a : Sized} (h : Spreads names k ts σ)
    (hs : 2 ≤ s.level) (hl : Phrase names s.level l a) (hk : 2 ≤ k)
    (hloose : σ.loose = true) :
    ∃ c, Phrase names 1 (l ++ .sym s :: ts) c ∧ c.width = σ.width ∧
      c.legal = (a.legal && σ.legal) := by
  cases h with
  | tight => cases hloose
  | @chain c t f b d σ hc ht hf =>
    obtain ⟨e, he, hwidth, hlegal⟩ := hf.closed hk
    obtain ⟨g, hg, -, hglegal⟩ := hl.prepend hs hc (by omega)
    refine ⟨.ternary g d e, ?_, ?_, ?_⟩
    · have hout := Phrase.ternary (hg.weaken (by omega) (by omega)) ht he
      rw [List.append_assoc, List.cons_append] at hout
      exact hout
    · simp only [Sized.ternary, Sized.value, hwidth, Spread.width, max_assoc]
    · simp only [Sized.ternary, Sized.value, hlegal, hglegal, Bool.and_assoc]

theorem ne_nil (h : Spreads names k ts σ) : ts ≠ [] := by
  cases h with
  | tight h => exact h.ne_nil
  | chain => simp

theorem select_illegal {i : List Tok} {b : Sized} (hi : Phrase names 1 i b) (hk : 1 ≤ k)
    (h : Spreads names k ts σ) (hend : ∀ t, ts.getLast? = some t → t.ends = true) :
    ∃ τ, Spreads names k (ts ++ .lbrack :: (i ++ [.rbrack])) τ ∧ τ.legal = false := by
  induction h with
  | tight h =>
    obtain ⟨c, hc, hlegal⟩ := Phrase.select_illegal hi h hk hend
    exact ⟨_, .tight hc, hlegal⟩
  | @chain c t f a b σ hc ht hf ih =>
    obtain ⟨τ, hτ, hlegal⟩ := ih fun u hu => hend u <| by
      rw [List.getLast?_append, List.getLast?_cons, List.getLast?_append, List.getLast?_cons, hu]
      rfl
    refine ⟨⟨true, max b.width τ.arms, τ.tail, a.legal && b.legal && τ.legal⟩, ?_, ?_⟩
    · rw [List.append_assoc, List.cons_append, List.append_assoc, List.cons_append]
      exact .chain hc ht hτ
    · simp only [hlegal, Bool.and_false]

end Spreads

end JzHdl.VerilogText

import Mathlib.Tactic.Common

/-! # Left-associative chains

One level of a precedence ladder: operands joined by the operators of the level
and read by a loop that folds to the left. The operands are read by any parser
that evaluates while it reads. A chain reads exactly what its grammar derives.
-/

namespace LeftChain

variable {T B A V σ ε : Type}

/-- A computation on a state that may fail. -/
abbrev Run (σ ε V : Type) := StateT σ (Except ε) V

/-- A parser returns the value of what it has read and the tokens it has left. -/
abbrev Parser (T σ ε V : Type) := List T → Run σ ε (V × List T)

theorem bind_ok {W : Type} {x : Run σ ε V} {f : V → Run σ ε W} {s s' : σ} {w : W} :
    (x >>= f) s = .ok (w, s') ↔ ∃ v t, x s = .ok (v, t) ∧ f v t = .ok (w, s') := by
  change (x s >>= fun p => f p.1 p.2) = _ ↔ _
  cases hx : x s with
  | error e => simp [bind, Except.bind]
  | ok p =>
    obtain ⟨v, t⟩ := p
    simp [bind, Except.bind]

theorem pure_ok {v w : V} {s s' : σ} : (pure v : Run σ ε V) s = .ok (w, s') ↔ v = w ∧ s = s' := by
  change Except.ok (v, s) = Except.ok (w, s') ↔ _
  simp

/-- The operators of a level with their trees and their actions on values. -/
structure Level (T B A V σ ε : Type) where

  ops : T → Option B

  join : B → A → A → A

  act : B → V → V → Run σ ε V

variable (K : Level T B A V σ ε)

/-! ## The grammar -/

/-- One operand, or a chain and one operand more. -/
inductive Chain (D : A → List T → Prop) : A → List T → Prop

  | one {e : A} {ts : List T} : D e ts → Chain D e ts

  | more {l r : A} {ts us : List T} {t : T} {op : B} : Chain D l ts → K.ops t = some op →
      D r us → Chain D (K.join op l r) (ts ++ t :: us)

/-- The operators and operands that extend a chain. -/
inductive Steps (D : A → List T → Prop) : A → List T → A → Prop

  | done {e : A} : Steps D e [] e

  | step {l r e : A} {us ts : List T} {t : T} {op : B} : K.ops t = some op → D r us →
      Steps D (K.join op l r) ts e → Steps D l (t :: (us ++ ts)) e

variable {K} {D : A → List T → Prop} {ev : A → Run σ ε V} {stop : List T → Prop}

theorem Steps.snoc {l e r : A} {ts us : List T} {t : T} {op : B} (h : Steps K D l ts e)
    (hop : K.ops t = some op) (hr : D r us) : Steps K D l (ts ++ t :: us) (K.join op e r) := by
  induction h with
  | @done e =>
    have hlast : Steps K D e (t :: (us ++ [])) (K.join op e r) := .step hop hr .done
    rwa [List.append_nil] at hlast
  | step hop' hr' _ ih =>
    rw [List.cons_append, List.append_assoc]
    exact .step hop' hr' ih

theorem Chain.steps {e : A} {ts : List T} (h : Chain K D e ts) :
    ∃ e₀ us vs, ts = us ++ vs ∧ D e₀ us ∧ Steps K D e₀ vs e := by
  induction h with
  | one h => exact ⟨_, _, [], (List.append_nil _).symm, h, .done⟩
  | more _ hop hr ih =>
    obtain ⟨e₀, us, vs, rfl, h₀, hs⟩ := ih
    exact ⟨e₀, us, _, List.append_assoc _ _ _, h₀, hs.snoc hop hr⟩

/-! ## The parser -/

variable (K) in
def loop (operand : Parser T σ ε V) : ℕ → V → Parser T σ ε V
  | 0, l, ts => pure (l, ts)
  | _ + 1, l, [] => pure (l, [])
  | n + 1, l, t :: ts =>
    match K.ops t with
    | some op => do
      let (r, rest) ← operand ts
      let v ← K.act op l r
      loop operand n v rest
    | none => pure (l, t :: ts)

variable (K) in
def chain (operand : Parser T σ ε V) : Parser T σ ε V := fun ts => do
  let (l, rest) ← operand ts
  loop K operand rest.length l rest

/-- A parser reads every derived tree that it can stop after. -/
def Complete (p : Parser T σ ε V) (D : A → List T → Prop) (ev : A → Run σ ε V)
    (stop : List T → Prop) : Prop :=
  ∀ e used rest, D e used → stop rest → p (used ++ rest) = (fun v => (v, rest)) <$> ev e

/-- What a parser has read is derived and has the value that it returns. -/
def Sound (p : Parser T σ ε V) (D : A → List T → Prop) (ev : A → Run σ ε V) : Prop :=
  ∀ ts s v rest s', p ts s = .ok ((v, rest), s') →
    ∃ e used, ts = used ++ rest ∧ D e used ∧ ev e s = .ok (v, s')

variable (K) in
/-- The next token is no operator of the level. -/
def EndsChain (stop : List T → Prop) (ts : List T) : Prop :=
  stop ts ∧ ∀ t ts', ts = t :: ts' → K.ops t = none

variable (K) in
/-- An operator evaluates its operands from left to right. -/
def Evaluates (ev : A → Run σ ε V) : Prop :=
  ∀ op l r, ev (K.join op l r) = do
    let a ← ev l
    let b ← ev r
    K.act op a b

variable {p : Parser T σ ε V}

theorem loop_complete (hp : Complete p D ev stop) (hev : Evaluates K ev)
    (hops : ∀ t ts, K.ops t ≠ none → stop (t :: ts)) {l e : A} {us rest : List T}
    (h : Steps K D l us e) (hrest : EndsChain K stop rest) :
    ∀ n, (us ++ rest).length ≤ n →
      (do let v ← ev l; loop K p n v (us ++ rest)) = (fun v => (v, rest)) <$> ev e := by
  induction h with
  | done =>
    intro n _
    have hend : ∀ v, loop K p n v rest = pure (v, rest) := by
      intro v
      cases n with
      | zero => rfl
      | succ n =>
        cases rest with
        | nil => rfl
        | cons t ts =>
          rw [loop, hrest.2 t ts rfl]
    simp only [List.nil_append, hend]
    rw [map_eq_pure_bind]
  | @step l r e us ts t op hop hr hs ih =>
    intro n hn
    obtain ⟨n, rfl⟩ : ∃ k, n = k + 1 := ⟨n - 1, by simp at hn; omega⟩
    have hstop : stop (ts ++ rest) := by
      cases hs with
      | done => exact hrest.1
      | step hop' _ _ => exact hops _ _ (by rw [hop']; exact Option.some_ne_none _)
    have hread := hp r us (ts ++ rest) hr hstop
    rw [← ih n (by simp at hn ⊢; omega), hev]
    simp only [List.cons_append, List.append_assoc, loop, hop, hread, map_eq_pure_bind, bind_assoc,
      pure_bind]

theorem chain_complete (hp : Complete p D ev stop) (hev : Evaluates K ev)
    (hops : ∀ t ts, K.ops t ≠ none → stop (t :: ts)) :
    Complete (chain K p) (Chain K D) ev (EndsChain K stop) := by
  intro e used rest h hrest
  obtain ⟨e₀, us, vs, rfl, h₀, hs⟩ := h.steps
  have hstop : stop (vs ++ rest) := by
    cases hs with
    | done => exact hrest.1
    | step hop _ _ => exact hops _ _ (by rw [hop]; exact Option.some_ne_none _)
  rw [← loop_complete hp hev hops hs hrest _ (Nat.le_refl _)]
  simp only [chain, List.append_assoc, hp e₀ us (vs ++ rest) h₀ hstop, map_eq_pure_bind,
    bind_assoc, pure_bind]

theorem loop_sound (hp : Sound p D ev) (hev : Evaluates K ev) : ∀ (n : ℕ) {e : A} {used ts : List T}
    {s₀ s s' : σ} {l v : V} {rest : List T}, Chain K D e used → ev e s₀ = .ok (l, s) →
    loop K p n l ts s = .ok ((v, rest), s') →
    ∃ e' us, ts = us ++ rest ∧ Chain K D e' (used ++ us) ∧ ev e' s₀ = .ok (v, s')
  | 0, e, used, ts, s₀, s, s', l, v, rest, hc, hl, h => by
      rw [loop, pure_ok] at h
      obtain ⟨heq, rfl⟩ := h
      cases heq
      exact ⟨e, [], rfl, by rwa [List.append_nil], hl⟩
  | n + 1, e, used, [], s₀, s, s', l, v, rest, hc, hl, h => by
      rw [loop, pure_ok] at h
      obtain ⟨heq, rfl⟩ := h
      cases heq
      exact ⟨e, [], rfl, by rwa [List.append_nil], hl⟩
  | n + 1, e, used, t :: ts, s₀, s, s', l, v, rest, hc, hl, h => by
      rw [loop] at h
      cases hop : K.ops t with
      | none =>
        simp only [hop, pure_ok] at h
        obtain ⟨heq, rfl⟩ := h
        cases heq
        exact ⟨e, [], rfl, by rwa [List.append_nil], hl⟩
      | some op =>
        simp only [hop] at h
        obtain ⟨⟨b, rest'⟩, s₁, hread, hnext⟩ := bind_ok.mp h
        obtain ⟨w, s₂, hact, hloop⟩ := bind_ok.mp hnext
        obtain ⟨r, us, rfl, hr, hb⟩ := hp ts s b rest' s₁ hread
        have hjoin : ev (K.join op e r) s₀ = .ok (w, s₂) := by
          rw [hev]
          exact bind_ok.mpr ⟨l, s, hl, bind_ok.mpr ⟨b, s₁, hb, hact⟩⟩
        obtain ⟨e', vs, rfl, hc', hv⟩ := loop_sound hp hev n (.more hc hop hr) hjoin hloop
        refine ⟨e', t :: us ++ vs, by simp, ?_, hv⟩
        simpa using hc'

theorem chain_sound (hp : Sound p D ev) (hev : Evaluates K ev) :
    Sound (chain K p) (Chain K D) ev := by
  intro ts s v rest s' h
  obtain ⟨⟨l, rest'⟩, s₁, hread, hloop⟩ := bind_ok.mp h
  obtain ⟨e, used, rfl, he, hl⟩ := hp ts s l rest' s₁ hread
  obtain ⟨e', us, rfl, hc, hv⟩ := loop_sound hp hev rest'.length (.one he) hl hloop
  exact ⟨e', used ++ us, (List.append_assoc _ _ _).symm, hc, hv⟩

/-! ## Errors -/

/-- From every state with the invariant, a result keeps it and has a property, and an error has
one. -/
def Yields (Inv : σ → Prop) (E : ε → Prop) (m : Run σ ε V) (Q : V → Prop) : Prop :=
  ∀ s, Inv s → (∀ v s', m s = .ok (v, s') → Inv s' ∧ Q v) ∧ ∀ e, m s = .error e → E e

section

variable {Inv : σ → Prop} {E : ε → Prop} {W : Type}

theorem Yields.pure {v : V} {Q : V → Prop} (h : Q v) :
    Yields Inv E (Pure.pure v : Run σ ε V) Q := by
  intro s hs
  refine ⟨fun w s' hw => ?_, fun e he => ?_⟩
  · obtain ⟨rfl, rfl⟩ := pure_ok.mp hw
    exact ⟨hs, h⟩
  · cases he

theorem Yields.throw {e : ε} {Q : V → Prop} (h : E e) :
    Yields Inv E (MonadExcept.throw e : Run σ ε V) Q := by
  intro s _
  refine ⟨fun v s' hv => ?_, fun e' he => ?_⟩
  · cases hv
  · cases he
    exact h

theorem bind_error {x : Run σ ε V} {f : V → Run σ ε W} {s : σ} {e : ε} :
    (x >>= f) s = .error e ↔ x s = .error e ∨ ∃ v t, x s = .ok (v, t) ∧ f v t = .error e := by
  change (x s >>= fun p => f p.1 p.2) = _ ↔ _
  cases hx : x s with
  | error e' => simp [bind, Except.bind]
  | ok p =>
    obtain ⟨v, t⟩ := p
    simp [bind, Except.bind]

theorem Yields.bind {m : Run σ ε V} {f : V → Run σ ε W} {Q : V → Prop} {R : W → Prop}
    (hm : Yields Inv E m Q) (hf : ∀ v, Q v → Yields Inv E (f v) R) : Yields Inv E (m >>= f) R := by
  intro s hs
  obtain ⟨hok, herr⟩ := hm s hs
  constructor
  · intro w s' h
    obtain ⟨v, t, hv, hw⟩ := bind_ok.mp h
    obtain ⟨ht, hq⟩ := hok v t hv
    exact (hf v hq t ht).1 w s' hw
  · intro e h
    rcases bind_error.mp h with h | ⟨v, t, hv, he⟩
    · exact herr e h
    · obtain ⟨ht, hq⟩ := hok v t hv
      exact (hf v hq t ht).2 e he

theorem loop_yields {P : List T → Prop} (hP : ∀ t ts, P (t :: ts) → P ts)
    (hp : ∀ ts, P ts → Yields Inv E (p ts) fun r => P r.2)
    (hact : ∀ op a b, Yields Inv E (K.act op a b) fun _ => True) : ∀ (n : ℕ) (l : V) (ts : List T),
    P ts → Yields Inv E (loop K p n l ts) fun r => P r.2
  | 0, l, ts, h => .pure h
  | n + 1, l, [], h => .pure h
  | n + 1, l, t :: ts, h => by
      unfold loop
      cases K.ops t with
      | none => exact .pure h
      | some op =>
        exact (hp ts (hP t ts h)).bind fun r hr => (hact op l r.1).bind fun v _ =>
          loop_yields hP hp hact n v r.2 hr

theorem chain_yields {P : List T → Prop} (hP : ∀ t ts, P (t :: ts) → P ts)
    (hp : ∀ ts, P ts → Yields Inv E (p ts) fun r => P r.2)
    (hact : ∀ op a b, Yields Inv E (K.act op a b) fun _ => True) (ts : List T) (h : P ts) :
    Yields Inv E (chain K p ts) fun r => P r.2 :=
  (hp ts h).bind fun r hr => loop_yields hP hp hact r.2.length r.1 r.2 hr

end

/-! ## More permissive parsers -/

/-- Every result of the first is one of the second. -/
def Below (m m' : Run σ ε V) : Prop := ∀ s r, m s = .ok r → m' s = .ok r

section

variable {W : Type} {m m' : Run σ ε V}

theorem Below.refl (m : Run σ ε V) : Below m m := fun _ _ => id

theorem Below.throw {e : ε} : Below (MonadExcept.throw e) m := by
  intro s r h
  cases h

theorem Below.bind {f f' : V → Run σ ε W} (h : Below m m') (hf : ∀ v, Below (f v) (f' v)) :
    Below (m >>= f) (m' >>= f') := by
  rintro s ⟨w, s'⟩ hw
  obtain ⟨v, t, hv, hrest⟩ := bind_ok.mp hw
  exact bind_ok.mpr ⟨v, t, h _ _ hv, hf v _ _ hrest⟩

theorem loop_below {q : Parser T σ ε V} (h : ∀ ts, Below (p ts) (q ts)) : ∀ (n : ℕ) (l : V)
    (ts : List T), Below (loop K p n l ts) (loop K q n l ts)
  | 0, _, _ => .refl _
  | _ + 1, _, [] => .refl _
  | n + 1, l, t :: ts => by
      unfold loop
      cases K.ops t with
      | none => exact .refl _
      | some op => exact (h ts).bind fun r => (Below.refl _).bind fun v => loop_below h n v r.2

theorem chain_below {q : Parser T σ ε V} (h : ∀ ts, Below (p ts) (q ts)) (ts : List T) :
    Below (chain K p ts) (chain K q ts) := (h ts).bind fun r => loop_below h _ r.1 r.2

/-- A chain is its first operand where no operator follows. -/
theorem chain_operand {ts rest : List T} {s s' : σ} {v : V} (h : p ts s = .ok ((v, rest), s'))
    (hrest : ∀ t ts', rest = t :: ts' → K.ops t = none) :
    chain K p ts s = .ok ((v, rest), s') := by
  refine bind_ok.mpr ⟨(v, rest), s', h, ?_⟩
  cases rest with
  | nil => rfl
  | cons t ts' =>
    simp only [List.length_cons, loop, hrest t ts' rfl]
    rfl

theorem operand_of_chain {ts : List T} {s s' : σ} {r : V × List T}
    (h : chain K p ts s = .ok (r, s')) : ∃ r' t, p ts s = .ok (r', t) := by
  obtain ⟨r', t, hp, -⟩ := bind_ok.mp h
  exact ⟨r', t, hp⟩

end

end LeftChain

import JzHdl.Parser.Expression

/-! # Assignment targets

The parser of lvalues repeats the parser of postfix expressions and
concatenations. It is compared with the parser of expressions on the same
tokens.
-/

namespace JzHdl

open LeftChain JZASTNode

/-- The second node of a single index keeps the type of the first, the name of an identifier and
the text of a literal. -/
def copyIndexNode : JZASTNode → JZASTNode
  | mk .identifier name _ _ _ => mk .identifier name none none []
  | mk .literal _ text _ _ => mk .literal none text none []
  | mk type _ _ _ _ => mk type none none none []

def parseLvaluePrimary : NodeParser := parseQualifiedName

section

variable (copy : JZASTNode → Run Unit Unit JZASTNode) (primary : NodeParser)
  (index : ℕ → NodeParser)

/-- Lvalues whose indices are read by a parser that depends on the number of braces around them. The
first argument is what is left of the nesting limit. -/
def lvalueWith : ℕ → ℕ → NodeParser
  | 0, _, _ => throw ()
  | room + 1, depth, ts =>
    match ts with
    | .lbrace :: ts => do
      let (es, rest) ← parseList .rbrace (lvalueWith room (depth + 1)) ts
      pure (concatNode es, rest)
    | ts => do
      let (base, rest) ← primary ts
      parseAccesses copy (index depth) (rest.length + 1) base rest

end

/-- The indices of an lvalue are expressions at depth 0, whatever the braces around them. -/
def lvalueIndex : NodeParser := parseSimpleIndexExpr (parseFullExpression parserExprDepth)

/-- The argument is the lvalue depth counter, which failed lvalues may have left above 0. -/
def parseLvalue (lvalueDepth : ℕ) : NodeParser :=
  lvalueWith (fun msb => pure (copyIndexNode msb)) parseLvaluePrimary (fun _ => lvalueIndex)
    (parserExprDepth - lvalueDepth) 0

/-! ## Texts that are expressions -/

/-- A leaf with no other data than the name of an identifier or the text of a literal. -/
def PlainIndex : JZASTNode → Prop
  | mk type name text blockKind children =>
    (type ≠ .identifier → name = none) ∧ (type ≠ .literal → text = none) ∧ blockKind = none ∧
      children = []

instance : DecidablePred PlainIndex
  | mk type name text blockKind children =>
    decidable_of_iff ((type ≠ .identifier → name.isNone) ∧ (type ≠ .literal → text.isNone) ∧
      blockKind.isNone ∧ children.isEmpty) (by simp [PlainIndex])

theorem copyIndexNode_eq_iff (e : JZASTNode) : copyIndexNode e = e ↔ PlainIndex e := by
  obtain ⟨type, name, text, blockKind, children⟩ := e
  cases type <;> simp [copyIndexNode, PlainIndex, eq_comm]

/-- A plain index is kept, and no other is accepted. -/
def keepPlain (msb : JZASTNode) : Run Unit Unit JZASTNode :=
  if PlainIndex msb then pure msb else throw ()

/-- A name that is not one of the two drivers. -/
def parseNetName : NodeParser
  | .kwGnd :: _ | .kwVcc :: _ => throw ()
  | ts => parseQualifiedName ts

/-- The reader of indices inside an expression with so many braces around it. -/
def indexAt (depth : ℕ) : NodeParser :=
  parseSimpleIndexExpr (parseFullExpression (parserExprDepth - (depth + 1)))

/-- The text is an lvalue whose base names are not `GND` or `VCC`, whose single indices are plain,
and whose indices stay within the nesting limit when the expression around them counts too. -/
def PlainLvalue (lvalueDepth : ℕ) (ts : List JZToken) : Prop :=
  ∃ r, lvalueWith keepPlain parseNetName indexAt (parserExprDepth - lvalueDepth) 0 ts () = .ok r

/-! ## Monotonicity -/

theorem parseElements_below {p q : NodeParser} (h : ∀ ts, Below (p ts) (q ts)) : ∀ n ts,
    Below (parseElements p n ts) (parseElements q n ts)
  | 0, _ => .throw
  | n + 1, ts => by
      refine (h ts).bind fun r => ?_
      obtain ⟨e, rest⟩ := r
      dsimp only
      split
      · exact (parseElements_below h n _).bind fun _ => .refl _
      · exact .refl _

theorem parseList_below {p q : NodeParser} (h : ∀ ts, Below (p ts) (q ts)) (close : JZToken)
    (ts : List JZToken) : Below (parseList close p ts) (parseList close q ts) := by
  unfold parseList
  split
  · exact .refl _
  · exact (parseElements_below h _ _).bind fun _ => .refl _

section

variable {copy copy' : JZASTNode → Run Unit Unit JZASTNode} {index index' : NodeParser}

theorem parseIndexRest_below (hcopy : ∀ e, Below (copy e) (copy' e))
    (hindex : ∀ ts, Below (index ts) (index' ts)) (base msb : JZASTNode) (ts : List JZToken) :
    Below (parseIndexRest copy index base msb ts) (parseIndexRest copy' index' base msb ts) := by
  unfold parseIndexRest
  split
  · exact (hindex _).bind fun _ => .refl _
  · exact .refl _
  · exact (hcopy msb).bind fun _ => .refl _
  · exact .refl _

theorem parseAccess_below (hcopy : ∀ e, Below (copy e) (copy' e))
    (hindex : ∀ ts, Below (index ts) (index' ts)) (base : JZASTNode) (ts : List JZToken) :
    Below (parseAccess copy index base ts) (parseAccess copy' index' base ts) := by
  unfold parseAccess
  split
  · exact .refl _
  · exact .throw
  · exact (hindex _).bind fun r => parseIndexRest_below hcopy hindex base r.1 r.2

theorem parseAccesses_below (hcopy : ∀ e, Below (copy e) (copy' e))
    (hindex : ∀ ts, Below (index ts) (index' ts)) : ∀ (n : ℕ) (base : JZASTNode)
    (ts : List JZToken), Below (parseAccesses copy index n base ts)
      (parseAccesses copy' index' n base ts)
  | 0, _, _ => .throw
  | n + 1, base, ts => by
      unfold parseAccesses
      split
      · exact (parseAccess_below hcopy hindex base _).bind fun r =>
          parseAccesses_below hcopy hindex n r.1 r.2
      · exact .refl _

end

section

variable {p q : NodeParser} (h : ∀ ts, Below (p ts) (q ts))
include h

theorem parseSimpleIndexExpr_below : ∀ ts,
    Below (parseSimpleIndexExpr p ts) (parseSimpleIndexExpr q ts)
  | [] => .refl _
  | t :: ts => by
      change Below (if startsIndex t then p (t :: ts) else throw ())
        (if startsIndex t then q (t :: ts) else throw ())
      split
      · exact h _
      · exact .refl _

theorem parsePrimaryExpr_below (ts : List JZToken) :
    Below (parsePrimaryExpr p ts) (parsePrimaryExpr q ts) := by
  unfold parsePrimaryExpr
  split
  · exact .refl _
  · exact .refl _
  · exact .refl _
  · exact .refl _
  · exact (h _).bind fun _ => .refl _
  · split
    · exact (parseList_below h _ _).bind fun _ => .refl _
    · exact .refl _

theorem parsePostfixExpr_below (ts : List JZToken) :
    Below (parsePostfixExpr p ts) (parsePostfixExpr q ts) :=
  (parsePrimaryExpr_below h ts).bind fun _ =>
    parseAccesses_below (fun _ => .refl _) (parseSimpleIndexExpr_below h) _ _ _

theorem parseConcatOrPrimaryExpr_below (ts : List JZToken) :
    Below (parseConcatOrPrimaryExpr p ts) (parseConcatOrPrimaryExpr q ts) := by
  unfold parseConcatOrPrimaryExpr
  split
  · split
    · exact (h _).bind fun _ => .refl _
    · exact (parseList_below h _ _).bind fun _ => .refl _
  · exact parsePostfixExpr_below h _

theorem parseUnaryExpr_below : ∀ ts, Below (parseUnaryExpr p ts) (parseUnaryExpr q ts)
  | [] => parseConcatOrPrimaryExpr_below h []
  | t :: ts => by
      unfold parseUnaryExpr
      split
      · exact (parseUnaryExpr_below ts).bind fun _ => .refl _
      · exact parseConcatOrPrimaryExpr_below h _

theorem parseLogicalOrExpr_below : ∀ ts,
    Below (parseLogicalOrExpr p ts) (parseLogicalOrExpr q ts) :=
  chain_below (chain_below (chain_below (chain_below (chain_below (chain_below (chain_below
    (chain_below (chain_below (chain_below (parseUnaryExpr_below h))))))))))

theorem parseTernaryFrom_below : ∀ n ts,
    Below (parseTernaryFrom p n ts) (parseTernaryFrom q n ts)
  | 0, _ => .throw
  | n + 1, ts => by
      refine (parseLogicalOrExpr_below h ts).bind fun r => ?_
      obtain ⟨cond, rest⟩ := r
      dsimp only
      split
      · refine (h _).bind fun r => ?_
        obtain ⟨onTrue, rest⟩ := r
        dsimp only
        split
        · exact (parseTernaryFrom_below n _).bind fun _ => .refl _
        · exact .refl _
      · exact .refl _

end

/-- A larger nesting limit changes no result. -/
theorem parseFullExpression_below : ∀ {room room' : ℕ}, room ≤ room' → ∀ ts,
    Below (parseFullExpression room ts) (parseFullExpression room' ts)
  | 0, _, _, _ => .throw
  | _ + 1, _ + 1, hle, ts =>
    parseTernaryFrom_below (parseFullExpression_below (Nat.le_of_succ_le_succ hle)) _ ts

theorem lvalueWith_below {copy copy' : JZASTNode → Run Unit Unit JZASTNode}
    {primary primary' : NodeParser} {index index' : ℕ → NodeParser}
    (hcopy : ∀ e, Below (copy e) (copy' e)) (hprimary : ∀ ts, Below (primary ts) (primary' ts))
    (hindex : ∀ d ts, Below (index d ts) (index' d ts)) : ∀ (room d : ℕ) (ts : List JZToken),
    Below (lvalueWith copy primary index room d ts) (lvalueWith copy' primary' index' room d ts)
  | 0, _, _ => .throw
  | room + 1, d, ts => by
      unfold lvalueWith
      split
      · exact (parseList_below (lvalueWith_below hcopy hprimary hindex room (d + 1)) _ _).bind
          fun _ => .refl _
      · exact (hprimary _).bind fun r => parseAccesses_below hcopy (hindex d) _ _ _

theorem keepPlain_below_copy (e : JZASTNode) :
    Below (keepPlain e) (pure (copyIndexNode e) : Run Unit Unit JZASTNode) := by
  unfold keepPlain
  split
  · rename_i hplain
    rw [(copyIndexNode_eq_iff e).mpr hplain]
    exact .refl _
  · exact .throw

theorem keepPlain_below_clone (e : JZASTNode) :
    Below (keepPlain e) (pure (cloneAstTree e) : Run Unit Unit JZASTNode) := by
  unfold keepPlain
  split
  · rw [cloneAstTree_eq]
    exact .refl _
  · exact .throw

theorem parseNetName_below (ts : List JZToken) :
    Below (parseNetName ts) (parseQualifiedName ts) := by
  unfold parseNetName
  split
  · exact .throw
  · exact .throw
  · exact .refl _

theorem parseNetName_eq {t : JZToken} (h : ¬ (t = .kwGnd ∨ t = .kwVcc)) (ts : List JZToken) :
    parseNetName (t :: ts) = parseQualifiedName (t :: ts) := by
  cases t with
  | kwGnd => exact absurd (.inl rfl) h
  | kwVcc => exact absurd (.inr rfl) h
  | _ => rfl

/-! ## The end of an lvalue -/

/-- An element of a concatenation ends at a comma or at the closing brace. -/
def EndsLvalue (ts : List JZToken) : Prop :=
  ∀ t ts', ts = t :: ts' → t = .comma ∨ t = .rbrace

/-- A token that continues no expression. -/
def EndsOperand (ts : List JZToken) : Prop :=
  ∀ t ts', ts = t :: ts' → t = .comma ∨ t = .rbrace ∨ t = .dot

theorem EndsLvalue.operand {ts : List JZToken} (h : EndsLvalue ts) : EndsOperand ts :=
  fun t ts' heq => (h t ts' heq).imp_right Or.inl

theorem endsLvalue_nil : EndsLvalue [] := nofun

theorem endsLvalue_comma (ts : List JZToken) : EndsLvalue (.comma :: ts) := by
  rintro _ _ ⟨⟩
  exact .inl rfl

theorem endsLvalue_head {ts : List JZToken} (h : ts.head? = some .rbrace) : EndsLvalue ts := by
  rintro t ts' rfl
  exact .inr (Option.some.inj h)

theorem EndsOperand.no_operator {ts : List JZToken} (h : EndsOperand ts) (k : ℕ) :
    ∀ t ts', ts = t :: ts' → (exprLevel k).ops t = none := by
  intro t ts' heq
  change exprOps k t = none
  unfold exprOps
  rcases h t ts' heq with rfl | rfl | rfl <;> split <;> simp_all

section

variable {expr : NodeParser} {ts rest : List JZToken} {e : JZASTNode}

/-- A unary expression that ends so is a whole expression. -/
theorem parseTernaryExpr_of_unary (h : parseUnaryExpr expr ts () = .ok ((e, rest), ()))
    (hrest : EndsOperand rest) : parseTernaryExpr expr ts () = .ok ((e, rest), ()) := by
  have hor : parseLogicalOrExpr expr ts () = .ok ((e, rest), ()) :=
    chain_operand (chain_operand (chain_operand (chain_operand (chain_operand (chain_operand
      (chain_operand (chain_operand (chain_operand (chain_operand h
        (hrest.no_operator 1)) (hrest.no_operator 2)) (hrest.no_operator 3)) (hrest.no_operator 4))
        (hrest.no_operator 5)) (hrest.no_operator 6)) (hrest.no_operator 7)) (hrest.no_operator 8))
        (hrest.no_operator 9)) (hrest.no_operator 10)
  refine bind_ok.mpr ⟨_, _, hor, ?_⟩
  cases rest with
  | nil => rfl
  | cons t ts' =>
    rcases hrest t ts' rfl with rfl | rfl | rfl
    · rfl
    · rfl
    · rfl

theorem unary_of_parseTernaryExpr {r : JZASTNode × List JZToken}
    (h : parseTernaryExpr expr ts () = .ok (r, ())) :
    ∃ r', parseUnaryExpr expr ts () = .ok (r', ()) := by
  obtain ⟨r₁₀, _, h₁₀, -⟩ := bind_ok.mp h
  obtain ⟨r₉, _, h₉⟩ := operand_of_chain h₁₀
  obtain ⟨r₈, _, h₈⟩ := operand_of_chain h₉
  obtain ⟨r₇, _, h₇⟩ := operand_of_chain h₈
  obtain ⟨r₆, _, h₆⟩ := operand_of_chain h₇
  obtain ⟨r₅, _, h₅⟩ := operand_of_chain h₆
  obtain ⟨r₄, _, h₄⟩ := operand_of_chain h₅
  obtain ⟨r₃, _, h₃⟩ := operand_of_chain h₄
  obtain ⟨r₂, _, h₂⟩ := operand_of_chain h₃
  obtain ⟨r₁, _, h₁⟩ := operand_of_chain h₂
  obtain ⟨r', _, h'⟩ := operand_of_chain h₁
  exact ⟨r', h'⟩

/-! ## Names -/

theorem parseQualifiedName_head (h : parseQualifiedName ts () = .ok ((e, rest), ())) :
    ∃ t ts' lexeme, ts = t :: ts' ∧ declIdentifier t = some lexeme := by
  cases ts with
  | nil => cases h
  | cons t ts' =>
    unfold parseQualifiedName at h
    cases hdecl : declIdentifier t with
    | none =>
      simp only [hdecl] at h
      cases h
    | some lexeme => exact ⟨t, ts', lexeme, rfl, hdecl⟩

/-- An expression that starts with a name is a postfix expression. -/
theorem parseUnaryExpr_name {t : JZToken} {lexeme : String} (h : declIdentifier t = some lexeme)
    (ts : List JZToken) : parseUnaryExpr expr (t :: ts) = parsePostfixExpr expr (t :: ts) := by
  cases t with
  | identifier | keyword | kwConfig | kwGnd | kwVcc => rfl
  | _ => cases h

theorem qualifiedName_paren {t : JZToken} {lexeme : String} (h : declIdentifier t = some lexeme)
    (hname : parseQualifiedName (t :: .lparen :: ts) () = .ok ((e, rest), ())) :
    rest = .lparen :: ts := by
  unfold parseQualifiedName qualifiedNameLoop at hname
  simp only [h] at hname
  cases hname
  rfl

theorem builtinCall_none (h : parseQualifiedName ts () = .ok ((e, rest), ()))
    (hrest : ∀ ts', rest ≠ .lparen :: ts') : builtinCall ts = none := by
  unfold builtinCall
  split
  · exact absurd (qualifiedName_paren rfl h) (hrest _)
  · rfl

/-- A name that is no driver is read as in an lvalue. -/
theorem parsePrimaryExpr_name (h : parseNetName ts () = .ok ((e, rest), ()))
    (hrest : ∀ ts', rest ≠ .lparen :: ts') :
    parsePrimaryExpr expr ts () = .ok ((e, rest), ()) := by
  have hname := parseNetName_below ts _ _ h
  have hcall := builtinCall_none hname hrest
  obtain ⟨t, ts', lexeme, rfl, hdecl⟩ := parseQualifiedName_head hname
  cases t with
  | identifier | keyword | kwConfig =>
    unfold parsePrimaryExpr
    simp only [hcall]
    exact hname
  | kwGnd | kwVcc => cases h
  | _ => cases hdecl

/-- Accesses that end so do not start with a parenthesis. -/
theorem no_paren_of_accesses {copy : JZASTNode → Run Unit Unit JZASTNode} {index : NodeParser}
    {n : ℕ} {base : JZASTNode} {rest₀ : List JZToken}
    (h : parseAccesses copy index n base rest₀ () = .ok ((e, rest), ())) (hrest : EndsLvalue rest) :
    ∀ ts', rest₀ ≠ .lparen :: ts' := by
  rintro ts' rfl
  cases n with
  | zero => cases h
  | succ n =>
    obtain rfl : .lparen :: ts' = rest := by cases h; rfl
    rcases hrest _ _ rfl with hne | hne
    · cases hne
    · cases hne

end

/-! ## Plain lvalues are expressions -/

theorem parseElements_map {p q : NodeParser} (h : ∀ ts e rest, p ts () = .ok ((e, rest), ()) →
    EndsLvalue rest → q ts () = .ok ((e, rest), ())) : ∀ (n : ℕ) {ts rest : List JZToken}
    {es : List JZASTNode}, parseElements p n ts () = .ok ((es, rest), ()) →
    rest.head? = some .rbrace → parseElements q n ts () = .ok ((es, rest), ())
  | 0, _, _, _, hrun, _ => by cases hrun
  | n + 1, ts, rest, es, hrun, hrest => by
      obtain ⟨⟨e, r⟩, _, helem, hnext⟩ := bind_ok.mp hrun
      dsimp only at hnext
      split at hnext
      · obtain ⟨⟨es', rest'⟩, _, hmore, hret⟩ := bind_ok.mp hnext
        cases hret
        exact bind_ok.mpr ⟨_, _, h _ _ _ helem (endsLvalue_comma _),
          bind_ok.mpr ⟨_, _, parseElements_map h n hmore hrest, rfl⟩⟩
      · rename_i hcomma
        cases hnext
        refine bind_ok.mpr ⟨_, _, h _ _ _ helem (endsLvalue_head hrest), ?_⟩
        dsimp only
        split
        · exact absurd rfl (hcomma _)
        · rfl

theorem parseList_map {p q : NodeParser} (h : ∀ ts e rest, p ts () = .ok ((e, rest), ()) →
    EndsLvalue rest → q ts () = .ok ((e, rest), ())) {ts rest : List JZToken} {es : List JZASTNode}
    (hrun : parseList .rbrace p ts () = .ok ((es, rest), ())) :
    parseList .rbrace q ts () = .ok ((es, rest), ()) := by
  unfold parseList at hrun ⊢
  split at hrun
  · rename_i hclose
    rw [if_pos hclose]
    exact hrun
  · rename_i hclose
    rw [if_neg hclose]
    obtain ⟨⟨es', r⟩, _, helems, hfin⟩ := bind_ok.mp hrun
    dsimp only at hfin
    split at hfin
    · rename_i hhead
      exact bind_ok.mpr ⟨_, _, parseElements_map h _ helems hhead, by
        dsimp only
        rw [if_pos hhead]
        exact hfin⟩
    · cases hfin

section

variable {copy : JZASTNode → Run Unit Unit JZASTNode} {primary : NodeParser}
  {index : ℕ → NodeParser} {room d : ℕ} {ts : List JZToken}

theorem lvalueWith_name (h : ∀ ts', ts ≠ .lbrace :: ts') :
    lvalueWith copy primary index (room + 1) d ts = primary ts >>= fun r =>
      parseAccesses copy (index d) (r.2.length + 1) r.1 r.2 := by
  unfold lvalueWith
  split
  · exact absurd rfl (h _)
  · rfl

/-- Elements of an lvalue do not start with a number, so braces are no replication. -/
theorem replicationCount_none (hprimary : ∀ ts, Below (primary ts) (parseQualifiedName ts))
    {r : List JZASTNode × List JZToken}
    (h : parseList .rbrace (lvalueWith copy primary index room d) ts () = .ok (r, ())) :
    replicationCount ts = none := by
  have hfirst : ∀ t ts', ts = t :: ts' → t ≠ .rbrace →
      ∃ r', lvalueWith copy primary index room d (t :: ts') () = .ok (r', ()) := by
    rintro t ts' rfl hne
    unfold parseList at h
    rw [if_neg (by simpa using hne)] at h
    obtain ⟨_, _, helems, -⟩ := bind_ok.mp h
    obtain ⟨r', _, helem, -⟩ := bind_ok.mp helems
    exact ⟨r', helem⟩
  have hnumber : ∀ t ts', declIdentifier t = none → t ≠ .lbrace → t ≠ .rbrace → ts ≠ t :: ts' := by
    intro t ts' hdecl hbrace hne heq
    obtain ⟨r', hrun⟩ := hfirst t ts' heq hne
    cases room with
    | zero => cases hrun
    | succ room =>
      rw [lvalueWith_name (by rintro _ ⟨⟩; exact hbrace rfl)] at hrun
      obtain ⟨⟨e, rest⟩, _, hname, -⟩ := bind_ok.mp hrun
      obtain ⟨t', ts'', lexeme, hts, hsome⟩ := parseQualifiedName_head (hprimary _ _ _ hname)
      cases hts
      rw [hdecl] at hsome
      cases hsome
  unfold replicationCount
  split
  · exact absurd rfl (hnumber _ _ rfl nofun nofun)
  · exact absurd rfl (hnumber _ _ rfl nofun nofun)
  · rfl

end

theorem plain_accesses {room n : ℕ} {base e : JZASTNode} {ts rest : List JZToken}
    (h : parseAccesses keepPlain (indexAt room) n base ts () = .ok ((e, rest), ())) :
    parseAccesses (fun msb => pure (cloneAstTree msb)) (indexAt room) n base ts () =
      .ok ((e, rest), ()) :=
  parseAccesses_below keepPlain_below_clone (fun _ => .refl _) n base ts _ _ h

theorem parseFullExpression_of_plain : ∀ (room : ℕ) {d : ℕ}, room + d ≤ parserExprDepth →
    ∀ {ts rest : List JZToken} {e : JZASTNode},
      lvalueWith keepPlain parseNetName indexAt room d ts () = .ok ((e, rest), ()) →
      EndsLvalue rest → parseFullExpression (parserExprDepth - d) ts () = .ok ((e, rest), ())
  | 0, _, _, _, _, _, h, _ => by cases h
  | room + 1, d, hroom, ts, rest, e, h, hrest => by
      have hexpr : parserExprDepth - d = parserExprDepth - (d + 1) + 1 := by omega
      rw [hexpr]
      refine parseTernaryExpr_of_unary ?_ hrest.operand
      by_cases hbrace : ∃ ts', ts = .lbrace :: ts'
      · obtain ⟨ts', rfl⟩ := hbrace
        obtain ⟨⟨es, r⟩, _, hlist, hret⟩ := bind_ok.mp h
        have hcount := replicationCount_none parseNetName_below hlist
        cases hret
        change parseConcatOrPrimaryExpr _ (.lbrace :: _) () = _
        unfold parseConcatOrPrimaryExpr
        simp only [hcount]
        exact bind_ok.mpr ⟨_, _, parseList_map (fun ts e rest hrun hends =>
          parseFullExpression_of_plain room (by omega) hrun hends) hlist, rfl⟩
      · rw [lvalueWith_name fun ts' heq => hbrace ⟨ts', heq⟩] at h
        obtain ⟨⟨base, r⟩, _, hname, haccess⟩ := bind_ok.mp h
        obtain ⟨t, ts', lexeme, rfl, hdecl⟩ :=
          parseQualifiedName_head (parseNetName_below ts _ _ hname)
        rw [parseUnaryExpr_name hdecl]
        exact bind_ok.mpr ⟨_, _, parsePrimaryExpr_name hname (no_paren_of_accesses haccess hrest),
          plain_accesses haccess⟩

/-! ## Lvalues that are expressions are plain -/

/-- Bases of one type, which are equal if they are no identifiers. -/
def SameBase (b b' : JZASTNode) : Prop := b'.type = b.type ∧ (b.type ≠ .identifier → b' = b)

theorem parseMember_ok {base e : JZASTNode} {kind : Option String} {index : List JZASTNode}
    {ts rest : List JZToken} (h : parseMember base kind index ts () = .ok ((e, rest), ())) :
    base.type = .identifier ∧ e.type = .indexedMemberAccess ∧ rest = ts.tail := by
  cases ts with
  | nil => cases h
  | cons t ts =>
    unfold parseMember at h
    cases hdecl : declIdentifier t with
    | none =>
      simp only [hdecl] at h
      cases h
    | some member =>
      simp only [hdecl] at h
      split at h
      · rename_i hbase
        cases h
        exact ⟨hbase.1, rfl, rfl⟩
      · cases h

theorem sameBase_of_identifier {b b' : JZASTNode} (h : b.type = .identifier)
    (h' : b'.type = .identifier) : SameBase b b' :=
  ⟨h'.trans h.symm, fun hne => absurd h hne⟩

section

variable {index index' : NodeParser} {b b' e e' : JZASTNode} {ts rest rest' : List JZToken}

section

variable {copy : JZASTNode → Run Unit Unit JZASTNode}

theorem parseIndexRest_single (h : ∀ ts', ts = .dot :: ts' → False) (msb : JZASTNode) :
    parseIndexRest copy index b msb (.rbracket :: ts) = copy msb >>= fun lsb =>
      pure (sliceNode b msb lsb, ts) := by
  unfold parseIndexRest
  split
  · rename_i heq
    cases heq
  · rename_i heq
    cases heq
    exact absurd rfl (h _)
  · rename_i heq
    cases heq
    rfl
  · rename_i hne
    exact absurd rfl (hne _)

theorem parseAccess_index (h : ∀ ts', ts = .opStar :: ts' → False) :
    parseAccess copy index b ts = index ts >>= fun r =>
      parseIndexRest copy index b r.1 r.2 := by
  unfold parseAccess
  split
  · exact absurd rfl (h _)
  · exact absurd rfl (h _)
  · rfl

theorem parseAccesses_end (h : ∀ ts', ts = .lbracket :: ts' → False) (n : ℕ) :
    parseAccesses copy index (n + 1) b ts = pure (b, ts) := by
  unfold parseAccesses
  split
  · exact absurd rfl (h _)
  · rfl

end

/-- Both parsers read the same. If they make the same node, then the bases agree, and a single index
is plain. -/
theorem parseIndexRest_same (hindex : ∀ ts, Below (index' ts) (index ts)) {msb : JZASTNode}
    (h : parseIndexRest (fun msb => pure (copyIndexNode msb)) index b msb ts () =
      .ok ((e, rest), ()))
    (h' : parseIndexRest (fun msb => pure (cloneAstTree msb)) index' b' msb ts () =
      .ok ((e', rest'), ())) :
    rest' = rest ∧ e.type ≠ .identifier ∧ (e' = e → SameBase b b' ∧
      parseIndexRest keepPlain index' b msb ts () = .ok ((e, rest), ())) := by
  unfold parseIndexRest at h
  split at h
  · unfold parseIndexRest at h' ⊢
    obtain ⟨⟨lsb', r'⟩, _, hlsb', hnext'⟩ := bind_ok.mp h'
    obtain ⟨⟨lsb, r⟩, _, hlsb, hnext⟩ := bind_ok.mp h
    have heq := (hindex _ _ _ hlsb').symm.trans hlsb
    cases heq
    dsimp only at hnext hnext'
    split at hnext
    · cases hnext
      cases hnext'
      refine ⟨rfl, nofun, fun hslice => ?_⟩
      obtain rfl : b' = b := by cases hslice; rfl
      exact ⟨⟨rfl, fun _ => rfl⟩, bind_ok.mpr ⟨_, _, hlsb', rfl⟩⟩
    · cases hnext
  · obtain ⟨hb, he, hrest⟩ := parseMember_ok h
    obtain ⟨hb', -, hrest'⟩ := parseMember_ok h'
    exact ⟨hrest'.trans hrest.symm, by rw [he]; nofun,
      fun _ => ⟨sameBase_of_identifier hb hb', h⟩⟩
  · rename_i hdot
    rw [parseIndexRest_single hdot] at h' ⊢
    cases h
    cases h'
    refine ⟨rfl, nofun, fun hslice => ?_⟩
    rw [cloneAstTree_eq] at hslice
    obtain ⟨rfl, hcopy⟩ : b' = b ∧ msb = copyIndexNode msb := by
      simp only [sliceNode, JZASTNode.mk.injEq, List.cons.injEq] at hslice
      exact ⟨hslice.2.2.2.2.1, hslice.2.2.2.2.2.2.1⟩
    have hplain := (copyIndexNode_eq_iff msb).mp hcopy.symm
    refine ⟨⟨rfl, fun _ => rfl⟩, ?_⟩
    unfold keepPlain
    rw [if_pos hplain, ← hcopy]
    rfl
  · cases h

theorem parseAccess_same (hindex : ∀ ts, Below (index' ts) (index ts))
    (h : parseAccess (fun msb => pure (copyIndexNode msb)) index b ts () = .ok ((e, rest), ()))
    (h' : parseAccess (fun msb => pure (cloneAstTree msb)) index' b' ts () =
      .ok ((e', rest'), ())) :
    rest' = rest ∧ e.type ≠ .identifier ∧ (e' = e → SameBase b b' ∧
      parseAccess keepPlain index' b ts () = .ok ((e, rest), ())) := by
  unfold parseAccess at h
  split at h
  · obtain ⟨hb, he, hrest⟩ := parseMember_ok h
    obtain ⟨hb', -, hrest'⟩ := parseMember_ok h'
    exact ⟨hrest'.trans hrest.symm, by rw [he]; nofun,
      fun _ => ⟨sameBase_of_identifier hb hb', h⟩⟩
  · cases h
  · rename_i hwild hstar
    rw [parseAccess_index hstar] at h' ⊢
    obtain ⟨⟨msb', r'⟩, _, hmsb', hnext'⟩ := bind_ok.mp h'
    obtain ⟨⟨msb, r⟩, _, hmsb, hnext⟩ := bind_ok.mp h
    have heq := (hindex _ _ _ hmsb').symm.trans hmsb
    cases heq
    obtain ⟨hrest, htype, hsame⟩ := parseIndexRest_same hindex hnext hnext'
    refine ⟨hrest, htype, fun hee => ?_⟩
    obtain ⟨hbase, hplain⟩ := hsame hee
    exact ⟨hbase, bind_ok.mpr ⟨_, _, hmsb', hplain⟩⟩

theorem parseAccesses_same (hindex : ∀ ts, Below (index' ts) (index ts)) : ∀ (n : ℕ)
    {b b' e e' : JZASTNode} {ts rest rest' : List JZToken},
    parseAccesses (fun msb => pure (copyIndexNode msb)) index n b ts () = .ok ((e, rest), ()) →
    parseAccesses (fun msb => pure (cloneAstTree msb)) index' n b' ts () = .ok ((e', rest'), ()) →
    rest' = rest ∧ (e' = e → SameBase b b' ∧
      parseAccesses keepPlain index' n b ts () = .ok ((e, rest), ()))
  | 0, _, _, _, _, _, _, _, h, _ => by cases h
  | n + 1, b, b', e, e', ts, rest, rest', h, h' => by
      unfold parseAccesses at h
      split at h
      · unfold parseAccesses at h' ⊢
        obtain ⟨⟨c', r'⟩, _, haccess', hnext'⟩ := bind_ok.mp h'
        obtain ⟨⟨c, r⟩, _, haccess, hnext⟩ := bind_ok.mp h
        obtain ⟨rfl, htype, hsame⟩ := parseAccess_same hindex haccess haccess'
        obtain ⟨hrest, hmore⟩ := parseAccesses_same hindex n hnext hnext'
        refine ⟨hrest, fun hee => ?_⟩
        obtain ⟨hbase, hplain⟩ := hmore hee
        obtain ⟨hbase', hplain'⟩ := hsame (hbase.2 htype)
        exact ⟨hbase', bind_ok.mpr ⟨_, _, hplain', hplain⟩⟩
      · rename_i hbracket
        rw [parseAccesses_end hbracket] at h' ⊢
        cases h
        cases h'
        refine ⟨rfl, fun hee => ?_⟩
        subst hee
        exact ⟨⟨rfl, fun _ => rfl⟩, rfl⟩

end

theorem parseElements_same {p q c : NodeParser} (h : ∀ ts e rest e' rest',
    p ts () = .ok ((e, rest), ()) → EndsLvalue rest → q ts () = .ok ((e', rest'), ()) →
    EndsLvalue rest' → rest' = rest ∧ (e' = e → c ts () = .ok ((e, rest), ()))) : ∀ (n : ℕ)
    {ts rest rest' : List JZToken} {es es' : List JZASTNode},
    parseElements p n ts () = .ok ((es, rest), ()) → rest.head? = some .rbrace →
    parseElements q n ts () = .ok ((es', rest'), ()) → rest'.head? = some .rbrace →
    rest' = rest ∧ (es' = es → parseElements c n ts () = .ok ((es, rest), ()))
  | 0, _, _, _, _, _, hrun, _, _, _ => by cases hrun
  | n + 1, ts, rest, rest', es, es', hrun, hrest, hrun', hrest' => by
      obtain ⟨⟨e, r⟩, _, helem, hnext⟩ := bind_ok.mp hrun
      obtain ⟨⟨e', r'⟩, _, helem', hnext'⟩ := bind_ok.mp hrun'
      have hends : EndsLvalue r := by
        dsimp only at hnext
        split at hnext
        · exact endsLvalue_comma _
        · cases hnext
          exact endsLvalue_head hrest
      have hends' : EndsLvalue r' := by
        dsimp only at hnext'
        split at hnext'
        · exact endsLvalue_comma _
        · cases hnext'
          exact endsLvalue_head hrest'
      obtain ⟨rfl, helem_same⟩ := h _ _ _ _ _ helem hends helem' hends'
      dsimp only at hnext hnext'
      split at hnext
      · obtain ⟨⟨tail, s⟩, _, hmore, hret⟩ := bind_ok.mp hnext
        obtain ⟨⟨tail', s'⟩, _, hmore', hret'⟩ := bind_ok.mp hnext'
        cases hret
        cases hret'
        obtain ⟨rfl, hmore_same⟩ := parseElements_same h n hmore hrest hmore' hrest'
        refine ⟨rfl, fun heq => ?_⟩
        obtain ⟨rfl, rfl⟩ := List.cons.inj heq
        exact bind_ok.mpr ⟨_, _, helem_same rfl, bind_ok.mpr ⟨_, _, hmore_same rfl, rfl⟩⟩
      · rename_i hcomma
        split at hnext'
        · exact absurd rfl (hcomma _)
        · cases hnext
          cases hnext'
          refine ⟨rfl, fun heq => ?_⟩
          obtain ⟨rfl, -⟩ := List.cons.inj heq
          refine bind_ok.mpr ⟨_, _, helem_same rfl, ?_⟩
          dsimp only
          split
          · exact absurd rfl (hcomma _)
          · rfl

theorem parseList_same {p q c : NodeParser} (h : ∀ ts e rest e' rest',
    p ts () = .ok ((e, rest), ()) → EndsLvalue rest → q ts () = .ok ((e', rest'), ()) →
    EndsLvalue rest' → rest' = rest ∧ (e' = e → c ts () = .ok ((e, rest), ())))
    {ts rest rest' : List JZToken} {es es' : List JZASTNode}
    (hrun : parseList .rbrace p ts () = .ok ((es, rest), ()))
    (hrun' : parseList .rbrace q ts () = .ok ((es', rest'), ())) :
    rest' = rest ∧ (es' = es → parseList .rbrace c ts () = .ok ((es, rest), ())) := by
  unfold parseList at hrun hrun' ⊢
  by_cases hclose : ts.head? = some .rbrace
  · rw [if_pos hclose] at hrun hrun' ⊢
    cases hrun
    cases hrun'
    exact ⟨rfl, fun _ => rfl⟩
  · rw [if_neg hclose] at hrun hrun' ⊢
    obtain ⟨⟨es₁, r⟩, _, helems, hfin⟩ := bind_ok.mp hrun
    obtain ⟨⟨es₂, r'⟩, _, helems', hfin'⟩ := bind_ok.mp hrun'
    dsimp only at hfin hfin'
    split at hfin
    · rename_i hhead
      split at hfin'
      · rename_i hhead'
        obtain ⟨rfl, hsame⟩ := parseElements_same h _ helems hhead helems' hhead'
        cases hfin
        cases hfin'
        refine ⟨rfl, fun heq => bind_ok.mpr ⟨_, _, hsame heq, ?_⟩⟩
        dsimp only
        rw [if_pos hhead]
        rfl
      · cases hfin'
    · cases hfin

theorem identifierNode_type (buf : String) : (identifierNode buf).type ≠ .specialDriver := by
  change (if '.' ∈ buf.toList then JZASTNodeType.qualifiedIdentifier else .identifier) ≠ _
  split
  · nofun
  · nofun

theorem parseQualifiedName_last {t : JZToken} {lexeme : String} {ts : List JZToken}
    (h : declIdentifier t = some lexeme) (hdot : ∀ ts', ts ≠ .dot :: ts') :
    parseQualifiedName (t :: ts) = pure (identifierNode ("" ++ lexeme), ts) := by
  unfold parseQualifiedName qualifiedNameLoop
  simp only [h]

section

variable {room d : ℕ} {ts rest rest' : List JZToken} {e e' : JZASTNode}

theorem indexAt_below (d : ℕ) (ts : List JZToken) : Below (indexAt d ts) (lvalueIndex ts) :=
  parseSimpleIndexExpr_below (parseFullExpression_below (Nat.sub_le _ _)) ts

/-- A driver is a name to an lvalue only, and then the trees differ. -/
theorem driver_differs {t : JZToken} {lexeme kind : String} {base : JZASTNode}
    {rest₀ : List JZToken} {r : JZASTNode × List JZToken}
    (hdecl : declIdentifier t = some lexeme)
    (hname : parseQualifiedName (t :: ts) () = .ok ((base, rest₀), ()))
    (haccess : parseAccesses (fun msb => pure (copyIndexNode msb)) lvalueIndex (rest₀.length + 1)
      base rest₀ () = .ok ((e, rest), ())) (hrest : EndsLvalue rest)
    (hpost : parseAccesses (fun msb => pure (cloneAstTree msb)) (indexAt d) (ts.length + 1)
      (specialNode kind) ts () = .ok (r, ())) :
    EndsOperand r.2 ∧ (EndsLvalue r.2 → r.2 = rest ∧ r.1 ≠ e) := by
  obtain ⟨e', rest'⟩ := r
  by_cases hdot : ∃ ts', ts = .dot :: ts'
  · obtain ⟨ts', rfl⟩ := hdot
    rw [parseAccesses_end (by rintro _ ⟨⟩)] at hpost
    cases hpost
    refine ⟨?_, fun hends => ?_⟩
    · rintro _ _ ⟨⟩
      exact .inr (.inr rfl)
    · rcases hends _ _ rfl with hne | hne
      · cases hne
      · cases hne
  · rw [parseQualifiedName_last hdecl fun ts' heq => hdot ⟨ts', heq⟩] at hname
    cases hname
    obtain ⟨rfl, hsame⟩ := parseAccesses_same (indexAt_below d) _ haccess hpost
    refine ⟨hrest.operand, fun _ => ⟨rfl, fun heq => ?_⟩⟩
    exact identifierNode_type _ (hsame heq).1.1.symm

/-- An expression that ends so is the postfix expression it starts with. -/
theorem expression_of_unary {expr : NodeParser} {r : JZASTNode × List JZToken}
    (hexpr : parseTernaryExpr expr ts () = .ok ((e', rest'), ()))
    (h : parseUnaryExpr expr ts () = .ok (r, ())) (hends : EndsOperand r.2) : r = (e', rest') := by
  have hwhole := parseTernaryExpr_of_unary h hends
  rw [hwhole] at hexpr
  cases hexpr
  rfl

theorem lvalue_same : ∀ (room : ℕ) {d : ℕ}, room + d ≤ parserExprDepth →
    ∀ {ts rest rest' : List JZToken} {e e' : JZASTNode},
      lvalueWith (fun msb => pure (copyIndexNode msb)) parseLvaluePrimary (fun _ => lvalueIndex)
        room d ts () = .ok ((e, rest), ()) → EndsLvalue rest →
      parseFullExpression (parserExprDepth - d) ts () = .ok ((e', rest'), ()) → EndsLvalue rest' →
      rest' = rest ∧ (e' = e →
        lvalueWith keepPlain parseNetName indexAt room d ts () = .ok ((e, rest), ()))
  | 0, _, _, _, _, _, _, _, h, _, _, _ => by cases h
  | room + 1, d, hroom, ts, rest, rest', e, e', h, hrest, hexpr, hrest' => by
      have hdepth : parserExprDepth - d = parserExprDepth - (d + 1) + 1 := by omega
      rw [hdepth] at hexpr
      obtain ⟨r, hunary⟩ := unary_of_parseTernaryExpr hexpr
      by_cases hbrace : ∃ ts', ts = .lbrace :: ts'
      · obtain ⟨ts', rfl⟩ := hbrace
        obtain ⟨⟨es, s⟩, _, hlist, hret⟩ := bind_ok.mp h
        have hcount := replicationCount_none (fun _ => .refl _) hlist
        cases hret
        have hconcat : parseConcatOrPrimaryExpr (parseFullExpression (parserExprDepth - (d + 1)))
            (.lbrace :: ts') () = .ok (r, ()) := hunary
        unfold parseConcatOrPrimaryExpr at hconcat
        simp only [hcount] at hconcat
        obtain ⟨⟨es', s'⟩, _, hlist', hret'⟩ := bind_ok.mp hconcat
        cases hret'
        obtain ⟨rfl, hsame⟩ := parseList_same (fun ts e rest e' rest' hrun hends hrun' hends' =>
          lvalue_same room (by omega) hrun hends hrun' hends') hlist hlist'
        cases expression_of_unary hexpr hunary hrest.operand
        refine ⟨rfl, fun heq => ?_⟩
        obtain rfl : es' = es := by
          simpa only [concatNode, JZASTNode.mk.injEq, true_and] using heq
        exact bind_ok.mpr ⟨_, _, hsame rfl, rfl⟩
      · have hname_eq := fun ts' heq => hbrace ⟨ts', heq⟩
        rw [lvalueWith_name hname_eq] at h ⊢
        obtain ⟨⟨base, rest₀⟩, _, hname, haccess⟩ := bind_ok.mp h
        have hqualified : parseQualifiedName ts () = .ok ((base, rest₀), ()) := hname
        obtain ⟨t, ts', lexeme, rfl, hdecl⟩ := parseQualifiedName_head hqualified
        rw [parseUnaryExpr_name hdecl] at hunary
        obtain ⟨⟨b, r₀⟩, _, hprimary, hpost⟩ := bind_ok.mp hunary
        by_cases hdriver : t = .kwGnd ∨ t = .kwVcc
        · obtain ⟨kind, hkind⟩ : ∃ kind, (b, r₀) = (specialNode kind, ts') := by
            rcases hdriver with rfl | rfl
            · cases hprimary
              exact ⟨_, rfl⟩
            · cases hprimary
              exact ⟨_, rfl⟩
          cases hkind
          obtain ⟨hoperand, hdiffers⟩ := driver_differs hdecl hqualified haccess hrest hpost
          rw [← parseUnaryExpr_name hdecl] at hunary
          cases expression_of_unary hexpr hunary hoperand
          obtain ⟨rfl, hne⟩ := hdiffers hrest'
          exact ⟨rfl, fun heq => absurd heq hne⟩
        · have hnet : parseNetName (t :: ts') () = .ok ((base, rest₀), ()) := by
            rw [parseNetName_eq hdriver]
            exact hqualified
          rw [parsePrimaryExpr_name hnet (no_paren_of_accesses haccess hrest)] at hprimary
          cases hprimary
          obtain ⟨rfl, hsame⟩ := parseAccesses_same (indexAt_below d) _ haccess hpost
          rw [← parseUnaryExpr_name hdecl] at hunary
          cases expression_of_unary hexpr hunary hrest.operand
          exact ⟨rfl, fun heq => bind_ok.mpr ⟨_, _, hnet, (hsame heq).2⟩⟩

end

/--
The tokens of an lvalue are an expression with the same tree exactly when its
base names are no drivers, its single indices are plain and its indices stay
within the nesting limit of the expression.
-/
theorem parseFullExpression_lvalue_iff {lvalueDepth : ℕ} {ts : List JZToken} {e : JZASTNode}
    (h : parseLvalue lvalueDepth ts () = .ok ((e, []), ())) :
    parseFullExpression parserExprDepth ts () = .ok ((e, []), ()) ↔ PlainLvalue lvalueDepth ts := by
  have hroom : parserExprDepth - lvalueDepth + 0 ≤ parserExprDepth := Nat.sub_le _ _
  constructor
  · intro hexpr
    exact ⟨_, (lvalue_same _ hroom h endsLvalue_nil hexpr endsLvalue_nil).2 rfl⟩
  · rintro ⟨r, hplain⟩
    have hsame := lvalueWith_below keepPlain_below_copy parseNetName_below indexAt_below _ _ _ _ _
      hplain
    have hr : r = ((e, []), ()) := Except.ok.inj (hsame.symm.trans h)
    subst hr
    exact parseFullExpression_of_plain _ hroom hplain endsLvalue_nil

/-- The target `{x[a], y}`. -/
theorem parseFullExpression_lvalue_index : ∃ e,
    parseFullExpression parserExprDepth [.lbrace, .identifier "x", .lbracket, .identifier "a",
      .rbracket, .comma, .identifier "y", .rbrace] () = .ok ((e, []), ()) ∧
    PlainLvalue 0 [.lbrace, .identifier "x", .lbracket, .identifier "a", .rbracket, .comma,
      .identifier "y", .rbrace] := by
  have hplain : PlainLvalue 0 [.lbrace, .identifier "x", .lbracket, .identifier "a", .rbracket,
      .comma, .identifier "y", .rbrace] := ⟨_, rfl⟩
  exact ⟨concatNode [sliceNode (identifierNode "x") (identifierNode "a") (identifierNode "a"),
    identifierNode "y"], (parseFullExpression_lvalue_iff rfl).mpr hplain, hplain⟩

/-- The second bound of the target `x[a + b]` has lost the operands. -/
theorem parseLvalue_binaryIndex : ∃ e e',
    parseLvalue 0 [.identifier "x", .lbracket, .identifier "a", .opPlus, .identifier "b",
      .rbracket] () = .ok ((e, []), ()) ∧
    parseFullExpression parserExprDepth [.identifier "x", .lbracket, .identifier "a", .opPlus,
      .identifier "b", .rbracket] () = .ok ((e', []), ()) ∧ e ≠ e' := by
  refine ⟨sliceNode (identifierNode "x")
      (binaryNode "ADD" (identifierNode "a") (identifierNode "b")) (.mk .binary none none none []),
    sliceNode (identifierNode "x")
      (binaryNode "ADD" (identifierNode "a") (identifierNode "b"))
      (binaryNode "ADD" (identifierNode "a") (identifierNode "b")), rfl, rfl, ?_⟩
  simp [sliceNode, binaryNode]

end JzHdl

import JzHdl.Sem.TemplateExpand

/-! # What substitution keeps

Properties of the nodes of a body that copies and substitutions keep.
-/

namespace JzHdl

/-- All nodes of a tree have fields with the property. -/
inductive AllNodes (P : AstFields → Prop) : AstNode → Prop

  | mk {f : AstFields} {children : List AstNode} (here : P f)
      (below : ∀ c ∈ children, AllNodes P c) : AllNodes P (.mk f children)

namespace AllNodes

variable {P Q : AstFields → Prop} {n : AstNode}

theorem fields (h : AllNodes P n) : P n.fields := by
  cases h with
  | mk here _ => exact here

theorem children (h : AllNodes P n) : ∀ c ∈ n.children, AllNodes P c := by
  cases h with
  | mk _ below => exact below

theorem imp (hPQ : ∀ f, P f → Q f) (h : AllNodes P n) : AllNodes Q n := by
  induction h with
  | mk here _ ih => exact .mk (hPQ _ here) ih

end AllNodes

theorem astDeepCloneAll_eq : ∀ ns : List AstNode, astDeepCloneAll ns = ns.map astDeepClone
  | [] => rfl
  | n :: rest => by rw [astDeepCloneAll, astDeepCloneAll_eq rest, List.map_cons]

theorem mem_astDeepCloneAll {c : AstNode} {ns : List AstNode} (h : c ∈ astDeepCloneAll ns) :
    ∃ n ∈ ns, astDeepClone n = c := by
  rw [astDeepCloneAll_eq] at h
  exact List.mem_map.mp h

/-- A property that a substitution keeps, because it only looks at the types of nodes and at the
texts of applications. -/
structure Steady (P : AstFields → Prop) : Prop where

  same : ∀ {f g : AstFields}, P f → g.type = f.type → (f.type = .templateApply → g.text = f.text) →
    P g

  copy : ∀ {f : AstFields}, P f → P f.copy

  literal : ∀ {f : AstFields}, f.type = .exprLiteral → P f

  access : ∀ {f : AstFields}, isMemberAccess f.type = true → P f

theorem AllNodes.clone {P : AstFields → Prop} (hP : Steady P) {n : AstNode} (h : AllNodes P n) :
    AllNodes P (astDeepClone n) := by
  induction h with
  | mk here _ ih =>
    rw [astDeepClone]
    refine .mk (hP.copy here) fun c hc => ?_
    obtain ⟨d, hd, rfl⟩ := mem_astDeepCloneAll hc
    exact ih d hd

/-! ## The fields of a node -/

section

variable {σ : Substitution} {f : AstFields} {children : List AstNode}

theorem substituteWidth_type : (substituteWidth σ f).type = f.type := by
  rw [substituteWidth]
  split <;> rfl

theorem substituteWidth_text : (substituteWidth σ f).text = f.text := by
  rw [substituteWidth]
  split <;> rfl

theorem substituteTextField_type : (substituteTextField σ f).type = f.type := by
  rw [substituteTextField]
  split
  · rfl
  · split <;> rfl

theorem substituteTextField_apply (h : f.type = .templateApply) :
    substituteTextField σ f = f := by
  rw [substituteTextField]
  split
  · rfl
  · rw [if_pos h]

theorem substituteTexts_type : (substituteTexts σ f).type = f.type :=
  substituteTextField_type.trans substituteWidth_type

theorem substituteTexts_text (h : f.type = .templateApply) :
    (substituteTexts σ f).text = f.text := by
  rw [substituteTexts, substituteTextField_apply (substituteWidth_type.trans h),
    substituteWidth_text]

theorem Steady.texts {P : AstFields → Prop} (hP : Steady P) (h : P f) : P (substituteTexts σ f) :=
  hP.same h substituteTexts_type substituteTexts_text

theorem substituteBase_type (name : List Char) : (substituteBase σ f name).type = f.type := by
  rw [substituteBase]
  split <;> rfl

theorem substituteBase_text (name : List Char) : (substituteBase σ f name).text = f.text := by
  rw [substituteBase]
  split <;> rfl

theorem substituteOther_type (name : List Char) : (substituteOther σ f name).type = f.type := by
  rw [substituteOther]
  split <;> rfl

theorem substituteOther_text (name : List Char) : (substituteOther σ f name).text = f.text := by
  rw [substituteOther]
  split <;> rfl

end

/-- What is known of a substituted node before its children are substituted. -/
inductive Substituted.Has (P : AstFields → Prop) : Substituted → Prop

  | done {n : AstNode} (h : AllNodes P n) : Has P (.done n)

  | within {f : AstFields} {children : List AstNode} (here : P f)
      (below : ∀ c ∈ children, AllNodes P c) : Has P (.within f children)

section

variable {P : AstFields → Prop} (hP : Steady P) {σ : Substitution}
  (hargs : ∀ arg ∈ σ.args, AllNodes P arg.2) {f : AstFields} {children : List AstNode} (hf : P f)
  (hchildren : ∀ c ∈ children, AllNodes P c)

include hP hf

theorem Steady.renamed (s : Option (List Char)) : P (f.setName s) := hP.same hf rfl fun _ => rfl

include hargs hchildren

theorem substituteIdentifier_has (name : List Char) :
    (substituteIdentifier σ f children name).Has P := by
  rw [substituteIdentifier]
  split
  · exact .done (.mk (hP.literal rfl) hchildren)
  split
  · rename_i arg hfind
    exact .done (((hargs arg (List.mem_of_find?_eq_some hfind)).clone hP))
  split
  · exact .done (.mk (hP.renamed hf _) hchildren)
  · exact .within hf hchildren

theorem substituteQualified_has (name : List Char) :
    (substituteQualified σ f children name).Has P := by
  rw [substituteQualified]
  split
  · exact .within hf hchildren
  rename_i param g argChildren hfind
  have harg : AllNodes P (.mk g argChildren) := hargs _ (List.mem_of_find?_eq_some hfind)
  dsimp only
  split
  · exact .done (.mk (hP.renamed hf _) hchildren)
  · split
    · refine .within (hP.access rfl) fun c hc => ?_
      obtain rfl := List.mem_singleton.mp hc
      exact (harg.children _ (List.mem_cons_of_mem _ List.mem_cons_self)).clone hP
    · exact .done (.mk hf hchildren)
  · split
    · rename_i haccess
      refine .within (hP.access haccess) fun c hc => ?_
      obtain ⟨d, hd, rfl⟩ := mem_astDeepCloneAll hc
      exact (harg.children d hd).clone hP
    · exact .done (.mk hf hchildren)
  · exact .done (.mk hf hchildren)

theorem substituteFields_has : (substituteFields σ f children).Has P := by
  have htexts : P (substituteTexts σ f) := hP.texts hf
  rw [substituteFields]
  split
  · exact .within htexts hchildren
  split
  · exact substituteIdentifier_has hP hargs htexts hchildren _
  split
  · exact substituteQualified_has hP hargs htexts hchildren _
  split
  · exact .within (hP.same htexts (substituteBase_type _) fun _ => substituteBase_text _) hchildren
  · exact .within
      (hP.same htexts (substituteOther_type _) fun _ => substituteOther_text _) hchildren

end

/-- Copies of a steady tree with steady arguments are steady. -/
theorem AllNodes.substitute {P : AstFields → Prop} (hP : Steady P) {σ : Substitution}
    (hargs : ∀ arg ∈ σ.args, AllNodes P arg.2) : ∀ (r : ℕ) {n : AstNode}, AllNodes P n →
      AllNodes P (substituteInNode σ r n).1
  | 0, _, h => h
  | r + 1, _, .mk here below => by
      rw [substituteInNode]
      have hhas := substituteFields_has hP hargs here below
      split
      · rename_i hdone
        rw [hdone] at hhas
        cases hhas with
        | done h => exact h
      · rename_i hwithin
        rw [hwithin] at hhas
        cases hhas with
        | within here below =>
          refine .mk here fun c hc => ?_
          rw [List.map_map, List.mem_map] at hc
          obtain ⟨d, hd, rfl⟩ := hc
          exact (below d hd).substitute hP hargs r

end JzHdl

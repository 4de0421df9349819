import JzHdl.Sem.ConstDefs

/-! # Widths in terms of widths

The textual expansion of `widthof` in width expressions, the recursion through
the declared widths and the evaluation of the expanded text.
-/

namespace JzHdl

/-! ## Calls -/

def widthofName : List Char := ['w', 'i', 'd', 't', 'h', 'o', 'f']

/-- The text behind `widthof`, white space and a bracket. -/
def afterCall (text : List Char) : Option (List Char) :=
  if widthofName.isPrefixOf text then
    match (text.drop 7).dropWhile isSpaceChar with
    | '(' :: body => some body
    | _ => none
  else none

/-- The name in a call and the text behind its closing bracket. -/
def callArgument (body : List Char) : Option (List Char × List Char) :=
  match body.dropWhile isSpaceChar with
  | [] => none
  | c :: tail =>
    if isIdentStart c then
      match (tail.dropWhile isIdentChar).dropWhile isSpaceChar with
      | ')' :: after => some (c :: tail.takeWhile isIdentChar, after)
      | _ => none
    else none

theorem callArgument_length {body name after : List Char}
    (h : callArgument body = some (name, after)) : after.length < body.length := by
  unfold callArgument at h
  have hbody := length_dropWhile_le isSpaceChar body
  split at h
  · cases h
  · rename_i c tail heq
    rw [heq, List.length_cons] at hbody
    split at h
    · split at h
      · rename_i after' hafter
        cases h
        have h1 := length_dropWhile_le isSpaceChar (tail.dropWhile isIdentChar)
        have h2 := length_dropWhile_le isIdentChar tail
        rw [hafter, List.length_cons] at h1
        omega
      · cases h
    · cases h

theorem afterCall_length {text body : List Char} (h : afterCall text = some body) :
    body.length < text.length := by
  unfold afterCall at h
  split at h
  · have h1 := length_dropWhile_le isSpaceChar (text.drop 7)
    split at h
    · rename_i body' heq
      cases h
      rw [heq, List.length_cons, List.length_drop] at h1
      omega
    · cases h
  · cases h

/-- `sem_expand_widthof_in_width_expr`: every call becomes the decimal width of its name, everything
else is copied. A text without calls is left as it is. -/
def expandWidthof (width : List Char → Option ℕ) : List Char → Option (List Char)
  | [] => some []
  | c :: rest =>
    match _hcall : afterCall (c :: rest) with
    | some body =>
      match _harg : callArgument body with
      | some (name, after) => (width (name.take 255)).bind fun w =>
          (expandWidthof width after).map (Nat.toDigits 10 w ++ ·)
      | none => none
    | none => (expandWidthof width rest).map (c :: ·)
termination_by text => text.length
decreasing_by
  · have h1 := afterCall_length _hcall
    have h2 := callArgument_length _harg
    omega
  · exact Nat.lt_succ_self _

/-! ## Declarations -/

structure DeclLoc where

  file : Option (List Char)

  line : ℤ

  column : ℤ

/-- `jz_loc_is_visible_at_use`. -/
def visibleAtUse (decl use : DeclLoc) : Bool :=
  if use.line ≤ 0 ∨ use.column ≤ 0 then true
  else if decl.file = none ∨ use.file = none then true
  else if decl.file ≠ use.file then true
  else if decl.line < use.line then true
  else if use.line < decl.line then false
  else decl.column ≤ use.column

inductive WidthSymbolKind | wire | register | port | other
  deriving DecidableEq

structure WidthSymbol where

  name : List Char

  kind : WidthSymbolKind

  width : Option (List Char)

  loc : DeclLoc

/-- A declared member of a BUS. -/
structure BusBlock where

  name : List Char

  members : List (Option (List Char))

/-- The symbols of a module, the named constants that a text may use, and the BUS blocks and the
constants of the project. -/
structure WidthScope where

  symbols : List WidthSymbol

  consts : List JZConstDef

  buses : List BusBlock

  evalProject : List Char → Option ℤ

namespace WidthScope

variable (scope : WidthScope)

/-- `module_scope_lookup_visible`. -/
def lookupVisible (name : List Char) (use : DeclLoc) : Option WidthSymbol :=
  scope.symbols.find? fun s => s.name == name && visibleAtUse s.loc use

/-- The width text that `widthof` takes from a name of the module. -/
def widthText (name : List Char) (use : DeclLoc) : Option (List Char × DeclLoc) :=
  (scope.lookupVisible name use).bind fun s =>
    if s.kind = .other then none else s.width.map fun text => (text, s.loc)

end WidthScope

/-- `eval_simple_positive_decl_int` on a text it accepts: digits with white space and underscores
after a plus sign. -/
def simpleMember : ℕ → Bool → Bool → List Char → Option ℕ
  | value, _, digit, [] => if digit ∧ 0 < value then some value else none
  | value, sign, digit, c :: rest =>
    if isSpaceChar c ∨ c = '_' then simpleMember value sign digit rest
    else if ¬ digit ∧ ¬ sign ∧ c = '+' then simpleMember value true digit rest
    else if ¬ c.isDigit then none
    else if 2 ^ 32 ≤ value * 10 + (c.toNat - 48) then none
    else simpleMember (value * 10 + (c.toNat - 48)) sign true rest

section

variable (scope : WidthScope)

def memberWidth (text : List Char) : Option ℕ :=
  (simpleMember 0 false false text).or
    ((scope.evalProject text).bind fun v => if 0 < v then some (v.toNat % 2 ^ 32) else none)

/-- The member widths of a BUS. Members without a width text do not count. -/
def memberWidths : List (Option (List Char)) → Option (List ℕ)
  | [] => some []
  | none :: rest => memberWidths rest
  | some text :: rest =>
    (memberWidth scope text).bind fun w => (memberWidths rest).map (w :: ·)

/-- The members of a BUS are added as `unsigned`. -/
def busWidth (name : List Char) : Option ℕ :=
  (scope.buses.find? fun b => b.name == name).bind fun b =>
    (memberWidths scope b.members).map fun ws => ws.sum % 2 ^ 32

/-- The width of a name that is used at a place. -/
def declaredWidth (eval : DeclLoc → List Char → Option ℕ) (use : DeclLoc) (name : List Char) :
    Option ℕ :=
  match scope.widthText name use with
  | some (text, loc) => eval loc text
  | none => busWidth scope name

/-! ## Evaluation -/

def configName : List Char := ['C', 'O', 'N', 'F', 'I', 'G']

/-- The text behind `CONFIG`, a dot and white space. -/
def afterConfig (text : List Char) : Option (List Char) :=
  if configName.isPrefixOf text then
    match (text.drop 6).dropWhile isSpaceChar with
    | '.' :: tail => some (tail.dropWhile isSpaceChar)
    | _ => none
  else none

theorem afterConfig_length {text tail : List Char} (h : afterConfig text = some tail) :
    tail.length < text.length := by
  unfold afterConfig at h
  split at h
  · have h1 := length_dropWhile_le isSpaceChar (text.drop 6)
    split at h
    · rename_i tail' heq
      cases h
      have h2 := length_dropWhile_le isSpaceChar tail'
      rw [heq, List.length_cons, List.length_drop] at h1
      omega
    · cases h
  · cases h

/-- The prefixes `CONFIG.` are dropped where a word starts. -/
def stripConfig (word : Bool) : List Char → List Char
  | [] => []
  | c :: rest =>
    match _htail : (if word then none else afterConfig (c :: rest)) with
    | some tail => stripConfig false tail
    | none => c :: stripConfig (isIdentChar c) rest
termination_by text => text.length
decreasing_by
  · split at _htail
    · cases _htail
    · exact afterConfig_length _htail
  · exact Nat.lt_succ_self _

/-- `sem_eval_const_expr_in_module`. The text is expanded once more with the widths `again`, and
evaluated without names when one of the named constants has no value. -/
def semEvalConstExprInModule (again : List Char → Option ℕ) (text : List Char) : Option ℤ :=
  (expandWidthof again text).bind fun expanded =>
    match jzConstEvalAll (scope.consts ++ [⟨none, some (stripConfig false expanded)⟩]) with
    | .ok out => out.getLast?
    | .error _ => jzConstEvalExpr (stripConfig false expanded)

/-- `sem_eval_width_expr_internal` below a number of enclosing declarations. -/
def semEvalWidthInternal (again : List Char → Option ℕ) : ℕ → DeclLoc → List Char → Option ℕ
  | 0, _, _ => none
  | room + 1, loc, text =>
    (expandWidthof (declaredWidth scope (semEvalWidthInternal again room) loc) text).bind
      fun expanded => (semEvalConstExprInModule scope again expanded).bind fun v =>
        if v ≤ 0 then none else some (v.toNat % 2 ^ 32)

/-- `sem_eval_width_expr_at_loc`: references are followed at most 16 deep. -/
def semEvalWidthExprAtLoc (again : List Char → Option ℕ) (loc : DeclLoc) (text : List Char) :
    Option ℕ := semEvalWidthInternal scope again 17 loc text

/-! ## Values of width texts -/

/-- The tokens of a text in which every call is the number of its name's width. -/
inductive Replaced (width : List Char → ℕ → Prop) : List ConstToken → List ConstToken → Prop

  | nil : Replaced width [] []

  | call {name : List Char} {w : ℕ} {ts us : List ConstToken} : width name w →
      Replaced width ts us →
      Replaced width (.ident widthofName :: .lparen :: .ident name :: .rparen :: ts)
        (.int ((Nat.toDigits 10 w).map fun c => c.toNat - 48) :: us)

  | other {t : ConstToken} {ts us : List ConstToken} :
      ¬ (t = .ident widthofName ∧ ts.head? = some .lparen) →
      Replaced width ts us → Replaced width (t :: ts) (t :: us)

/-- Integers of any size, with the values of names. -/
def wholeArithmetic (names : List Char → Option ℤ) : Arithmetic where
  int digits := some (decimalNumber digits)
  ident := names
  clog2 v := if 0 < v then some (max 1 (Nat.clog 2 v.toNat) : ℕ) else none
  neg v := some (-v)
  binary := exactOp

/-- The number that a member of a BUS is declared with. -/
def MemberIs (text : List Char) (w : ℕ) : Prop :=
  simpleMember 0 false false text = some w ∨
    (simpleMember 0 false false text = none ∧ scope.evalProject text = some (w : ℤ) ∧ 0 < w)

/-- The width of a name: that of its declaration, or the sum of the members of a BUS. -/
def DeclaredAs (denotes : DeclLoc → List Char → ℕ → Prop) (use : DeclLoc) (name : List Char)
    (w : ℕ) : Prop :=
  match scope.widthText name use with
  | some (text, loc) => denotes loc text w
  | none => ∃ b, scope.buses.find? (fun b => b.name == name) = some b ∧
      ∃ ws, List.Forall₂ (MemberIs scope) (b.members.filterMap id) ws ∧ w = ws.sum

/-- The value of a width text in which references are followed to a depth. -/
def DenotesWidth : ℕ → DeclLoc → List Char → ℕ → Prop
  | 0, _, _, _ => False
  | depth + 1, loc, text, w => ∃ us e,
      Replaced (DeclaredAs scope (DenotesWidth depth) loc) (fullTokens text) us ∧
      Derives 7 e us ∧ e.eval (wholeArithmetic (solution scope.consts)) = some (w : ℤ) ∧
      0 < w ∧ w < 2 ^ 32

end

end JzHdl

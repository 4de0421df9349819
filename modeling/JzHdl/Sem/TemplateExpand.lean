import JzHdl.Sem.ConstDefs
import JzHdl.Sem.CountExpr
import JzHdl.Sem.WholeWords

/-! # The expansion of templates

The pass over the tree of a project that puts the substituted bodies of the templates in the places
of their applications. The children of a node are scanned again where a body was put, so a body is
expanded like the code around it.
-/

namespace JzHdl

/-! ## Trees -/

/-- The types of nodes that the pass looks at. A module and a definition have an address. -/
inductive AstType

  | module (address : ℕ)

  | templateDef (address : ℕ)

  | templateApply

  | templateParam

  | scratchDecl

  | wireBlock

  | wireDecl

  | configBlock

  | constBlock

  | constDecl

  | exprIdentifier

  | exprQualifiedIdentifier

  | exprLiteral

  | exprSlice

  | exprBusAccess

  | exprIndexedMemberAccess

  | exprInstancePortAccess

  | other (tag : ℕ)
  deriving DecidableEq

structure AstFields where

  type : AstType

  name : Option (List Char) := none

  blockKind : Option (List Char) := none

  text : Option (List Char) := none

  width : Option (List Char) := none
  deriving DecidableEq

inductive AstNode

  | mk (fields : AstFields) (children : List AstNode)

namespace AstNode

def fields : AstNode → AstFields
  | .mk f _ => f

def children : AstNode → List AstNode
  | .mk _ cs => cs

def type (n : AstNode) : AstType := n.fields.type

def name (n : AstNode) : Option (List Char) := n.fields.name

end AstNode

def jzStrdupTrim (s : List Char) : List Char :=
  ((s.dropWhile isSpaceChar).reverse.dropWhile isSpaceChar).reverse

def AstFields.setName (f : AstFields) (s : Option (List Char)) : AstFields :=
  { f with name := s.map jzStrdupTrim }

def AstFields.setText (f : AstFields) (s : Option (List Char)) : AstFields :=
  { f with text := s.map jzStrdupTrim }

def AstFields.setWidth (f : AstFields) (s : Option (List Char)) : AstFields :=
  { f with width := s.map jzStrdupTrim }

/-- A copy is built with the setters, which trim. -/
def AstFields.copy (f : AstFields) : AstFields where
  type := f.type
  name := f.name.map jzStrdupTrim
  blockKind := f.blockKind.map jzStrdupTrim
  text := f.text.map jzStrdupTrim
  width := f.width.map jzStrdupTrim

mutual

def astDeepClone : AstNode → AstNode
  | .mk f children => .mk f.copy (astDeepCloneAll children)

def astDeepCloneAll : List AstNode → List AstNode
  | [] => []
  | n :: rest => astDeepClone n :: astDeepCloneAll rest

end

/-! ## Substitution -/

/-- What the body of a template is substituted with in one copy. -/
structure Substitution where

  args : List (List Char × AstNode)

  idxValue : ℕ

  hasIdx : Bool

  tmplName : List Char

  callsiteId : ℕ

  /-- The scratch names with the suffixes of this copy. -/
  scratch : List (List Char × List Char)

namespace Substitution

variable (σ : Substitution)

def idxText : List Char := Nat.toDigits 10 σ.idxValue

/-- The name of a scratch wire, in a buffer of 512 characters. -/
def mangled (scratch suffix : List Char) : List Char :=
  (σ.tmplName ++ "__".toList ++ scratch ++ "__".toList ++ Nat.toDigits 10 σ.callsiteId ++ ['_'] ++
    σ.idxText ++ ['_'] ++ suffix).take 511

def scratchWire (name : List Char) : Option (List Char) :=
  (σ.scratch.find? fun s => decide (s.1 = name)).map fun s => σ.mangled s.1 s.2

end Substitution

/-- What stands for an argument in a text. -/
def argText (arg : AstNode) : List Char := arg.fields.name.getD (arg.fields.text.getD ['0'])

def Substitution.inText (σ : Substitution) (t : List Char) : List Char :=
  substituteText (σ.args.map fun arg => (arg.1, argText arg.2))
    (if σ.hasIdx then some σ.idxText else none) t

def substituteWidth (σ : Substitution) (f : AstFields) : AstFields :=
  match f.width with
  | none => f
  | some w => f.setWidth (some (σ.inText w))

/-- The count of an application stays as it is. -/
def substituteTextField (σ : Substitution) (f : AstFields) : AstFields :=
  match f.text with
  | none => f
  | some t => if f.type = .templateApply then f else f.setText (some (σ.inText t))

def substituteTexts (σ : Substitution) (f : AstFields) : AstFields :=
  substituteTextField σ (substituteWidth σ f)

/-- What a node becomes, and whether its children are substituted. -/
inductive Substituted

  | done (n : AstNode)

  | within (f : AstFields) (children : List AstNode)

def isMemberAccess (t : AstType) : Bool :=
  decide (t = .exprBusAccess) || decide (t = .exprIndexedMemberAccess) ||
    decide (t = .exprInstancePortAccess)

def substituteIdentifier (σ : Substitution) (f : AstFields) (children : List AstNode)
    (name : List Char) : Substituted :=
  if σ.hasIdx ∧ name = idxName then
    .done (.mk (({ f with type := .exprLiteral } : AstFields).setName none |>.setText
      (some σ.idxText)) children)
  else
    match σ.args.find? fun arg => decide (arg.1 = name) with
    | some arg => .done (astDeepClone arg.2)
    | none =>
      match σ.scratchWire name with
      | some wire => .done (.mk (f.setName (some wire)) children)
      | none => .within f children

/-- The parameter before a dot is replaced by an identifier, or by the base of an access. -/
def substituteQualified (σ : Substitution) (f : AstFields) (children : List AstNode)
    (name : List Char) : Substituted :=
  match σ.args.find? fun arg => (arg.1 ++ ['.']).isPrefixOf name with
  | none => .within f children
  | some (param, .mk g argChildren) =>
    let suffix := (name.drop (param.length + 1)).take 255
    match g.type, g.name, argChildren with
    | .exprIdentifier, some base, _ =>
      .done (.mk (f.setName (some (base ++ name.drop param.length))) children)
    | .exprSlice, _, .mk h _ :: msb :: _ =>
      match h.type, h.name with
      | .exprIdentifier, some base =>
        .within (({ f with type := .exprBusAccess } : AstFields).setName (some base) |>.setText
          (some suffix)) [astDeepClone msb]
      | _, _ => .done (.mk f children)
    | t, some base, _ =>
      if isMemberAccess t then
        .within (({ f with type := t } : AstFields).setName (some base) |>.setText (some suffix))
          (astDeepCloneAll argChildren)
      else .done (.mk f children)
    | _, _, _ => .done (.mk f children)

/-- The base name of an access is replaced by the name of an argument. -/
def substituteBase (σ : Substitution) (f : AstFields) (name : List Char) : AstFields :=
  match σ.args.find? fun arg => decide (arg.1 = name) && arg.2.fields.name.isSome with
  | some arg => f.setName arg.2.fields.name
  | none => f

def substituteOther (σ : Substitution) (f : AstFields) (name : List Char) : AstFields :=
  match σ.scratchWire name with
  | some wire => f.setName (some wire)
  | none => f

def substituteFields (σ : Substitution) (f : AstFields) (children : List AstNode) : Substituted :=
  let f := substituteTexts σ f
  match f.name with
  | none => .within f children
  | some name =>
    if f.type = .exprIdentifier then substituteIdentifier σ f children name
    else if f.type = .exprQualifiedIdentifier then substituteQualified σ f children name
    else if isMemberAccess f.type then .within (substituteBase σ f name) children
    else .within (substituteOther σ f name) children

/-- The substituted node, and whether the nesting limit was hit. The first argument is the number
of levels that are left. -/
def substituteInNode (σ : Substitution) : ℕ → AstNode → AstNode × Bool
  | 0, n => (n, true)
  | r + 1, .mk f children =>
    match substituteFields σ f children with
    | .done n => (n, false)
    | .within f children =>
      let results := children.map (substituteInNode σ r)
      (.mk f (results.map Prod.fst), results.any Prod.snd)

/-! ## The state of the pass -/

/-- The limits on applications. -/
structure ApplyLimits where

  applyMaxCount : ℕ

  applyMaxGrowth : ℕ

def sizeMax : ℕ := 2 ^ 64 - 1

structure TemplateEntry where

  name : List Char

  defNode : AstNode

  /-- The address of the module, if the template is not of the file. -/
  scopeModule : Option ℕ

/-- The reports by their rules. -/
inductive TemplateReport

  | depthLimitExceeded

  | dupName (name : List Char)

  | dupParam (name : List Char)

  | scratchShadow (name : List Char)

  | scratchWidthInvalid (name : List Char)

  | externalRef (name : List Char)

  | undefined (name : List Char)

  | argCountMismatch (name : List Char)

  | countNotNonnegInt (text : List Char)

  | applyCountLimitExceeded (count : ℤ)

  | growthLimitExceeded (name : List Char)
  deriving DecidableEq

structure ExpandState where

  templates : List TemplateEntry

  scratchWires : List AstNode

  applyCounter : ℕ

  totalGrowth : ℕ

  depthFailed : Bool

  /-- The evaluation of a count does not end, so nothing is left of the run. -/
  hung : Bool

  reports : List TemplateReport

namespace ExpandState

def start : ExpandState := ⟨[], [], 0, 0, false, false, []⟩

def reportAll (s : ExpandState) (rs : List TemplateReport) : ExpandState :=
  { s with reports := s.reports ++ rs }

def report (s : ExpandState) (r : TemplateReport) : ExpandState := s.reportAll [r]

/-- The nesting limit is reported once. -/
def failDepth (s : ExpandState) : ExpandState :=
  if s.depthFailed then s else { s.report .depthLimitExceeded with depthFailed := true }

def hang (s : ExpandState) : ExpandState := { s with hung := true }

/-- The entries of a definition see what it has become. -/
def setDef (s : ExpandState) (d : AstNode) : ExpandState :=
  { s with templates := s.templates.map fun e =>
      if e.defNode.type = d.type then { e with defNode := d } else e }

end ExpandState

/-! ## Constants -/

/-- The prefixes are removed where no name goes before them. -/
def stripConfigFrom : ℕ → Option Char → List Char → List Char
  | 0, _, p => p
  | _ + 1, _, [] => []
  | fuel + 1, before, c :: rest =>
    let behind := ((c :: rest).drop 6).dropWhile isSpaceChar
    if "CONFIG".toList.isPrefixOf (c :: rest) ∧ ¬before.any isIdentChar ∧
        behind.head? = some '.' then
      let space := behind.tail.takeWhile isSpaceChar
      stripConfigFrom fuel (some (space.getLast?.getD '.')) (behind.tail.dropWhile isSpaceChar)
    else c :: stripConfigFrom fuel (some c) rest

def stripConfigPrefix (expr : List Char) : List Char := stripConfigFrom expr.length none expr

def isConstDecl (n : AstNode) : Bool := decide (n.type = .constDecl)

/-- The definition that a declaration gives, if it has a name and a text. -/
def addConstDef (decl : AstNode) : Option JZConstDef :=
  match decl.fields.name, decl.fields.text with
  | some name, some text => some ⟨some name, some (stripConfigPrefix text)⟩
  | _, _ => none

/-- The definitions below a node, and whether the nesting limit was hit. -/
def gatherConstDefs : ℕ → AstNode → List JZConstDef × Bool
  | 0, _ => ([], true)
  | r + 1, .mk f children =>
    let own := if f.type = .configBlock ∨ f.type = .constBlock then
      (children.filter isConstDecl).filterMap addConstDef else []
    let results := children.map (gatherConstDefs r)
    (own ++ results.flatMap Prod.fst, results.any Prod.snd)

def constEntry (d : JZConstDef) (v : ℤ) : List Char × ℤ := (d.name.getD [], v)

/-- All values, or the plain integers if the evaluation fails. -/
def collectConsts (defs : List JZConstDef) : CountConsts :=
  match jzConstEvalAll defs with
  | .ok vals => defs.zipWith constEntry vals
  | .error _ => defs.filterMap fun d => (parseIntStr d.text).map (constEntry d)

/-! ## Templates -/

def isParam (n : AstNode) : Bool := decide (n.type = .templateParam)

def isScratch (n : AstNode) : Bool := decide (n.type = .scratchDecl)

def isModule (n : AstNode) : Bool :=
  match n.type with
  | .module _ => true
  | _ => false

def isTemplateDef (n : AstNode) : Bool :=
  match n.type with
  | .templateDef _ => true
  | _ => false

def paramNames (d : AstNode) : List (List Char) :=
  (d.children.filter isParam).map fun n => n.fields.name.getD []

/-- The children behind the last parameter. -/
def templateBody (d : AstNode) : List AstNode :=
  (d.children.reverse.takeWhile fun n => !isParam n).reverse

def bodyStmts (d : AstNode) : List AstNode := (templateBody d).filter fun n => !isScratch n

def namedScratch (d : AstNode) : List AstNode :=
  (templateBody d).filter fun n => isScratch n && n.fields.name.isSome

/-- At most 64 scratch wires are looked at. -/
def scratchNames (d : AstNode) : List (List Char) :=
  ((namedScratch d).take 64).map fun n => n.fields.name.getD []

/-- The names that stand again behind their place. -/
def repeated : List (List Char) → List (List Char)
  | [] => []
  | name :: rest => (rest.filter fun other => decide (other = name)) ++ repeated rest

/-- A scratch name that is a parameter, or that stands before as a scratch name. -/
def shadowed (params : List (List Char)) : List (List Char) → List (List Char) → List (List Char)
  | _, [] => []
  | seen, name :: rest =>
    (if name ∈ params then [name] else []) ++ (if name ∈ seen then [name] else []) ++
      shadowed params (seen ++ [name]) rest

/-- A width that can only be evaluated for an application. -/
def needsApplyContext (params : List (List Char)) (width : List Char) : Bool :=
  (strstrSplit "widthof(".toList width).isSome || (strstrSplit "clog2(".toList width).isSome ||
    (strstrSplit idxName width).isSome ||
      params.any fun name => decide (name ≠ []) &&
        decide (countWholeWords name width.length none width ≠ 0)

/-- The check of the width of a scratch declaration. -/
def checkScratchWidth (consts : CountConsts) (params : List (List Char)) (s : ExpandState)
    (decl : AstNode) : ExpandState :=
  let invalid := s.report (.scratchWidthInvalid (decl.fields.name.getD []))
  match decl.fields.width with
  | none => s
  | some width =>
    if width ∈ params.take 64 then invalid
    else
      match evalCountExpr consts width with
      | .hang => s.hang
      | .fail => if needsApplyContext (params.take 64) width then s else invalid
      | .value w => if w ≤ 0 then invalid else s

/-- A second template of a name and scope is reported and left out. -/
def registerTemplate (consts : CountConsts) (d : AstNode) (scopeModule : Option ℕ)
    (s : ExpandState) : ExpandState :=
  let name := d.fields.name.getD []
  if s.templates.any fun e => decide (e.scopeModule = scopeModule) && decide (e.name = name) then
    s.report (.dupName name)
  else
    let params := paramNames d
    let s := s.reportAll ((repeated params).map .dupParam)
    let s := s.reportAll
      ((shadowed (params.take 64) [] ((namedScratch d).map fun n => n.fields.name.getD [])).map
        .scratchShadow)
    let s := (d.children.filter isScratch).foldl (checkScratchWidth consts params) s
    { s with templates := s.templates ++ [⟨name, d, scopeModule⟩] }

/-- The module that the children of a node are in. -/
def scopeOf (n : AstNode) (current : Option ℕ) : Option ℕ :=
  match n.type with
  | .module address => some address
  | _ => current

def collectTemplates (consts : CountConsts) : ℕ → Option ℕ → AstNode → ExpandState → ExpandState
  | 0, _, _, s => s.failDepth
  | r + 1, current, n, s =>
    if isTemplateDef n then registerTemplate consts n current s
    else n.children.foldl (fun s child => collectTemplates consts r (scopeOf n current) child s) s

/-- A template of the module goes before one of the file. -/
def findTemplate (templates : List TemplateEntry) (name : List Char) (scopeModule : Option ℕ) :
    Option TemplateEntry :=
  match templates.find? fun e => decide (e.name = name) && decide (e.scopeModule = scopeModule) with
  | some e => some e
  | none =>
    (templates.filter fun e => decide (e.name = name) && decide (e.scopeModule = none)).getLast?

/-! ## One application -/

section

variable (limits : ApplyLimits) (consts : CountConsts) (suffix : ℕ → ℕ → ℕ → List Char)

/-- The substitution of a copy. The suffixes are drawn for the call site, copy and wire. -/
def copySubstitution (d apply : AstNode) (callsite idx : ℕ) : Substitution where
  args := (paramNames d).zip apply.children
  idxValue := idx
  hasIdx := apply.fields.text.isSome
  tmplName := d.fields.name.getD []
  callsiteId := callsite
  scratch := (scratchNames d).zipIdx.map fun s => (s.1, suffix callsite idx s.2)

/-- The wire of a scratch name, with the width of its first declaration. -/
def scratchWireDecl (d : AstNode) (σ : Substitution) (s : List Char × List Char) : AstNode :=
  let decl := (namedScratch d).find? fun n => decide (n.fields.name = some s.1)
  let f := ({ type := .wireDecl } : AstFields).setName (some (σ.mangled s.1 s.2))
  match decl.bind fun n => n.fields.width with
  | none => .mk f []
  | some w => .mk (f.setWidth (some (σ.inText w))) []

/-- The statements of a copy, each with whether it hit the nesting limit. -/
def copyStmts (r : ℕ) (d apply : AstNode) (callsite idx : ℕ) : List (AstNode × Bool) :=
  (bodyStmts d).map fun stmt =>
    substituteInNode (copySubstitution suffix d apply callsite idx) r (astDeepClone stmt)

def copyWires (d apply : AstNode) (callsite idx : ℕ) : List AstNode :=
  let σ := copySubstitution suffix d apply callsite idx
  σ.scratch.map (scratchWireDecl d σ)

def afterCopy (r : ℕ) (d apply : AstNode) (callsite idx : ℕ) (s : ExpandState) : ExpandState :=
  let s := { s with scratchWires := s.scratchWires ++ copyWires suffix d apply callsite idx }
  if (copyStmts suffix r d apply callsite idx).any Prod.snd then s.failDepth else s

/-- The copies from an iteration on. A hit of the nesting limit throws all of them away. -/
def expandCopies (r : ℕ) (d apply : AstNode) (callsite : ℕ) :
    List ℕ → ExpandState → Option (List AstNode) × ExpandState
  | [], s => (some [], s)
  | idx :: rest, s =>
    if (afterCopy suffix r d apply callsite idx s).depthFailed ∧
        copyStmts suffix r d apply callsite idx ≠ [] then
      (none, afterCopy suffix r d apply callsite idx s)
    else
      match expandCopies r d apply callsite rest (afterCopy suffix r d apply callsite idx s) with
      | (none, s) => (none, s)
      | (some more, s) => (some ((copyStmts suffix r d apply callsite idx).map Prod.fst ++ more), s)

def allowedIdent (d apply : AstNode) (name : List Char) : Bool :=
  (apply.fields.text.isSome && decide (name = idxName)) || decide (name ∈ paramNames d) ||
    decide (name ∈ scratchNames d) || (lookupConst consts name).isSome

mutual

/-- The names in a body that are neither of the template nor constants. -/
def externalRefs (allowed : List Char → Bool) : AstNode → List (List Char)
  | .mk f children =>
    if f.type = .scratchDecl ∨ f.type = .templateParam then []
    else
      (match f.name with
        | some name =>
          if (f.type = .exprIdentifier ∨ isMemberAccess f.type) ∧ allowed name = false then [name]
          else []
        | none => []) ++ externalRefsAll allowed children

def externalRefsAll (allowed : List Char → Bool) : List AstNode → List (List Char)
  | [] => []
  | n :: rest => externalRefs allowed n ++ externalRefsAll allowed rest

end

/-- The count of an application without one is 1. -/
def applyCount (apply : AstNode) : CountResult :=
  match apply.fields.text with
  | none => .value 1
  | some text => evalCountExpr consts text

/-- The nodes that one copy adds. -/
def growthPerCopy (d : AstNode) : ℕ :=
  (scratchNames d).length +
    ((templateBody d).filter fun n => !(isScratch n && n.fields.name.isSome)).length

/-- The nodes in the place of an application, or nothing if the expansion stops. -/
def expandApply (r : ℕ) (scopeModule : Option ℕ) (apply : AstNode) (s : ExpandState) :
    Option (List AstNode) × ExpandState :=
  match apply.fields.name with
  | none => (none, s)
  | some name =>
    match findTemplate s.templates name scopeModule with
    | none => (some [], s.report (.undefined name))
    | some entry =>
      let d := entry.defNode
      if apply.children.length ≠ (paramNames d).length then
        (some [], s.report (.argCountMismatch name))
      else
        match applyCount consts apply with
        | .hang => (none, s.hang)
        | .fail => (some [], s.report (.countNotNonnegInt (apply.fields.text.getD [])))
        | .value count =>
          if count < 0 then (some [], s.report (.countNotNonnegInt (apply.fields.text.getD [])))
          else if (limits.applyMaxCount : ℤ) < count then
            (some [], s.report (.applyCountLimitExceeded count))
          else
            let growth := min (count.toNat * growthPerCopy d) sizeMax
            if 0 < count ∧ (limits.applyMaxGrowth < growth ∨
                limits.applyMaxGrowth - growth < s.totalGrowth) then
              (some [], s.report (.growthLimitExceeded name))
            else
              let s := { s with
                totalGrowth := if 0 < count then s.totalGrowth + growth else s.totalGrowth
                applyCounter := s.applyCounter + 1 }
              let s := s.reportAll
                ((externalRefsAll (allowedIdent consts d apply) (bodyStmts d)).map .externalRef)
              expandCopies suffix r d apply (s.applyCounter - 1) (List.range count.toNat) s

/-! ## All applications -/

/-- How a template definition is built around a node, if the node is inside of one. -/
abbrev Context := Option (AstNode → AstNode)

def Context.put (K : Context) (n : AstNode) (s : ExpandState) : ExpandState :=
  match K with
  | none => s
  | some k => s.setDef (k n)

def Context.child (K : Context) (f : AstFields) (scanned rest : List AstNode) (child : AstNode) :
    Context :=
  if isTemplateDef child then some id else K.map fun k n => k (.mk f (scanned ++ n :: rest))

/-- The scan of the children. A body is scanned again, unless it is a single node. The first
number bounds the steps of the scan. -/
def expandChildren (visit : Context → AstNode → ExpandState → (AstNode × Bool) × ExpandState)
    (r : ℕ) (scopeModule : Option ℕ) (K : Context) (f : AstFields) :
    ℕ → List AstNode → List AstNode → ExpandState → (AstNode × Bool) × ExpandState
  | _, scanned, [], s => ((.mk f scanned, true), s)
  | 0, scanned, rest, s => ((.mk f (scanned ++ rest), false), s.hang)
  | fuel + 1, scanned, child :: rest, s =>
    if child.type = .templateApply then
      match expandApply limits consts suffix r scopeModule child
          (K.put (.mk f (scanned ++ child :: rest)) s) with
      | (none, s) => ((.mk f (scanned ++ child :: rest), false), s)
      | (some new, s) =>
        if new.length = 1 then expandChildren visit r scopeModule K f fuel (scanned ++ new) rest s
        else expandChildren visit r scopeModule K f fuel scanned (new ++ rest) s
    else
      match visit (K.child f scanned rest child) child s with
      | ((child, false), s) => ((.mk f (scanned ++ child :: rest), false), s)
      | ((child, true), s) =>
        expandChildren visit r scopeModule K f fuel (scanned ++ [child]) rest s

/-- The first number is that of the levels that are left. Every step of a scan goes to the next
child or uses up some of the growth. -/
def expandAppliesInNode : ℕ → Option ℕ → Context → AstNode → ExpandState →
    (AstNode × Bool) × ExpandState
  | 0, _, _, n, s => ((n, false), s.failDepth)
  | r + 1, scopeModule, K, n, s =>
    match expandChildren limits consts suffix
        (expandAppliesInNode r (scopeOf n scopeModule)) r (scopeOf n scopeModule) K n.fields
        (n.children.length + (limits.applyMaxGrowth - s.totalGrowth)) [] n.children s with
    | ((n, ok), s) => ((n, ok), K.put n s)

/-! ## The pass -/

def isWireBlock (n : AstNode) : Bool := decide (n.type = .wireBlock)

/-- The wires go to the end of the first wire block, or to a new one. -/
def insertScratchWires (m : AstNode) (wires : List AstNode) : AstNode :=
  if wires = [] then m
  else
    match m.children.span fun n => !isWireBlock n with
    | (before, block :: rest) =>
      .mk m.fields (before ++ .mk block.fields (block.children ++ wires) :: rest)
    | (before, []) =>
      .mk m.fields (before ++ [.mk { type := .wireBlock, blockKind := some "WIRE".toList } wires])

/-- The levels of nesting that the pass allows. -/
def templateExpandDepth : ℕ := 1024

/-- The modules of the project, each with its own wires. -/
def expandModules : List AstNode → ExpandState → List AstNode × ExpandState
  | [], s => ([], s)
  | child :: rest, s =>
    if isModule child then
      match expandAppliesInNode limits consts suffix templateExpandDepth (scopeOf child none) none
          child { s with scratchWires := [] } with
      | ((m, _), s) =>
        match expandModules rest s with
        | (rest, s') => (insertScratchWires m s.scratchWires :: rest, s')
    else
      match expandModules rest s with
      | (rest, s') => (child :: rest, s')

end

/-- The node without the definitions below it, and whether the nesting limit was hit. -/
def removeTemplateDefs : ℕ → AstNode → AstNode × Bool
  | 0, n => (n, true)
  | r + 1, .mk f children =>
    let results := (children.filter fun n => !isTemplateDef n).map (removeTemplateDefs r)
    (.mk f (results.map Prod.fst), results.any Prod.snd)

/-- The constants that the counts of a project are evaluated with. -/
def projectConsts (root : AstNode) : CountConsts :=
  collectConsts (gatherConstDefs templateExpandDepth root).1

/-- The state with all templates of the project. -/
def collectedState (root : AstNode) : ExpandState :=
  collectTemplates (projectConsts root) templateExpandDepth none root
    (if (gatherConstDefs templateExpandDepth root).2 then ExpandState.start.failDepth
      else ExpandState.start)

def expandedModules (limits : ApplyLimits) (suffix : ℕ → ℕ → ℕ → List Char) (root : AstNode) :
    List AstNode × ExpandState :=
  expandModules limits (projectConsts root) suffix root.children (collectedState root)

/-- The tree after the pass and the last state, unless the evaluation of a count does not end. -/
def jzTemplateExpand (limits : ApplyLimits) (suffix : ℕ → ℕ → ℕ → List Char) (root : AstNode) :
    Option (AstNode × ExpandState) :=
  let (children, s) := expandedModules limits suffix root
  let (tree, failed) := removeTemplateDefs templateExpandDepth (.mk root.fields children)
  if s.hung then none else some (tree, if failed then s.failDepth else s)

end JzHdl

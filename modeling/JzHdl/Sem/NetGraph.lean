import JzHdl.Sem.CombLoops

/-! # The net graph

Every declaration of a module starts as a net of its own. One walk over the
ASYNCHRONOUS blocks merges the nets that alias assignments join, a second one
records the statements that drive and that read each net.
-/

namespace JzHdl

/-! ## Modules -/

inductive NetAssignOp | alias | drive | receive | receiveLatch | other
  deriving DecidableEq

/-- Statements with the identity of their node. IF and ELIF are nodes of one kind, ELSE stands
beside them; the arms of a SELECT are its CASE and DEFAULT nodes. -/
inductive NetStmt

  | assign (id : ℕ) (op : NetAssignOp) (lhs rhs : CombExpr) (guard : Option CombExpr)

  | branch (id : ℕ) (condition : CombExpr) (body : List NetStmt)

  | elseBranch (body : List NetStmt)

  | select (id : ℕ) (selector : CombExpr) (arms : List (List NetStmt))

  | feature (thenBody elseBody : List NetStmt)

  | syncParam (id : ℕ) (exprs : List CombExpr)

structure NetBlock where

  isSync : Bool

  stmts : List NetStmt

/-- The direction of a port of an instance; for a bus, what the binding may do with it. -/
inductive NetDirection | out | inout | inp | bus (readable writable : Bool) | other
  deriving DecidableEq

namespace NetDirection

def writes : NetDirection → Bool
  | .out | .inout => true
  | .bus _ writable => writable
  | _ => false

def reads : NetDirection → Bool
  | .inp => true
  | .bus readable _ => readable
  | _ => false

end NetDirection

structure NetPort where

  direction : NetDirection

  rhs : CombExpr

structure NetInstance where

  id : ℕ

  ports : List NetPort

/-- A module. The instances under @feature guards are those of both branches; a clock of a CDC
entry stands for itself. -/
structure NetModule where

  scope : CombScope

  isBus : ℕ → Bool

  blocks : List NetBlock

  cdcClocks : List (ℕ × CombExpr)

  instances : List NetInstance

/-! ## Alias assignments -/

mutual

/-- The alias assignments that the walk meets in a statement of a block. The body of an IF or an
ELSE is walked as if its statements were blocks. -/
def aliasesOf : NetStmt → List (CombExpr × CombExpr)
  | .assign _ op lhs rhs _ => if op = .alias then [(lhs, rhs)] else []
  | .branch _ _ body | .elseBranch body => aliasesUnderAll body
  | .select _ _ arms => aliasesOfArms arms
  | .feature thenBody elseBody => aliasesOfAll thenBody ++ aliasesOfAll elseBody
  | .syncParam .. => []

/-- The same for a statement that is taken for a block. -/
def aliasesUnder : NetStmt → List (CombExpr × CombExpr)
  | .branch _ _ body | .elseBranch body => aliasesOfAll body
  | .select _ _ arms => aliasesUnderArms arms
  | .assign .. | .feature .. | .syncParam .. => []

def aliasesOfAll : List NetStmt → List (CombExpr × CombExpr)
  | [] => []
  | stmt :: rest => aliasesOf stmt ++ aliasesOfAll rest

def aliasesUnderAll : List NetStmt → List (CombExpr × CombExpr)
  | [] => []
  | stmt :: rest => aliasesUnder stmt ++ aliasesUnderAll rest

def aliasesOfArms : List (List NetStmt) → List (CombExpr × CombExpr)
  | [] => []
  | arm :: rest => aliasesOfAll arm ++ aliasesOfArms rest

def aliasesUnderArms : List (List NetStmt) → List (CombExpr × CombExpr)
  | [] => []
  | arm :: rest => aliasesUnderAll arm ++ aliasesUnderArms rest

end

mutual

/-- The statements of a tree at any depth. -/
def nodesOf : NetStmt → List NetStmt
  | .assign id op lhs rhs guard => [.assign id op lhs rhs guard]
  | .branch id condition body => .branch id condition body :: nodesOfAll body
  | .elseBranch body => .elseBranch body :: nodesOfAll body
  | .select id selector arms => .select id selector arms :: nodesOfArms arms
  | .feature thenBody elseBody =>
    .feature thenBody elseBody :: (nodesOfAll thenBody ++ nodesOfAll elseBody)
  | .syncParam id exprs => [.syncParam id exprs]

def nodesOfAll : List NetStmt → List NetStmt
  | [] => []
  | stmt :: rest => nodesOf stmt ++ nodesOfAll rest

def nodesOfArms : List (List NetStmt) → List NetStmt
  | [] => []
  | arm :: rest => nodesOfAll arm ++ nodesOfArms rest

end

/-! ## Nets -/

structure Net where

  atoms : List ℕ

  driverStmts : List ℕ

  sinkStmts : List ℕ

def Net.empty : Net := ⟨[], [], []⟩

/-- The nets by their index, and the net that each declaration is bound to. -/
structure NetGraph where

  count : ℕ

  bind : ℕ → Option ℕ

  nets : ℕ → Net

def CombScope.netDecls (scope : CombScope) : List ℕ :=
  (List.range scope.symbols.length).filter fun d => CombScope.isNet (scope.kind d)

namespace NetGraph

def buildInitial (scope : CombScope) : NetGraph where
  count := scope.netDecls.length
  bind d := scope.netDecls.idxOf? d
  nets ix := { Net.empty with atoms := (scope.netDecls[ix]?).toList }

/-- The net with the higher index is moved into the other one. -/
def merge (g : NetGraph) (a b : ℕ) : NetGraph :=
  if a = b ∨ g.count ≤ a ∨ g.count ≤ b then g
  else
    let root := min a b
    let other := max a b
    { g with
      bind := fun d => (g.bind d).map fun ix => if ix = other then root else ix
      nets := fun ix =>
        if ix = root then
          { atoms := (g.nets root).atoms ++ (g.nets other).atoms
            driverStmts := (g.nets root).driverStmts ++ (g.nets other).driverStmts
            sinkStmts := (g.nets root).sinkStmts ++ (g.nets other).sinkStmts }
        else if ix = other then Net.empty
        else g.nets ix }

def mergeDecls (g : NetGraph) (p : ℕ × ℕ) : NetGraph :=
  match g.bind p.1, g.bind p.2 with
  | some a, some b => g.merge a b
  | _, _ => g

end NetGraph

/-- The pairs of one alias assignment: every declaration on the left with every one on the
right. -/
def aliasPairs (scope : CombScope) (a : CombExpr × CombExpr) : List (ℕ × ℕ) :=
  (collectTargets scope a.1).flatMap fun d => (collectSources scope a.2).map fun e => (d, e)

/-! ## Usage -/

inductive NetMark

  | driver (decl stmt : ℕ)

  | sink (decl stmt : ℕ)

namespace NetModule

variable (M : NetModule)

/-- The first port of the name, if it is a bus. -/
def busPort (name : List Char) : List ℕ :=
  match M.scope.symbols.findIdx? fun sym => sym.name = name ∧ sym.kind = .port with
  | none => []
  | some decl => if M.isBus decl then [decl] else []

mutual

def lvalueDecls : CombExpr → List ℕ
  | .concat parts => lvalueDeclsAll parts
  | .slice children => lvalueDeclsBase children
  | .identifier name => M.scope.declOf CombScope.isNet name
  | .busAccess port _ => M.busPort port
  | .qualified name => (qualifier name).elim [] M.busPort
  | .operator _ | .leaf | .other _ => []

def lvalueDeclsAll : List CombExpr → List ℕ
  | [] => []
  | e :: rest => lvalueDecls e ++ lvalueDeclsAll rest

def lvalueDeclsBase : List CombExpr → List ℕ
  | [] => []
  | base :: _ => lvalueDecls base

end

mutual

def exprDecls : CombExpr → List ℕ
  | .identifier name => M.scope.declOf CombScope.isNet name
  | .busAccess port _ => M.busPort port
  | .qualified name => (qualifier name).elim [] M.busPort
  | .slice children | .concat children | .operator children => exprDeclsAll children
  | .leaf | .other _ => []

def exprDeclsAll : List CombExpr → List ℕ
  | [] => []
  | e :: rest => exprDecls e ++ exprDeclsAll rest

end

def driverMarks (target : CombExpr) (stmt : ℕ) : List NetMark :=
  (M.lvalueDecls target).map (.driver · stmt)

def sinkMarks (source : CombExpr) (stmt : ℕ) : List NetMark :=
  (M.exprDecls source).map (.sink · stmt)

/-- The side that an assignment writes. -/
def driverTarget (op : NetAssignOp) (lhs rhs : CombExpr) : CombExpr :=
  if op = .drive then rhs else lhs

def assignMarks (isSync : Bool) (id : ℕ) (op : NetAssignOp) (lhs rhs : CombExpr)
    (guard : Option CombExpr) : List NetMark :=
  (if op = .alias ∧ isSync = false then [] else M.driverMarks (driverTarget op lhs rhs) id) ++
    M.sinkMarks (if op = .drive then lhs else rhs) id ++ M.sinkMarks rhs id ++
    if op = .receiveLatch then guard.elim [] (M.sinkMarks · id) else []

mutual

def usageOf (isSync : Bool) : NetStmt → List NetMark
  | .assign id op lhs rhs guard => M.assignMarks isSync id op lhs rhs guard
  | .branch id condition body => M.sinkMarks condition id ++ usageOfAll isSync body
  | .elseBranch body => usageOfAll isSync body
  | .select id selector arms => M.sinkMarks selector id ++ usageOfArms isSync arms
  | .feature thenBody elseBody => usageOfAll isSync thenBody ++ usageOfAll isSync elseBody
  | .syncParam id exprs => exprs.flatMap (M.sinkMarks · id)

def usageOfAll (isSync : Bool) : List NetStmt → List NetMark
  | [] => []
  | stmt :: rest => usageOf isSync stmt ++ usageOfAll isSync rest

def usageOfArms (isSync : Bool) : List (List NetStmt) → List NetMark
  | [] => []
  | arm :: rest => usageOfAll isSync arm ++ usageOfArms isSync rest

end

def instanceUsage (inst : NetInstance) : List NetMark :=
  inst.ports.flatMap fun port =>
    (if port.direction.writes then M.driverMarks port.rhs inst.id else []) ++
      if port.direction.reads then M.sinkMarks port.rhs inst.id else []

/-- All records of the second walk, in its order. -/
def usage : List NetMark :=
  (M.blocks.flatMap fun block => M.usageOfAll block.isSync block.stmts) ++
    (M.cdcClocks.flatMap fun clock => M.sinkMarks clock.2 clock.1) ++
    M.instances.flatMap M.instanceUsage

end NetModule

namespace NetGraph

/-- Append a statement to a list of the net that a declaration is bound to. -/
def recordAt (g : NetGraph) (decl : ℕ) (append : Net → Net) : NetGraph :=
  match g.bind decl with
  | none => g
  | some i =>
    if g.count ≤ i then g
    else ⟨g.count, g.bind, fun ix => if ix = i then append (g.nets i) else g.nets ix⟩

def record (g : NetGraph) : NetMark → NetGraph
  | .driver decl stmt => g.recordAt decl fun net =>
      { net with driverStmts := net.driverStmts ++ [stmt] }
  | .sink decl stmt => g.recordAt decl fun net => { net with sinkStmts := net.sinkStmts ++ [stmt] }

end NetGraph

namespace NetModule

variable (M : NetModule)

def collectedPairs : List (ℕ × ℕ) :=
  (M.blocks.flatMap fun block =>
    if block.isSync then [] else aliasesOfAll block.stmts).flatMap (aliasPairs M.scope)

def buildModuleGraph : NetGraph :=
  M.usage.foldl NetGraph.record
    (M.collectedPairs.foldl NetGraph.mergeDecls (NetGraph.buildInitial M.scope))

/-! ## The partition and its users -/

/-- An alias assignment of an ASYNCHRONOUS block, at any depth, with one declaration on its left
and the other on its right. -/
def Aliased (d e : ℕ) : Prop :=
  ∃ block ∈ M.blocks, block.isSync = false ∧ ∃ id lhs rhs guard,
    .assign id .alias lhs rhs guard ∈ nodesOfAll block.stmts ∧
      d ∈ collectTargets M.scope lhs ∧ e ∈ collectSources M.scope rhs

/-- The statement or instance writes the declaration. -/
inductive Drives : ℕ → ℕ → Prop where

  | assign {block : NetBlock} {id : ℕ} {op : NetAssignOp} {lhs rhs : CombExpr}
      {guard : Option CombExpr} {d : ℕ} : block ∈ M.blocks →
      .assign id op lhs rhs guard ∈ nodesOfAll block.stmts →
      (op = .alias → block.isSync = true) → d ∈ M.lvalueDecls (driverTarget op lhs rhs) →
      Drives id d

  | port {inst : NetInstance} {port : NetPort} {d : ℕ} : inst ∈ M.instances →
      port ∈ inst.ports → port.direction.writes = true → d ∈ M.lvalueDecls port.rhs →
      Drives inst.id d

/-- The statement or instance reads the declaration. The right-hand side of every assignment
counts, of a drive too; conditions, selectors, parameters of a clocked block and CDC clocks read
as well. -/
inductive Reads : ℕ → ℕ → Prop where

  | right {block : NetBlock} {id : ℕ} {op : NetAssignOp} {lhs rhs : CombExpr}
      {guard : Option CombExpr} {d : ℕ} : block ∈ M.blocks →
      .assign id op lhs rhs guard ∈ nodesOfAll block.stmts → d ∈ M.exprDecls rhs → Reads id d

  | left {block : NetBlock} {id : ℕ} {lhs rhs : CombExpr} {guard : Option CombExpr} {d : ℕ} :
      block ∈ M.blocks → .assign id .drive lhs rhs guard ∈ nodesOfAll block.stmts →
      d ∈ M.exprDecls lhs → Reads id d

  | latchGuard {block : NetBlock} {id : ℕ} {lhs rhs guard : CombExpr} {d : ℕ} :
      block ∈ M.blocks → .assign id .receiveLatch lhs rhs (some guard) ∈ nodesOfAll block.stmts →
      d ∈ M.exprDecls guard → Reads id d

  | condition {block : NetBlock} {id : ℕ} {condition : CombExpr} {body : List NetStmt} {d : ℕ} :
      block ∈ M.blocks → .branch id condition body ∈ nodesOfAll block.stmts →
      d ∈ M.exprDecls condition → Reads id d

  | selector {block : NetBlock} {id : ℕ} {selector : CombExpr} {arms : List (List NetStmt)}
      {d : ℕ} : block ∈ M.blocks → .select id selector arms ∈ nodesOfAll block.stmts →
      d ∈ M.exprDecls selector → Reads id d

  | param {block : NetBlock} {id : ℕ} {exprs : List CombExpr} {e : CombExpr} {d : ℕ} :
      block ∈ M.blocks → .syncParam id exprs ∈ nodesOfAll block.stmts → e ∈ exprs →
      d ∈ M.exprDecls e → Reads id d

  | clock {id : ℕ} {e : CombExpr} {d : ℕ} : (id, e) ∈ M.cdcClocks → d ∈ M.exprDecls e →
      Reads id d

  | port {inst : NetInstance} {port : NetPort} {d : ℕ} : inst ∈ M.instances →
      port ∈ inst.ports → port.direction.reads = true → d ∈ M.exprDecls port.rhs →
      Reads inst.id d

/-- The graph is the partition by aliases with the users of every net. -/
structure ExactGraph (g : NetGraph) : Prop where

  bound : ∀ d ∈ M.scope.netDecls, ∃ ix < g.count, g.bind d = some ix ∧
    (g.nets ix).atoms.count d = 1 ∧ ∀ j, d ∈ (g.nets j).atoms → j = ix

  same : ∀ d ∈ M.scope.netDecls, ∀ e ∈ M.scope.netDecls,
    (g.bind d = g.bind e ↔ Relation.EqvGen M.Aliased d e)

  drivers : ∀ ix stmt, stmt ∈ (g.nets ix).driverStmts ↔ ∃ d, g.bind d = some ix ∧ M.Drives stmt d

  sinks : ∀ ix stmt, stmt ∈ (g.nets ix).sinkStmts ↔ ∃ d, g.bind d = some ix ∧ M.Reads stmt d

end NetModule

end JzHdl

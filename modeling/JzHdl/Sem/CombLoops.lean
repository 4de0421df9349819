import JzHdl.Lib.CycleSearch
import JzHdl.Lib.PathCap
import JzHdl.Sem.Exclusive

/-! # Combinational loops

The loop check walks an ASYNCHRONOUS block with a set of edges for every path
and searches each set and their union for cycles. The second half of this file
gives the graph that the check is about, path by path.
-/

namespace JzHdl

open CycleSearch PathCap

/-! ## Expressions and statements -/

/-- Expressions, with children in the order of the syntax tree. A slice has its base first and
then its bounds. -/
inductive CombExpr

  | identifier (name : List Char)

  | qualified (name : List Char)

  | busAccess (port : List Char) (index : List CombExpr)

  | slice (children : List CombExpr)

  | concat (parts : List CombExpr)

  /-- A unary, binary or conditional operator or a call of a builtin function. -/
  | operator (args : List CombExpr)

  /-- A literal, `GND` or `VCC`. -/
  | leaf

  /-- An access that no case of the collection knows. -/
  | other (children : List CombExpr)

inductive AssignDirection | drive | receive
  deriving DecidableEq

/-- An IF is one statement with its ELIFs and its ELSE: there is a body for each condition, and
one more when there is an ELSE. The cases of a SELECT include its DEFAULT, and a label without
braces belongs to the arm that it falls through to. -/
inductive CombStmt

  | assign (direction : AssignDirection) (lhs rhs : CombExpr)

  | ifChain (conds : List CombExpr) (bodies : List (List CombStmt))

  | select (selector : CombExpr) (cases : List (List CombStmt)) (hasDefault : Bool)

  | block (stmts : List CombStmt)

def hasElse (conds : List CombExpr) (bodies : List (List CombStmt)) : Bool :=
  conds.length < bodies.length

/-! ## Nets -/

structure CombSymbol where

  name : List Char

  kind : FlowSymbolKind

structure CombScope where

  symbols : List CombSymbol

namespace CombScope

variable (scope : CombScope)

/-- The position of the first symbol of a name, which stands for its declaration. -/
def moduleScopeLookup (name : List Char) : Option ℕ :=
  scope.symbols.findIdx? fun sym => sym.name = name

def kind (decl : ℕ) : FlowSymbolKind := (scope.symbols[decl]?).elim .other CombSymbol.kind

/-- Ports, wires, registers and latches have nets. -/
def isNet (k : FlowSymbolKind) : Bool := k ≠ .other

/-- What a latch holds is no combinational source. -/
def isSource (k : FlowSymbolKind) : Bool := k ≠ .other && k ≠ .latch

def netCount : ℕ := scope.symbols.countP fun sym => isNet sym.kind

/-- Every declaration with a net has one of its own, in the order of the symbols. -/
def findBinding (decl : ℕ) : Option ℕ :=
  if isNet (scope.kind decl) then
    some ((scope.symbols.take decl).countP fun sym => isNet sym.kind)
  else none

def declOf (accepts : FlowSymbolKind → Bool) (name : List Char) : List ℕ :=
  match scope.moduleScopeLookup name with
  | none => []
  | some decl => if accepts (scope.kind decl) then [decl] else []

end CombScope

/-- The name before the first point of a qualified name that fits into the buffer. -/
def qualifier (name : List Char) : Option (List Char) :=
  let head := name.takeWhile (· ≠ '.')
  if '.' ∈ name ∧ head ≠ [] ∧ head.length < 256 then some head else none

section

variable (scope : CombScope)

/-! ## Collection -/

mutual

def collectTargets : CombExpr → List ℕ
  | .concat parts => collectTargetsAll parts
  | .slice (.identifier name :: _) => scope.declOf CombScope.isNet name
  | .identifier name => scope.declOf CombScope.isSource name
  | _ => []

def collectTargetsAll : List CombExpr → List ℕ
  | [] => []
  | e :: rest => collectTargets e ++ collectTargetsAll rest

end

mutual

def collectSources : CombExpr → List ℕ
  | .identifier name => scope.declOf CombScope.isSource name
  | .busAccess port _ => scope.declOf CombScope.isSource port
  | .qualified name => (qualifier name).elim [] (scope.declOf CombScope.isSource)
  | .slice children => collectSourcesAll children
  | .concat parts => collectSourcesAll parts
  | .operator args => collectSourcesAll args
  | .leaf => []
  | .other _ => []

def collectSourcesAll : List CombExpr → List ℕ
  | [] => []
  | e :: rest => collectSources e ++ collectSourcesAll rest

end

/-- The edges that an assignment adds to every path. -/
def recordEdges (direction : AssignDirection) (lhs rhs : CombExpr) : List Edge :=
  (collectTargets scope lhs).flatMap fun lhsDecl =>
    (collectSources scope rhs).filterMap fun rhsDecl =>
      match scope.findBinding lhsDecl, scope.findBinding rhsDecl with
      | some lhsNet, some rhsNet =>
        let edge := if direction = .drive then (lhsNet, rhsNet) else (rhsNet, lhsNet)
        if edge.1 < scope.netCount ∧ edge.2 < scope.netCount then some edge else none
      | _, _ => none

/-! ## Walk -/

def combMaxPaths : ℕ := 256

mutual

/-- Only the statements of a whole block are grouped into chains. A nested IF is a chain of its
own, and the ELIF and ELSE nodes behind it are passed over. -/
def combStmt : CombStmt → Bool → List (List Edge) → List (List Edge)
  | .assign direction lhs rhs, _, paths =>
    paths.map fun p => p ++ recordEdges scope direction lhs rhs
  | .ifChain conds bodies, inBlock, paths =>
    capPaths combMaxPaths
      (branchOut (if inBlock then combBodies bodies else (combBodies bodies).take 1)
        (inBlock && hasElse conds bodies) paths)
  | .select _ cases hasDefault, _, paths =>
    if cases.isEmpty then paths
    else capPaths combMaxPaths (branchOut (combCases cases) hasDefault paths)
  | .block stmts, _, paths => combStmts stmts false paths

def combStmts : List CombStmt → Bool → List (List Edge) → List (List Edge)
  | [], _, paths => paths
  | stmt :: rest, inBlock, paths => combStmts rest inBlock (combStmt stmt inBlock paths)

def combBodies : List (List CombStmt) → List (List (List Edge) → List (List Edge))
  | [] => []
  | body :: rest => combStmts body false :: combBodies rest

/-- An arm without statements adds no path. -/
def combCases : List (List CombStmt) → List (List (List Edge) → List (List Edge))
  | [] => []
  | body :: rest =>
    if body.isEmpty then combCases rest else combStmts body false :: combCases rest

end

end

/-! ## Reports -/

inductive CombReport | unconditional | conditionalSafe
  deriving DecidableEq

structure CombModule where

  scope : CombScope

  /-- The edges that the instances of other modules contribute, with a flag for those that exist
  on some paths of the instance only. -/
  instanceEdges : List (Edge × Bool)

  asyncBlocks : List (List CombStmt)

namespace CombModule

variable (m : CombModule)

def edgeInRange (e : Edge) : Bool := e.1 < m.scope.netCount && e.2 < m.scope.netCount

/-- A conditional edge splits every path. -/
def addEdgeToPaths (paths : List (List Edge)) (edge : Edge × Bool) : List (List Edge) :=
  if edge.2 then capPaths combMaxPaths (paths.flatMap fun p => [p ++ [edge.1], p])
  else paths.map fun p => p ++ [edge.1]

def injectAllInstanceEdges : List (List Edge) :=
  (m.instanceEdges.filter fun e => m.edgeInRange e.1).foldl addEdgeToPaths [[]]

def checkBlock (stmts : List CombStmt) : Option CombReport :=
  let paths := combStmts m.scope stmts true m.injectAllInstanceEdges
  if paths.any fun p => hasCycle p m.scope.netCount then some .unconditional
  else if hasCycle paths.flatten m.scope.netCount then some .conditionalSafe
  else none

/-- `sem_check_combinational_loops_for_module`, with a result for every block. -/
def checkCombinationalLoops : List (Option CombReport) := m.asyncBlocks.map m.checkBlock

end CombModule

/-! ## The graph of a path -/

section

variable (scope : CombScope)

/-- The net of a name. -/
def netOf (accepts : FlowSymbolKind → Bool) (name : List Char) : List ℕ :=
  (scope.declOf accepts name).filterMap scope.findBinding

section

variable (accepts : FlowSymbolKind → Bool)

mutual

/-- The nets that are named anywhere in an expression. -/
def namedNets : CombExpr → List ℕ
  | .identifier name => netOf scope accepts name
  | .busAccess port index => netOf scope accepts port ++ namedNetsAll index
  | .qualified name => (qualifier name).elim [] (netOf scope accepts)
  | .slice children => namedNetsAll children
  | .concat parts => namedNetsAll parts
  | .operator args => namedNetsAll args
  | .leaf => []
  | .other children => namedNetsAll children

def namedNetsAll : List CombExpr → List ℕ
  | [] => []
  | e :: rest => namedNets e ++ namedNetsAll rest

end

mutual

/-- The nets that a target writes as a whole or in part. -/
def writtenNets : CombExpr → List ℕ
  | .identifier name => netOf scope accepts name
  | .slice (.identifier name :: _) => netOf scope CombScope.isNet name
  | .slice (base :: _) => writtenNets base
  | .concat parts => writtenNetsAll parts
  | .busAccess port _ => netOf scope CombScope.isSource port
  | .qualified name => (qualifier name).elim [] (netOf scope CombScope.isSource)
  | _ => []

def writtenNetsAll : List CombExpr → List ℕ
  | [] => []
  | e :: rest => writtenNets e ++ writtenNetsAll rest

end

end

mutual

/-- The nets that are read to find the part of a target that is written. -/
def indexNets : CombExpr → List ℕ
  | .slice (_ :: bounds) => namedNetsAll scope CombScope.isNet bounds
  | .concat parts => indexNetsAll parts
  | .busAccess _ index => namedNetsAll scope CombScope.isNet index
  | _ => []

def indexNetsAll : List CombExpr → List ℕ
  | [] => []
  | e :: rest => indexNets e ++ indexNetsAll rest

end

def readSide : AssignDirection → CombExpr → CombExpr → CombExpr
  | .drive, lhs, _ => lhs
  | .receive, _, rhs => rhs

def writeSide : AssignDirection → CombExpr → CombExpr → CombExpr
  | .drive, _, rhs => rhs
  | .receive, lhs, _ => lhs

/-- The edges of an assignment. The full graph has what guards the assignment and what its target
reads among the sources, and latches on both sides. Without that the sources are the ports, wires
and registers of the side that is read. -/
def graphEdges (full : Bool) (guards : List ℕ) (direction : AssignDirection)
    (lhs rhs : CombExpr) : List Edge :=
  let written := writeSide direction lhs rhs
  let reads := readSide direction lhs rhs
  let sources :=
    if full then guards ++ namedNets scope CombScope.isNet reads ++ indexNets scope written
    else namedNets scope CombScope.isSource reads
  sources.flatMap fun r =>
    (writtenNets scope (if full then CombScope.isNet else CombScope.isSource) written).map
      fun w => (r, w)

section

variable (full : Bool)

mutual

/-- The graph of every structural path. -/
def stmtGraphs : CombStmt → List ℕ → List (List Edge)
  | .assign direction lhs rhs, guards => [graphEdges scope full guards direction lhs rhs]
  | .ifChain conds bodies, guards =>
    (branchGraphs bodies conds guards).flatten ++ if hasElse conds bodies then [] else [[]]
  | .select selector cases hasDefault, guards =>
    (branchGraphs cases [] (guards ++ namedNets scope CombScope.isNet selector)).flatten ++
      if hasDefault then [] else [[]]
  | .block stmts, guards => blockGraphs stmts guards

def blockGraphs : List CombStmt → List ℕ → List (List Edge)
  | [], _ => [[]]
  | stmt :: rest, guards => joinPaths (stmtGraphs stmt guards) (blockGraphs rest guards)

/-- A branch is guarded by its condition and by the conditions before it. -/
def branchGraphs : List (List CombStmt) → List CombExpr → List ℕ → List (List (List Edge))
  | [], _, _ => []
  | body :: rest, conds, guards =>
    let guards := guards ++ conds.head?.elim [] (namedNets scope CombScope.isNet)
    blockGraphs body guards :: branchGraphs rest conds.tail guards

end

end

end

/-- An instance edge lies on every path, or on one of two. -/
def instanceGraphs : List (Edge × Bool) → List (List Edge)
  | [] => [[]]
  | edge :: rest =>
    joinPaths (if edge.2 then [[edge.1], []] else [[edge.1]]) (instanceGraphs rest)

namespace CombModule

variable (m : CombModule)

/-- The paths of a block, with the edges of the instances around it. -/
def combPaths (stmts : List CombStmt) : List (List Edge) :=
  joinPaths (instanceGraphs (m.instanceEdges.filter fun e => m.edgeInRange e.1))
    (blockGraphs m.scope false stmts [])

/-- The reports are those of the full graph of the blocks. -/
def LoopsClassified : Prop :=
  let paths := blockGraphs m.scope true m.asyncBlocks.flatten []
  let reports := m.checkCombinationalLoops
  (some .unconditional ∈ reports ↔ ∃ p ∈ paths, Cyclic p) ∧
    (some .conditionalSafe ∈ reports ↔ (∀ p ∈ paths, ¬ Cyclic p) ∧ Cyclic paths.flatten) ∧
    ((∀ r ∈ reports, r = none) ↔ ¬ Cyclic paths.flatten)

/-- A report that is right for the paths of the block. With more than 256 of them a cycle of their
union counts as unconditional. -/
structure BlockClassified (stmts : List CombStmt) (report : Option CombReport) : Prop where

  none_iff : report = none ↔ ¬ Cyclic (m.combPaths stmts).flatten

  unconditional : (∃ p ∈ m.combPaths stmts, Cyclic p) → report = some .unconditional

  unconditional_iff : (m.combPaths stmts).length ≤ combMaxPaths →
    (report = some .unconditional ↔ ∃ p ∈ m.combPaths stmts, Cyclic p)

  conditionalSafe_iff : (m.combPaths stmts).length ≤ combMaxPaths →
    (report = some .conditionalSafe ↔
      (∀ p ∈ m.combPaths stmts, ¬ Cyclic p) ∧ Cyclic (m.combPaths stmts).flatten)

end CombModule

/-! ## Plain blocks -/

section

variable (scope : CombScope)

mutual

/-- Names, slices of names and concatenations. -/
def PlainTarget : CombExpr → Prop
  | .identifier _ => True
  | .slice (.identifier _ :: _) => True
  | .concat parts => PlainTargetAll parts
  | _ => False

def PlainTargetAll : List CombExpr → Prop
  | [] => True
  | e :: rest => PlainTarget e ∧ PlainTargetAll rest

end

mutual

/-- No net is named in the index of a BUS access or in an access that is not collected. -/
def PlainSource : CombExpr → Prop
  | .busAccess _ index => namedNetsAll scope CombScope.isSource index = []
  | .slice children => PlainSourceAll children
  | .concat parts => PlainSourceAll parts
  | .operator args => PlainSourceAll args
  | .other children => namedNetsAll scope CombScope.isSource children = []
  | _ => True

def PlainSourceAll : List CombExpr → Prop
  | [] => True
  | e :: rest => PlainSource e ∧ PlainSourceAll rest

end

mutual

/-- Targets that read no net for their bounds and slice no latch. -/
def PlainName : CombExpr → Prop
  | .identifier _ => True
  | .slice (.identifier name :: bounds) =>
    scope.declOf CombScope.isNet name = scope.declOf CombScope.isSource name ∧
      PlainSourceAll scope bounds ∧ namedNetsAll scope CombScope.isSource bounds = []
  | .concat parts => PlainNameAll parts
  | _ => False

def PlainNameAll : List CombExpr → Prop
  | [] => True
  | e :: rest => PlainName e ∧ PlainNameAll rest

end

def PlainAssign : AssignDirection → CombExpr → CombExpr → Prop
  | .drive, lhs, rhs => PlainName scope lhs ∧ PlainName scope rhs
  | .receive, lhs, rhs => PlainTarget lhs ∧ PlainSource scope rhs

mutual

/-- Only the chains of a whole block have ELIFs and ELSEs, and a SELECT with a DEFAULT has an arm
with statements. -/
def PlainStmt : CombStmt → Bool → Prop
  | .assign direction lhs rhs, _ => PlainAssign scope direction lhs rhs
  | .ifChain conds bodies, inBlock =>
    (inBlock = true ∨ conds.length = 1 ∧ bodies.length = 1) ∧ PlainBodies bodies
  | .select _ cases hasDefault, _ =>
    (hasDefault = true → ∃ body ∈ cases, body ≠ []) ∧ PlainBodies cases
  | .block stmts, _ => PlainStmts stmts false

def PlainStmts : List CombStmt → Bool → Prop
  | [], _ => True
  | stmt :: rest, inBlock => PlainStmt stmt inBlock ∧ PlainStmts rest inBlock

def PlainBodies : List (List CombStmt) → Prop
  | [] => True
  | body :: rest => PlainStmts body false ∧ PlainBodies rest

end

end

end JzHdl

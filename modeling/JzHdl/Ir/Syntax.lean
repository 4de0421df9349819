import JzHdl.Sim.Value

/-! # Intermediate representation

Expressions, statements and modules as the simulator executes them. A null
pointer of the source is a constructor of its own.
-/

namespace JzHdl

open BitWords

inductive IRUnaryOp | not | neg | logicalNot
  deriving DecidableEq, Repr

/-- The expression kinds that use the binary layout, intrinsics included. -/
inductive IRBinaryOp
  | add | sub | mul | div | mod
  | and | or | xor
  | shl | shr | ashr
  | eq | neq | lt | gt | lte | gte
  | logicalAnd | logicalOr
  | usub | ssub | umin | umax | smin | smax
  deriving DecidableEq, Repr

/-- The expression kinds that use the source, index and value layout. -/
inductive IRIntrinsicOp
  | uadd | sadd | umul | smul
  | gbit | sbit | gslice | sslice
  | oh2b | b2oh | prienc | lzc
  | abs | popcount | reverse | bswap
  | reduceAnd | reduceOr | reduceXor
  deriving DecidableEq, Repr

structure IRLiteral where

  words : SimWords

  width : ℕ

  isZ : Bool

inductive IRExpr where

  | null

  | literal (lit : IRLiteral) (width : ℕ)

  | signalRef (signalId : ℕ) (width : ℕ)

  | unary (op : IRUnaryOp) (operand : IRExpr) (width : ℕ)

  | binary (op : IRBinaryOp) (left right : IRExpr) (width : ℕ)

  | ternary (condition trueVal falseVal : IRExpr)

  | concat (operands : List IRExpr)

  | slice (signalId msb lsb : ℕ) (width : ℕ)

  | sliceExpr (baseExpr : IRExpr) (msb lsb : ℕ)

  | intrinsic (op : IRIntrinsicOp) (source index value : IRExpr) (elementWidth : ℕ) (width : ℕ)

  | memRead (memoryName : String) (address : IRExpr) (width : ℕ)

inductive IRAssignmentKind
  | alias | aliasZext | aliasSext
  | drive | driveZext | driveSext
  | receive | receiveZext | receiveSext
  deriving DecidableEq, Repr

structure IRAssignment where

  lhsSignalId : ℕ

  rhs : IRExpr

  kind : IRAssignmentKind

  isSliced : Bool

  lhsMsb : ℕ

  lhsLsb : ℕ

/-- Statements. A select case whose value is null is the DEFAULT case. -/
inductive IRStmt where

  | null

  | assignment (assign : IRAssignment)

  | ifStmt (condition : IRExpr) (thenBlock elifChain elseBlock : IRStmt)

  | select (selector : IRExpr) (cases : List (IRExpr × IRStmt))

  | block (stmts : List IRStmt)

  | memWrite (memoryName : String) (address data : IRExpr)

def IRStmt.isNull : IRStmt → Bool
  | .null => true
  | _ => false

def IRExpr.isNull : IRExpr → Bool
  | .null => true
  | _ => false

inductive IRPortDirection | portIn | portOut | portInout
  deriving DecidableEq, Repr

inductive IRSignalKind where

  | port (direction : IRPortDirection)

  | net

  | register (resetValue : IRLiteral)

  | latch

structure IRSignal where

  id : ℕ

  kind : IRSignalKind

  width : ℕ

structure IRMemory where

  name : String

  wordWidth : ℕ

  depth : ℕ
  deriving DecidableEq

inductive IRClockEdge | rising | falling | both
  deriving DecidableEq, Repr

inductive IRResetPolarity | activeHigh | activeLow
  deriving DecidableEq, Repr

structure IRClockDomain where

  clockSignalId : ℕ

  edge : IRClockEdge

  registerIds : List ℕ

  resetSignalId : Option ℕ

  resetActive : IRResetPolarity

  statements : IRStmt

/-- One port of an instance. A missing parent signal or slice is `none`. -/
structure IRInstanceConnection where

  parentSignalId : Option ℕ

  childPortId : ℕ

  parentSlice : Option (ℕ × ℕ)

  constExpr : Bool
  deriving DecidableEq

structure IRInstance where

  connections : List IRInstanceConnection
  deriving DecidableEq

structure IRModule where

  signals : List IRSignal

  memories : List IRMemory

  clockDomains : List IRClockDomain

  asyncBlock : IRStmt

end JzHdl

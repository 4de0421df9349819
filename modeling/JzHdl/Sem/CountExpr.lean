import JzHdl.Sem.ConstEval
import JzHdl.Sem.Exclusive
import JzHdl.Ir.MemTokens
import Mathlib.Data.List.TakeWhile

/-! # Counts of template applications

The count of an application is a text, which is split at its last top-level sign and evaluated
from the parts.
-/

namespace JzHdl

inductive CountResult

  /-- The evaluation does not end. -/
  | hang

  | fail

  | value (v : ℤ)
  deriving DecidableEq, Repr

abbrev CountConsts := List (List Char × ℤ)

def lookupConst (consts : CountConsts) (name : List Char) : Option ℤ :=
  (consts.find? fun c => decide (c.1 = name)).map Prod.snd

/-- The digits behind the sign that `strtol` skips, if it takes the text as a whole. -/
def wholeNumber (negate : Bool) (digits : List Char) : Option ℤ :=
  if digits = [] then none
  else (wholeDigits 10 0 digits).map fun n : ℕ => clampLong (if negate then -(n : ℤ) else n)

def parseIntStr (s : List Char) : Option ℤ :=
  match s.dropWhile isSpaceChar with
  | '-' :: digits => wholeNumber true digits
  | '+' :: digits => wholeNumber false digits
  | digits => wholeNumber false digits

/-- No parenthesis before the last character closes the first one. -/
def wrapsFrom : ℤ → List Char → Bool
  | _, [] => true
  | depth, c :: rest =>
    if c = '(' then wrapsFrom (depth + 1) rest
    else if c = ')' then
      if depth - 1 = 0 ∧ rest ≠ [] then false else wrapsFrom (depth - 1) rest
    else wrapsFrom depth rest

/-- The text inside one layer of wrapping parentheses. -/
def unwrapParens : List Char → Option (List Char)
  | '(' :: rest =>
    if rest.getLast? = some ')' ∧ wrapsFrom 0 ('(' :: rest).dropLast = true then some rest.dropLast
    else none
  | _ => none

def configPrefix : List Char := "CONFIG.".toList

/-- The lookups of a name, with and without `CONFIG.` before it. -/
def lookupName (consts : CountConsts) (name : List Char) : Option ℤ :=
  match lookupConst consts name with
  | some v => some v
  | none => if name.take 7 = configPrefix then lookupConst consts (name.drop 7) else none

/-- The text behind the parenthesis that closes so many open ones. -/
def closeParen : ℕ → List Char → Option (List Char)
  | 0, rest => some rest
  | _ + 1, [] => none
  | depth + 1, c :: rest =>
    if c = '(' then closeParen (depth + 2) rest
    else if c = ')' then closeParen depth rest
    else closeParen (depth + 1) rest

/-- The argument, if the whole text is a call. -/
def clog2Arg (s : List Char) : Option (List Char) :=
  if s.take 5 = "clog2".toList then
    match (s.drop 5).dropWhile isSpaceChar with
    | '(' :: rest =>
      match closeParen 1 rest with
      | some after => if after.dropWhile isSpaceChar = [] then some rest.dropLast else none
      | none => none
    | _ => none
  else none

/-- The probe is doubled until it reaches the argument. Beyond `2 ^ 62` it overflows to 0. -/
def clog2Probe (arg : ℤ) : ℕ → ℤ → ℤ → CountResult
  | 0, probe, out => if probe < arg then .hang else .value out
  | room + 1, probe, out =>
    if probe < arg then clog2Probe arg room (2 * probe) (out + 1) else .value out

def countClog2 (arg : ℤ) : CountResult := if arg = 1 then .value 1 else clog2Probe arg 62 1 0

def depthAfter (depth : ℤ) (c : Char) : ℤ :=
  if c = '(' then depth + 1 else if c = ')' then depth - 1 else depth

/-- The texts around the last sign outside of all parentheses. -/
def splitTop (sign : Char) : ℤ → List Char → Option (List Char × List Char)
  | _, [] => none
  | depth, c :: rest =>
    match splitTop sign (depthAfter depth c) rest with
    | some parts => some (c :: parts.1, parts.2)
    | none => if depth = 0 ∧ c = sign then some ([], rest) else none

/-- A minus sign at the front is no operator. -/
def splitMinus : List Char → Option (List Char × List Char)
  | [] => none
  | c :: rest => (splitTop '-' (depthAfter 0 c) rest).map fun parts => (c :: parts.1, parts.2)

/-- Both parts are evaluated, the right one only if the left one has a value. -/
def bothValues (op : ℤ → ℤ → ℤ) (otherwise : CountResult) :
    CountResult → CountResult → CountResult
  | .hang, _ => .hang
  | .fail, _ => otherwise
  | .value _, .hang => .hang
  | .value _, .fail => otherwise
  | .value l, .value r => .value (wrap (op l r))

section

variable (consts : CountConsts) (rec : List Char → CountResult)

def tryOp (op : ℤ → ℤ → ℤ) (parts : Option (List Char × List Char)) (otherwise : CountResult) :
    CountResult :=
  match parts with
  | none => otherwise
  | some (left, right) => bothValues op otherwise (rec left) (rec right)

def evalOps (s : List Char) : CountResult :=
  tryOp rec (· + ·) (splitTop '+' 0 s)
    (tryOp rec (· - ·) (splitMinus s) (tryOp rec (· * ·) (splitTop '*' 0 s) .fail))

/-- What follows the attempt on wrapping parentheses. -/
def evalUnwrapped (s : List Char) : CountResult :=
  match parseIntStr s with
  | some v => .value v
  | none =>
    match lookupName consts s with
    | some v => .value v
    | none =>
      match clog2Arg s with
      | none => evalOps rec s
      | some arg =>
        match rec arg with
        | .hang => .hang
        | .fail => evalOps rec s
        | .value v => if 0 < v then countClog2 v else evalOps rec s

def evalCountStep (expr : List Char) : CountResult :=
  let s := expr.dropWhile isSpaceChar
  if s = [] then .fail
  else
    match unwrapParens s with
    | none => evalUnwrapped consts rec s
    | some inner =>
      match rec inner with
      | .fail => evalUnwrapped consts rec s
      | result => result

end

/-- `eval_count_expr` on texts below a length. -/
def evalCountBelow (consts : CountConsts) : ℕ → List Char → CountResult
  | 0, _ => .fail
  | bound + 1, expr => evalCountStep consts (evalCountBelow consts bound) expr

def evalCountExpr (consts : CountConsts) (expr : List Char) : CountResult :=
  evalCountBelow consts (expr.length + 1) expr

end JzHdl

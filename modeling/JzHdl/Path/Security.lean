import JzHdl.Lib.Components

/-! # Path validation

The textual normaliser, the sandbox roots and the checks a user-supplied path
goes through. What the platform answers is a parameter.
-/

namespace JzHdl

/-- A path as the characters before its terminator. -/
abbrev PathText := List Char

/-- The answers of the platform: `realpath`, `getcwd` and whether `lstat` finds a link. -/
structure Platform where

  realpath : PathText → Option PathText

  getcwd : Option PathText

  isLink : PathText → Bool

def maxSandboxRoots : ℕ := 32

/-- The length of the component array of the normaliser. -/
def maxComponents : ℕ := 256

def dotText : PathText := ['.']

def dotDotText : PathText := ['.', '.']

def isAbsolute (path : PathText) : Bool := path.head? == some '/'

/-- Everything before the last slash. -/
def pathDirname (filepath : PathText) : PathText :=
  match filepath.reverse.dropWhile (· ≠ '/') with
  | [] => dotText
  | [_] => ['/']
  | _ :: dir => dir.reverse

/-! ## Textual normalisation -/

/-- One component of the loop; the components kept so far are listed last one first. -/
def pushComponent (absolute : Bool) (kept : List PathText) (c : PathText) : List PathText :=
  if c = dotText then kept
  else if c = dotDotText then
    if kept ≠ [] ∧ kept.head? ≠ some dotDotText then kept.tail
    else if !absolute ∧ kept.length < maxComponents then c :: kept
    else kept
  else if kept.length < maxComponents then c :: kept
  else kept

def normalizedComponents (path : PathText) : List PathText :=
  ((Components.components '/' path).foldl (pushComponent (isAbsolute path)) []).reverse

def normalizePathTextual (path : PathText) : Option PathText :=
  if path = [] then none
  else
    let text := (if isAbsolute path then ['/'] else []) ++
      ['/'].intercalate (normalizedComponents path)
    some (if text = [] then dotText else text)

/-- Join two texts with a slash unless the first one ends in a slash or is empty. -/
def joinPath (dir path : PathText) : PathText :=
  if dir ≠ [] ∧ dir.getLast? ≠ some '/' then dir ++ '/' :: path else dir ++ path

def makeTextualPathAbsolute (p : Platform) (path : PathText) : Option PathText :=
  if path = [] then none
  else if isAbsolute path then some path
  else
    match p.getcwd with
    | none => none
    | some cwd => normalizePathTextual (joinPath cwd path)

/-! ## Roots -/

/-- Trailing slashes do not count, but the first character stays. The text is read backwards. -/
def stripSlashesRev : PathText → PathText
  | '/' :: c :: rest => stripSlashesRev (c :: rest)
  | t => t

def stripSlashes (root : PathText) : PathText := (stripSlashesRev root.reverse).reverse

def pathIsUnderRoot (path root : PathText) : Bool :=
  (stripSlashes root).isPrefixOf path &&
    match path.drop (stripSlashes root).length with
    | [] => true
    | next :: _ => next == '/'

/-- The globals of the module. -/
structure PathSecurity where

  defaultRoot : Option PathText

  roots : List PathText

  allowAbsolute : Bool

  allowTraversal : Bool

/-- How a root is stored: resolved if the platform can, normalised otherwise. -/
def resolveRoot (p : Platform) (dir : PathText) : Option PathText :=
  match p.realpath dir with
  | some resolved => some resolved
  | none => normalizePathTextual dir

def addRoot (p : Platform) (roots : List PathText) (dir : PathText) : List PathText :=
  if maxSandboxRoots ≤ roots.length then roots
  else
    match resolveRoot p dir with
    | some resolved => roots ++ [resolved]
    | none => roots

/-- The globals after initialisation for a project file and one call per configured root. -/
def PathSecurity.configure (p : Platform) (projectFilename : PathText) (dirs : List PathText)
    (allowAbsolute allowTraversal : Bool) : PathSecurity :=
  { defaultRoot := resolveRoot p (pathDirname projectFilename)
    roots := dirs.foldl (addRoot p) []
    allowAbsolute
    allowTraversal }

def PathSecurity.sandboxRoots (g : PathSecurity) : List PathText := g.defaultRoot.toList ++ g.roots

/-! ## Validation -/

/-- The second dot of `..` and the end of its component; a backslash ends one too. -/
def endsDotDot : PathText → Bool
  | ['.'] => true
  | '.' :: after :: _ => after == '/' || after == Char.ofNat 92
  | _ => false

/-- Scan for `..` at the start of a component. -/
def hasTraversalFrom : Bool → PathText → Bool
  | _, [] => false
  | atStart, c :: rest =>
    (atStart && (c == '.' && endsDotDot rest)) || hasTraversalFrom (c == '/') rest

def pathHasTraversal (path : PathText) : Bool := hasTraversalFrom true path

inductive PathDiag
  | pathAbsoluteForbidden | pathTraversalForbidden | pathSymlinkEscape | pathOutsideSandbox
  deriving DecidableEq, Repr

/-- A validated path, or a failure with at most one diagnostic. -/
inductive PathResult where

  | accepted (path : PathText)

  | rejected (diag : Option PathDiag)
  deriving DecidableEq

/-- The checks on the raw text. -/
def checkRawPath (g : PathSecurity) (rawPath : PathText) : Option PathDiag :=
  if isAbsolute rawPath && !g.allowAbsolute then some .pathAbsoluteForbidden
  else if pathHasTraversal rawPath && !g.allowTraversal then some .pathTraversalForbidden
  else none

def fullPath (rawPath baseDir : PathText) : PathText :=
  if isAbsolute rawPath ∨ baseDir = [] then rawPath
  else if baseDir.getLast? ≠ some '/' then baseDir ++ '/' :: rawPath
  else baseDir ++ rawPath

def canonicalPath (p : Platform) (path : PathText) : Option PathText :=
  match p.realpath path with
  | some resolved => some resolved
  | none =>
    match normalizePathTextual path with
    | some normalized => makeTextualPathAbsolute p normalized
    | none => none

/-- Whether a path outside the roots is reported as an escaping link. -/
def isSymlinkEscape (p : Platform) (rawPath baseDir : PathText) : Bool :=
  baseDir ≠ [] && !isAbsolute rawPath && p.isLink (fullPath rawPath baseDir)

def jzPathValidate (p : Platform) (g : PathSecurity) (rawPath baseDir : PathText) : PathResult :=
  if rawPath = [] then .rejected none
  else
    match checkRawPath g rawPath with
    | some diag => .rejected (some diag)
    | none =>
      match canonicalPath p (fullPath rawPath baseDir) with
      | none => .rejected none
      | some canonical =>
        if g.sandboxRoots.any (pathIsUnderRoot canonical) then .accepted canonical
        else if isSymlinkEscape p rawPath baseDir then .rejected (some .pathSymlinkEscape)
        else .rejected (some .pathOutsideSandbox)

end JzHdl

import JzHdl.Ir.Literal

/-! # Tokens of source files

The lexer takes one token after the other from the front of the text. Blanks and
comments before a token are skipped, and each token has the place where it starts.
-/

namespace JzHdl

inductive JZTokenType

  | eof | identifier | number | sizedNumber | string | noConnect | lbrace | rbrace | lparen

  | rparen | lbracket | rbracket | semicolon | comma | dot | at | opAssign | opAssignZ

  | opAssignS | opDrive | opDriveZ | opDriveS | opLeZ | opLeS | opPlus | opMinus | opStar

  | opSlash | opPercent | opAmp | opPipe | opCaret | opTilde | opBang | opAndAnd | opOrOr | opEq

  | opNeq | opLt | opLe | opGt | opGe | opShl | opShr | opAshr | opQuestion | opColon | kwModule

  | kwEndmod | kwProject | kwEndproj | kwBlackbox | kwNew | kwTop | kwImport | kwGlobal

  | kwEndglob | kwFeature | kwEndfeat | kwFeatureElse | kwCheck | kwConst | kwPort | kwWire

  | kwRegister | kwLatch | kwMem | kwAsync | kwSync | kwMux | kwCdc | kwConfig | kwClocks

  | kwInPins | kwOutPins | kwInoutPins | kwMap | kwClockGen | kwIf | kwElif | kwElse | kwSelect

  | kwCase | kwDefault | kwIn | kwOut | kwInout | kwOverride | kwGnd | kwVcc | kwDisconnect

  | kwTemplate | kwEndtemplate | kwApply | kwScratch | kwTestbench | kwEndtb | kwTest | kwSetup

  | kwUpdate | kwTbClock | kwExpectEq | kwExpectNeq | kwExpectTri | kwSimulation | kwEndsim

  | kwRun | kwRunUntil | kwRunWhile | kwPrint | kwPrintIf | kwTrace | kwSimSelect | kwMark

  | kwMarkIf | kwAlert | kwAlertIf | kwTap | other

  deriving DecidableEq

def keywords : List (String × JZTokenType) :=
  [("@module", .kwModule), ("@endmod", .kwEndmod), ("@project", .kwProject),
   ("@endproj", .kwEndproj), ("@blackbox", .kwBlackbox), ("@new", .kwNew), ("@top", .kwTop),
   ("@import", .kwImport), ("@global", .kwGlobal), ("@endglob", .kwEndglob),
   ("@feature", .kwFeature), ("@endfeat", .kwEndfeat), ("@else", .kwFeatureElse),
   ("@check", .kwCheck), ("@template", .kwTemplate), ("@endtemplate", .kwEndtemplate),
   ("@apply", .kwApply), ("@scratch", .kwScratch), ("@testbench", .kwTestbench),
   ("@endtb", .kwEndtb), ("@setup", .kwSetup), ("@update", .kwUpdate), ("@clock", .kwTbClock),
   ("@expect_equal", .kwExpectEq), ("@expect_not_equal", .kwExpectNeq),
   ("@expect_tristate", .kwExpectTri), ("@simulation", .kwSimulation), ("@endsim", .kwEndsim),
   ("@run", .kwRun), ("@run_until", .kwRunUntil), ("@run_while", .kwRunWhile),
   ("@print", .kwPrint), ("@print_if", .kwPrintIf), ("@trace", .kwTrace),
   ("@select", .kwSimSelect), ("@mark", .kwMark), ("@mark_if", .kwMarkIf), ("@alert", .kwAlert),
   ("@alert_if", .kwAlertIf), ("CONST", .kwConst), ("PORT", .kwPort), ("WIRE", .kwWire),
   ("REGISTER", .kwRegister), ("LATCH", .kwLatch), ("MEM", .kwMem), ("MUX", .kwMux),
   ("CDC", .kwCdc), ("ASYNCHRONOUS", .kwAsync), ("SYNCHRONOUS", .kwSync), ("CONFIG", .kwConfig),
   ("CLOCKS", .kwClocks), ("IN_PINS", .kwInPins), ("OUT_PINS", .kwOutPins),
   ("INOUT_PINS", .kwInoutPins), ("MAP", .kwMap), ("CLOCK_GEN", .kwClockGen), ("TAP", .kwTap),
   ("IF", .kwIf), ("ELIF", .kwElif), ("ELSE", .kwElse), ("SELECT", .kwSelect), ("CASE", .kwCase),
   ("DEFAULT", .kwDefault), ("IN", .kwIn), ("OUT", .kwOut), ("INOUT", .kwInout),
   ("OVERRIDE", .kwOverride), ("GND", .kwGnd), ("VCC", .kwVcc)]

structure JZNumericInfo where

  base : JZNumericBase

  widthChars : ℕ

  deriving DecidableEq

structure JZLocation where

  line : ℕ

  column : ℕ

  deriving DecidableEq

structure LexToken where

  type : JZTokenType

  lexeme : Option (List Char)

  loc : JZLocation

  num : Option JZNumericInfo

  deriving DecidableEq

structure LexDiagnostic where

  loc : JZLocation

  code : String

  message : String

  deriving DecidableEq

/-- The text that is left, the place that it starts at and what has been found so far. -/
structure LexerState where

  rest : List Char

  loc : JZLocation

  out : List LexToken

  diagnostics : List LexDiagnostic

  stopLexing : Bool

  /-- How many characters were left behind the last token. -/
  lastTokenEnd : Option ℕ

/-! ## Places and tokens -/

def JZLocation.advance (loc : JZLocation) (text : List Char) : JZLocation :=
  text.foldl (fun loc c =>
    if c = '\n' then ⟨loc.line + 1, 1⟩ else ⟨loc.line, loc.column + 1⟩) loc

namespace LexerState

def consume (st : LexerState) (count : ℕ) : LexerState :=
  { st with rest := st.rest.drop count, loc := st.loc.advance (st.rest.take count) }

def report (st : LexerState) (loc : JZLocation) (code message : String) : LexerState :=
  { st with diagnostics := st.diagnostics ++ [⟨loc, code, message⟩] }

end LexerState

def maxSourceTokens : ℕ := 1024 * 1024

def emitToken (st : LexerState) (type : JZTokenType) (text : List Char) (loc : JZLocation)
    (num : Option JZNumericInfo) : LexerState :=
  if maxSourceTokens ≤ st.out.length then
    { st.report loc "SOURCE_TOKEN_LIMIT_EXCEEDED"
        "source file token count exceeds the compiler safety limit" with stopLexing := true }
  else
    { st with
      out := st.out ++ [⟨type, if text = [] then none else some text, loc, num⟩]
      lastTokenEnd := if type = .eof then st.lastTokenEnd else some st.rest.length }

def isIdentifierStart (c : Char) : Bool := c.isAlpha || c = '_'

def isIdentifierChar (c : Char) : Bool := c.isAlphanum || c = '_'

def matchKeyword (lexeme : List Char) : Option JZTokenType :=
  (keywords.find? fun entry => entry.1.toList = lexeme).map (·.2)

/-! ## Numbers -/

inductive JZNumericErrorCause | underscoreEdges | invalidDigit | decimalHasXz | other
  deriving DecidableEq

def isXzDigit (c : Char) : Bool := c = 'x' || c = 'X' || c = 'z' || c = 'Z'

/-- What is wrong with a digit. -/
def digitError (base : JZNumericBase) (c : Char) : Option JZNumericErrorCause :=
  if c = '_' then none
  else
    match base with
    | .bin => if c = '0' || c = '1' || isXzDigit c then none else some .invalidDigit
    | .dec =>
      if isXzDigit c then some .decimalHasXz else if c.isDigit then none else some .invalidDigit
    | .hex =>
      if c.isDigit || ('a' ≤ c && c ≤ 'f') || ('A' ≤ c && c ≤ 'F') then none else some .invalidDigit

/-- Nothing for a plain number, and the parts of a number with a width. -/
def parseNumericLiteral (lexeme : List Char) : Except JZNumericErrorCause (Option JZNumericInfo) :=
  let width := lexeme.takeWhile (· ≠ '\'')
  match lexeme.drop width.length with
  | [] => .ok none
  | _ :: tail =>
    if width = [] then .error .other
    else
      match tail with
      | [] => .error .other
      | c :: value =>
        match numericBase c with
        | none => .error .other
        | some base =>
          if value = [] then .error .other
          else if value.head? = some '_' ∨ value.getLast? = some '_' then .error .underscoreEdges
          else
            match value.findSome? (digitError base) with
            | some cause => .error cause
            | none => .ok (some ⟨base, width.length⟩)

def JZNumericErrorCause.code : JZNumericErrorCause → String
  | .underscoreEdges => "LIT_UNDERSCORE_AT_EDGES"
  | .decimalHasXz => "LIT_DECIMAL_HAS_XZ"
  | .invalidDigit => "LIT_INVALID_DIGIT_FOR_BASE"
  | .other => "LEX_NUMERIC"

def JZNumericErrorCause.message : JZNumericErrorCause → String
  | .underscoreEdges => "literal has underscore as first or last character of value"
  | .decimalHasXz => "decimal literal may not contain x/z digits"
  | .invalidDigit => "literal contains digit not allowed for its base"
  | .other => "invalid numeric literal"

/-- A literal at the front of the text. -/
def lexNumeric (st : LexerState) (lexeme : List Char) : LexerState :=
  let next := st.consume lexeme.length
  match parseNumericLiteral lexeme with
  | .error cause => next.report st.loc cause.code cause.message
  | .ok none => emitToken next .number lexeme st.loc none
  | .ok (some info) => emitToken next .sizedNumber lexeme st.loc (some info)

def isLiteralChar (c : Char) : Bool := isIdentifierChar c || c = '\''

/-- A text that starts with a digit. -/
def lexNumber (st : LexerState) : LexerState :=
  let text := st.rest.takeWhile isLiteralChar
  match st.rest.drop text.length with
  | '.' :: d :: more =>
    if d.isDigit && !text.contains '\'' then
      let lexeme := text ++ '.' :: (d :: more).takeWhile Char.isDigit
      emitToken (st.consume lexeme.length) .number lexeme st.loc none
    else lexNumeric st text
  | _ => lexNumeric st text

/-! ## Words and strings -/

/-- The name or the field of the configuration that may be the width of a literal. -/
def widthName (word rest : List Char) : List Char :=
  match rest with
  | '.' :: more =>
    let name := more.takeWhile isIdentifierChar
    if word = "CONFIG".toList ∧ name ≠ [] ∧ (more.drop name.length).head? = some '\'' then
      word ++ '.' :: name
    else word
  | _ => word

/-- A text that starts with a letter, an underscore or an at sign. -/
def lexWord (st : LexerState) (c : Char) (tail : List Char) : LexerState :=
  let word := c :: tail.takeWhile isIdentifierChar
  let width := widthName word (st.rest.drop word.length)
  match st.rest.drop width.length with
  | '\'' :: more => lexNumeric st (width ++ '\'' :: more.takeWhile isLiteralChar)
  | _ =>
    emitToken (st.consume word.length) ((matchKeyword word).getD .identifier) word st.loc none

/-- The text of a string with its escapes replaced. -/
def decodeString : List Char → List Char
  | '\\' :: n :: rest =>
    if n = '\\' ∨ n = '"' then n :: decodeString rest
    else if n = 'n' then '\n' :: decodeString rest
    else '\\' :: decodeString (n :: rest)
  | c :: rest => c :: decodeString rest
  | [] => []

/-- A text behind a quotation mark. A string without an end is dropped. -/
def lexString (st : LexerState) (tail : List Char) : LexerState :=
  let content := tail.takeWhile (· ≠ '"')
  if content.length = tail.length then st.consume st.rest.length
  else emitToken (st.consume (content.length + 2)) .string (decodeString content) st.loc none

/-! ## Operators -/

/-- Whether a word goes on at the front of the text. -/
def wordAhead (rest : List Char) : Bool := rest.head?.elim false isIdentifierChar

def operatorEquals : List Char → JZTokenType × String
  | '=' :: _ => (.opEq, "==")
  | '>' :: 'z' :: rest => if wordAhead rest then (.opDrive, "=>") else (.opDriveZ, "=>z")
  | '>' :: 's' :: rest => if wordAhead rest then (.opDrive, "=>") else (.opDriveS, "=>s")
  | '>' :: _ => (.opDrive, "=>")
  | 'z' :: rest => if wordAhead rest then (.opAssign, "=") else (.opAssignZ, "=z")
  | 's' :: rest => if wordAhead rest then (.opAssign, "=") else (.opAssignS, "=s")
  | _ => (.opAssign, "=")

def operatorLess : List Char → JZTokenType × String
  | '<' :: _ => (.opShl, "<<")
  | '=' :: 'z' :: _ => (.opLeZ, "<=z")
  | '=' :: 's' :: _ => (.opLeS, "<=s")
  | '=' :: _ => (.opLe, "<=")
  | _ => (.opLt, "<")

def operatorGreater : List Char → JZTokenType × String
  | '>' :: '>' :: _ => (.opAshr, ">>>")
  | '>' :: _ => (.opShr, ">>")
  | '=' :: _ => (.opGe, ">=")
  | _ => (.opGt, ">")

/-- The operator at the front of a text. -/
def operatorAt (c : Char) (tail : List Char) : Option (JZTokenType × String) :=
  match c with
  | '{' => some (.lbrace, "\x7b")
  | '}' => some (.rbrace, "\x7d")
  | '(' => some (.lparen, "(")
  | ')' => some (.rparen, ")")
  | '[' => some (.lbracket, "[")
  | ']' => some (.rbracket, "]")
  | ';' => some (.semicolon, ";")
  | ',' => some (.comma, ",")
  | '.' => some (.dot, ".")
  | '=' => some (operatorEquals tail)
  | '+' => some (.opPlus, "+")
  | '-' => some (.opMinus, "-")
  | '*' => some (.opStar, "*")
  | '%' => some (.opPercent, "%")
  | '~' => some (.opTilde, "~")
  | '^' => some (.opCaret, "^")
  | '&' => some (if tail.head? = some '&' then (.opAndAnd, "&&") else (.opAmp, "&"))
  | '|' => some (if tail.head? = some '|' then (.opOrOr, "||") else (.opPipe, "|"))
  | '!' => some (if tail.head? = some '=' then (.opNeq, "!=") else (.opBang, "!"))
  | '<' => some (operatorLess tail)
  | '>' => some (operatorGreater tail)
  | '?' => some (.opQuestion, "?")
  | ':' => some (.opColon, ":")
  | '/' => some (.opSlash, "/")
  | '#' => some (.other, "#")
  | _ => none

def lexOperator (st : LexerState) (c : Char) (tail : List Char) : LexerState :=
  match operatorAt c tail with
  | some (type, text) => emitToken (st.consume text.toList.length) type text.toList st.loc none
  | none =>
    emitToken ((st.report st.loc "ID_SYNTAX_INVALID"
      ("unrecognized character '" ++ String.singleton c ++ "'")).consume 1) .other [c] st.loc none

/-! ## Blanks and comments -/

def skipLineComment (st : LexerState) : LexerState :=
  let text := st.rest.takeWhile (· ≠ '\n')
  st.consume (text.length + 1)

/-- How a block comment ends, with the number of its characters. -/
inductive BlockEnd | closed (count : ℕ) | nested (count : ℕ) | unterminated

def BlockEnd.next : BlockEnd → BlockEnd
  | closed count => closed (count + 1)
  | nested count => nested (count + 1)
  | unterminated => unterminated

def blockEnd : List Char → BlockEnd
  | '/' :: '*' :: _ => .nested 1
  | '*' :: '/' :: _ => .closed 2
  | _ :: rest => (blockEnd rest).next
  | [] => .unterminated

def nestedMessage : String := "nested block comment detected inside another block comment"

/-- Nothing is returned behind a comment that is not closed. -/
def skipBlockComment (st : LexerState) (start : JZLocation) : LexerState × Bool :=
  match blockEnd st.rest with
  | .closed count => (st.consume count, true)
  | .nested count => ((st.consume count).report start "COMMENT_NESTED_BLOCK" nestedMessage, false)
  | .unterminated =>
    ((st.consume st.rest.length).report start "COMMENT_NESTED_BLOCK" "unterminated block comment",
      false)

def reportInToken (st : LexerState) : LexerState :=
  if st.lastTokenEnd = some st.rest.length then
    st.report st.loc "COMMENT_IN_TOKEN"
      "comment appears immediately adjacent to a token (inside token)"
  else st

/-- The flag says that a token may follow. -/
def skipBlanks : ℕ → LexerState → LexerState × Bool
  | 0, st => (st, true)
  | fuel + 1, st =>
    match st.rest with
    | [] => (st, true)
    | c :: tail =>
      if c = ' ' ∨ c = '\t' ∨ c = '\r' ∨ c = '\n' then skipBlanks fuel (st.consume 1)
      else if c = '/' ∧ tail.head? = some '/' then
        skipBlanks fuel (skipLineComment ((reportInToken st).consume 2))
      else if c = '/' ∧ tail.head? = some '*' then
        match skipBlockComment ((reportInToken st).consume 2) st.loc with
        | (st, true) => skipBlanks fuel st
        | (st, false) => (st, false)
      else (st, true)

/-! ## The main loop -/

def lexOneToken (st : LexerState) : LexerState :=
  if st.stopLexing then st
  else
    match skipBlanks (st.rest.length + 1) st with
    | (st, false) => st
    | (st, true) =>
      match st.rest with
      | [] => emitToken st .eof [] st.loc none
      | c :: tail =>
        if c = '"' then lexString st tail
        else if isIdentifierStart c ∨ c = '@' then lexWord st c tail
        else if c = '\'' then
          (st.report st.loc "LIT_UNSIZED" "unsized literal (e.g. 'hFF) is not permitted").consume 1
        else if c.isDigit then lexNumber st
        else lexOperator st c tail

def atEof (st : LexerState) : Bool := st.out.getLast?.any (·.type = .eof)

def lexLoop : ℕ → LexerState → LexerState
  | 0, st => st
  | fuel + 1, st =>
    let next := lexOneToken st
    if next.stopLexing || atEof next then next else lexLoop fuel next

/-- The tokens of a text, and whether there was no error. Each step takes a character or ends. -/
def jzLexSource (source : List Char) : List LexToken × Bool :=
  let st := lexLoop (source.length + 2)
    { rest := source, loc := ⟨1, 1⟩, out := [], diagnostics := [], stopLexing := false
      lastTokenEnd := none }
  let st :=
    if atEof st || maxSourceTokens ≤ st.out.length then st else emitToken st .eof [] st.loc none
  (st.out, st.diagnostics.isEmpty)

end JzHdl

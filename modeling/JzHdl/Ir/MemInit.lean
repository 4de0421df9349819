import JzHdl.Lib.BitBytes
import JzHdl.Sem.Exclusive

/-! # Memory initialisation files

The files that fill a memory are lowered to one list of bytes. A word takes a
whole number of bytes, the highest byte first. Each format has a loader of its
own, and an error of any of them fails the lowering.
-/

namespace JzHdl

open ByteCodec

/-! ## Errors -/

inductive MemInitError

  | unknownFormat | noWidth | tooLarge | blobTooLarge

  | fileLimit | exceedsSize | hasXz | invalidDecimal | negative | badRadix | invalidDigit

  | exceedsWidth | coeRadix | coeVector | mifDepthLimit | mifDepth | mifFileDepthLimit | mifWidth

  | mifMismatch | mifAddressRadix | mifDataRadix | mifContent | mifRange | mifAddress | mifNoData

  deriving DecidableEq

/-- The text before the path of the file. -/
def MemInitError.detail : MemInitError → String
  | .unknownFormat => "unsupported backend memory initialization format"
  | .noWidth => "cannot lower memory initialization without concrete width/depth"
  | .tooLarge => "memory init blob too large to lower safely"
  | .blobTooLarge => "memory init blob too large"
  | .fileLimit => "memory initialization file exceeds the compiler safety file-size limit"
  | .exceedsSize => "memory initialization file exceeds declared memory size"
  | .hasXz => "memory initialization file contains x or z values"
  | .invalidDecimal => "invalid decimal value in memory initialization file"
  | .negative => "negative value not allowed for unsigned memory initialization radix"
  | .badRadix => "unsupported radix in memory initialization file"
  | .invalidDigit => "invalid digit in memory initialization file"
  | .exceedsWidth => "memory initialization word exceeds declared width"
  | .coeRadix => "unsupported or missing MEMORY_INITIALIZATION_RADIX in COE file"
  | .coeVector => "missing MEMORY_INITIALIZATION_VECTOR in COE file"
  | .mifDepthLimit => "declared MIF depth exceeds the compiler safety limit"
  | .mifDepth => "missing or invalid DEPTH in MIF file"
  | .mifFileDepthLimit => "MIF DEPTH exceeds the compiler safety limit"
  | .mifWidth => "missing or invalid WIDTH in MIF file"
  | .mifMismatch => "MIF DEPTH/WIDTH do not match memory declaration"
  | .mifAddressRadix => "missing or invalid ADDRESS_RADIX in MIF file"
  | .mifDataRadix => "missing or invalid DATA_RADIX in MIF file"
  | .mifContent => "missing CONTENT BEGIN ... END block in MIF file"
  | .mifRange => "invalid address range in MIF file"
  | .mifAddress => "invalid address in MIF file"
  | .mifNoData => "missing data value in MIF file"

/-! ## Words of the blob -/

inductive MemInitRadix | bin | oct | dec | hex | uns
  deriving DecidableEq

section

variable (bytesPerWord wordWidth : ℕ)

def clearBlobWord (addr : ℕ) (blob : Bytes) : Bytes :=
  blob.mapIdx fun i b => if addr * bytesPerWord ≤ i ∧ i < addr * bytesPerWord + bytesPerWord then 0
    else b

def setBlobWordLsbBit (addr bitFromLsb : ℕ) (blob : Bytes) : Bytes :=
  orBit blob (addr * bytesPerWord + (bytesPerWord - 1 - bitFromLsb / 8)) (bitFromLsb % 8)

/-- The bit at a position of the stream that fills word after word, the highest bit first. -/
def setBlobBit (bitIndex : ℕ) (blob : Bytes) : Bytes :=
  setBlobWordLsbBit bytesPerWord (bitIndex / wordWidth) (wordWidth - 1 - bitIndex % wordWidth) blob

/-- Sets the bits of a word that the test selects, up to a bound. -/
def setWordBits (addr : ℕ) (test : ℕ → Bool) (count : ℕ) (blob : Bytes) : Bytes :=
  (List.range count).foldl
    (fun blob bit => if test bit then setBlobWordLsbBit bytesPerWord addr bit blob else blob) blob

def memInitStoreIntValue (addr value : ℕ) (blob : Bytes) : Bytes :=
  setWordBits bytesPerWord addr value.testBit (min wordWidth 64)
    (clearBlobWord bytesPerWord addr blob)

/-! ## Tokens -/

def isXz (c : Char) : Bool := c = 'x' || c = 'X' || c = 'z' || c = 'Z'

/-- `strtoull` on a text without a minus sign that it takes as a whole. -/
def strtoullWhole (base : ℕ) (text : List Char) : Option ℕ :=
  let body := match text.dropWhile isBoundSpace with
    | '+' :: rest => rest
    | rest => rest
  let digits := match body with
    | '0' :: x :: rest => if base = 16 ∧ (x = 'x' ∨ x = 'X') ∧ rest ≠ [] then rest else body
    | _ => body
  if digits = [] then none else (wholeDigits base 0 digits).map (min (2 ^ 64 - 1))

/-- `strtoll` on a text behind its minus sign. -/
def strtollMinus (digits : List Char) : Option ℤ :=
  if digits = [] then none else (wholeDigits 10 0 digits).map fun n => -(min (2 ^ 63) n : ℕ)

def memInitStoreDecimalToken (addr : ℕ) (token : List Char) (signedDecimal : Bool) (blob : Bytes) :
    Except MemInitError Bytes :=
  if token.any isXz then .error .hasXz
  else
    match token.filter (· ≠ '_') with
    | [] => .error .invalidDecimal
    | '-' :: digits =>
      if signedDecimal then
        match strtollMinus digits with
        | none => .error .invalidDecimal
        | some v =>
          let encoded := (v % 2 ^ 64).toNat
          .ok (setWordBits bytesPerWord addr (fun bit => 64 ≤ bit || encoded.testBit bit) wordWidth
            (clearBlobWord bytesPerWord addr blob))
      else .error .negative
    | clean =>
      match strtoullWhole 10 clean with
      | none => .error .invalidDecimal
      | some v => .ok (memInitStoreIntValue bytesPerWord wordWidth addr v blob)

def memInitDigitValue (base : ℕ) (c : Char) : Option ℕ :=
  if boundDigit c < base then some (boundDigit c) else none

/-- The bits of a digit, the lowest first. A bit that is set has to lie inside of the word. -/
def storeDigitBits (addr digit : ℕ) : ℕ → ℕ → Bytes → Except MemInitError Bytes
  | 0, _, blob => .ok blob
  | count + 1, pos, blob =>
    match storeDigitBits addr digit count pos blob with
    | .error e => .error e
    | .ok blob =>
      if digit.testBit count then
        if wordWidth ≤ pos + count then .error .exceedsWidth
        else .ok (setBlobWordLsbBit bytesPerWord addr (pos + count) blob)
      else .ok blob

/-- The digits of a token, the last one first. -/
def storeDigits (addr bitsPerDigit : ℕ) : List Char → ℕ → Bytes → Except MemInitError Bytes
  | [], _, blob => .ok blob
  | c :: rest, pos, blob =>
    if c = '_' then storeDigits addr bitsPerDigit rest pos blob
    else if isXz c then .error .hasXz
    else
      match memInitDigitValue (2 ^ bitsPerDigit) c with
      | none => .error .invalidDigit
      | some digit =>
        match storeDigitBits bytesPerWord wordWidth addr digit bitsPerDigit pos blob with
        | .error e => .error e
        | .ok blob => storeDigits addr bitsPerDigit rest (pos + bitsPerDigit) blob

def MemInitRadix.bitsPerDigit : MemInitRadix → ℕ
  | .bin => 1
  | .oct => 3
  | .hex => 4
  | .dec | .uns => 0

def memInitStoreRadixToken (addr : ℕ) (token : List Char) (radix : MemInitRadix) (blob : Bytes) :
    Except MemInitError Bytes :=
  if radix = .dec ∨ radix = .uns then
    memInitStoreDecimalToken bytesPerWord wordWidth addr token (radix = .dec) blob
  else
    storeDigits bytesPerWord wordWidth addr radix.bitsPerDigit token.reverse 0
      (clearBlobWord bytesPerWord addr blob)

/-! ## Text and binary files -/

/-- Appends bits to the stream, the first one at the position that is reached. -/
def appendBitsFromValue (capacityBits : ℕ) : List Bool → ℕ → Bytes → Except MemInitError Bytes
  | [], _, blob => .ok blob
  | bit :: rest, bitIndex, blob =>
    if capacityBits ≤ bitIndex then .error .exceedsSize
    else appendBitsFromValue capacityBits rest (bitIndex + 1)
      (if bit then setBlobBit bytesPerWord wordWidth bitIndex blob else blob)

/-- The bits of a value, the highest of them first. -/
def memBits (count value : ℕ) : List Bool := (List.range count).reverse.map value.testBit

/-- The characters of a text file. The flag says that a comment runs to the end of the line. -/
def lowerTextChars (isHex : Bool) (capacityBits : ℕ) :
    List Char → Bool → ℕ → Bytes → Except MemInitError Bytes
  | [], _, _, blob => .ok blob
  | c :: rest, inComment, bitIndex, blob =>
    if inComment then
      lowerTextChars isHex capacityBits rest (c ≠ '\n' && c ≠ '\r') bitIndex blob
    else if c = '/' ∧ rest.head? = some '/' then
      lowerTextChars isHex capacityBits rest true bitIndex blob
    else if isBoundSpace c ∨ c = '_' then
      lowerTextChars isHex capacityBits rest false bitIndex blob
    else if isXz c then .error .hasXz
    else
      match memInitDigitValue (if isHex then 16 else 2) c with
      | none => lowerTextChars isHex capacityBits rest false bitIndex blob
      | some digit =>
        let bits := memBits (if isHex then 4 else 1) digit
        match appendBitsFromValue bytesPerWord wordWidth capacityBits bits bitIndex blob with
        | .error e => .error e
        | .ok blob =>
          lowerTextChars isHex capacityBits rest false (bitIndex + bits.length) blob

/-- The files of the source hold bytes; a byte is the character of its value here. -/
def memInitFileBytes : ℕ := 64 * 1024 * 1024

def lowerTextMemInit (isHex : Bool) (capacityBits : ℕ) (contents : List Char) (blob : Bytes) :
    Except MemInitError Bytes :=
  if memInitFileBytes < contents.length then .error .fileLimit
  else lowerTextChars bytesPerWord wordWidth isHex capacityBits contents false 0 blob

end

def lowerBinaryMemInit (capacityBytes : ℕ) (contents : List Char) (blob : Bytes) :
    Except MemInitError Bytes :=
  if memInitFileBytes < contents.length then .error .fileLimit
  else if capacityBytes < contents.length then .error .exceedsSize
  else .ok (contents.map (fun c => UInt8.ofNat c.toNat) ++ blob.drop contents.length)

/-! ## Statements of a text -/

def trimSpan (text : List Char) : List Char :=
  ((text.dropWhile isBoundSpace).reverse.dropWhile isBoundSpace).reverse

def ciPrefixEq : List Char → List Char → Bool
  | _, [] => true
  | [], _ :: _ => false
  | a :: text, b :: word => a.toLower = b.toLower && ciPrefixEq text word

/-- The pieces between semicolons. -/
def splitStatements : List Char → List (List Char)
  | [] => [[]]
  | c :: rest =>
    if c = ';' then [] :: splitStatements rest
    else
      match splitStatements rest with
      | [] => [[c]]
      | piece :: pieces => (c :: piece) :: pieces

/-- The value of a statement that assigns the keyword. -/
def matchAssignment (keyword stmt : List Char) : Option (List Char) :=
  let stmt := trimSpan stmt
  if '=' ∈ stmt then
    let lhs := trimSpan (stmt.takeWhile (· ≠ '='))
    if lhs.length = keyword.length ∧ ciPrefixEq lhs keyword then
      some (trimSpan ((stmt.dropWhile (· ≠ '=')).drop 1))
    else none
  else none

def memInitExtractAssignment (text keyword : List Char) : Option (List Char) :=
  (splitStatements text).findSome? (matchAssignment keyword)

def memInitIsIdentChar (c : Char) : Bool := c.isAlphanum || c = '_'

/-- The text from the first place where the keyword stands between other characters. -/
def findKeywordCi (keyword : List Char) : Option Char → List Char → Option (List Char)
  | _, [] => none
  | prev, c :: rest =>
    if !(prev.elim false memInitIsIdentChar) && ciPrefixEq (c :: rest) keyword &&
        !(((c :: rest).drop keyword.length).head?.elim false memInitIsIdentChar) then some (c :: rest)
    else findKeywordCi keyword (some c) rest

/-- The flag says that the text is inside of a percent comment, the other one inside of a line
comment. -/
def stripMifComments : List Char → Bool → Bool → List Char
  | [], _, _ => []
  | c :: rest, inPercent, inLine =>
    if inPercent then stripMifComments rest (c ≠ '%') false
    else if inLine then
      if c = '\n' ∨ c = '\r' then c :: stripMifComments rest false false
      else stripMifComments rest false true
    else if c = '%' then stripMifComments rest true false
    else if c = '-' ∧ rest.head? = some '-' then stripMifComments rest false true
    else c :: stripMifComments rest false false

def memInitParseRadixString (text : List Char) : Option MemInitRadix :=
  match text.map Char.toLower with
  | ['b', 'i', 'n'] => some .bin
  | ['o', 'c', 't'] => some .oct
  | ['d', 'e', 'c'] => some .dec
  | ['h', 'e', 'x'] => some .hex
  | ['u', 'n', 's'] => some .uns
  | _ => none

def memInitParseCoeRadix : List Char → Option MemInitRadix
  | ['2'] => some .bin
  | ['1', '0'] => some .dec
  | ['1', '6'] => some .hex
  | _ => none

def MemInitRadix.base : MemInitRadix → ℕ
  | .bin => 2
  | .oct => 8
  | .hex => 16
  | .dec | .uns => 10

def memInitParseUnsignedValue (radix : MemInitRadix) (text : List Char) : Option ℕ :=
  match text.filter (· ≠ '_') with
  | [] => none
  | '-' :: _ => none
  | clean => strtoullWhole radix.base clean

/-- The texts between blanks and commas. -/
def memInitTokens : List Char → List (List Char)
  | [] => []
  | c :: rest =>
    if isBoundSpace c ∨ c = ',' then memInitTokens rest
    else
      match rest with
      | [] => [[c]]
      | d :: _ =>
        if isBoundSpace d ∨ d = ',' then [c] :: memInitTokens rest
        else
          match memInitTokens rest with
          | [] => [[c]]
          | token :: tokens => (c :: token) :: tokens

section

variable (bytesPerWord wordWidth depth : ℕ)

/-- Stores tokens at consecutive addresses. -/
def storeTokens (radix : MemInitRadix) : List (List Char) → ℕ → Bytes → Except MemInitError Bytes
  | [], _, blob => .ok blob
  | token :: rest, addr, blob =>
    if depth ≤ addr then .error .exceedsSize
    else
      match memInitStoreRadixToken bytesPerWord wordWidth addr token radix blob with
      | .error e => .error e
      | .ok blob => storeTokens radix rest (addr + 1) blob

/-- Stores the tokens of a cycle at the addresses up to a bound. -/
def storeCycle (radix : MemInitRadix) (tokens : List (List Char)) (stop : ℕ) :
    ℕ → ℕ → ℕ → Bytes → Except MemInitError Bytes
  | 0, _, _, blob => .ok blob
  | fuel + 1, index, addr, blob =>
    if stop < addr then .ok blob
    else if depth ≤ addr then .error .exceedsSize
    else
      match memInitStoreRadixToken bytesPerWord wordWidth addr
        (tokens.getD (index % tokens.length) []) radix blob with
      | .error e => .error e
      | .ok blob => storeCycle radix tokens stop fuel (index + 1) (addr + 1) blob

def lowerCoeMemInit (contents : List Char) (blob : Bytes) : Except MemInitError Bytes :=
  if memInitFileBytes < contents.length then .error .fileLimit
  else
    let text := contents.takeWhile (· ≠ '\x00')
    match (memInitExtractAssignment text "memory_initialization_radix".toList).bind
      memInitParseCoeRadix with
    | none => .error .coeRadix
    | some radix =>
      match memInitExtractAssignment text "memory_initialization_vector".toList with
      | none => .error .coeVector
      | some vector =>
        storeTokens bytesPerWord wordWidth depth radix (memInitTokens vector) 0 blob

/-! ## MIF files -/

/-- The first and the last address of an entry, with a flag for ranges. -/
def mifAddresses (radix : MemInitRadix) (spec : List Char) : Except MemInitError (ℕ × ℕ × Bool) :=
  match spec with
  | '[' :: inner =>
    if spec.length ≤ 2 ∨ spec.getLast? ≠ some ']' then .error .mifRange
    else
      match splitDots inner.dropLast with
      | none => .error .mifRange
      | some (lhs, rhs) =>
        match memInitParseUnsignedValue radix (trimSpan lhs),
          memInitParseUnsignedValue radix (trimSpan rhs) with
        | some first, some last => if last < first then .error .mifRange else .ok (first, last, true)
        | _, _ => .error .mifRange
  | _ =>
    match memInitParseUnsignedValue radix spec with
    | none => .error .mifAddress
    | some addr => .ok (addr, addr, false)
where
  /-- The texts before and behind the first two points in a row. -/
  splitDots : List Char → Option (List Char × List Char)
    | '.' :: '.' :: rest => some ([], rest)
    | c :: rest => (splitDots rest).map fun p => (c :: p.1, p.2)
    | [] => none

/-- A number as the value of a C `int`. -/
def asInt (n : ℕ) : ℤ := Int.bmod n (2 ^ 32)

/-- The tokens of an entry. A range repeats them as often as it needs. -/
def storeEntry (dataRadix : MemInitRadix) (first last : ℕ) (isRange : Bool)
    (tokens : List (List Char)) (blob : Bytes) : Except MemInitError Bytes :=
  let counted :=
    if isRange then tokens.take (asInt ((last - first + 1) % 2 ^ 64)).toNat else tokens
  match storeTokens bytesPerWord wordWidth depth dataRadix counted first blob with
  | .error e => .error e
  | .ok blob =>
    if tokens = [] then .error .mifNoData
    else if isRange then
      if tokens.length = 1 then
        storeCycle bytesPerWord wordWidth depth dataRadix tokens last (depth + 1) 0 (first + 1) blob
      else
        storeCycle bytesPerWord wordWidth depth dataRadix tokens last (depth + 1) 0 first blob
    else if 1 < tokens.length then
      storeTokens bytesPerWord wordWidth depth dataRadix tokens first blob
    else .ok blob

def mifEntry (addrRadix dataRadix : MemInitRadix) (stmt : List Char) (blob : Bytes) :
    Except MemInitError Bytes :=
  let entry := trimSpan stmt
  if ':' ∈ entry then
    match mifAddresses addrRadix (trimSpan (entry.takeWhile (· ≠ ':'))) with
    | .error e => .error e
    | .ok (first, last, isRange) =>
      storeEntry bytesPerWord wordWidth depth dataRadix first last isRange
        (memInitTokens (trimSpan ((entry.dropWhile (· ≠ ':')).drop 1))) blob
  else .ok blob

def mifEntries (addrRadix dataRadix : MemInitRadix) :
    List (List Char) → Bytes → Except MemInitError Bytes
  | [], blob => .ok blob
  | stmt :: rest, blob =>
    match mifEntry bytesPerWord wordWidth depth addrRadix dataRadix stmt blob with
    | .error e => .error e
    | .ok blob => mifEntries addrRadix dataRadix rest blob

/-- The statements between `BEGIN` and `END` that end with a semicolon. -/
def mifContent (text : List Char) : Option (List (List Char)) :=
  match findKeywordCi "CONTENT".toList none text with
  | none => none
  | some content =>
    match findKeywordCi "BEGIN".toList none content with
    | none => none
    | some body =>
      match findKeywordCi "END".toList none body with
      | none => none
      | some rest => some (splitStatements ((body.take (body.length - rest.length)).drop 5)).dropLast

def memInitMifDepth : ℕ := 1024 * 1024

def lowerMifMemInit (contents : List Char) (blob : Bytes) : Except MemInitError Bytes :=
  if memInitMifDepth < depth then .error .mifDepthLimit
  else if memInitFileBytes < contents.length then .error .fileLimit
  else
    let text := (stripMifComments contents false false).takeWhile (· ≠ '\x00')
    match (memInitExtractAssignment text "DEPTH".toList).bind (memInitParseUnsignedValue .dec) with
    | none => .error .mifDepth
    | some mifDepth =>
      if memInitMifDepth < mifDepth then .error .mifFileDepthLimit
      else
        match (memInitExtractAssignment text "WIDTH".toList).bind
          (memInitParseUnsignedValue .dec) with
        | none => .error .mifWidth
        | some mifWidth =>
          if asInt mifWidth ≠ wordWidth ∨ asInt mifDepth ≠ depth then .error .mifMismatch
          else
            match (memInitExtractAssignment text "ADDRESS_RADIX".toList).bind
              memInitParseRadixString with
            | none => .error .mifAddressRadix
            | some addrRadix =>
              match (memInitExtractAssignment text "DATA_RADIX".toList).bind
                memInitParseRadixString with
              | none => .error .mifDataRadix
              | some dataRadix =>
                match mifContent text with
                | none => .error .mifContent
                | some entries =>
                  mifEntries bytesPerWord wordWidth depth addrRadix dataRadix entries blob

end

/-! ## Lowering -/

inductive MemInitFileFormat | bin | hex | mem | mif | coe
  deriving DecidableEq

/-- What is behind the last separator. -/
def afterLast (sep : Char) (text : List Char) : Option (List Char) :=
  if sep ∈ text then some (text.reverse.takeWhile (· ≠ sep)).reverse else none

def memInitGetFormat (path : List Char) : Option MemInitFileFormat :=
  let name := (afterLast '/' path).getD path
  match (afterLast '.' name).map fun ext => String.ofList (ext.map Char.toLower) with
  | some "hex" => some .hex
  | some "mem" => some .mem
  | some "bin" => some .bin
  | some "mif" => some .mif
  | some "coe" => some .coe
  | _ => none

def memInitBlobMaxBytes : ℕ := 256 * 1024 * 1024

/-- `jz_ir_init_lowering` for a memory with the file that its path names. -/
def irInitLowering (wordWidth depth : ℕ) (path contents : List Char) :
    Except MemInitError Bytes :=
  match memInitGetFormat path with
  | none => .error .unknownFormat
  | some format =>
    if wordWidth = 0 ∨ depth = 0 then .error .noWidth
    else
      let bytesPerWord := (wordWidth + 7) / 8
      if (2 ^ 64 - 1) / bytesPerWord < depth ∨ (2 ^ 64 - 1) / wordWidth < depth then
        .error .tooLarge
      else if memInitBlobMaxBytes < bytesPerWord * depth then .error .blobTooLarge
      else
        let blob := zeros (bytesPerWord * depth)
        match format with
        | .hex => lowerTextMemInit bytesPerWord wordWidth true (wordWidth * depth) contents blob
        | .mem => lowerTextMemInit bytesPerWord wordWidth false (wordWidth * depth) contents blob
        | .bin => lowerBinaryMemInit (bytesPerWord * depth) contents blob
        | .coe => lowerCoeMemInit bytesPerWord wordWidth depth contents blob
        | .mif => lowerMifMemInit bytesPerWord wordWidth depth contents blob

end JzHdl

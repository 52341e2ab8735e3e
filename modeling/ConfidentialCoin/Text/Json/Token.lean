/-!
# The tokens of a JSON text

A JSON text is a sequence of tokens with blanks between them. A token of text keeps the escapes of
its content as they stand: whether a `\u` escape names a character is a question for who uses the
content, and nobody asks it of content that is skipped. A token of a number keeps its value only
if it is written with digits alone, the one form that is read as a count.

* `Token.scan`: the tokens of a text, or nothing if it does not fall into tokens.
* `contentText?`: the characters of a content.
* `quote`: a text without characters that need escapes as a token.
-/

namespace ConfidentialCoin.Json

/-- A piece of the content of a text token. -/
inductive Piece where
  /-- A character, written as such or by a short escape. -/
  | char (c : Char)
  /-- A 16-bit unit written in hexadecimal. -/
  | unit (n : Nat)
deriving DecidableEq, Repr

/-- A token. -/
inductive Token where
  | openBrace
  | closeBrace
  | openBracket
  | closeBracket
  | comma
  | colon
  /-- One of the words `true`, `false` and `null`. -/
  | word
  /-- A number, with its value if it is a row of digits. -/
  | number (value : Option Nat)
  | text (content : List Piece)
deriving DecidableEq, Repr

/-- Blanks between tokens. -/
def isBlank (c : Char) : Bool := c == ' ' || c == '\t' || c == '\n' || c == '\r'

/-! ### Texts -/

/-- The character of a short escape. -/
def shortEscape? : Char → Option Char
  | '"' => some '"'
  | '\\' => some '\\'
  | '/' => some '/'
  | 'b' => some '\x08'
  | 'f' => some '\x0c'
  | 'n' => some '\n'
  | 'r' => some '\r'
  | 't' => some '\t'
  | _ => none

/-- The value of a hexadecimal digit of either case. -/
def hexValue? (c : Char) : Option Nat :=
  if c.isDigit then some (c.toNat - '0'.toNat)
  else if 'a' ≤ c ∧ c ≤ 'f' then some (c.toNat - 'a'.toNat + 10)
  else if 'A' ≤ c ∧ c ≤ 'F' then some (c.toNat - 'A'.toNat + 10)
  else none

/-- The unit that four hexadecimal digits write. -/
def unit? (a b c d : Char) : Option Nat := do
  return (((← hexValue? a) * 16 + (← hexValue? b)) * 16 + (← hexValue? c)) * 16 + (← hexValue? d)

/-- The content up to the closing quote, after the pieces already read, and what follows it. A
control character must be escaped. -/
def scanText (done : List Piece) : List Char → Option (List Piece × List Char)
  | '"' :: rest => some (done.reverse, rest)
  | '\\' :: 'u' :: a :: b :: c :: d :: rest =>
    match unit? a b c d with
    | some n => scanText (.unit n :: done) rest
    | none => none
  | '\\' :: c :: rest =>
    match shortEscape? c with
    | some e => scanText (.char e :: done) rest
    | none => none
  | c :: rest => if c.toNat < 0x20 || c == '\\' then none else scanText (.char c :: done) rest
  | [] => none

/-- The characters of a content. Two units in a row that form a surrogate pair are one character;
a surrogate that is not part of a pair is none. -/
def contentText? : List Piece → Option (List Char)
  | [] => some []
  | .char c :: rest => (contentText? rest).map (c :: ·)
  | .unit n :: rest =>
    if n < 0xD800 || 0xE000 ≤ n then (contentText? rest).map (Char.ofNat n :: ·)
    else
      match rest with
      | .unit m :: rest =>
        if n < 0xDC00 && 0xDC00 ≤ m && m < 0xE000 then
          (contentText? rest).map
            (Char.ofNat (0x10000 + (n - 0xD800) * 0x400 + (m - 0xDC00)) :: ·)
        else none
      | _ => none

/-- A text as a token, for a text that needs no escape. -/
def quote (text : String) : String := "\"" ++ text ++ "\""

/-! ### Numbers -/

/-- The number written by a row of digits. -/
def digitsValue (ds : List Char) : Nat := ds.foldl (fun n c => 10 * n + (c.toNat - '0'.toNat)) 0

/-- What follows a row of digits, of which there must be one. -/
def skipDigits (cs : List Char) : Option (List Char) :=
  if (cs.takeWhile Char.isDigit).isEmpty then none else some (cs.dropWhile Char.isDigit)

/-- What follows a fraction, if there is one. -/
def skipFraction : List Char → Option (List Char)
  | '.' :: rest => skipDigits rest
  | cs => some cs

/-- What follows an exponent, if there is one. -/
def skipExponent : List Char → Option (List Char)
  | c :: rest =>
    if c == 'e' || c == 'E' then
      match rest with
      | '+' :: rest => skipDigits rest
      | '-' :: rest => skipDigits rest
      | rest => skipDigits rest
    else some (c :: rest)
  | [] => some []

/-- A number without its sign, and what follows it. The integer part has no superfluous zero. -/
def scanNumber (cs : List Char) : Option (Token × List Char) := do
  let whole := match cs with
    | '0' :: _ => ['0']
    | _ => cs.takeWhile Char.isDigit
  if whole.isEmpty then none
  let afterWhole := cs.drop whole.length
  let afterFraction ← skipFraction afterWhole
  let rest ← skipExponent afterFraction
  let plain := rest.length == afterWhole.length
  return (.number (if plain then some (digitsValue whole) else none), rest)

/-! ### Scanning -/

/-- What follows the given letters. -/
def skipWord (letters : String) (cs : List Char) : Option (List Char) :=
  if letters.toList.isPrefixOf cs then some (cs.drop letters.length) else none

/-- The first token of a text that begins with one, and what follows it. -/
def scanToken : List Char → Option (Token × List Char)
  | [] => none
  | '{' :: rest => some (.openBrace, rest)
  | '}' :: rest => some (.closeBrace, rest)
  | '[' :: rest => some (.openBracket, rest)
  | ']' :: rest => some (.closeBracket, rest)
  | ',' :: rest => some (.comma, rest)
  | ':' :: rest => some (.colon, rest)
  | '"' :: rest => (scanText [] rest).map fun (content, rest) => (.text content, rest)
  | '-' :: rest => (scanNumber rest).map fun (_, rest) => (.number none, rest)
  | 't' :: rest => (skipWord "rue" rest).map (.word, ·)
  | 'f' :: rest => (skipWord "alse" rest).map (.word, ·)
  | 'n' :: rest => (skipWord "ull" rest).map (.word, ·)
  | cs => scanNumber cs

/-- The tokens after those already read, of which there are at most `most`. -/
def scanTokens : (most : Nat) → (done : List Token) → List Char → Option (List Token)
  | most, done, cs =>
    match cs.dropWhile isBlank with
    | [] => some done.reverse
    | c :: rest =>
      match most with
      | 0 => none
      | most + 1 =>
        match scanToken (c :: rest) with
        | some (token, rest) => scanTokens most (token :: done) rest
        | none => none

/-- The tokens of a text. Each takes a character at least, which bounds their number. -/
def scan (text : String) : Option (List Token) :=
  let cs := text.toList
  scanTokens cs.length [] cs

end ConfidentialCoin.Json

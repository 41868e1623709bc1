import Covenant.Error

/-!
# From text to tokens

Reading runs over the characters once, from left to right. White space and comments, which begin
with two slashes and end with the line, part tokens and are otherwise skipped. Each token is the
longest that starts where it starts. The list of tokens ends with exactly one `finish` token, which
sits at the end of the text.

## Main definitions

* `skipTrivia`: white space and comments.
* `scanNumber`, `scanWord`, `scanString`, `scanSymbol`: the tokens by their first character.
* `nextToken`: one token.
* `tokenize`: all tokens of a text.
-/

namespace Covenant.Lexer

/-- Where reading stands: the position and the characters ahead. -/
structure Cursor where
  position : Position
  rest : List Char
deriving Repr, DecidableEq

/-- A fault and the position it is reported at. -/
structure Failure where
  position : Position
  fault : SyntaxFault
deriving DecidableEq

/-- Skips white space and comments. Yields whether a line break was crossed, and the first place
that is neither; within a comment everything but a line feed is skipped. -/
def skipTrivia (inComment newline : Bool) (p : Position) : List Char → Bool × Cursor
  | [] => (newline, ⟨p, []⟩)
  | c :: rest =>
    if c = '\n' then skipTrivia false true (p.advance c) rest
    else if inComment then skipTrivia true newline (p.advance c) rest
    else if Text.isBlank c then skipTrivia false newline (p.advance c) rest
    else if c = '/' && rest.head? = some '/' then skipTrivia true newline (p.advance c) rest
    else (newline, ⟨p, c :: rest⟩)

/-! ### Numbers -/

/-- Whether a digit comes next. -/
def digitAhead (cs : List Char) : Bool :=
  cs.head?.any Text.isDigit

/-- A run of digits in which single underscores may stand before digits: the digits, how many
characters the run takes, and what follows. -/
def scanDigits : List Char → List Char × Nat × List Char
  | [] => ([], 0, [])
  | c :: rest =>
    if Text.isDigit c then
      let (digits, taken, after) := scanDigits rest
      (c :: digits, taken + 1, after)
    else if c = '_' && digitAhead rest then
      let (digits, taken, after) := scanDigits rest
      (digits, taken + 1, after)
    else ([], 0, c :: rest)

/-- The fraction behind a whole part: a point with a digit after it begins one. -/
def scanFraction (cs : List Char) : Option (List Char × Nat × List Char) :=
  match cs with
  | '.' :: rest =>
    if digitAhead rest then
      let (digits, taken, after) := scanDigits rest
      some (digits, taken + 1, after)
    else none
  | _ => none

/-- Digits of an exponent with its sign. -/
def scanSigned (negative : Bool) (marks : Nat) (cs : List Char) : Option (Int × Nat × List Char) :=
  if digitAhead cs then
    let (digits, taken, after) := scanDigits cs
    some (Number.exponentOf negative digits, taken + marks, after)
  else none

/-- The exponent behind a number: a mark, perhaps a sign, and a digit begin one. -/
def scanExponent (cs : List Char) : Option (Int × Nat × List Char) :=
  match cs with
  | mark :: rest =>
    if mark = 'e' || mark = 'E' then
      match rest with
      | '+' :: more => scanSigned false 2 more
      | '-' :: more => scanSigned true 2 more
      | _ => scanSigned false 1 rest
    else none
  | [] => none

/-- A literal with a fraction or an exponent, if it is finite. -/
def numberLiteral (p : Position) (d : Number.Decimal) : Except Failure Token.Kind :=
  let x := d.toDouble
  if x.isFinite then .ok (.number x) else .error ⟨p, .numberOutOfRange⟩

/-- An integer literal, if it fits in 64 bits. -/
def integerLiteral (p : Position) (digits : List Char) : Except Failure Token.Kind :=
  match Number.integer? (Number.ofDigits digits) with
  | some n => .ok (.integer n)
  | none => .error ⟨p, .integerOutOfRange⟩

/-- A number: a fraction or an exponent makes it a double, otherwise it is an integer. -/
def scanNumber (p : Position) (cs : List Char) : Except Failure (Token.Kind × Cursor) := do
  let (whole, taken, rest) := scanDigits cs
  let fraction := scanFraction rest
  let (decimals, taken, rest) :=
    match fraction with
    | some (digits, more, after) => (digits, taken + more, after)
    | none => ([], taken, rest)
  match scanExponent rest with
  | some (exponent, more, after) =>
    let kind ← numberLiteral p ⟨Number.ofDigits (whole ++ decimals), exponent - decimals.length⟩
    return (kind, ⟨p.shift (taken + more), after⟩)
  | none =>
    let kind ←
      if fraction.isSome then
        numberLiteral p ⟨Number.ofDigits (whole ++ decimals), -(decimals.length : Int)⟩
      else integerLiteral p whole
    return (kind, ⟨p.shift taken, rest⟩)

/-! ### Words -/

/-- What a word begins with. -/
def startsWord (c : Char) : Bool :=
  c = '_' || Text.isLetter c

/-- What a word goes on with. -/
def continuesWord (c : Char) : Bool :=
  c = '_' || Text.isLetter c || Text.isNumeral c

/-- A keyword or another word. -/
def scanWord (p : Position) (cs : List Char) : Token.Kind × Cursor :=
  let (word, rest) := cs.span continuesWord
  let text := String.ofList word
  let kind : Token.Kind :=
    match Keyword.ofText? text with
    | some k => .keyword k
    | none => .word text
  (kind, ⟨p.shift word.length, rest⟩)

/-! ### Strings -/

/-- What has been read of the current item of a string. -/
inductive StringMode where
  /-- Nothing: an item begins. -/
  | item
  /-- A backslash. -/
  | escape
  /-- A backslash and the letter of a code point. -/
  | brace
  /-- That, an opening brace, and these characters, the last one first. -/
  | code (digits : List Char)
deriving Repr, DecidableEq

/-- The number that hexadecimal digits write; nothing if there is none or another character. -/
def readHex? (digits : List Char) : Option Nat :=
  if digits.isEmpty then none
  else digits.foldl (fun n c => n.bind fun n => (Text.hexValue? c).map (16 * n + ·)) (some 0)

/-- The character with the code point that the text between the braces writes, perhaps behind a
plus sign. -/
def codePoint? (digits : List Char) : Option Char :=
  let digits := match digits with
    | '+' :: rest => rest
    | _ => digits
  (readHex? digits).bind fun n => if n.isValidChar then some (Char.ofNat n) else none

/-- The character that a letter behind a backslash stands for. -/
def simpleEscape? : Char → Option Char
  | '"' => some '"'
  | '\\' => some '\\'
  | 'n' => some '\n'
  | 'r' => some '\r'
  | 't' => some '\t'
  | '0' => some '\x00'
  | _ => none

/-- The rest of a string literal behind its opening quote at `start`. The characters decoded so
far are in `decoded`, the last one first. -/
def scanString (start : Position) :
    StringMode → Position → List Char → List Char → Except Failure (Token.Kind × Cursor)
  | .item, _, _, [] => .error ⟨start, .unterminatedString⟩
  | .escape, p, _, [] => .error ⟨p, .incompleteEscape⟩
  | .brace, p, _, [] => .error ⟨p, .missingEscapeBrace⟩
  | .code _, p, _, [] => .error ⟨p, .unterminatedEscape⟩
  | .item, p, decoded, c :: rest =>
    if c = '"' then .ok (.string (String.ofList decoded.reverse), ⟨p.advance c, rest⟩)
    else if c = '\\' then scanString start .escape (p.advance c) decoded rest
    else scanString start .item (p.advance c) (c :: decoded) rest
  | .escape, p, decoded, c :: rest =>
    if c = 'u' then scanString start .brace (p.advance c) decoded rest
    else match simpleEscape? c with
      | some d => scanString start .item (p.advance c) (d :: decoded) rest
      | none => .error ⟨p.advance c, .unknownEscape c⟩
  | .brace, p, decoded, c :: rest =>
    if c = '{' then scanString start (.code []) (p.advance c) decoded rest
    else .error ⟨p, .missingEscapeBrace⟩
  | .code digits, p, decoded, c :: rest =>
    if c = '}' then
      match codePoint? digits.reverse with
      | some d => scanString start .item (p.advance c) (d :: decoded) rest
      | none => .error ⟨p.advance c, .invalidEscape (String.ofList digits.reverse)⟩
    else scanString start (.code (c :: digits)) (p.advance c) decoded rest

/-! ### Symbols -/

/-- The symbol of one character. -/
def singleSymbol? : Char → Option Symbol
  | '(' => some .openParen
  | ')' => some .closeParen
  | '{' => some .openBrace
  | '}' => some .closeBrace
  | '[' => some .openBracket
  | ']' => some .closeBracket
  | ',' => some .comma
  | ':' => some .colon
  | ';' => some .semicolon
  | '.' => some .dot
  | '+' => some .plus
  | '-' => some .minus
  | '*' => some .star
  | '/' => some .slash
  | '%' => some .percent
  | '!' => some .bang
  | '=' => some .assign
  | '<' => some .less
  | '>' => some .greater
  | _ => none

/-- The symbol of two characters. -/
def doubleSymbol? : Char → Char → Option Symbol
  | '!', '=' => some .notEqual
  | '=', '=' => some .equal
  | '<', '=' => some .lessEqual
  | '>', '=' => some .greaterEqual
  | '&', '&' => some .and
  | '|', '|' => some .or
  | _, _ => none

/-- A symbol, of two characters where possible. -/
def scanSymbol (p : Position) (c : Char) (rest : List Char) :
    Except Failure (Token.Kind × Cursor) :=
  match rest.head?.bind (doubleSymbol? c) with
  | some s => .ok (.symbol s, ⟨p.shift 2, rest.drop 1⟩)
  | none =>
    match singleSymbol? c with
    | some s => .ok (.symbol s, ⟨p.shift 1, rest⟩)
    | none => .error ⟨p, .unexpectedCharacter c⟩

/-! ### Whole texts -/

/-- The token that begins at the cursor, by its first character. -/
def scanKind (cursor : Cursor) : Except Failure (Token.Kind × Cursor) :=
  match cursor.rest with
  | [] => .ok (.finish, cursor)
  | c :: rest =>
    if Text.isDigit c then scanNumber cursor.position cursor.rest
    else if startsWord c then .ok (scanWord cursor.position cursor.rest)
    else if c = '"' then scanString cursor.position .item (cursor.position.advance c) [] rest
    else scanSymbol cursor.position c rest

/-- The next token behind white space and comments. -/
def nextToken (cursor : Cursor) : Except Failure (Token × Cursor) := do
  let (newline, at_) := skipTrivia false false cursor.position cursor.rest
  let (kind, after) ← scanKind at_
  return (⟨kind, at_.position, after.position, newline⟩, after)

/-- The tokens from the cursor on, behind those already read, the last of which comes first. The
allowance bounds the number of tokens. -/
def tokensFrom : Nat → Cursor → List Token → Except Failure (List Token)
  | 0, cursor, _ => .error ⟨cursor.position, .recursionExhausted⟩
  | allowance + 1, cursor, read => do
    let (token, after) ← nextToken cursor
    if token.kind = .finish then return (token :: read).reverse
    tokensFrom allowance after (token :: read)

/-- The tokens of a text. Each takes a character, so one more than the text has suffices. -/
def tokens (source : String) : Except Failure (List Token) :=
  let cs := source.toList
  tokensFrom (cs.length + 1) ⟨.start, cs⟩ []

/-- The tokens of a text; a failure is located in the file of this name. -/
def tokenize (file source : String) : Except SyntaxError (List Token) :=
  match tokens source with
  | .ok ts => .ok ts
  | .error failure => .error ⟨Location.point file failure.position, failure.fault⟩

end Covenant.Lexer

import Covenant.Script.Basic
import Covenant.Token.Lexer

/-!
# From tokens to scripts

A recursive descent over the tokens. What surrounds a place is passed down as a `Context`: how many
constructs are open, whether a loop is, and whether the place lies inside parentheses, brackets or
an object literal, where a line break does not end an expression. Reading ends at the first error.

Every function takes an allowance for the depth of the descent, and every repetition has one for
the number of its rounds. Both are derived from the number of tokens and never run out.

## Main definitions

* `Context`, `Cursor`, `ParserM`: surroundings, place and result of reading.
* `expression` and the functions around it: the grammar.
* `parse`: a script from a text.
-/

namespace Covenant.Parser

/-- What surrounds the place that is being read. -/
structure Context where
  /-- The name of the text. -/
  file : String
  /-- How many constructs are open. -/
  nesting : Nat
  /-- Whether a loop body is open. -/
  inLoop : Bool
  /-- Whether line breaks are ignored. -/
  grouped : Bool
  /-- The most rounds a repetition takes. -/
  rounds : Nat

/-- The current token, those behind it, and where the token before it ended. -/
structure Cursor where
  current : Token
  ahead : List Token
  lastEnd : Position

/-- Reading at a place in its surroundings. -/
abbrev ParserM := ReaderT Context (StateT Cursor (Except SyntaxError))

/-! ### Tokens -/

/-- The current token. -/
def current : ParserM Token :=
  return (← get).current

/-- Fails with a fault at a token. -/
def failAt {α : Type} (token : Token) (fault : SyntaxFault) : ParserM α := do
  throw ⟨Location.between (← read).file token.first token.last, fault⟩

/-- Fails because something else was expected at the current token. -/
def unexpected {α : Type} (what : Expected) : ParserM α := do
  let token ← current
  failAt token (.expected what token.kind)

/-- Passes the current token; the last one is never passed. -/
def advance : ParserM Token := do
  let cursor ← get
  match cursor.ahead with
  | [] => pure ()
  | next :: ahead => set (⟨next, ahead, cursor.current.last⟩ : Cursor)
  return cursor.current

/-- Whether the current token is a symbol. -/
def atSymbol (symbol : Symbol) : ParserM Bool :=
  return (← current).kind = .symbol symbol

/-- Whether the current token is a keyword. -/
def atKeyword (keyword : Keyword) : ParserM Bool :=
  return (← current).kind = .keyword keyword

/-- Whether the text ends here. -/
def atFinish : ParserM Bool :=
  return (← current).kind = .finish

/-- Passes a symbol if it is the current token. -/
def eat (symbol : Symbol) : ParserM Bool := do
  if ← atSymbol symbol then
    let _ ← advance
    return true
  return false

/-- Passes a symbol that must be the current token. -/
def expect (symbol : Symbol) (what : Expected) : ParserM Unit := do
  unless ← eat symbol do
    unexpected what

/-- Whether the current token may go on with the expression before it: it stands on the same line
or line breaks are ignored. -/
def continuesLine : ParserM Bool := do
  return !(← current).newlineBefore || (← read).grouped

/-! ### Surroundings -/

/-- Fails at the current token if, with `more` further constructs open, the limit is reached. -/
def checkNesting (more : Nat) : ParserM Unit := do
  if maxNesting ≤ (← read).nesting + more then
    failAt (← current) .nestedTooDeep

/-- Reads with further constructs open. -/
def deeper {α : Type} (levels : Nat) (p : ParserM α) : ParserM α :=
  withReader (fun c => { c with nesting := c.nesting + levels }) p

/-- Reads where line breaks are ignored, or where they are not. -/
def grouping {α : Type} (grouped : Bool) (p : ParserM α) : ParserM α :=
  withReader (fun c => { c with grouped }) p

/-- Reads inside a loop body. -/
def insideLoop {α : Type} (p : ParserM α) : ParserM α :=
  withReader (fun c => { c with inLoop := true }) p

/-- Fails because an allowance has run out. -/
def exhausted {α : Type} : ParserM α := do
  failAt (← current) .recursionExhausted

/-- Repeats a round until it yields a result, at most so many times. -/
def rounds {α β : Type} (round : α → ParserM (α ⊕ β)) : Nat → α → ParserM β
  | 0, _ => exhausted
  | n + 1, a => do
    match ← round a with
    | .inl a => rounds round n a
    | .inr b => return b

/-- Repeats a round until it yields a result. -/
def repeatRounds {α β : Type} (a : α) (round : α → ParserM (α ⊕ β)) : ParserM β := do
  rounds round (← read).rounds a

/-! ### Grammar -/

/-- The binary operator that a token spells. -/
def binaryOp? : Token.Kind → Option BinaryOp
  | .symbol .or => some .or
  | .symbol .and => some .and
  | .symbol .equal => some .equal
  | .symbol .notEqual => some .notEqual
  | .symbol .less => some .less
  | .symbol .lessEqual => some .lessEqual
  | .symbol .greater => some .greater
  | .symbol .greaterEqual => some .greaterEqual
  | .symbol .plus => some .add
  | .symbol .minus => some .subtract
  | .symbol .star => some .multiply
  | .symbol .slash => some .divide
  | .symbol .percent => some .modulo
  | _ => none

/-- The unary operator that a token spells. -/
def unaryOp? : Token.Kind → Option UnaryOp
  | .symbol .minus => some .negate
  | .symbol .bang => some .not
  | _ => none

/-- Whether a token can attach to the expression before it. -/
def attaches : Token.Kind → Bool
  | .symbol .dot | .symbol .openParen | .symbol .openBracket => true
  | _ => false

/-- The name that an expression calls: a name or a chain of properties of one. -/
def calleeName? : Expr → Option String
  | .ref name => some name
  | .property target name => (calleeName? target).map fun front => front ++ "." ++ name
  | _ => none

/-- Whether the opening brace at the current token begins an object: the next token closes it, or
is a key with a colon behind it. -/
def objectAhead : ParserM Bool := do
  match (← get).ahead with
  | ⟨.symbol .closeBrace, _, _, _⟩ :: _ => return true
  | ⟨.word _, _, _, _⟩ :: ⟨.symbol .colon, _, _, _⟩ :: _ => return true
  | ⟨.string _, _, _, _⟩ :: ⟨.symbol .colon, _, _, _⟩ :: _ => return true
  | _ => return false

/-- A statement ends with a semicolon, which is passed, or before the end of the text, a closing
brace or a line break. -/
def statementEnd : ParserM Unit := do
  if ← eat .semicolon then return
  if ← atFinish then return
  if ← atSymbol .closeBrace then return
  if (← current).newlineBefore then return
  unexpected .statementEnd

mutual

/-- A statement of a block or script: a declaration, a jump or an expression. -/
def blockItem : Nat → ParserM Expr
  | 0 => exhausted
  | n + 1 => do
    let token ← current
    match token.kind with
    | .keyword .let_ =>
      let _ ← advance
      let nameToken ← advance
      match nameToken.kind with
      | .word name =>
        expect .assign .bindingEquals
        let value ← expression n
        return .declare name value
      | _ => failAt nameToken .bindingName
    | .keyword .break_ =>
      let _ ← advance
      if (← read).inLoop then return .jump .break_
      failAt token (.jumpOutsideLoop .break_)
    | .keyword .continue_ =>
      let _ ← advance
      if (← read).inLoop then return .jump .continue_
      failAt token (.jumpOutsideLoop .continue_)
    | _ => expression n
termination_by structural n => n

/-- An expression opens one construct. -/
def expression : Nat → ParserM Expr
  | 0 => exhausted
  | n + 1 => do
    checkNesting 0
    deeper 1 (assignment n)
termination_by structural n => n

/-- An assignment to a name, or an operation. Assignments associate to the right. -/
def assignment : Nat → ParserM Expr
  | 0 => exhausted
  | n + 1 => do
    let start ← current
    let target ← binary n 0
    if ← eat .assign then
      match target with
      | .ref name =>
        checkNesting 0
        let value ← deeper 1 (assignment n)
        return .assign name value
      | _ => failAt start .invalidTarget
    else return target
termination_by structural n => n

/-- Operations of a group or a tighter one, associating to the left. Each operator of a chain
leaves one construct open until the chain ends. -/
def binary : Nat → Nat → ParserM Expr
  | 0, _ => exhausted
  | n + 1, level => do
    if BinaryOp.levels ≤ level then unary n
    else
      let first ← binary n (level + 1)
      repeatRounds ((0, first) : Nat × Expr) fun (chained, left) => do
        if !(← continuesLine) then return .inr left
        match binaryOp? (← current).kind with
        | some op =>
          if op.level = level then
            checkNesting chained
            let _ ← advance
            let right ← deeper (chained + 1) (binary n (level + 1))
            return .inl (chained + 1, .binary left op right)
          else return .inr left
        | none => return .inr left
termination_by structural n => n

/-- Unary operators in front of an operand. -/
def unary : Nat → ParserM Expr
  | 0 => exhausted
  | n + 1 => do
    match unaryOp? (← current).kind with
    | some op =>
      let _ ← advance
      checkNesting 0
      let operand ← deeper 1 (unary n)
      return .unary op operand
    | none => postfixed n
termination_by structural n => n

/-- An operand with the properties, calls and indices attached to it. Each leaves one construct
open until the chain ends. A property may stand on a line of its own; a call or an index may not,
unless line breaks are ignored. -/
def postfixed : Nat → ParserM Expr
  | 0 => exhausted
  | n + 1 => do
    let first ← primary n
    repeatRounds ((0, first) : Nat × Expr) fun (chained, e) => do
      let token ← current
      if attaches token.kind then checkNesting chained
      match token.kind with
      | .symbol .dot =>
        let _ ← advance
        let nameToken ← advance
        match nameToken.kind with
        | .word name => return .inl (chained + 1, .property e name)
        | _ => failAt nameToken .propertyName
      | .symbol .openParen =>
        if ← continuesLine then
          let _ ← advance
          match calleeName? e with
          | some name =>
            let args ← deeper (chained + 1) (delimited n .closeParen .closeParen)
            return .inl (chained + 1, .call name args)
          | none => failAt token .notCallable
        else return .inr e
      | .symbol .openBracket =>
        if ← continuesLine then
          let _ ← advance
          let position ← deeper (chained + 1) (grouping true (expression n))
          expect .closeBracket .closeBracket
          return .inl (chained + 1, .index e position)
        else return .inr e
      | _ => return .inr e
termination_by structural n => n

/-- A literal, a name, or a construct with a beginning of its own. -/
def primary : Nat → ParserM Expr
  | 0 => exhausted
  | n + 1 => do
    match (← current).kind with
    | .integer value =>
      let _ ← advance
      return .literal (.integer value)
    | .number value =>
      let _ ← advance
      return .literal (.number value)
    | .string text =>
      let _ ← advance
      return .literal (.string text)
    | .keyword .true_ =>
      let _ ← advance
      return .literal (.boolean true)
    | .keyword .false_ =>
      let _ ← advance
      return .literal (.boolean false)
    | .keyword .null =>
      let _ ← advance
      return .literal .null
    | .word name =>
      let _ ← advance
      return .ref name
    | .symbol .openParen =>
      let _ ← advance
      let inner ← grouping true (expression n)
      expect .closeParen .closeParen
      return inner
    | .symbol .openBracket =>
      let _ ← advance
      return .array (← delimited n .closeBracket .closeBracket)
    | .symbol .openBrace => if ← objectAhead then object n else block n
    | .keyword .if_ => conditional n
    | .keyword .while_ =>
      let _ ← advance
      let test ← condition n
      let body ← loopBody n
      return .loop (some test) body
    | .keyword .loop =>
      let _ ← advance
      let body ← loopBody n
      return .loop none body
    | _ => unexpected .expression
termination_by structural n => n

/-- Expressions parted by commas up to a closing symbol; a comma may stand before it. -/
def delimited : Nat → Symbol → Expected → ParserM (List Expr)
  | 0, _, _ => exhausted
  | n + 1, close, what => grouping true <|
    repeatRounds ([] : List Expr) fun items => do
      if ← eat close then return .inr items.reverse
      let item ← expression n
      if ← eat .comma then return .inl (item :: items)
      expect close what
      return .inr (item :: items).reverse
termination_by structural n => n

/-- An object literal. Of entries with one key the last stays, in its place. -/
def object : Nat → ParserM Expr
  | 0 => exhausted
  | n + 1 => do
    let _ ← advance
    grouping true <| repeatRounds ([] : List (String × Expr)) fun entries => do
      if ← eat .closeBrace then return .inr (.object entries.reverse)
      let keyToken ← advance
      let key ←
        match keyToken.kind with
        | .word name => pure name
        | .string text => pure text
        | _ => failAt keyToken .objectKey
      expect .colon .keyColon
      let value ← expression n
      let entries := (key, value) :: entries.filter fun entry => entry.1 ≠ key
      if ← eat .comma then return .inl entries
      expect .closeBrace .entryEnd
      return .inr (.object entries.reverse)
termination_by structural n => n

/-- A block: items in braces, where line breaks end statements again. -/
def block : Nat → ParserM Expr
  | 0 => exhausted
  | n + 1 => do
    expect .openBrace .openBrace
    grouping false <| repeatRounds ([] : List Expr) fun items => do
      if ← eat .semicolon then return .inl items
      if ← eat .closeBrace then return .inr (.block items.reverse)
      if ← atFinish then unexpected .blockEnd
      let item ← blockItem n
      statementEnd
      return .inl (item :: items)
termination_by structural n => n

/-- The test of a choice or a repetition; an opening brace must follow. -/
def condition : Nat → ParserM Expr
  | 0 => exhausted
  | n + 1 => do
    let test ← grouping false (expression n)
    unless ← atSymbol .openBrace do
      unexpected .openBrace
    return test
termination_by structural n => n

/-- A choice, whose second branch is a block or another choice. -/
def conditional : Nat → ParserM Expr
  | 0 => exhausted
  | n + 1 => do
    let _ ← advance
    let test ← condition n
    let yes ← block n
    if ← atKeyword .else_ then
      let _ ← advance
      if ← atKeyword .if_ then return .cond test yes (some (← conditional n))
      if ← atSymbol .openBrace then return .cond test yes (some (← block n))
      unexpected .elseBranch
    return .cond test yes none
termination_by structural n => n

/-- The body of a loop: a block in which jumps may stand. -/
def loopBody : Nat → ParserM Expr
  | 0 => exhausted
  | n + 1 => do
    unless ← atSymbol .openBrace do
      unexpected .loopBody
    insideLoop (block n)
termination_by structural n => n

end

/-- A statement of a script. A chain of operators is deeper than the descent that reads it, so the
depth of the whole is checked once more. -/
def statement (allowance : Nat) : ParserM Statement := do
  let start ← current
  let e ← blockItem allowance
  if maxNesting < e.depth then failAt start .nestedTooDeep
  return ⟨e, some (Location.between (← read).file start.first (← get).lastEnd)⟩

/-- The statements up to the end of the text. -/
def statements (allowance : Nat) : ParserM (List Statement) :=
  repeatRounds ([] : List Statement) fun read => do
    if ← atFinish then return .inr read.reverse
    if ← eat .semicolon then return .inl read
    let s ← statement allowance
    statementEnd
    return .inl (s :: read)

/-- The statements that tokens make up, with an allowance for the depth of the descent. -/
def readStatements (allowance : Nat) (file : String) :
    List Token → Except SyntaxError (List Statement)
  | [] => .ok []
  | first :: ahead => do
    let context : Context :=
      { file, nesting := 0, inLoop := false, grouped := false, rounds := ahead.length + 2 }
    let (read, _) ← (statements allowance).run context |>.run ⟨first, ahead, .start⟩
    return read

/-- An allowance that covers every descent over so many tokens. -/
def descentAllowance (tokens : Nat) : Nat :=
  16 * (tokens + 1)

end Covenant.Parser

namespace Covenant

/-- The name of a script that is given none. -/
def Script.defaultName : String := "script"

/-- Reads a script from a text. The name stands in its locations. -/
def parse (name source : String) : Except SyntaxError Script := do
  let tokens ← Lexer.tokenize name source
  let statements ← Parser.readStatements (Parser.descentAllowance tokens.length) name tokens
  return { name, statements, source, metadata := [] }

end Covenant

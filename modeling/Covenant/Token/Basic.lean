import Covenant.Number.Decimal
import Covenant.Source

/-!
# Tokens

The units that script text is made of: literals, words, keywords, symbols and the end of the text,
each with the stretch it covers and whether a line break stands before it.

## Main definitions

* `Keyword`, `Symbol`: the reserved words and the punctuation, with their spelling.
* `Token.Kind`, `Token`: what a token is and where.
* `Token.Kind.describe`: how messages name a token.
* `Keyword.ofText?`: the keyword that a word spells.
-/

namespace Covenant

/-- The reserved words. -/
inductive Keyword where
  | let_
  | if_
  | else_
  | while_
  | loop
  | break_
  | continue_
  | true_
  | false_
  | null
deriving Repr, DecidableEq

namespace Keyword

/-- The spelling of a keyword. -/
def spelling : Keyword → String
  | let_ => "let"
  | if_ => "if"
  | else_ => "else"
  | while_ => "while"
  | loop => "loop"
  | break_ => "break"
  | continue_ => "continue"
  | true_ => "true"
  | false_ => "false"
  | null => "null"

/-- All keywords. -/
def all : List Keyword :=
  [let_, if_, else_, while_, loop, break_, continue_, true_, false_, null]

/-- The keyword that a word spells, if it is reserved. -/
def ofText? (text : String) : Option Keyword :=
  all.find? fun k => k.spelling = text

end Keyword

/-- Punctuation and operators. -/
inductive Symbol where
  | openParen
  | closeParen
  | openBrace
  | closeBrace
  | openBracket
  | closeBracket
  | comma
  | colon
  | semicolon
  | dot
  | plus
  | minus
  | star
  | slash
  | percent
  | bang
  | assign
  | equal
  | notEqual
  | less
  | lessEqual
  | greater
  | greaterEqual
  | and
  | or
deriving Repr, DecidableEq

/-- The spelling of a symbol. -/
def Symbol.spelling : Symbol → String
  | openParen => "("
  | closeParen => ")"
  | openBrace => "\x7b"
  | closeBrace => "\x7d"
  | openBracket => "["
  | closeBracket => "]"
  | comma => ","
  | colon => ":"
  | semicolon => ";"
  | dot => "."
  | plus => "+"
  | minus => "-"
  | star => "*"
  | slash => "/"
  | percent => "%"
  | bang => "!"
  | assign => "="
  | equal => "=="
  | notEqual => "!="
  | less => "<"
  | lessEqual => "<="
  | greater => ">"
  | greaterEqual => ">="
  | and => "&&"
  | or => "||"

/-- What a token is. -/
inductive Token.Kind where
  /-- An integer literal. -/
  | integer (n : Int64)
  /-- A literal with a fraction or an exponent. -/
  | number (x : Double)
  /-- A string literal, decoded. -/
  | string (text : String)
  /-- A word that is not reserved. -/
  | word (name : String)
  /-- A reserved word. -/
  | keyword (keyword : Keyword)
  /-- Punctuation or an operator. -/
  | symbol (symbol : Symbol)
  /-- The end of the text. -/
  | finish
deriving DecidableEq

/-- How messages name a token. -/
def Token.Kind.describe : Token.Kind → String
  | .integer n => "integer " ++ Number.integerText n.toInt
  | .number x => "number " ++ Number.Layout.plain.write x
  | .string _ => "string literal"
  | .word name => "identifier '" ++ name ++ "'"
  | .keyword k => "'" ++ k.spelling ++ "'"
  | .symbol s => "'" ++ s.spelling ++ "'"
  | .finish => "end of input"

/-- A token with the stretch it covers. -/
structure Token where
  kind : Token.Kind
  /-- The position of its first character. -/
  first : Position
  /-- The position behind its last character. -/
  last : Position
  /-- Whether a line break stands between this token and the one before. -/
  newlineBefore : Bool
deriving DecidableEq

end Covenant

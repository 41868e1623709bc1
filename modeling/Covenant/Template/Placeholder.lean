import Covenant.Text.CharClass
import Covenant.Token.Identifier

/-!
# Placeholders

A template text is read once from left to right. At two opening braces, if what stands before the
next two closing braces is an identifier, perhaps with blanks around it, that is a placeholder;
otherwise the first brace is plain text. What a placeholder is replaced by is not read again.

## Main definitions

* `Segment`: a plain character or a placeholder.
* `segments`: the segments of a text.
* `placeholderNames`: the names in order, each once.
* `substitute`: the text with placeholders replaced.
-/

namespace Covenant

/-- A piece of a template text. -/
inductive Segment where
  /-- A character that stands for itself. -/
  | plain (c : Char)
  /-- A placeholder, with all that it is written with. -/
  | placeholder (name : String) (spelling : List Char)
deriving Repr, DecidableEq

namespace Segment

/-- What stands before the first two closing braces and what follows them. -/
def splitClosing : List Char → Option (List Char × List Char)
  | '}' :: '}' :: rest => some ([], rest)
  | c :: rest => (splitClosing rest).map fun (body, after) => (c :: body, after)
  | [] => none

/-- The placeholder whose opening braces stand in front of these characters, and what follows it. -/
def placeholder? (cs : List Char) : Option (Segment × List Char) :=
  match splitClosing cs with
  | some (body, rest) =>
    let name := String.ofList (Text.trimChars body)
    if isIdentifier name then
      some (placeholder name ('{' :: '{' :: (body ++ ['}', '}'])), rest)
    else none
  | none => none

/-- The segments of characters, behind those already found, the last of which comes first. Each
round takes at least one character. -/
def scan : Nat → List Segment → List Char → List Segment
  | 0, found, _ => found.reverse
  | _ + 1, found, [] => found.reverse
  | n + 1, found, '{' :: '{' :: rest =>
    match placeholder? rest with
    | some (segment, rest) => scan n (segment :: found) rest
    | none => scan n (plain '{' :: found) ('{' :: rest)
  | n + 1, found, c :: rest => scan n (plain c :: found) rest

/-- The segments of a text. -/
def segments (text : String) : List Segment :=
  let cs := text.toList
  scan cs.length [] cs

/-- The characters that a segment becomes; a placeholder without a replacement stays as written. -/
def expand (replace : String → Option (List Char)) : Segment → List Char
  | plain c => [c]
  | placeholder name spelling => (replace name).getD spelling

/-- The name of a placeholder. -/
def name? : Segment → Option String
  | plain _ => none
  | placeholder name _ => some name

end Segment

/-- The members of a list in order of first occurrence, behind those already found. -/
def firstOccurrences (found : List String) : List String → List String
  | [] => found.reverse
  | name :: rest =>
    if found.contains name then firstOccurrences found rest
    else firstOccurrences (name :: found) rest

/-- The names of the placeholders of a text, in order of first use. -/
def placeholderNames (text : String) : List String :=
  firstOccurrences [] ((Segment.segments text).filterMap Segment.name?)

/-- A text with its placeholders replaced. -/
def substitute (text : String) (replace : String → Option (List Char)) : String :=
  String.ofList ((Segment.segments text).flatMap (Segment.expand replace))

end Covenant

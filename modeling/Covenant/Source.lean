/-!
# Places in a source text

Lines and columns count from one, columns in characters. A `Position` is where reading stands; a
`Location` is a stretch of a named text as scripts, programs and errors carry it, in machine words.

## Main definitions

* `Position.advance`: the position after one more character.
* `Location.between`, `Location.point`: the location of a stretch and of a single place.
* `Location.describe`: the text of a location in listings.
-/

namespace Covenant

/-- A line and a column, both from one. -/
structure Position where
  line : Nat
  column : Nat
deriving Repr, DecidableEq

namespace Position

/-- The position of the first character. -/
def start : Position := ⟨1, 1⟩

/-- The position after one more character: a line feed begins a line. -/
def advance (p : Position) (c : Char) : Position :=
  if c = '\n' then ⟨p.line + 1, 1⟩ else ⟨p.line, p.column + 1⟩

/-- The position some columns further on the same line. -/
def shift (p : Position) (columns : Nat) : Position :=
  ⟨p.line, p.column + columns⟩

end Position

/-- A stretch of a named text. -/
structure Location where
  /-- The name of the text. -/
  file : String
  startLine : UInt64
  startColumn : UInt64
  endLine : UInt64
  endColumn : UInt64
deriving Repr, DecidableEq

namespace Location

/-- The stretch from one position to another. -/
def between (file : String) (first last : Position) : Location :=
  ⟨file, first.line.toUInt64, first.column.toUInt64, last.line.toUInt64, last.column.toUInt64⟩

/-- The empty stretch at a position. -/
def point (file : String) (p : Position) : Location :=
  between file p p

/-- The text of a location: the name, the first place and the last. -/
def describe (l : Location) : String :=
  s!"{l.file}:{l.startLine.toNat}:{l.startColumn.toNat}-{l.endLine.toNat}:{l.endColumn.toNat}"

end Location

end Covenant

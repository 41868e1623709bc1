import Covenant.Token.Basic
import Covenant.Text.CharClass

/-!
# Identifiers

The names that capabilities, templates and parameters may have: those that can stand in every script
as one word, with ASCII letters, digits and underscores only.

## Main definitions

* `isIdentifier`.
-/

namespace Covenant

/-- What an identifier begins with. -/
def startsIdentifier (c : Char) : Bool :=
  Text.isAsciiLetter c || c = '_'

/-- What an identifier goes on with. -/
def continuesIdentifier (c : Char) : Bool :=
  Text.isAsciiLetter c || Text.isDigit c || c = '_'

/-- Whether a text is an ASCII word that is not reserved. -/
def isIdentifier (name : String) : Bool :=
  match name.toList with
  | [] => false
  | c :: rest =>
    startsIdentifier c && rest.all continuesIdentifier && (Keyword.ofText? name).isNone

end Covenant

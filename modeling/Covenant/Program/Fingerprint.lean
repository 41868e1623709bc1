import Covenant.Hash.Blake3
import Covenant.Program.Json

/-!
# Identity of programs

Two programs count as equal if all their parts are, constants by the language's equality. The
fingerprint of a program is the digest of its canonical text.

## Main definitions

* `Program.equal`, `Program.fingerprint`.
-/

namespace Covenant.Program

/-- Whether two programs have equal parts; constants are compared as the language does. -/
def equal (p q : Program) : Bool :=
  p.name = q.name && p.level = q.level && p.declared = q.declared && p.code = q.code &&
    Value.equalItems p.constants.toList q.constants.toList && p.sourceMap = q.sourceMap

/-- The bytes of the canonical text. -/
def bytes (p : Program) : List UInt8 :=
  p.text.toUTF8.toList

/-- The digest of the canonical text in hexadecimal. -/
def fingerprint (p : Program) : String :=
  Blake3.hex p.bytes

end Covenant.Program

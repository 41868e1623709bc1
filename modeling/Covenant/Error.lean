import Covenant.Operator.Basic
import Covenant.Token.Basic
import Covenant.Value.Basic

/-!
# Errors

Every way in which reading, compiling, running or instantiating can fail. An error is a cause with
its circumstances; its wording is in one place, the functions named `message`.

## Main definitions

* `SyntaxFault`, `SyntaxError`: a text that is not a script, and where.
* `TypeFault`, `ArithmeticFault`, `CompileFault`, `TemplateFault`: causes by area.
* `Error`: every failure of the engine.
* `Error.message`: the wording.
-/

namespace Covenant

/-- The two jumps out of a loop body. -/
inductive Jump where
  | break_
  | continue_
deriving Repr, DecidableEq

/-- The keyword of a jump, in quotes. -/
def Jump.describe : Jump → String
  | break_ => "'break'"
  | continue_ => "'continue'"

/-- What the grammar asks for at a place where something else stands. -/
inductive Expected where
  | statementEnd
  | bindingEquals
  | expression
  | closeParen
  | closeBracket
  | keyColon
  | entryEnd
  | blockEnd
  | openBrace
  | elseBranch
  | loopBody
deriving Repr, DecidableEq

/-- How messages name what is asked for. -/
def Expected.describe : Expected → String
  | statementEnd => "end of statement"
  | bindingEquals => "'=' in let binding"
  | expression => "an expression"
  | closeParen => "')'"
  | closeBracket => "']'"
  | keyColon => "':' after object key"
  | entryEnd => "',' or '\x7d' in object literal"
  | blockEnd => "'\x7d' to close block"
  | openBrace => "'\x7b'"
  | elseBranch => "'\x7b' or 'if' after 'else'"
  | loopBody => "'\x7b' to open loop body"

/-- The deepest nesting of expressions that a script may have. -/
def maxNesting : Nat := 128

/-- Why a text is not a script. -/
inductive SyntaxFault where
  | unexpectedCharacter (c : Char)
  | numberOutOfRange
  | integerOutOfRange
  | unterminatedString
  | incompleteEscape
  | unknownEscape (c : Char)
  | missingEscapeBrace
  | unterminatedEscape
  | invalidEscape (code : String)
  | expected (what : Expected) (found : Token.Kind)
  | bindingName
  | propertyName
  | objectKey
  | jumpOutsideLoop (jump : Jump)
  | nestedTooDeep
  | invalidTarget
  | notCallable
  /-- The recursion allowance of a reader ran out; the allowances in use never do. -/
  | recursionExhausted
deriving DecidableEq

/-- Messages about nesting beyond the limit. -/
def nestingMessage : String :=
  s!"expression nested more than {maxNesting} levels deep"

/-- The wording of a syntax fault. -/
def SyntaxFault.message : SyntaxFault → String
  | unexpectedCharacter c => "unexpected character '" ++ c.toString ++ "'"
  | numberOutOfRange => "number literal out of range"
  | integerOutOfRange => "integer literal out of range"
  | unterminatedString => "unterminated string literal"
  | incompleteEscape => "incomplete escape"
  | unknownEscape c => "unknown escape: \\" ++ c.toString
  | missingEscapeBrace => "expected '\x7b' after \\u"
  | unterminatedEscape => "unterminated unicode escape"
  | invalidEscape code => "invalid unicode escape '" ++ code ++ "'"
  | expected what found => "expected " ++ what.describe ++ ", found " ++ found.describe
  | bindingName => "expected binding name after 'let'"
  | propertyName => "expected property name after '.'"
  | objectKey => "expected object key"
  | jumpOutsideLoop jump => jump.describe ++ " outside of a loop"
  | nestedTooDeep => nestingMessage
  | invalidTarget => "invalid assignment target"
  | notCallable => "only named functions can be called"
  | recursionExhausted => "recursion allowance exhausted"

/-- A syntax fault and where it was found. -/
structure SyntaxError where
  location : Location
  fault : SyntaxFault
deriving DecidableEq

/-- The wording of a syntax error: the text, the first place and the fault. -/
def SyntaxError.message (e : SyntaxError) : String :=
  s!"{e.location.file}:{e.location.startLine.toNat}:{e.location.startColumn.toNat}: " ++
    e.fault.message

/-- An operand or argument of the wrong kind. -/
inductive TypeFault where
  | unsupportedOperands (op : BinaryOp) (left right : Value.Kind)
  | incomparable (op : BinaryOp) (left right : Value.Kind)
  | notApplicable (op : UnaryOp) (operand : Value.Kind)
  /-- A construct needed a boolean; `context` names the construct. -/
  | needsBoolean (context : String) (found : Value.Kind)
  | noProperties (name : String) (found : Value.Kind)
  | notIndexable (target index : Value.Kind)
  | argumentCount (function : String) (takes got : Nat)
  | notAccepted (function : String) (found : Value.Kind)
  | noArguments (function : String)
  | notAnInteger (text : String)
  | notANumber (text : String)
  | jumpOutsideLoop (jump : Jump)
deriving DecidableEq

/-- The wording of a type fault. -/
def TypeFault.message : TypeFault → String
  | unsupportedOperands op left right =>
    s!"unsupported operand types for '{op.symbol}': {left.name} and {right.name}"
  | incomparable op left right =>
    s!"cannot compare {left.name} and {right.name} with '{op.symbol}'"
  | notApplicable op operand => s!"cannot apply '{op.symbol}' to {operand.name}"
  | needsBoolean context found => s!"{context} requires a boolean, found {found.name}"
  | noProperties name found => s!"cannot read property '{name}' of {found.name}"
  | notIndexable target index => s!"cannot index {target.name} with {index.name}"
  | argumentCount function takes got =>
    let plural := if takes = 1 then "" else "s"
    s!"{function}() takes {takes} argument{plural}, got {got}"
  | notAccepted function found => s!"{function}() does not accept {found.name}"
  | noArguments function => s!"{function}() needs at least one argument"
  | notAnInteger text => s!"'{text}' is not an integer"
  | notANumber text => s!"'{text}' is not a number"
  | jumpOutsideLoop jump => jump.describe ++ " outside of a loop"

/-- An operation without a result. -/
inductive ArithmeticFault where
  | divisionByZero
  | moduloByZero
  | overflow (op : BinaryOp) (left right : Int64)
  | negationOverflow (operand : Int64)
  | absOverflow
  | undefinedComparison
  | notIntegral (x : Double)
deriving DecidableEq

/-- The wording of an arithmetic fault. -/
def ArithmeticFault.message : ArithmeticFault → String
  | divisionByZero => "division by zero"
  | moduloByZero => "modulo by zero"
  | overflow op left right =>
    s!"integer overflow in {left.toInt} {op.symbol} {right.toInt}"
  | negationOverflow operand => s!"integer overflow negating {operand.toInt}"
  | absOverflow => "integer overflow in abs()"
  | undefinedComparison => "comparison with NaN"
  | notIntegral x => Number.Layout.plain.write x ++ " does not fit in an integer"

/-- Why a script has no program, or a program cannot go on. -/
inductive CompileFault where
  | nestedTooDeep
  | unknownFunction (name : String)
  | undeclaredPermission (capability permission : String)
  | tooLarge
  | poolOverflow
  | tooManyScopes
  | tooManyArguments
  | tooManyBindings
  | tooManyItems
  | tooManyEntries
  | constantOutOfRange (index : UInt32)
  | constantNotName (index : UInt32)
  | stackUnderflow
  | scopeUnderflow
  | loopUnderflow
  | jumpOutsideLoop
  | frameOutOfRange
  | slotOutOfRange
  | keyNotString
deriving Repr, DecidableEq

/-- The wording of a compile fault. -/
def CompileFault.message : CompileFault → String
  | nestedTooDeep => nestingMessage
  | unknownFunction name => s!"call to unknown function '{name}'"
  | undeclaredPermission capability permission =>
    s!"capability '{capability}' requires permission '{permission}', which is not declared"
  | tooLarge => "program too large"
  | poolOverflow => "constant pool overflow"
  | tooManyScopes => "scope nesting too deep"
  | tooManyArguments => "too many arguments"
  | tooManyBindings => "too many local bindings"
  | tooManyItems => "too many array items"
  | tooManyEntries => "too many object entries"
  | constantOutOfRange index => s!"constant {index.toNat} out of range"
  | constantNotName index => s!"constant {index.toNat} is not a name"
  | stackUnderflow => "malformed bytecode: stack underflow"
  | scopeUnderflow => "malformed bytecode: scope underflow"
  | loopUnderflow => "malformed bytecode: loop underflow"
  | jumpOutsideLoop => "malformed bytecode: break outside of a loop"
  | frameOutOfRange => "malformed bytecode: frame out of range"
  | slotOutOfRange => "malformed bytecode: slot out of range"
  | keyNotString => "malformed bytecode: object key is not a string"

/-- What is wrong with a template. -/
inductive TemplateFault where
  | parameterName (name : String)
  | duplicateParameter (name : String)
  | defaultMismatch (name expected found : String)
  | undeclaredPlaceholder (name : String)
deriving Repr, DecidableEq

/-- The wording of a template fault. -/
def TemplateFault.message : TemplateFault → String
  | parameterName name => s!"parameter name '{name}' is not an identifier"
  | duplicateParameter name => s!"parameter '{name}' declared twice"
  | defaultMismatch name expected found =>
    s!"default for '{name}' expects {expected}, found {found}"
  | undeclaredPlaceholder name => "placeholder '\x7b\x7b" ++ name ++ "\x7d\x7d' has no parameter"

/-- The quantities that a run is limited in. -/
inductive Resource where
  | steps
  | time
  | scopeDepth
  | expressionDepth
deriving Repr, DecidableEq

/-- How messages name a limited quantity. -/
def Resource.describe : Resource → String
  | steps => "step"
  | time => "time"
  | scopeDepth => "scope depth"
  | expressionDepth => "expression depth"

/-- The two kinds of registries. -/
inductive RegistryKind where
  | template
  | capability
deriving Repr, DecidableEq

/-- How messages name what a registry holds. -/
def RegistryKind.describe : RegistryKind → String
  | template => "template"
  | capability => "capability"

/-- Every failure of the engine. -/
inductive Error where
  | parse (error : SyntaxError)
  | compile (fault : CompileFault)
  | type (fault : TypeFault)
  | notDefined (name : String)
  | permissionDenied (capability permission : String)
  | arithmetic (fault : ArithmeticFault)
  | exhausted (resource : Resource) (limit : Nat)
  | cancelled
  | indexOutOfBounds (index : Int64) (length : Nat)
  | missingParameter (template parameter : String)
  | typeMismatch (parameter expected found : String)
  | unknownParameter (template parameter : String)
  | unknownTemplate (name : String)
  | invalidTemplate (name : String) (fault : TemplateFault)
  | conflict (kind : RegistryKind) (name : String)
  | invalidIdentifier (name : String)
  /-- A JSON text that does not decode. -/
  | serialization
  | hostCall (subsystem function cause : String)
deriving DecidableEq

/-- The wording of an error. -/
def Error.message : Error → String
  | parse error => "Parse error: " ++ error.message
  | compile fault => "Compile error: " ++ fault.message
  | type fault => "Type error: " ++ fault.message
  | notDefined name => s!"'{name}' is not defined"
  | permissionDenied capability permission =>
    s!"Permission denied: capability '{capability}' requires '{permission}'"
  | arithmetic fault => "Arithmetic error: " ++ fault.message
  | exhausted resource limit =>
    s!"Resource exhausted: {resource.describe} limit of {limit} exceeded"
  | cancelled => "Execution cancelled"
  | indexOutOfBounds index length =>
    s!"Index {index.toInt} out of bounds for length {length}"
  | missingParameter template parameter =>
    s!"Template '{template}' is missing required parameter '{parameter}'"
  | typeMismatch parameter expected found =>
    s!"Parameter '{parameter}' expects {expected}, found {found}"
  | unknownParameter template parameter =>
    s!"Template '{template}' has no parameter '{parameter}'"
  | unknownTemplate name => s!"Template '{name}' not found"
  | invalidTemplate name fault => s!"Invalid template '{name}': " ++ fault.message
  | conflict kind name => s!"{kind.describe} '{name}' is already registered"
  | invalidIdentifier name => s!"'{name}' is not a valid identifier"
  | serialization => "Serialization error"
  | hostCall subsystem function cause => s!"Host call {subsystem}.{function} failed: {cause}"

end Covenant

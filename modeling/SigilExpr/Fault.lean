import SigilExpr.Text.Location

/-!
# Faults in a source

A fault says why a source is not an expression that may run: its text is malformed, it uses a form
that is not allowed, or it names a helper that nobody registered. A fault carries byte offsets; the
source turns them into a location, a quoted fragment and a message.
-/

set_option autoImplicit false

namespace SigilExpr

inductive Place where
  | startOfOperand
  | propertyName
  | operand
  | afterExpression
deriving DecidableEq

def Place.text : Place → String
  | .startOfOperand => "at start of operand"
  | .propertyName => "after '.'; expected property name"
  | .operand => "where an operand was expected"
  | .afterExpression => "after expression"

inductive Missing where
  | colon
  | keyEnd
  | argumentsEnd
  | groupEnd
  | arrayEnd
deriving DecidableEq

def Missing.text : Missing → String
  | .colon => "expected ':' in conditional expression"
  | .keyEnd => "expected ']' after computed property"
  | .argumentsEnd => "expected ')' after call arguments"
  | .groupEnd => "expected ')' after expression"
  | .arrayEnd => "expected ']' after array elements"

inductive Malformation where
  | tooLong (limit : Nat)
  | tooDeep (limit : Nat)
  | unexpectedCharacter (c : Char)
  | hexWithoutDigits
  | invalidNumber
  | nameAfterNumber
  | unterminatedEscape
  | invalidEscape
  | invalidCodePoint
  | newlineInString
  | unterminatedString (start : Nat)
  | endOfExpression (place : Option Place)
  | unexpectedToken (place : Place)
  | missing (token : Missing)
  | secondExpression
  | statement
  | numberOutOfRange
deriving DecidableEq

def Malformation.message (fragment : String) : Malformation → String
  | .tooLong limit => s!"expression exceeds maximum length of {limit} bytes"
  | .tooDeep limit => s!"expression nesting exceeds maximum depth of {limit}"
  | .unexpectedCharacter c => s!"unexpected character '{c}'"
  | .hexWithoutDigits => "hex literal '0x' has no digits"
  | .invalidNumber => s!"invalid number literal '{fragment}': invalid float literal"
  | .nameAfterNumber => "identifier starts immediately after numeric literal"
  | .unterminatedEscape => "unterminated escape sequence"
  | .invalidEscape => "invalid unicode escape"
  | .invalidCodePoint => "invalid unicode code point"
  | .newlineInString => "newline inside string literal"
  | .unterminatedString start => s!"unterminated string literal starting at {start}"
  | .endOfExpression none => "unexpected end of expression"
  | .endOfExpression (some place) => s!"unexpected end of expression {place.text}"
  | .unexpectedToken place => s!"unexpected '{fragment}' {place.text}"
  | .missing token => token.text
  | .secondExpression => "only a single expression is allowed; found ',' after expression"
  | .statement => "statements are not allowed; found ';'"
  | .numberOutOfRange => "numeric literal is out of range"

/-- A form that may not be used, although its text is clear. -/
inductive Restriction where
  | reservedIdentifier
  | super
  | operator (spelling : String)
  | objectLiteral
  | spread
  | assignment
  | update
  | arrowFunction
  | construction
deriving DecidableEq

def Restriction.rule : Restriction → String
  | .reservedIdentifier => "reserved-identifier"
  | .super => "super"
  | .operator _ => "operator"
  | .objectLiteral => "object-literal"
  | .spread => "spread"
  | .assignment => "assignment"
  | .update => "update"
  | .arrowFunction => "arrow-function"
  | .construction => "new"

def Restriction.message : Restriction → String
  | .reservedIdentifier => "identifier '_' is reserved and cannot be used"
  | .super => "'super' is not allowed"
  | .operator spelling => s!"operator '{spelling}' is not allowed"
  | .objectLiteral => "object literals are not allowed"
  | .spread => "spread syntax is not allowed"
  | .assignment => "assignment is not allowed"
  | .update => "increment and decrement are not allowed"
  | .arrowFunction => "arrow functions are not allowed"
  | .construction => "constructor calls with 'new' are not allowed"

/-- Why a source is not an expression that may run, and where. -/
inductive Fault where
  | malformed (cause : Malformation) (span : Span)
  | restricted (restriction : Restriction) (offset : Nat)
  | unresolved (name : String) (offset : Nat)
deriving DecidableEq

namespace Fault

def offset : Fault → Nat
  | .malformed _ span => span.start
  | .restricted _ offset => offset
  | .unresolved _ offset => offset

def location (source : List Char) (f : Fault) : Location :=
  .ofOffset source f.offset

/-- The text of `source` that a malformation quotes; where there is none, the source has ended. -/
def quoted (source : List Char) (span : Span) : String :=
  match Text.slice source span.start span.stop with
  | [] => "<end of input>"
  | cs => String.ofList cs

def reason (source : List Char) : Fault → String
  | .malformed cause span => cause.message (quoted source span)
  | .restricted restriction _ => restriction.message
  | .unresolved name _ => s!"helper '{name}' is not registered"

def message (source : List Char) (f : Fault) : String :=
  let place := (f.location source).text
  match f with
  | .malformed cause span =>
    let fragment := quoted source span
    s!"syntax error at {place}: {cause.message fragment} (near '{fragment}')"
  | .restricted restriction _ =>
    s!"syntax restriction '{restriction.rule}' violated at {place}: {restriction.message}"
  | .unresolved name _ => s!"helper '{name}' used at {place} is not registered"

end Fault

end SigilExpr

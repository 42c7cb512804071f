import SigilExpr.Helper.Error

/-!
# Errors of evaluation

Why an evaluation came to no value.
-/

set_option autoImplicit false

namespace SigilExpr

inductive TypeFault where
  | notNumeric (s : String)
  | notPrimitive (kind : Value.Kind)
  | unsupported (spelling : String)
  | fixedPlaces (x : Binary64)

def TypeFault.message : TypeFault → String
  | .notNumeric s => s!"cannot convert string '{s}' to a number"
  | .notPrimitive kind => s!"expected number, got {kind.name}"
  | .unsupported spelling => s!"operator '{spelling}' is not supported"
  | .fixedPlaces x =>
    let digits := Decimal.Layout.plain.write x
    s!"toFixed() digits argument must be between 0 and 100, got {digits}"

inductive ArithmeticFault where
  | divisionByZero
  | moduloByZero
  | invalidResult (x : Binary64)

def ArithmeticFault.message : ArithmeticFault → String
  | .divisionByZero => "division by zero"
  | .moduloByZero => "modulo by zero"
  | .invalidResult x => s!"invalid numeric result {Decimal.Layout.plain.write x}"

inductive RuntimeError where
  | helper (name : String) (cause : HelperError)
  | missingHelper (name : String)
  | notAnObject (property : String) (found : Value.Kind)
  | notCallable (what : String)
  | type (fault : TypeFault)
  | arithmetic (fault : ArithmeticFault)

def RuntimeError.message : RuntimeError → String
  | .helper name cause => s!"helper '{name}' failed: {cause.message}"
  | .missingHelper name => s!"helper '{name}' is not registered"
  | .notAnObject property found => s!"cannot read property '{property}' of {found.name}"
  | .notCallable what => s!"{what} is not a function"
  | .type fault => s!"type error: {fault.message}"
  | .arithmetic fault => s!"arithmetic error: {fault.message}"

end SigilExpr
